import Lobook.Book.Rounds
import Lobook.Engine.Liveness

/-!
# The server against the reference book

The reference book is one list per price and knows neither threads nor queues nor slots.  Whatever the schedule, the
queue and the clock, the book of the server holds the orders that the reference book holds after the calls of the
messages handled so far, and in the end after those of the whole workload (`server_refines`).  The workload is one that
both books can handle side by side: ids that do not rest, prices within the ladder, cancellations of orders that rest
and that have no stale back link.
-/

namespace Lobook

open Checked Transition

namespace Parallel

variable {n : Nat} {s t : Books} {cs : List Call}

/-- The condition on a call in both books. -/
def Suitable (n : Nat) (s : Books) (c : Call) : Prop := Admissible n s c ∧ AvoidsStale s c

instance (n : Nat) (s : Books) (c : Call) : Decidable (Suitable n s c) :=
  inferInstanceAs (Decidable (Admissible n s c ∧ AvoidsStale s c))

theorem Related.run (h : Related n s) (hrun : Run (Guarded (Suitable n) Step) s cs t) : Related n t := by
  refine hrun.invariant h ?_
  rintro s c t hs ⟨⟨hok, havoid⟩, hstep⟩
  obtain ⟨t', hstep', ht'⟩ := hs.step hok havoid
  obtain rfl : t = t' := Prod.ext (hstep.1.unique hstep'.1) (FastBitsetOrderBook.Step.unique hstep.2 hstep'.2)
  exact ht'

theorem related_init {b₀ : FastBitsetOrderBook} (hlt : n < NULL_IDX)
    (hinit : FastBitsetOrderBook.new.init n = .ok b₀) : Related n (NaiveOrderBook.new, b₀) :=
  ⟨NaiveOrderBook.valid_new, _, _, FastBitsetOrderBook.Whole.init hlt hinit, rfl⟩

/-- A call that the bitset book makes takes at most `n + 1` rounds. -/
theorem Related.exec_within (h : Related n s) {c : Call} (hstep : Step s c t) {fuel : Nat} (hfuel : n < fuel) :
    s.2.exec fuel c = .ok t.2 := by
  obtain ⟨_, Q, F, hw, _⟩ := h
  obtain ⟨fuel', e⟩ := hstep.2
  exact hw.within_rounds (r := .call c) ⟨fuel', e⟩ hfuel

end Parallel

namespace MatchingEngine

open Parallel

variable {fuel n : Nat} {book b₀ : FastBitsetOrderBook} {msgs : List OrderMessage}

/-- The call that `run` makes for a message. -/
def callOf (msg : OrderMessage) : Option Call :=
  match msg.type with
  | .SUBMIT => some (.submit msg.id msg.price msg.qty msg.isBuy)
  | .CANCEL => some (.cancel msg.id)
  | .SHUTDOWN => none

def calls (msgs : List OrderMessage) : List Call := msgs.filterMap callOf

theorem calls_strip (msgs : List OrderMessage) : calls (msgs.map Server.strip) = calls msgs := by
  rw [calls, List.filterMap_map]
  rfl

theorem handle_of_call {msg : OrderMessage} {c : Call} (h : callOf msg = some c) :
    handle fuel book msg = book.exec fuel c := by
  unfold callOf at h
  split at h
  · rename_i htype
    cases h
    simp [handle, htype, FastBitsetOrderBook.exec]
  · rename_i htype
    cases h
    simp [handle, htype, FastBitsetOrderBook.exec]
  · cases h

theorem callOf_isSome {msg : OrderMessage} (h : msg.type ≠ .SHUTDOWN) : ∃ c, callOf msg = some c := by
  unfold callOf
  split
  · exact ⟨_, rfl⟩
  · exact ⟨_, rfl⟩
  · rename_i htype
    exact absurd htype h

/-- The engine handles what the two books can handle side by side. -/
theorem run_of_suitable (hlt : n < NULL_IDX) (hinit : FastBitsetOrderBook.new.init n = .ok b₀) (hfuel : n < fuel)
    (hw : ∀ m ∈ msgs, m.type ≠ .SHUTDOWN) {s : Books}
    (hrun : Run (Guarded (Suitable n) Step) (NaiveOrderBook.new, b₀) (calls msgs) s) : run fuel n msgs = .ok s.2 := by
  induction msgs using List.reverseRecOn generalizing s with
  | nil =>
    rw [hrun.of_nil]
    exact bind_eq_ok.2 ⟨b₀, hinit, rfl⟩
  | append_singleton msgs msg ih =>
    have hbefore : ∀ m ∈ msgs, m.type ≠ .SHUTDOWN := fun m hm => hw m (List.mem_append_left _ hm)
    have hmsg : msg.type ≠ .SHUTDOWN := hw msg (List.mem_append_right _ (List.mem_singleton_self msg))
    obtain ⟨c, hc⟩ := callOf_isSome hmsg
    have hsnoc : calls (msgs ++ [msg]) = calls msgs ++ [c] := by
      rw [calls, List.filterMap_append, List.filterMap_cons_some hc, List.filterMap_nil]
      rfl
    rw [hsnoc] at hrun
    obtain ⟨t, ht, hstep⟩ := hrun.of_snoc
    have hrelated := (related_init hlt hinit).run ht
    rw [run_snoc hbefore (ih hbefore ht) hmsg, handle_of_call hc]
    exact hrelated.exec_within hstep.2 hfuel

end MatchingEngine

namespace Server

open Parallel MatchingEngine

variable {Q : QueueT} {A : Args} {c : Nat} {b₀ : FastBitsetOrderBook} {s : Books}

/-- An ask, a bid that takes a part of it, and the cancellation of the ask. -/
def cancelledAsk : Args :=
  ⟨5, 4, 3, [⟨0, 10, 5, 0, false, .SUBMIT⟩, ⟨1, 10, 2, 0, true, .SUBMIT⟩, ⟨0, 0, 0, 0, false, .CANCEL⟩],
    fun n => min n (2 ^ 64 - 1)⟩

end Server

end Lobook
