import Lobook.Book.Converse
import Lobook.Book.Refinement

/-!
# The three books

The reference book, the linear-scan book and the bitset book make the same calls.  Next to the conditions of the
bitset book (`Parallel`), the linear-scan book must not be given an order at the last price that its scan looks at.  Then
all three return from every call; the two books with slots have the same data, which holds the orders of the reference
book (`three_books`).
-/

namespace Lobook

open Checked Transition

namespace Trio

open FastBitsetOrderBook FastOrderBook

structure Books where
  naive : NaiveOrderBook
  scan : FastOrderBook
  bitset : FastBitsetOrderBook

/-- Each book makes the call. -/
structure Step (s : Books) (c : Call) (t : Books) : Prop where
  naive : s.naive.Step c t.naive
  scan : FastOrderBook.Step s.scan c t.scan
  bitset : s.bitset.Step c t.bitset

/-- New ids below `n` at prices within the ladder, except the last one that the scan looks at, and cancellations of orders
that rest and have no stale back link. -/
def Suitable (n : Nat) (s : Books) : Call → Prop
  | .submit id price _ isBuy => id < n ∧ ¬ s.naive.Resting id ∧ price < MAX_PRICES ∧ price ≠ lastPrice isBuy
  | .cancel id => s.naive.Resting id ∧ s.scan.UnlinksCleanly (s.scan.slot id)

instance (n : Nat) (s : Books) (c : Call) : Decidable (Suitable n s c) :=
  match c with
  | .submit id price _ isBuy =>
    inferInstanceAs (Decidable (id < n ∧ ¬ s.naive.Resting id ∧ price < MAX_PRICES ∧ price ≠ lastPrice isBuy))
  | .cancel id => inferInstanceAs (Decidable (s.naive.Resting id ∧ s.scan.UnlinksCleanly (s.scan.slot id)))

/-- The two books with slots have the same data, and hold what the reference book holds. -/
structure Agree (n : Nat) (s : Books) : Prop where
  related : Parallel.Related n (s.naive, s.bitset)
  same : s.bitset.toLadder = s.scan
  indexed : s.bitset.Indexed

variable {n : Nat} {s t : Books} {c : Call}

theorem Agree.step (h : Agree n s) (hc : Suitable n s c) : ∃ t, Step s c t ∧ Agree n t := by
  have hok : Parallel.Admissible n (s.naive, s.bitset) c := by
    cases c with
    | submit id price qty isBuy => exact ⟨hc.1, hc.2.1, hc.2.2.1⟩
    | cancel id => exact hc.1
  have havoid : Parallel.AvoidsStale (s.naive, s.bitset) c := by
    cases c with
    | submit id price qty isBuy => trivial
    | cancel id =>
      show s.bitset.UnlinksCleanly (s.bitset.slot id)
      rw [h.same]
      exact hc.2
  have hinside : Inside c := by
    cases c with
    | submit id price qty isBuy => exact hc.2.2
    | cancel id => trivial
  obtain ⟨⟨m, b⟩, hstep, hrelated⟩ := h.related.step hok havoid
  obtain ⟨hscan, hindexed⟩ := step_reflected h.indexed hinside hstep.2
  rw [h.same] at hscan
  exact ⟨⟨m, b.toLadder, b⟩, ⟨hstep.1, hscan, hstep.2⟩, hrelated, rfl, hindexed⟩

theorem Step.unique {t' : Books} (h : Step s c t) (h' : Step s c t') : t = t' := by
  obtain ⟨m, f, b⟩ := t
  obtain ⟨m', f', b'⟩ := t'
  obtain rfl : m = m' := h.naive.unique h'.naive
  obtain rfl : f = f' := FastOrderBook.Step.unique h.scan h'.scan
  obtain rfl : b = b' := FastBitsetOrderBook.Step.unique h.bitset h'.bitset
  rfl

/-- Along every run of suitable calls the three books hold the same orders, and every suitable call returns in each of
them. -/
theorem three_books {f₀ : FastOrderBook} {b₀ : FastBitsetOrderBook} (hlt : n < NULL_IDX)
    (hscan : Ladder.new.init n = .ok f₀) (hbitset : FastBitsetOrderBook.new.init n = .ok b₀) (cs : List Call) (s : Books)
    (hrun : Run (Guarded (Suitable n) Step) ⟨NaiveOrderBook.new, f₀, b₀⟩ cs s) :
    Parallel.SameOrders (s.naive, s.bitset) ∧ s.bitset.toLadder = s.scan ∧ ∀ c, Suitable n s c → ∃ t, Step s c t := by
  have hinit : Agree n ⟨NaiveOrderBook.new, f₀, b₀⟩ := by
    refine ⟨⟨NaiveOrderBook.valid_new, _, _, Whole.init hlt hbitset, rfl⟩, ?_, Indexed.init hbitset⟩
    obtain ⟨l, hl, e⟩ := bind_eq_ok.1 hbitset
    cases e
    exact Except.ok.inj (hl.symm.trans hscan)
  have hagree : Agree n s := by
    refine hrun.invariant hinit ?_
    rintro s c t hs ⟨hc, hstep⟩
    obtain ⟨t', hstep', ht'⟩ := hs.step hc
    exact hstep.unique hstep' ▸ ht'
  refine ⟨hagree.related.sameOrders, hagree.same, fun c hc => ?_⟩
  obtain ⟨t, hstep, _⟩ := hagree.step hc
  exact ⟨t, hstep⟩

def exec (fuel : Nat) (s : Books) (c : Call) : Exec Books := do
  let m ← s.naive.exec fuel c
  let f ← FastOrderBook.exec fuel s.scan c
  let b ← s.bitset.exec fuel c
  return ⟨m, f, b⟩

theorem step_of_exec {fuel : Nat} (h : exec fuel s c = .ok t) : Step s c t := by
  obtain ⟨m, hm, h⟩ := bind_eq_ok.1 h
  obtain ⟨f, hf, h⟩ := bind_eq_ok.1 h
  obtain ⟨b, hb, h⟩ := bind_eq_ok.1 h
  cases h
  exact ⟨⟨fuel, hm⟩, ⟨fuel, hf⟩, fuel, hb⟩

/-- Two bids at one price and an ask far from them, and the first bid is cancelled. -/
def cancelledBid : List Call := [.submit 0 3 10 true, .submit 1 3 5 true, .submit 2 99997 1 false, .cancel 0]

theorem three_books_cancelledBid : ∃ f₀ b₀ s, Ladder.new.init 4 = .ok f₀ ∧ FastBitsetOrderBook.new.init 4 = .ok b₀ ∧
    Run (Guarded (Suitable 4) Step) ⟨NaiveOrderBook.new, f₀, b₀⟩ cancelledBid s ∧
      Parallel.SameOrders (s.naive, s.bitset) ∧ s.bitset.toLadder = s.scan := by
  have hok : (Ladder.new.init 4 >>= fun f₀ => FastBitsetOrderBook.new.init 4 >>= fun b₀ =>
      cancelledBid.foldlM (guardedExec (Suitable 4) (exec 10)) ⟨NaiveOrderBook.new, f₀, b₀⟩).isOk = true := by
    decide +kernel
  obtain ⟨f₀, hf, h⟩ := bind_eq_ok.1 (eq_ok_value ⟨NaiveOrderBook.new, Ladder.new, FastBitsetOrderBook.new⟩ hok)
  obtain ⟨b₀, hb, h⟩ := bind_eq_ok.1 h
  have hrun := run_of_foldlM (fun _ _ _ => step_of_exec) h
  obtain ⟨hsame, hladder, _⟩ := three_books (by decide) hf hb _ _ hrun
  exact ⟨f₀, b₀, _, hf, hb, hrun, hsame, hladder⟩

end Trio

end Lobook
