import Mathlib.Data.List.Basic
import Lobook.Queue.Counters

/-!
# The ring buffer as a first-in first-out queue

`FifoAt` says what the ring buffer should guarantee in a state: the pops returned the messages in the order of the
pushes, the producer is not about to overwrite a message that is still unread, at most `N - 1` messages are unread,
and the completed operations are those of a run of `NaiveQueue`.

The full test compares the masked index `(tail_ + 1) & mask_` with the unmasked counter `head_`, so it can hold the
producer back only while that counter is below `N`.  `FullTestSound` says that this does not matter: the index
consulted is below `N`, or fewer than `N - 1` messages are unread.  Along every run whose full tests are sound the
queue is first-in first-out (`guarded_fifo`), and after a full test that is not sound the push that follows breaks the
bound.
-/

namespace Lobook

namespace System

open SPSCQueue NaiveQueue

/-- The messages `msgs a, …, msgs (a + n - 1)`. -/
def slice (msgs : Nat → OrderMessage) (a n : Nat) : List OrderMessage := (List.range' a n).map msgs

section Slice

variable {msgs : Nat → OrderMessage}

theorem slice_succ_right (a n : Nat) : slice msgs a (n + 1) = slice msgs a n ++ [msgs (a + n)] := by
  simp [slice, List.range'_concat]

theorem slice_succ_left (a n : Nat) : slice msgs a (n + 1) = msgs a :: slice msgs (a + 1) n := by
  simp [slice, List.range'_succ]

theorem getElem?_slice_zero {i n : Nat} (h : i < n) : (slice msgs 0 n)[i]? = some (msgs i) := by
  simp [slice, h]

end Slice

/-- Where the full test cannot hold the producer back, the ring has room. -/
def FullTestSound (N : Nat) (cached : Bool) (s : System) : Prop :=
  ∀ msg tailIdx, s.producer = .fullTest msg tailIdx → s.consultedHead cached < N ∨ s.unread < N - 1

/-- Every full test that the schedule runs is sound. -/
def Guarded (N : Nat) (cached : Bool) (msgs : Nat → OrderMessage) (sched : List Actor) : Prop :=
  ∀ pre, pre ++ [.producer] <+: sched → FullTestSound N cached (run N cached msgs pre)

/-- What the ring buffer guarantees in a state. -/
structure FifoAt (N : Nat) (msgs : Nat → OrderMessage) (s : System) : Prop where
  popped : ∀ i, i < s.taken → s.popped[i]? = some (msgs i)
  slot : ∀ msg tailIdx, s.producer = .write msg tailIdx →
    ∀ j, s.taken ≤ j → j < s.pushed → wrap j &&& mask N ≠ tailIdx &&& mask N
  unread_le : s.taken ≤ s.pushed ∧ s.unread ≤ N - 1
  refines : ∃ es, NaiveQueue.Run .empty es ⟨slice msgs s.taken s.unread⟩ ∧
    pushes es = slice msgs 0 s.pushed ∧ pops es = s.popped

/-- The invariant behind `FifoAt`: the unread messages are in their slots, and the values in the hands of the
threads are the right ones. -/
structure Ring (N : Nat) (msgs : Nat → OrderMessage) (s : System) : Prop where
  room : s.pushed + s.producer.claim ≤ s.taken + (N - 1)
  slots : ∀ j, s.taken ≤ j → j < s.pushed → s.queue.buffer (j % N) = msgs j
  testing : ∀ msg i, s.producer = .fullTest msg i → msg = msgs s.pushed
  writing : ∀ msg i, s.producer = .write msg i → msg = msgs s.pushed
  written : ∀ i, s.producer = .publish i → s.queue.buffer (s.pushed % N) = msgs s.pushed
  got : ∀ i msg, s.consumer = .advance i msg → msg = msgs s.taken
  refines : ∃ es, NaiveQueue.Run .empty es ⟨slice msgs s.taken s.unread⟩ ∧
    pushes es = slice msgs 0 s.pushed ∧ pops es = s.popped
  popped : s.popped = slice msgs 0 s.taken

section Steps

variable {N : Nat} {cached : Bool} {msgs : Nat → OrderMessage} {s : System} {h t : Nat}

private theorem mod_ne_of_lt {a b : Nat} (hab : a < b) (hd : b < a + N) : a % N ≠ b % N := by
  intro e
  have hmod : (b - a) % N = 0 := Nat.sub_mod_eq_zero_of_mod_eq e.symm
  rw [Nat.mod_eq_of_lt (by omega)] at hmod
  omega

theorem ring_init : Ring N msgs init where
  room := Nat.zero_le _
  slots j _ hj := absurd hj (Nat.not_lt_zero j)
  testing _ _ h := by cases h
  writing _ _ h := by cases h
  written _ h := by cases h
  got _ _ h := by cases h
  refines := ⟨[], Transition.Run.refl, rfl, rfl⟩
  popped := rfl

/-- A full test that is sound lets the producer proceed only with a free slot left. -/
private theorem room_of_fullTest (msgs : Nat → OrderMessage) {msg : OrderMessage} {q : SPSCQueue}
    (hN : N.isPowerOfTwo) (hlt : N < 2 ^ 64) (hc : Counts N cached s h t)
    (hsound : FullTestSound N cached s) (hp : s.producer = .fullTest msg s.queue.tail)
    (hq : s.queue.fullTest N cached s.queue.tail = some q) : s.pushed + 1 ≤ s.taken + (N - 1) := by
  have hle : s.taken ≤ s.pushed := by have := hc.avail; have := hc.tail_le; omega
  obtain ⟨h', t', hc'⟩ : ∃ h' t', Counts N cached (s.producerStep N cached msgs) h' t' := hc.producerStep hN hlt
  have hlap := hc'.lap
  have hle' := hc'.head_le
  simp only [System.producerStep, hp, hq, taken, Producer.claim] at hlap hle'
  rcases hsound msg _ hp with hs | hs
  · rcases Counts.fullTest_cases hq with ⟨rfl, hne⟩ | ⟨rfl, heq, hne, rfl⟩
    · have := hlap hs
      simp only [taken] at *
      omega
    · have hcl := hc.lap hs
      have hhl := hc.head_le
      rw [hc.tail, nextTailIdx_wrap hN hlt, hc.head] at hne
      simp only [hp, Producer.claim, Nat.add_zero] at hcl
      by_cases hw : wrap s.taken < N
      · exact lap_of_ne hN hlt hw (by omega) hne
      · -- the real counter is past the lap, so the stale one is not the real one
        have hne' : h ≠ s.taken := by
          intro e
          apply hw
          rw [← e, ← hc.seenHead]
          exact hs
        omega
  · simp only [unread] at hs
    omega

/-- The unread messages after a push. -/
private theorem slice_pushed (hle : s.taken ≤ s.pushed) :
    slice msgs s.taken (s.pushed + 1 - s.taken) = slice msgs s.taken s.unread ++ [msgs s.pushed] := by
  have hun : s.pushed + 1 - s.taken = s.unread + 1 := by simp only [unread]; omega
  have hlast : s.taken + s.unread = s.pushed := by simp only [unread]; omega
  rw [hun, slice_succ_right, hlast]

/-- The producer keeps the invariant, provided its full test is sound. -/
theorem Ring.producerStep (hN : N.isPowerOfTwo) (hlt : N < 2 ^ 64) (hc : Counts N cached s h t)
    (hr : Ring N msgs s) (hsound : FullTestSound N cached s) : Ring N msgs (s.producerStep N cached msgs) := by
  have hroom := hr.room
  have hle : s.taken ≤ s.pushed := by have := hc.avail; have := hc.tail_le; omega
  unfold System.producerStep
  split
  · -- the tail is read
    rename_i hp
    rw [hp] at hroom
    refine { hr with room := hroom, testing := ?_, writing := ?_, written := ?_ }
    · intro msg i e; cases e; rfl
    · intro msg i e; cases e
    · intro i e; cases e
  · -- the full test: what it lets through has room in the ring
    rename_i msg i hp
    have hi : i = s.queue.tail := hc.tailIdx i (by rw [hp]; rfl)
    subst hi
    split
    · exact hr
    · rename_i q hq
      have hbuf : q.buffer = s.queue.buffer := by
        rcases Counts.fullTest_cases hq with ⟨rfl, _⟩ | ⟨_, _, _, rfl⟩ <;> rfl
      have hfree := room_of_fullTest msgs hN hlt hc hsound hp hq
      refine { hr with room := hfree, slots := ?_, testing := ?_, writing := ?_, written := ?_ }
      · intro j h1 h2; show q.buffer _ = _; rw [hbuf]; exact hr.slots j h1 h2
      · intro msg i e; cases e
      · intro msg' i e; cases e; exact hr.testing msg _ hp
      · intro i e; cases e
  · -- the slot is written: there is room, so it is none that holds an unread message
    rename_i msg i hp
    have hi : i = s.queue.tail := hc.tailIdx i (by rw [hp]; rfl)
    subst hi
    have hslot : s.queue.tail &&& mask N = s.pushed % N := by rw [and_mask hN, hc.tail, wrap_mod hN hlt]
    rw [hp] at hroom
    simp only [Producer.claim] at hroom
    refine { hr with room := hroom, slots := ?_, testing := ?_, writing := ?_, written := ?_ }
    · intro j h1 h2
      show Function.update s.queue.buffer _ _ _ = _
      have hne : j % N ≠ s.pushed % N := mod_ne_of_lt h2 (by simp only [taken] at h1 hroom; omega)
      rw [hslot, Function.update_of_ne hne, hr.slots j h1 h2]
    · intro msg i e; cases e
    · intro msg i e; cases e
    · intro i _
      show Function.update s.queue.buffer _ _ _ = _
      rw [hslot, Function.update_self, hr.writing msg _ hp]
  · -- the tail is published: this is the step at which the push takes effect
    rename_i i hp
    rw [hp] at hroom
    refine { hr with room := hroom, slots := ?_, testing := ?_, writing := ?_, written := ?_, refines := ?_ }
    · intro j h1 h2
      rcases Nat.lt_or_eq_of_le (Nat.le_of_lt_succ h2) with h2 | rfl
      · exact hr.slots j h1 h2
      · exact hr.written i hp
    · intro msg i e; cases e
    · intro msg i e; cases e
    · intro i e; cases e
    · obtain ⟨es, hrun, hpush, hpop⟩ := hr.refines
      refine ⟨es ++ [.push (msgs s.pushed)], hrun.snoc ?_, ?_, ?_⟩
      · show NaiveQueue.mk (slice msgs s.taken (s.pushed + 1 - s.taken)) = NaiveQueue.push _ _
        rw [slice_pushed hle]
        rfl
      · rw [pushes_snoc_push, hpush]
        show _ = slice msgs 0 (s.pushed + 1)
        rw [slice_succ_right, Nat.zero_add]
      · rw [pops_snoc_push, hpop]

/-- The consumer keeps the invariant. -/
theorem Ring.consumerStep (hN : N.isPowerOfTwo) (hlt : N < 2 ^ 64) (hc : Counts N cached s h t)
    (hr : Ring N msgs s) : Ring N msgs (s.consumerStep N cached) := by
  have havail := hc.avail
  have htail := hc.tail_le
  unfold System.consumerStep
  split
  · -- the head is read
    refine { hr with got := ?_ }
    intro i msg e; cases e
  · -- the empty test writes nothing but the cache
    split
    · exact hr
    · rename_i q hq
      have hbuf : q.buffer = s.queue.buffer := by
        rcases Counts.emptyTest_cases hq with ⟨rfl, _⟩ | ⟨_, _, _, rfl⟩ <;> rfl
      refine { hr with slots := ?_, written := ?_, got := ?_ }
      · intro j h1 h2; show q.buffer _ = _; rw [hbuf]; exact hr.slots j h1 h2
      · intro i e; show q.buffer _ = _; rw [hbuf]; exact hr.written i e
      · intro i msg e; cases e
  · -- the slot is read: it holds the oldest unread message
    rename_i i hp
    have hi : i = s.queue.head := hc.headIdx i (by rw [hp]; rfl)
    subst hi
    rw [hp] at havail
    refine { hr with got := ?_ }
    intro i msg e
    cases e
    rw [and_mask hN, hc.head, wrap_mod hN hlt]
    exact hr.slots s.taken (Nat.le_refl _) (by simp only [Consumer.claim] at havail; omega)
  · -- the head advances: this is the step at which the pop takes effect
    rename_i i msg hp
    rw [hp] at havail
    have hlt' : s.taken < s.pushed := by simp only [Consumer.claim] at havail; omega
    have hmsg := hr.got i msg hp
    have hsnoc : (s.popped ++ [msg]).length = s.taken + 1 := by simp [taken]
    have hun : s.unread = s.pushed - (s.taken + 1) + 1 := by simp only [unread]; omega
    refine { hr with room := ?_, slots := ?_, got := ?_, refines := ?_, popped := ?_ }
    · have := hr.room
      simp only [taken] at this ⊢
      rw [hsnoc]
      simp only [taken]
      omega
    · intro j h1 h2
      simp only [taken, hsnoc] at h1
      exact hr.slots j (by simp only [taken]; omega) h2
    · intro i msg e; cases e
    · obtain ⟨es, hrun, hpush, hpop⟩ := hr.refines
      refine ⟨es ++ [.pop msg], hrun.snoc ?_, ?_, ?_⟩
      · show NaiveQueue.pop _ = _
        rw [hun, slice_succ_left, ← hmsg]
        simp only [NaiveQueue.pop, taken, unread, hsnoc]
      · rw [pushes_snoc_pop, hpush]
      · rw [pops_snoc_pop, hpop]
    · show s.popped ++ [msg] = slice msgs 0 (s.popped ++ [msg]).length
      rw [hsnoc, slice_succ_right, Nat.zero_add, ← hr.popped, ← hmsg]

end Steps

section Runs

variable {N : Nat} {cached : Bool} {msgs : Nat → OrderMessage}

theorem Guarded.init_of_snoc {sched : List Actor} {a : Actor} (hg : Guarded N cached msgs (sched ++ [a])) :
    Guarded N cached msgs sched :=
  fun pre hpre => hg pre (hpre.trans (List.prefix_append sched [a]))

/-- Both invariants hold along every run whose full tests are sound. -/
theorem ring_run (hN : N.isPowerOfTwo) (hlt : N < 2 ^ 64) (sched : List Actor)
    (hg : Guarded N cached msgs sched) :
    Ring N msgs (run N cached msgs sched) ∧ ∃ h t, Counts N cached (run N cached msgs sched) h t := by
  induction sched using List.reverseRecOn with
  | nil => exact ⟨ring_init, 0, 0, counts_init⟩
  | append_singleton sched a ih =>
    obtain ⟨hr, h, t, hc⟩ := ih hg.init_of_snoc
    rw [run_snoc]
    refine ⟨?_, hc.step hN hlt (Or.inr hr.room) a⟩
    cases a with
    | producer => exact hr.producerStep hN hlt hc (hg sched List.prefix_rfl)
    | consumer => exact hr.consumerStep hN hlt hc

theorem Ring.fifoAt {s : System} {h t : Nat} (hN : N.isPowerOfTwo) (hlt : N < 2 ^ 64) (hc : Counts N cached s h t)
    (hr : Ring N msgs s) : FifoAt N msgs s where
  popped i hi := by rw [hr.popped]; exact getElem?_slice_zero hi
  slot msg i hp j h1 h2 := by
    have hi : i = s.queue.tail := hc.tailIdx i (by rw [hp]; rfl)
    have hroom := hr.room
    rw [hp] at hroom
    simp only [Producer.claim] at hroom
    rw [hi, and_mask hN, and_mask hN, hc.tail, wrap_mod hN hlt, wrap_mod hN hlt]
    exact mod_ne_of_lt h2 (by omega)
  unread_le := by
    have := hc.avail
    have := hc.tail_le
    have := hr.room
    simp only [unread]
    omega
  refines := hr.refines

/-- After a full test that is not sound, the push that it lets pass fills the last slot. -/
theorem Counts.overfull (msgs : Nat → OrderMessage) {s : System} {h t : Nat} (hN : N.isPowerOfTwo) (hlt : N < 2 ^ 64)
    (hc : Counts N cached s h t) (hbad : ¬ FullTestSound N cached s) :
    N ≤ (((s.step N cached msgs .producer).step N cached msgs .producer).step N cached msgs .producer).unread := by
  simp only [FullTestSound, not_forall, not_or, Nat.not_lt] at hbad
  obtain ⟨msg, i, hp, hhead, hfull⟩ := hbad
  have hi : i = s.queue.tail := hc.tailIdx i (by rw [hp]; rfl)
  subst hi
  have hne : nextTailIdx N s.queue.tail ≠ s.consultedHead cached := by
    rw [hc.tail, nextTailIdx_wrap hN hlt]
    have := Nat.mod_lt (s.pushed + 1) (Nat.pos_of_isPowerOfTwo hN)
    omega
  have htest : s.queue.fullTest N cached s.queue.tail = some s.queue := by
    unfold consultedHead at hne
    unfold fullTest
    cases cached with
    | true => exact if_neg hne
    | false => exact if_neg hne
  have havail := hc.avail
  have htail := hc.tail_le
  simp only [System.step, System.producerStep, hp, htest, unread, taken] at *
  omega

/-- Along every run whose full tests are sound the ring buffer is a first-in first-out queue; and where such a run
comes to a full test that is not sound, letting the producer go on breaks the bound on the unread messages. -/
theorem guarded_fifo (hN : N.isPowerOfTwo) (_h2 : 2 ≤ N) (hlt : N < 2 ^ 64) (cached : Bool)
    (msgs : Nat → OrderMessage) (sched : List Actor) (hg : Guarded N cached msgs sched) :
    FifoAt N msgs (run N cached msgs sched) ∧
      (¬ FullTestSound N cached (run N cached msgs sched) →
        ¬ FifoAt N msgs (run N cached msgs (sched ++ [.producer, .producer, .producer]))) := by
  obtain ⟨hr, h, t, hc⟩ := ring_run hN hlt sched hg
  refine ⟨hr.fifoAt hN hlt hc, fun hbad hfifo => ?_⟩
  have hover := hc.overfull msgs hN hlt hbad
  have hle := hfifo.unread_le.2
  have hpos := Nat.pos_of_isPowerOfTwo hN
  rw [show run N cached msgs (sched ++ [.producer, .producer, .producer]) =
    (((run N cached msgs sched).step N cached msgs .producer).step N cached msgs .producer).step N cached msgs
      .producer by simp [run]] at hle
  omega

end Runs

section Overrun

/-- Messages told apart by their id. -/
def numbered (i : Nat) : OrderMessage := { OrderMessage.zero with id := i }

private def push : List Actor := List.replicate 4 .producer

private def pop : List Actor := List.replicate 4 .consumer

/-- Two pushes and pops bring `head_` to `2`; three more pushes then meet no resistance in a ring of two slots. -/
def overrun : List Actor := push ++ pop ++ push ++ pop ++ push ++ push ++ push ++ pop

/-- In a ring of two slots the third pop returns the fifth message, in both modes. -/
theorem overrun_not_fifo :
    (run 2 true numbered overrun).popped = [numbered 0, numbered 1, numbered 4] ∧
    (run 2 false numbered overrun).popped = [numbered 0, numbered 1, numbered 4] ∧
    ¬ FifoAt 2 numbered (run 2 true numbered overrun) ∧ ¬ FifoAt 2 numbered (run 2 false numbered overrun) := by
  have ht : (run 2 true numbered overrun).popped = [numbered 0, numbered 1, numbered 4] := by decide
  have hf : (run 2 false numbered overrun).popped = [numbered 0, numbered 1, numbered 4] := by decide
  refine ⟨ht, hf, fun h => ?_, fun h => ?_⟩
  · have h2 := h.popped 2 (by rw [taken, ht]; decide)
    rw [ht] at h2
    exact absurd h2 (by decide)
  · have h2 := h.popped 2 (by rw [taken, hf]; decide)
    rw [hf] at h2
    exact absurd h2 (by decide)

/-- A run with sound full tests: one push and one pop in a ring of four slots. -/
theorem guarded_fifo_once : FifoAt 4 numbered (run 4 true numbered (push ++ pop)) := by
  refine (guarded_fifo (by decide) (by decide) (by decide) true numbered (push ++ pop) ?_).1
  intro pre hpre msg i _
  have hcache : ∀ n < 9, (run 4 true numbered ((push ++ pop).take n)).queue.headCached = 0 := by decide
  have htake := List.prefix_iff_eq_take.1 ((List.prefix_append pre _).trans hpre)
  have hlen : pre.length < 9 := Nat.lt_succ_of_le ((List.prefix_append pre _).trans hpre).length_le
  have hhead := hcache _ hlen
  rw [← htake] at hhead
  exact Or.inl (by simp only [consultedHead, ↓reduceIte, hhead]; decide)

end Overrun

end System

end Lobook
