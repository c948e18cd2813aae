import Mathlib.Data.List.Induction
import Lobook.Queue.SpscQueue

/-!
# The counters of the ring buffer

`Counts N cached s h t` relates the wrapped indices of a state to the true numbers of completed operations: `h` and
`t` are the numbers of pops and of pushes that the producer's and the consumer's test go by (the real ones, or
those of the last refresh of the caches).  As long as the index that the full test compares with is below `N`, the
producer is at most `N - 1` messages ahead of `h` (`Counts.lap`): this is what the comparison of a masked index with
an unmasked counter guarantees.  Every step keeps the relation, as long as the counters have not wrapped or the ring
is not overfull (`Counts.step`).
-/

namespace Lobook

namespace Producer

/-- The value of the local `tail_idx`. -/
def tailIdx? : Producer → Option Nat
  | .idle => none
  | .fullTest _ t => some t
  | .write _ t => some t
  | .publish t => some t

/-- The push that has passed its full test and is not published. -/
def claim : Producer → Nat
  | .idle => 0
  | .fullTest _ _ => 0
  | .write _ _ => 1
  | .publish _ => 1

end Producer

namespace Consumer

/-- The value of the local `head_idx`. -/
def headIdx? : Consumer → Option Nat
  | .idle => none
  | .emptyTest h => some h
  | .read h => some h
  | .advance h _ => some h

/-- The pop that has passed its empty test and is not completed. -/
def claim : Consumer → Nat
  | .idle => 0
  | .emptyTest _ => 0
  | .read _ => 1
  | .advance _ _ => 1

end Consumer

namespace System

open SPSCQueue

/-- The index that the full test compares with. -/
def consultedHead (cached : Bool) (s : System) : Nat := if cached then s.queue.headCached else s.queue.head

/-- The index that the empty test compares with. -/
def consultedTail (cached : Bool) (s : System) : Nat := if cached then s.queue.tailCached else s.queue.tail

structure Counts (N : Nat) (cached : Bool) (s : System) (h t : Nat) : Prop where
  head : s.queue.head = wrap s.taken
  tail : s.queue.tail = wrap s.pushed
  tailIdx : ∀ i ∈ s.producer.tailIdx?, i = s.queue.tail
  headIdx : ∀ i ∈ s.consumer.headIdx?, i = s.queue.head
  seenHead : s.consultedHead cached = wrap h
  seenTail : s.consultedTail cached = wrap t
  uncached : cached = false → h = s.taken ∧ t = s.pushed
  head_le : h ≤ s.taken
  tail_le : t ≤ s.pushed
  lap : s.consultedHead cached < N → s.pushed + s.producer.claim ≤ h + (N - 1)
  avail : s.taken + s.consumer.claim ≤ t

section Arithmetic

variable {N : Nat}

theorem and_mask (hN : N.isPowerOfTwo) (x : Nat) : x &&& mask N = x % N := by
  obtain ⟨k, rfl⟩ := hN
  exact Nat.and_two_pow_sub_one_eq_mod x k

theorem wrap_mod (hN : N.isPowerOfTwo) (hlt : N < 2 ^ 64) (x : Nat) : wrap x % N = x % N := by
  obtain ⟨k, rfl⟩ := hN
  have hk : k ≤ 64 := Nat.le_of_lt ((Nat.pow_lt_pow_iff_right (by decide)).1 hlt)
  exact Nat.mod_mod_of_dvd x (Nat.pow_dvd_pow 2 hk)

theorem wrap_succ (x : Nat) : wrap (wrap x + 1) = wrap (x + 1) := by
  unfold wrap; omega

theorem wrap_of_lt {x : Nat} (h : x < 2 ^ 64) : wrap x = x := Nat.mod_eq_of_lt h

theorem nextTailIdx_wrap (hN : N.isPowerOfTwo) (hlt : N < 2 ^ 64) (x : Nat) :
    nextTailIdx N (wrap x) = (x + 1) % N := by
  rw [nextTailIdx, and_mask hN, wrap_succ, wrap_mod hN hlt]

/-- A masked index differs from a counter below `N`: the producer is not a whole lap ahead of that counter. -/
theorem lap_of_ne (hN : N.isPowerOfTwo) (hlt : N < 2 ^ 64) {p h : Nat} (hh : wrap h < N) (hp : p ≤ h + (N - 1))
    (hne : (p + 1) % N ≠ wrap h) : p + 1 ≤ h + (N - 1) := by
  have hpos := Nat.pos_of_isPowerOfTwo hN
  refine Nat.le_of_not_lt fun hgt => hne ?_
  rw [show p + 1 = h + N by omega, Nat.add_mod_right, ← wrap_mod hN hlt h, Nat.mod_eq_of_lt hh]

end Arithmetic

section Steps

variable {N : Nat} {cached : Bool} {msgs : Nat → OrderMessage} {s : System} {h t : Nat}

theorem counts_init : Counts N cached init 0 0 where
  head := rfl
  tail := rfl
  tailIdx _ h := by cases h
  headIdx _ h := by cases h
  seenHead := by unfold consultedHead; cases cached <;> rfl
  seenTail := by unfold consultedTail; cases cached <;> rfl
  uncached _ := ⟨rfl, rfl⟩
  head_le := Nat.le_refl 0
  tail_le := Nat.le_refl 0
  lap _ := Nat.zero_le _
  avail := Nat.le_refl 0

/-- What a full test that lets the producer proceed leaves behind. -/
theorem Counts.fullTest_cases {q : SPSCQueue} {i : Nat} (hq : s.queue.fullTest N cached i = some q) :
    (q = s.queue ∧ nextTailIdx N i ≠ s.consultedHead cached) ∨
    (cached = true ∧ nextTailIdx N i = s.queue.headCached ∧ nextTailIdx N i ≠ s.queue.head ∧
      q = { s.queue with headCached := s.queue.head }) := by
  unfold fullTest at hq
  cases cached with
  | true =>
    by_cases h1 : nextTailIdx N i = s.queue.headCached
    · by_cases h2 : nextTailIdx N i = s.queue.head
      · simp [← h1, ← h2] at hq
      · simp only [h1, ↓reduceIte] at hq
        rw [← h1, if_neg h2, Option.some.injEq] at hq
        exact Or.inr ⟨rfl, h1, h2, hq.symm⟩
    · simp only [h1, ↓reduceIte, Option.some.injEq] at hq
      exact Or.inl ⟨hq.symm, h1⟩
  | false =>
    by_cases h1 : nextTailIdx N i = s.queue.head
    · simp [h1] at hq
    · simp only [h1, ↓reduceIte, Bool.false_eq_true, Option.some.injEq] at hq
      exact Or.inl ⟨hq.symm, h1⟩

/-- What an empty test that lets the consumer proceed leaves behind. -/
theorem Counts.emptyTest_cases {q : SPSCQueue} {i : Nat} (hq : s.queue.emptyTest cached i = some q) :
    (q = s.queue ∧ i ≠ s.consultedTail cached) ∨
    (cached = true ∧ i = s.queue.tailCached ∧ i ≠ s.queue.tail ∧ q = { s.queue with tailCached := s.queue.tail }) := by
  unfold emptyTest at hq
  cases cached with
  | true =>
    by_cases h1 : i = s.queue.tailCached
    · by_cases h2 : i = s.queue.tail
      · simp [← h1, ← h2] at hq
      · simp only [h1, ↓reduceIte] at hq
        rw [← h1, if_neg h2, Option.some.injEq] at hq
        exact Or.inr ⟨rfl, h1, h2, hq.symm⟩
    · simp only [h1, ↓reduceIte, Option.some.injEq] at hq
      exact Or.inl ⟨hq.symm, h1⟩
  | false =>
    by_cases h1 : i = s.queue.tail
    · simp [h1] at hq
    · simp only [h1, ↓reduceIte, Bool.false_eq_true, Option.some.injEq] at hq
      exact Or.inl ⟨hq.symm, h1⟩

/-- The producer keeps the relation, without any assumption on the distance of the two sides. -/
theorem Counts.producerStep (hN : N.isPowerOfTwo) (hlt : N < 2 ^ 64) (hc : Counts N cached s h t) :
    ∃ h' t', Counts N cached (s.producerStep N cached msgs) h' t' := by
  unfold System.producerStep
  split
  · -- the tail is read
    rename_i hp
    refine ⟨h, t, { hc with tailIdx := ?_, lap := ?_ }⟩
    · intro i hi; exact (Option.mem_some_iff.1 hi).symm
    · intro hlap; simpa [hp, Producer.claim] using hc.lap hlap
  · -- the full test
    rename_i msg i hp
    have hi : i = s.queue.tail := hc.tailIdx i (by rw [hp]; rfl)
    subst hi
    have hnext : nextTailIdx N s.queue.tail = (s.pushed + 1) % N := by rw [hc.tail, nextTailIdx_wrap hN hlt]
    split
    · exact ⟨h, t, hc⟩
    · rename_i q hq
      rcases Counts.fullTest_cases hq with ⟨rfl, hne⟩ | ⟨rfl, heq, hne, rfl⟩
      · -- the consulted index differs from the next tail
        refine ⟨h, t, { hc with tailIdx := ?_, lap := ?_ }⟩
        · intro i hi; exact (Option.mem_some_iff.1 hi).symm
        · intro hlap
          have hle := hc.lap hlap
          rw [hp] at hle
          rw [hnext, hc.seenHead] at hne
          exact lap_of_ne hN hlt (hc.seenHead ▸ hlap) hle hne
      · -- the cache is refreshed: it was equal to the next tail, so below `N`
        have hcache : s.consultedHead true < N := by
          show s.queue.headCached < N
          rw [← heq, hnext]
          exact Nat.mod_lt _ (Nat.pos_of_isPowerOfTwo hN)
        have hle := hc.lap hcache
        rw [hp] at hle
        have hhead := hc.head_le
        refine ⟨s.taken, t, { hc with tailIdx := ?_, seenHead := hc.head, seenTail := hc.seenTail
                                      uncached := by simp, head_le := Nat.le_refl _, lap := ?_ }⟩
        · intro i hi; exact (Option.mem_some_iff.1 hi).symm
        · intro hlap
          change s.queue.head < N at hlap
          rw [hc.head] at hlap
          rw [hnext, hc.head] at hne
          have hp0 : s.pushed ≤ s.taken + (N - 1) := by simp only [Producer.claim] at hle; omega
          exact lap_of_ne hN hlt hlap hp0 hne
  · -- the slot is written
    rename_i msg i hp
    refine ⟨h, t, { hc with tailIdx := ?_, lap := ?_ }⟩
    · intro j hj; exact hc.tailIdx j (by rw [hp]; exact hj)
    · intro hlap; simpa [hp, Producer.claim] using hc.lap hlap
  · -- the tail is published: without a cache the consumer sees it at once
    rename_i i hp
    have hi : i = s.queue.tail := hc.tailIdx i (by rw [hp]; rfl)
    subst hi
    cases cached with
    | true =>
      refine ⟨h, t, { hc with tail := ?_, tailIdx := ?_, lap := ?_, seenTail := hc.seenTail, uncached := by simp
                              tail_le := Nat.le_succ_of_le hc.tail_le }⟩
      · show wrap (s.queue.tail + 1) = wrap (s.pushed + 1)
        rw [hc.tail, wrap_succ]
      · intro j hj; cases hj
      · intro hlap; simpa [hp, Producer.claim] using hc.lap hlap
    | false =>
      obtain ⟨rfl, rfl⟩ := hc.uncached rfl
      have htail : wrap (s.queue.tail + 1) = wrap (s.pushed + 1) := by rw [hc.tail, wrap_succ]
      refine ⟨s.taken, s.pushed + 1, { hc with tail := htail, tailIdx := ?_, lap := ?_, seenTail := htail
                                               uncached := fun _ => ⟨rfl, rfl⟩, tail_le := Nat.le_refl _
                                               avail := Nat.le_succ_of_le hc.avail }⟩
      · intro j hj; cases hj
      · intro hlap; simpa [hp, Producer.claim] using hc.lap hlap

/-- The consumer keeps the relation unless its counter wraps while the ring is overfull. -/
theorem Counts.consumerStep (hc : Counts N cached s h t)
    (hroom : s.pushed < 2 ^ 64 ∨ s.pushed + s.producer.claim ≤ s.taken + (N - 1)) :
    ∃ h' t', Counts N cached (s.consumerStep N cached) h' t' := by
  have htaken := hc.avail
  have hle := hc.tail_le
  unfold System.consumerStep
  split
  · -- the head is read
    rename_i hp
    refine ⟨h, t, { hc with headIdx := ?_, avail := ?_ }⟩
    · intro i hi; exact (Option.mem_some_iff.1 hi).symm
    · rw [hp] at htaken; exact htaken
  · -- the empty test: the head differs from the index consulted, so a message is left
    rename_i i hp
    have hi : i = s.queue.head := hc.headIdx i (by rw [hp]; rfl)
    subst hi
    rw [hp] at htaken
    split
    · exact ⟨h, t, hc⟩
    · rename_i q hq
      rcases Counts.emptyTest_cases hq with ⟨rfl, hne⟩ | ⟨rfl, heq, hne, rfl⟩
      · refine ⟨h, t, { hc with headIdx := ?_, avail := ?_ }⟩
        · intro i hi; exact (Option.mem_some_iff.1 hi).symm
        · have hne' : s.taken ≠ t := fun e => hne (by rw [hc.head, hc.seenTail, e])
          simp only [Consumer.claim, taken] at *
          omega
      · refine ⟨h, s.pushed, { hc with headIdx := ?_, seenHead := hc.seenHead, seenTail := hc.tail
                                       uncached := by simp, tail_le := Nat.le_refl _, avail := ?_ }⟩
        · intro i hi; exact (Option.mem_some_iff.1 hi).symm
        · have hne' : s.taken ≠ s.pushed := fun e => hne (by rw [hc.head, hc.tail, e])
          simp only [Consumer.claim, taken] at *
          omega
  · -- the slot is read
    rename_i i hp
    refine ⟨h, t, { hc with headIdx := ?_, avail := ?_ }⟩
    · intro j hj; exact hc.headIdx j (by rw [hp]; exact hj)
    · rw [hp] at htaken; exact htaken
  · -- the head advances: this is where the two sides may get more than a lap apart
    rename_i i msg hp
    have hi : i = s.queue.head := hc.headIdx i (by rw [hp]; rfl)
    subst hi
    rw [hp] at htaken
    have hhead : wrap (s.queue.head + 1) = wrap (s.taken + 1) := by rw [hc.head, wrap_succ]
    have hsnoc : (s.popped ++ [msg]).length = s.taken + 1 := by simp [taken]
    cases cached with
    | true =>
      refine ⟨h, t, { hc with head := ?_, headIdx := ?_, seenHead := hc.seenHead, uncached := by simp
                              head_le := ?_, avail := ?_ }⟩
      · simp only [taken, hsnoc, hhead]
      · intro j hj; cases hj
      · simp only [taken, hsnoc]; exact Nat.le_succ_of_le hc.head_le
      · simpa only [taken, hsnoc, Consumer.claim] using htaken
    | false =>
      obtain ⟨rfl, rfl⟩ := hc.uncached rfl
      refine ⟨s.taken + 1, s.pushed, { hc with head := ?_, headIdx := ?_, seenHead := hhead, uncached := ?_
                                               head_le := ?_, lap := ?_, avail := ?_ }⟩
      · simp only [taken, hsnoc, hhead]
      · intro j hj; cases hj
      · intro _; simp only [taken, hsnoc, and_self]
      · simp only [taken, hsnoc, Nat.le_refl]
      · intro hlap
        change wrap (s.queue.head + 1) < N at hlap
        rw [hhead] at hlap
        show s.pushed + s.producer.claim ≤ s.taken + 1 + (N - 1)
        rcases hroom with hroom | hroom
        · simp only [Consumer.claim] at htaken
          rw [wrap_of_lt (by omega)] at hlap
          have hold : s.consultedHead false < N := by
            show s.queue.head < N
            rw [hc.head, wrap_of_lt (by omega)]
            omega
          have := hc.lap hold
          omega
        · omega
      · simpa only [taken, hsnoc, Consumer.claim] using htaken

theorem Counts.step (hN : N.isPowerOfTwo) (hlt : N < 2 ^ 64) (hc : Counts N cached s h t)
    (hroom : s.pushed < 2 ^ 64 ∨ s.pushed + s.producer.claim ≤ s.taken + (N - 1)) (a : Actor) :
    ∃ h' t', Counts N cached (s.step N cached msgs a) h' t' := by
  cases a with
  | producer => exact hc.producerStep hN hlt
  | consumer => exact hc.consumerStep hroom

theorem pushed_le_step (s : System) (a : Actor) : s.pushed ≤ (s.step N cached msgs a).pushed := by
  cases a with
  | producer =>
    simp only [System.step, System.producerStep]
    split
    · exact Nat.le_refl _
    · split <;> exact Nat.le_refl _
    · exact Nat.le_refl _
    · exact Nat.le_succ _
  | consumer =>
    simp only [System.step, System.consumerStep]
    split
    · exact Nat.le_refl _
    · split <;> exact Nat.le_refl _
    · exact Nat.le_refl _
    · exact Nat.le_refl _

/-- The counters along any run with fewer than `2 ^ 64` pushes. -/
theorem counts_run (hN : N.isPowerOfTwo) (hlt : N < 2 ^ 64) (sched : List Actor)
    (hpushed : (run N cached msgs sched).pushed < 2 ^ 64) : ∃ h t, Counts N cached (run N cached msgs sched) h t := by
  induction sched using List.reverseRecOn with
  | nil => exact ⟨0, 0, counts_init⟩
  | append_singleton sched a ih =>
    rw [run_snoc] at hpushed ⊢
    have hlt' := Nat.lt_of_le_of_lt (pushed_le_step _ a) hpushed
    obtain ⟨h, t, hc⟩ := ih hlt'
    exact hc.step hN hlt (Or.inl hlt') a

end Steps

end System

end Lobook
