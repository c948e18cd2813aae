import Lobook.Queue.Handover

/-!
# Old messages make no difference

`System.run` interleaves the accesses of the two threads to one memory, as if each load returned the last message.  As
far as the threads can tell, every run on a memory with release and acquire is such a run (`weak_run_interleaved`): a
test that passes by an old index would pass by the last one, and a test that fails by an old one is a turn spent waiting.
-/

namespace Lobook

open Checked ReleaseAcquire SPSCQueue

namespace WeakSystem

variable {N : Nat} {cached : Bool} {msgs : List OrderMessage} {s s' : WeakSystem} {t : System}

/-- The same state, apart from the caches and from what the threads have seen. -/
structure Matches (s : WeakSystem) (t : System) : Prop where
  producer : t.producer = s.producer
  consumer : t.consumer = s.consumer
  pushed : t.pushed = s.pushed
  popped : t.popped = s.popped
  buffer : t.queue.buffer = s.memory.cell
  tail : t.queue.tail = wrap s.pushed
  head : t.queue.head = wrap s.taken

/-- The messages in the order of the pushes. -/
def message (msgs : List OrderMessage) (i : Nat) : OrderMessage := msgs.getD i .zero

theorem message_of_getElem? {i : Nat} {msg : OrderMessage} (h : msgs[i]? = some msg) : message msgs i = msg := by
  rw [message, List.getD_eq_getElem?_getD, h]
  rfl

/-- A producer that has passed its test would have passed it by the last value of `head_`. -/
theorem Handed.not_full (h : Handed N cached msgs s) (hN : N.isPowerOfTwo) (hlt : N < 2 ^ 63) {msg : OrderMessage}
    {i : Nat} (hp : s.producer = .write msg i) : nextTailIdx N (wrap s.pushed) ≠ wrap s.taken := by
  have hpos := Nat.pos_of_isPowerOfTwo hN
  have hlap := h.spaced.lap
  have hseen := h.spaced.seenHead
  have hhead := h.head_le
  have htaken := h.taken_le
  rw [hp] at hlap
  simp only [Producer.claim] at hlap
  rw [System.nextTailIdx_wrap hN (by omega), h.wrap_eq hlt (by omega)]
  intro e
  have hlow : s.taken < N := e ▸ Nat.mod_lt _ hpos
  -- the next index has the residue of `taken`, so it is at least one lap ahead
  have hmod : s.taken % N = (s.pushed + 1) % N := by rw [e, Nat.mod_eq_of_lt hlow]
  have hle : s.taken + N ≤ s.pushed + 1 := Nat.ModEq.add_le_of_lt hmod (by omega)
  have := hlap (by omega)
  omega

/-- A consumer that has passed its test would have passed it by the last value of `tail_`. -/
theorem Handed.not_empty (h : Handed N cached msgs s) (hlt : N < 2 ^ 63) {i : Nat} (hc : s.consumer = .read i) :
    wrap s.taken ≠ wrap s.pushed := by
  have htaken := h.taken_le
  rw [hc] at htaken
  simp only [Consumer.claim] at htaken
  rw [h.wrap_eq hlt (by omega), h.wrap_eq hlt (Nat.le_refl _)]
  omega

theorem matches_init : Matches init System.init := ⟨rfl, rfl, rfl, rfl, rfl, rfl, rfl⟩

/-- A turn of the producer is one of the interleaved producer, or a turn spent waiting. -/
theorem Matches.producerStep (hm : Matches s t) (h : Handed N cached msgs s) (h' : Handed N cached msgs s')
    (hN : N.isPowerOfTwo) (hlt : N < 2 ^ 63) {i : Nat} (hstep : s.producerStep N cached msgs i = .ok s') :
    Matches s' t ∨ Matches s' (t.producerStep N false (message msgs)) := by
  have htail : t.queue.tail = s.pushed := hm.tail.trans (h.wrap_eq hlt (Nat.le_refl _))
  unfold WeakSystem.producerStep at hstep
  split at hstep
  · rename_i hp
    split at hstep
    · cases hstep
      exact Or.inl hm
    · rename_i msg hmsg
      split at hstep
      · cases hstep
        exact Or.inl hm
      · rename_i tailIdx memory hload
        obtain ⟨rfl, rfl⟩ := h.counters.load_own (show Index.owner .tail = .producer from rfl) hload
        cases hstep
        right
        have hp' := hm.producer.trans hp
        unfold System.producerStep
        simp only [hp']
        refine { hm with producer := ?_ }
        rw [hm.pushed, message_of_getElem? hmsg, hm.tail, h.pushed]
  · rename_i msg tailIdx hp
    -- the producer has passed its test
    have hpass : s'.producer = .write msg tailIdx → Matches { s' with producer := s.producer } t →
        Matches s' (t.producerStep N false (message msgs)) := by
      intro hwriting hm'
      have hi : tailIdx = s'.pushed := h'.tailIdx tailIdx (by rw [hwriting]; rfl)
      have hne := h'.not_full hN hlt hwriting
      rw [h'.wrap_eq hlt (Nat.le_refl _), ← hi, ← show t.queue.head = wrap s'.taken from hm'.head] at hne
      have htest : t.queue.fullTest N false tailIdx = some t.queue := by
        simp only [fullTest, if_neg hne, Bool.false_eq_true, ↓reduceIte]
      unfold System.producerStep
      simp only [hm.producer.trans hp, htest]
      exact { hm' with producer := hwriting.symm }
    split at hstep
    · cases hstep
      exact Or.inr (hpass rfl hm)
    · split at hstep
      · cases hstep
        exact Or.inl hm
      · rename_i a memory hload
        obtain ⟨v, rfl, _⟩ := h.counters.load_acquire hload
        split at hstep
        · cases hstep
          exact Or.inl { hm with buffer := hm.buffer }
        · cases hstep
          exact Or.inr (hpass rfl { hm with buffer := hm.buffer })
  · rename_i msg tailIdx hp
    obtain ⟨memory, hwrite, hstep⟩ := bind_eq_ok.1 hstep
    cases hstep
    right
    unfold System.producerStep
    simp only [hm.producer.trans hp]
    exact { hm with producer := rfl, buffer := by rw [Memory.cell_of_write hwrite, hm.buffer] }
  · rename_i tailIdx hp
    cases hstep
    have hi : tailIdx = s.pushed := h.tailIdx tailIdx (by rw [hp]; rfl)
    right
    unfold System.producerStep
    simp only [hm.producer.trans hp]
    exact { hm with producer := rfl, pushed := by rw [hm.pushed], tail := by rw [hi] }

theorem Matches.consumerStep (hm : Matches s t) (h : Handed N cached msgs s) (h' : Handed N cached msgs s')
    (hlt : N < 2 ^ 63) {i : Nat} (hstep : s.consumerStep N cached i = .ok s') :
    Matches s' t ∨ Matches s' (t.consumerStep N false) := by
  unfold WeakSystem.consumerStep at hstep
  split at hstep
  · rename_i hc
    split at hstep
    · cases hstep
      exact Or.inl hm
    · rename_i headIdx memory hload
      obtain ⟨rfl, rfl⟩ := h.counters.load_own (show Index.owner .head = .consumer from rfl) hload
      cases hstep
      right
      unfold System.consumerStep
      simp only [hm.consumer.trans hc]
      refine { hm with consumer := ?_ }
      rw [hm.head, h.taken]
  · rename_i headIdx hc
    -- the consumer has passed its test
    have hpass : s'.consumer = .read headIdx → Matches { s' with consumer := s.consumer } t →
        Matches s' (t.consumerStep N false) := by
      intro hreading hm'
      have hle := h'.taken_le
      have hi : headIdx = s'.taken := h'.headIdx headIdx (by rw [hreading]; rfl)
      have hne := h'.not_empty hlt hreading
      rw [h'.wrap_eq hlt (by omega), ← hi, ← show t.queue.tail = wrap s'.pushed from hm'.tail] at hne
      have htest : t.queue.emptyTest false headIdx = some t.queue := by
        simp only [emptyTest, if_neg hne, Bool.false_eq_true, ↓reduceIte]
      unfold System.consumerStep
      simp only [hm.consumer.trans hc, htest]
      exact { hm' with consumer := hreading.symm }
    split at hstep
    · cases hstep
      exact Or.inr (hpass rfl hm)
    · split at hstep
      · cases hstep
        exact Or.inl hm
      · rename_i a memory hload
        obtain ⟨v, rfl, _⟩ := h.counters.load_acquire hload
        split at hstep
        · cases hstep
          exact Or.inl { hm with buffer := hm.buffer }
        · cases hstep
          exact Or.inr (hpass rfl { hm with buffer := hm.buffer })
  · rename_i headIdx hc
    obtain ⟨r, hread, hstep⟩ := bind_eq_ok.1 hstep
    obtain ⟨hvalue, hcell⟩ := Memory.cell_of_read hread
    cases hstep
    right
    unfold System.consumerStep
    simp only [hm.consumer.trans hc]
    exact { hm with consumer := by rw [hm.buffer, hvalue], buffer := hm.buffer.trans hcell.symm }
  · rename_i headIdx msg hc
    cases hstep
    have hi : headIdx = s.taken := h.headIdx headIdx (by rw [hc]; rfl)
    right
    unfold System.consumerStep
    simp only [hm.consumer.trans hc]
    refine { hm with consumer := rfl, popped := by rw [hm.popped], head := ?_ }
    rw [hi]
    show _ = wrap (s.popped ++ [msg]).length
    rw [List.length_append]
    rfl

theorem Matches.step (hm : Matches s t) (h : Handed N cached msgs s) (h' : Handed N cached msgs s')
    (hN : N.isPowerOfTwo) (hlt : N < 2 ^ 63) {a : Actor × Nat} (hstep : s.step N cached msgs a = .ok s') :
    Matches s' t ∨ Matches s' (t.step N false (message msgs) a.1) := by
  obtain ⟨u, i⟩ := a
  cases u with
  | producer => exact hm.producerStep h h' hN hlt hstep
  | consumer => exact hm.consumerStep h h' hlt hstep

/-- As long as no more than `2 * N` messages are pushed, every run on a memory with release and acquire, with the caches
or without, is matched by a run of the interleaved threads. -/
theorem weak_run_interleaved (hN : N.isPowerOfTwo) (hlt : N < 2 ^ 63) (hlen : msgs.length ≤ 2 * N) (cached : Bool)
    (sched : List (Actor × Nat)) :
    ∃ s sched', run N cached msgs sched = .ok s ∧ Matches s (System.run N false (message msgs) sched') := by
  have hmatch : ∃ s sched', run N cached msgs sched = .ok s ∧ Handed N cached msgs s ∧
      Matches s (System.run N false (message msgs) sched') := by
    induction sched using List.reverseRecOn with
    | nil => exact ⟨init, [], rfl, handed_init, matches_init⟩
    | append_singleton sched a ih =>
      obtain ⟨s, sched', hrun, h, hm⟩ := ih
      obtain ⟨s', hstep, h'⟩ := h.next hN hlt hlen a
      have hrun' : run N cached msgs (sched ++ [a]) = .ok s' := by
        rw [run_snoc, hrun]
        exact hstep
      rcases hm.step h h' hN hlt hstep with hm' | hm'
      · exact ⟨s', sched', hrun', h', hm'⟩
      · refine ⟨s', sched' ++ [a.1], hrun', h', ?_⟩
        rw [System.run_snoc]
        exact hm'
  obtain ⟨s, sched', hrun, _, hm⟩ := hmatch
  exact ⟨s, sched', hrun, hm⟩

/-- A push, and then an empty test that still sees the first value of `tail_`. -/
def staleTail : List (Actor × Nat) :=
  [(.producer, 0), (.producer, 0), (.producer, 0), (.producer, 0), (.consumer, 0), (.consumer, 0)]

theorem weak_run_interleaved_staleTail :
    ∃ s sched', run 2 true [.zero] staleTail = .ok s ∧ Matches s (System.run 2 false (message [.zero]) sched') :=
  weak_run_interleaved ⟨1, by decide⟩ (by decide) (by decide) true staleTail

end WeakSystem

end Lobook
