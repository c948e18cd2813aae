import Lobook.Queue.MemoryOrder

/-!
# The ring buffer hands its slots over

Every turn keeps `Handed`, as long as no more than `2 * N` messages are pushed, and none of them is a data race
(`Handed.step`).  A load changes what its thread sees of the other index, a test that lets a thread pass compares with
an index that the thread has seen, and an access to a slot is ordered after those of the other thread by that index.
-/

namespace Lobook

open Checked ReleaseAcquire SPSCQueue

namespace WeakSystem

section Steps

variable {N : Nat} {cached : Bool} {msgs : List OrderMessage} {s s' : WeakSystem}

/-! ### The tests -/

/-- The producer sees more pops. -/
theorem Handed.learn_head (h : Handed N cached msgs s) {v : View Index Actor} (hv : v ≤ s.memory.now)
    (hpaired : Memory.Paired Index.owner v) : Handed N cached msgs { s with memory := s.memory.learn .producer v } := by
  obtain ⟨hseenHead, hseenTail, hbound, hroom, hlap, havail⟩ := h.spaced
  have hhead : s.memory.view .producer (.inl .head) ≤ (s.memory.learn .producer v).view .producer (.inl .head) := by
    rw [Memory.view_learn_self]
    exact le_sup_left
  have hother : (s.memory.learn .producer v).view .consumer = s.memory.view .consumer :=
    Memory.view_learn_of_ne _ _ (by decide)
  refine { h with
    counters := h.counters.learn .producer hv hpaired
    pushed := ?_, taken := ?_, spaced := ⟨?_, ?_, hbound, ?_, ?_, ?_⟩ }
  · rw [Memory.now_learn hv]
    exact h.pushed
  · rw [Memory.now_learn hv]
    exact h.taken
  · cases cached with
    | true => exact hseenHead.trans hhead
    | false => exact Nat.le_refl _
  · show (if cached then s.tailCached else _) ≤ _
    rw [hother]
    exact hseenTail
  · show s.pushed + s.producer.claim ≤ (s.memory.learn .producer v).view .producer (.inl .head) + N
    omega
  · cases cached with
    | true => exact hlap
    | false =>
      intro hlt
      have hlap := hlap (Nat.lt_of_le_of_lt hhead hlt)
      change _ ≤ s.memory.view .producer (.inl .head) + (N - 1) at hlap
      show s.pushed + s.producer.claim ≤ (s.memory.learn .producer v).view .producer (.inl .head) + (N - 1)
      omega
  · show _ ≤ (if cached then s.tailCached else _)
    rw [hother]
    exact havail

/-- The consumer sees more pushes. -/
theorem Handed.learn_tail (h : Handed N cached msgs s) {v : View Index Actor} (hv : v ≤ s.memory.now)
    (hpaired : Memory.Paired Index.owner v) : Handed N cached msgs { s with memory := s.memory.learn .consumer v } := by
  obtain ⟨hseenHead, hseenTail, hbound, hroom, hlap, havail⟩ := h.spaced
  have htail : s.memory.view .consumer (.inl .tail) ≤ (s.memory.learn .consumer v).view .consumer (.inl .tail) := by
    rw [Memory.view_learn_self]
    exact le_sup_left
  have hother : (s.memory.learn .consumer v).view .producer = s.memory.view .producer :=
    Memory.view_learn_of_ne _ _ (by decide)
  refine { h with
    counters := h.counters.learn .consumer hv hpaired
    pushed := ?_, taken := ?_, spaced := ⟨?_, ?_, hbound, ?_, ?_, ?_⟩ }
  · rw [Memory.now_learn hv]
    exact h.pushed
  · rw [Memory.now_learn hv]
    exact h.taken
  · show (if cached then s.headCached else _) ≤ _
    rw [hother]
    exact hseenHead
  · cases cached with
    | true => exact hseenTail.trans htail
    | false => exact Nat.le_refl _
  · show _ ≤ (s.memory.learn .consumer v).view .producer (.inl .head) + N
    rw [hother]
    exact hroom
  · show (if cached then s.headCached else _) < N → _ ≤ (if cached then s.headCached else _) + (N - 1)
    rw [hother]
    exact hlap
  · cases cached with
    | true => exact havail
    | false => exact havail.trans htail

/-- A full test lets the producer pass that compares with an index that it has seen. -/
theorem Handed.pass_full (h : Handed N cached msgs s) (hN : N.isPowerOfTwo) (hlt : N < 2 ^ 63) (headCached : Nat)
    {msg : OrderMessage} {i c : Nat} (hp : s.producer = .fullTest msg i) (hpushed : s.pushed < 2 * N)
    (hc : ({ s with headCached := headCached, producer := .write msg i } : WeakSystem).consultedHead cached = c)
    (hseen : c ≤ s.memory.view .producer (.inl .head)) (hold : s.consultedHead cached ≤ c) (hne : nextTailIdx N i ≠ c) :
    Handed N cached msgs { s with headCached := headCached, producer := .write msg i } := by
  obtain rfl : i = s.pushed := h.tailIdx i (by rw [hp]; rfl)
  have hslots := h.slots
  have hunread := h.unread
  have hhead := h.head_le
  have htaken := h.taken_le
  have hlap := h.spaced.lap
  rw [hp] at hslots hunread hlap
  have hwrap : wrap c = c := h.wrap_eq hlt (by omega)
  have hnext : (s.pushed + 1) % N ≠ wrap c := by
    rw [← h.wrap_eq hlt (Nat.le_refl _), System.nextTailIdx_wrap hN (by omega)] at hne
    rwa [hwrap]
  have hlap' : c < N → s.pushed + 1 ≤ c + (N - 1) := by
    intro hcN
    have hle := hlap (by omega)
    simp only [Producer.claim] at hle
    exact System.lap_of_ne hN (by omega) (by omega) (by omega) hnext
  refine { h with
    counters := unpublished_congr h.counters (congrArg Producer.unpublished hp).symm rfl
    slots := hslots
    spaced := { h.spaced with seenHead := hc ▸ hseen, bound := hpushed, room := ?_, lap := hc ▸ hlap' }
    tailIdx := ?_, unread := hunread, testing := ?_, writing := ?_ }
  · -- a counter that has reached `N` leaves room for the last of the `2 * N` messages
    show s.pushed + 1 ≤ s.memory.view .producer (.inl .head) + N
    by_cases hcN : c < N
    · have := hlap' hcN
      omega
    · omega
  · intro j hj
    exact (Option.some.inj hj).symm
  · intro msg' j e
    cases e
  · intro msg' j e
    cases e
    exact h.testing msg _ hp

/-- An empty test lets the consumer pass that compares with an index that it has seen. -/
theorem Handed.pass_empty (h : Handed N cached msgs s) (tailCached : Nat) {i c : Nat}
    (hcons : s.consumer = .emptyTest i)
    (hc : ({ s with tailCached := tailCached, consumer := .read i } : WeakSystem).consultedTail cached = c)
    (hseen : c ≤ s.memory.view .consumer (.inl .tail)) (hold : s.consultedTail cached ≤ c) (hne : i ≠ c) :
    Handed N cached msgs { s with tailCached := tailCached, consumer := .read i } := by
  obtain rfl : i = s.taken := h.headIdx i (by rw [hcons]; rfl)
  have hslots := h.slots
  have havail := h.spaced.avail
  rw [hcons] at hslots havail
  simp only [Consumer.claim] at havail
  have havail' : s.taken + 1 ≤ c := by omega
  refine { h with
    counters := unpublished_congr h.counters rfl (congrArg Consumer.unpublished hcons).symm
    slots := hslots
    spaced := { h.spaced with seenTail := hc ▸ hseen, avail := hc ▸ havail' }
    headIdx := ?_, got := ?_ }
  · intro j hj
    exact (Option.some.inj hj).symm
  · intro j msg e
    cases e

/-! ### The accesses to the slots -/

/-- The producer that has passed its test writes its slot, which nobody else uses. -/
theorem Handed.write (h : Handed N cached msgs s) {msg : OrderMessage} {i : Nat} (hp : s.producer = .write msg i) :
    ∃ m', s.memory.writeCell .producer (i % N) msg = .ok m' ∧
      Handed N cached msgs { s with memory := m', producer := .publish i } := by
  obtain rfl : i = s.pushed := h.tailIdx i (by rw [hp]; rfl)
  have hslots := h.slots
  have hunread := h.unread
  have hroom := h.spaced.room
  have hclock := h.producer_clock
  have hhead := h.head_le
  rw [hp] at hslots hunread hroom hclock
  simp only [Producer.unpublished, Producer.claim, Nat.add_zero] at hslots hunread hroom hclock
  have hfree : s.pushed < s.memory.view .producer (.inr .consumer) + N := by
    rw [h.producer_sees]
    omega
  have hreads : s.taken + s.consumer.unpublished ≤ s.pushed :=
    (Nat.add_le_add_left s.consumer.unpublished_le _).trans h.taken_le
  obtain ⟨m', hwrite, hslots', hhistory, hview, hcell⟩ := hslots.writeCell hclock hfree hreads msg
  have hseen : ∀ u l, m'.view u (.inl l) = s.memory.view u (.inl l) := fun u l => by
    rw [hview, Memory.view_tick_inl]
  have hnow : ∀ l, m'.now (.inl l) = s.memory.now (.inl l) :=
    fun l => congrFun (Memory.now_congr hhistory hview) (.inl l)
  refine ⟨m', hwrite, { h with
    counters := unpublished_congr ((h.counters.tick .producer).congr hhistory hview) ?_ rfl
    pushed := (hnow .tail).trans h.pushed
    taken := (hnow .head).trans h.taken
    slots := hslots'
    spaced := h.spaced.congr (fun u l _ => hseen u l) rfl rfl (by rw [hp]; rfl) rfl
    tailIdx := ?_, unread := ?_, testing := ?_, writing := ?_ }⟩
  · show 1 = s.producer.unpublished + 1
    rw [hp]
    rfl
  · intro j hj
    exact (Option.some.inj hj).symm
  · intro k hk hlt
    change s.taken ≤ k at hk
    change k < s.pushed + 1 at hlt
    show msgs[k]? = some (m'.cell (k % N))
    rw [hcell]
    rcases Nat.lt_or_eq_of_le (Nat.le_of_lt_succ hlt) with hlt | rfl
    · have hne : k % N ≠ s.pushed % N := by
        intro hmod
        have hlap : k + N ≤ s.pushed := Nat.ModEq.add_le_of_lt hmod hlt
        omega
      rw [Function.update_of_ne hne]
      exact hunread k hk hlt
    · rw [Function.update_self]
      exact h.writing msg _ hp
  · intro msg' j e
    cases e
  · intro msg' j e
    cases e

/-- The consumer that has passed its test reads the oldest unread message. -/
theorem Handed.read (h : Handed N cached msgs s) {i : Nat} (hcons : s.consumer = .read i) :
    ∃ m', s.memory.readCell .consumer (i % N) = .ok (s.memory.cell (i % N), m') ∧
      Handed N cached msgs { s with memory := m', consumer := .advance i (s.memory.cell (i % N)) } := by
  obtain rfl : i = s.taken := h.headIdx i (by rw [hcons]; rfl)
  have hslots := h.slots
  have havail := h.spaced.avail
  have hclock := h.consumer_clock
  have hhead := h.head_le
  have htail := h.tail_le
  have hseenTail := h.spaced.seenTail
  have hroom := h.spaced.room
  rw [hcons] at hslots havail hclock
  simp only [Consumer.unpublished, Consumer.claim, Nat.add_zero] at hslots havail hclock
  have hfull : s.taken < s.memory.view .consumer (.inr .producer) := by
    rw [h.consumer_sees]
    omega
  have hwrites : s.pushed + s.producer.unpublished ≤ s.taken + N := by
    have := s.producer.unpublished_le
    omega
  obtain ⟨m', hread, hslots', hhistory, hview, hcell⟩ := hslots.readCell hclock hfull hwrites
  have hseen : ∀ u l, m'.view u (.inl l) = s.memory.view u (.inl l) := fun u l => by
    rw [hview, Memory.view_tick_inl]
  have hnow : ∀ l, m'.now (.inl l) = s.memory.now (.inl l) :=
    fun l => congrFun (Memory.now_congr hhistory hview) (.inl l)
  have hmsg : msgs[s.taken]? = some (s.memory.cell (s.taken % N)) := h.unread _ (Nat.le_refl _) (by omega)
  refine ⟨m', hread, { h with
    counters := unpublished_congr ((h.counters.tick .consumer).congr hhistory hview) rfl ?_
    pushed := (hnow .tail).trans h.pushed
    taken := (hnow .head).trans h.taken
    slots := hslots'
    spaced := h.spaced.congr (fun u l _ => hseen u l) rfl rfl rfl (by rw [hcons]; rfl)
    headIdx := ?_, unread := ?_, got := ?_ }⟩
  · show 1 = s.consumer.unpublished + 1
    rw [hcons]
    rfl
  · intro j hj
    exact (Option.some.inj hj).symm
  · intro k hk hlt
    show msgs[k]? = some (m'.cell (k % N))
    rw [hcell]
    exact h.unread k hk hlt
  · intro j msg e
    cases e
    exact hmsg

/-- The producer publishes its message. -/
theorem Handed.publish (h : Handed N cached msgs s) {i : Nat} (hp : s.producer = .publish i) :
    Handed N cached msgs { s with
      memory := s.memory.store .release .producer .tail (wrap (i + 1))
      producer := .idle
      pushed := s.pushed + 1 } := by
  obtain rfl : i = s.pushed := h.tailIdx i (by rw [hp]; rfl)
  have hwf := h.counters.wf
  have hslots := h.slots
  have hunread := h.unread
  have hnow := hwf.now_store .release .producer .tail (wrap (s.pushed + 1))
  have hpending : s.unpublished .producer = 1 := congrArg Producer.unpublished hp
  have hcounters := h.counters.publish Index.owner_injective (show Index.owner .tail = .producer from rfl) hpending
    (show wrap (s.pushed + 1) = wrap (s.memory.now (.inl .tail) + 1) by rw [h.pushed])
  rw [hp] at hslots hunread
  refine { h with
    counters := unpublished_congr hcounters rfl rfl
    pushed := ?_, taken := ?_, slots := hslots
    spaced := h.spaced.congr (fun u l hu => ?_) rfl rfl (by rw [hp]; rfl) rfl
    tailIdx := ?_, unread := hunread, testing := ?_, writing := ?_ }
  · rw [hnow, Function.update_self, h.pushed]
  · rw [hnow, Function.update_of_ne (by simp)]
    exact h.taken
  · cases l with
    | head => exact hwf.view_store_inl _ _ u _ (by decide)
    | tail => exact congrFun (Memory.view_store_of_ne _ _ _ _ hu) _
  · intro j hj
    cases hj
  · intro msg' j e
    cases e
  · intro msg' j e
    cases e

/-- The consumer gives the slot back and returns its message. -/
theorem Handed.advance (h : Handed N cached msgs s) {i : Nat} {msg : OrderMessage}
    (hcons : s.consumer = .advance i msg) :
    Handed N cached msgs { s with
      memory := s.memory.store .release .consumer .head (wrap (i + 1))
      consumer := .idle
      popped := s.popped ++ [msg] } := by
  obtain rfl : i = s.taken := h.headIdx i (by rw [hcons]; rfl)
  have hwf := h.counters.wf
  have hslots := h.slots
  have hnow := hwf.now_store .release .consumer .head (wrap (s.taken + 1))
  have hpending : s.unpublished .consumer = 1 := congrArg Consumer.unpublished hcons
  have hcounters := h.counters.publish Index.owner_injective (show Index.owner .head = .consumer from rfl) hpending
    (show wrap (s.taken + 1) = wrap (s.memory.now (.inl .head) + 1) by rw [h.taken])
  have hlength : (s.popped ++ [msg]).length = s.taken + 1 := by simp [WeakSystem.taken]
  rw [hcons] at hslots
  refine { h with
    counters := unpublished_congr hcounters rfl rfl
    pushed := ?_, taken := ?_, slots := ?_
    spaced := h.spaced.congr (fun u l hu => ?_) rfl rfl rfl ?_
    headIdx := ?_, unread := ?_, got := ?_, popped := ?_ }
  · rw [hnow, Function.update_of_ne (by simp)]
    exact h.pushed
  · rw [hnow, Function.update_self, h.taken]
    exact hlength.symm
  · show Slots N _ _ _ ((s.popped ++ [msg]).length + 0)
    rw [hlength]
    exact hslots
  · cases l with
    | head => exact congrFun (Memory.view_store_of_ne _ _ _ _ hu) _
    | tail => exact hwf.view_store_inl _ _ u _ (by decide)
  · show (s.popped ++ [msg]).length + 0 = _
    rw [hlength, hcons]
    rfl
  · intro j hj
    cases hj
  · intro k hk
    change (s.popped ++ [msg]).length ≤ k at hk
    exact h.unread k (by omega)
  · intro j msg' e
    cases e
  · show s.popped ++ [msg] = msgs.take (s.popped ++ [msg]).length
    rw [hlength, List.take_add_one, ← h.popped, h.got _ msg hcons]
    rfl

/-! ### Runs -/

theorem Handed.producerStep (h : Handed N cached msgs s) (hN : N.isPowerOfTwo) (hlt : N < 2 ^ 63)
    (hpushed : ∀ msg i, s.producer = .fullTest msg i → s.pushed < 2 * N) (i : Nat) :
    ∃ s', s.producerStep N cached msgs i = .ok s' ∧ Handed N cached msgs s' := by
  unfold WeakSystem.producerStep
  split
  · -- the producer loads its own index
    rename_i hp
    split
    · exact ⟨s, rfl, h⟩
    · rename_i msg hmsg
      split
      · exact ⟨s, rfl, h⟩
      · rename_i tailIdx memory hload
        obtain ⟨rfl, rfl⟩ := h.counters.load_own (show Index.owner .tail = .producer from rfl) hload
        have hslots := h.slots
        have hunread := h.unread
        rw [hp] at hslots hunread
        refine ⟨_, rfl, { h with
          counters := unpublished_congr h.counters (congrArg Producer.unpublished hp).symm rfl
          slots := hslots
          spaced := h.spaced.congr (fun _ _ _ => rfl) rfl rfl (by rw [hp]; rfl) rfl
          tailIdx := ?_, unread := hunread, testing := ?_, writing := ?_ }⟩
        · intro j hj
          rw [← Option.some.inj hj, h.pushed]
          exact h.wrap_eq hlt (Nat.le_refl _)
        · intro msg' j e
          cases e
          exact hmsg
        · intro msg' j e
          cases e
  · -- the full test
    rename_i msg tailIdx hp
    have hpushed' := hpushed msg tailIdx hp
    split
    · rename_i hcached
      obtain ⟨rfl, hne⟩ := hcached
      exact ⟨_, rfl, h.pass_full hN hlt s.headCached hp hpushed' rfl h.spaced.seenHead (Nat.le_refl _) hne⟩
    · split
      · exact ⟨s, rfl, h⟩
      · rename_i a memory hload
        obtain ⟨v, rfl, hv, hpaired, hvi, hle, rfl⟩ := h.counters.load_acquire hload
        have h' := h.learn_head hv hpaired
        have hview : (s.memory.learn .producer v).view .producer (.inl .head) = i := by
          rw [Memory.view_learn_self, Pi.sup_apply, hvi]
          exact sup_eq_right.2 hle
        split
        · exact ⟨_, rfl, h'⟩
        · rename_i hne
          have hhead := h'.head_le
          have htaken := h.taken_le
          rw [hview] at hhead
          change i ≤ s.taken at hhead
          have hwrap : wrap i = i := h.wrap_eq hlt (by omega)
          have hold := h'.spaced.seenHead
          rw [hview] at hold
          rw [hwrap] at hne
          refine ⟨_, rfl, h'.pass_full hN hlt _ hp hpushed' (c := i) ?_ (Nat.le_of_eq hview.symm) hold hne⟩
          cases cached with
          | true => exact hwrap
          | false => exact hview
  · -- the slot is written
    rename_i msg tailIdx hp
    obtain ⟨m', hwrite, h'⟩ := h.write hp
    rw [System.and_mask hN, hwrite]
    exact ⟨_, rfl, h'⟩
  · rename_i tailIdx hp
    exact ⟨_, rfl, h.publish hp⟩

theorem Handed.consumerStep (h : Handed N cached msgs s) (hN : N.isPowerOfTwo) (hlt : N < 2 ^ 63) (i : Nat) :
    ∃ s', s.consumerStep N cached i = .ok s' ∧ Handed N cached msgs s' := by
  unfold WeakSystem.consumerStep
  split
  · -- the consumer loads its own index
    rename_i hcons
    split
    · exact ⟨s, rfl, h⟩
    · rename_i headIdx memory hload
      obtain ⟨rfl, rfl⟩ := h.counters.load_own (show Index.owner .head = .consumer from rfl) hload
      have htaken := h.taken_le
      have hslots := h.slots
      rw [hcons] at hslots
      refine ⟨_, rfl, { h with
        counters := unpublished_congr h.counters rfl (congrArg Consumer.unpublished hcons).symm
        slots := hslots
        spaced := h.spaced.congr (fun _ _ _ => rfl) rfl rfl rfl (by rw [hcons]; rfl)
        headIdx := ?_, got := ?_ }⟩
      · intro j hj
        rw [← Option.some.inj hj, h.taken]
        exact h.wrap_eq hlt (by omega)
      · intro j msg e
        cases e
  · -- the empty test
    rename_i headIdx hcons
    split
    · rename_i hcached
      obtain ⟨rfl, hne⟩ := hcached
      exact ⟨_, rfl, h.pass_empty s.tailCached hcons rfl h.spaced.seenTail (Nat.le_refl _) hne⟩
    · split
      · exact ⟨s, rfl, h⟩
      · rename_i a memory hload
        obtain ⟨v, rfl, hv, hpaired, hvi, hle, rfl⟩ := h.counters.load_acquire hload
        have h' := h.learn_tail hv hpaired
        have hview : (s.memory.learn .consumer v).view .consumer (.inl .tail) = i := by
          rw [Memory.view_learn_self, Pi.sup_apply, hvi]
          exact sup_eq_right.2 hle
        split
        · exact ⟨_, rfl, h'⟩
        · rename_i hne
          have htail := h'.tail_le
          rw [hview] at htail
          have hwrap : wrap i = i := h.wrap_eq hlt htail
          have hold := h'.spaced.seenTail
          rw [hview] at hold
          rw [hwrap] at hne
          refine ⟨_, rfl, h'.pass_empty _ hcons (c := i) ?_ (Nat.le_of_eq hview.symm) hold hne⟩
          cases cached with
          | true => exact hwrap
          | false => exact hview
  · -- the slot is read
    rename_i headIdx hcons
    obtain ⟨m', hread, h'⟩ := h.read hcons
    rw [System.and_mask hN, hread]
    exact ⟨_, rfl, h'⟩
  · rename_i headIdx msg hcons
    exact ⟨_, rfl, h.advance hcons⟩

/-- No turn is a data race, as long as no more than `2 * N` messages are pushed. -/
theorem Handed.step (h : Handed N cached msgs s) (hN : N.isPowerOfTwo) (hlt : N < 2 ^ 63)
    (hpushed : ∀ msg i, s.producer = .fullTest msg i → s.pushed < 2 * N) (a : Actor × Nat) :
    ∃ s', s.step N cached msgs a = .ok s' ∧ Handed N cached msgs s' := by
  obtain ⟨u, i⟩ := a
  cases u with
  | producer => exact h.producerStep hN hlt hpushed i
  | consumer => exact h.consumerStep hN hlt i

theorem Handed.next (h : Handed N cached msgs s) (hN : N.isPowerOfTwo) (hlt : N < 2 ^ 63) (hlen : msgs.length ≤ 2 * N)
    (a : Actor × Nat) : ∃ s', s.step N cached msgs a = .ok s' ∧ Handed N cached msgs s' := by
  apply h.step hN hlt
  intro msg i hp
  have hpos := (List.getElem?_eq_some_iff.1 (h.testing msg i hp)).1
  omega

/-- Neither cached nor plain queues have data races while they hand over `2 * N` messages, however old the messages are
that the loads return. -/
theorem handed_run (hN : N.isPowerOfTwo) (hlt : N < 2 ^ 63) (hlen : msgs.length ≤ 2 * N) (sched : List (Actor × Nat)) :
    ∃ s, run N cached msgs sched = .ok s ∧ Handed N cached msgs s := by
  induction sched using List.reverseRecOn with
  | nil => exact ⟨init, rfl, handed_init⟩
  | append_singleton sched a ih =>
    obtain ⟨s, hrun, h⟩ := ih
    obtain ⟨s', hstep, h'⟩ := h.next hN hlt hlen a
    refine ⟨s', ?_, h'⟩
    rw [run_snoc, hrun]
    exact hstep

end Steps

end WeakSystem

end Lobook
