import Lobook.Queue.Fifo

/-!
# The cached and the plain ring buffer

In every run with fewer than `2 ^ 64` pushes the counters have not wrapped.  Then the spin condition of the producer
holds only in a full ring, whatever lap the two sides are on (`Counts.full_of_spins`), and a stale cached index gives
the answer of the fresh one.  So the two modes run in lockstep under every schedule (`cached_simulates_uncached`), and
the two sides never wait for each other (`never_both_spin`).
-/

namespace Lobook

namespace System

open SPSCQueue

/-- The parts of the state that both modes have in common. -/
structure SameView (s s' : System) : Prop where
  buffer : s.queue.buffer = s'.queue.buffer
  head : s.queue.head = s'.queue.head
  tail : s.queue.tail = s'.queue.tail
  producer : s.producer = s'.producer
  consumer : s.consumer = s'.consumer
  pushed : s.pushed = s'.pushed
  popped : s.popped = s'.popped

section Tests

variable {N : Nat} {cached : Bool} {msgs : Nat → OrderMessage} {s s' : System} {h t h' t' : Nat}

theorem Counts.taken_le (hc : Counts N cached s h t) : s.taken ≤ s.pushed := by
  have := hc.avail
  have := hc.tail_le
  omega

/-- The spin condition of the producer holds only with `N - 1` unread messages, and then its test goes by the real
number of pops. -/
theorem Counts.full_of_spins (hN : N.isPowerOfTwo) (hlt : N < 2 ^ 64) (hc : Counts N cached s h t)
    (hpushed : s.pushed < 2 ^ 64) (hspin : nextTailIdx N s.queue.tail = s.queue.head) :
    s.pushed + 1 = s.taken + N ∧ h = s.taken := by
  have htaken := hc.taken_le
  have hpos := Nat.pos_of_isPowerOfTwo hN
  rw [hc.tail, nextTailIdx_wrap hN hlt, hc.head, wrap_of_lt (by omega)] at hspin
  have hlow : s.taken < N := hspin ▸ Nat.mod_lt _ hpos
  have hle := hc.head_le
  have hlap : s.pushed + s.producer.claim ≤ h + (N - 1) := by
    apply hc.lap
    rw [hc.seenHead, wrap_of_lt (by omega)]
    omega
  -- `pushed + 1` lies in `(taken, taken + N]` and has the residue of `taken`
  have hfull : s.pushed + 1 = s.taken + N := by
    by_contra hne
    have hmod : (s.pushed + 1 - s.taken) % N = 0 := by
      apply Nat.sub_mod_eq_zero_of_mod_eq
      rw [hspin, Nat.mod_eq_of_lt hlow]
    rw [Nat.mod_eq_of_lt (by omega)] at hmod
    omega
  exact ⟨hfull, by omega⟩

/-- The spin condition of the consumer holds only when everything published is popped. -/
theorem Counts.empty_of_spins (hc : Counts N cached s h t) (hpushed : s.pushed < 2 ^ 64)
    (hspin : s.queue.head = s.queue.tail) : s.taken = s.pushed ∧ t = s.pushed := by
  have htaken := hc.taken_le
  have havail := hc.avail
  have hle := hc.tail_le
  rw [hc.head, hc.tail, wrap_of_lt (by omega), wrap_of_lt hpushed] at hspin
  omega

/-- The full test proceeds exactly when the spin condition does not hold. -/
theorem Counts.fullTest_isSome (hN : N.isPowerOfTwo) (hlt : N < 2 ^ 64) (hc : Counts N cached s h t)
    (hpushed : s.pushed < 2 ^ 64) :
    (s.queue.fullTest N cached s.queue.tail).isSome = true ↔ nextTailIdx N s.queue.tail ≠ s.queue.head := by
  unfold fullTest
  by_cases hspin : nextTailIdx N s.queue.tail = s.queue.head
  · obtain ⟨_, rfl⟩ := hc.full_of_spins hN hlt hpushed hspin
    have hseen : s.consultedHead cached = s.queue.head := hc.seenHead.trans hc.head.symm
    cases cached with
    | true => change s.queue.headCached = _ at hseen; simp [hspin, hseen]
    | false => simp [hspin]
  · cases cached with
    | true => by_cases hcache : nextTailIdx N s.queue.tail = s.queue.headCached <;> simp [hspin, hcache]
    | false => simp [hspin]

/-- The empty test proceeds exactly when the spin condition does not hold. -/
theorem Counts.emptyTest_isSome (hc : Counts N cached s h t) (hpushed : s.pushed < 2 ^ 64) :
    (s.queue.emptyTest cached s.queue.head).isSome = true ↔ s.queue.head ≠ s.queue.tail := by
  unfold emptyTest
  by_cases hspin : s.queue.head = s.queue.tail
  · obtain ⟨_, rfl⟩ := hc.empty_of_spins hpushed hspin
    have hseen : s.consultedTail cached = s.queue.tail := hc.seenTail.trans hc.tail.symm
    cases cached with
    | true => change s.queue.tailCached = _ at hseen; simp [hspin, hseen]
    | false => simp [hspin]
  · cases cached with
    | true => by_cases hcache : s.queue.head = s.queue.tailCached <;> simp [hspin, hcache]
    | false => simp [hspin]

/-- A pop proceeds only when more messages are published than popped. -/
theorem Counts.taken_lt (hc : Counts N cached s h t) (hpushed : s.pushed < 2 ^ 64)
    (htest : (s.queue.emptyTest cached s.queue.head).isSome = true) : s.taken < s.pushed := by
  refine Nat.lt_of_le_of_ne hc.taken_le fun e => ?_
  exact (hc.emptyTest_isSome hpushed).1 htest (by rw [hc.head, hc.tail, e])

/-- A test changes neither the counters nor the buffer. -/
private theorem fullTest_frame {q q' : SPSCQueue} {i : Nat} (hq : q.fullTest N cached i = some q') :
    q'.buffer = q.buffer ∧ q'.head = q.head ∧ q'.tail = q.tail := by
  rcases Counts.fullTest_cases (s := ⟨q, .idle, .idle, 0, []⟩) hq with ⟨rfl, _⟩ | ⟨_, _, _, rfl⟩ <;>
    exact ⟨rfl, rfl, rfl⟩

private theorem emptyTest_frame {q q' : SPSCQueue} {i : Nat} (hq : q.emptyTest cached i = some q') :
    q'.buffer = q.buffer ∧ q'.head = q.head ∧ q'.tail = q.tail := by
  rcases Counts.emptyTest_cases (s := ⟨q, .idle, .idle, 0, []⟩) hq with ⟨rfl, _⟩ | ⟨_, _, _, rfl⟩ <;>
    exact ⟨rfl, rfl, rfl⟩

/-- Two options that are both there or both not there. -/
private theorem isSome_cases {α β : Type} {a : Option α} {b : Option β} (h : a.isSome = true ↔ b.isSome = true) :
    (a = none ∧ b = none) ∨ ∃ x y, a = some x ∧ b = some y := by
  cases a <;> cases b <;> simp_all

/-- Equal turns of the producer keep the two modes in lockstep. -/
theorem SameView.producerStep (hN : N.isPowerOfTwo) (hlt : N < 2 ^ 64) (hv : SameView s s')
    (hc : Counts N true s h t) (hc' : Counts N false s' h' t') (hpushed : s'.pushed < 2 ^ 64) :
    SameView (s.producerStep N true msgs) (s'.producerStep N false msgs) := by
  have hp : s.pushed < 2 ^ 64 := hv.pushed ▸ hpushed
  have hfull : (s.queue.fullTest N true s.queue.tail).isSome = true ↔
      (s'.queue.fullTest N false s'.queue.tail).isSome = true := by
    rw [hc.fullTest_isSome hN hlt hp, hc'.fullTest_isSome hN hlt hpushed, hv.head, hv.tail]
  simp only [System.producerStep]
  have hprod := hv.producer
  cases hpc : s.producer with
  | idle =>
    rw [hpc] at hprod
    rw [← hprod]
    exact { hv with producer := by simp only [hv.pushed, hv.tail] }
  | fullTest msg i =>
    -- both tests are made on the tail as it was read, and let the producer proceed or spin together
    rw [hpc] at hprod
    rw [← hprod]
    have hi : i = s.queue.tail := hc.tailIdx i (by rw [hpc]; rfl)
    have hi' : i = s'.queue.tail := hi.trans hv.tail
    rcases isSome_cases hfull with ⟨e, e'⟩ | ⟨q, q', e, e'⟩
    · rw [← hi] at e; rw [← hi'] at e'
      simp only [e, e']
      exact hv
    · obtain ⟨hb, hh, ht⟩ := fullTest_frame e
      obtain ⟨hb', hh', ht'⟩ := fullTest_frame e'
      rw [← hi] at e; rw [← hi'] at e'
      simp only [e, e']
      exact { hv with
        buffer := hb.trans (hv.buffer.trans hb'.symm), head := hh.trans (hv.head.trans hh'.symm)
        tail := ht.trans (hv.tail.trans ht'.symm), producer := rfl }
  | write msg i =>
    rw [hpc] at hprod
    rw [← hprod]
    exact { hv with buffer := by simp only [hv.buffer], producer := rfl }
  | publish i =>
    rw [hpc] at hprod
    rw [← hprod]
    exact { hv with tail := rfl, producer := rfl, pushed := by simp only [hv.pushed] }

/-- Equal turns of the consumer keep the two modes in lockstep. -/
theorem SameView.consumerStep (hv : SameView s s') (hc : Counts N true s h t) (hc' : Counts N false s' h' t')
    (hpushed : s'.pushed < 2 ^ 64) : SameView (s.consumerStep N true) (s'.consumerStep N false) := by
  have hp : s.pushed < 2 ^ 64 := hv.pushed ▸ hpushed
  have hempty : (s.queue.emptyTest true s.queue.head).isSome = true ↔
      (s'.queue.emptyTest false s'.queue.head).isSome = true := by
    rw [hc.emptyTest_isSome hp, hc'.emptyTest_isSome hpushed, hv.head, hv.tail]
  simp only [System.consumerStep]
  have hcons := hv.consumer
  cases hpc : s.consumer with
  | idle =>
    rw [hpc] at hcons
    rw [← hcons]
    exact { hv with consumer := by simp only [hv.head] }
  | emptyTest i =>
    rw [hpc] at hcons
    rw [← hcons]
    have hi : i = s.queue.head := hc.headIdx i (by rw [hpc]; rfl)
    have hi' : i = s'.queue.head := hi.trans hv.head
    rcases isSome_cases hempty with ⟨e, e'⟩ | ⟨q, q', e, e'⟩
    · rw [← hi] at e; rw [← hi'] at e'
      simp only [e, e']
      exact hv
    · obtain ⟨hb, hh, ht⟩ := emptyTest_frame e
      obtain ⟨hb', hh', ht'⟩ := emptyTest_frame e'
      rw [← hi] at e; rw [← hi'] at e'
      simp only [e, e']
      exact { hv with
        buffer := hb.trans (hv.buffer.trans hb'.symm), head := hh.trans (hv.head.trans hh'.symm)
        tail := ht.trans (hv.tail.trans ht'.symm), consumer := rfl }
  | read i =>
    rw [hpc] at hcons
    rw [← hcons]
    exact { hv with consumer := by simp only [hv.buffer] }
  | advance i msg =>
    rw [hpc] at hcons
    rw [← hcons]
    exact { hv with head := rfl, consumer := rfl, popped := by simp only [hv.popped] }

theorem SameView.step (hN : N.isPowerOfTwo) (hlt : N < 2 ^ 64) (hv : SameView s s')
    (hc : Counts N true s h t) (hc' : Counts N false s' h' t') (hpushed : s'.pushed < 2 ^ 64) (a : Actor) :
    SameView (s.step N true msgs a) (s'.step N false msgs a) := by
  cases a with
  | producer => exact hv.producerStep hN hlt hc hc' hpushed
  | consumer => exact hv.consumerStep hc hc' hpushed

end Tests

section Runs

variable {N : Nat}

/-- Both modes after the same schedule. -/
theorem sameView_run (hN : N.isPowerOfTwo) (hlt : N < 2 ^ 64) (msgs : Nat → OrderMessage) (sched : List Actor)
    (hpushed : (run N false msgs sched).pushed < 2 ^ 64) :
    SameView (run N true msgs sched) (run N false msgs sched) := by
  induction sched using List.reverseRecOn with
  | nil => exact ⟨rfl, rfl, rfl, rfl, rfl, rfl, rfl⟩
  | append_singleton sched a ih =>
    rw [run_snoc] at hpushed
    have hlt' := Nat.lt_of_le_of_lt (pushed_le_step _ a) hpushed
    have hv := ih hlt'
    obtain ⟨h', t', hc'⟩ := counts_run hN hlt sched hlt'
    obtain ⟨h, t, hc⟩ := counts_run hN hlt sched (show (run N true msgs sched).pushed < 2 ^ 64 from hv.pushed ▸ hlt')
    rw [run_snoc, run_snoc]
    exact hv.step hN hlt hc hc' hlt' a

/-- The two modes simulate each other step for step: under every schedule they have the same counters and the same
buffer, their tests give the same answer, and a pop proceeds only when more messages are published than popped. -/
theorem cached_simulates_uncached (hN : N.isPowerOfTwo) (_h2 : 2 ≤ N) (hlt : N < 2 ^ 64)
    (msgs : Nat → OrderMessage) (sched : List Actor) (hpushed : (run N false msgs sched).pushed < 2 ^ 64) :
    let s := run N true msgs sched
    let s' := run N false msgs sched
    SameView s s' ∧
      (s.queue.fullTest N true s.queue.tail).isSome = (s'.queue.fullTest N false s'.queue.tail).isSome ∧
      (s.queue.emptyTest true s.queue.head).isSome = (s'.queue.emptyTest false s'.queue.head).isSome ∧
      ((s.queue.emptyTest true s.queue.head).isSome = true → s.taken < s.pushed) ∧
      ((s'.queue.emptyTest false s'.queue.head).isSome = true → s'.taken < s'.pushed) := by
  intro s s'
  have hv := sameView_run hN hlt msgs sched hpushed
  have hpushed' : s.pushed < 2 ^ 64 := hv.pushed ▸ hpushed
  obtain ⟨h, t, hc⟩ := counts_run hN hlt sched hpushed'
  obtain ⟨h', t', hc'⟩ := counts_run hN hlt sched hpushed
  refine ⟨hv, ?_, ?_, hc.taken_lt hpushed', hc'.taken_lt hpushed⟩
  · rw [Bool.eq_iff_iff, hc.fullTest_isSome hN hlt hpushed', hc'.fullTest_isSome hN hlt hpushed, hv.head, hv.tail]
  · rw [Bool.eq_iff_iff, hc.emptyTest_isSome hpushed', hc'.emptyTest_isSome hpushed, hv.head, hv.tail]

/-- The producer waits only in a full ring, so the two sides never wait for each other. -/
theorem never_both_spin (hN : N.isPowerOfTwo) (h2 : 2 ≤ N) (hlt : N < 2 ^ 64) (cached : Bool)
    (msgs : Nat → OrderMessage) (sched : List Actor) (hpushed : (run N cached msgs sched).pushed < 2 ^ 64) :
    let s := run N cached msgs sched
    (s.ProducerSpins N → s.unread = N - 1) ∧ ¬ (s.ProducerSpins N ∧ s.ConsumerSpins) := by
  intro s
  obtain ⟨h, t, hc⟩ := counts_run hN hlt sched hpushed
  have hfull : s.ProducerSpins N → s.unread = N - 1 := by
    intro hspin
    have hfull : s.pushed + 1 = s.taken + N := (hc.full_of_spins hN hlt hpushed hspin).1
    change s.pushed - s.taken = N - 1
    omega
  refine ⟨hfull, fun ⟨hp, hcons⟩ => ?_⟩
  have hlen : s.pushed - s.taken = N - 1 := hfull hp
  have hempty : s.taken = s.pushed := (hc.empty_of_spins hpushed hcons).1
  omega

end Runs

section Lap

/-- A schedule that goes around a ring of four slots and ends with both threads at their tests. -/
def lap : List Actor :=
  (List.replicate 4 (List.replicate 4 .producer ++ List.replicate 4 .consumer)).flatten ++ [.producer, .consumer]

theorem cached_simulates_uncached_lap :
    SameView (run 4 true numbered lap) (run 4 false numbered lap) :=
  (cached_simulates_uncached (by decide) (by decide) (by decide) numbered lap (by decide)).1

theorem never_both_spin_lap :
    ¬ ((run 4 true numbered lap).ProducerSpins 4 ∧ (run 4 true numbered lap).ConsumerSpins) :=
  (never_both_spin (by decide) (by decide) (by decide) true numbered lap (by decide)).2

end Lap

end System

end Lobook
