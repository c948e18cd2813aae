import Mathlib.Logic.Relation
import Lobook.Queue.Handover

/-!
# How many messages a ring buffer hands over without a data race

The memory orders of `SPSCQueue` are enough for `2 * N` messages, in both modes (`race_free_iff`).  They are not enough
for more: once `N` pops have brought `head_` to `N`, the full test lets the producer pass as often as it likes, so with
`N` unread messages it writes the slot that the consumer is about to read, and nothing puts the two accesses in an order.
-/

namespace Lobook

open Checked ReleaseAcquire SPSCQueue Relation

namespace WeakSystem

variable {N : Nat} {cached : Bool} {msgs : List OrderMessage} {s s' : WeakSystem} {p c : Nat}

/-- The states that some turns lead to. -/
abbrev Leads (N : Nat) (cached : Bool) (msgs : List OrderMessage) : WeakSystem → WeakSystem → Prop :=
  ReflTransGen fun s s' => ∃ a, s.step N cached msgs a = .ok s'

theorem Leads.exists_run (h : Leads N cached msgs init s) : ∃ sched, run N cached msgs sched = .ok s := by
  induction h with
  | refl => exact ⟨[], rfl⟩
  | tail _ hstep ih =>
    obtain ⟨sched, hrun⟩ := ih
    obtain ⟨a, ha⟩ := hstep
    refine ⟨sched ++ [a], ?_⟩
    rw [run_snoc, hrun]
    exact ha

/-! ### Turns with fresh loads -/

theorem Handed.load_tail (h : Handed N cached msgs s) (hlt : N < 2 ^ 63) :
    s.memory.load .relaxed .producer .tail s.pushed = some (s.pushed, s.memory) := by
  obtain ⟨⟨a, m'⟩, hload⟩ := h.counters.wf.load_now .relaxed .producer .tail
  obtain ⟨rfl, rfl⟩ := h.counters.load_own rfl hload
  rw [h.pushed, h.wrap_eq hlt (Nat.le_refl _)] at hload
  exact hload

theorem Handed.load_head (h : Handed N cached msgs s) (hlt : N < 2 ^ 63) :
    s.memory.load .relaxed .consumer .head s.taken = some (s.taken, s.memory) := by
  have hle := h.taken_le
  obtain ⟨⟨a, m'⟩, hload⟩ := h.counters.wf.load_now .relaxed .consumer .head
  obtain ⟨rfl, rfl⟩ := h.counters.load_own rfl hload
  rw [h.taken, h.wrap_eq hlt (by omega)] at hload
  exact hload

theorem Handed.acquire_head (h : Handed N cached msgs s) (hlt : N < 2 ^ 63) :
    ∃ v, s.memory.load .acquire .producer .head s.taken = some (s.taken, s.memory.learn .producer v) := by
  have hle := h.taken_le
  obtain ⟨⟨a, m'⟩, hload⟩ := h.counters.wf.load_now .acquire .producer .head
  obtain ⟨v, rfl, _, _, _, _, rfl⟩ := h.counters.load_acquire hload
  rw [h.taken, h.wrap_eq hlt (by omega)] at hload
  exact ⟨v, hload⟩

theorem Handed.acquire_tail (h : Handed N cached msgs s) (hlt : N < 2 ^ 63) :
    ∃ v, s.memory.load .acquire .consumer .tail s.pushed = some (s.pushed, s.memory.learn .consumer v) := by
  obtain ⟨⟨a, m'⟩, hload⟩ := h.counters.wf.load_now .acquire .consumer .tail
  obtain ⟨v, rfl, _, _, _, _, rfl⟩ := h.counters.load_acquire hload
  rw [h.pushed, h.wrap_eq hlt (Nat.le_refl _)] at hload
  exact ⟨v, hload⟩

/-- The producer begins a push. -/
theorem Handed.begin_push (h : Handed N cached msgs s) (hlt : N < 2 ^ 63) {msg : OrderMessage} (hp : s.producer = .idle)
    (hmsg : msgs[s.pushed]? = some msg) :
    s.step N cached msgs (.producer, s.pushed) = .ok { s with producer := .fullTest msg s.pushed } := by
  simp only [WeakSystem.step, WeakSystem.producerStep, hp, hmsg, h.load_tail hlt]

/-- The consumer begins a pop. -/
theorem Handed.begin_pop (h : Handed N cached msgs s) (hlt : N < 2 ^ 63) (hc : s.consumer = .idle) :
    s.step N cached msgs (.consumer, s.taken) = .ok { s with consumer := .emptyTest s.taken } := by
  simp only [WeakSystem.step, WeakSystem.consumerStep, hc, h.load_head hlt]

/-- A full test with the last value of `head_`. -/
theorem Handed.full_test (h : Handed N cached msgs s) (hN : N.isPowerOfTwo) (hlt : N < 2 ^ 63) {msg : OrderMessage}
    {i : Nat} (hp : s.producer = .fullTest msg i) (hne : (s.pushed + 1) % N ≠ s.taken) :
    ∃ s', s.step N cached msgs (.producer, s.taken) = .ok s' ∧ s'.producer = .write msg i ∧ s'.consumer = s.consumer ∧
      s'.pushed = s.pushed ∧ s'.popped = s.popped ∧
        ∃ v, s'.memory = s.memory.learn .producer v := by
  have hi : i = s.pushed := h.tailIdx i (by rw [hp]; rfl)
  obtain ⟨v, hload⟩ := h.acquire_head hlt
  have hnext : nextTailIdx N i ≠ s.taken := by
    rw [hi, ← h.wrap_eq hlt (Nat.le_refl _), System.nextTailIdx_wrap hN (by omega)]
    exact hne
  simp only [WeakSystem.step, WeakSystem.producerStep, hp, hload]
  by_cases hcached : cached ∧ nextTailIdx N i ≠ s.headCached
  · rw [if_pos hcached]
    exact ⟨_, rfl, rfl, rfl, rfl, rfl, 0, (Memory.learn_eq_self fun _ => Nat.zero_le _).symm⟩
  · rw [if_neg hcached, if_neg hnext]
    exact ⟨_, rfl, rfl, rfl, rfl, rfl, v, rfl⟩

/-- An empty test with the last value of `tail_`. -/
theorem Handed.empty_test (h : Handed N cached msgs s) (hlt : N < 2 ^ 63) {i : Nat} (hc : s.consumer = .emptyTest i)
    (hne : s.taken ≠ s.pushed) :
    ∃ s', s.step N cached msgs (.consumer, s.pushed) = .ok s' ∧ s'.consumer = .read i ∧ s'.producer = s.producer ∧
      s'.pushed = s.pushed ∧ s'.popped = s.popped := by
  have hi : i = s.taken := h.headIdx i (by rw [hc]; rfl)
  obtain ⟨v, hload⟩ := h.acquire_tail hlt
  simp only [WeakSystem.step, WeakSystem.consumerStep, hc, hload]
  by_cases hcached : cached ∧ i ≠ s.tailCached
  · rw [if_pos hcached]
    exact ⟨_, rfl, rfl, rfl, rfl, rfl⟩
  · rw [if_neg hcached, if_neg (hi ▸ hne)]
    exact ⟨_, rfl, rfl, rfl, rfl, rfl⟩

theorem not_testing (hp : s.producer = .idle) (msg : OrderMessage) (i : Nat) (htest : s.producer = .fullTest msg i) :
    s.pushed < 2 * N := by
  rw [hp] at htest
  cases htest

theorem Handed.of_step (h : Handed N cached msgs s) (hN : N.isPowerOfTwo) (hlt : N < 2 ^ 63)
    (hpushed : ∀ msg i, s.producer = .fullTest msg i → s.pushed < 2 * N) {a : Actor × Nat}
    (hstep : s.step N cached msgs a = .ok s') : Handed N cached msgs s' := by
  obtain ⟨t, ht, h'⟩ := h.step hN hlt hpushed a
  rw [hstep] at ht
  cases ht
  exact h'

/-- The two threads are between operations, after `p` pushes and `c` pops. -/
structure Rests (N : Nat) (cached : Bool) (msgs : List OrderMessage) (p c : Nat) (s : WeakSystem) : Prop where
  handed : Handed N cached msgs s
  producer : s.producer = .idle
  consumer : s.consumer = .idle
  pushed : s.pushed = p
  taken : s.taken = c

theorem rests_init : Rests N cached msgs 0 0 init := ⟨handed_init, rfl, rfl, rfl, rfl⟩

/-- A push goes through where the masked index differs from the last value of `head_`. -/
theorem Rests.push (h : Rests N cached msgs p c s) (hN : N.isPowerOfTwo) (hlt : N < 2 ^ 63) (hlen : p < msgs.length)
    (hp : p < 2 * N) (hne : (p + 1) % N ≠ c) :
    ∃ s', Leads N cached msgs s s' ∧ Rests N cached msgs (p + 1) c s' := by
  obtain ⟨h₀, hproducer, hconsumer, rfl, rfl⟩ := h
  obtain ⟨msg, hmsg⟩ : ∃ msg, msgs[s.pushed]? = some msg := ⟨_, List.getElem?_eq_getElem hlen⟩
  have e₁ := h₀.begin_push hlt hproducer hmsg
  have h₁ := h₀.of_step hN hlt (not_testing hproducer) e₁
  obtain ⟨s₂, e₂, hwriting, hconsumer₂, hpushed₂, hpopped₂, _⟩ := h₁.full_test hN hlt rfl hne
  have h₂ := h₁.of_step hN hlt (fun _ _ _ => hp) e₂
  obtain ⟨m', hwrite, h₃⟩ := h₂.write hwriting
  have e₃ : s₂.step N cached msgs (.producer, 0) =
      .ok { s₂ with memory := m', producer := .publish s.pushed } := by
    simp only [WeakSystem.step, WeakSystem.producerStep, hwriting, System.and_mask hN, hwrite, ok_bind]
  have h₄ := h₃.publish rfl
  refine ⟨_, ((ReflTransGen.single ⟨_, e₁⟩).tail ⟨_, e₂⟩).tail ⟨_, e₃⟩ |>.tail ⟨(.producer, 0), rfl⟩,
    h₄, rfl, hconsumer₂.trans hconsumer, congrArg (· + 1) hpushed₂, congrArg List.length hpopped₂⟩

/-- A pop goes through where a message is left. -/
theorem Rests.pop (h : Rests N cached msgs p c s) (hN : N.isPowerOfTwo) (hlt : N < 2 ^ 63) (hne : c ≠ p) :
    ∃ s', Leads N cached msgs s s' ∧ Rests N cached msgs p (c + 1) s' := by
  obtain ⟨h₀, hproducer, hconsumer, rfl, rfl⟩ := h
  have e₁ := h₀.begin_pop hlt hconsumer
  have h₁ := h₀.of_step hN hlt (not_testing hproducer) e₁
  obtain ⟨s₂, e₂, hreading, hproducer₂, hpushed₂, hpopped₂⟩ := h₁.empty_test hlt rfl hne
  have h₂ := h₁.of_step hN hlt (not_testing hproducer) e₂
  obtain ⟨m', hread, h₃⟩ := h₂.read hreading
  have e₃ : s₂.step N cached msgs (.consumer, 0) =
      .ok { s₂ with memory := m', consumer := .advance s.taken (s₂.memory.cell (s.taken % N)) } := by
    simp only [WeakSystem.step, WeakSystem.consumerStep, hreading, System.and_mask hN, hread, ok_bind]
  have h₄ := h₃.advance rfl
  refine ⟨_, ((ReflTransGen.single ⟨_, e₁⟩).tail ⟨_, e₂⟩).tail ⟨_, e₃⟩ |>.tail ⟨(.consumer, 0), rfl⟩,
    h₄, hproducer₂.trans hproducer, rfl, hpushed₂, ?_⟩
  show (s₂.popped ++ _).length = _
  rw [hpopped₂]
  exact List.length_append ..

/-! ### A schedule with a data race -/

/-- `n` pushes, each followed by a pop. -/
theorem Rests.alternate (hN : N.isPowerOfTwo) (h2 : 2 ≤ N) (hlt : N < 2 ^ 63) {n : Nat} (hn : n ≤ N)
    (hlen : N ≤ msgs.length) : ∃ s, Leads N cached msgs init s ∧ Rests N cached msgs n n s := by
  induction n with
  | zero => exact ⟨init, ReflTransGen.refl, rests_init⟩
  | succ n ih =>
    obtain ⟨s, hs, hrests⟩ := ih (by omega)
    have hne : (n + 1) % N ≠ n := by
      -- the masked index is the successor of the counter, or zero at the end of the lap
      rcases Nat.lt_or_eq_of_le hn with hn' | hn'
      · rw [Nat.mod_eq_of_lt hn']
        omega
      · rw [hn', Nat.mod_self]
        omega
    obtain ⟨t, ht, hpushed⟩ := hrests.push hN hlt (by omega) (by omega) hne
    obtain ⟨u, hu, hpopped⟩ := hpushed.pop hN hlt (by omega)
    exact ⟨u, (hs.trans ht).trans hu, hpopped⟩

/-- Once `head_` is `N`, every push goes through. -/
theorem Rests.overfill (hN : N.isPowerOfTwo) (h2 : 2 ≤ N) (hlt : N < 2 ^ 63) {n : Nat} (hn : n ≤ N)
    (hlen : 2 * N ≤ msgs.length) : ∃ s, Leads N cached msgs init s ∧ Rests N cached msgs (N + n) N s := by
  induction n with
  | zero => exact Rests.alternate hN h2 hlt (Nat.le_refl N) (by omega)
  | succ n ih =>
    obtain ⟨s, hs, hrests⟩ := ih (by omega)
    have hmod := Nat.mod_lt (N + n + 1) (Nat.pos_of_isPowerOfTwo hN)
    obtain ⟨t, ht, hpushed⟩ := hrests.push hN hlt (by omega) (by omega) (by omega)
    exact ⟨t, hs.trans ht, hpushed⟩

/-- With `N` unread messages one more push writes the slot that the consumer reads. -/
theorem Rests.race (h : Rests N cached msgs (2 * N) N s) (hN : N.isPowerOfTwo) (hlt : N < 2 ^ 63)
    (hlen : 2 * N < msgs.length) :
    ∃ s' a, Leads N cached msgs s s' ∧ s'.step N cached msgs a = .error .undefined := by
  obtain ⟨h₀, hproducer, hconsumer, hpushed, htaken⟩ := h
  have hpos := Nat.pos_of_isPowerOfTwo hN
  -- the consumer comes to the slot `0`
  have e₁ := h₀.begin_pop hlt hconsumer
  have h₁ := h₀.of_step hN hlt (not_testing hproducer) e₁
  obtain ⟨s₂, e₂, hreading, hproducer₂, hpushed₂, hpopped₂⟩ :=
    h₁.empty_test hlt rfl (show s.taken ≠ s.pushed by omega)
  have h₂ := h₁.of_step hN hlt (not_testing hproducer) e₂
  have hconsumer₂ : Leads N cached msgs s s₂ := (ReflTransGen.single ⟨_, e₁⟩).tail ⟨_, e₂⟩
  -- the producer passes its test and comes there too
  obtain ⟨msg, hmsg⟩ : ∃ msg, msgs[s₂.pushed]? = some msg := by
    refine ⟨_, List.getElem?_eq_getElem ?_⟩
    rw [hpushed₂]
    show s.pushed < _
    omega
  have e₃ := h₂.begin_push hlt (hproducer₂.trans hproducer) hmsg
  have h₃ := h₂.of_step hN hlt (not_testing (hproducer₂.trans hproducer)) e₃
  have htaken₂ : s₂.taken = N := (congrArg List.length hpopped₂).trans htaken
  have hne : (s₂.pushed + 1) % N ≠ s₂.taken := by
    have hmod := Nat.mod_lt (s₂.pushed + 1) hpos
    omega
  obtain ⟨s₄, e₄, hwriting, hconsumer₄, hpushed₄, _, v, hmemory⟩ := h₃.full_test hN hlt rfl hne
  have hproducer₄ : Leads N cached msgs s s₄ := (hconsumer₂.tail ⟨_, e₃⟩).tail ⟨_, e₄⟩
  cases hwrite : s₄.memory.writeCell .producer (s₂.pushed &&& mask N) msg with
  | error e =>
    refine ⟨s₄, (.producer, 0), hproducer₄, ?_⟩
    simp only [WeakSystem.step, WeakSystem.producerStep, hwriting, hwrite, Memory.writeCell_eq_error hwrite, error_bind]
  | ok m' =>
    have e₅ : s₄.step N cached msgs (.producer, 0) =
        .ok { s₄ with memory := m', producer := .publish s₂.pushed } := by
      simp only [WeakSystem.step, WeakSystem.producerStep, hwriting, hwrite, ok_bind]
    -- the consumer has not heard of this write
    have hclock : s₂.memory.view .producer (.inr .producer) ≤ s₄.memory.view .producer (.inr .producer) := by
      rw [hmemory, Memory.view_learn_self]
      exact le_sup_left
    have hknown : s₄.memory.view .consumer = s₂.memory.view .consumer := by
      rw [hmemory]
      exact Memory.view_learn_of_ne _ _ (by decide)
    have hnew : s₄.memory.view .consumer (.inr .producer) < s₄.memory.clock .producer := by
      have htail := h₂.tail_le
      have hown := h₂.producer_clock
      rw [hknown, h₂.consumer_sees, Memory.clock]
      omega
    have hslot : s₂.pushed &&& mask N = s.taken &&& mask N := by
      rw [System.and_mask hN, System.and_mask hN, hpushed₂, htaken, Nat.mod_self]
      show s.pushed % N = 0
      rw [hpushed, Nat.mul_mod_left]
    have hrace := Memory.race_of_write hwrite (show Actor.consumer ≠ .producer by decide) hnew
    rw [hslot] at hrace
    refine ⟨_, (.consumer, 0), hproducer₄.tail ⟨_, e₅⟩, ?_⟩
    simp only [WeakSystem.step, WeakSystem.consumerStep, hconsumer₄, hreading, hrace, error_bind]

/-- A queue of `N` slots, cached or not, has no data race exactly as long as it takes at most `2 * N` messages, and then
its pops return the messages in the order of the pushes. -/
theorem race_free_iff (hN : N.isPowerOfTwo) (h2 : 2 ≤ N) (hlt : N < 2 ^ 63) (cached : Bool) (msgs : List OrderMessage) :
    (msgs.length ≤ 2 * N ↔ ∀ sched, run N cached msgs sched ≠ .error .undefined) ∧
      (msgs.length ≤ 2 * N → ∀ sched, ∃ s, run N cached msgs sched = .ok s ∧ s.popped <+: msgs.take s.pushed) := by
  have hsafe : msgs.length ≤ 2 * N →
      ∀ sched, ∃ s, run N cached msgs sched = .ok s ∧ s.popped <+: msgs.take s.pushed := by
    intro hlen sched
    obtain ⟨s, hrun, h⟩ := handed_run hN hlt hlen sched
    refine ⟨s, hrun, ?_⟩
    have htaken := h.taken_le
    rw [h.popped]
    exact List.take_prefix_take_left (by omega)
  refine ⟨⟨fun hlen sched => ?_, fun hfree => ?_⟩, hsafe⟩
  · obtain ⟨s, hrun, _⟩ := hsafe hlen sched
    rw [hrun]
    exact nofun
  · by_contra hlen
    obtain ⟨s, hs, hrests⟩ : ∃ s, Leads N cached msgs init s ∧ Rests N cached msgs (N + N) N s :=
      Rests.overfill hN h2 hlt (Nat.le_refl N) (by omega)
    rw [← Nat.two_mul] at hrests
    obtain ⟨s', a, hs', hrace⟩ := hrests.race hN hlt (by omega)
    obtain ⟨sched, hrun⟩ := Leads.exists_run (hs.trans hs')
    apply hfree (sched ++ [a])
    rw [run_snoc, hrun]
    exact hrace

/-- Five messages in a ring of two slots. -/
theorem race_free_iff_two : ∃ sched, run 2 true (List.replicate 5 .zero) sched = .error .undefined := by
  by_contra hnone
  have hfree : ∀ sched, run 2 true (List.replicate 5 .zero) sched ≠ .error .undefined := fun sched e => hnone ⟨sched, e⟩
  exact absurd ((race_free_iff ⟨1, by decide⟩ (by decide) (by decide) true _).1.2 hfree) (by decide)

end WeakSystem

end Lobook
