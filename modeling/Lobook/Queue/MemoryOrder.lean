import Mathlib.Data.Nat.ModEq
import Lobook.Lib.ReleaseAcquire
import Lobook.Queue.Handoff

/-!
# The ring buffer and its memory orders

`SPSCQueue` loads the index of its own thread with `memory_order_relaxed` and the one of the other thread with
`memory_order_acquire`, and stores with `memory_order_release`.  Here its threads run on a memory in which a load may
return an old message and two accesses to a slot may race.  A turn of a thread comes with the position of the message
that its load returns, if it loads; a turn whose message cannot be returned is lost.  The caches belong to one thread
each.

The invariant `Handed` says that each index counts what its owner has done to the slots.  So a producer that has seen
enough pops knows that the slot it is about to write has been read, and a consumer that has seen enough pushes knows
that the slot it is about to read has been written (`Slots.writeCell`, `Slots.readCell`).
-/

namespace Lobook

open Checked ReleaseAcquire SPSCQueue

/-- The shared atomics `head_` and `tail_`. -/
inductive Index where
  | head
  | tail
  deriving DecidableEq

/-- The thread that stores to the index. -/
def Index.owner : Index → Actor
  | .head => .consumer
  | .tail => .producer

theorem Index.owner_injective : Function.Injective Index.owner := by
  intro l k h
  cases l <;> cases k <;> first | rfl | cases h

namespace Producer

/-- The slot that is written and not yet published. -/
def unpublished : Producer → Nat
  | .publish _ => 1
  | _ => 0

theorem unpublished_le (p : Producer) : p.unpublished ≤ p.claim := by
  cases p <;> simp [unpublished, claim]

end Producer

namespace Consumer

/-- The slot that is read and not yet given back. -/
def unpublished : Consumer → Nat
  | .advance _ _ => 1
  | _ => 0

theorem unpublished_le (c : Consumer) : c.unpublished ≤ c.claim := by
  cases c <;> simp [unpublished, claim]

end Consumer

structure WeakSystem where
  memory : Memory Index Actor Nat Nat OrderMessage
  headCached : Nat
  tailCached : Nat
  producer : Producer
  consumer : Consumer
  pushed : Nat
  popped : List OrderMessage

namespace WeakSystem

def init : WeakSystem := ⟨.start (fun _ => wrap 0) (fun _ => .zero), 0, 0, .idle, .idle, 0, []⟩

section

variable (N : Nat) (cached : Bool) (msgs : List OrderMessage)

/-- One turn of `push`, which returns when all messages are pushed. -/
def producerStep (s : WeakSystem) (i : Nat) : Exec WeakSystem :=
  match s.producer with
  | .idle =>
    match msgs[s.pushed]? with
    | none => .ok s
    | some msg =>
      match s.memory.load .relaxed .producer .tail i with
      | none => .ok s
      | some (tailIdx, memory) => .ok { s with memory := memory, producer := .fullTest msg tailIdx }
  | .fullTest msg tailIdx =>
    if cached ∧ nextTailIdx N tailIdx ≠ s.headCached then .ok { s with producer := .write msg tailIdx }
    else
      match s.memory.load .acquire .producer .head i with
      | none => .ok s
      | some (h, memory) =>
        if nextTailIdx N tailIdx = h then .ok { s with memory := memory }
        else
          .ok { s with
            memory := memory
            headCached := if cached then h else s.headCached
            producer := .write msg tailIdx }
  | .write msg tailIdx =>
    s.memory.writeCell .producer (tailIdx &&& mask N) msg >>= fun memory =>
      .ok { s with memory := memory, producer := .publish tailIdx }
  | .publish tailIdx =>
    .ok { s with
      memory := s.memory.store .release .producer .tail (wrap (tailIdx + 1))
      producer := .idle
      pushed := s.pushed + 1 }

/-- One turn of `pop`. -/
def consumerStep (s : WeakSystem) (i : Nat) : Exec WeakSystem :=
  match s.consumer with
  | .idle =>
    match s.memory.load .relaxed .consumer .head i with
    | none => .ok s
    | some (headIdx, memory) => .ok { s with memory := memory, consumer := .emptyTest headIdx }
  | .emptyTest headIdx =>
    if cached ∧ headIdx ≠ s.tailCached then .ok { s with consumer := .read headIdx }
    else
      match s.memory.load .acquire .consumer .tail i with
      | none => .ok s
      | some (t, memory) =>
        if headIdx = t then .ok { s with memory := memory }
        else
          .ok { s with
            memory := memory
            tailCached := if cached then t else s.tailCached
            consumer := .read headIdx }
  | .read headIdx =>
    s.memory.readCell .consumer (headIdx &&& mask N) >>= fun r =>
      .ok { s with memory := r.2, consumer := .advance headIdx r.1 }
  | .advance headIdx msg =>
    .ok { s with
      memory := s.memory.store .release .consumer .head (wrap (headIdx + 1))
      consumer := .idle
      popped := s.popped ++ [msg] }

/-- A turn of a thread, and the position of the message that its load returns. -/
def step (s : WeakSystem) : Actor × Nat → Exec WeakSystem
  | (.producer, i) => s.producerStep N cached msgs i
  | (.consumer, i) => s.consumerStep N cached i

/-- The state after a schedule, if there is no data race. -/
def run (sched : List (Actor × Nat)) : Exec WeakSystem := sched.foldlM (step N cached msgs) init

theorem run_snoc (sched : List (Actor × Nat)) (a : Actor × Nat) :
    run N cached msgs (sched ++ [a]) = run N cached msgs sched >>= fun s => s.step N cached msgs a := by
  rw [run, List.foldlM_append]
  simp only [List.foldlM_cons, List.foldlM_nil, bind_pure]
  rfl

end

/-- The number of completed pops. -/
def taken (s : WeakSystem) : Nat := s.popped.length

/-- The index that the full test compares with, or the least one that it can load. -/
def consultedHead (cached : Bool) (s : WeakSystem) : Nat :=
  if cached then s.headCached else s.memory.view .producer (.inl .head)

/-- The index that the empty test compares with, or the least one that it can load. -/
def consultedTail (cached : Bool) (s : WeakSystem) : Nat :=
  if cached then s.tailCached else s.memory.view .consumer (.inl .tail)

/-- The accesses to slots that are not published. -/
def unpublished (s : WeakSystem) : Actor → Nat
  | .producer => s.producer.unpublished
  | .consumer => s.consumer.unpublished

/-- The first `w` messages have been written and the first `r` read, each in its slot. -/
structure Slots (N : Nat) (writeLog readLog : Nat → Actor → Nat) (w r : Nat) : Prop where
  written : ∀ x k, writeLog x .producer = k + 1 → k % N = x ∧ k < w
  read : ∀ x k, readLog x .consumer = k + 1 → k % N = x ∧ k < r
  writes : ∀ x, writeLog x .consumer = 0
  reads : ∀ x, readLog x .producer = 0

/-- What the indices allow.  A counter that has reached `N` is never equal to a masked index, but the first `2 * N`
messages have room all the same. -/
structure Spaced (N : Nat) (cached : Bool) (s : WeakSystem) : Prop where
  seenHead : s.consultedHead cached ≤ s.memory.view .producer (.inl .head)
  seenTail : s.consultedTail cached ≤ s.memory.view .consumer (.inl .tail)
  bound : s.pushed + s.producer.claim ≤ 2 * N
  room : s.pushed + s.producer.claim ≤ s.memory.view .producer (.inl .head) + N
  lap : s.consultedHead cached < N → s.pushed + s.producer.claim ≤ s.consultedHead cached + (N - 1)
  avail : s.taken + s.consumer.claim ≤ s.consultedTail cached

structure Handed (N : Nat) (cached : Bool) (msgs : List OrderMessage) (s : WeakSystem) : Prop where
  counters : s.memory.Counters Index.owner wrap s.unpublished
  pushed : s.memory.now (.inl .tail) = s.pushed
  taken : s.memory.now (.inl .head) = s.taken
  slots : Slots N s.memory.written s.memory.read (s.pushed + s.producer.unpublished) (s.taken + s.consumer.unpublished)
  spaced : Spaced N cached s
  tailIdx : ∀ i ∈ s.producer.tailIdx?, i = s.pushed
  headIdx : ∀ i ∈ s.consumer.headIdx?, i = s.taken
  unread : ∀ k, s.taken ≤ k → k < s.pushed + s.producer.unpublished → msgs[k]? = some (s.memory.cell (k % N))
  testing : ∀ msg i, s.producer = .fullTest msg i → msgs[s.pushed]? = some msg
  writing : ∀ msg i, s.producer = .write msg i → msgs[s.pushed]? = some msg
  got : ∀ i msg, s.consumer = .advance i msg → msgs[s.taken]? = some msg
  popped : s.popped = msgs.take s.taken

section Slots

variable {N w r : Nat} {m : Memory Index Actor Nat Nat OrderMessage}

/-- The slot of the next message can be written once the message before it there has been read. -/
theorem Slots.writeCell (h : Slots N m.written m.read w r) (hclock : m.view .producer (.inr .producer) = w)
    (hfree : w < m.view .producer (.inr .consumer) + N) (hle : r ≤ w) (msg : OrderMessage) :
    ∃ m', m.writeCell .producer (w % N) msg = .ok m' ∧
      Slots N m'.written m'.read (w + 1) r ∧ m'.history = (m.tick .producer).history ∧
      m'.view = (m.tick .producer).view ∧ m'.cell = Function.update m.cell (w % N) msg := by
  have hwritten : m.Precedes (m.written (w % N)) .producer := by
    intro u
    cases u with
    | producer =>
      rw [hclock]
      cases hk : m.written (w % N) .producer with
      | zero => exact Nat.zero_le _
      | succ k => exact (h.written _ k hk).2
    | consumer =>
      rw [h.writes]
      exact Nat.zero_le _
  have hread : m.Precedes (m.read (w % N)) .producer := by
    intro u
    cases u with
    | producer =>
      rw [h.reads]
      exact Nat.zero_le _
    | consumer =>
      cases hk : m.read (w % N) .consumer with
      | zero => exact Nat.zero_le _
      | succ k =>
        -- the message that has been read there is at least one lap behind
        obtain ⟨hmod, hlt⟩ := h.read _ k hk
        have hlap : k + N ≤ w := Nat.ModEq.add_le_of_lt hmod (by omega)
        omega
  refine ⟨_, if_pos ⟨hwritten, hread⟩, ⟨fun x k hk => ?_, h.read, fun x => ?_, h.reads⟩, rfl, rfl, rfl⟩
  · by_cases hx : x = w % N
    · subst hx
      simp only [Function.update_self, Memory.clock, hclock, Nat.add_right_cancel_iff] at hk
      exact ⟨by rw [hk], by omega⟩
    · simp only [Function.update_of_ne hx] at hk
      obtain ⟨hmod, hlt⟩ := h.written x k hk
      exact ⟨hmod, by omega⟩
  · by_cases hx : x = w % N
    · subst hx
      simpa using h.writes _
    · simpa [hx] using h.writes x

/-- The next slot can be read once its message has been written. -/
theorem Slots.readCell (h : Slots N m.written m.read w r) (hclock : m.view .consumer (.inr .consumer) = r)
    (hfull : r < m.view .consumer (.inr .producer)) (hroom : w ≤ r + N) :
    ∃ m', m.readCell .consumer (r % N) = .ok (m.cell (r % N), m') ∧
      Slots N m'.written m'.read w (r + 1) ∧ m'.history = (m.tick .consumer).history ∧
      m'.view = (m.tick .consumer).view ∧ m'.cell = m.cell := by
  have hwritten : m.Precedes (m.written (r % N)) .consumer := by
    intro u
    cases u with
    | producer =>
      cases hk : m.written (r % N) .producer with
      | zero => exact Nat.zero_le _
      | succ k =>
        -- a later message in the slot would be a lap ahead
        obtain ⟨hmod, hlt⟩ := h.written _ k hk
        have hle : k ≤ r := by
          by_contra hgt
          have hlap : r + N ≤ k := Nat.ModEq.add_le_of_lt hmod.symm (by omega)
          omega
        omega
    | consumer =>
      rw [h.writes]
      exact Nat.zero_le _
  refine ⟨_, if_pos hwritten, ⟨h.written, fun x k hk => ?_, h.writes, fun x => ?_⟩, rfl, rfl, rfl⟩
  · by_cases hx : x = r % N
    · subst hx
      simp only [Function.update_self, Memory.clock, hclock, Nat.add_right_cancel_iff] at hk
      exact ⟨by rw [hk], by omega⟩
    · simp only [Function.update_of_ne hx] at hk
      obtain ⟨hmod, hlt⟩ := h.read x k hk
      exact ⟨hmod, by omega⟩
  · by_cases hx : x = r % N
    · subst hx
      simpa using h.reads _
    · simpa [hx] using h.reads x

end Slots

section Steps

variable {N : Nat} {cached : Bool} {msgs : List OrderMessage} {s s' : WeakSystem}

theorem unpublished_congr {m : Memory Index Actor Nat Nat OrderMessage} {pending : Actor → Nat}
    (h : m.Counters Index.owner wrap pending) (hp : s.producer.unpublished = pending .producer)
    (hc : s.consumer.unpublished = pending .consumer) : m.Counters Index.owner wrap s.unpublished := by
  have hpending : s.unpublished = pending := by
    funext a
    cases a with
    | producer => exact hp
    | consumer => exact hc
  rwa [hpending]

/-- A step that tells nobody about the other index. -/
theorem Spaced.congr (h : Spaced N cached s)
    (hseen : ∀ u l, u ≠ Index.owner l → s'.memory.view u (.inl l) = s.memory.view u (.inl l))
    (hhead : s'.headCached = s.headCached) (htail : s'.tailCached = s.tailCached)
    (hp : s'.pushed + s'.producer.claim = s.pushed + s.producer.claim)
    (hc : s'.taken + s'.consumer.claim = s.taken + s.consumer.claim) : Spaced N cached s' := by
  have hproducer := hseen .producer .head (by decide)
  have hconsumer := hseen .consumer .tail (by decide)
  have hconsultedHead : s'.consultedHead cached = s.consultedHead cached := by
    rw [consultedHead, hhead, hproducer]
    rfl
  have hconsultedTail : s'.consultedTail cached = s.consultedTail cached := by
    rw [consultedTail, htail, hconsumer]
    rfl
  constructor
  · rw [hconsultedHead, hproducer]
    exact h.seenHead
  · rw [hconsultedTail, hconsumer]
    exact h.seenTail
  · rw [hp]
    exact h.bound
  · rw [hp, hproducer]
    exact h.room
  · rw [hp, hconsultedHead]
    exact h.lap
  · rw [hc, hconsultedTail]
    exact h.avail

theorem Handed.producer_clock (h : Handed N cached msgs s) :
    s.memory.view .producer (.inr .producer) = s.pushed + s.producer.unpublished := by
  rw [← h.pushed]
  exact h.counters.clock .tail

theorem Handed.consumer_clock (h : Handed N cached msgs s) :
    s.memory.view .consumer (.inr .consumer) = s.taken + s.consumer.unpublished := by
  rw [← h.taken]
  exact h.counters.clock .head

/-- The producer knows as many reads as it has seen pops. -/
theorem Handed.producer_sees (h : Handed N cached msgs s) :
    s.memory.view .producer (.inr .consumer) = s.memory.view .producer (.inl .head) :=
  (h.counters.other .head .producer (by decide)).symm

/-- The consumer knows as many writes as it has seen pushes. -/
theorem Handed.consumer_sees (h : Handed N cached msgs s) :
    s.memory.view .consumer (.inr .producer) = s.memory.view .consumer (.inl .tail) :=
  (h.counters.other .tail .consumer (by decide)).symm

theorem Handed.head_le (h : Handed N cached msgs s) : s.memory.view .producer (.inl .head) ≤ s.taken := by
  rw [← h.taken]
  exact h.counters.wf.view_le .producer (.inl .head)

theorem Handed.tail_le (h : Handed N cached msgs s) : s.memory.view .consumer (.inl .tail) ≤ s.pushed := by
  rw [← h.pushed]
  exact h.counters.wf.view_le .consumer (.inl .tail)

theorem Handed.taken_le (h : Handed N cached msgs s) : s.taken + s.consumer.claim ≤ s.pushed :=
  h.spaced.avail.trans (h.spaced.seenTail.trans h.tail_le)

/-- The counters have not wrapped. -/
theorem Handed.wrap_eq (h : Handed N cached msgs s) (hlt : N < 2 ^ 63) {k : Nat} (hk : k ≤ s.pushed) : wrap k = k := by
  have hbound := h.spaced.bound
  exact System.wrap_of_lt (by omega)

theorem handed_init : Handed N cached msgs init where
  counters := by
    have hnone : init.unpublished = fun _ => 0 := by
      funext a
      cases a <;> rfl
    rw [hnone]
    exact Memory.counters_start Index.owner wrap (fun _ => OrderMessage.zero)
  pushed := rfl
  taken := rfl
  slots := ⟨fun x k hk => (by cases hk), fun x k hk => (by cases hk), fun x => rfl, fun x => rfl⟩
  spaced := by
    have hzero : ∀ n, 0 ≤ n := Nat.zero_le
    cases cached <;> exact ⟨Nat.le_refl 0, Nat.le_refl 0, hzero _, hzero _, fun _ => hzero _, Nat.le_refl 0⟩
  tailIdx i hi := by cases hi
  headIdx i hi := by cases hi
  unread k _ hk := absurd hk (Nat.not_lt_zero k)
  testing msg i hp := by cases hp
  writing msg i hp := by cases hp
  got i msg hc := by cases hc
  popped := rfl

end Steps

end WeakSystem

end Lobook
