import Lobook.Queue.Delivery
import Lobook.Queue.Monitor

/-!
# `NaiveQueue` between two threads

The server uses `NaiveQueue` with one thread that pushes and one that pops.  Then it delivers any number of messages
(`naiveDelivery`): a push waits only for a thread that holds the mutex, and a pop with nobody pushing waits only on an
empty queue.  A wakeup can make the consumer test an empty queue again, so a push counts for more than the turns that
the consumer loses by being woken.
-/

namespace Lobook

open NaiveQueue NaiveQueue.Monitor

instance : Fintype Actor := ⟨{.producer, .consumer}, fun a => by cases a <;> decide⟩

/-- `NaiveQueue`.  The only thread that ever sleeps is the consumer, so it is the one that `notify_one` wakes. -/
def QueueT.naive : QueueT where
  State := Monitor Actor
  new := .init
  pushTurn msg s :=
    match s.pc .producer with
    | .idle => (s.goto .producer (Call.push msg).entry, false)
    | .pushNotify _ => (s.notifyOne .producer .consumer, true)
    | _ => (s.turn .producer, false)
  popTurn s :=
    match s.pc .consumer with
    | .idle => (s.goto .consumer Call.pop.entry, none)
    | .popUnlock msg => (s.turn .consumer, some msg)
    | _ => (s.turn .consumer, none)
  wake s := s.wake .consumer

namespace NaiveQueue

namespace Pc

/-- How far the operations of the producer have got, counted from the insertion. -/
def pushStage : Pc → Nat
  | .pushNotify _ => 1
  | .idle => 2
  | .pushLock _ => 3
  | .pushInsert _ => 4
  | _ => 0

/-- How far the operations of the consumer have got, counted from the removal. -/
def popStage : Pc → Nat
  | .idle => 1
  | .popLock => 2
  | .popTest => 3
  | .popAsleep => 4
  | _ => 0

end Pc

namespace Monitor

variable {c : Nat} {s : Monitor Actor} {sent got : List OrderMessage} {cur : Option OrderMessage} {msg : OrderMessage}

/-- The operations that have taken effect. -/
def events (s : Monitor Actor) : List Event := s.log.map Prod.snd

@[simp] theorem goto_pc_self (s : Monitor Actor) (t : Actor) (p : Pc) : (s.goto t p).pc t = p := by simp [goto]

@[simp] theorem goto_pc_producer (s : Monitor Actor) (p : Pc) : (s.goto .consumer p).pc .producer = s.pc .producer := by
  simp [goto]

@[simp] theorem goto_pc_consumer (s : Monitor Actor) (p : Pc) : (s.goto .producer p).pc .consumer = s.pc .consumer := by
  simp [goto]

@[simp] theorem goto_events (s : Monitor Actor) (t : Actor) (p : Pc) : (s.goto t p).events = s.events := rfl

@[simp] theorem lock_pc (s : Monitor Actor) (t : Actor) : (s.lock t).pc = s.pc := rfl

@[simp] theorem lock_events (s : Monitor Actor) (t : Actor) : (s.lock t).events = s.events := rfl

@[simp] theorem unlock_pc (s : Monitor Actor) : s.unlock.pc = s.pc := rfl

@[simp] theorem unlock_events (s : Monitor Actor) : s.unlock.events = s.events := rfl

@[simp] theorem effect_pc (s : Monitor Actor) (t : Actor) (q : NaiveQueue) (e : Event) :
    (s.effect t q e).pc = s.pc := rfl

@[simp] theorem effect_events (s : Monitor Actor) (t : Actor) (q : NaiveQueue) (e : Event) :
    (s.effect t q e).events = s.events ++ [e] := by simp [effect, events]

@[simp] theorem return_pc (s : Monitor Actor) (t : Actor) (e : Event) : (s.return_ t e).pc = s.pc := rfl

@[simp] theorem return_events (s : Monitor Actor) (t : Actor) (e : Event) : (s.return_ t e).events = s.events := rfl

@[simp] theorem wake_events (s : Monitor Actor) (t : Actor) : (s.wake t).events = s.events := by
  unfold wake
  split <;> rfl

/-- The push under way, if any, and whether it has taken effect. -/
def Pushing (s : Monitor Actor) (sent : List OrderMessage) : Option OrderMessage → Prop
  | none => s.pc .producer = .idle ∧ sent = pushes s.events
  | some msg =>
    (s.pc .producer = .idle ∨ s.pc .producer = .pushLock msg ∨ s.pc .producer = .pushInsert msg) ∧
        sent = pushes s.events ++ [msg] ∨
      (s.pc .producer = .pushUnlock msg ∨ s.pc .producer = .pushNotify msg) ∧ sent = pushes s.events

/-- What the pops have returned, and whether one that has taken effect has not returned. -/
def Popping (s : Monitor Actor) (got : List OrderMessage) : Prop :=
  (s.pc .consumer = .idle ∨ s.pc .consumer = .popLock ∨ s.pc .consumer = .popTest ∨ s.pc .consumer = .popAsleep) ∧
      pops s.events = got ∨
    ∃ msg, s.pc .consumer = .popUnlock msg ∧ pops s.events = got ++ [msg]

/-- The two threads in a reachable state. -/
structure Hands (c : Nat) (s : Monitor Actor) (sent got : List OrderMessage) (cur : Option OrderMessage) : Prop where
  reachable : ∃ ls, Run init ls s
  pushing : s.Pushing sent cur
  popping : s.Popping got
  room : sent.length ≤ c

theorem Hands.fifo (h : Hands c s sent got cur) : pushes s.events = pops s.events ++ s.queue.queue := by
  obtain ⟨ls, hrun⟩ := h.reachable
  exact hrun.sound.sequential.fifo

theorem hands_new : Hands c init [] [] none where
  reachable := ⟨[], Transition.Run.refl⟩
  pushing := ⟨rfl, rfl⟩
  popping := Or.inl ⟨Or.inl rfl, rfl⟩
  room := Nat.zero_le c

theorem Hands.call (h : Hands c s sent got none) (msg : OrderMessage) (hroom : sent.length < c) :
    Hands c s (sent ++ [msg]) got (some msg) where
  reachable := h.reachable
  pushing := by
    obtain ⟨hidle, hsent⟩ := h.pushing
    exact Or.inl ⟨Or.inl hidle, by rw [hsent]⟩
  popping := h.popping
  room := by simpa using Nat.succ_le_of_lt hroom

/-- A step that leaves one side alone. -/
theorem Popping.congr {s' : Monitor Actor} (h : s.Popping got) (hpc : s'.pc .consumer = s.pc .consumer)
    (hpops : pops s'.events = pops s.events) : s'.Popping got := by
  unfold Popping at h ⊢
  rwa [hpc, hpops]

theorem Pushing.congr {s' : Monitor Actor} (h : s.Pushing sent cur) (hpc : s'.pc .producer = s.pc .producer)
    (hpushes : pushes s'.events = pushes s.events) : s'.Pushing sent cur := by
  cases cur with
  | none =>
    unfold Pushing at h ⊢
    rwa [hpc, hpushes]
  | some msg =>
    unfold Pushing at h ⊢
    rwa [hpc, hpushes]

theorem Hands.push (h : Hands c s sent got (some msg)) :
    Hands c (QueueT.naive.pushTurn msg s).1 sent got (if (QueueT.naive.pushTurn msg s).2 then none else some msg) := by
  obtain ⟨ls, hrun⟩ := h.reachable
  have hturn : ∃ ls, Run init ls (s.turn .producer) := ⟨_, hrun.turn .producer⟩
  simp only [QueueT.naive]
  rcases h.pushing with ⟨hp | hp | hp, hsent⟩ | ⟨hp | hp, hsent⟩
  · simp only [hp, Bool.false_eq_true, ↓reduceIte]
    refine ⟨⟨_, hrun.call .producer (.push msg) hp⟩, ?_, ?_, h.room⟩
    · exact Or.inl ⟨Or.inr (Or.inl (by simp [Call.entry])), by simpa using hsent⟩
    · exact h.popping.congr (by simp) (by simp)
  · simp only [hp, Bool.false_eq_true, ↓reduceIte]
    refine ⟨hturn, ?_, ?_, h.room⟩
    · by_cases hm : s.mtx = none
      · exact Or.inl ⟨Or.inr (Or.inr (by simp [Monitor.turn, hp, hm])), by simpa [Monitor.turn, hp, hm] using hsent⟩
      · exact Or.inl ⟨Or.inr (Or.inl (by simp [Monitor.turn, hp, hm])), by simpa [Monitor.turn, hp, hm] using hsent⟩
    · by_cases hm : s.mtx = none
      · exact h.popping.congr (by simp [Monitor.turn, hp, hm]) (by simp [Monitor.turn, hp, hm])
      · exact h.popping.congr (by simp [Monitor.turn, hp, hm]) (by simp [Monitor.turn, hp, hm])
  · -- the message is inserted
    simp only [hp, Bool.false_eq_true, ↓reduceIte]
    refine ⟨hturn, ?_, ?_, h.room⟩
    · exact Or.inr ⟨Or.inl (by simp [Monitor.turn, hp]), by simpa [Monitor.turn, hp] using hsent⟩
    · exact h.popping.congr (by simp [Monitor.turn, hp]) (by simp [Monitor.turn, hp])
  · simp only [hp, Bool.false_eq_true, ↓reduceIte]
    refine ⟨hturn, ?_, ?_, h.room⟩
    · exact Or.inr ⟨Or.inr (by simp [Monitor.turn, hp]), by simpa [Monitor.turn, hp] using hsent⟩
    · exact h.popping.congr (by simp [Monitor.turn, hp]) (by simp [Monitor.turn, hp])
  · -- the consumer is woken if it sleeps, and `push` returns
    simp only [hp, ↓reduceIte]
    have hsleeper : (∃ t, s.pc t = .popAsleep) → s.pc .consumer = .popAsleep := by
      rintro ⟨t, ht⟩
      cases t with
      | producer => rw [hp] at ht; cases ht
      | consumer => exact ht
    refine ⟨⟨_, hrun.notifyOne .producer .consumer hsleeper⟩, ?_, ?_, h.room⟩
    · refine ⟨?_, by simpa [Monitor.notifyOne, hp] using hsent⟩
      simp only [Monitor.notifyOne, hp, Monitor.wake]
      split <;> simp
    · by_cases hsleep : s.pc .consumer = .popAsleep
      · have hgot : pops s.events = got := by
          rcases h.popping with ⟨_, hgot⟩ | ⟨m, hm, _⟩
          · exact hgot
          · rw [hsleep] at hm
            cases hm
        exact Or.inl ⟨Or.inr (Or.inl (by simp [Monitor.notifyOne, hp, Monitor.wake, hsleep])),
          by simpa [Monitor.notifyOne, hp] using hgot⟩
      · exact h.popping.congr (by simp [Monitor.notifyOne, hp, Monitor.wake, hsleep])
          (by simp [Monitor.notifyOne, hp])

theorem Hands.pop (h : Hands c s sent got cur) :
    Hands c (QueueT.naive.popTurn s).1 sent (got ++ (QueueT.naive.popTurn s).2.toList) cur := by
  obtain ⟨ls, hrun⟩ := h.reachable
  have hturn : ∃ ls, Run init ls (s.turn .consumer) := ⟨_, hrun.turn .consumer⟩
  simp only [QueueT.naive]
  rcases h.popping with ⟨hp | hp | hp | hp, hgot⟩ | ⟨msg, hp, hgot⟩
  · simp only [hp, Option.toList_none, List.append_nil]
    refine ⟨⟨_, hrun.call .consumer .pop hp⟩, ?_, ?_, h.room⟩
    · exact h.pushing.congr (by simp) (by simp)
    · exact Or.inl ⟨Or.inr (Or.inl (by simp [Call.entry])), by simpa using hgot⟩
  · simp only [hp, Option.toList_none, List.append_nil]
    refine ⟨hturn, ?_, ?_, h.room⟩
    · by_cases hm : s.mtx = none
      · exact h.pushing.congr (by simp [Monitor.turn, hp, hm]) (by simp [Monitor.turn, hp, hm])
      · exact h.pushing.congr (by simp [Monitor.turn, hp, hm]) (by simp [Monitor.turn, hp, hm])
    · by_cases hm : s.mtx = none
      · exact Or.inl ⟨Or.inr (Or.inr (Or.inl (by simp [Monitor.turn, hp, hm]))),
          by simpa [Monitor.turn, hp, hm] using hgot⟩
      · exact Or.inl ⟨Or.inr (Or.inl (by simp [Monitor.turn, hp, hm])), by simpa [Monitor.turn, hp, hm] using hgot⟩
  · -- the predicate of `wait`
    simp only [hp, Option.toList_none, List.append_nil]
    cases hq : s.queue.pop with
    | none =>
      refine ⟨hturn, ?_, ?_, h.room⟩
      · exact h.pushing.congr (by simp [Monitor.turn, hp, hq]) (by simp [Monitor.turn, hp, hq])
      · exact Or.inl ⟨Or.inr (Or.inr (Or.inr (by simp [Monitor.turn, hp, hq]))),
          by simpa [Monitor.turn, hp, hq] using hgot⟩
    | some r =>
      obtain ⟨m, q⟩ := r
      refine ⟨hturn, ?_, ?_, h.room⟩
      · exact h.pushing.congr (by simp [Monitor.turn, hp, hq]) (by simp [Monitor.turn, hp, hq])
      · exact Or.inr ⟨m, by simp [Monitor.turn, hp, hq], by simp [Monitor.turn, hp, hq, hgot]⟩
  · simp only [hp, Option.toList_none, List.append_nil]
    refine ⟨hturn, ?_, ?_, h.room⟩
    · exact h.pushing.congr (by simp [Monitor.turn, hp]) (by simp [Monitor.turn, hp])
    · exact h.popping.congr (by simp [Monitor.turn, hp]) (by simp [Monitor.turn, hp])
  · -- `pop` returns
    simp only [hp, Option.toList_some]
    refine ⟨hturn, ?_, ?_, h.room⟩
    · exact h.pushing.congr (by simp [Monitor.turn, hp]) (by simp [Monitor.turn, hp])
    · exact Or.inl ⟨Or.inl (by simp [Monitor.turn, hp]), by simpa [Monitor.turn, hp] using hgot⟩

theorem Hands.wake (h : Hands c s sent got cur) : Hands c (s.wake .consumer) sent got cur := by
  obtain ⟨ls, hrun⟩ := h.reachable
  refine ⟨⟨_, hrun.wake .consumer⟩, ?_, ?_, h.room⟩
  · apply h.pushing.congr
    · unfold Monitor.wake
      split <;> simp
    · simp
  · by_cases hsleep : s.pc .consumer = .popAsleep
    · rcases h.popping with ⟨_, hgot⟩ | ⟨m, hm, _⟩
      · exact Or.inl ⟨Or.inr (Or.inl (by simp [Monitor.wake, hsleep])), by simpa using hgot⟩
      · rw [hsleep] at hm
        cases hm
    · exact h.popping.congr (by simp [Monitor.wake, hsleep]) (by simp)

theorem Hands.pushes_prefix (h : Hands c s sent got cur) : pushes s.events <+: sent := by
  have hp := h.pushing
  cases cur with
  | none =>
    rw [hp.2]
  | some msg =>
    rcases hp with ⟨_, hsent⟩ | ⟨_, hsent⟩
    · rw [hsent]
      exact List.prefix_append _ _
    · rw [hsent]

theorem Hands.got_prefix (h : Hands c s sent got cur) : got <+: pops s.events := by
  rcases h.popping with ⟨_, hgot⟩ | ⟨m, _, hgot⟩
  · rw [hgot]
  · rw [hgot]
    exact List.prefix_append _ _

theorem Hands.order (h : Hands c s sent got cur) : got <+: sent := by
  have hpops : pops s.events <+: pushes s.events := by
    rw [h.fifo]
    exact List.prefix_append _ _
  exact (h.got_prefix.trans hpops).trans h.pushes_prefix

/-! ### Progress -/

/-- The turns taken, a push weighing more than what a wakeup undoes. -/
def work (s : Monitor Actor) : Nat :=
  3 * (5 * (pushes s.events).length + (s.pc .producer).pushStage) +
    (5 * (pops s.events).length + (s.pc .consumer).popStage)

theorem Hands.work_le (h : Hands c s sent got cur) : s.work ≤ 20 * c + 16 := by
  have hroom := h.room
  have hpushes := h.pushes_prefix.length_le
  have hfifo := congrArg List.length h.fifo
  rw [List.length_append] at hfifo
  have hp : (s.pc .producer).pushStage ≤ 4 := by cases s.pc .producer <;> simp [Pc.pushStage]
  have hc : (s.pc .consumer).popStage ≤ 4 := by cases s.pc .consumer <;> simp [Pc.popStage]
  unfold work
  omega

theorem Hands.push_works (h : Hands c s sent got (some msg)) :
    QueueT.naive.pushTurn msg s = (s, false) ∨ s.work < Monitor.work (QueueT.naive.pushTurn msg s).1 := by
  simp only [QueueT.naive]
  rcases h.pushing with ⟨hp | hp | hp, _⟩ | ⟨hp | hp, _⟩
  · right
    simp [hp, work, Call.entry, Pc.pushStage]
  · by_cases hm : s.mtx = none
    · right
      simp [hp, hm, Monitor.turn, work, Pc.pushStage]
    · left
      simp [hp, hm, Monitor.turn]
  · right
    simp only [hp, Monitor.turn, work, goto_events, effect_events, pushes_snoc_push, pops_snoc_push, goto_pc_self,
      goto_pc_consumer, effect_pc, List.length_append, List.length_cons, List.length_nil, Pc.pushStage]
    omega
  · right
    simp [hp, Monitor.turn, work, Pc.pushStage]
  · -- the wakeup sends the consumer back to its lock
    right
    have hc : (s.pc .consumer).popStage ≤ 4 := by cases s.pc .consumer <;> simp [Pc.popStage]
    by_cases hsleep : s.pc .consumer = .popAsleep
    · simp [hp, Monitor.notifyOne, Monitor.wake, hsleep, work, Pc.pushStage, Pc.popStage]
      omega
    · simp [hp, Monitor.notifyOne, Monitor.wake, hsleep, work, Pc.pushStage]

theorem Hands.pop_works (h : Hands c s sent got cur) :
    QueueT.naive.popTurn s = (s, none) ∨ s.work < Monitor.work (QueueT.naive.popTurn s).1 := by
  simp only [QueueT.naive]
  rcases h.popping with ⟨hp | hp | hp | hp, _⟩ | ⟨msg, hp, _⟩
  · right
    simp [hp, work, Call.entry, Pc.popStage]
  · by_cases hm : s.mtx = none
    · right
      simp [hp, hm, Monitor.turn, work, Pc.popStage]
    · left
      simp [hp, hm, Monitor.turn]
  · right
    cases hq : s.queue.pop with
    | none => simp [hp, hq, Monitor.turn, work, Pc.popStage]
    | some r =>
      simp only [hp, hq, Monitor.turn, work, goto_events, effect_events, pushes_snoc_pop, pops_snoc_pop, goto_pc_self,
        goto_pc_producer, effect_pc, List.length_append, List.length_cons, List.length_nil, Pc.popStage]
      omega
  · left
    simp [hp, Monitor.turn]
  · right
    simp [hp, Monitor.turn, work, Pc.popStage]

/-- A push waits only for the mutex, and then the consumer has it. -/
theorem Hands.unstuck (h : Hands c s sent got (some msg)) (hpush : QueueT.naive.pushTurn msg s = (s, false)) :
    QueueT.naive.popTurn s ≠ (s, none) := by
  obtain ⟨ls, hrun⟩ := h.reachable
  have hexcl := hrun.sound.excludes
  have hlocked : (∃ m, s.pc .producer = .pushLock m) ∧ s.mtx ≠ none := by
    simp only [QueueT.naive] at hpush
    rcases h.pushing with ⟨hp | hp | hp, _⟩ | ⟨hp | hp, _⟩
    · have hpc := congrArg (fun r => r.1.pc .producer) hpush
      simp [hp, Call.entry] at hpc
    · refine ⟨⟨msg, hp⟩, fun hm => ?_⟩
      have hpc := congrArg (fun r => r.1.pc .producer) hpush
      simp [hp, hm, Monitor.turn] at hpc
    · have hpc := congrArg (fun r => r.1.pc .producer) hpush
      simp [hp, Monitor.turn] at hpc
    · have hpc := congrArg (fun r => r.1.pc .producer) hpush
      simp [hp, Monitor.turn] at hpc
    · have hret := congrArg Prod.snd hpush
      simp [hp] at hret
  obtain ⟨⟨m, hp⟩, hm⟩ := hlocked
  have howner : (s.pc .consumer).Holds := by
    obtain ⟨t, ht⟩ := Option.ne_none_iff_exists'.1 hm
    cases t with
    | producer =>
      have := (hexcl .producer).2 ht
      rw [hp] at this
      exact this.elim
    | consumer => exact (hexcl .consumer).2 ht
  intro hpop
  have hpc := congrArg (fun r => r.1.pc .consumer) hpop
  simp only [QueueT.naive] at hpc
  rcases h.popping with ⟨hq | hq | hq | hq, _⟩ | ⟨msg, hq, _⟩
  · rw [hq] at howner; exact howner
  · rw [hq] at howner; exact howner
  · cases hr : s.queue.pop with
    | none => simp [hq, hr, Monitor.turn] at hpc
    | some r => simp [hq, hr, Monitor.turn] at hpc
  · rw [hq] at howner; exact howner
  · simp [hq, Monitor.turn] at hpc

/-- A push waits only before its message is queued. -/
theorem Hands.released (h : Hands c s got got (some msg)) : QueueT.naive.pushTurn msg s ≠ (s, false) := by
  have hle := h.got_prefix.length_le
  have hfifo := congrArg List.length h.fifo
  rw [List.length_append] at hfifo
  intro hpush
  simp only [QueueT.naive] at hpush
  rcases h.pushing with ⟨_, hsent⟩ | ⟨hp | hp, _⟩
  · have hlen := congrArg List.length hsent
    rw [List.length_append, List.length_singleton] at hlen
    omega
  · have hpc := congrArg (fun r => r.1.pc .producer) hpush
    simp [hp, Monitor.turn] at hpc
  · have hret := congrArg Prod.snd hpush
    simp [hp] at hret

/-- With nobody pushing, a pop waits only asleep, on an empty queue. -/
theorem Hands.drained (h : Hands c s sent got none) (hpop : QueueT.naive.popTurn s = (s, none)) : got = sent := by
  obtain ⟨ls, hrun⟩ := h.reachable
  obtain ⟨hidle, hsent⟩ := h.pushing
  have hpc := congrArg (fun r => r.1.pc .consumer) hpop
  simp only [QueueT.naive] at hpc
  rcases h.popping with ⟨hq | hq | hq | hq, hgot⟩ | ⟨msg, hq, _⟩
  · simp [hq, Call.entry] at hpc
  · by_cases hm : s.mtx = none
    · simp [hq, hm, Monitor.turn] at hpc
    · -- somebody has the mutex, but neither thread is in a critical section
      obtain ⟨t, ht⟩ := Option.ne_none_iff_exists'.1 hm
      have hin := (hrun.sound.excludes t).2 ht
      cases t with
      | producer => rw [hidle] at hin; exact hin.elim
      | consumer => rw [hq] at hin; exact hin.elim
  · cases hr : s.queue.pop with
    | none => simp [hq, hr, Monitor.turn] at hpc
    | some r => simp [hq, hr, Monitor.turn] at hpc
  · have hlen := hrun.covered ⟨.consumer, hq⟩
    have hnone : s.helpers = 0 := by
      apply Finset.sum_eq_zero
      intro t _
      cases t with
      | producer => rw [hidle]; rfl
      | consumer => rw [hq]; rfl
    have hempty : s.queue.queue = [] := List.length_eq_zero_iff.1 (by omega)
    rw [hsent, h.fifo, hempty, List.append_nil, hgot]
  · simp [hq, Monitor.turn] at hpc

end Monitor

end NaiveQueue

/-- `NaiveQueue` delivers any number of messages. -/
def naiveDelivery (c : Nat) : QueueT.naive.Delivery c where
  Inv := Hands c
  work := Monitor.work
  bound := 20 * c + 16
  new := hands_new
  call msg h hroom := h.call msg hroom
  push h := h.push
  pop h := h.pop
  wake h := h.wake
  order h := h.order
  work_le h := h.work_le
  push_works h := h.push_works
  pop_works h := h.pop_works
  unstuck h hpush := h.unstuck hpush
  released h := h.released
  drained h hpop := h.drained hpop

end Lobook
