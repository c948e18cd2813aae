import Lobook.Engine.Server

/-!
# The server returns

Every turn of a thread either waits or gets on: it raises `progress`, the work of the queue together with how far
each thread has got, and that is bounded (`turn_progress`, `Sound.progress_le`).  As long as the main thread has not
returned, some thread need not wait for ever (`Sound.enabled`): the engine is ready sooner or later, the pacing
interval ends, the two sides of the queue do not wait for each other, and the engine does not wait for messages while
`SHUTDOWN` is on its way.  So under every fair schedule the server returns with the book of the whole workload
(`server_returns`).
-/

namespace Lobook

open Checked SPSCQueue Fairness

namespace Network

/-- How far the thread has got. -/
def stage (len : Nat) : Network → Nat
  | .waiting => 0
  | .stamping i => 3 * i + 1
  | .pushing i _ => 3 * i + 2
  | .pacing i _ => 3 * i + 3
  | .finished => 3 * len + 2

end Network

namespace Main

def stage : Main → Nat
  | .joining => 0
  | .stopping => 1
  | .joiningEngine => 2
  | .returned => 3

end Main

namespace Engine

/-- How far the thread has got with the message that follows `n` handled ones. -/
def stage (n : Nat) : Engine → Nat
  | .starting => 0
  | .initialised => 1
  | .popping => 4 * n + 2
  | .popped _ => 4 * n + 3
  | .handling _ _ => 4 * n + 4
  | .recording _ _ => 4 * n + 1
  | .stopped => 4 * n + 4
  | .crashed _ => 4 * n + 1

end Engine

namespace Server

variable {Q : QueueT} {c : Nat} {A : Args} {D : Q.Delivery c} {s : Server Q} {n : Nat}

def progress (A : Args) (D : Q.Delivery c) (s : Server Q) : Nat :=
  D.work s.queue + s.network.stage A.workload.length + s.main.stage + s.engine.stage s.handled.length

section Progress

theorem Sound.handled_length_le (hw : ∀ m ∈ A.workload, m.type ≠ .SHUTDOWN) (h : s.Sound A D) :
    s.handled.length ≤ A.workload.length := by
  have hle := (h.sequential hw).first.length_le
  simpa only [List.length_map] using hle

theorem Sound.progress_le (hw : ∀ m ∈ A.workload, m.type ≠ .SHUTDOWN) (h : s.Sound A D) :
    s.progress A D ≤ D.bound + 7 * A.workload.length + 10 := by
  have hwork := D.work_le h.queue
  have hhandled := h.handled_length_le hw
  have hnetwork : s.network.stage A.workload.length ≤ 3 * A.workload.length + 3 := by
    have hwithin := h.within
    cases hn : s.network <;> simp only [hn, Network.stamped] at hwithin <;> simp only [Network.stage] <;> omega
  have hmain : s.main.stage ≤ 3 := by cases s.main <;> simp [Main.stage]
  have hengine : s.engine.stage s.handled.length ≤ 4 * s.handled.length + 4 := by
    cases s.engine <;> simp only [Engine.stage] <;> omega
  unfold progress
  omega

theorem networkTurn_progress (h : s.Sound A D) :
    networkTurn A n s = s ∨ s.progress A D < (networkTurn A n s).progress A D := by
  unfold networkTurn
  cases hn : s.network with
  | waiting =>
    simp only
    split
    · right
      simp only [progress, hn, Network.stage]
      omega
    · exact Or.inl rfl
  | stamping i =>
    have hwithin := h.within
    rw [hn, Network.stamped] at hwithin
    right
    simp only
    cases A.workload[i]? with
    | none =>
      simp only [progress, hn, Network.stage]
      omega
    | some msg =>
      simp only [progress, hn, Network.stage]
      omega
  | pushing i msg =>
    have hm := h.main_joining (by rw [hn]; simp)
    have hqueue := h.queue
    rw [hm, hn] at hqueue
    simp only
    rcases D.push_works hqueue with heq | hlt
    · left
      rw [heq]
      cases s
      simp_all
    · right
      split <;> simp only [progress, hn, Network.stage] <;> omega
  | pacing i waitUntil =>
    simp only
    split
    · right
      simp only [progress, hn, Network.stage]
      omega
    · exact Or.inl rfl
  | finished => exact Or.inl rfl

theorem mainTurn_progress (h : s.Sound A D) : mainTurn s = s ∨ s.progress A D < (mainTurn s).progress A D := by
  unfold mainTurn
  cases hm : s.main with
  | joining =>
    simp only
    split
    · right
      simp only [progress, hm, Main.stage]
      omega
    · exact Or.inl rfl
  | stopping =>
    have hqueue := h.queue
    rw [hm] at hqueue
    simp only
    rcases D.push_works hqueue with heq | hlt
    · left
      rw [heq]
      cases s
      simp_all
    · right
      split <;> simp only [progress, hm, Main.stage] <;> omega
  | joiningEngine =>
    simp only
    split
    · right
      simp only [progress, hm, Main.stage]
      omega
    · exact Or.inl rfl
  | returned => exact Or.inl rfl

theorem engineTurn_progress (h : s.Sound A D) : engineTurn A n s = s ∨ s.progress A D < (engineTurn A n s).progress A D := by
  unfold engineTurn
  cases he : s.engine with
  | starting =>
    right
    simp only
    split <;> simp only [progress, he, Engine.stage] <;> omega
  | initialised =>
    right
    simp only [progress, he, Engine.stage]
    omega
  | popping =>
    simp only
    rcases D.pop_works h.queue with heq | hlt
    · left
      rw [heq]
      cases s
      simp_all
    · right
      cases (Q.popTurn s.queue).2 <;> simp only [progress, he, Engine.stage] <;> omega
  | popped msg =>
    right
    simp only
    split <;> simp only [progress, he, Engine.stage] <;> omega
  | handling msg nowPop =>
    right
    simp only
    split <;>
      simp only [progress, he, Engine.stage, List.length_append, List.length_cons, List.length_nil] <;> omega
  | recording msg nowPop =>
    right
    simp only [progress, he, Engine.stage]
    omega
  | stopped => exact Or.inl rfl
  | crashed e => exact Or.inl rfl

/-- A turn of a thread waits or gets on. -/
theorem turn_progress (h : s.Sound A D) {t : Thread} (ht : t ≠ .wakeup) :
    turn A n t s = s ∨ s.progress A D < (turn A n t s).progress A D := by
  cases t with
  | network => exact networkTurn_progress h
  | main => exact mainTurn_progress h
  | engine => exact engineTurn_progress h
  | wakeup => exact absurd rfl ht

end Progress

/-! ### Nobody waits for ever -/

section Enabled

/-- After every reading of the clock the pacing interval comes to an end. -/
def Elapses (A : Args) : Prop := ∀ n, ∃ m, ∀ j, m ≤ j → wrap (A.clock n + A.pacingNs) ≤ A.clock j

/-- The readings that the network thread goes by. -/
structure Paced (A : Args) (s : Server Q) : Prop where
  pushing : ∀ i msg, s.network = .pushing i msg → ∃ n, msg.timestamp = A.clock n
  pacing : ∀ i waitUntil, s.network = .pacing i waitUntil → ∃ n, waitUntil = wrap (A.clock n + A.pacingNs)

theorem Paced.turn (h : s.Paced A) (t : Thread) : (turn A n t s).Paced A := by
  cases t with
  | network =>
    show (networkTurn A n s).Paced A
    unfold networkTurn
    split
    · split
      · exact ⟨fun i msg e => (by cases e), fun i w e => (by cases e)⟩
      · exact h
    · split
      · exact ⟨fun i msg e => (by cases e), fun i w e => (by cases e)⟩
      · refine ⟨fun i msg e => ?_, fun i w e => (by cases e)⟩
        cases e
        exact ⟨n, rfl⟩
    · rename_i i msg hn
      obtain ⟨m, hm⟩ := h.pushing i msg hn
      split
      · refine ⟨fun i msg e => (by cases e), fun i w e => ?_⟩
        cases e
        exact ⟨m, by rw [hm]⟩
      · refine ⟨fun i msg e => ?_, fun i w e => (by cases e)⟩
        cases e
        exact ⟨m, hm⟩
    · split
      · exact ⟨fun i msg e => (by cases e), fun i w e => (by cases e)⟩
      · exact h
    · exact h
  | main =>
    show (mainTurn s).Paced A
    unfold mainTurn
    split
    · split
      · exact ⟨h.pushing, h.pacing⟩
      · exact h
    · exact ⟨h.pushing, h.pacing⟩
    · split
      · exact ⟨h.pushing, h.pacing⟩
      · exact h
    · exact h
  | engine =>
    show (engineTurn A n s).Paced A
    unfold engineTurn
    split
    · split <;> exact ⟨h.pushing, h.pacing⟩
    · exact ⟨h.pushing, h.pacing⟩
    · exact ⟨h.pushing, h.pacing⟩
    · split <;> exact ⟨h.pushing, h.pacing⟩
    · split <;> exact ⟨h.pushing, h.pacing⟩
    · exact ⟨h.pushing, h.pacing⟩
    · exact h
    · exact h
  | wakeup => exact ⟨h.pushing, h.pacing⟩

/-- A prefix of a workload that the book can handle is one that it can handle. -/
theorem not_crashed (hw : ∀ m ∈ A.workload, m.type ≠ .SHUTDOWN) {b : FastBitsetOrderBook}
    (hrun : MatchingEngine.run A.fuel A.maxOrders A.workload = .ok b) (h : s.Sequential A) (e : Stop) :
    s.engine ≠ .crashed e := by
  intro he
  have hcrash := h.crash e he
  obtain ⟨rest, hrest⟩ := h.first
  have hgenuine : ∀ m ∈ s.handled.map strip, m.type ≠ .SHUTDOWN := by
    intro m hm hstop
    have hmem : m ∈ A.workload.map strip := by
      rw [← hrest]
      exact List.mem_append_left _ hm
    obtain ⟨m', hm', rfl⟩ := List.mem_map.1 hmem
    exact hw m' hm' hstop
  rw [← MatchingEngine.run_strip, ← hrest, MatchingEngine.run_append hgenuine, MatchingEngine.run_strip, hcrash] at hrun
  cases hrun

/-- A turn of the engine that pops something, or gets on with it. -/
theorem engineTurn_ne_of_popTurn (he : s.engine = .popping) (hpop : Q.popTurn s.queue ≠ (s.queue, none)) :
    engineTurn A n s ≠ s := by
  intro heq
  apply hpop
  have hqueue := congrArg Server.queue heq
  have hengine := congrArg Server.engine heq
  simp only [engineTurn, he] at hqueue hengine
  cases hr : (Q.popTurn s.queue).2 with
  | none => exact Prod.ext hqueue hr
  | some msg => simp [hr] at hengine

/-- A push that does not wait changes the state of the thread that pushes or the queue. -/
theorem networkTurn_ne_of_pushTurn {i : Nat} {msg : OrderMessage} (hn : s.network = .pushing i msg)
    (hpush : Q.pushTurn msg s.queue ≠ (s.queue, false)) : networkTurn A n s ≠ s := by
  intro heq
  apply hpush
  have hqueue := congrArg Server.queue heq
  have hnetwork := congrArg Server.network heq
  simp only [networkTurn, hn] at hqueue hnetwork
  cases hr : (Q.pushTurn msg s.queue).2 with
  | false => exact Prod.ext hqueue hr
  | true => simp [hr] at hnetwork

theorem mainTurn_ne_of_pushTurn (hm : s.main = .stopping) (hpush : Q.pushTurn shutdown s.queue ≠ (s.queue, false)) :
    mainTurn s ≠ s := by
  intro heq
  apply hpush
  have hqueue := congrArg Server.queue heq
  have hmain := congrArg Server.main heq
  simp only [mainTurn, hm] at hqueue hmain
  cases hr : (Q.pushTurn shutdown s.queue).2 with
  | false => exact Prod.ext hqueue hr
  | true => simp [hr] at hmain

/-- While the engine waits for messages somebody gets on. -/
theorem Sound.enabled_of_popping (helapse : Elapses A) (h : s.Sound A D) (hp : s.Paced A)
    (he : s.engine = .popping) : ∃ t, t ≠ .wakeup ∧ Enabled (Server.turn A) t s := by
  have hqueue := h.queue
  have halive : s.engine.Alive := by rw [he]; trivial
  have hready := h.engine.ready halive (by rw [he]; simp)
  by_cases hpop : Q.popTurn s.queue = (s.queue, none)
  · -- the engine waits, so nobody waits for it
    cases hn : s.network with
    | waiting =>
      refine ⟨.network, by simp, enabled_of_forall fun n heq => ?_⟩
      have hnetwork := congrArg Server.network heq
      simp [Server.turn, Server.networkTurn, hn, hready] at hnetwork
    | stamping i =>
      refine ⟨.network, by simp, enabled_of_forall fun n heq => ?_⟩
      have hnetwork := congrArg Server.network heq
      simp only [Server.turn, Server.networkTurn, hn] at hnetwork
      split at hnetwork <;> cases hnetwork
    | pushing i msg =>
      have hm := h.main_joining (by rw [hn]; simp)
      rw [hm, hn] at hqueue
      have hpush : Q.pushTurn msg s.queue ≠ (s.queue, false) := fun hpush => D.unstuck hqueue hpush hpop
      exact ⟨.network, by simp, enabled_of_forall fun n => networkTurn_ne_of_pushTurn hn hpush⟩
    | pacing i waitUntil =>
      obtain ⟨k, hk⟩ := hp.pacing i waitUntil hn
      obtain ⟨m, hm⟩ := helapse k
      refine ⟨.network, by simp, m, fun n hle heq => ?_⟩
      have hover : waitUntil ≤ A.clock n := hk ▸ hm n hle
      have hnetwork := congrArg Server.network heq
      simp [Server.turn, Server.networkTurn, hn, hover] at hnetwork
    | finished =>
      cases hm : s.main with
      | joining =>
        refine ⟨.main, by simp, enabled_of_forall fun n heq => ?_⟩
        have hmain := congrArg Server.main heq
        simp [Server.turn, Server.mainTurn, hn, hm] at hmain
      | stopping =>
        rw [hm, hn] at hqueue
        have hpush : Q.pushTurn shutdown s.queue ≠ (s.queue, false) := fun hpush => D.unstuck hqueue hpush hpop
        exact ⟨.main, by simp, enabled_of_forall fun n => mainTurn_ne_of_pushTurn hm hpush⟩
      | joiningEngine =>
        -- everything sent has been popped, `SHUTDOWN` included
        rw [hm, hn] at hqueue
        have hall := D.drained hqueue hpop
        obtain ⟨msgs, hsent, _⟩ := h.sent
        have hmem : shutdown ∈ s.handled := by
          rw [he, Engine.inHand, List.append_nil, hsent, hm] at hall
          · rw [hall]
            simp [farewell]
          all_goals simp
        exact absurd rfl (h.engine.genuine _ hmem)
      | returned =>
        have hstop := h.returned hm
        rw [he] at hstop
        cases hstop
  · exact ⟨.engine, by simp, enabled_of_forall fun n => engineTurn_ne_of_popTurn he hpop⟩

/-- After `SHUTDOWN` the main thread returns. -/
theorem Sound.enabled_of_stopped (hw : ∀ m ∈ A.workload, m.type ≠ .SHUTDOWN) (h : s.Sound A D)
    (he : s.engine = .stopped) (hm : s.main ≠ .returned) : Enabled (Server.turn A) .main s := by
  have hqueue := h.queue
  obtain ⟨msgs, hsent, _, _, hall⟩ := h.handled_prefix hw
  have hmem : shutdown ∈ s.sent := (D.order hqueue).subset (by simp [he, Engine.inHand])
  have hjoined := (h.shutdown_of_mem hw hmem rfl).2
  have hn := h.joined hjoined
  apply enabled_of_forall
  intro n
  cases hpc : s.main with
  | joining => exact absurd hpc hjoined
  | stopping =>
    -- the message has been popped, so the push does not wait
    apply mainTurn_ne_of_pushTurn hpc
    rw [hpc, hn, hsent, hpc, he, hall he] at hqueue
    exact D.released hqueue
  | joiningEngine =>
    intro heq
    have hmain := congrArg Server.main heq
    simp [Server.turn, Server.mainTurn, hpc, he] at hmain
  | returned => exact absurd hpc hm

/-- As long as the server has not returned, some thread need not wait for ever. -/
theorem Sound.enabled (hw : ∀ m ∈ A.workload, m.type ≠ .SHUTDOWN) (helapse : Elapses A) (h : s.Sound A D)
    (hp : s.Paced A) (hcrash : ∀ e, s.engine ≠ .crashed e) (hm : s.main ≠ .returned) :
    ∃ t, t ≠ .wakeup ∧ Enabled (Server.turn A) t s := by
  cases he : s.engine with
  | starting =>
    refine ⟨.engine, by simp, enabled_of_forall fun n heq => ?_⟩
    have hengine := congrArg Server.engine heq
    simp only [Server.turn, Server.engineTurn, he] at hengine
    split at hengine <;> cases hengine
  | initialised =>
    refine ⟨.engine, by simp, enabled_of_forall fun n heq => ?_⟩
    have hengine := congrArg Server.engine heq
    simp [Server.turn, Server.engineTurn, he] at hengine
  | popping => exact h.enabled_of_popping helapse hp he
  | popped msg =>
    refine ⟨.engine, by simp, enabled_of_forall fun n heq => ?_⟩
    have hengine := congrArg Server.engine heq
    simp only [Server.turn, Server.engineTurn, he] at hengine
    split at hengine <;> cases hengine
  | handling msg nowPop =>
    refine ⟨.engine, by simp, enabled_of_forall fun n heq => ?_⟩
    have hengine := congrArg Server.engine heq
    simp only [Server.turn, Server.engineTurn, he] at hengine
    split at hengine <;> cases hengine
  | recording msg nowPop =>
    refine ⟨.engine, by simp, enabled_of_forall fun n heq => ?_⟩
    have hengine := congrArg Server.engine heq
    simp [Server.turn, Server.engineTurn, he] at hengine
  | stopped => exact ⟨.main, by simp, h.enabled_of_stopped hw he hm⟩
  | crashed e => exact absurd he (hcrash e)

end Enabled

/-! ### Fair schedules -/

section Returns

/-- Each thread takes a turn again and again, and there are wakeups for no reason only finitely often. -/
structure FairSchedule (sched : Nat → Thread) : Prop where
  fair : Fair (· ≠ .wakeup) sched
  wakeups : ∃ m, ∀ n, m ≤ n → sched n ≠ .wakeup

theorem paced_at (sched : Nat → Thread) (n : Nat) : (at_ Q A sched n).Paced A := by
  refine stateAt_invariant (I := fun _ (s : Server Q) => s.Paced A) ?_ (fun _ t _ h => h.turn t) n
  exact ⟨fun i msg e => (by cases e), fun i w e => (by cases e)⟩

/-- Once returned, always returned. -/
theorem returned_turn (hm : s.main = .returned) (t : Thread) : (turn A n t s).main = .returned := by
  cases t with
  | network =>
    show (networkTurn A n s).main = _
    unfold networkTurn
    split
    · split <;> exact hm
    · split <;> exact hm
    · exact hm
    · split <;> exact hm
    · exact hm
  | main => simp [Server.turn, Server.mainTurn, hm]
  | engine =>
    show (engineTurn A n s).main = _
    unfold engineTurn
    split
    · split <;> exact hm
    · exact hm
    · exact hm
    · split <;> exact hm
    · split <;> exact hm
    · exact hm
    · exact hm
    · exact hm
  | wakeup => exact hm

theorem eventually_returned (D : Q.Delivery c) (hcap : A.workload.length < c)
    (hw : ∀ m ∈ A.workload, m.type ≠ .SHUTDOWN) (helapse : Elapses A) {b : FastBitsetOrderBook}
    (hrun : MatchingEngine.run A.fuel A.maxOrders A.workload = .ok b) {sched : Nat → Thread}
    (hsched : FairSchedule sched) : ∃ n, (at_ Q A sched n).main = .returned := by
  obtain ⟨m, hm⟩ := hsched.wakeups
  have hsound := sound_at D hcap hw sched
  apply hsched.fair.eventually (fun s : Server Q => s.main = .returned) (progress A D)
    (D.bound + 7 * A.workload.length + 10) m
  · intro n
    exact (hsound n).progress_le hw
  · intro n hn _
    exact turn_progress (hsound n) (hm n hn)
  · intro n hgoal
    exact (hsound n).enabled hw helapse (paced_at sched n) (not_crashed hw hrun ((hsound n).sequential hw)) hgoal

theorem returned_at (D : Q.Delivery c) (hcap : A.workload.length < c)
    (hw : ∀ m ∈ A.workload, m.type ≠ .SHUTDOWN) (helapse : Elapses A) {b : FastBitsetOrderBook}
    (hrun : MatchingEngine.run A.fuel A.maxOrders A.workload = .ok b) {sched : Nat → Thread}
    (hsched : FairSchedule sched) : ∃ m, ∀ n, m ≤ n → (at_ Q A sched n).main = .returned := by
  obtain ⟨m, hm⟩ := eventually_returned D hcap hw helapse hrun hsched
  refine ⟨m, fun n hn => ?_⟩
  induction hn with
  | refl => exact hm
  | step _ ih => exact returned_turn ih _

/-- The book after the return is that of the whole workload. -/
theorem Sequential.book_of_returned (h : s.Sequential A) (hm : s.main = .returned) {b : FastBitsetOrderBook}
    (hrun : MatchingEngine.run A.fuel A.maxOrders A.workload = .ok b) : s.book = b := by
  obtain ⟨hall, _, halive⟩ := h.complete hm
  have hbook := h.book halive
  rw [← MatchingEngine.run_strip, hall, MatchingEngine.run_strip, hrun] at hbook
  exact (Except.ok.inj hbook).symm

/-- The three threads in turn. -/
def roundRobin (n : Nat) : Thread := if n % 3 = 0 then .network else if n % 3 = 1 then .main else .engine

theorem fair_roundRobin : FairSchedule roundRobin where
  fair t ht n := by
    cases t with
    | network => exact ⟨3 * n, by omega, by simp [roundRobin]⟩
    | main => exact ⟨3 * n + 1, by omega, by simp [roundRobin, Nat.add_mod]⟩
    | engine => exact ⟨3 * n + 2, by omega, by simp [roundRobin, Nat.add_mod]⟩
    | wakeup => exact absurd rfl ht
  wakeups := by
    refine ⟨0, fun n _ => ?_⟩
    unfold roundRobin
    split
    · simp
    · split <;> simp

end Returns

end Server

end Lobook
