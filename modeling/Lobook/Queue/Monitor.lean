import Mathlib.Algebra.BigOperators.Group.Finset.Piecewise
import Lobook.Queue.NaiveQueue
import Lobook.Lib.Transition

/-!
# `NaiveQueue` as its threads see it (`naive_queue.h`)

Any number of threads call `push`, `pop` and `try_pop`.  Taking the mutex, working on the queue, releasing the mutex
and notifying the condition variable are steps of their own, and the steps of the threads interleave in any order.
`cv_.wait` tests the queue under the mutex; where the queue is empty it releases the mutex and sleeps, and after a
wakeup it takes the mutex and tests again.  A sleeping thread is woken by `notify_one`, or for no reason.

Every operation takes effect at one step inside its critical section, and in the order of these steps the operations
are a run of the sequential queue (`monitor_linearizable`).  A message is never left lying while a thread sleeps and
no other thread is on its way to it (`no_lost_wakeup`).
-/

namespace Lobook

namespace NaiveQueue

inductive Call where
  | push (msg : OrderMessage)
  | pop
  | tryPop
  deriving DecidableEq

/-- Where a thread is. -/
inductive Pc where
  | idle
  | pushLock (msg : OrderMessage)
  | pushInsert (msg : OrderMessage)
  | pushUnlock (msg : OrderMessage)
  | pushNotify (msg : OrderMessage)
  | popLock
  | popTest
  | popAsleep
  | popUnlock (msg : OrderMessage)
  | tryLock
  | tryTest
  | tryUnlock (out : Option OrderMessage)
  deriving DecidableEq

/-- The first step of a call. -/
def Call.entry : Call → Pc
  | .push msg => .pushLock msg
  | .pop => .popLock
  | .tryPop => .tryLock

namespace Pc

/-- The thread holds the mutex. -/
def Holds : Pc → Prop
  | .pushInsert _ | .pushUnlock _ | .popTest | .popUnlock _ | .tryTest | .tryUnlock _ => True
  | _ => False

/-- What the call under way has done to the queue so far. -/
def effect : Pc → List Event
  | .pushUnlock msg | .pushNotify msg => [.push msg]
  | .popUnlock msg => [.pop msg]
  | .tryUnlock (some msg) => [.pop msg]
  | _ => []

/-- The thread is awake in `pop`, or its message is queued and it has yet to notify. -/
def helps : Pc → Nat
  | .pushUnlock _ | .pushNotify _ | .popLock | .popTest => 1
  | _ => 0

end Pc

/-- The queue, its mutex, the threads, and a record of the operations: `log` has those that have taken effect, in the
order of their effects, `returned` those that have returned, in the order of their returns. -/
structure Monitor (τ : Type) where
  queue : NaiveQueue
  mtx : Option τ
  pc : τ → Pc
  log : List (τ × Event)
  returned : List (τ × Event)

namespace Monitor

variable {τ : Type}

def init : Monitor τ := ⟨NaiveQueue.empty, none, fun _ => .idle, [], []⟩

section Turns

variable [DecidableEq τ]

def goto (s : Monitor τ) (t : τ) (p : Pc) : Monitor τ := { s with pc := Function.update s.pc t p }

def lock (s : Monitor τ) (t : τ) : Monitor τ := { s with mtx := some t }

def unlock (s : Monitor τ) : Monitor τ := { s with mtx := none }

/-- The queue becomes `q` by the operation `e`. -/
def effect (s : Monitor τ) (t : τ) (q : NaiveQueue) (e : Event) : Monitor τ :=
  { s with queue := q, log := s.log ++ [(t, e)] }

def return_ (s : Monitor τ) (t : τ) (e : Event) : Monitor τ := { s with returned := s.returned ++ [(t, e)] }

/-- A turn of a thread inside a call, up to the notification.  A thread that waits for the mutex waits on. -/
def turn (s : Monitor τ) (t : τ) : Monitor τ :=
  match s.pc t with
  | .idle => s
  | .pushLock msg => if s.mtx = none then (s.lock t).goto t (.pushInsert msg) else s
  | .pushInsert msg => (s.effect t (s.queue.push msg) (.push msg)).goto t (.pushUnlock msg)
  | .pushUnlock msg => s.unlock.goto t (.pushNotify msg)
  | .pushNotify _ => s
  | .popLock => if s.mtx = none then (s.lock t).goto t .popTest else s
  | .popTest =>
    match s.queue.pop with
    | none => s.unlock.goto t .popAsleep
    | some (msg, q) => (s.effect t q (.pop msg)).goto t (.popUnlock msg)
  | .popAsleep => s
  | .popUnlock msg => (s.unlock.return_ t (.pop msg)).goto t .idle
  | .tryLock => if s.mtx = none then (s.lock t).goto t .tryTest else s
  | .tryTest =>
    match s.queue.pop with
    | none => s.goto t (.tryUnlock none)
    | some (msg, q) => (s.effect t q (.pop msg)).goto t (.tryUnlock (some msg))
  | .tryUnlock none => s.unlock.goto t .idle
  | .tryUnlock (some msg) => (s.unlock.return_ t (.pop msg)).goto t .idle

/-- A thread wakes up, if it sleeps. -/
def wake (s : Monitor τ) (t : τ) : Monitor τ := if s.pc t = .popAsleep then s.goto t .popLock else s

/-- `cv_.notify_one()`, which wakes `w`, and the return from `push`. -/
def notifyOne (s : Monitor τ) (t w : τ) : Monitor τ :=
  match s.pc t with
  | .pushNotify msg => ((s.return_ t (.push msg)).goto t .idle).wake w
  | _ => s

/-- What may happen next. -/
inductive Label (τ : Type) where
  | call (t : τ) (c : Call)
  | turn (t : τ)
  | notify (t w : τ)
  | wake (t : τ)

/-- `notify_one` wakes some sleeping thread, if there is one. -/
def Step (s : Monitor τ) : Label τ → Monitor τ → Prop
  | .call t c, s' => s.pc t = .idle ∧ s' = s.goto t c.entry
  | .turn t, s' => s' = s.turn t
  | .notify t w, s' => ((∃ v, s.pc v = .popAsleep) → s.pc w = .popAsleep) ∧ s' = s.notifyOne t w
  | .wake t, s' => s' = s.wake t

abbrev Run : Monitor τ → List (Label τ) → Monitor τ → Prop := Transition.Run Step

section

variable {s : Monitor τ} {ls : List (Label τ)}

theorem Run.call (h : Run init ls s) (t : τ) (c : Call) (hp : s.pc t = .idle) :
    Run init (ls ++ [.call t c]) (s.goto t c.entry) := h.snoc ⟨hp, rfl⟩

theorem Run.turn (h : Run init ls s) (t : τ) : Run init (ls ++ [.turn t]) (s.turn t) := h.snoc rfl

theorem Run.notifyOne (h : Run init ls s) (t w : τ) (hw : (∃ v, s.pc v = .popAsleep) → s.pc w = .popAsleep) :
    Run init (ls ++ [.notify t w]) (s.notifyOne t w) := h.snoc ⟨hw, rfl⟩

theorem Run.wake (h : Run init ls s) (t : τ) : Run init (ls ++ [.wake t]) (s.wake t) := h.snoc rfl

end

end Turns

/-! ### Linearizability -/

section Linearizable

variable [DecidableEq τ] {s s' : Monitor τ} {t : τ}

/-- The operations of one thread. -/
def ofThread (t : τ) (es : List (τ × Event)) : List (τ × Event) := es.filter fun e => e.1 = t

@[simp] theorem ofThread_append (es es' : List (τ × Event)) :
    ofThread t (es ++ es') = ofThread t es ++ ofThread t es' := List.filter_append es es'

theorem ofThread_self (es : List Event) : ofThread t (es.map fun e => (t, e)) = es.map fun e => (t, e) := by
  simp [ofThread]

theorem ofThread_other {u : τ} (h : t ≠ u) (es : List Event) : ofThread u (es.map fun e => (t, e)) = [] := by
  simp [ofThread, h]

/-- The mutex excludes, the effects are a run of the sequential queue, and each thread gets the results of its own
effects, in order. -/
structure Sound (s : Monitor τ) : Prop where
  excludes : ∀ t, (s.pc t).Holds ↔ s.mtx = some t
  sequential : NaiveQueue.Run .empty (s.log.map Prod.snd) s.queue
  answers : ∀ t, ofThread t s.log = ofThread t s.returned ++ (s.pc t).effect.map fun e => (t, e)

theorem sound_init : (init : Monitor τ).Sound where
  excludes t := by simp [init, Pc.Holds]
  sequential := Transition.Run.refl
  answers t := by simp [init, ofThread, Pc.effect]

/-- One thread goes on to `p`, with the effects `es` on the queue and the results `rs`. -/
theorem Sound.move (h : s.Sound) (p : Pc) (es rs : List Event)
    (hpc : s'.pc = Function.update s.pc t p)
    (hlock : p.Holds ↔ s'.mtx = some t) (hothers : ∀ u, u ≠ t → (s'.mtx = some u ↔ s.mtx = some u))
    (hlog : s'.log = s.log ++ es.map fun e => (t, e))
    (hret : s'.returned = s.returned ++ rs.map fun e => (t, e))
    (hqueue : NaiveQueue.Run .empty (s.log.map Prod.snd ++ es) s'.queue)
    (heffect : (s.pc t).effect ++ es = rs ++ p.effect) : s'.Sound where
  excludes u := by
    rw [hpc]
    by_cases hu : u = t
    · subst hu
      rw [Function.update_self]
      exact hlock
    · rw [Function.update_of_ne hu, hothers u hu]
      exact h.excludes u
  sequential := by
    rw [hlog, List.map_append, List.map_map]
    simpa using hqueue
  answers u := by
    rw [hpc, hlog, hret, ofThread_append, ofThread_append, h.answers u]
    by_cases hu : u = t
    · subst hu
      rw [Function.update_self, ofThread_self, ofThread_self, List.append_assoc, List.append_assoc,
        ← List.map_append, ← List.map_append, heffect]
    · have hu' : t ≠ u := fun e => hu e.symm
      rw [Function.update_of_ne hu, ofThread_other hu', ofThread_other hu', List.append_nil, List.append_nil]

/-- A step inside or outside the critical section. -/
theorem Sound.goto (h : s.Sound) {p : Pc} (hholds : p.Holds ↔ (s.pc t).Holds)
    (heffect : p.effect = (s.pc t).effect) : (s.goto t p).Sound := by
  apply h.move (t := t) p [] [] rfl
  · rw [hholds]
    exact h.excludes t
  · intro u _
    exact Iff.rfl
  · simp [Monitor.goto]
  · simp [Monitor.goto]
  · simpa [Monitor.goto] using h.sequential
  · simp [heffect]

/-- A step that takes the mutex. -/
theorem Sound.lock (h : s.Sound) {p : Pc} (hfree : s.mtx = none) (hholds : p.Holds)
    (heffect : p.effect = (s.pc t).effect) : ((s.lock t).goto t p).Sound := by
  apply h.move (t := t) p [] [] rfl
  · simp [Monitor.goto, Monitor.lock, hholds]
  · intro u hu
    simp [Monitor.goto, Monitor.lock, hfree, Ne.symm hu]
  · simp [Monitor.goto, Monitor.lock]
  · simp [Monitor.goto, Monitor.lock]
  · simpa [Monitor.goto, Monitor.lock] using h.sequential
  · simp [heffect]

/-- The operation takes effect. -/
theorem Sound.effect (h : s.Sound) {p : Pc} {q : NaiveQueue} {e : Event} (hstep : NaiveQueue.Step s.queue e q)
    (hholds : p.Holds ↔ (s.pc t).Holds) (heffect : (s.pc t).effect = []) (he : p.effect = [e]) :
    ((s.effect t q e).goto t p).Sound := by
  apply h.move (t := t) p [e] [] rfl
  · rw [hholds]
    exact h.excludes t
  · intro u _
    exact Iff.rfl
  · simp [Monitor.goto, Monitor.effect]
  · simp [Monitor.goto, Monitor.effect]
  · exact h.sequential.snoc hstep
  · simp [heffect, he]

/-- The mutex is released, and the call returns `rs` if it is over. -/
theorem Sound.unlock (h : s.Sound) (p : Pc) (rs : List Event) (hin : (s.pc t).Holds) (hout : ¬ p.Holds)
    (heffect : (s.pc t).effect = rs ++ p.effect) (hpc : s'.pc = Function.update s.pc t p) (hmtx : s'.mtx = none)
    (hqueue : s'.queue = s.queue) (hlog : s'.log = s.log)
    (hret : s'.returned = s.returned ++ rs.map fun e => (t, e)) : s'.Sound := by
  have howner := (h.excludes t).1 hin
  apply h.move (t := t) p [] rs hpc
  · simp [hout, hmtx]
  · intro u hu
    simp [hmtx, howner, Ne.symm hu]
  · simp [hlog]
  · exact hret
  · simpa [hqueue] using h.sequential
  · simpa using heffect

theorem Sound.turn (h : s.Sound) (t : τ) : (s.turn t).Sound := by
  unfold Monitor.turn
  split
  · exact h
  · -- `push` takes the mutex
    rename_i msg hp
    split
    · rename_i hfree
      exact h.lock hfree trivial (by rw [hp]; rfl)
    · exact h
  · -- the message is queued
    rename_i msg hp
    exact h.effect rfl (by rw [hp]; exact Iff.rfl) (by rw [hp]; rfl) rfl
  · rename_i msg hp
    exact h.unlock (.pushNotify msg) [] (by rw [hp]; trivial) (fun hn => hn) (by rw [hp]; rfl) rfl rfl
      rfl rfl (by simp [Monitor.goto, Monitor.unlock])
  · exact h
  · -- `pop` takes the mutex
    rename_i hp
    split
    · rename_i hfree
      exact h.lock hfree trivial (by rw [hp]; rfl)
    · exact h
  · -- the predicate of `wait`
    rename_i hp
    split
    · exact h.unlock .popAsleep [] (by rw [hp]; trivial) (fun hn => hn) (by rw [hp]; rfl) rfl rfl
        rfl rfl (by simp [Monitor.goto, Monitor.unlock])
    · rename_i msg q hq
      exact h.effect hq (by rw [hp]; exact Iff.rfl) (by rw [hp]; rfl) rfl
  · exact h
  · rename_i msg hp
    exact h.unlock .idle [.pop msg] (by rw [hp]; trivial) (fun hn => hn) (by rw [hp]; rfl) rfl rfl
      rfl rfl rfl
  · -- `try_pop` takes the mutex
    rename_i hp
    split
    · rename_i hfree
      exact h.lock hfree trivial (by rw [hp]; rfl)
    · exact h
  · rename_i hp
    split
    · exact h.goto (by rw [hp]; exact Iff.rfl) (by rw [hp]; rfl)
    · rename_i msg q hq
      exact h.effect hq (by rw [hp]; exact Iff.rfl) (by rw [hp]; rfl) rfl
  · rename_i hp
    exact h.unlock .idle [] (by rw [hp]; trivial) (fun hn => hn) (by rw [hp]; rfl) rfl rfl
      rfl rfl (by simp [Monitor.goto, Monitor.unlock])
  · rename_i msg hp
    exact h.unlock .idle [.pop msg] (by rw [hp]; trivial) (fun hn => hn) (by rw [hp]; rfl) rfl rfl
      rfl rfl rfl

theorem Sound.wake (h : s.Sound) (t : τ) : (s.wake t).Sound := by
  unfold Monitor.wake
  split
  · rename_i hp
    exact h.goto (by rw [hp]; exact Iff.rfl) (by rw [hp]; rfl)
  · exact h

theorem Sound.notifyOne (h : s.Sound) (t w : τ) : (s.notifyOne t w).Sound := by
  unfold Monitor.notifyOne
  split
  · rename_i msg hp
    apply Sound.wake
    apply h.move (t := t) .idle [] [.push msg] rfl
    · have hout := h.excludes t
      rw [hp] at hout
      exact hout
    · intro u _
      exact Iff.rfl
    · simp [Monitor.goto, Monitor.return_]
    · rfl
    · simpa [Monitor.goto, Monitor.return_] using h.sequential
    · simp [hp, Pc.effect]
  · exact h

theorem Sound.step (h : s.Sound) {l : Label τ} (hstep : Step s l s') : s'.Sound := by
  cases l with
  | call t c =>
    obtain ⟨hp, rfl⟩ := hstep
    apply h.goto
    · rw [hp]
      cases c <;> exact Iff.rfl
    · rw [hp]
      cases c <;> rfl
  | turn t =>
    obtain rfl := hstep
    exact h.turn t
  | notify t w =>
    obtain ⟨_, rfl⟩ := hstep
    exact h.notifyOne t w
  | wake t =>
    obtain rfl := hstep
    exact h.wake t

theorem Run.sound {ls : List (Label τ)} (h : Run init ls s) : s.Sound :=
  h.invariant sound_init fun _ _ _ hs hstep => hs.step hstep

end Linearizable

/-! ### Wakeups -/

section Wakeups

variable [DecidableEq τ] [Fintype τ] {s s' : Monitor τ} {t : τ}

/-- The threads that will look after a queued message. -/
def helpers (s : Monitor τ) : Nat := ∑ t, (s.pc t).helps

/-- While a thread sleeps, every queued message is looked after. -/
def Covered (s : Monitor τ) : Prop := (∃ t, s.pc t = .popAsleep) → s.queue.queue.length ≤ s.helpers

/-- The thread need not wait for another one. -/
def CanMove (s : Monitor τ) (t : τ) : Prop :=
  match s.pc t with
  | .idle | .popAsleep => False
  | .pushLock _ | .popLock | .tryLock => s.mtx = none
  | _ => True

theorem helpers_goto (s : Monitor τ) (t : τ) (p : Pc) :
    (s.goto t p).helpers + (s.pc t).helps = s.helpers + p.helps := by
  have hsum : ∀ f : τ → Nat, ∑ u, f u = f t + ∑ u ∈ Finset.univ \ {t}, f u := by
    intro f
    have h := Finset.sum_update_of_mem (Finset.mem_univ t) f (f t)
    rwa [Function.update_eq_self] at h
  have hrest : ∑ u ∈ Finset.univ \ {t}, ((s.goto t p).pc u).helps = ∑ u ∈ Finset.univ \ {t}, (s.pc u).helps := by
    apply Finset.sum_congr rfl
    intro u hu
    have hne : u ≠ t := by simpa using hu
    simp [goto, hne]
  have hself : ((s.goto t p).pc t).helps = p.helps := by simp [goto]
  unfold helpers
  rw [hsum fun u => ((s.goto t p).pc u).helps, hsum fun u => (s.pc u).helps, hrest, hself]
  omega

/-- Nobody falls asleep, and a message is queued only along with a helper. -/
theorem Covered.goto (h : s.Covered) (t : τ) (p : Pc) (hpc : s'.pc = (s.goto t p).pc) (hp : p ≠ .popAsleep)
    (hqueue : s'.queue.queue.length + (s.pc t).helps ≤ s.queue.queue.length + p.helps) : s'.Covered := by
  rintro ⟨u, hu⟩
  rw [hpc] at hu
  have hsleep : s.pc u = .popAsleep := by
    by_cases hut : u = t
    · subst hut
      simp only [Monitor.goto, Function.update_self] at hu
      exact absurd hu hp
    · simpa [Monitor.goto, hut] using hu
  have hle := h ⟨u, hsleep⟩
  have hcount := helpers_goto s t p
  have hsame : s'.helpers = (s.goto t p).helpers := by simp only [helpers, hpc]
  omega

theorem length_of_pop {q q' : NaiveQueue} {msg : OrderMessage} (h : q.pop = some (msg, q')) :
    q.queue.length = q'.queue.length + 1 := by
  unfold NaiveQueue.pop at h
  split at h
  · cases h
  · rename_i hq
    cases h
    simp [hq]

theorem length_of_pop_none {q : NaiveQueue} (h : q.pop = none) : q.queue = [] := by
  unfold NaiveQueue.pop at h
  split at h
  · rename_i hq
    exact hq
  · cases h

theorem Covered.turn (h : s.Covered) (t : τ) : (s.turn t).Covered := by
  unfold Monitor.turn
  split
  · exact h
  · rename_i msg hp
    split
    · exact h.goto t (.pushInsert msg) rfl (by simp) (by rw [hp]; exact Nat.le_refl _)
    · exact h
  · -- the message queued is looked after by the thread that queued it
    rename_i msg hp
    refine h.goto t (.pushUnlock msg) rfl (by simp) ?_
    simp [hp, Monitor.goto, Monitor.effect, push, Pc.helps]
  · rename_i msg hp
    exact h.goto t (.pushNotify msg) rfl (by simp) (by rw [hp]; exact Nat.le_refl _)
  · exact h
  · rename_i hp
    split
    · exact h.goto t .popTest rfl (by simp) (by rw [hp]; exact Nat.le_refl _)
    · exact h
  · -- a thread falls asleep on an empty queue only
    rename_i hp
    split
    · rename_i hq
      intro _
      have hempty : s.queue.queue = [] := length_of_pop_none hq
      simp [Monitor.goto, Monitor.unlock, hempty]
    · rename_i msg q hq
      refine h.goto t (.popUnlock msg) rfl (by simp) ?_
      have hlen := length_of_pop hq
      simp only [hp, Monitor.goto, Monitor.effect, Pc.helps]
      omega
  · exact h
  · rename_i msg hp
    exact h.goto t .idle rfl (by simp) (by rw [hp]; exact Nat.le_refl _)
  · rename_i hp
    split
    · exact h.goto t .tryTest rfl (by simp) (by rw [hp]; exact Nat.le_refl _)
    · exact h
  · rename_i hp
    split
    · exact h.goto t (.tryUnlock none) rfl (by simp) (by rw [hp]; exact Nat.le_refl _)
    · rename_i msg q hq
      refine h.goto t (.tryUnlock (some msg)) rfl (by simp) ?_
      have hlen := length_of_pop hq
      simp only [hp, Monitor.goto, Monitor.effect, Pc.helps]
      omega
  · rename_i hp
    exact h.goto t .idle rfl (by simp) (by rw [hp]; exact Nat.le_refl _)
  · rename_i msg hp
    exact h.goto t .idle rfl (by simp) (by rw [hp]; exact Nat.le_refl _)

theorem Covered.wake (h : s.Covered) (t : τ) : (s.wake t).Covered := by
  unfold Monitor.wake
  split
  · rename_i hp
    exact h.goto t .popLock rfl (by simp) (by rw [hp]; simp [Monitor.goto, Pc.helps])
  · exact h

/-- A notification passes the task on to the thread it wakes; it is lost only where no thread sleeps. -/
theorem Covered.notifyOne (h : s.Covered) {w : τ} (hw : (∃ v, s.pc v = .popAsleep) → s.pc w = .popAsleep) :
    (s.notifyOne t w).Covered := by
  unfold Monitor.notifyOne
  split
  · rename_i msg hp
    let s₁ := (s.return_ t (.push msg)).goto t .idle
    show (s₁.wake w).Covered
    by_cases hsleep : ∃ v, s.pc v = .popAsleep
    · have hasleep := hw hsleep
      have hwt : w ≠ t := by
        rintro rfl
        rw [hp] at hasleep
        cases hasleep
      have hw₁ : s₁.pc w = .popAsleep := by simp [s₁, Monitor.goto, Monitor.return_, hwt, hasleep]
      have hcount := helpers_goto (s.return_ t (.push msg)) t .idle
      change s₁.helpers + (s.pc t).helps = s.helpers + 0 at hcount
      rw [hp] at hcount
      have hcount' := helpers_goto s₁ w .popLock
      intro _
      have hle := h hsleep
      simp only [Monitor.wake, hw₁, ↓reduceIte] at hcount' ⊢
      have hqueue : (s₁.goto w .popLock).queue = s.queue := rfl
      rw [hqueue]
      simp only [Pc.helps] at hcount hcount'
      omega
    · rintro ⟨v, hv⟩
      refine absurd ⟨v, ?_⟩ hsleep
      have hnot : ∀ u, s₁.pc u ≠ .popAsleep := by
        intro u hu
        by_cases hut : u = t
        · subst hut
          simp [s₁, Monitor.goto] at hu
        · exact hsleep ⟨u, by simpa [s₁, Monitor.goto, Monitor.return_, hut] using hu⟩
      rw [Monitor.wake, if_neg (hnot w)] at hv
      exact absurd hv (hnot v)
  · exact h

theorem Covered.step (h : s.Covered) {l : Label τ} (hstep : Step s l s') : s'.Covered := by
  cases l with
  | call t c =>
    obtain ⟨hp, rfl⟩ := hstep
    refine h.goto t c.entry rfl ?_ ?_
    · cases c <;> simp [Call.entry]
    · rw [hp]
      exact Nat.add_le_add_left (Nat.zero_le _) _
  | turn t =>
    obtain rfl := hstep
    exact h.turn t
  | notify t w =>
    obtain ⟨hw, rfl⟩ := hstep
    exact h.notifyOne hw
  | wake t =>
    obtain rfl := hstep
    exact h.wake t

theorem Run.covered {ls : List (Label τ)} (h : Run init ls s) : s.Covered := by
  apply Transition.Run.invariant h
  · rintro ⟨t, ht⟩
    cases ht
  · exact fun _ _ _ hs hstep => hs.step hstep

omit [Fintype τ] in
/-- A thread inside a call moves, sleeps, or waits for a thread that moves. -/
theorem Sound.canMove (h : s.Sound) (hidle : s.pc t ≠ .idle) (hawake : s.pc t ≠ .popAsleep) :
    ∃ u, s.CanMove u := by
  have hholder : s.mtx ≠ none → ∃ u, s.CanMove u := by
    intro hm
    obtain ⟨u, hu⟩ := Option.ne_none_iff_exists'.1 hm
    have hin := (h.excludes u).2 hu
    refine ⟨u, ?_⟩
    unfold CanMove
    cases hp : s.pc u <;> simp_all [Pc.Holds]
  by_cases hm : s.mtx = none
  · refine ⟨t, ?_⟩
    unfold CanMove
    cases hp : s.pc t <;> simp_all
  · exact hholder hm

/-- No wakeup is lost: while a thread sleeps, every queued message is looked after by a thread of its own that is
awake in `pop` or about to notify; and when no thread can move, each one is outside the queue or sleeps in `pop` on
an empty queue. -/
theorem no_lost_wakeup {ls : List (Label τ)} (h : Run init ls s) :
    ((∃ t, s.pc t = .popAsleep) → s.queue.queue.length ≤ s.helpers) ∧
    ((∀ t, ¬ s.CanMove t) → ∀ t, s.pc t = .idle ∨ s.pc t = .popAsleep ∧ s.queue.queue = []) := by
  have hcov := h.covered
  refine ⟨hcov, fun hstuck t => ?_⟩
  have hquiet : ∀ u, s.pc u = .idle ∨ s.pc u = .popAsleep := by
    intro u
    by_contra hu
    simp only [not_or] at hu
    obtain ⟨v, hv⟩ := h.sound.canMove hu.1 hu.2
    exact hstuck v hv
  have hnone : s.helpers = 0 := by
    apply Finset.sum_eq_zero
    intro u _
    rcases hquiet u with hu | hu <;> rw [hu] <;> rfl
  rcases hquiet t with ht | ht
  · exact Or.inl ht
  · have hle := hcov ⟨t, ht⟩
    rw [hnone] at hle
    exact Or.inr ⟨ht, List.length_eq_zero_iff.1 (Nat.le_zero.1 hle)⟩

end Wakeups

/-! ### A hand-over -/

section Handover

/-- One thread sleeps in `pop` and another one pushes. -/
def handover (msg : OrderMessage) : List (Label Bool) :=
  [.call true .pop, .turn true, .turn true, .call false (.push msg), .turn false, .turn false]

private theorem handover_run (msg : OrderMessage) :
    ∃ s : Monitor Bool, Run init (handover msg) s ∧ s.log = [(false, .push msg)] ∧ s.pc true = .popAsleep := by
  have hpop := ((Run.call Transition.Run.refl true .pop rfl).turn true).turn true
  have hpush := ((hpop.call false (.push msg) rfl).turn false).turn false
  exact ⟨_, hpush, rfl, rfl⟩

theorem no_lost_wakeup_handover :
    ∃ s : Monitor Bool, s.pc true = .popAsleep ∧ s.queue.queue.length ≤ s.helpers := by
  obtain ⟨s, hrun, _, hsleep⟩ := handover_run OrderMessage.zero
  exact ⟨s, hsleep, (no_lost_wakeup hrun).1 ⟨true, hsleep⟩⟩

end Handover

end Monitor

end NaiveQueue

end Lobook
