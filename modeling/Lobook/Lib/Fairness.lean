import Mathlib.Data.List.Basic

/-!
# Fair schedules

Actors take turns at a common state, in the order of a schedule.  What a turn does may depend on the time at which it
is taken, as when it reads a clock, so `turn n a s` is the state after a turn of `a` at time `n`.  A turn that leaves
the state alone is a turn spent waiting.

A schedule is fair to an actor if the actor takes turns again and again.  `Fair.eventually` is the rule for liveness:
where every turn waits or raises a bounded measure, and where short of the goal some actor will not have to wait for
ever, every fair schedule reaches the goal.
-/

namespace Fairness

variable {σ α : Type}

/-- The state at time `n`. -/
def stateAt (turn : Nat → α → σ → σ) (s₀ : σ) (sched : Nat → α) : Nat → σ
  | 0 => s₀
  | n + 1 => turn n (sched n) (stateAt turn s₀ sched n)

/-- Each of the actors in `fair` takes a turn again and again. -/
def Fair (fair : α → Prop) (sched : Nat → α) : Prop := ∀ a, fair a → ∀ n, ∃ m, n ≤ m ∧ sched m = a

/-- From some time on a turn of `a` would change the state `s`. -/
def Enabled (turn : Nat → α → σ → σ) (a : α) (s : σ) : Prop := ∃ m, ∀ n, m ≤ n → turn n a s ≠ s

section

variable {turn : Nat → α → σ → σ} {s₀ : σ} {sched : Nat → α} {fair : α → Prop}

@[simp] theorem stateAt_zero : stateAt turn s₀ sched 0 = s₀ := rfl

theorem stateAt_succ (n : Nat) :
    stateAt turn s₀ sched (n + 1) = turn n (sched n) (stateAt turn s₀ sched n) := rfl

/-- What holds at the start and is kept by every turn always holds. -/
theorem stateAt_invariant {I : Nat → σ → Prop} (h₀ : I 0 s₀) (hturn : ∀ n a s, I n s → I (n + 1) (turn n a s)) (n : Nat) :
    I n (stateAt turn s₀ sched n) := by
  induction n with
  | zero => exact h₀
  | succ n ih => exact hturn n (sched n) _ ih

theorem enabled_of_forall {a : α} {s : σ} (h : ∀ n, turn n a s ≠ s) : Enabled turn a s := ⟨0, fun n _ => h n⟩

/-- An actor that is enabled does not wait for ever: the state changes at some time. -/
theorem Fair.changes (hfair : Fair fair sched) {n : Nat} {a : α} (ha : fair a)
    (hen : Enabled turn a (stateAt turn s₀ sched n)) :
    ∃ k, n ≤ k ∧ stateAt turn s₀ sched k = stateAt turn s₀ sched n ∧
      turn k (sched k) (stateAt turn s₀ sched n) ≠ stateAt turn s₀ sched n := by
  by_contra hno
  simp only [not_exists, not_and, not_not] at hno
  have hsame : ∀ k, n ≤ k → stateAt turn s₀ sched k = stateAt turn s₀ sched n := by
    intro k hk
    induction hk with
    | refl => rfl
    | step hk ih =>
      rw [Nat.succ_eq_add_one, stateAt_succ, ih]
      exact hno _ hk ih
  obtain ⟨m, hm⟩ := hen
  obtain ⟨k, hk, hsched⟩ := hfair a ha (max n m)
  have hle : n ≤ k := by omega
  apply hm k (by omega)
  rw [← hsched]
  exact hno k hle (hsame k hle)

/-- Every fair schedule reaches the goal, if from time `m` on every turn waits or raises the measure `μ`, the measure
is bounded, and short of the goal some actor is enabled. -/
theorem Fair.eventually (hfair : Fair fair sched) (Goal : σ → Prop) (μ : σ → Nat) (bound m : Nat)
    (hbound : ∀ n, μ (stateAt turn s₀ sched n) ≤ bound)
    (hraise : ∀ n, m ≤ n → ¬ Goal (stateAt turn s₀ sched n) →
      stateAt turn s₀ sched (n + 1) = stateAt turn s₀ sched n ∨
        μ (stateAt turn s₀ sched n) < μ (stateAt turn s₀ sched (n + 1)))
    (henabled : ∀ n, ¬ Goal (stateAt turn s₀ sched n) → ∃ a, fair a ∧ Enabled turn a (stateAt turn s₀ sched n)) :
    ∃ n, Goal (stateAt turn s₀ sched n) := by
  -- induction on how far the measure is from its bound
  suffices h : ∀ d n, m ≤ n → bound - μ (stateAt turn s₀ sched n) ≤ d → ∃ n, Goal (stateAt turn s₀ sched n) from
    h _ m (Nat.le_refl m) (Nat.le_refl _)
  intro d
  induction d with
  | zero =>
    intro n hn hd
    by_contra hno
    have hgoal : ∀ n, ¬ Goal (stateAt turn s₀ sched n) := fun n h => hno ⟨n, h⟩
    obtain ⟨a, ha, hen⟩ := henabled n (hgoal n)
    obtain ⟨k, hk, hsame, hchange⟩ := hfair.changes ha hen
    rw [← hsame] at hchange
    have hup := (hraise k (by omega) (hgoal k)).resolve_left hchange
    have hle := hbound (k + 1)
    rw [hsame] at hup
    omega
  | succ d ih =>
    intro n hn hd
    by_cases hgoal : Goal (stateAt turn s₀ sched n)
    · exact ⟨n, hgoal⟩
    · obtain ⟨a, ha, hen⟩ := henabled n hgoal
      obtain ⟨k, hk, hsame, hchange⟩ := hfair.changes ha hen
      rw [← hsame] at hchange hgoal
      have hup := (hraise k (by omega) hgoal).resolve_left hchange
      rw [hsame] at hup
      apply ih (k + 1) (by omega)
      omega

end

end Fairness
