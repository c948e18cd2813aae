import Lobook.Lib.Checked

/-!
# Loops

A loop without a bound in the program is `loop body fuel`: it repeats `body` until that yields a result, for at most
`fuel` rounds.  A result does not depend on the fuel (`loop_mono`).  `Sat.loop` is the rule of an invariant,
`loop_total` that of an invariant with a variant, which also proves that enough fuel exists.
-/

namespace Checked

variable {σ ρ : Type}

/-- How a round of a loop ends. -/
inductive Flow (σ ρ : Type) where
  | again (s : σ)
  | done (r : ρ)

/-- `I` holds of the state for the next round, or `Q` of the result. -/
def Flow.Post (I : σ → Prop) (Q : ρ → Prop) : Flow σ ρ → Prop
  | .again s => I s
  | .done r => Q r

def loop (body : σ → Exec (Flow σ ρ)) : Nat → σ → Exec ρ
  | 0, _ => .error .outOfFuel
  | fuel + 1, s => do
    match ← body s with
    | .again s' => loop body fuel s'
    | .done r => return r

/-- Every result of `m` is the result of `m'`. -/
def Extends (m m' : Exec ρ) : Prop := ∀ r, m = .ok r → m' = .ok r

/-- `m` is cut off by its fuel, or ends as `m'` does. -/
def CutOff (m m' : Exec ρ) : Prop := m = .error .outOfFuel ∨ m = m'

theorem CutOff.bind {α β : Type} {m m' : Exec α} {f f' : α → Exec β} (hm : CutOff m m')
    (hf : ∀ a, CutOff (f a) (f' a)) : CutOff (m >>= f) (m' >>= f') := by
  rcases hm with rfl | rfl
  · exact Or.inl rfl
  · cases m with
    | error e => exact Or.inr rfl
    | ok a => exact hf a

theorem CutOff.refl (m : Exec ρ) : CutOff m m := Or.inr rfl

theorem CutOff.extends {m m' : Exec ρ} (h : CutOff m m') : Extends m m' := by
  intro r hr
  rcases h with h | h
  · cases h.symm.trans hr
  · exact h.symm.trans hr

/-- Where there is a result, no other failure is possible with less fuel. -/
theorem CutOff.of_ok {m m' : Exec ρ} {r : ρ} (h : CutOff m m') (hr : m' = .ok r) {e : Stop} (he : m = .error e) :
    e = .outOfFuel := by
  rcases h with h | h
  · exact Except.error.inj (he.symm.trans h)
  · cases he.symm.trans (h.trans hr)

section Loop

variable {body body' : σ → Exec (Flow σ ρ)} {s s' : σ} {r : ρ} {E : Stop → Prop} {I : σ → Prop} {Q : ρ → Prop}

theorem loop_again (h : body s = .ok (.again s')) (fuel : Nat) :
    loop body (fuel + 1) s = loop body fuel s' := by
  simp only [loop, h, ok_bind]

theorem loop_done (h : body s = .ok (.done r)) (fuel : Nat) : loop body (fuel + 1) s = .ok r := by
  simp only [loop, h, ok_bind, pure_eq_ok]

/-- Less fuel, for the loop and inside its body, cuts it off or changes nothing. -/
theorem loop_cutOff (hbody : ∀ s, CutOff (body s) (body' s)) {fuel fuel' : Nat} (hle : fuel ≤ fuel') (s : σ) :
    CutOff (loop body fuel s) (loop body' fuel' s) := by
  induction fuel generalizing s fuel' with
  | zero => exact Or.inl rfl
  | succ fuel ih =>
    obtain ⟨fuel', rfl⟩ : ∃ k, fuel' = k + 1 := ⟨fuel' - 1, by omega⟩
    refine (hbody s).bind fun flow => ?_
    cases flow with
    | again s' => exact ih (by omega) s'
    | done r => exact CutOff.refl _

/-- More fuel, for the loop and inside its body, changes no result. -/
theorem loop_mono (hbody : ∀ s, CutOff (body s) (body' s)) {fuel fuel' : Nat} (hle : fuel ≤ fuel') (s : σ) :
    Extends (loop body fuel s) (loop body' fuel' s) := (loop_cutOff hbody hle s).extends

/-- What every round keeps, the loop keeps. -/
theorem Sat.loop (hfuel : E .outOfFuel) (hbody : ∀ s, I s → Sat E (body s) (Flow.Post I Q)) (fuel : Nat) (hs : I s) :
    Sat E (loop body fuel s) Q := by
  induction fuel generalizing s with
  | zero => exact hfuel
  | succ fuel ih =>
    refine (hbody s hs).bind fun flow hflow => ?_
    cases flow with
    | again s' => exact ih hflow
    | done r => exact hflow

/-- Two bodies that agree where the invariant holds make the same loop. -/
theorem loop_congr (hbody : ∀ s, I s → body s = body' s) (hkeep : ∀ s s', I s → body s = .ok (.again s') → I s')
    (fuel : Nat) (hs : I s) : loop body fuel s = loop body' fuel s := by
  induction fuel generalizing s with
  | zero => rfl
  | succ fuel ih =>
    simp only [loop, ← hbody s hs]
    cases h : body s with
    | error e => rfl
    | ok flow =>
      cases flow with
      | again s' => exact ih (hkeep s s' hs h)
      | done r => rfl

/-- A loop whose rounds decrease `μ` has a result. -/
theorem loop_total (μ : σ → Nat)
    (hbody : ∀ s, I s → ∃ flow, body s = .ok flow ∧ flow.Post (fun s' => I s' ∧ μ s' < μ s) Q) (hs : I s) :
    ∃ fuel r, loop body fuel s = .ok r ∧ Q r := by
  induction hn : μ s using Nat.strongRecOn generalizing s with
  | ind n ih =>
    obtain ⟨flow, e, hflow⟩ := hbody s hs
    cases flow with
    | again s' =>
      obtain ⟨fuel, r, e', hr⟩ := ih (μ s') (hn ▸ hflow.2) hflow.1 rfl
      exact ⟨fuel + 1, r, (loop_again e fuel).trans e', hr⟩
    | done r => exact ⟨1, r, loop_done e 0, hflow⟩

/-- It takes at most one round more than `μ` says. -/
theorem loop_within (μ : σ → Nat)
    (hbody : ∀ s, I s → ∃ flow, body s = .ok flow ∧ flow.Post (fun s' => I s' ∧ μ s' < μ s) Q) (hs : I s) {fuel : Nat}
    (hfuel : μ s < fuel) : ∃ r, loop body fuel s = .ok r ∧ Q r := by
  induction fuel generalizing s with
  | zero => omega
  | succ fuel ih =>
    obtain ⟨flow, e, hflow⟩ := hbody s hs
    cases flow with
    | again s' =>
      obtain ⟨hs', hlt⟩ := hflow
      obtain ⟨r, e', hr⟩ := ih hs' (by omega)
      exact ⟨r, (loop_again e fuel).trans e', hr⟩
    | done r => exact ⟨r, loop_done e fuel, hflow⟩

end Loop

end Checked
