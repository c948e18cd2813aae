import Mathlib.Data.List.Induction
import Mathlib.Logic.Relation
import Lobook.Lib.Checked

/-!
# Runs of a labelled transition system

A system is a relation `step s l t`: from state `s` the label `l` may lead to `t`.  `Run step s ls t` is a run with
the labels `ls`, extended at its end.  A property of every reachable state is proved once for a single step
(`Run.invariant`), and a guarded system, whose steps also satisfy a condition on the state they start from, is the
relation `Guarded`.
-/

namespace Transition

variable {σ ι : Type}

/-- A run from `s` with the labels `ls` to `t`. -/
inductive Run (step : σ → ι → σ → Prop) (s : σ) : List ι → σ → Prop
  | refl : Run step s [] s
  | snoc {ls : List ι} {l : ι} {t u : σ} (h : Run step s ls t) (hs : step t l u) : Run step s (ls ++ [l]) u

/-- The steps whose label and starting state meet a condition. -/
def Guarded (ok : σ → ι → Prop) (step : σ → ι → σ → Prop) (s : σ) (l : ι) (t : σ) : Prop := ok s l ∧ step s l t

section Run

variable {step step' : σ → ι → σ → Prop} {s t u : σ} {ls : List ι}

theorem Run.single {l : ι} (h : step s l t) : Run step s [l] t := Run.snoc Run.refl h

theorem Run.trans {ls' : List ι} (h : Run step s ls t) (h' : Run step t ls' u) : Run step s (ls ++ ls') u := by
  induction h' with
  | refl => rwa [List.append_nil]
  | snoc _ hl ih =>
    rw [← List.append_assoc]
    exact ih.snoc hl

/-- What holds at the start and is kept by every step holds at the end of every run. -/
theorem Run.invariant {I : σ → Prop} (h : Run step s ls t) (hs : I s)
    (hstep : ∀ s l t, I s → step s l t → I t) : I t := by
  induction h with
  | refl => exact hs
  | snoc _ hl ih => exact hstep _ _ _ ih hl

theorem Run.of_nil (h : Run step s [] t) : t = s := by
  generalize e : ([] : List ι) = ls at h
  cases h with
  | refl => rfl
  | snoc _ _ => simp at e

theorem Run.of_snoc {l : ι} (h : Run step s (ls ++ [l]) u) : ∃ t, Run step s ls t ∧ step t l u := by
  generalize e : ls ++ [l] = ls' at h
  cases h with
  | refl => simp at e
  | snoc h hl =>
    obtain ⟨rfl, e'⟩ := List.append_inj' e rfl
    obtain rfl := List.singleton_inj.1 e'
    exact ⟨_, h, hl⟩

theorem Run.of_append {ls' : List ι} (h : Run step s (ls ++ ls') u) : ∃ t, Run step s ls t ∧ Run step t ls' u := by
  induction ls' using List.reverseRecOn generalizing u with
  | nil =>
    rw [List.append_nil] at h
    exact ⟨u, h, Run.refl⟩
  | append_singleton ls' l ih =>
    rw [← List.append_assoc] at h
    obtain ⟨v, hv, hl⟩ := h.of_snoc
    obtain ⟨t, ht, hv⟩ := ih hv
    exact ⟨t, ht, hv.snoc hl⟩

/-- Where steps are deterministic, so are runs. -/
theorem Run.unique (hdet : ∀ s l t t', step s l t → step s l t' → t = t') (h : Run step s ls t)
    (h' : Run step s ls u) : t = u := by
  induction h generalizing u with
  | refl => exact h'.of_nil.symm
  | snoc _ hl ih =>
    obtain ⟨t', h', hl'⟩ := h'.of_snoc
    obtain rfl := ih h'
    exact hdet _ _ _ _ hl hl'

theorem Run.mono (h : Run step s ls t) (hstep : ∀ s l t, step s l t → step' s l t) : Run step' s ls t := by
  induction h with
  | refl => exact Run.refl
  | snoc _ hl ih => exact ih.snoc (hstep _ _ _ hl)

/-- A run seen through a function of the state. -/
theorem Run.map {τ : Type} {step' : τ → ι → τ → Prop} (f : σ → τ) (h : Run step s ls t)
    (hstep : ∀ s l t, step s l t → step' (f s) l (f t)) : Run step' (f s) ls (f t) := by
  induction h with
  | refl => exact Run.refl
  | snoc _ hl ih => exact ih.snoc (hstep _ _ _ hl)

end Run

/-- Steps that leave no choice lead to one end only. -/
theorem end_unique {r : σ → σ → Prop} (hr : Relator.RightUnique r) {s t u : σ} (h : Relation.ReflTransGen r s t)
    (ht : ∀ v, ¬ r t v) (h' : Relation.ReflTransGen r s u) (hu : ∀ v, ¬ r u v) : t = u := by
  rcases Relation.ReflTransGen.total_of_right_unique hr h h' with hrest | hrest
  · rcases Relation.ReflTransGen.cases_head hrest with e | ⟨v, hv, _⟩
    · exact e
    · exact absurd hv (ht v)
  · rcases Relation.ReflTransGen.cases_head hrest with e | ⟨v, hv, _⟩
    · exact e.symm
    · exact absurd hv (hu v)

/-! ### Runs of a program -/

section Exec

open Checked

variable {step : σ → ι → σ → Prop} {ok : σ → ι → Prop} [∀ s l, Decidable (ok s l)] {exec : σ → ι → Exec σ}

/-- A program that refuses the labels that do not meet the condition. -/
def guardedExec (ok : σ → ι → Prop) [∀ s l, Decidable (ok s l)] (exec : σ → ι → Exec σ) (s : σ) (l : ι) : Exec σ :=
  if ok s l then exec s l else .error .undefined

theorem run_of_foldlM (hexec : ∀ s l t, exec s l = .ok t → step s l t) {s t : σ} {ls : List ι}
    (h : ls.foldlM (guardedExec ok exec) s = .ok t) : Run (Guarded ok step) s ls t := by
  induction ls using List.reverseRecOn generalizing t with
  | nil =>
    cases h
    exact Run.refl
  | append_singleton ls l ih =>
    rw [List.foldlM_append] at h
    obtain ⟨u, hu, h⟩ := bind_eq_ok.1 h
    obtain ⟨t', ht, h⟩ := bind_eq_ok.1 h
    cases h
    unfold guardedExec at ht
    split at ht
    · rename_i hok
      exact (ih hu).snoc ⟨hok, hexec _ _ _ ht⟩
    · cases ht

end Exec

end Transition
