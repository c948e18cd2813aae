import Mathlib.Data.Set.Defs
import Lobook.Lib.Loop
import Lobook.Lib.Transition

/-!
# Two computations side by side

`Both R m m'` says that two computations return related values or stop for the same reason; it has a rule for
sequencing (`Both.bind`) and one for loops (`Both.loop`).  For two states of a labelled system, `SameAnswers` says that
no sequence of labels that both may take tells them apart, and `traces` is what one of them can do.  A relation that
steps on either side keep (`Bisimulation`) proves both.
-/

namespace Checked

variable {α α' β β' γ σ σ' ρ ρ' : Type}

/-- Both computations return related values, or both stop for the same reason. -/
def Both (R : α → α' → Prop) (m : Exec α) (m' : Exec α') : Prop :=
  match m, m' with
  | .ok a, .ok a' => R a a'
  | .error e, .error e' => e = e'
  | _, _ => False

section Both

variable {R : α → α' → Prop} {S : β → β' → Prop} {m : Exec α} {m' : Exec α'}

@[simp] theorem both_ok {a : α} {a' : α'} : Both R (.ok a) (.ok a') ↔ R a a' := Iff.rfl

@[simp] theorem both_error {e e' : Stop} : Both R (.error e : Exec α) (.error e' : Exec α') ↔ e = e' := Iff.rfl

theorem Both.bind {f : α → Exec β} {f' : α' → Exec β'} (hm : Both R m m')
    (hf : ∀ a a', R a a' → Both S (f a) (f' a')) : Both S (m >>= f) (m' >>= f') := by
  cases m with
  | error e =>
    cases m' with
    | error e' => exact hm
    | ok a' => exact hm.elim
  | ok a =>
    cases m' with
    | error e' => exact hm.elim
    | ok a' => exact hf a a' hm

theorem Both.mono {R' : α → α' → Prop} (hm : Both R m m') (h : ∀ a a', R a a' → R' a a') : Both R' m m' := by
  cases m with
  | error e =>
    cases m' with
    | error e' => exact hm
    | ok a' => exact hm.elim
  | ok a =>
    cases m' with
    | error e' => exact hm.elim
    | ok a' => exact h a a' hm

/-- One computation, made on both sides. -/
theorem Both.same {f : γ → Exec β} {f' : γ → Exec β'} (k : Exec γ) (hf : ∀ c, k = .ok c → Both S (f c) (f' c)) :
    Both S (k >>= f) (k >>= f') := by
  cases k with
  | error e => rfl
  | ok c => exact hf c rfl

/-- Where one side has a result, so does the other. -/
theorem Both.of_ok {a : α} (hm : Both R m m') (h : m = .ok a) : ∃ a', m' = .ok a' ∧ R a a' := by
  subst h
  cases m' with
  | error e' => exact hm.elim
  | ok a' => exact ⟨a', rfl, hm⟩

/-- Where one side stops, so does the other. -/
theorem Both.of_error {e : Stop} (hm : Both R m m') (h : m = .error e) : m' = .error e := by
  subst h
  cases m' with
  | error e' => exact congrArg _ (Eq.symm hm)
  | ok a' => exact hm.elim

/-- Both rounds go on, or both end. -/
def Flow.Both (I : σ → σ' → Prop) (Q : ρ → ρ' → Prop) : Flow σ ρ → Flow σ' ρ' → Prop
  | .again s, .again s' => I s s'
  | .done r, .done r' => Q r r'
  | _, _ => False

/-- Two loops whose rounds are related are related. -/
theorem Both.loop {I : σ → σ' → Prop} {Q : ρ → ρ' → Prop} {body : σ → Exec (Flow σ ρ)} {body' : σ' → Exec (Flow σ' ρ')}
    (hbody : ∀ s s', I s s' → Both (Flow.Both I Q) (body s) (body' s')) (fuel : Nat) {s : σ} {s' : σ'} (hs : I s s') :
    Both Q (loop body fuel s) (loop body' fuel s') := by
  induction fuel generalizing s s' with
  | zero => rfl
  | succ fuel ih =>
    refine (hbody s s' hs).bind fun flow flow' hflow => ?_
    cases flow with
    | again t =>
      cases flow' with
      | again t' => exact ih hflow
      | done r' => exact hflow.elim
    | done r =>
      cases flow' with
      | again t' => exact hflow.elim
      | done r' => exact hflow

end Both

end Checked

namespace Transition

variable {σ τ ι : Type} {step : σ → ι → σ → Prop} {step' : τ → ι → τ → Prop} {ok ok₁ : σ → ι → Prop}
  {s t u : σ} {ls : List ι}

/-- The sequences of labels that lead somewhere. -/
def traces (step : σ → ι → σ → Prop) (s : σ) : Set (List ι) := {ls | ∃ t, Run step s ls t}

/-- Whatever sequence of labels has been taken from both states, a label that both may take next can be taken on both
sides or on none. -/
def SameAnswers (ok : σ → ι → Prop) (step : σ → ι → σ → Prop) (s t : σ) : Prop :=
  ∀ ls s' t', Run (Guarded ok step) s ls s' → Run (Guarded ok step) t ls t' →
    ∀ l, ok s' l → ok t' l → ((∃ u, step s' l u) ↔ ∃ u, step t' l u)

/-- States that are related take the same steps, to related states. -/
def Simulation (R : σ → τ → Prop) (step : σ → ι → σ → Prop) (step' : τ → ι → τ → Prop) : Prop :=
  ∀ s t l s', R s t → step s l s' → ∃ t', step' t l t' ∧ R s' t'

theorem Simulation.run {R : σ → τ → Prop} (h : Simulation R step step') {s' : σ} {t : τ} (hrel : R s t)
    (hrun : Run step s ls s') : ∃ t', Run step' t ls t' ∧ R s' t' := by
  induction hrun with
  | refl => exact ⟨t, Run.refl, hrel⟩
  | snoc _ hstep ih =>
    obtain ⟨t₁, hrun₁, hrel₁⟩ := ih
    obtain ⟨t₂, hstep₂, hrel₂⟩ := h _ _ _ _ hrel₁ hstep
    exact ⟨t₂, hrun₁.snoc hstep₂, hrel₂⟩

/-- States that are related may take the same labels, and take the same steps to related states. -/
structure Bisimulation (R : σ → σ → Prop) (ok : σ → ι → Prop) (step : σ → ι → σ → Prop) : Prop where
  symm : ∀ s t, R s t → R t s
  allows : ∀ s t l, R s t → ok s l → ok t l
  step : ∀ s t l s', R s t → ok s l → step s l s' → ∃ t', step t l t' ∧ R s' t'

namespace Bisimulation

variable {R : σ → σ → Prop}

theorem simulation (h : Bisimulation R ok step) : Simulation R (Guarded ok step) (Guarded ok step) := by
  rintro s t l s' hrel ⟨hok, hstep⟩
  obtain ⟨t', hstep', hrel'⟩ := h.step s t l s' hrel hok hstep
  exact ⟨t', ⟨h.allows s t l hrel hok, hstep'⟩, hrel'⟩

theorem traces_eq (h : Bisimulation R ok step) (hrel : R s t) :
    traces (Guarded ok step) s = traces (Guarded ok step) t := by
  ext ls
  constructor
  · rintro ⟨s', hrun⟩
    obtain ⟨t', hrun', _⟩ := h.simulation.run hrel hrun
    exact ⟨t', hrun'⟩
  · rintro ⟨t', hrun⟩
    obtain ⟨s', hrun', _⟩ := h.simulation.run (h.symm s t hrel) hrun
    exact ⟨s', hrun'⟩

theorem sameAnswers (h : Bisimulation R ok step) (hdet : ∀ s l t t', step s l t → step s l t' → t = t')
    (hrel : R s t) : SameAnswers ok step s t := by
  intro ls s' t' hrun hrun' l hok hok'
  obtain ⟨t'', hrun'', hrel'⟩ := h.simulation.run hrel hrun
  obtain rfl := Run.unique (fun _ _ _ _ h₁ h₂ => hdet _ _ _ _ h₁.2 h₂.2) hrun' hrun''
  constructor
  · rintro ⟨u, hstep⟩
    obtain ⟨u', hstep', _⟩ := h.step _ _ l u hrel' hok hstep
    exact ⟨u', hstep'⟩
  · rintro ⟨u, hstep⟩
    obtain ⟨u', hstep', _⟩ := h.step _ _ l u (h.symm _ _ hrel') hok' hstep
    exact ⟨u', hstep'⟩

end Bisimulation

namespace SameAnswers

/-- Fewer labels tell no more states apart. -/
theorem mono (h : SameAnswers ok step s t) (hok : ∀ s l, ok₁ s l → ok s l) : SameAnswers ok₁ step s t := by
  have hmono : ∀ s l u, Guarded ok₁ step s l u → Guarded ok step s l u := fun s l _ hs => ⟨hok s l hs.1, hs.2⟩
  intro ls s' t' hrun hrun' l hs ht
  exact h ls s' t' (hrun.mono hmono) (hrun'.mono hmono) l (hok s' l hs) (hok t' l ht)

/-- States that cannot be told apart cannot be told apart later. -/
theorem after (h : SameAnswers ok step s t) {s' t' : σ} (hrun : Run (Guarded ok step) s ls s')
    (hrun' : Run (Guarded ok step) t ls t') : SameAnswers ok step s' t' :=
  fun _ _ _ hr hr' => h _ _ _ (hrun.trans hr) (hrun'.trans hr')

/-- Where one state may take a label and takes it, the other one does so too. -/
theorem answer (h : SameAnswers ok step s t) {l : ι} (hs : ok s l) (ht : ok t l) (hstep : step t l u) :
    ∃ u', step s l u' :=
  (h [] s t Run.refl Run.refl l hs ht).2 ⟨u, hstep⟩

/-- States that cannot be told apart in one system cannot be told apart in a system that takes the same steps. -/
theorem transfer {ok' : τ → ι → Prop} {R : τ → σ → Prop} (h : SameAnswers ok step s t)
    (hallows : ∀ a s l, R a s → ok' a l → ok s l)
    (hback : Simulation R (Guarded ok' step') (Guarded ok step))
    (hforth : ∀ a s l u, R a s → ok' a l → step s l u → ∃ a', step' a l a') {a c : τ} (ha : R a s) (hc : R c t) :
    SameAnswers ok' step' a c := by
  intro ls a' c' hrun hrun' l hl hl'
  obtain ⟨s', hs, ha'⟩ := hback.run ha hrun
  obtain ⟨t', ht, hc'⟩ := hback.run hc hrun'
  have hiff := h ls s' t' hs ht l (hallows a' s' l ha' hl) (hallows c' t' l hc' hl')
  constructor
  · rintro ⟨u, hstep⟩
    obtain ⟨_, ⟨_, hstep₁⟩, _⟩ := hback a' s' l u ha' ⟨hl, hstep⟩
    obtain ⟨u', hstep₂⟩ := hiff.1 ⟨_, hstep₁⟩
    exact hforth c' t' l u' hc' hl' hstep₂
  · rintro ⟨u, hstep⟩
    obtain ⟨_, ⟨_, hstep₁⟩, _⟩ := hback c' t' l u hc' ⟨hl', hstep⟩
    obtain ⟨u', hstep₂⟩ := hiff.2 ⟨_, hstep₁⟩
    exact hforth a' s' l u' ha' hl hstep₂

end SameAnswers

end Transition
