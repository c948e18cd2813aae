import Mathlib.Data.Set.Insert
import Mathlib.Logic.Function.Basic
import Mathlib.Logic.Relation

/-!
# Price-time priority

What a limit order book is for, without its data structures.  `Quotes` gives for every side and price the ids and the
quantities of the orders that rest there, oldest first.  An incoming order trades with the oldest order at the best
price as long as that price is within its limit (`Trade`); what is left of it then rests behind the orders at its own
price.  The rules leave no choice (`Step.unique`), so two books that follow them hold the same orders, and they keep
the bids below the asks (`Step.apart`).
-/

namespace Lobook

open Relation

/-- An order at this price may trade with an incoming order of this side and limit. -/
def Crosses (isBuy : Bool) (limit price : Nat) : Prop := if isBuy then price ≤ limit else limit ≤ price

instance (isBuy : Bool) (limit price : Nat) : Decidable (Crosses isBuy limit price) :=
  inferInstanceAs (Decidable (if isBuy then price ≤ limit else limit ≤ price))

/-- An incoming order of this side trades at `price` before it trades at `price'`. -/
def Better (isBuy : Bool) (price price' : Nat) : Prop := if isBuy then price < price' else price' < price

instance (isBuy : Bool) (price price' : Nat) : Decidable (Better isBuy price price') :=
  inferInstanceAs (Decidable (if isBuy then price < price' else price' < price))

/-- The calls that all books have. -/
inductive Call where
  | submit (id price qty : Nat) (isBuy : Bool)
  | cancel (id : Nat)
  deriving DecidableEq

section Prices

variable {isBuy : Bool} {limit p q r : Nat}

theorem better_irrefl : ¬ Better isBuy p p := by cases isBuy <;> exact Nat.lt_irrefl p

theorem better_trans (h : Better isBuy p q) (h' : Better isBuy q r) : Better isBuy p r := by
  cases isBuy with
  | true => exact Nat.lt_trans h h'
  | false => exact Nat.lt_trans h' h

theorem better_total (h : ¬ Better isBuy p q) (h' : ¬ Better isBuy q p) : p = q := by
  cases isBuy with
  | true => exact Nat.le_antisymm (Nat.not_lt.1 h') (Nat.not_lt.1 h)
  | false => exact Nat.le_antisymm (Nat.not_lt.1 h) (Nat.not_lt.1 h')

/-- A price that is no better than one that does not trade does not trade either. -/
theorem not_crosses_of_not_better (hc : ¬ Crosses isBuy limit p) (hq : ¬ Better isBuy q p) :
    ¬ Crosses isBuy limit q := by
  cases isBuy with
  | true =>
    change ¬ p ≤ limit at hc
    change ¬ q < p at hq
    change ¬ q ≤ limit
    omega
  | false =>
    change ¬ limit ≤ p at hc
    change ¬ p < q at hq
    change ¬ limit ≤ q
    omega

/-- Every price of a bid is below every price of an ask. -/
def Apart (S : Bool → Set Nat) : Prop := ∀ p ∈ S true, ∀ q ∈ S false, p < q

variable {S S' : Bool → Set Nat}

theorem Apart.mono (h : Apart S) (hsub : ∀ s, S' s ⊆ S s) : Apart S' :=
  fun p hp q hq => h p (hsub true hp) q (hsub false hq)

/-- A price that nothing on the other side would trade with may join its side. -/
theorem Apart.insert (h : Apart S) (hsub : S' isBuy ⊆ insert limit (S isBuy)) (hother : S' (!isBuy) ⊆ S (!isBuy))
    (hfar : ∀ p ∈ S (!isBuy), ¬ Crosses isBuy limit p) : Apart S' := by
  intro p hp q hq
  cases isBuy with
  | true =>
    rcases hsub hp with rfl | hp
    · have hq := hfar q (hother hq)
      change ¬ q ≤ p at hq
      omega
    · exact h p hp q (hother hq)
  | false =>
    rcases hsub hq with rfl | hq
    · have hp := hfar p (hother hp)
      change ¬ q ≤ p at hp
      omega
    · exact h p (hother hp) q hq

end Prices

namespace PriceTime

/-- The ids and quantities of the orders that rest at each side and price, oldest first. -/
abbrev Quotes (ι : Type) := Bool × Nat → List (ι × Nat)

variable {ι : Type} {isBuy : Bool} {limit : Nat}

/-- The best price of the side that an incoming order trades with, if it is within the limit. -/
structure Best (isBuy : Bool) (limit : Nat) (A : Quotes ι) (p : Nat) : Prop where
  rests : A (!isBuy, p) ≠ []
  best : ∀ q, A (!isBuy, q) ≠ [] → ¬ Better isBuy q p
  crosses : Crosses isBuy limit p

/-- The incoming order trades with the oldest order at the best price. -/
inductive Trade (isBuy : Bool) (limit : Nat) : Quotes ι × Nat → Quotes ι × Nat → Prop
  | full {A : Quotes ι} {qty p : Nat} {e : ι × Nat} {l : List (ι × Nat)} (hq : 0 < qty) (hbest : Best isBuy limit A p)
      (hA : A (!isBuy, p) = e :: l) (h : e.2 ≤ qty) :
      Trade isBuy limit (A, qty) (Function.update A (!isBuy, p) l, qty - e.2)
  | part {A : Quotes ι} {qty p : Nat} {e : ι × Nat} {l : List (ι × Nat)} (hq : 0 < qty) (hbest : Best isBuy limit A p)
      (hA : A (!isBuy, p) = e :: l) (h : qty < e.2) :
      Trade isBuy limit (A, qty) (Function.update A (!isBuy, p) ((e.1, e.2 - qty) :: l), 0)

/-- Nothing is left of the incoming order, or nothing that it may trade with. -/
def Ended (isBuy : Bool) (limit : Nat) (s : Quotes ι × Nat) : Prop :=
  s.2 = 0 ∨ ∀ p, s.1 (!isBuy, p) ≠ [] → ¬ Crosses isBuy limit p

/-- What is left of the incoming order rests behind the orders at its price. -/
def rest (A : Quotes ι) (id : ι) (price qty : Nat) (isBuy : Bool) : Quotes ι :=
  if 0 < qty then Function.update A (isBuy, price) (A (isBuy, price) ++ [(id, qty)]) else A

/-- The order with this id is withdrawn. -/
def withdraw [DecidableEq ι] (A : Quotes ι) (id : ι) : Quotes ι := fun k => (A k).filter fun e => e.1 ≠ id

/-- A call of a book. -/
inductive Step : Quotes Nat → Call → Quotes Nat → Prop
  | submit {A A' : Quotes Nat} {id price qty qty' : Nat} {isBuy : Bool}
      (h : ReflTransGen (Trade isBuy price) (A, qty) (A', qty')) (hend : Ended isBuy price (A', qty')) :
      Step A (.submit id price qty isBuy) (rest A' id price qty' isBuy)
  | cancel {A : Quotes Nat} {id : Nat} : Step A (.cancel id) (withdraw A id)

/-- Withdrawing an order whose id is nowhere else takes it out of its queue. -/
theorem withdraw_eq_update [DecidableEq ι] {A : Quotes ι} {k : Bool × Nat} {e : ι × Nat} {l₁ l₂ : List (ι × Nat)}
    (hk : A k = l₁ ++ e :: l₂) (hrest : ∀ x ∈ l₁ ++ l₂, x.1 ≠ e.1) (hother : ∀ k', k' ≠ k → ∀ x ∈ A k', x.1 ≠ e.1) :
    withdraw A e.1 = Function.update A k (l₁ ++ l₂) := by
  funext k'
  rcases eq_or_ne k' k with rfl | hne
  · have hkeep : (l₁ ++ l₂).filter (fun x => x.1 ≠ e.1) = l₁ ++ l₂ :=
      List.filter_eq_self.2 fun x hx => decide_eq_true (hrest x hx)
    rw [Function.update_self, ← hkeep, withdraw, hk]
    simp
  · rw [Function.update_of_ne hne]
    exact List.filter_eq_self.2 fun x hx => decide_eq_true (hother k' hne x hx)

/-- Withdrawing an order that does not rest changes nothing. -/
theorem withdraw_absent [DecidableEq ι] {A : Quotes ι} {id : ι} (h : ∀ k, ∀ x ∈ A k, x.1 ≠ id) : withdraw A id = A :=
  funext fun k => List.filter_eq_self.2 fun x hx => decide_eq_true (h k x hx)

/-- Trading brings no order into the book. -/
theorem Trade.ids {s t : Quotes ι × Nat} (h : Trade isBuy limit s t) (k : Bool × Nat) (x : ι × Nat) (hx : x ∈ t.1 k) :
    ∃ y ∈ s.1 k, y.1 = x.1 := by
  have hupdate : ∀ (A : Quotes ι) p e (l l' : List (ι × Nat)), A (!isBuy, p) = e :: l →
      (∀ x ∈ l', x ∈ l ∨ x.1 = e.1) → x ∈ Function.update A (!isBuy, p) l' k → ∃ y ∈ A k, y.1 = x.1 := by
    intro A p e l l' hA hl hx
    rcases eq_or_ne k (!isBuy, p) with rfl | hne
    · rw [Function.update_self] at hx
      rw [hA]
      rcases hl x hx with hx | hx
      · exact ⟨x, List.mem_cons_of_mem _ hx, rfl⟩
      · exact ⟨e, List.mem_cons_self, hx.symm⟩
    · rw [Function.update_of_ne hne] at hx
      exact ⟨x, hx, rfl⟩
  cases h with
  | full _ _ hA _ => exact hupdate _ _ _ _ _ hA (fun x hx => Or.inl hx) hx
  | part _ _ hA _ =>
    refine hupdate _ _ _ _ _ hA (fun x hx => ?_) hx
    exact (List.mem_cons.1 hx).elim (fun h => Or.inr (h ▸ rfl)) Or.inl

theorem trades_ids {s t : Quotes ι × Nat} (h : ReflTransGen (Trade isBuy limit) s t) (k : Bool × Nat) (x : ι × Nat)
    (hx : x ∈ t.1 k) : ∃ y ∈ s.1 k, y.1 = x.1 := by
  induction h generalizing x with
  | refl => exact ⟨x, hx, rfl⟩
  | tail _ ht ih =>
    obtain ⟨y, hy, hyx⟩ := ht.ids k x hx
    obtain ⟨z, hz, hzy⟩ := ih y hy
    exact ⟨z, hz, hzy.trans hyx⟩

/-! ### Bids stay below asks -/

/-- The prices of a side at which an order rests. -/
def prices (A : Quotes ι) (isBuy : Bool) : Set Nat := {p | A (isBuy, p) ≠ []}

@[simp] theorem mem_prices {A : Quotes ι} {p : Nat} : p ∈ prices A isBuy ↔ A (isBuy, p) ≠ [] := Iff.rfl

theorem trades_prices {s t : Quotes ι × Nat} (h : ReflTransGen (Trade isBuy limit) s t) (side : Bool) :
    prices t.1 side ⊆ prices s.1 side := by
  intro p hp
  obtain ⟨x, hx⟩ := List.exists_mem_of_ne_nil _ hp
  obtain ⟨y, hy, _⟩ := trades_ids h (side, p) x hx
  exact List.ne_nil_of_mem hy

theorem prices_withdraw [DecidableEq ι] (A : Quotes ι) (id : ι) (side : Bool) :
    prices (withdraw A id) side ⊆ prices A side := by
  intro p hp hnil
  refine hp ?_
  rw [withdraw, hnil, List.filter_nil]

/-- What is left of an order that has stopped trading may rest. -/
theorem apart_rest {A : Quotes ι} {id : ι} {qty : Nat} (h : Apart (prices A)) (hend : Ended isBuy limit (A, qty)) :
    Apart (prices (rest A id limit qty isBuy)) := by
  unfold rest
  split
  · rename_i hq
    have hfar : ∀ p ∈ prices A (!isBuy), ¬ Crosses isBuy limit p := hend.resolve_left (Nat.ne_of_gt hq)
    refine h.insert (fun p hp => ?_) (fun p hp => ?_) hfar
    · rcases eq_or_ne p limit with rfl | hne
      · exact Or.inl rfl
      · have hk : (isBuy, p) ≠ (isBuy, limit) := fun e => hne (congrArg Prod.snd e)
        exact Or.inr (by rwa [mem_prices, Function.update_of_ne hk] at hp)
    · have hk : (!isBuy, p) ≠ (isBuy, limit) := fun e => Bool.not_ne_self isBuy (congrArg Prod.fst e)
      rwa [mem_prices, Function.update_of_ne hk] at hp
  · exact h

/-- No call makes a bid meet an ask. -/
theorem Step.apart {A A' : Quotes Nat} {c : Call} (hstep : Step A c A') (h : Apart (prices A)) :
    Apart (prices A') := by
  cases hstep with
  | submit htrades hend => exact apart_rest (h.mono (trades_prices htrades)) hend
  | cancel => exact h.mono (prices_withdraw A _)

/-! ### The rules leave no choice -/

theorem Best.unique {A : Quotes ι} {p q : Nat} (hp : Best isBuy limit A p) (hq : Best isBuy limit A q) : p = q :=
  better_total (hq.best p hp.rests) (hp.best q hq.rests)

theorem Trade.unique : Relator.RightUnique (Trade (ι := ι) isBuy limit) := by
  rintro ⟨A, qty⟩ t t' h h'
  cases h with
  | full _ hbest hA hle =>
    cases h' with
    | full _ hbest' hA' _ =>
      obtain rfl := hbest.unique hbest'
      obtain ⟨rfl, rfl⟩ := List.cons.inj (hA.symm.trans hA')
      rfl
    | part _ hbest' hA' hlt =>
      obtain rfl := hbest.unique hbest'
      obtain ⟨rfl, rfl⟩ := List.cons.inj (hA.symm.trans hA')
      exact absurd hle (Nat.not_le.2 hlt)
  | part _ hbest hA hlt =>
    cases h' with
    | full _ hbest' hA' hle =>
      obtain rfl := hbest.unique hbest'
      obtain ⟨rfl, rfl⟩ := List.cons.inj (hA.symm.trans hA')
      exact absurd hle (Nat.not_le.2 hlt)
    | part _ hbest' hA' _ =>
      obtain rfl := hbest.unique hbest'
      obtain ⟨rfl, rfl⟩ := List.cons.inj (hA.symm.trans hA')
      rfl

theorem Ended.no_trade {s t : Quotes ι × Nat} (h : Ended isBuy limit s) : ¬ Trade isBuy limit s t := by
  intro ht
  rcases h with h | h
  · cases ht with
    | full hq => exact absurd h (Nat.ne_of_gt hq)
    | part hq => exact absurd h (Nat.ne_of_gt hq)
  · cases ht with
    | full _ hbest => exact h _ hbest.rests hbest.crosses
    | part _ hbest => exact h _ hbest.rests hbest.crosses

/-- Trading ends in one way only. -/
theorem trades_unique {s t t' : Quotes ι × Nat} (h : ReflTransGen (Trade isBuy limit) s t)
    (hend : Ended isBuy limit t) (h' : ReflTransGen (Trade isBuy limit) s t') (hend' : Ended isBuy limit t') :
    t = t' := by
  rcases ReflTransGen.total_of_right_unique Trade.unique h h' with hr | hr
  · rcases ReflTransGen.cases_head hr with e | ⟨u, hu, _⟩
    · exact e
    · exact absurd hu hend.no_trade
  · rcases ReflTransGen.cases_head hr with e | ⟨u, hu, _⟩
    · exact e.symm
    · exact absurd hu hend'.no_trade

theorem Step.unique {A A₁ A₂ : Quotes Nat} {c : Call} (h₁ : Step A c A₁) (h₂ : Step A c A₂) : A₁ = A₂ := by
  cases h₁ with
  | submit h hend =>
    cases h₂ with
    | submit h' hend' =>
      obtain ⟨rfl, rfl⟩ := Prod.mk.inj (trades_unique h hend h' hend')
      rfl
  | cancel =>
    cases h₂ with
    | cancel => rfl

end PriceTime

end Lobook
