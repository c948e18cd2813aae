import Mathlib.Algebra.BigOperators.Group.Finset.Basic
import Mathlib.Algebra.Order.BigOperators.Group.Finset
import Lobook.Book.Steps

/-!
# Where an incoming order ends

`match` leaves the back link of an order alone when the order before it is filled.  So the first order of a level has
a back link afterwards exactly if the quantity of the incoming order ends behind the first order of that level and
before its last one.  Where it ends is a matter of sums: `ahead` is what rests at better prices, `volume` what rests at
a price.  `EndsClean` says this in the middle of trading; no trade changes it, and it is the condition on the sums
before the first trade (`Linked.endsClean_start`) and the absence of back links after the last one
(`Linked.endsClean_ended`).
-/

namespace Lobook

open Checked Links Relation

namespace Ladder

/-- The quantity that rests at a price. -/
def volume (b : Ladder) (isBuy : Bool) (price : Nat) : Nat :=
  ((b.queue isBuy price).map fun i => (b.order i).qty).sum

/-- The quantity that an incoming order of this side meets before it reaches a price. -/
def ahead (b : Ladder) (isBuy : Bool) (price : Nat) : Nat :=
  ∑ p ∈ (Finset.range MAX_PRICES).filter fun p => Better isBuy p price, b.volume (!isBuy) p

/-- The incoming order does not end behind the first order of a level unless it fills the whole level. -/
def SparesFronts (b : Ladder) (limit qty : Nat) (isBuy : Bool) : Prop :=
  ∀ p, p < MAX_PRICES → Crosses isBuy limit p →
    ¬ (b.ahead isBuy p + (b.order (b.level (!isBuy) p).head).qty ≤ qty ∧
      qty < b.ahead isBuy p + b.volume (!isBuy) p)

/-- The orders in the queues have something left. -/
def Positive (b : Ladder) (Q : Bool × Nat → List Nat) : Prop := ∀ k, ∀ i ∈ Q k, 0 < (b.order i).qty

/-- The first order of every level has no back link. -/
def Clean (b : Ladder) (Q : Bool × Nat → List Nat) : Prop := Fronts NULL_IDX (fun i => (b.order i).prev) Q

/-- The first order of a level, in slot `i`, will have no back link once `qty` has been traded. -/
def EndsCleanAt (isBuy : Bool) (limit : Nat) (b : Ladder) (qty : Nat) (s : Bool) (p i : Nat) : Prop :=
  if s = !isBuy ∧ Crosses isBuy limit p then
    (b.ahead isBuy p + (b.order i).qty ≤ qty → b.ahead isBuy p + b.volume s p ≤ qty) ∧
      (qty < b.ahead isBuy p + (b.order i).qty → (b.order i).prev = NULL_IDX)
  else (b.order i).prev = NULL_IDX

/-- No first order of a level will have a back link once `qty` has been traded. -/
def EndsClean (isBuy : Bool) (limit : Nat) (b : Ladder) (Q : Bool × Nat → List Nat) (qty : Nat) : Prop :=
  ∀ s p i l, Q (s, p) = i :: l → EndsCleanAt isBuy limit b qty s p i

variable {b b' : Ladder} {Q : Bool × Nat → List Nat} {F l : List Nat} {isBuy s : Bool} {p i limit qty : Nat}

namespace Linked

/-! ### Volumes -/

theorem volume_eq (h : b.Linked Q F) (s : Bool) (hp : p < MAX_PRICES) :
    b.volume s p = ((Q (s, p)).map fun i => (b.order i).qty).sum := by
  rw [volume, h.queue_eq hp]

theorem volume_cons (h : b.Linked Q F) (hk : Q (s, p) = i :: l) :
    b.volume s p = (b.order i).qty + (l.map fun i => (b.order i).qty).sum := by
  rw [h.volume_eq s (h.of_cons hk).2.2.2.1, hk, List.map_cons, List.sum_cons]

/-- Filling the first order takes its quantity from its level. -/
theorem volume_popped (h : b.Linked Q F) (hk : Q (s, p) = i :: l) :
    b.volume s p = (b.order i).qty + (b.popped s p).volume s p ∧
      ∀ s' q, q < MAX_PRICES → ¬ (s' = s ∧ q = p) → (b.popped s p).volume s' q = b.volume s' q := by
  have hsame : ∀ k, ∀ j ∈ Function.update Q (s, p) l k, (b.popped s p).order j = b.order j :=
    fun k j hj => order_popped (h.of_cons hk).1 (h.threads.mem_of_pop hk hj).2
  have hvolume : ∀ s' q, q < MAX_PRICES → (b.popped s p).volume s' q =
      ((Function.update Q (s, p) l (s', q)).map fun i => (b.order i).qty).sum := by
    intro s' q hq
    rw [(h.popped hk).volume_eq s' hq]
    congr 1
    exact List.map_congr_left fun j hj => by rw [hsame (s', q) j hj]
  refine ⟨?_, fun s' q hq hne => ?_⟩
  · rw [h.volume_cons hk, hvolume s p (h.of_cons hk).2.2.2.1, Function.update_self]
  · have hk' : (s', q) ≠ (s, p) := fun e => hne (Prod.mk.inj e)
    rw [hvolume s' q hq, Function.update_of_ne hk', h.volume_eq s' hq]

/-! ### What is ahead of a price -/

private theorem ahead_eq_add (isBuy : Bool) {p q : Nat} (hp : p < MAX_PRICES) (hb : Better isBuy p q) (b : Ladder) :
    b.ahead isBuy q = b.volume (!isBuy) p +
      ∑ r ∈ ((Finset.range MAX_PRICES).filter fun r => Better isBuy r q).erase p, b.volume (!isBuy) r := by
  have hmem : p ∈ (Finset.range MAX_PRICES).filter fun r => Better isBuy r q :=
    Finset.mem_filter.2 ⟨Finset.mem_range.2 hp, hb⟩
  rw [ahead, Finset.add_sum_erase _ _ hmem]

/-- What a level loses is no longer ahead of the prices that come after it. -/
theorem ahead_of_volume {p q x : Nat} (hp : p < MAX_PRICES) (hb : Better isBuy p q)
    (hv : b.volume (!isBuy) p = x + b'.volume (!isBuy) p)
    (hother : ∀ r, r < MAX_PRICES → r ≠ p → b'.volume (!isBuy) r = b.volume (!isBuy) r) :
    b.ahead isBuy q = x + b'.ahead isBuy q := by
  have hsum : ∑ r ∈ ((Finset.range MAX_PRICES).filter fun r => Better isBuy r q).erase p, b'.volume (!isBuy) r =
      ∑ r ∈ ((Finset.range MAX_PRICES).filter fun r => Better isBuy r q).erase p, b.volume (!isBuy) r :=
    Finset.sum_congr rfl fun r hr => by
      obtain ⟨hrp, hr⟩ := Finset.mem_erase.1 hr
      exact hother r (Finset.mem_range.1 (Finset.mem_filter.1 hr).1) hrp
  rw [ahead_eq_add isBuy hp hb, ahead_eq_add isBuy hp hb, hv, hsum]
  omega

theorem le_ahead {p q : Nat} (hp : p < MAX_PRICES) (hb : Better isBuy p q) : b.volume (!isBuy) p ≤ b.ahead isBuy q := by
  rw [ahead_eq_add isBuy hp hb]
  exact Nat.le_add_right _ _

/-- Nothing is ahead of the best price. -/
theorem ahead_best (h : b.Linked Q F) (hbest : Best isBuy limit b p) : b.ahead isBuy p = 0 := by
  refine Finset.sum_eq_zero fun q hq => ?_
  have hnil : Q (!isBuy, q) = [] := by
    by_contra hne
    exact hbest.best q (h.mem_occupied.2 hne) (Finset.mem_filter.1 hq).2
  rw [h.volume_eq _ (Finset.mem_range.1 (Finset.mem_filter.1 hq).1), hnil]
  rfl

/-- The best price comes before every other one at which something rests. -/
theorem best_better (h : b.Linked Q F) (hbest : Best isBuy limit b p) {q j : Nat} {l : List Nat}
    (hq : Q (!isBuy, q) = j :: l) (hne : q ≠ p) : Better isBuy p q := by
  by_contra hn
  have hocc : q ∈ b.occupied (!isBuy) := h.mem_occupied.2 (by rw [hq]; exact List.cons_ne_nil _ _)
  exact hne (better_total (hbest.best q hocc) hn)

end Linked

/-! ### Trading keeps in view where the order ends -/

theorem endsCleanAt_crosses (hc : Crosses isBuy limit p) : EndsCleanAt isBuy limit b qty (!isBuy) p i ↔
    (b.ahead isBuy p + (b.order i).qty ≤ qty → b.ahead isBuy p + b.volume (!isBuy) p ≤ qty) ∧
      (qty < b.ahead isBuy p + (b.order i).qty → (b.order i).prev = NULL_IDX) := by
  rw [EndsCleanAt, if_pos ⟨rfl, hc⟩]

theorem endsCleanAt_best (hc : Crosses isBuy limit p) (hzero : b.ahead isBuy p = 0) :
    EndsCleanAt isBuy limit b qty (!isBuy) p i ↔ ((b.order i).qty ≤ qty → b.volume (!isBuy) p ≤ qty) ∧
      (qty < (b.order i).qty → (b.order i).prev = NULL_IDX) := by
  rw [endsCleanAt_crosses hc, hzero, Nat.zero_add, Nat.zero_add]

theorem endsCleanAt_other (hc : ¬ (s = !isBuy ∧ Crosses isBuy limit p)) :
    EndsCleanAt isBuy limit b qty s p i ↔ (b.order i).prev = NULL_IDX := by
  rw [EndsCleanAt, if_neg hc]

/-- A level that a trade does not touch is nearer by what was traded. -/
theorem endsCleanAt_shift {x : Nat} (hx : x ≤ qty) (horder : b'.order i = b.order i)
    (hvolume : b'.volume s p = b.volume s p)
    (hahead : s = !isBuy → b.ahead isBuy p = x + b'.ahead isBuy p) :
    EndsCleanAt isBuy limit b' (qty - x) s p i ↔ EndsCleanAt isBuy limit b qty s p i := by
  by_cases hc : s = !isBuy ∧ Crosses isBuy limit p
  · obtain ⟨rfl, hc⟩ := hc
    have hsum := hahead rfl
    rw [endsCleanAt_crosses hc, endsCleanAt_crosses hc, horder, hvolume]
    have h₁ : b'.ahead isBuy p + (b.order i).qty ≤ qty - x ↔ b.ahead isBuy p + (b.order i).qty ≤ qty := by omega
    have h₂ : b'.ahead isBuy p + b.volume (!isBuy) p ≤ qty - x ↔
        b.ahead isBuy p + b.volume (!isBuy) p ≤ qty := by omega
    have h₃ : qty - x < b'.ahead isBuy p + (b.order i).qty ↔ qty < b.ahead isBuy p + (b.order i).qty := by omega
    rw [h₁, h₂, h₃]
  · rw [endsCleanAt_other hc, endsCleanAt_other hc, horder]

theorem Linked.ahead_popped (h : b.Linked Q F) (hk : Q (!isBuy, p) = i :: l) (hbest : Best isBuy limit b p) :
    (b.popped (!isBuy) p).ahead isBuy p = 0 := by
  refine Nat.eq_zero_of_le_zero (h.ahead_best hbest ▸ Finset.sum_le_sum fun q hq => ?_)
  have hqp : q ≠ p := fun e => better_irrefl (e ▸ (Finset.mem_filter.1 hq).2)
  have hq := Finset.mem_range.1 (Finset.mem_filter.1 hq).1
  exact Nat.le_of_eq ((h.volume_popped hk).2 (!isBuy) q hq fun e => hqp e.2)

namespace Pool

theorem order_popped_of_mem (h : b.Pool Q F) (hk : Q (!isBuy, p) = i :: l) {k : Bool × Nat} {j : Nat}
    (hj : j ∈ Function.update Q (!isBuy, p) l k) : (b.popped (!isBuy) p).order j = b.order j :=
  order_popped (h.of_cons hk).1 (h.threads.mem_of_pop hk hj).2

/-- The next order of the best level has the filled one as its predecessor, so all of the level must be filled. -/
private theorem endsCleanAt_next {j : Nat} {l' : List Nat} (h : b.Pool Q F) (hk : Q (!isBuy, p) = i :: j :: l')
    (hbest : Best isBuy limit b p) (hle : (b.order i).qty ≤ qty) :
    EndsCleanAt isBuy limit (b.popped (!isBuy) p) (qty - (b.order i).qty) (!isBuy) p j ↔ b.volume (!isBuy) p ≤ qty := by
  have hj : Function.update Q (!isBuy, p) (j :: l') (!isBuy, p) = j :: l' := Function.update_self _ _ _
  have hprev : ((b.popped (!isBuy) p).order j).prev ≠ NULL_IDX := by
    rw [h.order_popped_of_mem hk (k := (!isBuy, p)) (by rw [hj]; exact List.mem_cons_self)]
    rw [h.mirrored.prev_eq (show Q (!isBuy, p) = [i] ++ j :: l' from hk) rfl]
    exact (h.of_cons hk).2.1
  have hvol := (h.volume_popped hk).1
  have hfirst := (h.popped hk).volume_cons hj
  rw [endsCleanAt_best hbest.crosses (h.ahead_popped hk hbest)]
  constructor
  · rintro ⟨hall, hstale⟩
    rcases Nat.lt_or_ge (qty - (b.order i).qty) ((b.popped (!isBuy) p).order j).qty with hlt | hge
    · exact absurd (hstale hlt) hprev
    · have hle' := hall hge
      omega
  · intro hall
    exact ⟨fun _ => by omega, fun hlt => absurd hlt (by omega)⟩

/-- Filling the first order of the best level in full. -/
theorem endsClean_popped (h : b.Pool Q F) (hk : Q (!isBuy, p) = i :: l) (hbest : Best isBuy limit b p)
    (hle : (b.order i).qty ≤ qty) :
    EndsClean isBuy limit (b.popped (!isBuy) p) (Function.update Q (!isBuy, p) l) (qty - (b.order i).qty) ↔
      EndsClean isBuy limit b Q qty := by
  obtain ⟨hvol, hvol'⟩ := h.volume_popped hk
  have hother : ∀ s q, ¬ (s = !isBuy ∧ q = p) → Function.update Q (!isBuy, p) l (s, q) = Q (s, q) :=
    fun s q hne => Function.update_of_ne (fun e => hne (Prod.mk.inj e)) _ _
  have hfar : ∀ s q j l', ¬ (s = !isBuy ∧ q = p) → Q (s, q) = j :: l' →
      (EndsCleanAt isBuy limit (b.popped (!isBuy) p) (qty - (b.order i).qty) s q j ↔
        EndsCleanAt isBuy limit b qty s q j) := by
    intro s q j l' hne hj
    have hmem : j ∈ Function.update Q (!isBuy, p) l (s, q) := by
      rw [hother s q hne, hj]
      exact List.mem_cons_self
    refine endsCleanAt_shift hle (h.order_popped_of_mem hk hmem) (hvol' s q (h.of_cons hj).2.2.2.1 hne) ?_
    rintro rfl
    exact Linked.ahead_of_volume hbest.occupied.1 (h.best_better hbest hj fun e => hne ⟨rfl, e⟩) hvol
      fun r hrm hr => hvol' (!isBuy) r hrm fun e => hr e.2
  have hnear : EndsCleanAt isBuy limit b qty (!isBuy) p i ↔ b.volume (!isBuy) p ≤ qty := by
    rw [endsCleanAt_best hbest.crosses (h.ahead_best hbest)]
    exact ⟨fun hcond => hcond.1 hle, fun hall => ⟨fun _ => hall, fun hlt => absurd hlt (Nat.not_lt.2 hle)⟩⟩
  constructor
  · intro hends s q j l' hj
    by_cases hne : s = !isBuy ∧ q = p
    · obtain ⟨rfl, rfl⟩ := hne
      obtain ⟨rfl, rfl⟩ := List.cons.inj (hk.symm.trans hj)
      rw [hnear]
      cases l with
      | nil =>
        rw [h.volume_cons hk]
        exact hle
      | cons c l' =>
        exact (h.endsCleanAt_next hk hbest hle).1 (hends (!isBuy) q c l' (Function.update_self _ _ _))
    · exact (hfar s q j l' hne hj).1 (hends s q j l' ((hother s q hne).trans hj))
  · intro hends s q j l' hj
    by_cases hne : s = !isBuy ∧ q = p
    · obtain ⟨rfl, rfl⟩ := hne
      rw [Function.update_self] at hj
      subst hj
      exact (h.endsCleanAt_next hk hbest hle).2 (hnear.1 (hends (!isBuy) q i (j :: l') hk))
    · rw [hother s q hne] at hj
      exact (hfar s q j l' hne hj).2 (hends s q j l' hj)

end Pool

namespace Linked

/-- Filling the first order of the best level in part. -/
theorem endsClean_reduced (h : b.Linked Q F) (hpos : b.Positive Q) (hk : Q (!isBuy, p) = i :: l)
    (hbest : Best isBuy limit b p) (hlt : qty < (b.order i).qty) :
    EndsClean isBuy limit (b.reduced (!isBuy) p qty) Q 0 ↔ EndsClean isBuy limit b Q qty := by
  have hhead := (h.of_cons hk).1
  have hvol := h.volume_cons hk
  have horder : ∀ j, j ≠ i → (b.reduced (!isBuy) p qty).order j = b.order j := by
    intro j hj
    rw [order_reduced hhead, if_neg hj]
  have hfirst : (b.reduced (!isBuy) p qty).order i = { b.order i with qty := (b.order i).qty - qty } := by
    rw [order_reduced hhead, if_pos rfl]
  -- whatever is ahead, nothing of the incoming order is left, and it did not reach the next level
  have key : ∀ s q j l', Q (s, q) = j :: l' →
      (EndsCleanAt isBuy limit (b.reduced (!isBuy) p qty) 0 s q j ↔ (b.order j).prev = NULL_IDX) ∧
        (EndsCleanAt isBuy limit b qty s q j ↔ (b.order j).prev = NULL_IDX) := by
    intro s q j l' hj
    have hjpos : 0 < (b.order j).qty := hpos (s, q) j (by rw [hj]; exact List.mem_cons_self)
    have hprev : ((b.reduced (!isBuy) p qty).order j).prev = (b.order j).prev := by
      by_cases hji : j = i
      · rw [hji, hfirst]
      · rw [horder j hji]
    have hqty : 0 < ((b.reduced (!isBuy) p qty).order j).qty := by
      by_cases hji : j = i
      · rw [hji, hfirst]
        exact Nat.sub_pos_of_lt hlt
      · rw [horder j hji]
        exact hjpos
    by_cases hc : s = !isBuy ∧ Crosses isBuy limit q
    · obtain ⟨rfl, hc⟩ := hc
      have hreach : qty < b.ahead isBuy q + (b.order j).qty := by
        by_cases hqp : q = p
        · subst hqp
          obtain ⟨rfl, rfl⟩ := List.cons.inj (hk.symm.trans hj)
          omega
        · have hle := le_ahead (b := b) hbest.occupied.1 (h.best_better hbest hj hqp)
          omega
      rw [endsCleanAt_crosses hc, endsCleanAt_crosses hc, hprev]
      refine ⟨⟨fun hcond => hcond.2 (by omega), fun hnull => ⟨fun hle => absurd hle (by omega), fun _ => hnull⟩⟩,
        fun hcond => hcond.2 hreach, fun hnull => ⟨fun hle => absurd hle (Nat.not_le.2 hreach), fun _ => hnull⟩⟩
    · rw [endsCleanAt_other hc, endsCleanAt_other hc, hprev]
      exact ⟨Iff.rfl, Iff.rfl⟩
  constructor
  · intro hends s q j l' hj
    exact (key s q j l' hj).2.2 ((key s q j l' hj).1.1 (hends s q j l' hj))
  · intro hends s q j l' hj
    exact (key s q j l' hj).1.2 ((key s q j l' hj).2.1 (hends s q j l' hj))

/-- Before the first trade, a clean book will be clean exactly if the order spares the first orders. -/
theorem endsClean_start (h : b.Linked Q F) (hclean : b.Clean Q) :
    EndsClean isBuy limit b Q qty ↔ b.SparesFronts limit qty isBuy := by
  constructor
  · intro hends p hp hc ⟨hge, hlt⟩
    cases hk : Q (!isBuy, p) with
    | nil =>
      rw [h.volume_eq _ hp, hk, List.map_nil, List.sum_nil] at hlt
      omega
    | cons i l =>
      rw [(h.of_cons hk).1] at hge
      exact absurd (((endsCleanAt_crosses hc).1 (hends (!isBuy) p i l hk)).1 hge) (Nat.not_le.2 hlt)
  · intro hspares s p i l hk
    have hprev : (b.order i).prev = NULL_IDX := hclean (s, p) i l hk
    by_cases hc : s = !isBuy ∧ Crosses isBuy limit p
    · obtain ⟨rfl, hc⟩ := hc
      refine (endsCleanAt_crosses hc).2 ⟨fun hge => ?_, fun _ => hprev⟩
      by_contra hlt
      refine hspares p (h.of_cons hk).2.2.2.1 hc ⟨?_, Nat.not_le.1 hlt⟩
      rwa [(h.of_cons hk).1]
    · exact (endsCleanAt_other hc).2 hprev

/-- After the last trade the book is clean if it ends clean. -/
theorem endsClean_ended (h : b.Linked Q F) (hpos : b.Positive Q) (hend : Ended isBuy limit (b, qty)) :
    EndsClean isBuy limit b Q qty ↔ b.Clean Q := by
  have key : ∀ s p i l, Q (s, p) = i :: l →
      (EndsCleanAt isBuy limit b qty s p i ↔ (b.order i).prev = NULL_IDX) := by
    intro s p i l hk
    by_cases hc : s = !isBuy ∧ Crosses isBuy limit p
    · obtain ⟨rfl, hc⟩ := hc
      have hocc : p ∈ b.occupied (!isBuy) := h.mem_occupied.2 (by rw [hk]; exact List.cons_ne_nil _ _)
      obtain rfl : qty = 0 := hend.resolve_right fun hfar => hfar p hocc hc
      have hi := hpos (!isBuy, p) i (by rw [hk]; exact List.mem_cons_self)
      rw [endsCleanAt_crosses hc]
      exact ⟨fun hcond => hcond.2 (by omega), fun hnull => ⟨fun hle => absurd hle (by omega), fun _ => hnull⟩⟩
    · exact endsCleanAt_other hc
  constructor
  · intro hends k i l hk
    exact (key k.1 k.2 i l hk).1 (hends k.1 k.2 i l hk)
  · intro hclean s p i l hk
    exact (key s p i l hk).2 (hclean (s, p) i l hk)

theorem positive_popped (h : b.Linked Q F) (hpos : b.Positive Q) (hk : Q (s, p) = i :: l) :
    (b.popped s p).Positive (Function.update Q (s, p) l) := by
  intro k j hj
  obtain ⟨hjQ, hji⟩ := h.threads.mem_of_pop hk hj
  rw [order_popped (h.of_cons hk).1 hji]
  exact hpos k j hjQ

theorem positive_reduced (h : b.Linked Q F) (hpos : b.Positive Q) (hk : Q (s, p) = i :: l)
    (hlt : qty < (b.order i).qty) : (b.reduced s p qty).Positive Q := by
  intro k j hj
  by_cases hji : j = i
  · rw [order_reduced (h.of_cons hk).1, if_pos hji]
    exact Nat.sub_pos_of_lt hlt
  · rw [order_reduced (h.of_cons hk).1, if_neg hji]
    exact hpos k j hj

end Linked

end Ladder

end Lobook
