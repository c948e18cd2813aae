import Lobook.Book.Ledger
import Lobook.Book.Rounds

/-!
# Requests that trade nothing

As long as no order is submitted at a price at which it could trade, every order stays where it has been put: a table of
the orders, with a row for each id, says what rests at each price, up to the order in which it rests there (`Lists`).
Without trades no order is ever left with a stale back link, so nothing has to be asked of the links: every request
about a row of the table returns and changes this row only (`Calm.submit`, `Calm.cancel`, `Calm.replace`).
-/

namespace Lobook

open Checked Links PriceTime Relation Transition

namespace PriceTime

/-- Where the order with an id rests, and with which quantity. -/
abbrev Table (ι : Type) := ι → Option ((Bool × Nat) × Nat)

/-- What rests are the orders of the table. -/
structure Lists {ι : Type} (A : Quotes ι) (t : Table ι) : Prop where
  nodup : ∀ k, ((A k).map Prod.fst).Nodup
  mem_iff : ∀ k e, e ∈ A k ↔ t e.1 = some (k, e.2)

namespace Lists

variable {ι : Type} {A A' : Quotes ι} {t : Table ι} {i : ι} {k : Bool × Nat} {e : ι × Nat} {q : Nat}
  {l₁ l₂ : List (ι × Nat)}

theorem distinct (h : Lists A t) : Distinct A := by
  constructor
  · exact h.nodup
  · intro k k' x y hx hy hid
    have hx := (h.mem_iff k x).1 hx
    have hy := (h.mem_iff k' y).1 hy
    rw [hid, hy] at hx
    exact (congrArg Prod.fst (Option.some.inj hx)).symm

/-- Two books with the same table differ only in the order within the levels. -/
theorem perm (h : Lists A t) (h' : Lists A' t) (k : Bool × Nat) : (A k).Perm (A' k) := by
  apply (List.perm_ext_iff_of_nodup ((h.nodup k).of_map _) ((h'.nodup k).of_map _)).2
  intro e
  rw [h.mem_iff, h'.mem_iff]

theorem enqueue [DecidableEq ι] (h : Lists A t) (hnew : t i = none) :
    Lists (PriceTime.enqueue A k (i, q)) (Function.update t i (some (k, q))) := by
  have habsent : ∀ k', ∀ x ∈ A k', x.1 ≠ i := by
    intro k' x hx hid
    rw [h.mem_iff, hid, hnew] at hx
    cases hx
  constructor
  · intro k'
    rcases eq_or_ne k' k with rfl | hne
    · rw [PriceTime.enqueue, Function.update_self, List.map_append, List.map_singleton, List.nodup_append]
      refine ⟨h.nodup k', List.nodup_singleton _, fun a ha b hb => ?_⟩
      obtain ⟨x, hx, rfl⟩ := List.mem_map.1 ha
      rw [List.mem_singleton.1 hb]
      exact habsent k' x hx
    · rw [PriceTime.enqueue, Function.update_of_ne hne]
      exact h.nodup k'
  · intro k' x
    by_cases hx : x.1 = i
    · have hmem : x ∈ PriceTime.enqueue A k (i, q) k' ↔ k' = k ∧ x = (i, q) := by
        rcases eq_or_ne k' k with rfl | hne
        · rw [PriceTime.enqueue, Function.update_self, List.mem_append, List.mem_singleton]
          exact ⟨fun hx' => ⟨rfl, hx'.resolve_left fun hx' => habsent _ x hx' hx⟩, fun hx' => Or.inr hx'.2⟩
        · rw [PriceTime.enqueue, Function.update_of_ne hne]
          exact iff_of_false (fun hx' => habsent _ x hx' hx) fun hx' => hne hx'.1
      rw [hmem, hx, Function.update_self]
      constructor
      · rintro ⟨rfl, rfl⟩
        rfl
      · intro hrow
        obtain ⟨rfl, rfl⟩ := Prod.mk.inj (Option.some.inj hrow)
        exact ⟨rfl, Prod.ext hx rfl⟩
    · rw [Function.update_of_ne hx, ← h.mem_iff]
      rcases eq_or_ne k' k with rfl | hne
      · rw [PriceTime.enqueue, Function.update_self, List.mem_append, List.mem_singleton]
        exact ⟨fun hx' => hx'.resolve_right fun e => hx (congrArg Prod.fst e), Or.inl⟩
      · rw [PriceTime.enqueue, Function.update_of_ne hne]

/-- The other orders have other ids. -/
theorem ne_of_mem (h : Lists A t) (hk : A k = l₁ ++ e :: l₂) {x : ι × Nat} (hx : x ∈ l₁ ++ l₂) : x.1 ≠ e.1 := by
  have hnodup := h.nodup k
  rw [hk, List.map_append, List.map_cons, List.nodup_middle, List.nodup_cons, ← List.map_append] at hnodup
  intro hid
  apply hnodup.1
  rw [← hid]
  exact List.mem_map_of_mem hx

/-- An order leaves its queue. -/
theorem remove [DecidableEq ι] (h : Lists A t) (hk : A k = l₁ ++ e :: l₂) :
    Lists (Function.update A k (l₁ ++ l₂)) (Function.update t e.1 none) := by
  have he : t e.1 = some (k, e.2) := (h.mem_iff k e).1 (by rw [hk]; simp)
  constructor
  · intro k'
    rcases eq_or_ne k' k with rfl | hne
    · rw [Function.update_self]
      have hnodup := h.nodup k'
      rw [hk, List.map_append, List.map_cons, List.nodup_middle, ← List.map_append] at hnodup
      exact (List.nodup_cons.1 hnodup).2
    · rw [Function.update_of_ne hne]
      exact h.nodup k'
  · intro k' x
    by_cases hx : x.1 = e.1
    · rw [hx, Function.update_self]
      refine iff_of_false (fun hmem => ?_) (fun hnone => by cases hnone)
      rcases eq_or_ne k' k with rfl | hne
      · rw [Function.update_self] at hmem
        exact h.ne_of_mem hk hmem hx
      · rw [Function.update_of_ne hne, h.mem_iff, hx, he] at hmem
        exact hne (congrArg Prod.fst (Option.some.inj hmem)).symm
    · rw [Function.update_of_ne hx, ← h.mem_iff]
      rcases eq_or_ne k' k with rfl | hne
      · have hxe : x ≠ e := fun hxe => hx (congrArg Prod.fst hxe)
        rw [Function.update_self, hk]
        simp [hxe]
      · rw [Function.update_of_ne hne]

/-- An order gets another quantity. -/
theorem requantify [DecidableEq ι] (h : Lists A t) (hk : A k = l₁ ++ e :: l₂) (q : Nat) :
    Lists (Function.update A k (l₁ ++ (e.1, q) :: l₂)) (Function.update t e.1 (some (k, q))) := by
  -- up to the order in the queue, it leaves and comes back
  have hback := (h.remove hk).enqueue (k := k) (q := q) (Function.update_self e.1 none t)
  rw [Function.update_idem] at hback
  have hperm : (l₁ ++ (e.1, q) :: l₂).Perm (l₁ ++ l₂ ++ [(e.1, q)]) :=
    List.perm_middle.trans (List.perm_append_singleton _ _).symm
  constructor
  · intro k'
    have hnodup := hback.nodup k'
    rcases eq_or_ne k' k with rfl | hne
    · rw [PriceTime.enqueue, Function.update_self, Function.update_self] at hnodup
      rw [Function.update_self]
      exact (hperm.map Prod.fst).nodup_iff.2 hnodup
    · rw [PriceTime.enqueue, Function.update_of_ne hne, Function.update_of_ne hne] at hnodup
      rwa [Function.update_of_ne hne]
  · intro k' x
    rw [← hback.mem_iff]
    rcases eq_or_ne k' k with rfl | hne
    · rw [PriceTime.enqueue, Function.update_self, Function.update_self, Function.update_self]
      exact hperm.mem_iff
    · rw [PriceTime.enqueue, Function.update_of_ne hne, Function.update_of_ne hne, Function.update_of_ne hne]

/-! ### The rules -/

section Rules

variable {A A' : Quotes Nat} {t : Table Nat} {id price qty newPrice newQty : Nat} {isBuy : Bool}

/-- An order that finds no price to trade at rests. -/
theorem submit (h : Lists A t) (hnew : t id = none) (hq : 0 < qty)
    (hfar : ∀ i p q, t i = some ((!isBuy, p), q) → ¬ Crosses isBuy price p)
    (hrule : Obeys A (.call (.submit id price qty isBuy)) A') :
    Lists A' (Function.update t id (some ((isBuy, price), qty))) := by
  have hended : Ended isBuy price (A, qty) := by
    right
    intro p hp
    obtain ⟨e, he⟩ := List.exists_mem_of_ne_nil _ hp
    exact hfar e.1 p e.2 ((h.mem_iff _ e).1 he)
  cases hrule with
  | call hstep =>
    rw [hstep.unique (Step.submit ReflTransGen.refl hended), rest, if_pos hq]
    exact h.enqueue hnew

theorem exists_row (h : Lists A t) {k : Bool × Nat} {q : Nat} (hrow : t id = some (k, q)) :
    ∃ l₁ l₂, A k = l₁ ++ (id, q) :: l₂ :=
  List.append_of_mem ((h.mem_iff k (id, q)).2 hrow)

theorem cancel (h : Lists A t) {k : Bool × Nat} {q : Nat} (hrow : t id = some (k, q))
    (hrule : Obeys A (.call (.cancel id)) A') : Lists A' (Function.update t id none) := by
  obtain ⟨l₁, l₂, hk⟩ := h.exists_row hrow
  cases hrule with
  | call hstep =>
    cases hstep with
    | cancel =>
      rw [show withdraw A id = _ from h.distinct.withdraw_eq hk]
      exact h.remove hk

/-- A replaced order keeps its side. -/
theorem replace (h : Lists A t) (hrow : t id = some ((isBuy, price), qty))
    (hrule : Obeys A (.replace id newPrice newQty) A') :
    Lists A' (Function.update t id (some ((isBuy, newPrice), newQty))) := by
  obtain ⟨k, e, l₁, l₂, hk, rfl, hcase⟩ := hrule.of_replace
  have hrow' : t e.1 = some (k, e.2) := (h.mem_iff k e).1 (by rw [hk]; simp)
  rw [hrow] at hrow'
  obtain ⟨rfl, _⟩ := Prod.mk.inj (Option.some.inj hrow')
  rcases hcase with ⟨hprice, _, rfl⟩ | ⟨_, rfl⟩
  · obtain rfl : price = newPrice := hprice
    exact h.requantify hk newQty
  · have hback := (h.remove hk).enqueue (k := (isBuy, newPrice)) (q := newQty) (Function.update_self e.1 none t)
    rwa [Function.update_idem] at hback

end Rules

end Lists

end PriceTime

namespace FastBitsetOrderBook

open Ladder

/-- The levels hold the orders of the table, and no back link is stale. -/
def Calm (n : Nat) (b : FastBitsetOrderBook) (t : Table Nat) : Prop :=
  ∃ Q F, b.Whole n Q F ∧ b.Positive Q ∧ b.Clean Q ∧ Lists (b.quotes Q) t

/-- The request returns, and the book is calm with this table afterwards. -/
def Calms (n : Nat) (b : FastBitsetOrderBook) (r : Request) (t : Table Nat) : Prop :=
  ∃ b', (∀ fuel, n < fuel → b.execRequest fuel r = .ok b') ∧ Calm n b' t

variable {b : FastBitsetOrderBook} {Q : Bool × Nat → List Nat} {F : List Nat} {t : Table Nat}
  {n id price qty newPrice newQty : Nat} {isBuy : Bool}

theorem Whole.resting_iff_row (hw : b.Whole n Q F) (ht : Lists (b.quotes Q) t) : b.Resting id ↔ t id ≠ none := by
  rw [hw.pool.resting_iff]
  constructor
  · rintro ⟨k, i, hi, rfl⟩
    have hrow : t (b.order i).id = some (k, (b.order i).qty) := (ht.mem_iff k (b.entry i)).1 (List.mem_map_of_mem hi)
    rw [hrow]
    exact Option.some_ne_none _
  · intro hrow
    obtain ⟨⟨k, q⟩, hrow⟩ := Option.ne_none_iff_exists'.1 hrow
    obtain ⟨i, hi, hentry⟩ := List.mem_map.1 ((ht.mem_iff k (id, q)).2 hrow)
    exact ⟨k, i, hi, congrArg Prod.fst hentry⟩

/-- In a clean book every order can leave its level. -/
theorem Whole.detaches_of_clean (hw : b.Whole n Q F) (hclean : b.Clean Q) (hrest : b.Resting id) :
    b.UnlinksCleanly (b.slot id) := by
  obtain ⟨k, i, hi, rfl⟩ := hw.pool.resting_iff.1 hrest
  rw [(hw.pool.mapped k i hi).2]
  exact hw.pool.unlinksCleanly hclean hi

/-- A request that spares the first orders of the levels leaves a calm book, with the table that the rules lead to. -/
theorem Whole.calms {t' : Table Nat} {r : Request} (hw : b.Whole n Q F) (hpos : b.Positive Q) (hclean : b.Clean Q)
    (hok : Admissible n b r) (hspares : b.SparesHeads r) (htable : ∀ A, Obeys (b.quotes Q) r A → Lists A t') :
    Calms n b r t' := by
  have hlawful : Lawful n b r := by
    match r with
    | .call (.submit _ _ _ _) => exact ⟨hok, trivial⟩
    | .call (.cancel _) => exact ⟨hok, hw.detaches_of_clean hclean hok⟩
    | .replace _ _ _ => exact ⟨⟨hok.1, hok.2.1⟩, fun _ => hw.detaches_of_clean hclean hok.1⟩
  obtain ⟨b', Q', F', hstep, hw', hpos', hclean'⟩ := hw.request_clean hpos hclean hok
  obtain ⟨b₁, Q₁, F₁, hstep₁, hw₁, hrule⟩ := hw.request_obeys hlawful.1 hlawful.2
  obtain rfl := hstep.unique hstep₁
  obtain ⟨rfl, rfl⟩ := hw₁.pool.toLinked.unique hw'.pool.toLinked
  exact ⟨b', fun fuel hfuel => hw.within_rounds hstep hfuel, Q₁, F₁, hw₁, hpos', hclean'.2 hspares, htable _ hrule⟩

theorem calm_init (hlt : n < NULL_IDX) {b₁ : FastBitsetOrderBook} (hinit : b₁.init n = .ok b) : Calm n b fun _ => none := by
  refine ⟨_, _, Whole.init hlt hinit, fun k i hi => (by cases hi), fun k i l hk => (by cases hk), fun k => ?_, fun k e => ?_⟩
  · exact List.nodup_nil
  · exact iff_of_false (fun he => by cases he) (fun hrow => by cases hrow)

/-- A new order that finds no price to trade at. -/
theorem Calm.submit (h : Calm n b t) (hid : id < n) (hnew : t id = none) (hp : price < MAX_PRICES) (hq : 0 < qty)
    (hfar : ∀ i p q, t i = some ((!isBuy, p), q) → ¬ Crosses isBuy price p) :
    Calms n b (.call (.submit id price qty isBuy)) (Function.update t id (some ((isBuy, price), qty))) := by
  obtain ⟨Q, F, hw, hpos, hclean, ht⟩ := h
  have hrest : ¬ b.Resting id := fun hrest => (hw.resting_iff_row ht).1 hrest hnew
  have hok : Admissible n b (.call (.submit id price qty isBuy)) := ⟨hid, hrest, hp⟩
  refine hw.calms hpos hclean hok ?_ fun A hrule => ht.submit hnew hq hfar hrule
  show b.SparesFronts price qty isBuy
  apply (hw.pool.endsClean_start hclean).1
  intro s p i l hk
  have hnot : ¬ (s = !isBuy ∧ Crosses isBuy price p) := by
    rintro ⟨rfl, hcross⟩
    have hentry : b.entry i ∈ b.quotes Q (!isBuy, p) := List.mem_map_of_mem (hk ▸ List.mem_cons_self)
    exact hfar _ _ _ ((ht.mem_iff _ _).1 hentry) hcross
  exact (endsCleanAt_other hnot).2 (hclean _ i l hk)

theorem Calm.cancel (h : Calm n b t) {k : Bool × Nat} (hrow : t id = some (k, qty)) :
    Calms n b (.call (.cancel id)) (Function.update t id none) := by
  obtain ⟨Q, F, hw, hpos, hclean, ht⟩ := h
  have hrest : b.Resting id := (hw.resting_iff_row ht).2 (hrow ▸ Option.some_ne_none _)
  have hok : Admissible n b (.call (.cancel id)) := hrest
  exact hw.calms hpos hclean hok trivial fun A hrule => ht.cancel hrow hrule

theorem Calm.replace (h : Calm n b t) (hrow : t id = some ((isBuy, price), qty)) (hp : newPrice < MAX_PRICES)
    (hq : 0 < newQty) :
    Calms n b (.replace id newPrice newQty) (Function.update t id (some ((isBuy, newPrice), newQty))) := by
  obtain ⟨Q, F, hw, hpos, hclean, ht⟩ := h
  have hrest : b.Resting id := (hw.resting_iff_row ht).2 (hrow ▸ Option.some_ne_none _)
  have hok : Admissible n b (.replace id newPrice newQty) := ⟨hrest, hp, hq⟩
  exact hw.calms hpos hclean hok trivial fun A hrule => ht.replace hrow hrule

/-- The levels of a calm book show the table. -/
theorem Calm.shown (h : Calm n b t) : Lists b.shown t := by
  obtain ⟨Q, F, hw, _, _, ht⟩ := h
  rwa [hw.pool.shown_eq]

theorem Calm.quantity (h : Calm n b t) {k : Bool × Nat} (hrow : t id = some (k, qty)) : b.getQuantity id = .ok qty := by
  obtain ⟨Q, F, hw, _, _, ht⟩ := h
  obtain ⟨i, hi, hentry⟩ := List.mem_map.1 ((ht.mem_iff k (id, qty)).2 hrow)
  obtain ⟨rfl, rfl⟩ := Prod.mk.inj hentry
  obtain ⟨hid, hslot⟩ := hw.pool.mapped k i hi
  exact getQuantity_of_lt hid hslot (hw.pool.ne_null hi) (hw.pool.bound k i hi)

end FastBitsetOrderBook

end Lobook
