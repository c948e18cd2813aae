import Lobook.Book.Liquidity
import Lobook.Book.Refinement

/-!
# Replacing an order under price-time priority

The rules of `PriceTime` for every request of the bitset book.  An order that is replaced keeps its place if its price
stays the same and its quantity does not rise; otherwise it becomes the last one at its new price.  While no two orders
have the same id, the rules leave no choice (`Obeys.unique`).  Along every run without stale back links the levels show
what the rules say (`obeys_run`).
-/

namespace Lobook

open Checked Links PriceTime Relation Transition

namespace PriceTime

variable {ι : Type} {A A' : Quotes ι} {k : Bool × Nat} {e : ι × Nat} {l₁ l₂ : List (ι × Nat)}

/-- The order becomes the last one of its queue. -/
def enqueue (A : Quotes ι) (k : Bool × Nat) (e : ι × Nat) : Quotes ι := Function.update A k (A k ++ [e])

/-- What a request of the bitset book does. -/
inductive Obeys : Quotes Nat → Request → Quotes Nat → Prop
  | call {A A' : Quotes Nat} {c : Call} (h : Step A c A') : Obeys A (.call c) A'
  | stay {A : Quotes Nat} {isBuy : Bool} {price newQty : Nat} {e : Nat × Nat} {l₁ l₂ : List (Nat × Nat)}
      (hk : A (isBuy, price) = l₁ ++ e :: l₂) (hle : newQty ≤ e.2) :
      Obeys A (.replace e.1 price newQty) (Function.update A (isBuy, price) (l₁ ++ (e.1, newQty) :: l₂))
  | move {A : Quotes Nat} {isBuy : Bool} {price newPrice newQty : Nat} {e : Nat × Nat} {l₁ l₂ : List (Nat × Nat)}
      (hk : A (isBuy, price) = l₁ ++ e :: l₂) (hmove : price ≠ newPrice ∨ e.2 < newQty) :
      Obeys A (.replace e.1 newPrice newQty)
        (enqueue (Function.update A (isBuy, price) (l₁ ++ l₂)) (isBuy, newPrice) (e.1, newQty))

/-! ### No two orders with one id -/

/-- Every id is that of one order at most. -/
structure Distinct (A : Quotes ι) : Prop where
  nodup : ∀ k, ((A k).map Prod.fst).Nodup
  apart : ∀ k k' x y, x ∈ A k → y ∈ A k' → x.1 = y.1 → k = k'

/-- Two orders with the same id are the same, at the same place. -/
theorem Distinct.eq_of_id (h : Distinct A) {k' : Bool × Nat} {x y : ι × Nat} (hx : x ∈ A k) (hy : y ∈ A k')
    (hid : x.1 = y.1) : k = k' ∧ x = y := by
  obtain rfl := h.apart k k' x y hx hy hid
  exact ⟨rfl, List.inj_on_of_nodup_map (h.nodup k) hx hy hid⟩

/-- There is one way only to cut a queue at an order. -/
theorem Distinct.cut_unique (h : Distinct A) {k' : Bool × Nat} {e' : ι × Nat} {l₁' l₂' : List (ι × Nat)}
    (hk : A k = l₁ ++ e :: l₂) (hk' : A k' = l₁' ++ e' :: l₂') (hid : e.1 = e'.1) :
    k = k' ∧ e = e' ∧ l₁ = l₁' ∧ l₂ = l₂' := by
  have he : e ∈ A k := by rw [hk]; simp
  have he' : e' ∈ A k' := by rw [hk']; simp
  obtain ⟨rfl, rfl⟩ := h.eq_of_id he he' hid
  have hnodup : (A k).Nodup := (h.nodup k).of_map _
  rw [hk] at hk' hnodup
  obtain ⟨_, hcons, hdisjoint⟩ := List.nodup_append.1 hnodup
  have hnot : e ∉ l₁ := fun hmem => hdisjoint e hmem e List.mem_cons_self rfl
  have hnot' : e ∉ l₂ := (List.nodup_cons.1 hcons).1
  obtain ⟨rfl, _, rfl⟩ := (List.append_cons_inj_of_notMem hnot hnot').1 hk'
  exact ⟨rfl, rfl, rfl, rfl⟩

theorem Step.of_submit {A A' : Quotes Nat} {id price qty : Nat} {isBuy : Bool}
    (h : Step A (.submit id price qty isBuy) A') :
    ∃ A₁ qty', ReflTransGen (Trade isBuy price) (A, qty) (A₁, qty') ∧ Ended isBuy price (A₁, qty') ∧
      A' = rest A₁ id price qty' isBuy := by
  cases h with
  | submit htrades hend => exact ⟨_, _, htrades, hend, rfl⟩

/-- Where a replaced order was, and where it is now. -/
theorem Obeys.of_replace {A A' : Quotes Nat} {id newPrice newQty : Nat} (h : Obeys A (.replace id newPrice newQty) A') :
    ∃ k e l₁ l₂, A k = l₁ ++ e :: l₂ ∧ e.1 = id ∧
      (k.2 = newPrice ∧ newQty ≤ e.2 ∧ A' = Function.update A k (l₁ ++ (id, newQty) :: l₂) ∨
        (k.2 ≠ newPrice ∨ e.2 < newQty) ∧
          A' = enqueue (Function.update A k (l₁ ++ l₂)) (k.1, newPrice) (id, newQty)) := by
  cases h with
  | stay hk hle => exact ⟨_, _, _, _, hk, rfl, Or.inl ⟨rfl, hle, rfl⟩⟩
  | move hk hmove => exact ⟨_, _, _, _, hk, rfl, Or.inr ⟨hmove, rfl⟩⟩

/-- The rules leave no choice. -/
theorem Obeys.unique {A A₁ A₂ : Quotes Nat} {r : Request} (hd : Distinct A) (h₁ : Obeys A r A₁) (h₂ : Obeys A r A₂) :
    A₁ = A₂ := by
  cases r with
  | call c =>
    cases h₁ with
    | call h =>
      cases h₂ with
      | call h' => exact h.unique h'
  | replace id newPrice newQty =>
    obtain ⟨k, e, l₁, l₂, hk, hid, h₁⟩ := h₁.of_replace
    obtain ⟨k', e', l₁', l₂', hk', hid', h₂⟩ := h₂.of_replace
    obtain ⟨rfl, rfl, rfl, rfl⟩ := hd.cut_unique hk hk' (hid.trans hid'.symm)
    rcases h₁ with ⟨hp, hle, rfl⟩ | ⟨hmove, rfl⟩
    · rcases h₂ with ⟨_, _, rfl⟩ | ⟨hmove, _⟩
      · rfl
      · exact absurd hmove (by omega)
    · rcases h₂ with ⟨hp, hle, _⟩ | ⟨_, rfl⟩
      · exact absurd hmove (by omega)
      · rfl

end PriceTime

namespace Ladder

variable {b b' : Ladder} {Q : Bool × Nat → List Nat} {F : List Nat} {k : Bool × Nat} {isBuy : Bool}
  {price i newPrice newQty : Nat} {l₁ l₂ : List Nat}

/-- What the levels show. -/
def shown (b : Ladder) : Quotes Nat := fun k => if k.2 < MAX_PRICES then (b.queue k.1 k.2).map b.entry else []

theorem Linked.shown_eq (h : b.Linked Q F) : b.shown = b.quotes Q := by
  funext k
  unfold shown
  split
  · rename_i hp
    rw [h.queue_eq hp]
    rfl
  · rename_i hp
    have hnil : Q k = [] := by
      by_contra hne
      obtain ⟨i, hi⟩ := List.exists_mem_of_ne_nil _ hne
      exact hp (h.price_lt k i hi)
    rw [quotes, hnil, List.map_nil]

/-- The slot that the map has for this id is in the queue of its order. -/
def Shows (b : Ladder) (id : Nat) : Prop :=
  (b.order (b.slot id)).id = id ∧ (b.order (b.slot id)).price < MAX_PRICES ∧
    b.slot id ∈ b.queue (b.order (b.slot id)).isBuy (b.order (b.slot id)).price

instance (b : Ladder) (id : Nat) : Decidable (b.Shows id) := inferInstanceAs (Decidable (_ ∧ _ ∧ _))

theorem Linked.shows_iff (h : b.Linked Q F) {id : Nat} : b.Shows id ↔ b.Resting id := by
  constructor
  · rintro ⟨hid, hp, hmem⟩
    exact ⟨_, _, hp, _, hmem, hid⟩
  · intro hrest
    obtain ⟨⟨isBuy, price⟩, i, hi, rfl⟩ := h.resting_iff.1 hrest
    have hp : price < MAX_PRICES := h.price_lt _ i hi
    obtain ⟨hside, hprice⟩ := h.place_eq hi
    unfold Shows
    rw [(h.mapped _ i hi).2, hside, hprice, h.queue_eq hp]
    exact ⟨rfl, hp, hi⟩

theorem Linked.distinct (h : b.Linked Q F) : Distinct (b.quotes Q) where
  nodup k := by
    rw [quotes, List.map_map]
    refine List.Nodup.map_on (fun i hi j hj hid => ?_) (h.threads.nodup k)
    exact h.eq_of_id hi hj hid
  apart k k' x y hx hy hid := by
    obtain ⟨i, hi, rfl⟩ := List.mem_map.1 hx
    obtain ⟨j, hj, rfl⟩ := List.mem_map.1 hy
    obtain rfl : i = j := h.eq_of_id hi hj hid
    exact h.threads.apart k k' i hi hj

namespace Pool

/-- A quantity is written. -/
theorem quotes_withQty (h : b.Pool Q F) (hk : Q k = l₁ ++ i :: l₂) (newQty : Nat) :
    (b.withOrder i { b.order i with qty := newQty }).quotes Q =
      Function.update (b.quotes Q) k (l₁.map b.entry ++ ((b.entry i).1, newQty) :: l₂.map b.entry) := by
  have hi : i ∈ Q k := by rw [hk]; simp
  have hother : ∀ j, j ≠ i → (b.withOrder i { b.order i with qty := newQty }).entry j = b.entry j := by
    intro j hj
    rw [entry, order_withOrder, if_neg hj, entry]
  have hself : (b.withOrder i { b.order i with qty := newQty }).entry i = ((b.entry i).1, newQty) := by
    rw [entry, order_withOrder, if_pos rfl, entry]
  have hnodup := h.threads.nodup k
  rw [hk] at hnodup
  funext k'
  rcases eq_or_ne k' k with rfl | hne
  · rw [Function.update_self, quotes, hk, List.map_append, List.map_cons, hself]
    congr 1
    · refine List.map_congr_left fun j hj => hother j ?_
      exact (List.nodup_append.1 hnodup).2.2 j hj i List.mem_cons_self
    · congr 1
      refine List.map_congr_left fun j hj => hother j ?_
      rintro rfl
      exact (List.nodup_cons.1 (List.nodup_append.1 hnodup).2.1).1 hj
  · rw [Function.update_of_ne hne]
    refine List.map_congr_left fun j hj => hother j ?_
    rintro rfl
    exact hne (h.threads.apart _ _ j hj hi)

/-- An order that is the first one and the last one of its level is alone. -/
theorem alone (h : b.Pool Q F) (hk : Q (isBuy, price) = l₁ ++ i :: l₂) (hhead : (b.level isBuy price).head = i)
    (htail : (b.level isBuy price).tail = i) : l₁ = [] ∧ l₂ = [] := by
  have hnodup := h.threads.nodup (isBuy, price)
  rw [hk] at hnodup
  obtain ⟨_, hcons, hdisjoint⟩ := List.nodup_append.1 hnodup
  constructor
  · cases l₁ with
    | nil => rfl
    | cons a l₁ =>
      rw [(h.of_cons hk).1] at hhead
      exact absurd hhead (hdisjoint a List.mem_cons_self i List.mem_cons_self)
  · by_contra hne
    have hlast : (Q (isBuy, price)).getLast? = some (l₂.getLast hne) := by
      rw [hk, List.getLast?_append_cons, List.getLast?_cons_of_ne_nil hne]
      exact List.getLast?_eq_some_getLast hne
    have hmem : i ∈ l₂ := by
      rw [← htail, h.threads.tail _ _ hlast]
      exact List.getLast_mem hne
    exact (List.nodup_cons.1 hcons).1 hmem

end Pool

end Ladder

namespace FastBitsetOrderBook

open Ladder

variable {b b' : FastBitsetOrderBook} {Q : Bool × Nat → List Nat} {F l₁ l₂ : List Nat} {isBuy : Bool}
  {price i newPrice newQty n : Nat}

theorem Moved.quotes (h : b.Pool Q F) (hk : Q (isBuy, price) = l₁ ++ i :: l₂) {l : Ladder}
    (hm : Moved b.toLadder isBuy price i newPrice newQty l) :
    l.quotes (Function.update (Function.update Q (isBuy, price) (l₁ ++ l₂)) (isBuy, newPrice)
        (Function.update Q (isBuy, price) (l₁ ++ l₂) (isBuy, newPrice) ++ [i])) =
      enqueue (Function.update (b.quotes Q) (isBuy, price) (l₁.map b.entry ++ l₂.map b.entry)) (isBuy, newPrice)
        ((b.entry i).1, newQty) := by
  obtain ⟨b₁, b₂, hu, ha, he, hi⟩ := hm.blocks
  have hself : l.entry i = ((b.entry i).1, newQty) := by
    rw [Ladder.entry, hi, ha.order, hu.order, Ladder.entry]
  have hold : ∀ k, ∀ j ∈ Function.update Q (isBuy, price) (l₁ ++ l₂) k, l.entry j = b.entry j := by
    intro k j hj
    rw [Ladder.entry, he.order j (h.threads.mem_of_unlink hk hj).2, ha.order, hu.order, Ladder.entry]
  rw [quotes_update, List.map_append, List.map_singleton, hself, ← List.map_append, ← quotes_update]
  have hsame : l.quotes (Function.update Q (isBuy, price) (l₁ ++ l₂)) =
      b.quotes (Function.update Q (isBuy, price) (l₁ ++ l₂)) := quotes_congr hold
  rw [hsame]
  congr 2
  exact List.map_congr_left fun j hj => hold _ j hj

/-- What `replace_order` does to an order that keeps its place, and to one that moves. -/
theorem Whole.replace_cases (hw : b.Whole n Q F) (hk : Q (isBuy, price) = l₁ ++ i :: l₂)
    (hclean : b.Moves i newPrice newQty → b.UnlinksCleanly i) (hp : newPrice < MAX_PRICES) :
    ∃ b', b.RequestStep (.replace (b.order i).id newPrice newQty) b' ∧
      (¬ b.Moves i newPrice newQty ∧ price = newPrice ∧
          b'.toLadder = b.withOrder i { b.order i with qty := newQty } ∧ b'.Whole n Q F ∨
        b.Moves i newPrice newQty ∧ Moved b.toLadder isBuy price i newPrice newQty b'.toLadder ∧
          b'.Whole n (Function.update (Function.update Q (isBuy, price) (l₁ ++ l₂)) (isBuy, newPrice)
            (Function.update Q (isBuy, price) (l₁ ++ l₂) (isBuy, newPrice) ++ [i])) F) := by
  obtain ⟨b', e, hi', ⟨hstay, rfl, hb'⟩ | ⟨hmove, hm, hpool⟩⟩ := replaceOrder_pool hw.indexed hw.pool hk hclean hp
  · have hprice : (b.order i).price = price := (hw.pool.place_eq (show i ∈ Q (isBuy, price) by rw [hk]; simp)).2
    have hb : b'.toLadder = b.withOrder i { b.order i with qty := newQty } := by rw [hb', ← hprice]
    refine ⟨b', ⟨0, e⟩, Or.inl ⟨hstay, rfl, hb, hi', hb ▸ hw.pool.withQty i newQty, ?_, ?_, hw.held⟩⟩
    · rw [hb]
      exact hw.size
    · rw [hb]
      exact hw.map_size
  · obtain ⟨b₁, b₂, hu, ha, he, _⟩ := hm.blocks
    have hsize : b'.orders.size = n := by
      rw [he.size, ha.size, hu.size]
      exact hw.size
    have hmap : b'.idMap.size = n := by
      rw [he.idMap, ha.idMap, hu.idMap]
      exact hw.map_size
    exact ⟨b', ⟨0, e⟩, Or.inr ⟨hmove, hm, hi', hpool, hsize, hmap,
      fun j hj => held_append (held_release hk (hw.held j hj))⟩⟩

/-- `replace_order` follows the rules. -/
theorem Whole.replace_obeys (hw : b.Whole n Q F) (hi : i ∈ Q (isBuy, price))
    (hclean : b.Moves i newPrice newQty → b.UnlinksCleanly i) (hp : newPrice < MAX_PRICES) :
    ∃ b' Q', b.RequestStep (.replace (b.order i).id newPrice newQty) b' ∧ b'.Whole n Q' F ∧
      Obeys (b.quotes Q) (.replace (b.order i).id newPrice newQty) (b'.quotes Q') := by
  obtain ⟨l₁, l₂, hk⟩ := List.append_of_mem hi
  obtain ⟨hside, hprice⟩ := hw.pool.place_eq hi
  have hentries : b.quotes Q (isBuy, price) = l₁.map b.entry ++ b.entry i :: l₂.map b.entry := by
    rw [quotes, hk, List.map_append, List.map_cons]
  obtain ⟨b', hstep, ⟨hstay, rfl, hb, hw'⟩ | ⟨hmove, hm, hw'⟩⟩ := hw.replace_cases hk hclean hp
  · -- the order keeps its slot and its place
    refine ⟨b', Q, hstep, hw', ?_⟩
    rw [hb, hw.pool.quotes_withQty hk]
    by_cases hle : newQty ≤ (b.order i).qty
    · exact Obeys.stay hentries hle
    · -- an order that is alone keeps its place even if its quantity rises
      have halone : (b.level (b.order i).isBuy (b.order i).price).head = i ∧
          (b.level (b.order i).isBuy (b.order i).price).tail = i := by
        by_contra hothers
        exact hstay (Or.inr ⟨Nat.lt_of_not_le hle, hothers⟩)
      rw [hside, hprice] at halone
      obtain ⟨rfl, rfl⟩ := hw.pool.alone hk halone.1 halone.2
      have hrule : Obeys _ (.replace (b.order i).id price newQty) _ := Obeys.move hentries (Or.inr (Nat.lt_of_not_le hle))
      simpa [enqueue] using hrule
  · refine ⟨b', _, hstep, hw', ?_⟩
    rw [hm.quotes hw.pool hk]
    refine Obeys.move hentries ?_
    rcases hmove with hne | ⟨hlt, _⟩
    · exact Or.inl (hprice ▸ hne)
    · exact Or.inr hlt

/-- Every legal request without a stale back link follows the rules. -/
theorem Whole.request_obeys (hw : b.Whole n Q F) {r : Request} (hlegal : Legal n b r) (hdetach : b.Detaches r) :
    ∃ b' Q' F', b.RequestStep r b' ∧ b'.Whole n Q' F' ∧ Obeys (b.quotes Q) r (b'.quotes Q') := by
  match r with
  | .call (.submit id price qty isBuy) =>
    obtain ⟨hid, hrest, hp⟩ := hlegal
    obtain ⟨b', Q', F', ⟨fuel, e⟩, hw', hstep⟩ := hw.submit_refines hid (hw.pool.fresh hrest) hp qty isBuy
    exact ⟨b', Q', F', ⟨fuel, e⟩, hw', Obeys.call hstep⟩
  | .call (.cancel id) =>
    obtain ⟨k, i, hi, rfl⟩ := hw.pool.resting_iff.1 hlegal
    have hclean : b.UnlinksCleanly (b.slot (b.order i).id) := hdetach
    rw [(hw.pool.mapped k i hi).2] at hclean
    obtain ⟨b', Q', F', ⟨fuel, e⟩, hw', hstep⟩ := hw.cancel_refines hi hclean
    exact ⟨b', Q', F', ⟨fuel, e⟩, hw', Obeys.call hstep⟩
  | .replace id newPrice newQty =>
    obtain ⟨hrest, hp⟩ := hlegal
    obtain ⟨k, i, hi, rfl⟩ := hw.pool.resting_iff.1 hrest
    have hclean : b.Moves (b.slot (b.order i).id) newPrice newQty → b.UnlinksCleanly (b.slot (b.order i).id) := hdetach
    rw [(hw.pool.mapped k i hi).2] at hclean
    obtain ⟨b', Q', hstep, hw', hrule⟩ := hw.replace_obeys hi hclean hp
    exact ⟨b', Q', F, hstep, hw', hrule⟩

/-- The requests of a caller who keeps to the ids, the prices and the orders that rest, and meets no stale back link. -/
def Lawful (n : Nat) (b : FastBitsetOrderBook) (r : Request) : Prop := Legal n b r ∧ b.Detaches r

/-- A run of such requests is a run of the rules, and the only one. -/
theorem Whole.run_obeys (hw : b.Whole n Q F) {rs : List Request} (hrun : Run (Guarded (Lawful n) RequestStep) b rs b') :
    ∃ Q' F', b'.Whole n Q' F' ∧ Run Obeys (b.quotes Q) rs (b'.quotes Q') ∧
      ∀ A, Run Obeys (b.quotes Q) rs A → A = b'.quotes Q' := by
  induction hrun with
  | refl => exact ⟨Q, F, hw, Run.refl, fun A hA => hA.of_nil⟩
  | snoc _ hs ih =>
    obtain ⟨Q₁, F₁, hw₁, hrules, hunique⟩ := ih
    obtain ⟨⟨hlegal, hdetach⟩, hstep⟩ := hs
    obtain ⟨b₂, Q₂, F₂, hstep', hw₂, hrule⟩ := hw₁.request_obeys hlegal hdetach
    obtain rfl := hstep.unique hstep'
    refine ⟨Q₂, F₂, hw₂, hrules.snoc hrule, fun A hA => ?_⟩
    obtain ⟨A₁, hA₁, hlast⟩ := hA.of_snoc
    obtain rfl := hunique A₁ hA₁
    exact Obeys.unique hw₁.pool.distinct hlast hrule

theorem whole_init {b₀ : FastBitsetOrderBook} (hlt : n < NULL_IDX) (hinit : new.init n = .ok b₀) :
    ∃ Q F, b₀.Whole n Q F ∧ b₀.quotes Q = fun _ => [] :=
  ⟨_, _, Whole.init hlt hinit, rfl⟩

/-- After every run of submissions, cancellations and replacements in which no order leaves its level through a stale
back link, the levels show the one book that the rules of price-time priority lead to, whatever the quantities; and
the next such request returns. -/
theorem obeys_run {b₀ : FastBitsetOrderBook} (hlt : n < NULL_IDX) (hinit : new.init n = .ok b₀) (rs : List Request)
    (b : FastBitsetOrderBook) (hrun : Run (Guarded (Lawful n) RequestStep) b₀ rs b) :
    Run Obeys (fun _ => []) rs b.shown ∧ (∀ A, Run Obeys (fun _ => []) rs A → A = b.shown) ∧
      ∀ r, Lawful n b r → ∃ b', b.RequestStep r b' := by
  obtain ⟨Q₀, F₀, hw₀, hempty⟩ := whole_init hlt hinit
  obtain ⟨Q, F, hw, hrules, hunique⟩ := hw₀.run_obeys hrun
  rw [hempty] at hrules hunique
  rw [hw.pool.shown_eq]
  refine ⟨hrules, hunique, fun r hr => ?_⟩
  obtain ⟨b', _, _, hstep, _⟩ := hw.request_obeys hr.1 hr.2
  exact ⟨b', hstep⟩

/-! ### Runs that are computed -/

/-- `Lawful`, with a test for the orders that rest that can be computed. -/
def Passes (n : Nat) (b : FastBitsetOrderBook) : Request → Prop
  | .call (.submit id price _ _) => id < n ∧ ¬ b.Shows id ∧ price < MAX_PRICES
  | .call (.cancel id) => b.Shows id ∧ b.UnlinksCleanly (b.slot id)
  | .replace id newPrice newQty =>
    b.Shows id ∧ newPrice < MAX_PRICES ∧ (b.Moves (b.slot id) newPrice newQty → b.UnlinksCleanly (b.slot id))

instance (n : Nat) (b : FastBitsetOrderBook) : ∀ r, Decidable (Passes n b r)
  | .call (.submit _ _ _ _) => inferInstanceAs (Decidable (_ ∧ _ ∧ _))
  | .call (.cancel _) => inferInstanceAs (Decidable (_ ∧ _))
  | .replace _ _ _ => inferInstanceAs (Decidable (_ ∧ _ ∧ (_ → _)))

theorem Whole.lawful (hw : b.Whole n Q F) {r : Request} (h : Passes n b r) : Lawful n b r := by
  match r with
  | .call (.submit id price qty isBuy) => exact ⟨⟨h.1, fun hrest => h.2.1 (hw.pool.shows_iff.2 hrest), h.2.2⟩, trivial⟩
  | .call (.cancel id) => exact ⟨hw.pool.shows_iff.1 h.1, h.2⟩
  | .replace id newPrice newQty => exact ⟨⟨hw.pool.shows_iff.1 h.1, h.2.1⟩, h.2.2⟩

theorem Whole.run_lawful (hw : b.Whole n Q F) {rs : List Request} (hrun : Run (Guarded (Passes n) RequestStep) b rs b') :
    Run (Guarded (Lawful n) RequestStep) b rs b' ∧ ∃ Q' F', b'.Whole n Q' F' := by
  induction hrun with
  | refl => exact ⟨Run.refl, Q, F, hw⟩
  | snoc _ hs ih =>
    obtain ⟨hrun, Q₁, F₁, hw₁⟩ := ih
    have hlawful := hw₁.lawful hs.1
    obtain ⟨b₂, Q₂, F₂, hstep', hw₂, _⟩ := hw₁.request_obeys hlawful.1 hlawful.2
    obtain rfl := hs.2.unique hstep'
    exact ⟨hrun.snoc ⟨hlawful, hs.2⟩, Q₂, F₂, hw₂⟩

/-- The requests one after the other, if each of them passes. -/
def tryAll (fuel n : Nat) (b : FastBitsetOrderBook) (rs : List Request) : Exec FastBitsetOrderBook :=
  rs.foldlM (guardedExec (Passes n) (execRequest fuel)) b

theorem Whole.run_of_tryAll (hw : b.Whole n Q F) {fuel : Nat} {rs : List Request} (h : tryAll fuel n b rs = .ok b') :
    Run (Guarded (Lawful n) RequestStep) b rs b' ∧ ∃ Q' F', b'.Whole n Q' F' :=
  hw.run_lawful (run_of_foldlM (fun s r t (h : s.execRequest fuel r = .ok t) => ⟨fuel, h⟩) h)

/-- An ask that moves to another price. -/
def movedAsk : List Request := [.call (.submit 0 5 10 false), .replace 0 7 3]

/-- A new book that has made these requests. -/
def trial (n : Nat) (rs : List Request) : FastBitsetOrderBook :=
  value (new.init n >>= fun b => tryAll 10 n b rs) new

theorem run_trial {rs : List Request} (hlt : n < NULL_IDX)
    (hok : (new.init n >>= fun b => tryAll 10 n b rs).isOk = true) :
    ∃ b₀, new.init n = .ok b₀ ∧ Run (Guarded (Lawful n) RequestStep) b₀ rs (trial n rs) := by
  obtain ⟨b₀, h₀, h⟩ := bind_eq_ok.1 (eq_ok_value new hok)
  exact ⟨b₀, h₀, ((Whole.init hlt h₀).run_of_tryAll h).1⟩

theorem movedAsk_run : ∃ b₀, new.init 2 = .ok b₀ ∧
    Run (Guarded (Lawful 2) RequestStep) b₀ movedAsk (trial 2 movedAsk) := run_trial (by decide) (by decide +kernel)

theorem obeys_run_movedAsk : Run Obeys (fun _ => []) movedAsk (trial 2 movedAsk).shown := by
  obtain ⟨b₀, h₀, hrun⟩ := movedAsk_run
  exact (obeys_run (by decide) h₀ _ _ hrun).1

end FastBitsetOrderBook

end Lobook
