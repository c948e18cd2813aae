import Lobook.Book.Liquidity

/-!
# What an incoming order executes

`facing Q isBuy limit` lists the orders that an incoming order may trade with, the best price first and the oldest order
first within a price.  `match` consumes a prefix of this list (`Consumed`): it fills the orders of the prefix, and the
next one in part if something is left of the incoming order, and it changes nothing else.  No back link is read in the
course of this, so all of it holds whatever the back links are (`submit_executes`).
-/

namespace Lobook

open Checked Links Relation

/-! ### The orders on the other side -/

/-- The prices of the ladder within the limit, the best one first. -/
def bestFirst (isBuy : Bool) (limit : Nat) : List Nat :=
  let prices := (List.range MAX_PRICES).filter fun p => Crosses isBuy limit p
  if isBuy then prices else prices.reverse

/-- The orders within the limit, in the order in which they trade. -/
def facing {α : Type} (Q : Bool × Nat → List α) (isBuy : Bool) (limit : Nat) : List α :=
  (bestFirst isBuy limit).flatMap fun p => Q (!isBuy, p)

section Facing

variable {α : Type} {Q : Bool × Nat → List α} {isBuy : Bool} {limit p : Nat} {i : α} {l : List α}

theorem mem_bestFirst : p ∈ bestFirst isBuy limit ↔ p < MAX_PRICES ∧ Crosses isBuy limit p := by
  cases isBuy <;> simp [bestFirst]

theorem bestFirst_pairwise (isBuy : Bool) (limit : Nat) : (bestFirst isBuy limit).Pairwise (Better isBuy) := by
  have hsorted : ((List.range MAX_PRICES).filter fun p => Crosses isBuy limit p).Pairwise (· < ·) :=
    List.Pairwise.filter _ List.pairwise_lt_range
  cases isBuy with
  | true => exact hsorted
  | false => exact List.pairwise_reverse.2 hsorted

/-- The first order of the best level comes first. -/
theorem facing_update (hp : p ∈ bestFirst isBuy limit) (hbest : ∀ q, Better isBuy q p → Q (!isBuy, q) = [])
    (hk : Q (!isBuy, p) = i :: l) :
    facing Q isBuy limit = i :: facing (Function.update Q (!isBuy, p) l) isBuy limit := by
  obtain ⟨before, after, e⟩ := List.append_of_mem hp
  have hsorted := bestFirst_pairwise isBuy limit
  rw [e] at hsorted
  obtain ⟨_, hafter, hbefore⟩ := List.pairwise_append.1 hsorted
  have hnil : before.flatMap (fun q => Q (!isBuy, q)) = [] :=
    List.flatMap_eq_nil_iff.2 fun q hq => hbest q (hbefore q hq p List.mem_cons_self)
  have hother : ∀ q, q ≠ p → Function.update Q (!isBuy, p) l (!isBuy, q) = Q (!isBuy, q) :=
    fun q hne => Function.update_of_ne (fun e => hne (Prod.mk.inj e).2) _ _
  have hbefore' : before.flatMap (fun q => Function.update Q (!isBuy, p) l (!isBuy, q)) = [] := by
    refine List.flatMap_eq_nil_iff.2 fun q hq => ?_
    have hb := hbefore q hq p List.mem_cons_self
    rw [hother q fun e => better_irrefl (e ▸ hb)]
    exact hbest q hb
  have hafter' : after.flatMap (fun q => Function.update Q (!isBuy, p) l (!isBuy, q)) =
      after.flatMap fun q => Q (!isBuy, q) := by
    refine List.flatMap_congr fun q hq => hother q fun e => ?_
    exact better_irrefl (e ▸ (List.pairwise_cons.1 hafter).1 q hq)
  simp only [facing, e, List.flatMap_append, List.flatMap_cons, hnil, hbefore', hafter', hk, Function.update_self,
    List.nil_append, List.cons_append]

theorem facing_eq_nil (h : ∀ p, Q (!isBuy, p) ≠ [] → ¬ Crosses isBuy limit p) : facing Q isBuy limit = [] := by
  refine List.flatMap_eq_nil_iff.2 fun p hp => ?_
  by_contra hne
  exact h p hne (mem_bestFirst.1 hp).2

theorem mem_facing : i ∈ facing Q isBuy limit ↔ ∃ p, p < MAX_PRICES ∧ Crosses isBuy limit p ∧ i ∈ Q (!isBuy, p) := by
  simp only [facing, List.mem_flatMap, mem_bestFirst, and_assoc]

end Facing

namespace Ladder

/-- The quantity of the orders in these slots. -/
def quantity (b : Ladder) (l : List Nat) : Nat := (l.map fun i => (b.order i).qty).sum

/-- An incoming order has filled the orders in `full` and taken `part` from the first order in `rest`. -/
structure Consumed (isBuy : Bool) (limit : Nat) (b : Ladder) (Q : Bool × Nat → List Nat) (F : List Nat) (qty : Nat)
    (full rest : List Nat) (part : Nat) (b₁ : Ladder) (Q₁ : Bool × Nat → List Nat) (F₁ : List Nat) (qty₁ : Nat) :
    Prop where
  facing : facing Q isBuy limit = full ++ rest
  facing_rest : Lobook.facing Q₁ isBuy limit = rest
  qty : qty = qty₁ + b.quantity full + part
  in_part : part ≠ 0 → qty₁ = 0 ∧ ∃ i, rest.head? = some i ∧ part < (b.order i).qty
  queue : ∀ k, Q₁ k = (Q k).filter (· ∉ full)
  free : F₁ = full.reverse ++ F
  filled : ∀ j ∈ full, ∃ next, b₁.order j = { b.order j with qty := 0, next := next }
  kept : ∀ j, j ∉ full →
    b₁.order j = { b.order j with qty := (b.order j).qty - if rest.head? = some j then part else 0 }
  slot : ∀ id, b₁.slot id = if ∃ j ∈ full, (b.order j).id = id then NULL_IDX else b.slot id
  size : b₁.orders.size = b.orders.size
  map_size : b₁.idMap.size = b.idMap.size

variable {b b' b₁ : Ladder} {Q Q₁ : Bool × Nat → List Nat} {F F₁ full rest l : List Nat} {isBuy : Bool}
  {limit p i qty qty₁ part : Nat}

namespace Consumed

theorem refl (isBuy : Bool) (limit : Nat) (b : Ladder) (Q : Bool × Nat → List Nat) (F : List Nat) (qty : Nat) :
    Consumed isBuy limit b Q F qty [] (Lobook.facing Q isBuy limit) 0 b Q F qty where
  facing := rfl
  facing_rest := rfl
  qty := rfl
  in_part h := absurd rfl h
  queue k := (List.filter_eq_self.2 fun i _ => by simp).symm
  free := rfl
  filled j hj := by cases hj
  kept j _ := by simp
  slot id := by simp
  size := rfl
  map_size := rfl

/-- While something is left of the incoming order, no order has been filled in part. -/
theorem part_eq_zero (hc : Consumed isBuy limit b Q F qty full rest part b₁ Q₁ F₁ qty₁) (hq : 0 < qty₁) : part = 0 := by
  by_contra hpart
  exact absurd (hc.in_part hpart).1 (Nat.ne_of_gt hq)

/-- The next order to trade is the first one of the rest, and is as it was. -/
theorem next (hc : Consumed isBuy limit b Q F qty full rest part b₁ Q₁ F₁ qty₁) (h₁ : b₁.Linked Q₁ F₁)
    (hk : Q₁ (!isBuy, p) = i :: l) (hbest : Best isBuy limit b₁ p) (hq : 0 < qty₁) :
    rest = i :: Lobook.facing (Function.update Q₁ (!isBuy, p) l) isBuy limit ∧ i ∉ full ∧ b₁.order i = b.order i := by
  have hrest : rest = i :: Lobook.facing (Function.update Q₁ (!isBuy, p) l) isBuy limit := by
    rw [← hc.facing_rest]
    refine facing_update (mem_bestFirst.2 ⟨hbest.occupied.1, hbest.crosses⟩) (fun q hb => ?_) hk
    by_contra hne
    exact hbest.best q (h₁.mem_occupied.2 hne) hb
  have hi : i ∉ full := by
    have hmem : i ∈ Q₁ (!isBuy, p) := hk ▸ List.mem_cons_self
    rw [hc.queue] at hmem
    exact of_decide_eq_true (List.mem_filter.1 hmem).2
  refine ⟨hrest, hi, ?_⟩
  rw [hc.kept i hi, hc.part_eq_zero hq]
  simp

/-- The next order is filled. -/
theorem popped (hc : Consumed isBuy limit b Q F qty full rest part b₁ Q₁ F₁ qty₁) (h₁ : b₁.Linked Q₁ F₁)
    (hk : Q₁ (!isBuy, p) = i :: l) (hbest : Best isBuy limit b₁ p) (hq : 0 < qty₁) (hle : (b₁.order i).qty ≤ qty₁) :
    Consumed isBuy limit b Q F qty (full ++ [i]) (Lobook.facing (Function.update Q₁ (!isBuy, p) l) isBuy limit) 0
      (b₁.popped (!isBuy) p) (Function.update Q₁ (!isBuy, p) l) (i :: F₁) (qty₁ - (b₁.order i).qty) := by
  obtain ⟨hrest, hi, hsame⟩ := hc.next h₁ hk hbest hq
  have hhead := (h₁.of_cons hk).1
  have hnot : ∀ j, j ∉ full ++ [i] ↔ j ∉ full ∧ j ≠ i := fun j => by
    rw [List.mem_append, List.mem_singleton, not_or]
  have hpart := hc.part_eq_zero hq
  refine ⟨?_, rfl, ?_, fun h => absurd rfl h, fun k => ?_, ?_, fun j hj => ?_, fun j hj => ?_, fun id => ?_, hc.size,
    hc.map_size⟩
  · rw [hc.facing, hrest, List.append_assoc]
    rfl
  · have hqty := hc.qty
    have hsum : b.quantity (full ++ [i]) = b.quantity full + (b₁.order i).qty := by
      simp only [quantity, List.map_append, List.sum_append, List.map_singleton, List.sum_singleton, hsame]
    omega
  · have hfilter : (Q k).filter (· ∉ full ++ [i]) = (Q₁ k).filter (· ≠ i) := by
      rw [hc.queue, List.filter_filter]
      refine List.filter_congr fun j _ => ?_
      simp only [hnot, Bool.decide_and]
      exact Bool.and_comm _ _
    rw [hfilter]
    rcases eq_or_ne k (!isBuy, p) with rfl | hne
    · rw [Function.update_self, hk, List.filter_cons_of_neg (by simp)]
      refine (List.filter_eq_self.2 fun j hj => decide_eq_true (p := j ≠ i) fun e => ?_).symm
      exact (h₁.threads.of_cons hk).2.2.1 (e ▸ hj)
    · rw [Function.update_of_ne hne]
      refine (List.filter_eq_self.2 fun j hj => decide_eq_true (p := j ≠ i) fun e => hne ?_).symm
      exact h₁.threads.apart k _ i (e ▸ hj) (hk ▸ List.mem_cons_self)
  · rw [hc.free, List.reverse_append]
    rfl
  · rcases List.mem_append.1 hj with hj | hj
    · rw [order_popped hhead fun e => hi (e ▸ hj)]
      exact hc.filled j hj
    · obtain rfl := List.mem_singleton.1 hj
      exact ⟨_, by rw [order_popped_self hhead, hsame]⟩
  · obtain ⟨hj, hji⟩ := (hnot j).1 hj
    rw [order_popped hhead hji, hc.kept j hj, hpart]
    simp
  · have hids : (∃ j ∈ full ++ [i], (b.order j).id = id) ↔
        (∃ j ∈ full, (b.order j).id = id) ∨ id = (b₁.order i).id := by
      simp only [List.mem_append, List.mem_singleton, or_and_right, exists_or, exists_eq_left, hsame]
      exact or_congr_right eq_comm
    rw [slot_popped hhead, hc.slot]
    simp only [hids]
    split <;> split <;> simp_all

/-- The next order is filled in part. -/
theorem reduced (hc : Consumed isBuy limit b Q F qty full rest part b₁ Q₁ F₁ qty₁) (h₁ : b₁.Linked Q₁ F₁)
    (hk : Q₁ (!isBuy, p) = i :: l) (hbest : Best isBuy limit b₁ p) (hq : 0 < qty₁) (hlt : qty₁ < (b₁.order i).qty) :
    Consumed isBuy limit b Q F qty full rest qty₁ (b₁.reduced (!isBuy) p qty₁) Q₁ F₁ 0 := by
  obtain ⟨hrest, hi, hsame⟩ := hc.next h₁ hk hbest hq
  have hhead := (h₁.of_cons hk).1
  have hpart := hc.part_eq_zero hq
  have horder : ∀ j, (b₁.reduced (!isBuy) p qty₁).order j = _ := order_reduced hhead
  refine ⟨hc.facing, hc.facing_rest, ?_, fun _ => ⟨rfl, i, by rw [hrest]; rfl, hsame ▸ hlt⟩, hc.queue, hc.free,
    fun j hj => ?_, fun j hj => ?_, hc.slot, hc.size, hc.map_size⟩
  · have hqty := hc.qty
    omega
  · rw [horder, if_neg fun e : j = i => hi (e ▸ hj)]
    exact hc.filled j hj
  · rw [horder, hrest]
    by_cases hji : j = i
    · subst hji
      rw [if_pos rfl, hsame]
      simp
    · rw [if_neg hji, hc.kept j hj, hpart]
      have hne : ¬ i = j := fun e => hji e.symm
      simp [hne]

/-- After matching, the whole incoming order is traded, or all orders within the limit are filled. -/
theorem total (hc : Consumed isBuy limit b Q F qty full rest part b₁ Q₁ F₁ qty₁) (h₁ : b₁.Linked Q₁ F₁)
    (hend : Ended isBuy limit (b₁, qty₁)) : qty = qty₁ + min qty (b.quantity (Lobook.facing Q isBuy limit)) ∧
      (qty₁ = 0 ∨ rest = []) := by
  have hrest : qty₁ = 0 ∨ rest = [] := by
    refine hend.imp_right fun hfar => ?_
    rw [← hc.facing_rest]
    exact facing_eq_nil fun p hne => hfar p (h₁.mem_occupied.2 hne)
  refine ⟨?_, hrest⟩
  have hqty := hc.qty
  have hsum : b.quantity (Lobook.facing Q isBuy limit) = b.quantity full + b.quantity rest := by
    rw [hc.facing]
    simp only [quantity, List.map_append, List.sum_append]
  by_cases hpart : part = 0
  · rcases hrest with hzero | rfl
    · omega
    · have hnil : b.quantity [] = 0 := rfl
      omega
  · obtain ⟨hzero, i, hi, hlt⟩ := hc.in_part hpart
    have hle : (b.order i).qty ≤ b.quantity rest :=
      List.le_sum_of_mem (List.mem_map_of_mem (List.mem_of_head? hi))
    omega

/-- Queues of the own side, and beyond the limit, are as they were. -/
theorem queue_of_far (hc : Consumed isBuy limit b Q F qty full rest part b₁ Q₁ F₁ qty₁) (h : b.Linked Q F)
    {k : Bool × Nat} (hk : k.1 = isBuy ∨ ¬ Crosses isBuy limit k.2) : Q₁ k = Q k := by
  rw [hc.queue]
  refine List.filter_eq_self.2 fun j hj => decide_eq_true fun hfull => ?_
  have hmem : j ∈ Lobook.facing Q isBuy limit := hc.facing ▸ List.mem_append_left _ hfull
  obtain ⟨q, _, hcross, hq⟩ := mem_facing.1 hmem
  obtain rfl := h.threads.apart _ _ j hj hq
  rcases hk with hside | hfar
  · exact Bool.not_ne_self isBuy hside
  · exact hfar hcross

end Consumed

/-- What trading consumes. -/
theorem Linked.consumed (h : b.Linked Q F) (hpos : b.Positive Q)
    (ht : ReflTransGen (Trade isBuy limit) (b, qty) (b₁, qty₁)) :
    ∃ Q₁ F₁, b₁.Linked Q₁ F₁ ∧ b₁.Positive Q₁ ∧
      ∃ full rest part, Consumed isBuy limit b Q F qty full rest part b₁ Q₁ F₁ qty₁ :=
  h.trades
    (P := fun b₁ Q₁ F₁ qty₁ => b₁.Positive Q₁ ∧
      ∃ full rest part, Consumed isBuy limit b Q F qty full rest part b₁ Q₁ F₁ qty₁)
    ⟨hpos, _, _, _, Consumed.refl isBuy limit b Q F qty⟩
    (fun _ _ _ _ _ _ _ h₁ ⟨hpos₁, _, _, _, hc⟩ hk hbest hq hle =>
      ⟨h₁.positive_popped hpos₁ hk, _, _, _, hc.popped h₁ hk hbest hq hle⟩)
    (fun _ _ _ _ _ _ _ h₁ ⟨hpos₁, _, _, _, hc⟩ hk hbest hq hlt =>
      ⟨h₁.positive_reduced hpos₁ hk hlt, _, _, _, hc.reduced h₁ hk hbest hq hlt⟩) ht

/-- What is left of an incoming order is in slot `i`, the last order of its level. -/
structure Joined (b₁ : Ladder) (Q₁ : Bool × Nat → List Nat) (id price qty : Nat) (isBuy : Bool) (i : Nat) (b' : Ladder)
    (Q' : Bool × Nat → List Nat) : Prop where
  queue : Q' = Function.update Q₁ (isBuy, price) (Q₁ (isBuy, price) ++ [i])
  new : ∃ prev, b'.order i = ⟨id, price, qty, isBuy, NULL_IDX, prev⟩
  kept : ∀ j, j ≠ i → ∃ next, b'.order j = { b₁.order j with next := next }
  slot : ∀ id', b'.slot id' = if id' = id then i else b₁.slot id'
  size : b'.orders.size = b₁.orders.size
  map_size : b'.idMap.size = b₁.idMap.size

variable {id price : Nat}

/-- A slot that is taken is no longer free, and its order is not in a queue before it is appended. -/
theorem Linked.order_appended (h : b₁.Linked Q₁ (i :: F)) (hfresh : ∀ k, ∀ j ∈ Q₁ k, (b₁.order j).id ≠ id)
    (hp : price < MAX_PRICES) (ha : (b₁.taken id price qty isBuy).Appended isBuy price i b') (j : Nat) :
    b'.order j = if j = i then
        ⟨id, price, qty, isBuy, NULL_IDX,
          if (b₁.level isBuy price).head = NULL_IDX then NULL_IDX else (b₁.level isBuy price).tail⟩
      else { b₁.order j with
        next := if (b₁.level isBuy price).head ≠ NULL_IDX ∧ j = (b₁.level isBuy price).tail then i
          else (b₁.order j).next } := by
  obtain ⟨hfree, _, hQ, _⟩ := h.taken hfresh price qty isBuy
  have hlevel : (b₁.taken id price qty isBuy).level isBuy price = b₁.level isBuy price := rfl
  rw [ha.order, order_taken hfree, hlevel]
  by_cases hj : j = i
  · subst hj
    have hnot : ¬ ((b₁.level isBuy price).head ≠ NULL_IDX ∧ j = (b₁.level isBuy price).tail) := by
      rintro ⟨hhead, e⟩
      refine hQ (isBuy, price) ?_
      have hmem := h.threads.tail_mem fun hnil => hhead ((h.head_eq_null hp).2 hnil)
      rwa [e]
    simp only [if_pos, if_neg hnot]
  · simp only [if_neg hj]

theorem Linked.joined (h : b₁.Linked Q₁ (i :: F)) (hfresh : ∀ k, ∀ j ∈ Q₁ k, (b₁.order j).id ≠ id)
    (hp : price < MAX_PRICES) (ha : (b₁.taken id price qty isBuy).Appended isBuy price i b') :
    Joined b₁ Q₁ id price qty isBuy i b' (Function.update Q₁ (isBuy, price) (Q₁ (isBuy, price) ++ [i])) := by
  have horder := h.order_appended hfresh hp ha
  refine ⟨rfl, ⟨_, by rw [horder, if_pos rfl]⟩, fun j hj => ⟨_, by rw [horder, if_neg hj]⟩,
    slot_appended (h.taken hfresh price qty isBuy).1 ha, ha.size, ?_⟩
  rw [ha.idMap]
  rfl

end Ladder

namespace FastBitsetOrderBook

open Ladder

/-- The queues and the free list of a book, in which all orders have something left and the index marks the levels that
are not empty.  Nothing is said of the back links. -/
structure Faithful (b : FastBitsetOrderBook) (Q : Bool × Nat → List Nat) (F : List Nat) : Prop where
  signposted : b.Signposted
  linked : b.Linked Q F
  positive : b.Positive Q

variable {b b₁ b' : FastBitsetOrderBook} {Q : Bool × Nat → List Nat} {F : List Nat} {isBuy : Bool} {id price n : Nat}

/-- `submit_order` fills the orders within the limit in the order of their priority until nothing is left of the
incoming order; what is left when none remains joins the queue of its level, if a slot is free. -/
theorem submit_executes (h : b.Faithful Q F) (hid : id < b.idMap.size) (hrest : ¬ b.Resting id)
    (hp : price < MAX_PRICES) (qty : Nat) (isBuy : Bool) :
    ∃ fuel b₁ qty₁ Q₁ F₁ full rest part b' Q' F',
      b.matchOrder fuel price qty isBuy = .ok (b₁, qty₁) ∧ b.submitOrder fuel id price qty isBuy = .ok b' ∧
      Consumed isBuy price b.toLadder Q F qty full rest part b₁.toLadder Q₁ F₁ qty₁ ∧ b₁.Faithful Q₁ F₁ ∧
      qty = qty₁ + min qty (b.quantity (facing Q isBuy price)) ∧ (qty₁ = 0 ∨ rest = []) ∧
      (∀ k : Bool × Nat, k.1 = isBuy ∨ ¬ Crosses isBuy price k.2 → Q₁ k = Q k) ∧ b'.Faithful Q' F' ∧
      ((qty₁ = 0 ∨ F₁ = []) ∧ b' = b₁ ∧ Q' = Q₁ ∧ F' = F₁ ∨
        ∃ i, 0 < qty₁ ∧ F₁ = i :: F' ∧ Joined b₁.toLadder Q₁ id price qty₁ isBuy i b'.toLadder Q') := by
  obtain ⟨hs, hl, hpos⟩ := h
  have hfresh : ∀ k, ∀ j ∈ Q k, (b.order j).id ≠ id := hl.fresh hrest
  obtain ⟨fuel, b₁, b', qty₁, e, e', hi₁, hi', htrades, hend, hall⟩ :=
    submitOrder_linked (signposted_iff.1 hs) hl hid hfresh hp qty isBuy
  obtain ⟨Q₁, F₁, h₁, hpos₁, full, rest, part, hc⟩ := hl.consumed hpos htrades
  obtain ⟨htotal, hrest⟩ := hc.total h₁ hend
  have hfaithful₁ : b₁.Faithful Q₁ F₁ := ⟨signposted_iff.2 hi₁, h₁, hpos₁⟩
  obtain ⟨hfresh₁, ⟨hstop, rfl⟩ | ⟨i, F₂, hq, rfl, happ, h'⟩⟩ := hall Q₁ F₁ h₁
  · exact ⟨fuel, b', qty₁, Q₁, F₁, full, rest, part, b', Q₁, F₁, e, e', hc, hfaithful₁, htotal, hrest,
      fun k => hc.queue_of_far hl, hfaithful₁, Or.inl ⟨hstop, rfl, rfl, rfl⟩⟩
  · exact ⟨fuel, b₁, qty₁, Q₁, _, full, rest, part, b', _, F₂, e, e', hc, hfaithful₁, htotal, hrest,
      fun k => hc.queue_of_far hl, ⟨signposted_iff.2 hi', h', h₁.positive_rested hpos₁ hfresh₁ hq happ⟩,
      Or.inr ⟨i, hq, rfl, h₁.joined hfresh₁ hp happ⟩⟩

theorem Stocked.faithful (hs : Stocked n b) : ∃ Q F, b.Faithful Q F := by
  obtain ⟨Q, F, hi, h, hpos, _⟩ := hs
  exact ⟨Q, F, signposted_iff.2 hi, h.toLinked, hpos⟩

/-- A bid meets an ask. -/
theorem submit_executes_bid : ∃ b₀ b₁ fuel b₂ qty₁ b', new.init 2 = .ok b₀ ∧ b₀.Step (.submit 0 5 10 false) b₁ ∧
    b₁.matchOrder fuel 7 4 true = .ok (b₂, qty₁) ∧ b₁.submitOrder fuel 1 7 4 true = .ok b' := by
  have hok : (new.init 2 >>= fun b₀ => b₀.exec 10 (.submit 0 5 10 false) >>= fun b₁ =>
      pure (b₀, b₁)).isOk = true := by
    decide +kernel
  obtain ⟨b₀, h₀, h⟩ := bind_eq_ok.1 (eq_ok_value (new, new) hok)
  obtain ⟨b₁, h₁, h⟩ := bind_eq_ok.1 h
  have hid : (b₁.order (b₁.slot 1)).id ≠ 1 := by
    rw [(Prod.mk.inj (Except.ok.inj h)).2]
    decide +kernel
  have hstep : b₀.Step (.submit 0 5 10 false) b₁ := ⟨10, h₁⟩
  obtain ⟨hs₀, hrest₀⟩ := stocked_init h₀
  have hlegal : Legal 2 b₀ (.call (.submit 0 5 10 false)) := ⟨by decide, hrest₀ 0, by decide⟩
  obtain ⟨b₁', Q, F, hstep', hi, hpool, hsize, hpos⟩ := hs₀.request hlegal trivial
  obtain rfl : b₁ = b₁' := hstep.unique hstep'
  obtain ⟨fuel, b₂, qty₁, _, _, _, _, _, b', _, _, e, e', _⟩ := submit_executes
    ⟨signposted_iff.2 hi, hpool.toLinked, hpos.2 trivial⟩ (hsize.symm ▸ (by decide : 1 < 2)) (hpool.not_resting hid)
    (show 7 < MAX_PRICES by decide) 4 true
  exact ⟨b₀, b₁, fuel, b₂, qty₁, b', h₀, hstep, e, e'⟩

end FastBitsetOrderBook

end Lobook
