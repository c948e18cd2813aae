import Lobook.Book.Idle

/-!
# Two books that a caller cannot tell apart

Two books after `init` may differ in what the orders of the pool were before.  `Twins n` relates two books of size `n`
that have gone through the same calls since: while at most slot 0 is in use they agree beyond slot 1, afterwards on every
slot that can be reached (`Near`).  In a book of size 1, whose only slot is taken or free, even the links do not
matter (`Sole`).
-/

namespace Lobook

open Checked

namespace Ladder

/-- The books are related, and the same quantity is left. -/
def Paired (T : Ladder → Ladder → Prop) (r r' : Ladder × Nat) : Prop := T r.1 r'.1 ∧ r.2 = r'.2

/-- Related books have the same levels, and stay related while `match` fills them. -/
structure FillsAlike (T : Ladder → Ladder → Prop) : Prop where
  level : ∀ b b', T b b' → ∀ s p, b'.level s p = b.level s p
  round : ∀ b b', T b b' → ∀ s p qty, p < MAX_PRICES →
    Both (Flow.Both (Paired T) (Paired T)) (fillRound s p (b, qty)) (fillRound s p (b', qty))

/-- The calls of a caller who submits new ids below `n` do the same to related books, and return the same quantities. -/
structure Indistinct (n : Nat) (R : Ladder → Ladder → Prop) : Prop where
  symm : ∀ b b', R b b' → R b' b
  resting : ∀ b b', R b b' → ∀ id, b'.Resting id ↔ b.Resting id
  quantity : ∀ b b', R b b' → ∀ id, b'.getQuantity id = b.getQuantity id
  cancel : ∀ b b', R b b' → ∀ id, Both R (FastOrderBook.cancelOrder b id) (FastOrderBook.cancelOrder b' id)
  submit : ∀ b b', R b b' → ∀ id price s, id < n → ¬ b.Resting id → price < MAX_PRICES →
    ∃ T, FillsAlike T ∧ T b b' ∧ ∀ l l', T l l' → R l l' ∧
      ∀ qty, Both R (FastOrderBook.addOrder l id price qty s) (FastOrderBook.addOrder l' id price qty s)

variable {b b' : Ladder} {s : Bool} {p id price qty n : Nat} {o : Order} {S : Set Nat}

theorem fillRound_both_idle {T : Ladder → Ladder → Prop} (h : T b b') (hp : p < MAX_PRICES)
    (hidle : (b.level s p).head = NULL_IDX ∨ qty = 0) (hidle' : (b'.level s p).head = NULL_IDX ∨ qty = 0) :
    Both (Flow.Both (Paired T) (Paired T)) (fillRound s p (b, qty)) (fillRound s p (b', qty)) := by
  rw [fillRound_idle hp hidle, fillRound_idle hp hidle']
  exact ⟨h, rfl⟩

theorem Near.symm (h : Near S b b') : Near S b' b := h.imp fun _ hO => hO.symm

/-! ### Twins -/

/-- The slots that the free list of a pool of size `n` can lead to. -/
def slots (n : Nat) : Set Nat := {i | i < n ∧ i < NULL_IDX}

/-- The books agree on the links beyond slot 0, and on the orders beyond slot 1. -/
structure SameTail (S : Set Nat) (b b' : Ladder) : Prop where
  zero : 0 ∈ S
  one : 1 ∈ S
  second : (b'.order 1).next = (b.order 1).next
  keys : ∀ i ∈ S, 2 ≤ i → SameKeys (b.order i) (b'.order i)
  next_mem : ∀ i ∈ S, i ≠ 0 → Within S (b.order i).next

/-- The books have size `n` and the same map. -/
structure Sized (n : Nat) (b b' : Ladder) : Prop where
  size : b.orders.size = n
  size' : b'.orders.size = n
  idMap : b'.idMap = b.idMap
  map_size : b.idMap.size = n

/-- Two books of size `n` that have gone through the same calls since `init`. -/
inductive Twins (n : Nat) (b b' : Ladder) : Prop
  | idle (h : b.Idle) (h' : b'.Idle) (hs : Sized n b b') (hqty : (b'.order 0).qty = (b.order 0).qty)
    (hnext : (b'.order 0).next = (b.order 0).next)
    (htail : (b.order 0).next = 0 ∨ (b.order 0).next = 1 ∧ SameTail (slots n) b b')
  | lone {o : Order} (h : b.Lone o) (h' : b'.Lone o) (hs : Sized n b b') (hfree : b.nextFreeOrderIdx = 1)
    (hfree' : b'.nextFreeOrderIdx = 1) (htail : SameTail (slots n) b b')
  | near {S : Set Nat} (h : Near S b b')

theorem SameTail.symm (h : SameTail S b b') : SameTail S b' b where
  zero := h.zero
  one := h.one
  second := h.second.symm
  keys i hi hle := (h.keys i hi hle).symm
  next_mem i hi hne := by
    rcases Nat.lt_or_ge i 2 with hlt | hle
    · obtain rfl : i = 1 := by omega
      rw [h.second]
      exact h.next_mem 1 hi hne
    · rw [(h.keys i hi hle).next]
      exact h.next_mem i hi hne

theorem SameTail.congr (h : SameTail S b b') {b₁ b₁' : Ladder} (hb : ∀ j, j ≠ 0 → b₁.order j = b.order j)
    (hb' : ∀ j, j ≠ 0 → b₁'.order j = b'.order j) : SameTail S b₁ b₁' where
  zero := h.zero
  one := h.one
  second := by rw [hb 1 Nat.one_ne_zero, hb' 1 Nat.one_ne_zero, h.second]
  keys i hi hle := by
    have hne : i ≠ 0 := by omega
    rw [hb i hne, hb' i hne]
    exact h.keys i hi hle
  next_mem i hi hne := by
    rw [hb i hne]
    exact h.next_mem i hi hne

theorem Sized.symm (h : Sized n b b') : Sized n b' b := ⟨h.size', h.size, h.idMap.symm, h.idMap ▸ h.map_size⟩

/-- The same write to both maps. -/
theorem Sized.withSlot (h : Sized n b b') {b₁ b₁' : Ladder} {i : Nat} (hsize : b₁.orders.size = b.orders.size)
    (hsize' : b₁'.orders.size = b'.orders.size) (hmap : b₁.idMap = (b.withSlot id i).idMap)
    (hmap' : b₁'.idMap = (b'.withSlot id i).idMap) : Sized n b₁ b₁' where
  size := hsize.trans h.size
  size' := hsize'.trans h.size'
  idMap := by rw [hmap, hmap', Ladder.withSlot, Ladder.withSlot, h.idMap]
  map_size := by rw [hmap, size_withSlot, h.map_size]

theorem Sized.slot (h : Sized n b b') (id : Nat) : b'.slot id = b.slot id := by rw [Ladder.slot, h.idMap, Ladder.slot]

/-- Neither book knows the id, or both send it to slot 0. -/
theorem Sized.known (hs : Sized n b b') (hnarrow : b.Narrow) (id : Nat) :
    ((b.idMap.size ≤ id ∨ b.slot id = NULL_IDX) ∧ (b'.idMap.size ≤ id ∨ b'.slot id = NULL_IDX)) ∨
      id < b.idMap.size ∧ id < b'.idMap.size ∧ b.slot id = 0 ∧ b'.slot id = 0 := by
  rw [hs.slot, hs.idMap]
  rcases Nat.lt_or_ge id b.idMap.size with hid | hid
  · rcases hnarrow id hid with hslot | hslot
    · exact Or.inr ⟨hid, hid, hslot, hslot⟩
    · exact Or.inl ⟨Or.inr hslot, Or.inr hslot⟩
  · exact Or.inl ⟨Or.inl hid, Or.inl hid⟩

theorem Lone.resting_iff (h : b.Lone o) (h' : b'.Lone o) (hsize : b'.orders.size = b.orders.size) (id : Nat) :
    b'.Resting id ↔ b.Resting id := by
  refine resting_congr (S := {0}) hsize (fun s p => by rw [h.level, h'.level]) ?_ ?_ id
  · rintro i rfl
    rw [h.order, h'.order, h.next]
    exact ⟨SameKeys.refl _, within_null⟩
  · intro s p
    rw [h.level]
    split
    · exact fun _ => rfl
    · exact within_null

theorem levels_ext (h : ∀ s p, b'.level s p = b.level s p) : b'.levels = b.levels :=
  funext fun s => congrArg Table.mk (funext (h s))

/-- Two books with the same order in slot 0, and nothing else in reach. -/
theorem Lone.near (h : b.Lone o) (h' : b'.Lone o) (hs : Sized n b b') (hfree : b.nextFreeOrderIdx = 0)
    (hfree' : b'.nextFreeOrderIdx = 0) : Near {0} b b' := by
  have horder : ∀ i ∈ ({0} : Set Nat), b.order i = o ∧ b'.order i = o := by
    rintro i rfl
    exact ⟨h.order, h'.order⟩
  refine ⟨{0}, hs.size'.trans hs.size.symm, hs.idMap, ?_, hfree'.trans hfree.symm, fun i hi => ?_, fun i hi => ?_,
    fun i hi => ?_, fun s p => ?_, fun _ => hfree, fun id hid hnull => ?_, Set.Subset.refl _⟩
  · exact levels_ext fun s p => by rw [h'.level, h.level]
  · rw [(horder i hi).1, (horder i hi).2]
    exact SameKeys.refl o
  · rw [(horder i hi).1, (horder i hi).2]
  · rw [(horder i hi).1, h.next]
    exact within_null
  · rw [h.level]
    split
    · exact fun _ => rfl
    · exact within_null
  · exact (h.narrow id hid).resolve_right hnull

/-- Two books with the same order in slot 0, of which the second order gets slot 1. -/
theorem Lone.takeSlot_both (h : b.Lone o) (h' : b'.Lone o) (hs : Sized n b b') (hfree : b.nextFreeOrderIdx = 1)
    (hfree' : b'.nextFreeOrderIdx = 1) (htail : SameTail (slots n) b b') (hid : id < n) (price qty : Nat) (s : Bool) :
    Both (Alike (slots n) {0, 1}) (b.takeSlot id price qty s) (b'.takeSlot id price qty s) := by
  have hlt : b.nextFreeOrderIdx < b.orders.size := by rw [hfree, hs.size]; exact htail.one.1
  have hlt' : b'.nextFreeOrderIdx < b'.orders.size := by rw [hfree', hs.size']; exact htail.one.1
  rw [takeSlot_of_lt hlt (hs.map_size.symm ▸ hid), takeSlot_of_lt hlt' (hs.symm.map_size.symm ▸ hid)]
  have horder : ∀ b : Ladder, b.nextFreeOrderIdx = 1 → ∀ j, (b.taken id price qty s).order j =
      if j = 1 then ⟨id, price, qty, s, NULL_IDX, NULL_IDX⟩ else b.order j := by
    intro b hfree j
    exact order_taken hfree j
  -- slot 0 has the common order, slot 1 the new one, and the other slots agree by `htail`
  refine ⟨hs.size'.trans hs.size.symm, ?_, ?_, ?_, fun i hi => ?_, fun i hi => ?_, fun i hi => ?_, fun s p => ?_, ?_,
    fun id' hid' => ?_, ?_⟩
  · simp only [Ladder.taken, Ladder.withSlot, idMap_withOrder, idMap_withFree, hs.idMap, hfree, hfree']
  · exact levels_ext fun s p => (h'.level s p).trans (h.level s p).symm
  · simp only [Ladder.taken, free_withSlot, free_withOrder, free_withFree, hfree, hfree', htail.second]
  · rw [horder b hfree, horder b' hfree']
    split
    · exact SameKeys.refl _
    · rename_i hne
      by_cases hzero : i = 0
      · rw [hzero, h.order, h'.order]
        exact SameKeys.refl o
      · exact htail.keys i hi (by omega)
  · rw [horder b hfree, horder b' hfree']
    rcases hi with rfl | rfl
    · rw [if_neg Nat.zero_ne_one, if_neg Nat.zero_ne_one, h.order, h'.order]
    · rw [if_pos rfl, if_pos rfl]
  · rw [horder b hfree]
    split
    · exact within_null
    · by_cases hzero : i = 0
      · rw [hzero, h.order, h.next]
        exact within_null
      · exact htail.next_mem i hi hzero
  · rw [show (b.taken id price qty _).level s p = _ from h.level s p]
    split
    · exact fun _ => htail.zero
    · exact within_null
  · simp only [Ladder.taken, free_withSlot, free_withOrder, free_withFree, hfree]
    exact htail.next_mem 1 htail.one Nat.one_ne_zero
  · simp only [Ladder.taken, slot_withSlot, slot_withOrder, slot_withFree, hfree]
    split
    · exact fun _ => Or.inr rfl
    · exact fun hnull => Or.inl ((h.narrow id' hid').resolve_right hnull)
  · rintro i (rfl | rfl)
    · exact htail.zero
    · exact htail.one

namespace Twins

theorem symm (h : Twins n b b') : Twins n b' b := by
  cases h with
  | idle h h' hs hqty hnext htail =>
    refine .idle h' h hs.symm hqty.symm hnext.symm ?_
    rw [hnext]
    exact htail.imp_right fun ht => ⟨ht.1, ht.2.symm⟩
  | lone h h' hs hfree hfree' htail => exact .lone h' h hs.symm hfree' hfree htail.symm
  | near h => exact .near h.symm

theorem level (h : Twins n b b') (s : Bool) (p : Nat) : b'.level s p = b.level s p := by
  cases h with
  | idle h h' hs hqty hnext htail => rw [h.level, h'.level]
  | lone h h' hs hfree hfree' htail => rw [h.level, h'.level]
  | near h =>
    obtain ⟨O, hO⟩ := h
    exact hO.level s p

theorem resting (h : Twins n b b') (id : Nat) : b'.Resting id ↔ b.Resting id := by
  cases h with
  | idle h h' hs hqty hnext htail => exact iff_of_false (h'.not_resting id) (h.not_resting id)
  | lone h h' hs hfree hfree' htail => exact h.resting_iff h' (hs.size'.trans hs.size.symm) id
  | near h =>
    obtain ⟨O, hO⟩ := h
    exact hO.resting_iff id

theorem quantity (h : Twins n b b') (id : Nat) : b'.getQuantity id = b.getQuantity id := by
  cases h with
  | idle h h' hs hqty hnext htail =>
    refine getQuantity_congr (hs.size'.trans hs.size.symm) hs.idMap (fun id hid hnull => ?_) id
    rw [(h.narrow id hid).resolve_right hnull, hqty]
  | lone h h' hs hfree hfree' htail =>
    refine getQuantity_congr (hs.size'.trans hs.size.symm) hs.idMap (fun id hid hnull => ?_) id
    rw [(h.narrow id hid).resolve_right hnull, h.order, h'.order]
  | near h =>
    obtain ⟨O, hO⟩ := h
    exact hO.getQuantity id

theorem cancelOrder (h : Twins n b b') (id : Nat) :
    Both (Twins n) (FastOrderBook.cancelOrder b id) (FastOrderBook.cancelOrder b' id) := by
  cases h with
  | idle h h' hs hqty hnext htail =>
    rcases hs.known h.narrow id with ⟨habs, habs'⟩ | ⟨hid, hid', hslot, hslot'⟩
    · rw [FastOrderBook.cancelOrder_absent habs, FastOrderBook.cancelOrder_absent habs']
      exact .idle h h' hs hqty hnext htail
    · obtain ⟨b₁, e, h₁, hsize, hmap, hqty₁, hnext₁⟩ := h.cancelOrder hid hslot
      obtain ⟨b₁', e', h₁', hsize', hmap', hqty₁', hnext₁'⟩ := h'.cancelOrder hid' hslot'
      rw [e, e']
      exact .idle h₁ h₁' (hs.withSlot hsize hsize' hmap hmap') (by rw [hqty₁, hqty₁', hqty])
        (hnext₁'.trans hnext₁.symm) (Or.inl hnext₁)
  | lone h h' hs hfree hfree' htail =>
    rcases hs.known h.narrow id with ⟨habs, habs'⟩ | ⟨hid, hid', hslot, hslot'⟩
    · rw [FastOrderBook.cancelOrder_absent habs, FastOrderBook.cancelOrder_absent habs']
      exact .lone h h' hs hfree hfree' htail
    · obtain ⟨b₁, e, h₁, hsize, hmap, horder, hother⟩ := h.cancelOrder hid hslot
      obtain ⟨b₁', e', h₁', hsize', hmap', horder', hother'⟩ := h'.cancelOrder hid' hslot'
      rw [e, e']
      refine .idle h₁ h₁' (hs.withSlot hsize hsize' hmap hmap') ?_ ?_ (Or.inr ⟨?_, htail.congr hother hother'⟩)
      · rw [horder, horder']
      · rw [horder, horder', hfree, hfree']
      · rw [horder, hfree]
  | near h =>
    obtain ⟨O, hO⟩ := h
    exact (hO.cancelOrder id).mono fun _ _ h₁ => .near ⟨O, h₁⟩

theorem fillRound (h : Twins n b b') (s : Bool) (p qty : Nat) (hp : p < MAX_PRICES) :
    Both (Flow.Both (Paired (Twins n)) (Paired (Twins n))) (fillRound s p (b, qty)) (fillRound s p (b', qty)) := by
  cases h with
  | idle h h' hs hqty hnext htail =>
    exact fillRound_both_idle (.idle h h' hs hqty hnext htail) hp (Or.inl (h.head s p)) (Or.inl (h'.head s p))
  | @lone o h h' hs hfree hfree' htail =>
    have htwins : Twins n b b' := .lone h h' hs hfree hfree' htail
    by_cases hsp : s = o.isBuy ∧ p = o.price
    · obtain ⟨rfl, rfl⟩ := hsp
      rcases Nat.eq_zero_or_pos qty with hzero | hqty
      · exact fillRound_both_idle htwins hp (Or.inr hzero) (Or.inr hzero)
      · rcases Nat.lt_or_ge qty o.qty with hless | hge
        · rw [h.fillRound_part hqty hless, h'.fillRound_part hqty hless]
          refine ⟨.lone (h.reduced qty) (h'.reduced qty) ⟨hs.size, hs.size', hs.idMap, hs.map_size⟩ hfree hfree' ?_, rfl⟩
          exact htail.congr (h.order_reduced qty) (h'.order_reduced qty)
        · rw [h.fillRound_full hqty hge, h'.fillRound_full hqty hge]
          obtain ⟨h₁, hmap, horder, hother⟩ := h.popped
          obtain ⟨h₁', hmap', horder', hother'⟩ := h'.popped
          refine ⟨.idle h₁ h₁' (hs.withSlot rfl rfl hmap hmap') ?_ ?_ (Or.inr ⟨?_, htail.congr hother hother'⟩), rfl⟩
          · rw [horder, horder']
          · rw [horder, horder', hfree, hfree']
          · rw [horder, hfree]
    · exact fillRound_both_idle htwins hp (Or.inl (h.head_other hsp)) (Or.inl (h'.head_other hsp))
  | near h =>
    obtain ⟨O, hO⟩ := h
    refine (hO.fillRound s p qty).mono fun flow flow' hflow => ?_
    cases flow with
    | again r =>
      cases flow' with
      | again r' => exact ⟨.near ⟨O, hflow.1⟩, hflow.2⟩
      | done r' => exact hflow.elim
    | done r =>
      cases flow' with
      | again r' => exact hflow.elim
      | done r' => exact ⟨.near ⟨O, hflow.1⟩, hflow.2⟩

theorem addOrder (h : Twins n b b') (hid : id < n) (hp : price < MAX_PRICES) (qty : Nat) (s : Bool) :
    Both (Twins n) (FastOrderBook.addOrder b id price qty s) (FastOrderBook.addOrder b' id price qty s) := by
  cases h with
  | idle h h' hs hqty hnext htail =>
    obtain ⟨b₁, e, h₁, hsize, hmap, hfree, hother⟩ := h.addOrder (hs.map_size.symm ▸ hid) hp qty s
    obtain ⟨b₁', e', h₁', hsize', hmap', hfree', hother'⟩ := h'.addOrder (hs.symm.map_size.symm ▸ hid) hp qty s
    have hs₁ := hs.withSlot hsize hsize' hmap hmap'
    rw [e, e']
    -- after a cancellation slot 0 is its own successor, so it is all that can ever be reached
    rcases htail with hzero | ⟨hone, htail⟩
    · exact .near (h₁.near h₁' hs₁ (hfree.trans hzero) ((hfree'.trans hnext).trans hzero))
    · exact .lone h₁ h₁' hs₁ (hfree.trans hone) ((hfree'.trans hnext).trans hone) (htail.congr hother hother')
  | lone h h' hs hfree hfree' htail =>
    refine (Alike.addOrder_of_takeSlot (hfree'.trans hfree.symm) ?_ ?_
      (h.takeSlot_both h' hs hfree hfree' htail hid price qty s)).mono fun _ _ h₁ => .near h₁
    · rw [hfree]
      decide
    · rw [hfree]
      exact htail.one
  | near h =>
    obtain ⟨O, hO⟩ := h
    exact (hO.addOrder id price qty s).mono fun _ _ h₁ => .near h₁

theorem indistinct (n : Nat) : Indistinct n (Twins n) where
  symm _ _ h := h.symm
  resting _ _ h := h.resting
  quantity _ _ h := h.quantity
  cancel _ _ h := h.cancelOrder
  submit _ _ h _ _ s hid _ hp :=
    ⟨Twins n, ⟨fun _ _ h => h.level, fun _ _ h => h.fillRound⟩, h, fun _ _ hl => ⟨hl, fun qty => hl.addOrder hid hp qty s⟩⟩

end Twins

/-! ### Books with one slot -/

/-- A book of size 1 without an order; its id has no quantity. -/
structure Vacant (b : Ladder) : Prop extends b.Idle where
  size : b.orders.size = 1
  map_size : b.idMap.size = 1
  qty : b.slot 0 = 0 → (b.order 0).qty = 0

/-- A book of size 1 with the order `o`. -/
structure Occupied (b : Ladder) (o : Order) : Prop extends b.Lone o where
  size : b.orders.size = 1
  map_size : b.idMap.size = 1
  slot : b.slot 0 = 0

/-- Two books of size 1 that are both without an order, or have the same one. -/
def Sole (b b' : Ladder) : Prop := b.Vacant ∧ b'.Vacant ∨ ∃ o, b.Occupied o ∧ b'.Occupied o

theorem Vacant.getQuantity (h : b.Vacant) (id : Nat) : b.getQuantity id = .ok 0 := by
  rcases b.absent_or_known id with habs | ⟨hid, hnull⟩
  · exact getQuantity_absent habs
  · have hslot : b.slot id = 0 := (h.narrow id hid).resolve_right hnull
    rw [getQuantity_of_lt hid hslot zero_ne_null h.pos]
    obtain rfl : id = 0 := by have := h.map_size; omega
    rw [h.qty hslot]

theorem Occupied.getQuantity (h : b.Occupied o) (id : Nat) : b.getQuantity id = .ok (if id = 0 then o.qty else 0) := by
  by_cases hid : id = 0
  · subst hid
    have hlt : 0 < b.idMap.size := h.map_size.symm ▸ Nat.one_pos
    rw [getQuantity_of_lt hlt h.slot zero_ne_null h.pos, h.order, if_pos rfl]
  · have habs : b.idMap.size ≤ id := by
      rw [h.map_size]
      exact Nat.one_le_iff_ne_zero.2 hid
    rw [getQuantity_absent (Or.inl habs), if_neg hid]

/-- Only id 0 is in the map of a book of size 1. -/
theorem slot_of_withSlot (hmap : b'.idMap = (b.withSlot id NULL_IDX).idMap) (hsize : b.idMap.size = 1)
    (hid : id < b.idMap.size) : b'.slot 0 = NULL_IDX := by
  obtain rfl : id = 0 := by omega
  rw [Ladder.slot, hmap]
  exact (slot_withSlot b NULL_IDX 0 0).trans (if_pos rfl)

theorem Vacant.cancelOrder (h : b.Vacant) (id : Nat) :
    ∃ b', FastOrderBook.cancelOrder b id = .ok b' ∧ b'.Vacant := by
  rcases b.absent_or_known id with habs | ⟨hid, hnull⟩
  · exact ⟨b, FastOrderBook.cancelOrder_absent habs, h⟩
  · obtain ⟨b', e, h', hsize, hmap, _⟩ := h.toIdle.cancelOrder hid ((h.narrow id hid).resolve_right hnull)
    have hslot := slot_of_withSlot hmap h.map_size hid
    exact ⟨b', e, h', hsize.trans h.size, hmap ▸ h.map_size, fun hzero => absurd (hslot.symm.trans hzero).symm zero_ne_null⟩

theorem Occupied.cancelOrder (h : b.Occupied o) (id : Nat) :
    ∃ b', FastOrderBook.cancelOrder b id = .ok b' ∧ if id = 0 then b'.Vacant else b' = b := by
  by_cases hid : id = 0
  · subst hid
    have hlt : 0 < b.idMap.size := h.map_size.symm ▸ Nat.one_pos
    obtain ⟨b', e, h', hsize, hmap, _⟩ := h.toLone.cancelOrder hlt h.slot
    have hslot := slot_of_withSlot hmap h.map_size hlt
    refine ⟨b', e, ?_⟩
    rw [if_pos rfl]
    exact ⟨h', hsize.trans h.size, hmap ▸ h.map_size, fun hzero => absurd (hslot.symm.trans hzero).symm zero_ne_null⟩
  · refine ⟨b, FastOrderBook.cancelOrder_absent (Or.inl ?_), ?_⟩
    · rw [h.map_size]
      exact Nat.pos_of_ne_zero hid
    · rw [if_neg hid]

theorem Vacant.addOrder (h : b.Vacant) (hp : price < MAX_PRICES) (qty : Nat) (s : Bool) :
    ∃ b', FastOrderBook.addOrder b 0 price qty s = .ok b' ∧ b'.Occupied ⟨0, price, qty, s, NULL_IDX, NULL_IDX⟩ := by
  obtain ⟨b', e, h', hsize, hmap, _⟩ := h.toIdle.addOrder (h.map_size.symm ▸ Nat.one_pos) hp qty s
  refine ⟨b', e, h', hsize.trans h.size, hmap ▸ h.map_size, ?_⟩
  rw [Ladder.slot, hmap]
  exact (slot_withSlot b 0 0 0).trans (if_pos rfl)

namespace Sole

theorem symm (h : Sole b b') : Sole b' b := h.imp And.symm fun ⟨o, ho⟩ => ⟨o, ho.symm⟩

theorem resting (h : Sole b b') (id : Nat) : b'.Resting id ↔ b.Resting id := by
  rcases h with ⟨h, h'⟩ | ⟨o, h, h'⟩
  · exact iff_of_false (h'.not_resting id) (h.not_resting id)
  · exact Lone.resting_iff h.toLone h'.toLone (h'.size.trans h.size.symm) id

theorem cancelOrder (h : Sole b b') (id : Nat) :
    Both Sole (FastOrderBook.cancelOrder b id) (FastOrderBook.cancelOrder b' id) := by
  rcases h with ⟨h, h'⟩ | ⟨o, h, h'⟩
  · obtain ⟨b₁, e, h₁⟩ := h.cancelOrder id
    obtain ⟨b₁', e', h₁'⟩ := h'.cancelOrder id
    rw [e, e']
    exact Or.inl ⟨h₁, h₁'⟩
  · obtain ⟨b₁, e, h₁⟩ := h.cancelOrder id
    obtain ⟨b₁', e', h₁'⟩ := h'.cancelOrder id
    rw [e, e']
    split at h₁
    · rename_i hid
      rw [if_pos hid] at h₁'
      exact Or.inl ⟨h₁, h₁'⟩
    · rename_i hid
      rw [if_neg hid] at h₁'
      subst h₁ h₁'
      exact Or.inr ⟨o, h, h'⟩

theorem indistinct : Indistinct 1 Sole where
  symm _ _ h := h.symm
  resting _ _ h := h.resting
  quantity b b' h id := by
    rcases h with ⟨h, h'⟩ | ⟨o, h, h'⟩
    · rw [h.getQuantity, h'.getQuantity]
    · rw [h.getQuantity, h'.getQuantity]
  cancel _ _ h := h.cancelOrder
  submit b b' h id price s hid hrest hp := by
    obtain rfl : id = 0 := Nat.lt_one_iff.1 hid
    rcases h with ⟨h, h'⟩ | ⟨o, h, h'⟩
    · refine ⟨fun l l' => l.Vacant ∧ l'.Vacant, ⟨fun l l' hl s p => ?_, fun l l' hl s p qty hp => ?_⟩, ⟨h, h'⟩,
        fun l l' hl => ⟨Or.inl hl, fun qty => ?_⟩⟩
      · rw [hl.1.level, hl.2.level]
      · exact fillRound_both_idle hl hp (Or.inl (hl.1.head s p)) (Or.inl (hl.2.head s p))
      · obtain ⟨b₁, e, h₁⟩ := hl.1.addOrder hp qty s
        obtain ⟨b₁', e', h₁'⟩ := hl.2.addOrder hp qty s
        rw [e, e']
        exact Or.inr ⟨_, h₁, h₁'⟩
    · have hid : o.id = 0 := by
        have := h.id
        have := h.map_size
        omega
      exact absurd (hid ▸ h.resting) hrest

end Sole

end Ladder

end Lobook
