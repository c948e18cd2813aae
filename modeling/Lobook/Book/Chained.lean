import Lobook.Book.Sweep

/-!
# Going along the levels of a side

Of a side of a book only this is assumed here: every level leads through slots of the pool to `NULL_IDX`, and no slot is
in two levels (`Chained`).  Then the inner loop of `match` goes along the orders of a level, whatever their quantities,
their back links and the map are, and leaves the other levels as they are (`Untouched.fillLevel`).
-/

namespace Lobook

open Checked Links

namespace Ladder

/-- Every level of a side leads through slots of the pool to `NULL_IDX`, and no slot is in two levels. -/
structure Chained (b : Ladder) (s : Bool) : Prop where
  ends : ∀ p, p < MAX_PRICES → ∃ l, b.Meets (b.level s p).head l ∧ ∀ i ∈ l, i < b.orders.size
  apart : ∀ p p' i, p < MAX_PRICES → p' < MAX_PRICES → i ∈ b.queue s p → i ∈ b.queue s p' → p = p'

/-- The quantity that rests on a side. -/
def depth (b : Ladder) (s : Bool) : Nat := ∑ p ∈ Finset.range MAX_PRICES, b.volume s p

variable {b b' b₁ : Ladder} {Q : Bool × Nat → List Nat} {F l : List Nat} {s : Bool} {p i qty inner : Nat}

theorem Chained.queue (hc : b.Chained s) (hp : p < MAX_PRICES) :
    b.Meets (b.level s p).head (b.queue s p) ∧ ∀ i ∈ b.queue s p, i < b.orders.size := by
  obtain ⟨l, hl, hb⟩ := hc.ends p hp
  rw [hl.queue_eq hb]
  exact ⟨hl, hb⟩

theorem Linked.chained (h : b.Linked Q F) (s : Bool) : b.Chained s where
  ends p hp := ⟨Q (s, p), h.meets (k := (s, p)) hp, h.bound _⟩
  apart p p' i hp hp' hi hi' := by
    rw [h.queue_eq hp] at hi
    rw [h.queue_eq hp'] at hi'
    exact (Prod.mk.inj (h.threads.apart _ _ i hi hi')).2

/-- An order whose id lies outside the map cannot be filled. -/
theorem fillRound_stray (hp : p < MAX_PRICES) (hhead : (b.level s p).head ≠ NULL_IDX)
    (hlt : (b.level s p).head < b.orders.size) (hid : b.idMap.size ≤ (b.order (b.level s p).head).id) (hqty : 0 < qty)
    (hle : (b.order (b.level s p).head).qty ≤ qty) : fillRound s p (b, qty) = .error .outOfRange := by
  have herr : (b.withOrder (b.level s p).head { b.order (b.level s p).head with qty := 0 }).setSlot
      (b.order (b.level s p).head).id NULL_IDX = .error .outOfRange := by
    have hset : (b.idMap).set (b.order (b.level s p).head).id NULL_IDX = .error .outOfRange := if_neg (Nat.not_lt.2 hid)
    simp only [setSlot, idMap_withOrder, hset, error_bind]
  simp only [fillRound, getLevel_of_lt hp, getOrder_of_lt hlt, modifyOrder_of_lt hlt, ok_bind, Nat.min_eq_right hle,
    if_pos (And.intro hhead hqty), Nat.sub_self, if_true, herr, error_bind]

/-- What is left of the incoming quantity behind the orders in `l`, and what filling them leaves alone; if something is
left, their ids are in the map. -/
structure Swept (b : Ladder) (s : Bool) (p : Nat) (l : List Nat) (qty : Nat) (r : Ladder × Nat) : Prop where
  left : r.2 = qty - (l.map fun i => (b.order i).qty).sum
  filled : Filled s p b r.1
  order : ∀ j, j ∉ l → r.1.order j = b.order j
  slot : ∀ id, (∀ i ∈ l, (b.order i).id ≠ id) → r.1.slot id = b.slot id
  ids : 0 < r.2 → ∀ i ∈ l, (b.order i).id < b.idMap.size

/-- Nothing is left to fill, or no order is there. -/
theorem Swept.idle (h : qty = 0 ∨ l = []) : b.Swept s p l qty (b, qty) where
  left := by
    rcases h with rfl | rfl
    · exact (Nat.zero_sub _).symm
    · exact (Nat.sub_zero _).symm
  filled := Filled.refl
  order _ _ := rfl
  slot _ _ := rfl
  ids hq i hi := by
    rcases h with h | rfl
    · exact absurd hq (Nat.not_lt.2 (Nat.le_of_eq h))
    · cases hi

/-- The first order is filled in part. -/
theorem Swept.part (hhead : (b.level s p).head = i) (h : qty < (b.order i).qty) :
    b.Swept s p (i :: l) qty (b.reduced s p qty, 0) where
  left := by
    rw [List.map_cons, List.sum_cons]
    show 0 = _
    omega
  filled := filled_reduced
  order j hj := by
    have hne : j ≠ i := fun e => hj (e ▸ List.mem_cons_self)
    rw [order_reduced hhead, if_neg hne]
  slot _ _ := rfl
  ids hq := absurd hq (Nat.lt_irrefl 0)

/-- The first order is filled, and then the others. -/
theorem Swept.full {r : Ladder × Nat} (hhead : (b.level s p).head = i) (hi : i ≠ NULL_IDX) (hil : i ∉ l)
    (hid : (b.order i).id < b.idMap.size) (h : (b.popped s p).Swept s p l (qty - (b.order i).qty) r) :
    b.Swept s p (i :: l) qty r := by
  have horder : ∀ j, j ≠ i → (b.popped s p).order j = b.order j := fun j => order_popped hhead
  have hmem : ∀ j ∈ l, (b.popped s p).order j = b.order j := fun j hj => horder j fun e => hil (e ▸ hj)
  have hsum : (l.map fun i => ((b.popped s p).order i).qty) = l.map fun i => (b.order i).qty :=
    List.map_congr_left fun j hj => by rw [hmem j hj]
  refine ⟨?_, (filled_popped (hhead ▸ hi)).trans h.filled, fun j hj => ?_, fun id hne => ?_, fun hq j hj => ?_⟩
  · rw [h.left, hsum, List.map_cons, List.sum_cons]
    omega
  · obtain ⟨hne, hj⟩ := not_or.1 fun h => hj (List.mem_cons.2 h)
    exact (h.order j hj).trans (horder j hne)
  · rw [h.slot id fun j hj => hmem j hj ▸ hne j (List.mem_cons_of_mem _ hj)]
    simp only [popped, slot_withFree, slot_withLevel, slot_withSlot, slot_withOrder, hhead,
      if_neg (Ne.symm (hne i List.mem_cons_self))]
  · rcases List.mem_cons.1 hj with rfl | hj
    · exact hid
    · exact hmem j hj ▸ h.ids hq j hj

/-- The inner loop goes along the orders of a level. -/
theorem fillLevel_swept (inner : Nat) (hp : p < MAX_PRICES) (hl : b.Meets (b.level s p).head l)
    (hb : ∀ i ∈ l, i < b.orders.size) (qty : Nat) :
    b.fillLevel inner s p qty = .error .outOfFuel ∧ inner ≤ l.length ∨
      b.fillLevel inner s p qty = .error .outOfRange ∧ (∃ i ∈ l, b.idMap.size ≤ (b.order i).id) ∨
        ∃ r, b.fillLevel inner s p qty = .ok r ∧ b.Swept s p l qty r := by
  induction inner generalizing b qty l with
  | zero => exact Or.inl ⟨rfl, Nat.zero_le _⟩
  | succ inner ih =>
    by_cases hidle : (b.level s p).head = NULL_IDX ∨ qty = 0
    · refine Or.inr (Or.inr ⟨_, loop_done (fillRound_idle hp hidle) inner, Swept.idle ?_⟩)
      exact hidle.symm.imp_right (hl.1.head_eq_iff hl.2).1
    obtain ⟨hhead, hqty⟩ := not_or.1 hidle
    have hqty := Nat.pos_of_ne_zero hqty
    cases l with
    | nil => exact absurd hl.1 hhead
    | cons i l =>
      obtain ⟨⟨hi, hpath⟩, hnull⟩ := hl
      have hil : i ∉ l := (List.nodup_cons.1 (Path.nodup ⟨hi, hpath⟩ hnull)).1
      have hlt : (b.level s p).head < b.orders.size := hi ▸ hb i List.mem_cons_self
      rcases Nat.lt_or_ge qty (b.order (b.level s p).head).qty with hless | hle
      · have hround := fillRound_part hp hhead hlt hqty hless
        exact Or.inr (Or.inr ⟨_, loop_done hround inner, Swept.part hi (hi ▸ hless)⟩)
      · rcases Nat.lt_or_ge (b.order (b.level s p).head).id b.idMap.size with hid | hid
        · have horder : ∀ j ∈ l, (b.popped s p).order j = b.order j :=
            fun j hj => order_popped hi fun e => hil (e ▸ hj)
          have hmeets : (b.popped s p).Meets ((b.popped s p).level s p).head l := by
            rw [show ((b.popped s p).level s p).head = (b.order i).next by simp [popped, hi]]
            exact ⟨hpath.congr fun j hj => by rw [horder j hj], fun h => hnull (List.mem_cons_of_mem _ h)⟩
          have hagain : b.fillLevel (inner + 1) s p qty =
              (b.popped s p).fillLevel inner s p (qty - (b.order (b.level s p).head).qty) :=
            loop_again (fillRound_full hp hhead hlt hid hqty hle) inner
          rw [hagain]
          rcases ih hmeets (fun j hj => hb j (List.mem_cons_of_mem _ hj)) (qty - (b.order (b.level s p).head).qty) with
            ⟨e, hlen⟩ | ⟨e, j, hj, hstray⟩ | ⟨r, e, hr⟩
          · exact Or.inl ⟨e, Nat.succ_le_succ hlen⟩
          · exact Or.inr (Or.inl ⟨e, j, List.mem_cons_of_mem _ hj, horder j hj ▸ hstray⟩)
          · exact Or.inr (Or.inr ⟨r, e, Swept.full hi (hi ▸ hhead) hil (hi ▸ hid) (hi ▸ hr)⟩)
        · exact Or.inr (Or.inl ⟨by
            simp only [fillLevel, loop, fillRound_stray hp hhead hlt hid hqty hle, error_bind],
            i, List.mem_cons_self, hi ▸ hid⟩)

/-! ### Level by level -/

/-- The ids of the orders at a price are in the map. -/
def Known (b : Ladder) (s : Bool) (p : Nat) : Prop := ∀ i ∈ b.queue s p, (b.order i).id < b.idMap.size

/-- The levels of a side whose prices are not in `S` are as they were, and so are the entries of the ids that do not
rest. -/
structure Untouched (b : Ladder) (s : Bool) (S : Set Nat) (b₁ : Ladder) : Prop where
  level : ∀ p, p < MAX_PRICES → p ∉ S → b₁.level s p = b.level s p
  order : ∀ p, p < MAX_PRICES → p ∉ S → ∀ i ∈ b.queue s p, b₁.order i = b.order i
  slot : ∀ id, ¬ b.Resting id → b₁.slot id = b.slot id
  size : b₁.orders.size = b.orders.size
  map_size : b₁.idMap.size = b.idMap.size

theorem Untouched.refl {S : Set Nat} : b.Untouched s S b :=
  ⟨fun _ _ _ => rfl, fun _ _ _ _ _ => rfl, fun _ _ => rfl, rfl, rfl⟩

/-- The inner loop at a level that has not been touched. -/
theorem Untouched.fillLevel {S : Set Nat} (hc : b.Chained s) (h : b.Untouched s S b₁) (hp : p < MAX_PRICES)
    (hS : p ∉ S) (inner qty : Nat) :
    b₁.fillLevel inner s p qty = .error .outOfFuel ∧ inner ≤ b.orders.size ∨
      b₁.fillLevel inner s p qty = .error .outOfRange ∧ ¬ b.Known s p ∨
      ∃ b₂, b₁.fillLevel inner s p qty = .ok (b₂, qty - b.volume s p) ∧ b.Untouched s (insert p S) b₂ ∧
        (0 < qty - b.volume s p → b.Known s p) := by
  obtain ⟨hmeets, hbound⟩ := hc.queue hp
  have horder := h.order p hp hS
  have hmeets₁ : b₁.Meets (b₁.level s p).head (b.queue s p) := by
    rw [h.level p hp hS]
    exact ⟨hmeets.1.congr fun j hj => by rw [horder j hj], hmeets.2⟩
  have hvolume : ((b.queue s p).map fun i => (b₁.order i).qty).sum = b.volume s p := by
    unfold volume
    congr 1
    exact List.map_congr_left fun j hj => by rw [horder j hj]
  rcases fillLevel_swept inner hp hmeets₁ (fun i hi => h.size ▸ hbound i hi) qty with
    ⟨e, hlen⟩ | ⟨e, i, hi, hstray⟩ | ⟨⟨b₂, qty₂⟩, e, hr⟩
  · exact Or.inl ⟨e, hlen.trans (hmeets.length_le hbound)⟩
  · refine Or.inr (Or.inl ⟨e, fun hknown => ?_⟩)
    rw [horder i hi, h.map_size] at hstray
    exact absurd (hknown i hi) (Nat.not_lt.2 hstray)
  · obtain rfl : qty₂ = qty - b.volume s p := hvolume ▸ hr.left
    refine Or.inr (Or.inr ⟨b₂, e, ⟨fun q hq hqS => ?_, fun q hq hqS i hi => ?_, fun id hrest => ?_,
      hr.filled.size.trans h.size, hr.filled.map_size.trans h.map_size⟩, fun hpos i hi => ?_⟩)
    · obtain ⟨hne, hqS⟩ := not_or.1 fun h => hqS (Set.mem_insert_iff.2 h)
      exact (hr.filled.level s q fun e => hne e.2).trans (h.level q hq hqS)
    · obtain ⟨hne, hqS⟩ := not_or.1 fun h => hqS (Set.mem_insert_iff.2 h)
      exact (hr.order i fun hi' => hne (hc.apart q p i hq hp hi hi')).trans (h.order q hq hqS i hi)
    · refine (hr.slot id fun i hi e => hrest ⟨s, p, hp, i, hi, ?_⟩).trans (h.slot id hrest)
      rw [← horder i hi]
      exact e
    · have hid := hr.ids hpos i hi
      rwa [horder i hi, h.map_size] at hid

end Ladder

end Lobook
