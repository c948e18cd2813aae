import Lobook.Book.Ladder

/-!
# What the shared blocks of code do

One specification for each block of `Lobook.Book.Ladder`, in every state, however its links are tangled: which accesses
must be within bounds, and what every cell holds afterwards.  The proofs about the books go through these and never
unfold the blocks again.
-/

namespace Lobook

open Checked

namespace Ladder

/-- A stored index is null or a slot of the pool. -/
def Fits (b : Ladder) (idx : Nat) : Prop := idx = NULL_IDX ∨ idx < b.orders.size

variable {b b' : Ladder} {isBuy : Bool} {price i idx id qty : Nat}

/-! ### The empty book -/

/-- The book after `init`. -/
structure Initialised (b : Ladder) (n : Nat) (b' : Ladder) : Prop where
  pos : 0 < n
  size : b'.orders.size = n
  map_size : b'.idMap.size = n
  level : ∀ s p, b'.level s p = ⟨NULL_IDX, NULL_IDX⟩
  free : b'.nextFreeOrderIdx = 0
  next : ∀ i, i < n → (b'.order i).next = if i = n - 1 then NULL_IDX else u32 (i + 1)
  fields : ∀ i, i < n → ∀ o, o = (if i < b.orders.size then b.order i else ⟨0, 0, 0, false, 0, 0⟩) →
    b'.order i = { o with next := (b'.order i).next }
  slot : ∀ id, id < n → b'.slot id = if id < b.idMap.size then b.slot id else 0

theorem chain_of_pos {orders : Vec Order} (h : 0 < orders.size) : chain orders = .ok
    ⟨orders.size, Function.update (fun i => ({ orders.cell i with next := u32 (i + 1) } : Order)) (orders.size - 1)
      ({ orders.cell (orders.size - 1) with next := NULL_IDX } : Order)⟩ :=
  (if_pos h).trans (Vec.modify_of_lt (Nat.sub_lt h Nat.one_pos))

theorem init_of_pos {n : Nat} (hn : 0 < n) : ∃ b', b.init n = .ok b' ∧ b.Initialised n b' := by
  have hc := chain_of_pos (show 0 < (b.orders.resize n ⟨0, 0, 0, false, 0, 0⟩).size from hn)
  refine ⟨_, by rw [init, hc, ok_bind, pure_eq_ok], hn, rfl, rfl, fun s p => rfl, rfl, fun i _ => ?_,
    fun i hi o ho => ?_, fun id hid => ?_⟩
  · simp only [order, Function.update_apply, Vec.resize]
    split <;> rfl
  · have hcell : (b.orders.resize n ⟨0, 0, 0, false, 0, 0⟩).cell i = o := by
      rw [ho]
      simp only [Vec.resize, hi, true_and, order]
    simp only [order, Function.update_apply]
    split
    · rename_i e
      rw [e] at hcell
      rw [hcell]
    · rw [hcell]
  · simp only [slot, Vec.resize, hid, true_and]

theorem initialised_of_eq_ok {n : Nat} (h : b.init n = .ok b') : b.Initialised n b' := by
  have hn : 0 < n := by
    obtain ⟨orders, hc, _⟩ := bind_eq_ok.1 h
    unfold chain at hc
    split at hc
    · assumption
    · cases hc
  obtain ⟨b'', h', hi⟩ := init_of_pos (b := b) hn
  rw [h] at h'
  exact Except.ok.inj h' ▸ hi

/-! ### Quantities -/

/-- The map does not know an id, or leads from it to a slot. -/
theorem absent_or_known (b : Ladder) (id : Nat) :
    (b.idMap.size ≤ id ∨ b.slot id = NULL_IDX) ∨ id < b.idMap.size ∧ b.slot id ≠ NULL_IDX := by
  by_cases habs : b.idMap.size ≤ id ∨ b.slot id = NULL_IDX
  · exact Or.inl habs
  · obtain ⟨hid, hnull⟩ := not_or.1 habs
    exact Or.inr ⟨Nat.lt_of_not_le hid, hnull⟩

theorem getQuantity_absent (h : b.idMap.size ≤ id ∨ b.slot id = NULL_IDX) : b.getQuantity id = .ok 0 := by
  by_cases hid : b.idMap.size ≤ id
  · simp only [getQuantity, if_pos hid, pure_eq_ok]
  · simp only [getQuantity, if_neg hid, getSlot_of_lt (Nat.lt_of_not_le hid), ok_bind, if_pos (h.resolve_left hid),
      pure_eq_ok]

theorem getQuantity_of_lt (hid : id < b.idMap.size) (hslot : b.slot id = i) (hnull : i ≠ NULL_IDX)
    (hlt : i < b.orders.size) : b.getQuantity id = .ok (b.order i).qty := by
  subst hslot
  simp only [getQuantity, if_neg (Nat.not_le.2 hid), getSlot_of_lt hid, ok_bind, if_neg hnull, getOrder_of_lt hlt,
    pure_eq_ok]

theorem getQuantity_lt {qty : Nat} (hid : id < b.idMap.size) (hnull : b.slot id ≠ NULL_IDX)
    (h : b.getQuantity id = .ok qty) : b.slot id < b.orders.size ∧ (b.order (b.slot id)).qty = qty := by
  simp only [getQuantity, if_neg (Nat.not_le.2 hid), getSlot_of_lt hid, ok_bind, if_neg hnull] at h
  obtain ⟨o, ho, h⟩ := bind_eq_ok.1 h
  obtain ⟨hlt, rfl⟩ := getOrder_eq_ok.1 ho
  exact ⟨hlt, Except.ok.inj h⟩

/-! ### Slots -/

theorem release_of_lt (h : idx < b.orders.size) :
    b.release idx = .ok ((b.withOrder idx { b.order idx with next := b.nextFreeOrderIdx }).withFree idx) := by
  simp only [release, modifyOrder_of_lt h, ok_bind, pure_eq_ok]

theorem release_lt (h : b.release idx = .ok b') : idx < b.orders.size := by
  obtain ⟨_, h₁, _⟩ := bind_eq_ok.1 h
  exact (modifyOrder_eq_ok.1 h₁).1

/-- A new order in the first free slot. -/
def taken (b : Ladder) (id price qty : Nat) (isBuy : Bool) : Ladder :=
  ((b.withFree (b.order b.nextFreeOrderIdx).next).withOrder b.nextFreeOrderIdx
    ⟨id, price, qty, isBuy, NULL_IDX, NULL_IDX⟩).withSlot id b.nextFreeOrderIdx

theorem order_taken (hfree : b.nextFreeOrderIdx = i) (j : Nat) : (b.taken id price qty isBuy).order j =
    if j = i then ⟨id, price, qty, isBuy, NULL_IDX, NULL_IDX⟩ else b.order j := by
  simp only [taken, order_withSlot, order_withOrder, order_withFree, hfree]

theorem slot_taken (hfree : b.nextFreeOrderIdx = i) (id' : Nat) :
    (b.taken id price qty isBuy).slot id' = if id' = id then i else b.slot id' := by
  simp only [taken, slot_withSlot, slot_withOrder, slot_withFree, hfree]

theorem takeSlot_of_lt (hfree : b.nextFreeOrderIdx < b.orders.size) (hid : id < b.idMap.size) :
    b.takeSlot id price qty isBuy = .ok (b.taken id price qty isBuy) := by
  have hmod : ∀ f, (b.withFree (b.order b.nextFreeOrderIdx).next).modifyOrder b.nextFreeOrderIdx f = _ :=
    fun f => modifyOrder_of_lt hfree
  simp only [takeSlot, getOrder_of_lt hfree, ok_bind, hmod]
  exact setSlot_of_lt hid

theorem takeSlot_lt (h : b.takeSlot id price qty isBuy = .ok b') :
    b.nextFreeOrderIdx < b.orders.size ∧ id < b.idMap.size := by
  obtain ⟨_, h₁, h⟩ := bind_eq_ok.1 h
  obtain ⟨_, h₂, h⟩ := bind_eq_ok.1 h
  obtain ⟨_, rfl⟩ := modifyOrder_eq_ok.1 h₂
  exact ⟨(getOrder_eq_ok.1 h₁).1, (setSlot_eq_ok.1 h).1⟩

/-! ### Taking an order out of its level -/

/-- The book after `unlink`. -/
structure Unlinked (b : Ladder) (isBuy : Bool) (price i : Nat) (b' : Ladder) : Prop where
  level : ∀ s p, b'.level s p = if s = isBuy ∧ p = price then
      ⟨if (b.level isBuy price).head = i then (b.order i).next else (b.level isBuy price).head,
        if (b.level isBuy price).tail = i then (b.order i).prev else (b.level isBuy price).tail⟩
    else b.level s p
  order : ∀ j, b'.order j = { b.order j with
      next := if (b.order i).prev ≠ NULL_IDX ∧ j = (b.order i).prev then (b.order i).next else (b.order j).next
      prev := if (b.order i).next ≠ NULL_IDX ∧ j = (b.order i).next then (b.order i).prev else (b.order j).prev }
  idMap : b'.idMap = b.idMap
  free : b'.nextFreeOrderIdx = b.nextFreeOrderIdx
  size : b'.orders.size = b.orders.size

theorem Unlinked.slot (h : b.Unlinked isBuy price i b') (id : Nat) : b'.slot id = b.slot id := by
  simp only [Ladder.slot, h.idMap]

/-- A write to a neighbour that may be missing. -/
private theorem patch_of_fits {k : Nat} (f : Order → Order) (hk : b.Fits k) :
    ∃ b', b.patch k f = .ok b' ∧
      (∀ j, b'.order j = if k ≠ NULL_IDX ∧ j = k then f (b.order j) else b.order j) ∧
      b'.levels = b.levels ∧ b'.idMap = b.idMap ∧ b'.nextFreeOrderIdx = b.nextFreeOrderIdx ∧
      b'.orders.size = b.orders.size := by
  by_cases hnull : k = NULL_IDX
  · exact ⟨b, by simp [patch, hnull], fun j => by simp [hnull], rfl, rfl, rfl, rfl⟩
  · refine ⟨_, (if_pos hnull).trans (modifyOrder_of_lt (hk.resolve_left hnull)), fun j => ?_, rfl, rfl, rfl, rfl⟩
    by_cases hj : j = k <;> simp [hnull, hj]

private theorem patch_fits {k : Nat} {f : Order → Order} (h : b.patch k f = .ok b') :
    b.Fits k ∧ b'.orders.size = b.orders.size := by
  unfold patch at h
  split at h
  · obtain ⟨hlt, rfl⟩ := modifyOrder_eq_ok.1 h
    exact ⟨Or.inr hlt, rfl⟩
  · rename_i hnull
    cases h
    exact ⟨Or.inl (not_not.1 hnull), rfl⟩

theorem unlink_of_lt (hi : i < b.orders.size) (hp : price < MAX_PRICES) (hprev : b.Fits (b.order i).prev)
    (hnext : b.Fits (b.order i).next) : ∃ b', b.unlink isBuy price i = .ok b' ∧ b.Unlinked isBuy price i b' := by
  let level : PriceLevel := ⟨if (b.level isBuy price).head = i then (b.order i).next else (b.level isBuy price).head,
    if (b.level isBuy price).tail = i then (b.order i).prev else (b.level isBuy price).tail⟩
  obtain ⟨b₁, e₁, ho₁, hl₁, hm₁, hf₁, hs₁⟩ :=
    patch_of_fits (b := b.withLevel isBuy price level) (fun o => { o with next := (b.order i).next }) hprev
  have hnext₁ : b₁.Fits (b.order i).next := hnext.imp_right fun h => hs₁ ▸ h
  obtain ⟨b₂, e₂, ho₂, hl₂, hm₂, hf₂, hs₂⟩ :=
    patch_of_fits (fun o => { o with prev := (b.order i).prev }) hnext₁
  refine ⟨b₂, ?_, ?_, fun j => ?_, hm₂.trans hm₁, hf₂.trans hf₁, hs₂.trans hs₁⟩
  · simp only [unlink, getOrder_of_lt hi, getLevel_of_lt hp, setLevel_of_lt hp, ok_bind]
    exact bind_eq_ok.2 ⟨b₁, e₁, e₂⟩
  · intro s p
    have hlevel : b₂.level s p = (b.withLevel isBuy price level).level s p := by
      simp only [Ladder.level, hl₂, hl₁]
    rw [hlevel, level_withLevel]
  · rw [ho₂, ho₁, order_withLevel]
    split <;> split <;> simp_all

theorem unlink_lt (h : b.unlink isBuy price i = .ok b') :
    i < b.orders.size ∧ price < MAX_PRICES ∧ b.Fits (b.order i).prev ∧ b.Fits (b.order i).next := by
  obtain ⟨o, h₁, h⟩ := bind_eq_ok.1 h
  obtain ⟨hi, rfl⟩ := getOrder_eq_ok.1 h₁
  obtain ⟨lv, h₂, h⟩ := bind_eq_ok.1 h
  obtain ⟨hp, rfl⟩ := getLevel_eq_ok.1 h₂
  obtain ⟨b₁, h₃, h⟩ := bind_eq_ok.1 h
  obtain ⟨_, rfl⟩ := setLevel_eq_ok.1 h₃
  obtain ⟨b₂, h₄, h⟩ := bind_eq_ok.1 h
  obtain ⟨hprev, hs⟩ := patch_fits h₄
  obtain ⟨hnext, _⟩ := patch_fits h
  exact ⟨hi, hp, hprev, hnext.imp_right fun hlt => hs ▸ hlt⟩

theorem unlinked_of_eq_ok (h : b.unlink isBuy price i = .ok b') : b.Unlinked isBuy price i b' := by
  obtain ⟨hi, hp, hprev, hnext⟩ := unlink_lt h
  obtain ⟨b'', h', hu⟩ := unlink_of_lt hi hp hprev hnext
  rw [h] at h'
  exact Except.ok.inj h' ▸ hu

/-- Taking an order out fills no level. -/
theorem Unlinked.head_ne_null (h : b.Unlinked isBuy price i b') (hi : i ≠ NULL_IDX)
    (hhead : (b'.level isBuy price).head ≠ NULL_IDX) : (b.level isBuy price).head ≠ NULL_IDX := by
  intro hnull
  rw [h.level, if_pos ⟨rfl, rfl⟩] at hhead
  simp only [hnull, if_neg (Ne.symm hi)] at hhead
  exact hhead rfl

/-! ### Appending an order to a level -/

/-- The book after `linkTail`. -/
structure TailLinked (b : Ladder) (isBuy : Bool) (price idx : Nat) (b' : Ladder) : Prop where
  level : ∀ s p, b'.level s p = if s = isBuy ∧ p = price then ⟨(b.level isBuy price).head, idx⟩ else b.level s p
  order : ∀ j, b'.order j = { b.order j with
      next := if j = (b.level isBuy price).tail then idx else (b.order j).next
      prev := if j = idx then (b.level isBuy price).tail else (b.order j).prev }
  idMap : b'.idMap = b.idMap
  free : b'.nextFreeOrderIdx = b.nextFreeOrderIdx
  size : b'.orders.size = b.orders.size

theorem linkTail_eq (hi : idx < b.orders.size) (hp : price < MAX_PRICES)
    (ht : (b.level isBuy price).tail < b.orders.size) : b.linkTail isBuy price idx =
      .ok (((b.withOrder idx { b.order idx with prev := (b.level isBuy price).tail }).withOrder (b.level isBuy price).tail
        { (b.withOrder idx { b.order idx with prev := (b.level isBuy price).tail }).order (b.level isBuy price).tail with
          next := idx }).withLevel isBuy price ⟨(b.level isBuy price).head, idx⟩) := by
  have hmod : ∀ o f, (b.withOrder idx o).modifyOrder (b.level isBuy price).tail f = _ :=
    fun _ _ => modifyOrder_of_lt ht
  simp only [linkTail, getLevel_of_lt hp, modifyOrder_of_lt hi, hmod, ok_bind]
  exact setLevel_of_lt hp

theorem linkTail_of_lt (hi : idx < b.orders.size) (hp : price < MAX_PRICES)
    (ht : (b.level isBuy price).tail < b.orders.size) :
    ∃ b', b.linkTail isBuy price idx = .ok b' ∧ b.TailLinked isBuy price idx b' := by
  refine ⟨_, linkTail_eq hi hp ht, fun s p => by simp, fun j => ?_, rfl, rfl, rfl⟩
  rw [order_withLevel, order_withOrder, order_withOrder, order_withOrder]
  split <;> split <;> simp_all

theorem linkTail_lt (h : b.linkTail isBuy price idx = .ok b') :
    idx < b.orders.size ∧ price < MAX_PRICES ∧ (b.level isBuy price).tail < b.orders.size := by
  obtain ⟨lv, h₁, h⟩ := bind_eq_ok.1 h
  obtain ⟨hp, rfl⟩ := getLevel_eq_ok.1 h₁
  obtain ⟨b₁, h₂, h⟩ := bind_eq_ok.1 h
  obtain ⟨hi, rfl⟩ := modifyOrder_eq_ok.1 h₂
  obtain ⟨b₂, h₃, h⟩ := bind_eq_ok.1 h
  exact ⟨hi, hp, (modifyOrder_eq_ok.1 h₃).1⟩

theorem tailLinked_of_eq_ok (h : b.linkTail isBuy price idx = .ok b') : b.TailLinked isBuy price idx b' := by
  obtain ⟨hi, hp, ht⟩ := linkTail_lt h
  obtain ⟨b'', h', hl⟩ := linkTail_of_lt hi hp ht
  rw [h] at h'
  exact Except.ok.inj h' ▸ hl

/-- The book after an order was made the last of a level that may have been empty. -/
structure Appended (b : Ladder) (isBuy : Bool) (price idx : Nat) (b' : Ladder) : Prop where
  level : ∀ s p, b'.level s p = if s = isBuy ∧ p = price then
      ⟨if (b.level isBuy price).head = NULL_IDX then idx else (b.level isBuy price).head, idx⟩
    else b.level s p
  order : ∀ j, b'.order j = { b.order j with
      next := if (b.level isBuy price).head ≠ NULL_IDX ∧ j = (b.level isBuy price).tail then idx
        else (b.order j).next
      prev := if j = idx then
          if (b.level isBuy price).head = NULL_IDX then NULL_IDX else (b.level isBuy price).tail
        else (b.order j).prev }
  idMap : b'.idMap = b.idMap
  free : b'.nextFreeOrderIdx = b.nextFreeOrderIdx
  size : b'.orders.size = b.orders.size

theorem Appended.slot (h : b.Appended isBuy price i b') (id : Nat) : b'.slot id = b.slot id := by
  simp only [Ladder.slot, h.idMap]

/-- The entries after a new order has become the last one of a level. -/
theorem slot_appended (hfree : b.nextFreeOrderIdx = i) (ha : (b.taken id price qty isBuy).Appended isBuy price i b')
    (id' : Nat) : b'.slot id' = if id' = id then i else b.slot id' := by
  rw [ha.slot, slot_taken hfree]

theorem TailLinked.appended (h : b.TailLinked isBuy price idx b')
    (hhead : (b.level isBuy price).head ≠ NULL_IDX) : b.Appended isBuy price idx b' where
  level s p := by rw [h.level, if_neg hhead]
  order j := by rw [h.order]; simp only [hhead, ne_eq, not_false_eq_true, true_and, if_false]
  idMap := h.idMap
  free := h.free
  size := h.size

/-- A level is started with an order without a predecessor. -/
theorem appended_withLevel (hhead : (b.level isBuy price).head = NULL_IDX) (hprev : (b.order idx).prev = NULL_IDX) :
    b.Appended isBuy price idx (b.withLevel isBuy price ⟨idx, idx⟩) where
  level s p := by rw [level_withLevel, if_pos hhead]
  order j := by
    rw [order_withLevel]
    by_cases hj : j = idx
    · simp only [hj, hhead, ne_eq, not_true_eq_false, false_and, if_false, if_true, ← hprev]
    · simp [hhead, hj]
  idMap := rfl
  free := rfl
  size := rfl

theorem relink_of_lt (hi : idx < b.orders.size) (hp : price < MAX_PRICES)
    (ht : (b.level isBuy price).head ≠ NULL_IDX → (b.level isBuy price).tail < b.orders.size) :
    ∃ b', b.relink isBuy price idx = .ok b' ∧ b.Appended isBuy price idx b' := by
  by_cases hhead : (b.level isBuy price).head = NULL_IDX
  · refine ⟨_, by
      simp only [relink, getLevel_of_lt hp, ok_bind, if_pos hhead, setLevel_of_lt hp]
      exact modifyOrder_of_lt hi, ?_⟩
    refine ⟨fun s p => by simp [hhead], fun j => ?_, rfl, rfl, rfl⟩
    by_cases hj : j = idx <;> simp [hhead, hj]
  · obtain ⟨b', e, hl⟩ := linkTail_of_lt hi hp (ht hhead)
    exact ⟨b', by simp only [relink, getLevel_of_lt hp, ok_bind, if_neg hhead, e], hl.appended hhead⟩

theorem relink_lt (h : b.relink isBuy price idx = .ok b') : idx < b.orders.size ∧ price < MAX_PRICES ∧
    ((b.level isBuy price).head ≠ NULL_IDX → (b.level isBuy price).tail < b.orders.size) := by
  obtain ⟨lv, h₁, h⟩ := bind_eq_ok.1 h
  obtain ⟨hp, rfl⟩ := getLevel_eq_ok.1 h₁
  split at h
  · rename_i hhead
    obtain ⟨b₁, h₂, h⟩ := bind_eq_ok.1 h
    obtain ⟨_, rfl⟩ := setLevel_eq_ok.1 h₂
    exact ⟨(modifyOrder_eq_ok.1 h).1, hp, fun hne => absurd hhead hne⟩
  · obtain ⟨hi, _, ht⟩ := linkTail_lt h
    exact ⟨hi, hp, fun _ => ht⟩

theorem appended_of_eq_ok (h : b.relink isBuy price idx = .ok b') : b.Appended isBuy price idx b' := by
  obtain ⟨hi, hp, ht⟩ := relink_lt h
  obtain ⟨b'', h', ha⟩ := relink_of_lt hi hp ht
  rw [h] at h'
  exact Except.ok.inj h' ▸ ha

/-! ### Filling the orders of a level -/

/-- The first order of a level is filled: its slot is free, and its id is not in the map any more. -/
def popped (b : Ladder) (isBuy : Bool) (price : Nat) : Ladder :=
  let level := b.level isBuy price
  let resting := b.order level.head
  (((b.withOrder level.head { resting with qty := 0, next := b.nextFreeOrderIdx }).withSlot resting.id
    NULL_IDX).withLevel isBuy price
      ⟨resting.next, if resting.next = NULL_IDX then NULL_IDX else level.tail⟩).withFree level.head

/-- The first order of a level is filled in part. -/
def reduced (b : Ladder) (isBuy : Bool) (price qty : Nat) : Ladder :=
  let resting := b.order (b.level isBuy price).head
  b.withOrder (b.level isBuy price).head { resting with qty := resting.qty - qty }

theorem order_popped (hhead : (b.level isBuy price).head = i) {j : Nat} (hj : j ≠ i) :
    (b.popped isBuy price).order j = b.order j := by
  simp only [popped, order_withFree, order_withLevel, order_withSlot, order_withOrder, hhead, if_neg hj]

theorem order_popped_self (hhead : (b.level isBuy price).head = i) :
    (b.popped isBuy price).order i = { b.order i with qty := 0, next := b.nextFreeOrderIdx } := by
  simp only [popped, order_withFree, order_withLevel, order_withSlot, order_withOrder, hhead, if_true]

theorem slot_popped (hhead : (b.level isBuy price).head = i) (id : Nat) :
    (b.popped isBuy price).slot id = if id = (b.order i).id then NULL_IDX else b.slot id := by
  simp only [popped, slot_withFree, slot_withLevel, slot_withSlot, slot_withOrder, hhead]

theorem order_reduced (hhead : (b.level isBuy price).head = i) (j : Nat) : (b.reduced isBuy price qty).order j =
    if j = i then { b.order i with qty := (b.order i).qty - qty } else b.order j := by
  simp only [reduced, order_withOrder, hhead]

theorem fillRound_idle (hp : price < MAX_PRICES) (h : (b.level isBuy price).head = NULL_IDX ∨ qty = 0) :
    fillRound isBuy price (b, qty) = .ok (.done (b, qty)) := by
  have hcond : ¬ ((b.level isBuy price).head ≠ NULL_IDX ∧ 0 < qty) := by
    rintro ⟨h₁, h₂⟩
    rcases h with h | h
    · exact h₁ h
    · omega
  simp only [fillRound, getLevel_of_lt hp, ok_bind, if_neg hcond, pure_eq_ok]

theorem fillRound_part (hp : price < MAX_PRICES) (hhead : (b.level isBuy price).head ≠ NULL_IDX)
    (hlt : (b.level isBuy price).head < b.orders.size) (hqty : 0 < qty)
    (h : qty < (b.order (b.level isBuy price).head).qty) :
    fillRound isBuy price (b, qty) = .ok (.done (b.reduced isBuy price qty, 0)) := by
  have hmin : min qty (b.order (b.level isBuy price).head).qty = qty := Nat.min_eq_left (Nat.le_of_lt h)
  have hrest : ¬ (b.order (b.level isBuy price).head).qty - qty = 0 := by omega
  simp only [fillRound, getLevel_of_lt hp, getOrder_of_lt hlt, modifyOrder_of_lt hlt, ok_bind, hmin,
    if_pos (And.intro hhead hqty), if_neg hrest, pure_eq_ok, Nat.sub_self, reduced]

theorem fillRound_full (hp : price < MAX_PRICES) (hhead : (b.level isBuy price).head ≠ NULL_IDX)
    (hlt : (b.level isBuy price).head < b.orders.size)
    (hid : (b.order (b.level isBuy price).head).id < b.idMap.size) (hqty : 0 < qty)
    (h : (b.order (b.level isBuy price).head).qty ≤ qty) :
    fillRound isBuy price (b, qty) =
      .ok (.again (b.popped isBuy price, qty - (b.order (b.level isBuy price).head).qty)) := by
  have hmin : min qty (b.order (b.level isBuy price).head).qty = (b.order (b.level isBuy price).head).qty :=
    Nat.min_eq_right h
  simp only [fillRound, getLevel_of_lt hp, getOrder_of_lt hlt, modifyOrder_of_lt hlt, ok_bind, hmin,
    if_pos (And.intro hhead hqty), Nat.sub_self, if_true]
  rw [setSlot_of_lt (b := b.withOrder _ _) hid]
  simp only [ok_bind]
  rw [setLevel_of_lt hp]
  simp only [ok_bind]
  rw [release_of_lt (by exact hlt)]
  simp only [ok_bind, pure_eq_ok, popped, withOrder, withSlot, withLevel, withFree, order, Function.update_self,
    Function.update_idem]

/-- What a round of the inner loop does. -/
theorem fillRound_cases {flow : Flow (Ladder × Nat) (Ladder × Nat)}
    (h : fillRound isBuy price (b, qty) = .ok flow) :
    price < MAX_PRICES ∧
      (((b.level isBuy price).head = NULL_IDX ∨ qty = 0) ∧ flow = .done (b, qty) ∨
        (b.level isBuy price).head ≠ NULL_IDX ∧ (b.level isBuy price).head < b.orders.size ∧ 0 < qty ∧
          (qty < (b.order (b.level isBuy price).head).qty ∧ flow = .done (b.reduced isBuy price qty, 0) ∨
            (b.order (b.level isBuy price).head).qty ≤ qty ∧
              (b.order (b.level isBuy price).head).id < b.idMap.size ∧
              flow = .again (b.popped isBuy price, qty - (b.order (b.level isBuy price).head).qty))) := by
  have hp : price < MAX_PRICES := by
    obtain ⟨lv, h₁, _⟩ := bind_eq_ok.1 h
    exact (getLevel_eq_ok.1 h₁).1
  refine ⟨hp, ?_⟩
  by_cases hidle : (b.level isBuy price).head = NULL_IDX ∨ qty = 0
  · rw [fillRound_idle hp hidle] at h
    exact Or.inl ⟨hidle, (Except.ok.inj h).symm⟩
  · obtain ⟨hhead, hqty⟩ := not_or.1 hidle
    have hqty := Nat.pos_of_ne_zero hqty
    have hlt : (b.level isBuy price).head < b.orders.size := by
      simp only [fillRound, getLevel_of_lt hp, ok_bind, if_pos (And.intro hhead hqty)] at h
      obtain ⟨o, h₁, _⟩ := bind_eq_ok.1 h
      exact (getOrder_eq_ok.1 h₁).1
    refine Or.inr ⟨hhead, hlt, hqty, ?_⟩
    rcases Nat.lt_or_ge qty (b.order (b.level isBuy price).head).qty with hless | hge
    · rw [fillRound_part hp hhead hlt hqty hless] at h
      exact Or.inl ⟨hless, (Except.ok.inj h).symm⟩
    · have hid : (b.order (b.level isBuy price).head).id < b.idMap.size := by
        simp only [fillRound, getLevel_of_lt hp, getOrder_of_lt hlt, modifyOrder_of_lt hlt, ok_bind,
          if_pos (And.intro hhead hqty), Nat.min_eq_right hge, Nat.sub_self, if_true] at h
        obtain ⟨_, h₁, _⟩ := bind_eq_ok.1 h
        exact (setSlot_eq_ok.1 h₁).1
      rw [fillRound_full hp hhead hlt hid hqty hge] at h
      exact Or.inr ⟨hge, hid, (Except.ok.inj h).symm⟩

/-- What filling orders of a level leaves alone. -/
structure Filled (isBuy : Bool) (price : Nat) (b b' : Ladder) : Prop where
  level : ∀ s p, ¬ (s = isBuy ∧ p = price) → b'.level s p = b.level s p
  head : (b'.level isBuy price).head ≠ NULL_IDX → (b.level isBuy price).head ≠ NULL_IDX
  size : b'.orders.size = b.orders.size
  map_size : b'.idMap.size = b.idMap.size

theorem Filled.refl : Filled isBuy price b b := ⟨fun _ _ _ => rfl, id, rfl, rfl⟩

theorem Filled.trans {b'' : Ladder} (h : Filled isBuy price b b') (h' : Filled isBuy price b' b'') :
    Filled isBuy price b b'' where
  level s p hne := (h'.level s p hne).trans (h.level s p hne)
  head hhead := h.head (h'.head hhead)
  size := h'.size.trans h.size
  map_size := h'.map_size.trans h.map_size

theorem filled_popped (hhead : (b.level isBuy price).head ≠ NULL_IDX) :
    Filled isBuy price b (b.popped isBuy price) where
  level s p hne := by simp [popped, hne]
  head _ := hhead
  size := rfl
  map_size := rfl

theorem filled_reduced : Filled isBuy price b (b.reduced isBuy price qty) where
  level _ _ _ := rfl
  head hhead := hhead
  size := rfl
  map_size := rfl

/-- The inner loop stays at its level, and ends with the level empty or nothing left to fill. -/
theorem fillLevel_filled {fuel qty' : Nat} (h : b.fillLevel fuel isBuy price qty = .ok (b', qty')) :
    Filled isBuy price b b' ∧ ((b'.level isBuy price).head = NULL_IDX ∨ qty' = 0) := by
  have hloop : Sat (fun _ => True) (b.fillLevel fuel isBuy price qty)
      fun r => Filled isBuy price b r.1 ∧ ((r.1.level isBuy price).head = NULL_IDX ∨ r.2 = 0) := by
    refine Sat.loop (I := fun s => Filled isBuy price b s.1) trivial (fun s hs => ?_) fuel Filled.refl
    refine sat_true_iff.2 fun flow hflow => ?_
    obtain ⟨_, ⟨hidle, rfl⟩ | ⟨hhead, _, _, ⟨_, rfl⟩ | ⟨_, _, rfl⟩⟩⟩ := fillRound_cases hflow
    · exact ⟨hs, hidle⟩
    · exact ⟨hs.trans filled_reduced, Or.inr rfl⟩
    · exact hs.trans (filled_popped hhead)
  exact hloop.of_ok h

end Ladder

end Lobook
