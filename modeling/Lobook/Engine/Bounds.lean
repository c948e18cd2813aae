import Lobook.Book.Replace
import Lobook.Book.Uncrossed
import Lobook.Engine.MatchingEngine

/-!
# Which accesses are within bounds

`InRange` says that every index the book has stored is null or valid: links, map entries, heads, tails, and the ids in
the slots.  Every completed event keeps it.  So the only accesses that can miss their array are the ones that go by an
argument of the event or by a stored price: `InBounds` lists them, and an event meets it exactly if it never indexes
out of range (`events_in_bounds`).
-/

namespace Lobook

open Checked Transition

/-- The failures other than an index outside its array. -/
def NoOverrun (e : Stop) : Prop := e ≠ .outOfRange

theorem Sat.ne_outOfRange {α : Type} {m : Exec α} {Q : α → Prop} (h : Sat NoOverrun m Q) :
    m ≠ .error .outOfRange := fun e => h.of_error e rfl

namespace Ladder

/-- Every stored index is null or valid. -/
structure InRange (b : Ladder) : Prop where
  next : ∀ i, i < b.orders.size → b.Fits (b.order i).next
  prev : ∀ i, i < b.orders.size → b.Fits (b.order i).prev
  id : ∀ i, i < b.orders.size → (b.order i).id < b.idMap.size
  slot : ∀ id, id < b.idMap.size → b.Fits (b.slot id)
  free : b.Fits b.nextFreeOrderIdx
  head : ∀ s p, p < MAX_PRICES → b.Fits (b.level s p).head
  tail : ∀ s p, p < MAX_PRICES → b.Fits (b.level s p).tail

section InRange

variable {b b' : Ladder} {isBuy : Bool} {price i id qty : Nat}

theorem fits_null : b.Fits NULL_IDX := Or.inl rfl

theorem fits_of_lt (h : i < b.orders.size) : b.Fits i := Or.inr h

theorem fits_congr (h : b'.orders.size = b.orders.size) (i : Nat) : b'.Fits i ↔ b.Fits i := by
  simp only [Fits, h]

theorem fits_ite {c : Prop} [Decidable c] {x y : Nat} (hx : b.Fits x) (hy : b.Fits y) :
    b.Fits (if c then x else y) := by
  split
  · exact hx
  · exact hy

theorem InRange.withOrder (h : b.InRange) {o : Order} (hn : b.Fits o.next) (hp : b.Fits o.prev)
    (hid : o.id < b.idMap.size) : (b.withOrder i o).InRange where
  next j hj := by rw [order_withOrder]; split <;> [exact hn; exact h.next j hj]
  prev j hj := by rw [order_withOrder]; split <;> [exact hp; exact h.prev j hj]
  id j hj := by rw [order_withOrder]; split <;> [exact hid; exact h.id j hj]
  slot := h.slot
  free := h.free
  head := h.head
  tail := h.tail

theorem InRange.withLevel (h : b.InRange) {l : PriceLevel} (hh : b.Fits l.head) (ht : b.Fits l.tail) :
    (b.withLevel isBuy price l).InRange where
  next := h.next
  prev := h.prev
  id := h.id
  slot := h.slot
  free := h.free
  head s p hp := by rw [level_withLevel]; split <;> [exact hh; exact h.head s p hp]
  tail s p hp := by rw [level_withLevel]; split <;> [exact ht; exact h.tail s p hp]

theorem InRange.withSlot (h : b.InRange) (hi : b.Fits i) : (b.withSlot id i).InRange where
  next := h.next
  prev := h.prev
  id := h.id
  slot id' hid := by rw [slot_withSlot]; split <;> [exact hi; exact h.slot id' hid]
  free := h.free
  head := h.head
  tail := h.tail

theorem InRange.withFree (h : b.InRange) (hi : b.Fits i) : (b.withFree i).InRange where
  next := h.next
  prev := h.prev
  id := h.id
  slot := h.slot
  free := hi
  head := h.head
  tail := h.tail

/-- A slot that an index of the book names. -/
theorem Fits.lt (h : b.Fits i) (hi : i ≠ NULL_IDX) : i < b.orders.size := h.resolve_left hi

theorem InRange.taken (h : b.InRange) (hfree : b.nextFreeOrderIdx < b.orders.size) (hid : id < b.idMap.size) :
    (b.taken id price qty isBuy).InRange := by
  have h₁ := h.withFree (h.next _ hfree)
  have h₂ : ((b.withFree (b.order b.nextFreeOrderIdx).next).withOrder b.nextFreeOrderIdx
      ⟨id, price, qty, isBuy, NULL_IDX, NULL_IDX⟩).InRange := h₁.withOrder fits_null fits_null hid
  exact h₂.withSlot (fits_of_lt hfree)

/-- A block that only changes links. -/
theorem InRange.links (h : b.InRange) (hsize : b'.orders.size = b.orders.size) (hmap : b'.idMap = b.idMap)
    (hfree : b'.nextFreeOrderIdx = b.nextFreeOrderIdx)
    (horder : ∀ j, j < b.orders.size → b.Fits (b'.order j).next ∧ b.Fits (b'.order j).prev ∧
      (b'.order j).id = (b.order j).id)
    (hlevel : ∀ s p, p < MAX_PRICES → b.Fits (b'.level s p).head ∧ b.Fits (b'.level s p).tail) : b'.InRange where
  next j hj := (fits_congr hsize _).2 (horder j (hsize ▸ hj)).1
  prev j hj := (fits_congr hsize _).2 (horder j (hsize ▸ hj)).2.1
  id j hj := by
    rw [(horder j (hsize ▸ hj)).2.2, hmap]
    exact h.id j (hsize ▸ hj)
  slot id hid := by
    rw [fits_congr hsize, Ladder.slot, hmap]
    exact h.slot id (hmap ▸ hid)
  free := by
    rw [fits_congr hsize, hfree]
    exact h.free
  head s p hp := (fits_congr hsize _).2 (hlevel s p hp).1
  tail s p hp := (fits_congr hsize _).2 (hlevel s p hp).2

theorem InRange.unlinked (h : b.InRange) (hi : i < b.orders.size) (hu : b.Unlinked isBuy price i b') :
    b'.InRange := by
  refine h.links hu.size hu.idMap hu.free (fun j hj => ?_) fun s p hp => ?_
  · rw [hu.order]
    exact ⟨fits_ite (h.next i hi) (h.next j hj), fits_ite (h.prev i hi) (h.prev j hj), rfl⟩
  · rw [hu.level]
    split
    · rename_i hsp
      rw [hsp.2] at hp
      exact ⟨fits_ite (h.next i hi) (h.head _ _ hp), fits_ite (h.prev i hi) (h.tail _ _ hp)⟩
    · exact ⟨h.head s p hp, h.tail s p hp⟩

theorem InRange.appended (h : b.InRange) (hi : i < b.orders.size) (hp : price < MAX_PRICES)
    (ha : b.Appended isBuy price i b') : b'.InRange := by
  refine h.links ha.size ha.idMap ha.free (fun j hj => ?_) fun s p hp' => ?_
  · rw [ha.order]
    exact ⟨fits_ite (fits_of_lt hi) (h.next j hj), fits_ite (fits_ite fits_null (h.tail _ _ hp)) (h.prev j hj), rfl⟩
  · rw [ha.level]
    split
    · exact ⟨fits_ite (fits_of_lt hi) (h.head _ _ hp), fits_of_lt hi⟩
    · exact ⟨h.head s p hp', h.tail s p hp'⟩

theorem InRange.tailLinked (h : b.InRange) (hi : i < b.orders.size) (hp : price < MAX_PRICES)
    (hl : b.TailLinked isBuy price i b') : b'.InRange := by
  refine h.links hl.size hl.idMap hl.free (fun j hj => ?_) fun s p hp' => ?_
  · rw [hl.order]
    exact ⟨fits_ite (fits_of_lt hi) (h.next j hj), fits_ite (h.tail _ _ hp) (h.prev j hj), rfl⟩
  · rw [hl.level]
    split
    · exact ⟨h.head _ _ hp, fits_of_lt hi⟩
    · exact ⟨h.head s p hp', h.tail s p hp'⟩

/-- Only the links and the quantity of an order change. -/
theorem InRange.modify (h : b.InRange) (hi : i < b.orders.size) {o : Order} (hn : b.Fits o.next) (hp : b.Fits o.prev)
    (hid : o.id = (b.order i).id) : (b.withOrder i o).InRange :=
  h.withOrder hn hp (hid ▸ h.id i hi)

/-! ### Accesses that miss their array -/

theorem getLevel_overrun (h : MAX_PRICES ≤ price) : b.getLevel isBuy price = .error .outOfRange :=
  if_neg (Nat.not_lt.2 h)

theorem modifyOrder_overrun {f : Order → Order} (h : b.orders.size ≤ i) : b.modifyOrder i f = .error .outOfRange := by
  simp only [modifyOrder, Vec.modify, if_neg (Nat.not_lt.2 h), error_bind]

theorem setSlot_overrun (h : b.idMap.size ≤ id) : b.setSlot id i = .error .outOfRange := by
  simp only [setSlot, Vec.set, if_neg (Nat.not_lt.2 h), error_bind]

theorem linkTail_overrun (hi : i < b.orders.size) (hp : price < MAX_PRICES)
    (ht : ¬ (b.level isBuy price).tail < b.orders.size) : b.linkTail isBuy price i = .error .outOfRange := by
  have hmod : ∀ o f, (b.withOrder i o).modifyOrder (b.level isBuy price).tail f = .error .outOfRange :=
    fun _ _ => modifyOrder_overrun (Nat.le_of_not_lt ht)
  simp only [linkTail, getLevel_of_lt hp, modifyOrder_of_lt hi, ok_bind, hmod, error_bind]

/-- The last slot of a level that is not empty exists. -/
def TailValid (b : Ladder) (isBuy : Bool) (price : Nat) : Prop :=
  (b.level isBuy price).head ≠ NULL_IDX → (b.level isBuy price).tail < b.orders.size

theorem relink_overrun (hi : i < b.orders.size) (h : ¬ (price < MAX_PRICES ∧ b.TailValid isBuy price)) :
    b.relink isBuy price i = .error .outOfRange := by
  by_cases hp : price < MAX_PRICES
  · obtain ⟨hhead, ht⟩ := Classical.not_imp.1 fun ht : b.TailValid isBuy price => h ⟨hp, ht⟩
    simp only [relink, getLevel_of_lt hp, ok_bind, if_neg hhead, linkTail_overrun hi hp ht]
  · simp only [relink, getLevel_overrun (Nat.le_of_not_lt hp), error_bind]

/-! ### Matching -/

theorem InRange.popped (h : b.InRange) (hp : price < MAX_PRICES) (hi : (b.level isBuy price).head < b.orders.size) :
    (b.popped isBuy price).InRange := by
  have h₁ : (b.withOrder (b.level isBuy price).head
      { b.order (b.level isBuy price).head with qty := 0, next := b.nextFreeOrderIdx }).InRange :=
    h.modify hi h.free (h.prev _ hi) rfl
  refine ((h₁.withSlot fits_null).withLevel ?_ ?_).withFree (fits_of_lt hi)
  · exact h.next _ hi
  · exact fits_ite fits_null (h.tail _ _ hp)

theorem InRange.reduced (h : b.InRange) (hi : (b.level isBuy price).head < b.orders.size) :
    (b.reduced isBuy price qty).InRange :=
  h.modify hi (h.next _ hi) (h.prev _ hi) rfl

/-- The inner loop never indexes out of range. -/
theorem InRange.fillLevel (h : b.InRange) (hp : price < MAX_PRICES) (fuel : Nat) :
    Sat NoOverrun (b.fillLevel fuel isBuy price qty) fun r => r.1.InRange := by
  refine Sat.loop (I := fun r => r.1.InRange) (by intro e; cases e) (fun r hr => ?_) fuel h
  obtain ⟨b, qty⟩ := r
  have hr : b.InRange := hr
  by_cases hidle : (b.level isBuy price).head = NULL_IDX ∨ qty = 0
  · exact Sat.ok_of (fillRound_idle hp hidle) hr
  · obtain ⟨hhead, hqty⟩ := not_or.1 hidle
    have hqty := Nat.pos_of_ne_zero hqty
    have hi := (hr.head isBuy price hp).lt hhead
    rcases Nat.lt_or_ge qty (b.order (b.level isBuy price).head).qty with hless | hge
    · exact Sat.ok_of (fillRound_part hp hhead hi hqty hless) (hr.reduced hi)
    · exact Sat.ok_of (fillRound_full hp hhead hi (hr.id _ hi) hqty hge) (hr.popped hp hi)

end InRange

end Ladder

/-! ### Adding and cancelling -/

namespace FastOrderBook

open Ladder

variable {b b' : FastOrderBook} {id price qty : Nat} {isBuy : Bool}

theorem addOrder_inRange (h : b.InRange) (he : addOrder b id price qty isBuy = .ok b') : b'.InRange := by
  rcases addOrder_cases he with ⟨_, rfl⟩ | ⟨_, hfree, hid, ⟨_, rfl⟩ | ⟨hp, _, ha⟩⟩
  · exact h
  · exact h.taken hfree hid
  · exact (h.taken hfree hid).appended hfree hp ha

/-- `add_order` stays within bounds exactly if a slot that is taken gets an id that the map has, and is appended to a
level whose last slot exists. -/
theorem addOrder_overruns_iff (h : b.InRange) :
    addOrder b id price qty isBuy ≠ .error .outOfRange ↔
      (b.nextFreeOrderIdx ≠ NULL_IDX → id < b.idMap.size ∧ (price < MAX_PRICES → b.TailValid isBuy price)) := by
  by_cases hnull : b.nextFreeOrderIdx = NULL_IDX
  · rw [addOrder_full hnull]
    exact iff_of_true (by intro e; cases e) fun hne => absurd hnull hne
  · have hfree := h.free.lt hnull
    by_cases hid : id < b.idMap.size
    · rcases Nat.lt_or_ge price MAX_PRICES with hp | hp
      · by_cases ht : b.TailValid isBuy price
        · obtain ⟨b', e, _⟩ := addOrder_of_lt hnull hfree hid hp ht
          rw [e]
          exact iff_of_true (by intro e; cases e) fun _ => ⟨hid, fun _ => ht⟩
        · refine iff_of_false ?_ fun hall => ht ((hall hnull).2 hp)
          obtain ⟨hhead, hge⟩ := Classical.not_imp.1 ht
          have hhead' : ¬ ((b.taken id price qty isBuy).level isBuy price).head = NULL_IDX := hhead
          have e : (b.taken id price qty isBuy).linkTail isBuy price b.nextFreeOrderIdx = .error .outOfRange :=
            linkTail_overrun hfree hp hge
          simp only [addOrder, if_neg hnull, takeSlot_of_lt hfree hid, ok_bind, if_neg (Nat.not_le.2 hp),
            getLevel_of_lt hp, if_neg hhead', e]
          exact fun hne => hne rfl
      · rw [addOrder_far hnull hfree hid hp]
        exact iff_of_true (by intro e; cases e) fun _ => ⟨hid, fun hlt => absurd hlt (Nat.not_lt.2 hp)⟩
    · refine iff_of_false ?_ fun hall => hid (hall hnull).1
      have hmod : ∀ f, (b.withFree (b.order b.nextFreeOrderIdx).next).modifyOrder b.nextFreeOrderIdx f = _ :=
        fun _ => modifyOrder_of_lt hfree
      simp only [addOrder, if_neg hnull, takeSlot, getOrder_of_lt hfree, ok_bind, hmod]
      rw [setSlot_overrun (by exact Nat.le_of_not_lt hid)]
      exact fun hne => hne rfl

theorem cancelOrder_inRange (h : b.InRange) (he : cancelOrder b id = .ok b') : b'.InRange := by
  rcases cancelOrder_cases he with ⟨_, rfl⟩ | ⟨_, _, hi, _, b₁, hu, rfl⟩
  · exact h
  · have h₁ := h.unlinked hi hu
    have hi₁ : b.slot id < b₁.orders.size := hu.size.symm ▸ hi
    have h₂ : (b₁.withOrder (b.slot id)
        { b₁.order (b.slot id) with prev := NULL_IDX, next := b₁.nextFreeOrderIdx }).InRange :=
      h₁.modify hi₁ h₁.free fits_null rfl
    exact (h₂.withFree (fits_of_lt hi₁)).withSlot fits_null

/-- `cancel_order` stays within bounds exactly if the price of the order that the map names lies in the ladder. -/
theorem cancelOrder_overruns_iff (h : b.InRange) :
    cancelOrder b id ≠ .error .outOfRange ↔
      (id < b.idMap.size → b.slot id ≠ NULL_IDX → (b.order (b.slot id)).price < MAX_PRICES) := by
  rcases Ladder.absent_or_known b id with habs | ⟨hid, hnull⟩
  · rw [cancelOrder_absent habs]
    refine iff_of_true (by intro e; cases e) fun hid hnull => ?_
    rcases habs with habs | habs
    · omega
    · exact absurd habs hnull
  · have hi := (h.slot id hid).lt hnull
    by_cases hp : (b.order (b.slot id)).price < MAX_PRICES
    · obtain ⟨b₁, _, e⟩ := cancelOrder_of_lt hid hnull hi hp (h.prev _ hi) (h.next _ hi)
      rw [e]
      exact iff_of_true (by intro e; cases e) fun _ _ => hp
    · refine iff_of_false ?_ fun hall => hp (hall hid hnull)
      simp only [cancelOrder, if_neg (Nat.not_le.2 hid), getSlot_of_lt hid, ok_bind, if_neg hnull,
        getOrder_of_lt hi, unlink, getLevel_overrun (Nat.le_of_not_lt hp), error_bind]
      exact fun hne => hne rfl

end FastOrderBook

namespace FastBitsetOrderBook

open Ladder

variable {b b' : FastBitsetOrderBook} {id price qty : Nat} {isBuy : Bool}

theorem Agrees.ne_error_iff {X : Prop} {m : Exec Ladder} {m' : Exec FastBitsetOrderBook} (h : Agrees X m m')
    (e : Stop) : m' ≠ .error e ↔ m ≠ .error e := by
  cases m with
  | error e' =>
    obtain rfl : m' = .error e' := h
    simp
  | ok l =>
    obtain ⟨b, rfl, _⟩ := h
    simp

/-- `match` never indexes out of range, and leaves the levels of its own side alone. -/
theorem matchOrder_inRange (hc : b.Covered) (h : b.InRange) (fuel limit qty : Nat) (isBuy : Bool) :
    Sat NoOverrun (b.matchOrder fuel limit qty isBuy) fun r => r.1.Covered ∧ r.1.InRange ∧
      r.1.orders.size = b.orders.size ∧ r.1.idMap.size = b.idMap.size ∧
      ∀ p, r.1.level isBuy p = b.level isBuy p := by
  have hne : ¬ isBuy = !isBuy := by cases isBuy <;> decide
  refine Sat.loop (I := fun r => r.1.Covered ∧ r.1.InRange ∧ r.1.orders.size = b.orders.size ∧
    r.1.idMap.size = b.idMap.size ∧ ∀ p, r.1.level isBuy p = b.level isBuy p) (by intro e; cases e)
    (fun r hr => ?_) fuel ⟨hc, h, rfl, rfl, fun _ => rfl⟩
  obtain ⟨b₁, qty₁⟩ := r
  obtain ⟨⟨S, ht⟩, h₁, hs, hm, hl⟩ := hr
  rcases ht.matchRound isBuy limit qty₁ fuel with ⟨e, _⟩ | ⟨p, _, hp, _, _, ⟨err, hf, e⟩ | ⟨l, _, b₂, hf, e, hb₂⟩⟩
  · exact Sat.ok_of e ⟨⟨S, ht⟩, h₁, hs, hm, hl⟩
  · rw [e]
    exact (h₁.fillLevel (ht.lt hp) fuel).of_error hf
  · obtain ⟨rfl, _⟩ := id hb₂
    have hfill := (fillLevel_filled hf).1
    refine Sat.ok_of e ⟨hb₂.covered, (h₁.fillLevel (ht.lt hp) fuel).of_ok hf, hfill.size.trans hs,
      hfill.map_size.trans hm, fun q => (hfill.level isBuy q fun e => hne e.1).trans (hl q)⟩

/-! ### Requests -/

/-- The indices that a request takes from its arguments and from the order it names are within bounds. -/
def InBounds (b : FastBitsetOrderBook) : Request → Prop
  | .call (.submit id price qty isBuy) =>
    -- a remainder that finds a free slot needs an entry of the map, and the last slot of its level
    ∀ fuel b₁ rest, b.matchOrder fuel price qty isBuy = .ok (b₁, rest) → 0 < rest →
      b₁.nextFreeOrderIdx ≠ NULL_IDX → id < b.idMap.size ∧ (price < MAX_PRICES → b.TailValid isBuy price)
  | .call (.cancel id) => id < b.idMap.size → b.slot id ≠ NULL_IDX → (b.order (b.slot id)).price < MAX_PRICES
  | .replace id newPrice newQty =>
    let i := b.slot id
    let o := b.order i
    let level := b.level o.isBuy o.price
    id < b.idMap.size → i ≠ NULL_IDX → o.price < MAX_PRICES ∧
      (o.price ≠ newPrice → newPrice < MAX_PRICES ∧ b.TailValid o.isBuy newPrice) ∧
      -- the last slot of the level once the order has left it
      (o.price = newPrice → o.qty < newQty → ¬ (level.head = i ∧ level.tail = i) →
        (if level.tail = i then o.prev else level.tail) < b.orders.size)

theorem submitOrder_overruns_iff (hc : b.Covered) (h : b.InRange) :
    (∀ fuel, b.submitOrder fuel id price qty isBuy ≠ .error .outOfRange) ↔
      b.InBounds (.call (.submit id price qty isBuy)) := by
  constructor
  · intro hall fuel b₁ rest hm hrest hnull
    obtain ⟨hc₁, h₁, hs, hms, hl⟩ := (matchOrder_inRange hc h fuel price qty isBuy).of_ok hm
    have hadd : b₁.addOrder id price rest isBuy ≠ .error .outOfRange := by
      intro e
      refine hall fuel ?_
      simp only [submitOrder, hm, ok_bind, if_pos hrest, e]
    rw [(agrees_addOrder hc₁.follows id price rest isBuy).ne_error_iff, FastOrderBook.addOrder_overruns_iff h₁] at hadd
    have hb := hadd hnull
    rw [hms, TailValid, hl, hs] at hb
    exact hb
  · intro hb fuel
    refine Sat.ne_outOfRange (Q := fun _ => True) ?_
    rw [submitOrder]
    cases hm : b.matchOrder fuel price qty isBuy with
    | error e => exact (matchOrder_inRange hc h fuel price qty isBuy).of_error hm
    | ok r =>
      obtain ⟨b₁, rest⟩ := r
      obtain ⟨hc₁, h₁, hs, hms, hl⟩ := (matchOrder_inRange hc h fuel price qty isBuy).of_ok hm
      simp only [ok_bind]
      split
      · rename_i hrest
        have hadd : b₁.addOrder id price rest isBuy ≠ .error .outOfRange := by
          rw [(agrees_addOrder hc₁.follows id price rest isBuy).ne_error_iff,
            FastOrderBook.addOrder_overruns_iff h₁]
          intro hnull
          rw [hms, TailValid, hl, hs]
          exact hb fuel b₁ rest hm hrest hnull
        cases e : b₁.addOrder id price rest isBuy with
        | error err => exact fun he => hadd (e.trans (congrArg _ he))
        | ok b' => trivial
      · trivial

section Replace

variable {i newPrice : Nat}

/-- The branch for a new price: within bounds, or out of range at the new level. -/
theorem moveOrder_bounds (hc : b.Covered) (h : b.InRange) (isBuy : Bool) (hnull : i ≠ NULL_IDX) (hi : i < b.orders.size)
    (hp : price < MAX_PRICES) (hne : price ≠ newPrice) :
    (newPrice < MAX_PRICES ∧ b.TailValid isBuy newPrice → ∃ b', b.moveOrder i isBuy price newPrice = .ok b' ∧
        b'.Covered ∧ b'.InRange ∧ b'.orders.size = b.orders.size) ∧
      (¬ (newPrice < MAX_PRICES ∧ b.TailValid isBuy newPrice) →
        b.moveOrder i isBuy price newPrice = .error .outOfRange) := by
  obtain ⟨S, ht⟩ := hc
  have hprev := h.prev i hi
  have hnext := h.next i hi
  constructor
  · rintro ⟨hnp, htail⟩
    obtain ⟨l₁, l₂, b', hu, ha, e, hb'⟩ := moveOrder_of_lt ht hnull hi hp hnp hne hprev hnext htail
    have hi₁ : i < l₁.orders.size := hu.size.symm ▸ hi
    have h₂ := (h.unlinked hi hu).appended hi₁ hnp ha
    have hi₂ : i < l₂.orders.size := ha.size.symm ▸ hi₁
    refine ⟨b', e, hb'.covered, ?_, ?_⟩
    · rw [hb'.1]
      exact h₂.modify hi₂ fits_null (h₂.prev i hi₂) rfl
    · rw [hb'.1]
      exact ha.size.trans hu.size
  · intro hbad
    obtain ⟨l₁, e₁, hu⟩ : ∃ l₁, b.unlink isBuy price i = .ok l₁ ∧ b.Unlinked isBuy price i l₁ :=
      unlink_of_lt hi hp hprev hnext
    obtain ⟨b₂, e₂, rfl, _⟩ := ht.clearIfEmpty hp (fun s p hsp => by rw [hu.level, if_neg hsp])
      (hu.head_ne_null hnull)
    have hbad₂ : ¬ (newPrice < MAX_PRICES ∧ b₂.TailValid isBuy newPrice) := by
      rwa [TailValid, hu.level, if_neg fun e => hne e.2.symm, hu.size]
    have e₃ := relink_overrun (hu.size.symm ▸ hi) hbad₂
    simp only [moveOrder]
    rw [onLadder_of_ok e₁, ok_bind, e₂, ok_bind, onLadder, e₃]
    rfl

/-- The branch for a larger quantity: within bounds, or out of range at the end of the level. -/
theorem requeueOrder_bounds (hc : b.Covered) (h : b.InRange) (isBuy : Bool) (hnull : i ≠ NULL_IDX) (hi : i < b.orders.size)
    (hp : price < MAX_PRICES) :
    ((if (b.level isBuy price).tail = i then (b.order i).prev else (b.level isBuy price).tail) < b.orders.size →
        ∃ b', b.requeueOrder i isBuy price = .ok b' ∧ b'.Covered ∧ b'.InRange ∧ b'.orders.size = b.orders.size) ∧
      (¬ (if (b.level isBuy price).tail = i then (b.order i).prev else (b.level isBuy price).tail) < b.orders.size →
        b.requeueOrder i isBuy price = .error .outOfRange) := by
  have hprev := h.prev i hi
  have hnext := h.next i hi
  constructor
  · intro htail
    obtain ⟨l₁, l₂, hu, hl, e⟩ := requeueOrder_of_lt hi hp hprev hnext htail
    have hi₁ : i < l₁.orders.size := hu.size.symm ▸ hi
    have h₂ := (h.unlinked hi hu).tailLinked hi₁ hp hl
    have hi₂ : i < l₂.orders.size := hl.size.symm ▸ hi₁
    refine ⟨_, e, (requeueOrder_occupied hc hnull e).1, ?_, hl.size.trans hu.size⟩
    exact h₂.modify hi₂ fits_null (h₂.prev i hi₂) rfl
  · intro hbad
    obtain ⟨l₁, e₁, hu⟩ : ∃ l₁, b.unlink isBuy price i = .ok l₁ ∧ b.Unlinked isBuy price i l₁ :=
      unlink_of_lt hi hp hprev hnext
    have hbad₁ : ¬ (l₁.level isBuy price).tail < l₁.orders.size := by
      rwa [hu.level, if_pos ⟨rfl, rfl⟩, hu.size]
    have e₂ := linkTail_overrun (hu.size.symm ▸ hi) hp hbad₁
    simp only [requeueOrder]
    rw [onLadder_of_ok e₁, ok_bind, onLadder, e₂]
    rfl

/-- The last write of `replace_order` is within bounds. -/
theorem replace_write {f : Order → Order} (hc : b.Covered) (h : b.InRange) (hi : i < b.orders.size)
    (hf : ∀ o, (f o).next = o.next ∧ (f o).prev = o.prev ∧ (f o).id = o.id) :
    ∃ b', b.onLadder (fun l => l.modifyOrder i f) = .ok b' ∧ b'.Covered ∧ b'.InRange := by
  obtain ⟨hn, hp, hid⟩ := hf (b.order i)
  obtain ⟨b', e, hb'⟩ := hc.follows.write (f := f) hi
  refine ⟨b', e, hb'.covered, ?_⟩
  rw [hb'.1]
  exact h.modify hi (hn ▸ h.next i hi) (hp ▸ h.prev i hi) hid

theorem replaceOrder_bounds (hc : b.Covered) (h : b.InRange) (id newPrice newQty : Nat) :
    (b.InBounds (.replace id newPrice newQty) →
        ∃ b', b.replaceOrder id newPrice newQty = .ok b' ∧ b'.Covered ∧ b'.InRange) ∧
      (¬ b.InBounds (.replace id newPrice newQty) →
        b.replaceOrder id newPrice newQty = .error .outOfRange) := by
  rcases b.absent_or_known id with habs | ⟨hid, hnull⟩
  · refine ⟨fun _ => ⟨b, replaceOrder_absent habs, hc, h⟩, fun hbad => absurd (fun hid hnull => ?_) hbad⟩
    rcases habs with habs | habs
    · omega
    · exact absurd habs hnull
  · have hi := (h.slot id hid).lt hnull
    by_cases hp : (b.order (b.slot id)).price < MAX_PRICES
    · rw [replaceOrder_eq _ _ hid hnull hi hp]
      simp only [InBounds]
      by_cases hne : (b.order (b.slot id)).price ≠ newPrice
      · -- a new price
        rw [if_pos hne]
        obtain ⟨hgood, hbad⟩ := moveOrder_bounds hc h (b.order (b.slot id)).isBuy hnull hi hp hne
        refine ⟨fun hb => ?_, fun hb => ?_⟩
        · obtain ⟨b₁, e, hc₁, h₁, hs₁⟩ := hgood ((hb hid hnull).2.1 hne)
          rw [e, ok_bind]
          exact replace_write hc₁ h₁ (hs₁.symm ▸ hi) fun _ => ⟨rfl, rfl, rfl⟩
        · rw [hbad fun hb' => hb fun _ _ => ⟨hp, fun _ => hb', fun e => absurd e hne⟩]
          rfl
      · rw [if_neg hne]
        have he := not_not.1 hne
        by_cases hcond : (b.order (b.slot id)).qty < newQty ∧
            ¬ ((b.level (b.order (b.slot id)).isBuy (b.order (b.slot id)).price).head = b.slot id ∧
              (b.level (b.order (b.slot id)).isBuy (b.order (b.slot id)).price).tail = b.slot id)
        · -- a larger quantity
          rw [if_pos hcond]
          obtain ⟨hgood, hbad⟩ := requeueOrder_bounds hc h (b.order (b.slot id)).isBuy hnull hi hp
          refine ⟨fun hb => ?_, fun hb => ?_⟩
          · obtain ⟨b₁, e, hc₁, h₁, hs₁⟩ := hgood ((hb hid hnull).2.2 he hcond.1 hcond.2)
            rw [e, ok_bind]
            exact replace_write hc₁ h₁ (hs₁.symm ▸ hi) fun _ => ⟨rfl, rfl, rfl⟩
          · rw [hbad fun hb' => hb fun _ _ => ⟨hp, fun e => absurd e hne, fun _ _ _ => hb'⟩]
            rfl
        · rw [if_neg hcond]
          refine ⟨fun _ => ?_, fun hb => absurd (fun _ _ => ⟨hp, fun e => absurd e hne, fun _ hq hsole => ?_⟩) hb⟩
          · exact replace_write hc h hi fun _ => ⟨rfl, rfl, rfl⟩
          · exact absurd ⟨hq, hsole⟩ hcond
    · refine ⟨fun hb => absurd (hb hid hnull).1 hp, fun _ => ?_⟩
      simp only [replaceOrder, reposition, if_neg (Nat.not_le.2 hid), getSlot_of_lt hid, ok_bind, if_neg hnull,
        getOrder_of_lt hi, getLevel_overrun (Nat.le_of_not_lt hp), error_bind]

end Replace

/-- A request never indexes out of range exactly if it is in bounds. -/
theorem request_overruns_iff (hc : b.Covered) (h : b.InRange) (r : Request) :
    (∀ fuel, b.execRequest fuel r ≠ .error .outOfRange) ↔ b.InBounds r := by
  cases r with
  | replace id newPrice newQty =>
    obtain ⟨hgood, hbad⟩ := replaceOrder_bounds hc h id newPrice newQty
    refine ⟨fun hall => by_contra fun hb => hall 0 (hbad hb), fun hb _ => ?_⟩
    obtain ⟨b', e, _⟩ := hgood hb
    intro he
    rw [show b.execRequest _ (.replace id newPrice newQty) = _ from e] at he
    cases he
  | call c =>
    cases c with
    | submit id price qty isBuy => exact submitOrder_overruns_iff hc h
    | cancel id =>
      refine Iff.trans ⟨fun hall => hall 0, fun hall _ => hall⟩ ?_
      exact ((agrees_cancelOrder hc.follows id).ne_error_iff _).trans (FastOrderBook.cancelOrder_overruns_iff h)

/-- What a request leaves behind is in range again. -/
theorem RequestStep.inRange {r : Request} (hc : b.Covered) (h : b.InRange) (hs : b.RequestStep r b') :
    b'.Covered ∧ b'.InRange := by
  obtain ⟨fuel, hs⟩ := hs
  cases r with
  | replace id newPrice newQty =>
    obtain ⟨hgood, hbad⟩ := replaceOrder_bounds hc h id newPrice newQty
    have hs : b.replaceOrder id newPrice newQty = .ok b' := hs
    obtain ⟨b₁, e, hb₁⟩ := hgood (by_contra fun hb => by rw [hbad hb] at hs; cases hs)
    rw [hs] at e
    cases e
    exact hb₁
  | call c =>
    cases c with
    | submit id price qty isBuy =>
      obtain ⟨⟨b₁, rest⟩, hm, hs⟩ := bind_eq_ok.1 hs
      obtain ⟨hc₁, h₁, _⟩ := (matchOrder_inRange hc h fuel price qty isBuy).of_ok hm
      simp only at hs
      split at hs
      · obtain ⟨e, hf⟩ := (agrees_addOrder hc₁.follows id price rest isBuy).of_ok hs
        exact ⟨hf.covered, FastOrderBook.addOrder_inRange h₁ e⟩
      · cases hs
        exact ⟨hc₁, h₁⟩
    | cancel id =>
      obtain ⟨e, hf⟩ := (agrees_cancelOrder hc.follows id).of_ok hs
      exact ⟨hf.covered, FastOrderBook.cancelOrder_inRange h e⟩

/-- `get_quantity` never indexes out of range. -/
theorem getQuantity_ne_outOfRange (h : b.InRange) (id : Nat) : b.getQuantity id ≠ .error .outOfRange := by
  by_cases hid : id < b.idMap.size
  · by_cases hnull : b.slot id = NULL_IDX
    · simp [getQuantity, Nat.not_le.2 hid, getSlot_of_lt hid, hnull]
    · simp [getQuantity, Nat.not_le.2 hid, getSlot_of_lt hid, hnull, getOrder_of_lt ((h.slot id hid).lt hnull)]
  · simp [getQuantity, Nat.le_of_not_lt hid]

theorem init_inRange {n : Nat} (h : new.init n = .ok b) : b.InRange := by
  obtain ⟨l, hl, h⟩ := bind_eq_ok.1 h
  cases h
  have hi := initialised_of_eq_ok hl
  have hfields : ∀ i, i < n → (l.order i).id = 0 ∧ (l.order i).prev = 0 := by
    intro i hlt
    rw [hi.fields i hlt _ rfl]
    exact ⟨rfl, rfl⟩
  have hzero : Fits l 0 := Or.inr (hi.size.symm ▸ hi.pos)
  have hnull : ∀ s p, Fits l (l.level s p).head ∧ Fits l (l.level s p).tail := by
    intro s p
    rw [hi.level]
    exact ⟨fits_null, fits_null⟩
  refine ⟨fun i hlt => ?_, fun i hlt => ?_, fun i hlt => ?_, fun id hlt => ?_, ?_, fun s p _ => (hnull s p).1,
    fun s p _ => (hnull s p).2⟩
  · have hlt : i < n := hi.size ▸ hlt
    show Fits l (l.order i).next
    rw [hi.next i hlt]
    split
    · exact fits_null
    · refine Or.inr ?_
      rw [hi.size, u32]
      have := Nat.mod_le (i + 1) 4294967296
      omega
  · show Fits l (l.order i).prev
    rw [(hfields i (hi.size ▸ hlt)).2]
    exact hzero
  · show (l.order i).id < l.idMap.size
    rw [(hfields i (hi.size ▸ hlt)).1, hi.map_size]
    exact hi.pos
  · have hlt : id < n := hi.map_size ▸ hlt
    show Fits l (l.slot id)
    rw [hi.slot id hlt]
    have hnew : ¬ id < new.toLadder.idMap.size := Nat.not_lt_zero id
    rw [if_neg hnew]
    exact hzero
  · show Fits l l.nextFreeOrderIdx
    rw [hi.free]
    exact hzero

end FastBitsetOrderBook

namespace MatchingEngine

open FastBitsetOrderBook

/-- The request that an event makes; `SHUTDOWN` makes none. -/
def Event.request : Event → Option Request
  | .message msg =>
    if msg.type = .SUBMIT then some (.call (.submit msg.id msg.price msg.qty msg.isBuy))
    else if msg.type = .CANCEL then some (.call (.cancel msg.id))
    else none
  | .replace id newPrice newQty => some (.replace id newPrice newQty)

theorem Event.exec_of_some {e : Event} {r : Request} (h : e.request = some r) (fuel : Nat)
    (b : FastBitsetOrderBook) : e.exec fuel b = b.execRequest fuel r := by
  cases e with
  | replace id newPrice newQty =>
    cases h
    rfl
  | message msg =>
    simp only [Event.request] at h
    by_cases h₁ : msg.type = .SUBMIT
    · rw [if_pos h₁] at h
      cases h
      simp only [Event.exec, handle, if_pos h₁, execRequest, FastBitsetOrderBook.exec]
    · by_cases h₂ : msg.type = .CANCEL
      · rw [if_neg h₁, if_pos h₂] at h
        cases h
        simp only [Event.exec, handle, if_neg h₁, if_pos h₂, execRequest, FastBitsetOrderBook.exec]
      · rw [if_neg h₁, if_neg h₂] at h
        cases h

theorem Event.exec_of_none {e : Event} (h : e.request = none) (fuel : Nat) (b : FastBitsetOrderBook) :
    e.exec fuel b = .ok b := by
  cases e with
  | replace id newPrice newQty => cases h
  | message msg =>
    simp only [Event.request] at h
    by_cases h₁ : msg.type = .SUBMIT
    · rw [if_pos h₁] at h
      cases h
    · by_cases h₂ : msg.type = .CANCEL
      · rw [if_neg h₁, if_pos h₂] at h
        cases h
      · simp only [Event.exec, handle, if_neg h₁, if_neg h₂, pure_eq_ok]

/-- The request of the event, if it makes one, is in bounds. -/
def InBounds (b : FastBitsetOrderBook) (e : Event) : Prop := ∀ r, e.request = some r → b.InBounds r

/-- What an event leaves behind is in range again. -/
theorem EventStep.inRange {b b' : FastBitsetOrderBook} {e : Event} (hc : b.Covered) (h : b.InRange)
    (hs : EventStep b e b') : b'.Covered ∧ b'.InRange := by
  obtain ⟨fuel, hs⟩ := hs
  cases hr : e.request with
  | some r =>
    rw [Event.exec_of_some hr] at hs
    exact RequestStep.inRange hc h ⟨fuel, hs⟩
  | none =>
    rw [Event.exec_of_none hr] at hs
    cases hs
    exact ⟨hc, h⟩

/-- An order with a price just outside the ladder, and its cancellation. -/
def submitOutside : Event := .message ⟨0, 100000, 1, 0, true, .SUBMIT⟩

def cancelOutside : Event := .message ⟨0, 0, 0, 0, false, .CANCEL⟩

end MatchingEngine

end Lobook
