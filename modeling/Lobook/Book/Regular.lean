import Lobook.Book.Execution

/-!
# Regular books

In a regular book the links are right in both directions: every back link mirrors a link, the first order of a level has
none, and a level without orders has no last one.  `cancel_order` takes exactly one order out of such a book
(`cancel_removes`).  `replace_order` moves exactly one order, behind the others at its new price, or behind the others
at its own price if its quantity grows, or not at all (`replace_prioritises`).  Both leave a regular book.
-/

namespace Lobook

open Checked Links Relation

/-- Only the links of the order differ. -/
def Order.Relinked (o o' : Order) : Prop := o'.id = o.id ∧ o'.price = o.price ∧ o'.qty = o.qty ∧ o'.isBuy = o.isBuy

namespace Ladder

/-- A level without orders has no last one. -/
def Blank (b : Ladder) (Q : Bool × Nat → List Nat) : Prop :=
  ∀ s p, p < MAX_PRICES → Q (s, p) = [] → (b.level s p).tail = NULL_IDX

variable {b b' b₁ : Ladder} {Q : Bool × Nat → List Nat} {F l₁ l₂ : List Nat} {isBuy : Bool} {price i id : Nat}

/-- With right back links every stored index is null or a slot. -/
theorem Linked.pool (h : b.Linked Q F) (hm : Mirrored (fun i => (b.order i).prev) Q) (hclean : b.Clean Q) :
    b.Pool Q F := by
  refine ⟨h, hm, fun k i hi => ?_⟩
  obtain ⟨l₁, l₂, hk⟩ := List.append_of_mem hi
  rcases List.eq_nil_or_concat l₁ with rfl | ⟨l, a, rfl⟩
  · exact Or.inl (hclean k i l₂ hk)
  · rw [List.concat_eq_append] at hk
    have hprev : (b.order i).prev = a := hm.prev_eq hk List.getLast?_concat
    rw [hprev]
    exact Or.inr (h.bound k a (by rw [hk]; simp))

namespace Linked

/-- An order is alone in its level exactly if it is the first and the last one. -/
theorem sole_iff (h : b.Linked Q F) (hk : Q (isBuy, price) = l₁ ++ i :: l₂) :
    ((b.level isBuy price).head = i ∧ (b.level isBuy price).tail = i) ↔ l₁ = [] ∧ l₂ = [] := by
  have hnd := h.threads.nodup (isBuy, price)
  rw [hk, List.nodup_middle] at hnd
  have hnot := (List.nodup_cons.1 hnd).1
  constructor
  · rintro ⟨hhead, htail⟩
    constructor
    · cases l₁ with
      | nil => rfl
      | cons a l =>
        have ha := (h.of_cons hk).1
        exact absurd (by rw [← hhead, ha]; simp) hnot
    · rcases List.eq_nil_or_concat l₂ with rfl | ⟨l, c, rfl⟩
      · rfl
      · rw [List.concat_eq_append] at hk hnot
        have hc : (b.level isBuy price).tail = c :=
          h.threads.tail (isBuy, price) c (by rw [hk, ← List.cons_append, ← List.append_assoc, List.getLast?_concat])
        exact absurd (by rw [← htail, hc]; simp) hnot
  · rintro ⟨rfl, rfl⟩
    exact ⟨(h.of_cons hk).1, h.threads.tail (isBuy, price) i (by rw [hk]; rfl)⟩

theorem blank_unlinked (h : b.Linked Q F) (hclean : b.Clean Q) (hblank : b.Blank Q)
    (hk : Q (isBuy, price) = l₁ ++ i :: l₂) (hu : b.Unlinked isBuy price i b') :
    b'.Blank (Function.update Q (isBuy, price) (l₁ ++ l₂)) := by
  intro s p hp hnil
  rw [hu.level]
  by_cases hsp : s = isBuy ∧ p = price
  · obtain ⟨rfl, rfl⟩ := hsp
    rw [Function.update_self] at hnil
    obtain ⟨rfl, rfl⟩ := List.append_eq_nil_iff.1 hnil
    have htail := ((h.sole_iff hk).2 ⟨rfl, rfl⟩).2
    rw [if_pos ⟨rfl, rfl⟩]
    show (if _ then _ else _) = _
    rw [if_pos htail]
    exact hclean (s, p) i [] hk
  · rw [Function.update_of_ne (fun e => hsp (Prod.mk.inj e))] at hnil
    rw [if_neg hsp]
    exact hblank s p hp hnil

theorem blank_popped {l : List Nat} (h : b.Linked Q F) (hblank : b.Blank Q) (hk : Q (isBuy, price) = i :: l) :
    (b.popped isBuy price).Blank (Function.update Q (isBuy, price) l) := by
  intro s p hp hnil
  by_cases hsp : s = isBuy ∧ p = price
  · obtain ⟨rfl, rfl⟩ := hsp
    rw [Function.update_self] at hnil
    have hnext : (b.order (b.level s p).head).next = NULL_IDX := by
      have hpath := h.threads.queue (s, p)
      rw [hk, hnil] at hpath
      rw [(h.of_cons hk).1]
      exact hpath.2
    simp only [Ladder.popped, level_withFree, level_withLevel, and_self, if_true, hnext]
  · rw [Function.update_of_ne (fun e => hsp (Prod.mk.inj e))] at hnil
    simp only [Ladder.popped, level_withFree, level_withLevel, if_neg hsp, level_withSlot, level_withOrder]
    exact hblank s p hp hnil

theorem blank_appended (hblank : b.Blank Q) (ha : b.Appended isBuy price i b') :
    b'.Blank (Function.update Q (isBuy, price) (Q (isBuy, price) ++ [i])) := by
  intro s p hp hnil
  have hsp : ¬ (s = isBuy ∧ p = price) := by
    rintro ⟨rfl, rfl⟩
    rw [Function.update_self] at hnil
    exact absurd hnil (by simp)
  rw [Function.update_of_ne (fun e => hsp (Prod.mk.inj e))] at hnil
  rw [ha.level, if_neg hsp]
  exact hblank s p hp hnil

end Linked

end Ladder

namespace FastBitsetOrderBook

open Ladder

/-- The links are right in both directions, and the index marks the levels that are not empty. -/
structure Regular (b : FastBitsetOrderBook) (Q : Bool × Nat → List Nat) (F : List Nat) : Prop where
  signposted : b.Signposted
  linked : b.Linked Q F
  mirrored : Mirrored (fun i => (b.order i).prev) Q
  clean : b.Clean Q
  blank : b.Blank Q

variable {b b' b₁ : FastBitsetOrderBook} {Q : Bool × Nat → List Nat} {F l₁ l₂ : List Nat} {isBuy : Bool}
  {price i id newPrice newQty n : Nat}

namespace Regular

theorem indexed (h : b.Regular Q F) : b.Indexed := signposted_iff.1 h.signposted

theorem pool (h : b.Regular Q F) : b.Pool Q F := h.linked.pool h.mirrored h.clean

theorem unlinksCleanly (h : b.Regular Q F) (hi : i ∈ Q (isBuy, price)) : b.UnlinksCleanly i :=
  h.pool.unlinksCleanly h.clean hi

theorem init (hinit : new.init n = .ok b) : b.Regular (fun _ => []) (List.range' 0 (min n NULL_IDX)) := by
  have hi := Indexed.init hinit
  obtain ⟨l, hl, e⟩ := bind_eq_ok.1 hinit
  cases e
  have hinit' := Ladder.initialised_of_eq_ok hl
  have hpool := Pool.init hinit'
  refine ⟨signposted_iff.2 hi, hpool.toLinked, hpool.mirrored, fun k i l hk => (by cases hk), fun s p _ _ => ?_⟩
  show (l.level s p).tail = NULL_IDX
  rw [hinit'.level]

end Regular

/-! ### Submitting -/

/-- `submit_order` leaves a regular book if the incoming order does not end behind the first order of a level that it
does not fill. -/
theorem submit_regular (h : b.Regular Q F) (hpos : b.Positive Q) (hid : id < b.idMap.size) (hrest : ¬ b.Resting id)
    (hp : price < MAX_PRICES) (qty : Nat) (isBuy : Bool) (hspares : b.SparesFronts price qty isBuy) :
    ∃ b' Q' F', b.Step (.submit id price qty isBuy) b' ∧ b'.Regular Q' F' ∧ b'.Positive Q' := by
  have hfresh : ∀ k, ∀ j ∈ Q k, (b.order j).id ≠ id :=
    h.linked.fresh hrest
  obtain ⟨b₁, b', qty', hstep, hi', htrades, hend, hall⟩ := submitOrder_pool h.indexed h.pool hid hfresh hp qty isBuy
  obtain ⟨Q₁, F₁, h₁, hpos₁, hblank₁, hends⟩ := h.pool.trades
    (P := fun b₁ Q₁ _ qty₁ => b₁.Positive Q₁ ∧ b₁.Blank Q₁ ∧ EndsClean isBuy price b₁ Q₁ qty₁)
    ⟨hpos, h.blank, (h.linked.endsClean_start h.clean).2 hspares⟩
    (fun _ _ _ _ _ _ _ h₁ ⟨hpos₁, hblank₁, hends⟩ hk hbest _ hle =>
      ⟨h₁.positive_popped hpos₁ hk, h₁.blank_popped hblank₁ hk, (h₁.endsClean_popped hk hbest hle).2 hends⟩)
    (fun _ _ _ _ _ _ _ h₁ ⟨hpos₁, hblank₁, hends⟩ hk hbest _ hlt =>
      ⟨h₁.positive_reduced hpos₁ hk hlt, hblank₁, (h₁.endsClean_reduced hpos₁ hk hbest hlt).2 hends⟩) htrades
  have hclean₁ : b₁.Clean Q₁ := (h₁.endsClean_ended hpos₁ hend).1 hends
  obtain ⟨hfresh₁, ⟨_, rfl⟩ | ⟨i, F₂, hq, rfl, happ, h'⟩⟩ := hall Q₁ F₁ h₁
  · exact ⟨b', Q₁, F₁, hstep, ⟨signposted_iff.2 hi', h₁.toLinked, h₁.mirrored, hclean₁, hblank₁⟩, hpos₁⟩
  · obtain ⟨hfree, _, hQ, _, htaken⟩ := h₁.taken hfresh₁ price qty' isBuy
    refine ⟨b', _, F₂, hstep, ⟨signposted_iff.2 hi', h'.toLinked, h'.mirrored, ?_, ?_⟩,
      h₁.positive_rested hpos₁ hfresh₁ hq happ⟩
    · refine (htaken.clean_appended hQ hp happ).2 ((fronts_congr fun k j hj => ?_).2 hclean₁)
      rw [order_taken hfree, if_neg fun e : j = i => hQ k (e ▸ hj)]
    · have hblank : (b₁.taken id price qty' isBuy).Blank Q₁ := hblank₁
      exact Linked.blank_appended hblank happ

/-- A book with one order, an ask. -/
theorem ask_regular : ∃ b₀ b Q F, new.init 2 = .ok b₀ ∧ b₀.Step (.submit 1 5 10 false) b ∧ b.Regular Q F ∧
    b.Positive Q ∧ b.Resting 1 ∧ b.idMap.size = 2 ∧ b.slot 1 = 0 ∧ b.order 0 = ⟨1, 5, 10, false, NULL_IDX, NULL_IDX⟩ ∧
      b.best false = .ok none := by
  have hok : (new.init 2 >>= fun b₀ => b₀.exec 10 (.submit 1 5 10 false) >>= fun b => pure (b₀, b)).isOk = true := by
    decide +kernel
  obtain ⟨b₀, h₀, h⟩ := bind_eq_ok.1 (eq_ok_value (new, new) hok)
  obtain ⟨b, h₁, h⟩ := bind_eq_ok.1 h
  have hb := (Prod.mk.inj (Except.ok.inj h)).2
  obtain ⟨⟨_, _, _, _, _, hsize⟩, hrest⟩ := stocked_init h₀
  have hregular := Regular.init h₀
  have hspares : b₀.SparesFronts 5 10 false := by
    refine (hregular.linked.endsClean_start hregular.clean).1 fun s p i l hk => ?_
    cases hk
  obtain ⟨b', Q, F, hstep, hregular', hpos⟩ := submit_regular hregular (fun k i hi => by cases hi)
    (hsize.symm ▸ (by decide : 1 < 2)) (hrest 1) (show 5 < MAX_PRICES by decide) 10 false hspares
  have hstep' : b₀.Step (.submit 1 5 10 false) b := ⟨10, h₁⟩
  obtain rfl : b = b' := hstep'.unique hstep
  refine ⟨b₀, b, Q, F, h₀, hstep', hregular', hpos, ⟨false, 5, by decide, 0, ?_⟩, ?_⟩
  all_goals
    rw [hb]
    decide +kernel

/-! ### Cancelling -/

/-- `cancel_order` deletes the slot of the order from its queue, and changes no other order, entry or level. -/
theorem cancel_removes (h : b.Regular Q F) (hrest : b.Resting id) :
    ∃ b' isBuy price l₁ i l₂, b.cancelOrder id = .ok b' ∧ b.slot id = i ∧ (b.order i).id = id ∧
      Q (isBuy, price) = l₁ ++ i :: l₂ ∧ b'.Regular (Function.update Q (isBuy, price) (l₁ ++ l₂)) (i :: F) ∧
      (∀ j, j ≠ i → (b.order j).Relinked (b'.order j)) ∧
      (∀ id', b'.slot id' = if id' = id then NULL_IDX else b.slot id') ∧ b'.nextFreeOrderIdx = i ∧
      ((b'.index isBuy).test price = .ok false ↔ l₁ ++ l₂ = []) ∧
      (∀ s p, p < MAX_PRICES → ¬ (s = isBuy ∧ p = price) → (b'.index s).test p = (b.index s).test p) ∧
      b'.orders.size = b.orders.size ∧ b'.idMap.size = b.idMap.size := by
  have hl := h.linked
  obtain ⟨⟨isBuy, price⟩, i, hi, rfl⟩ := hl.resting_iff.1 hrest
  obtain ⟨l₁, l₂, hk⟩ := List.append_of_mem hi
  have hp : price < MAX_PRICES := hl.price_lt _ i hi
  obtain ⟨u, b', e, hi', hu, hb', h'⟩ := cancelOrder_pool h.indexed h.pool hk (h.unlinksCleanly hi)
  have hQ : ∀ k, i ∉ Function.update Q (isBuy, price) (l₁ ++ l₂) k :=
    fun k hj => (hl.threads.mem_of_unlink hk hj).2 rfl
  have hregular : b'.Regular (Function.update Q (isBuy, price) (l₁ ++ l₂)) (i :: F) := by
    refine ⟨signposted_iff.2 hi', h'.toLinked, h'.mirrored, ?_, ?_⟩
    · rw [hb', Pool.clean_freed hQ]
      exact h.pool.clean_unlinked h.clean hk hu
    · have hblank : u.Blank (Function.update Q (isBuy, price) (l₁ ++ l₂)) :=
        hl.blank_unlinked h.clean h.blank hk hu
      rw [hb']
      exact hblank
  refine ⟨b', isBuy, price, l₁, i, l₂, e, (hl.mapped _ i hi).2, rfl, hk, hregular, fun j hj => ?_,
    fun id' => ?_, by rw [hb']; rfl, ?_, fun s p hlt hsp => ?_, ?_, ?_⟩
  · rw [hb', order_freed hj, hu.order]
    exact ⟨rfl, rfl, rfl, rfl⟩
  · rw [hb', slot_freed, hu.slot]
  · obtain ⟨t, et, ht⟩ := (hi' isBuy).test hp
    have hmem : price ∈ b'.occupied isBuy ↔ _ := h'.mem_occupied
    rw [Function.update_self] at hmem
    rw [et, Except.ok.injEq, ← Bool.not_eq_true, ht, hmem, not_not]
  · obtain ⟨t, et, ht⟩ := (hi' s).test hlt
    obtain ⟨t', et', ht'⟩ := (h.indexed s).test hlt
    rw [et, et', Except.ok.injEq, Bool.eq_iff_iff, ht, ht', h'.mem_occupied, hl.mem_occupied,
      Function.update_of_ne fun e => hsp (Prod.mk.inj e)]
  · rw [hb']
    exact hu.size
  · rw [hb']
    show u.idMap.size = _
    rw [hu.idMap]

theorem cancel_removes_ask : ∃ b b' : FastBitsetOrderBook, b.Resting 1 ∧ b.cancelOrder 1 = .ok b' ∧
    b'.nextFreeOrderIdx = 0 := by
  obtain ⟨b₀, b, Q, F, _, _, hregular, _, hrest, _, hslot, _⟩ := ask_regular
  obtain ⟨b', _, _, _, i, _, e, hi, _, _, _, _, _, hfree, _⟩ := cancel_removes hregular hrest
  rw [← hi, hslot] at hfree
  exact ⟨b, b', hrest, e, hfree⟩

/-! ### Replacing -/

/-- The queues after the replacement of an order: behind the others at the new price, or at its own price if its quantity
grows. -/
def replaced (Q : Bool × Nat → List Nat) (isBuy : Bool) (price : Nat) (l₁ : List Nat) (i : Nat) (l₂ : List Nat)
    (qty newPrice newQty : Nat) : Bool × Nat → List Nat :=
  if price ≠ newPrice then
    Function.update (Function.update Q (isBuy, price) (l₁ ++ l₂)) (isBuy, newPrice) (Q (isBuy, newPrice) ++ [i])
  else if qty < newQty then Function.update Q (isBuy, price) (l₁ ++ l₂ ++ [i])
  else Q

theorem replaced_of_moves (h : b.Linked Q F) (hk : Q (isBuy, price) = l₁ ++ i :: l₂)
    (hmoves : b.Moves i newPrice newQty) :
    Function.update (Function.update Q (isBuy, price) (l₁ ++ l₂)) (isBuy, newPrice)
        (Function.update Q (isBuy, price) (l₁ ++ l₂) (isBuy, newPrice) ++ [i]) =
      replaced Q isBuy price l₁ i l₂ (b.order i).qty newPrice newQty := by
  obtain ⟨rfl, rfl⟩ := h.place_eq (show i ∈ Q (isBuy, price) by rw [hk]; simp)
  unfold replaced
  by_cases hne : (b.order i).price ≠ newPrice
  · rw [if_pos hne, Function.update_of_ne fun e => hne (Prod.mk.inj e).2.symm]
  · obtain ⟨hqty, _⟩ := hmoves.resolve_left hne
    obtain rfl := not_not.1 hne
    rw [if_neg hne, if_pos hqty, Function.update_self, Function.update_idem]

theorem replaced_of_stays (h : b.Linked Q F) (hk : Q (isBuy, price) = l₁ ++ i :: l₂)
    (hstays : ¬ b.Moves i newPrice newQty) : replaced Q isBuy price l₁ i l₂ (b.order i).qty newPrice newQty = Q := by
  obtain ⟨rfl, rfl⟩ := h.place_eq (show i ∈ Q (isBuy, price) by rw [hk]; simp)
  obtain ⟨hprice, hqty⟩ := not_or.1 hstays
  unfold replaced
  rw [if_neg hprice]
  split
  · rename_i hlt
    -- the order is alone in its level
    obtain ⟨rfl, rfl⟩ := (h.sole_iff hk).1 (not_not.1 fun hsole => hqty ⟨hlt, hsole⟩)
    rw [List.nil_append, List.nil_append, ← List.nil_append [i], ← hk]
    exact Function.update_eq_self _ _
  · rfl

theorem replace_regular (h : b.Regular Q F) (hk : Q (isBuy, price) = l₁ ++ i :: l₂) (hp : newPrice < MAX_PRICES)
    (newQty : Nat) :
    ∃ b', b.replaceOrder (b.order i).id newPrice newQty = .ok b' ∧
      b'.Regular (replaced Q isBuy price l₁ i l₂ (b.order i).qty newPrice newQty) F ∧
      (∃ next prev, b'.order i = ⟨(b.order i).id, newPrice, newQty, isBuy, next, prev⟩) ∧
      (∀ j, j ≠ i → (b.order j).Relinked (b'.order j)) ∧
      b'.idMap = b.idMap ∧ b'.nextFreeOrderIdx = b.nextFreeOrderIdx ∧ b'.orders.size = b.orders.size := by
  have hl := h.linked
  have hi : i ∈ Q (isBuy, price) := by rw [hk]; simp
  have hside : (b.order i).isBuy = isBuy := (hl.place_eq hi).1
  have hclean := h.unlinksCleanly hi
  obtain ⟨b', e, hi', ⟨hstays, rfl, hb'⟩ | ⟨hmoves, hm, h'⟩⟩ :=
    replaceOrder_pool h.indexed h.pool hk (fun _ : b.Moves i newPrice newQty => hclean) hp
  · rw [replaced_of_stays hl hk hstays]
    have hprice : (b.order i).price = price := (hl.place_eq hi).2
    have hb'' : b'.toLadder = b.withOrder i { b.order i with qty := newQty } := by rw [hb', ← hprice]
    have hpool : b'.Pool Q F := hb'' ▸ h.pool.withQty i newQty
    have hkept : ∀ j, (b'.order j).prev = (b.order j).prev := by
      intro j
      rw [hb'', order_withOrder]
      split
      · rename_i hji
        rw [hji]
      · rfl
    refine ⟨b', e, ⟨signposted_iff.2 hi', hpool.toLinked, hpool.mirrored, ?_, ?_⟩,
      ⟨(b.order i).next, (b.order i).prev, ?_⟩,
      fun j hj => ?_, by rw [hb']; rfl, by rw [hb']; rfl, by rw [hb']; rfl⟩
    · exact (fronts_congr fun k j _ => hkept j).2 h.clean
    · rw [hb']
      exact h.blank
    · rw [hb', order_withOrder, if_pos rfl, ← hside]
    · rw [hb', order_withOrder, if_neg hj]
      exact ⟨rfl, rfl, rfl, rfl⟩
  · rw [replaced_of_moves hl hk hmoves] at h'
    obtain ⟨u, a, hu, ha, he, horder⟩ := hm.blocks
    obtain ⟨hQ, _, h₁⟩ := h.pool.unlinked hk (h.pool.first_of_clean hk hclean) hu
    refine ⟨b', e, ⟨signposted_iff.2 hi', h'.toLinked, h'.mirrored, ?_, ?_⟩, ⟨NULL_IDX, (a.order i).prev, ?_⟩,
      fun j hj => ?_, ?_, ?_, ?_⟩
    · rw [← replaced_of_moves hl hk hmoves]
      have hclean' := (h₁.clean_appended hQ hp ha).2 (h.pool.clean_unlinked h.clean hk hu)
      refine (fronts_congr fun k j _ => ?_).2 hclean'
      by_cases hji : j = i
      · rw [hji, horder]
      · rw [he.order j hji]
    · rw [← replaced_of_moves hl hk hmoves]
      intro s p hlt hnil
      rw [he.level]
      exact Linked.blank_appended (hl.blank_unlinked h.clean h.blank hk hu) ha s p hlt hnil
    · rw [horder, ha.order, hu.order, ← hside]
    · rw [he.order j hj, ha.order, hu.order]
      exact ⟨rfl, rfl, rfl, rfl⟩
    · rw [he.idMap, ha.idMap, hu.idMap]
    · rw [he.free, ha.free, hu.free]
    · rw [he.size, ha.size, hu.size]

theorem positive_replaced (h : b.Linked Q F) (hpos : b.Positive Q) (hk : Q (isBuy, price) = l₁ ++ i :: l₂)
    (hq : 0 < (b'.order i).qty) (hkept : ∀ j, j ≠ i → (b'.order j).qty = (b.order j).qty) :
    b'.Positive (replaced Q isBuy price l₁ i l₂ (b.order i).qty newPrice newQty) := by
  have hi : i ∈ Q (isBuy, price) := by rw [hk]; simp
  have hstay : ∀ k j, j ∈ Q k → 0 < (b'.order j).qty := by
    intro k j hj
    by_cases hji : j = i
    · rw [hji]
      exact hq
    · rw [hkept j hji]
      exact hpos k j hj
  have hold : ∀ k j, j ∈ Function.update Q (isBuy, price) (l₁ ++ l₂) k → j ∈ Q k :=
    fun k j hj => (h.threads.mem_of_unlink hk hj).1
  intro k j hj
  unfold replaced at hj
  split at hj
  · rcases eq_or_ne k (isBuy, newPrice) with rfl | hne
    · rw [Function.update_self] at hj
      rcases List.mem_append.1 hj with hj | hj
      · exact hstay _ j hj
      · exact List.mem_singleton.1 hj ▸ hq
    · rw [Function.update_of_ne hne] at hj
      exact hstay k j (hold k j hj)
  · split at hj
    · rcases eq_or_ne k (isBuy, price) with rfl | hne
      · rw [Function.update_self] at hj
        rcases List.mem_append.1 hj with hj | hj
        · exact hstay (isBuy, price) j (hold _ j (by rwa [Function.update_self]))
        · exact List.mem_singleton.1 hj ▸ hq
      · rw [Function.update_of_ne hne] at hj
        exact hstay k j hj
    · exact hstay k j hj

/-- `replace_order` gives the order its new price and quantity, and the place in the queues that the rules of priority
give it; it changes no other order, no entry and no free slot. -/
theorem replace_prioritises (h : b.Regular Q F) (hpos : b.Positive Q) (hrest : b.Resting id)
    (hp : newPrice < MAX_PRICES) (hq : 0 < newQty) :
    ∃ b' isBuy price l₁ i l₂, b.replaceOrder id newPrice newQty = .ok b' ∧ b.slot id = i ∧ (b.order i).id = id ∧
      (b.order i).price = price ∧ Q (isBuy, price) = l₁ ++ i :: l₂ ∧
      b'.Regular (replaced Q isBuy price l₁ i l₂ (b.order i).qty newPrice newQty) F ∧
      b'.Positive (replaced Q isBuy price l₁ i l₂ (b.order i).qty newPrice newQty) ∧
      (∃ next prev, b'.order i = ⟨id, newPrice, newQty, isBuy, next, prev⟩) ∧
      (∀ j, j ≠ i → (b.order j).Relinked (b'.order j)) ∧
      b'.idMap = b.idMap ∧ b'.nextFreeOrderIdx = b.nextFreeOrderIdx ∧ b'.orders.size = b.orders.size := by
  have hl := h.linked
  obtain ⟨⟨isBuy, price⟩, i, hi, rfl⟩ := hl.resting_iff.1 hrest
  obtain ⟨l₁, l₂, hk⟩ := List.append_of_mem hi
  obtain ⟨b', e, hregular, hnew, hkept, hframe⟩ := replace_regular h hk hp newQty
  refine ⟨b', isBuy, price, l₁, i, l₂, e, (hl.mapped _ i hi).2, rfl, (hl.place_eq hi).2, hk, hregular, ?_, hnew, hkept,
    hframe⟩
  refine positive_replaced hl hpos hk ?_ fun j hj => ?_
  · obtain ⟨_, _, horder⟩ := hnew
    rw [horder]
    exact hq
  · exact (hkept j hj).2.2.1

theorem replace_prioritises_ask : ∃ (b b' : FastBitsetOrderBook) (next prev : Nat), b.Resting 1 ∧
    b.replaceOrder 1 7 20 = .ok b' ∧ b'.order 0 = ⟨1, 7, 20, false, next, prev⟩ := by
  obtain ⟨b₀, b, Q, F, _, _, hregular, hpos, hrest, _, hslot, horder, _⟩ := ask_regular
  obtain ⟨b', isBuy, price, l₁, i, l₂, e, hi, hid, _, hk, _, _, ⟨next, prev, hnew⟩, _⟩ :=
    replace_prioritises hregular hpos hrest (show 7 < MAX_PRICES by decide) (show 0 < 20 by decide)
  obtain rfl : 0 = i := hslot.symm.trans hi
  have hside := (hregular.linked.place_eq (show 0 ∈ Q (isBuy, price) by rw [hk]; simp)).1
  rw [horder] at hside
  obtain rfl : false = isBuy := hside
  exact ⟨b, b', next, prev, hrest, e, hnew⟩

end FastBitsetOrderBook

end Lobook
