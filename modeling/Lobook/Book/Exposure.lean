import Lobook.Book.Staging

/-!
# Calls that show what `init` left

After the script, a bid for more than the order in slot 0 fills this order twice: the first time it puts the slot before
the free list, the second time it takes the free list for the rest of the level.  So it fills the orders that `init`
left in these slots, and what a caller sees then depends on their quantities and ids.
-/

namespace Lobook

open Checked Links Transition

/-! ### What filling does to the map -/

namespace Ladder

variable {b b' : Ladder} {s : Bool} {p i qty qty' fuel : Nat} {l : List Nat}

/-- Filling erases entries, and leaves a slot of the pool free if there is one. -/
structure Erased (b b₁ : Ladder) : Prop where
  size : b₁.orders.size = b.orders.size
  slot : ∀ id, b₁.slot id = b.slot id ∨ b₁.slot id = NULL_IDX
  free : b.nextFreeOrderIdx ≠ NULL_IDX ∧ b.nextFreeOrderIdx < b.orders.size →
    b₁.nextFreeOrderIdx ≠ NULL_IDX ∧ b₁.nextFreeOrderIdx < b₁.orders.size

theorem fillLevel_erased (h : b.fillLevel fuel s p qty = .ok (b', qty')) : Erased b b' := by
  have hloop : Sat (fun _ => True) (b.fillLevel fuel s p qty) fun r => Erased b r.1 := by
    refine Sat.loop (I := fun r => Erased b r.1) trivial (fun r hr => sat_true_iff.2 fun flow hflow => ?_) fuel
      ⟨rfl, fun _ => Or.inl rfl, id⟩
    obtain ⟨b₁, qty₁⟩ := r
    obtain ⟨_, ⟨_, rfl⟩ | ⟨hhead, hlt, _, ⟨_, rfl⟩ | ⟨_, _, rfl⟩⟩⟩ := fillRound_cases hflow
    · exact hr
    · exact ⟨hr.size, hr.slot, hr.free⟩
    · refine ⟨hr.size, fun id => ?_, fun _ => ⟨hhead, hlt⟩⟩
      rw [slot_popped rfl]
      split
      · exact Or.inr rfl
      · exact hr.slot id
  exact hloop.of_ok h

/-- If something is left, then all orders of the level are filled and their entries are null. -/
theorem fillLevel_clears (hl : b.Meets (b.level s p).head l) (h : b.fillLevel fuel s p qty = .ok (b', qty'))
    (hq : 0 < qty') (hi : i ∈ l) : b'.slot (b.order i).id = NULL_IDX := by
  induction fuel generalizing b l qty with
  | zero => cases h
  | succ fuel ih =>
    obtain ⟨flow, hflow, hrest⟩ := bind_eq_ok.1 h
    obtain ⟨_, ⟨hidle, rfl⟩ | ⟨hhead, _, _, ⟨_, rfl⟩ | ⟨_, _, rfl⟩⟩⟩ := fillRound_cases hflow
    · cases hrest
      have hnil := (hl.1.head_eq_iff hl.2).1 (hidle.resolve_right (Nat.ne_of_gt hq))
      rw [hnil] at hi
      cases hi
    · cases hrest
      exact absurd hq (Nat.lt_irrefl 0)
    · cases l with
      | nil => cases hi
      | cons j l =>
        obtain ⟨⟨hj, hpath⟩, hnull⟩ := hl
        have hjl : j ∉ l := (List.nodup_cons.1 (Path.nodup ⟨hj, hpath⟩ hnull)).1
        have horder : ∀ k ∈ l, (b.popped s p).order k = b.order k :=
          fun k hk => order_popped hj fun e => hjl (e ▸ hk)
        rcases List.mem_cons.1 hi with rfl | hi
        · -- the entry of the first order is erased now, and stays so
          have herased := (fillLevel_erased hrest).slot (b.order i).id
          rw [slot_popped hj, if_pos rfl] at herased
          exact herased.elim id id
        · have hmeets : (b.popped s p).Meets ((b.popped s p).level s p).head l := by
            rw [show ((b.popped s p).level s p).head = (b.order j).next by simp [popped, hj]]
            exact ⟨hpath.congr fun k hk => by rw [horder k hk], fun h => hnull (List.mem_cons_of_mem _ h)⟩
          rw [← horder i hi]
          exact ih hmeets hrest hi

end Ladder

/-! ### The bait is taken -/

namespace FastOrderBook

open Ladder

variable {b b' : FastOrderBook} {b₀ : Ladder} {n x z i : Nat}

/-- The book when slot 0 has been filled twice: the asks at 1 go on with the free list. -/
def opened (b : FastOrderBook) (x : Nat) : FastOrderBook :=
  stage b ⟨0, 1, 0, false, 0, 0⟩ ⟨x, 2, 1, false, NULL_IDX, NULL_IDX⟩ ⟨2, 0⟩ ⟨1, 1⟩
    (Function.update (Function.update (scriptEntries b x) 0 NULL_IDX) 0 NULL_IDX) 0

theorem fillLevel_baited (hb : 2 < b.orders.size) (hm : 2 < b.idMap.size) (fuel : Nat) :
    fillLevel (fuel + 2) false 1 (baited b x) 2 = fillLevel fuel false 1 (opened b x) 1 := by
  have h₁ := stage_fill (o := ⟨0, 1, 1, false, 0, 0⟩) (u := ⟨x, 2, 1, false, NULL_IDX, NULL_IDX⟩) (t := 0)
    (l := ⟨1, 1⟩) (e := scriptEntries b x) (k := 2) hb (show 0 < b.idMap.size by omega) Nat.two_pos (Nat.le_succ 1)
  have h₂ := stage_fill (o := ⟨0, 1, 0, false, 2, 0⟩) (u := ⟨x, 2, 1, false, NULL_IDX, NULL_IDX⟩) (t := 0)
    (l := ⟨1, 1⟩) (e := Function.update (scriptEntries b x) 0 NULL_IDX) (k := 0) hb (show 0 < b.idMap.size by omega)
    Nat.one_pos (Nat.zero_le 1)
  exact (loop_again h₁ (fuel + 1)).trans (loop_again h₂ fuel)

/-- What a bid for two at 1 does then. -/
theorem step_baited_iff (hb : 2 < b.orders.size) (hm : 2 < b.idMap.size) :
    Step (baited b x) (.submit z 1 2 true) b' ↔ ∃ fuel r q, fillLevel fuel false 1 (opened b x) 1 = .ok (r, q) ∧
      (if 0 < q then addOrder r z 1 q true else .ok r) = .ok b' := by
  have hmatch : ∀ fuel, matchOrder (fuel + 3) (baited b x) 1 2 true = fillLevel (fuel + 1) false 1 (opened b x) 1 :=
    fun fuel => (matchOrder_one rfl Nat.two_pos fuel).trans (fillLevel_baited hb hm (fuel + 1))
  constructor
  · rintro ⟨fuel, e⟩
    have e' := (exec_cutOff (Nat.le_add_right fuel 3) _ _).extends _ e
    obtain ⟨⟨r, q⟩, hfill, hadd⟩ := bind_eq_ok.1 e'
    rw [hmatch] at hfill
    exact ⟨fuel + 1, r, q, hfill, hadd⟩
  · rintro ⟨fuel, r, q, hfill, hadd⟩
    have hfill' := (fillLevel_cutOff (Nat.le_add_right fuel 1) false 1 (opened b x) 1).extends _ hfill
    refine ⟨fuel + 3, ?_⟩
    simp only [exec, submitOrder, hmatch, hfill', ok_bind]
    exact hadd

/-- The slots behind slot 1 that the free list of an initialised book leads to. -/
theorem opened_meets (h : b₀.Initialised n b) (hn : 3 ≤ n) (x : Nat) :
    ∃ l, Ladder.Meets (opened b x) 2 l ∧ ∀ i, i ∈ l ↔ 2 ≤ i ∧ i < n ∧ i < NULL_IDX := by
  have hnull : NULL_IDX = 4294967295 := rfl
  obtain ⟨m, hm⟩ : ∃ m, min n NULL_IDX = m + 2 := ⟨min n NULL_IDX - 2, by omega⟩
  have hpath := (Linked.init h).threads.freeList
  rw [hm, List.range'_succ, List.range'_succ] at hpath
  obtain ⟨_, _, hpath⟩ := hpath
  have hnext : (fun i => (Ladder.order b i).next) (0 + 1) = 2 :=
    (h.next_eq (i := 1) ⟨by omega, by decide⟩).trans (if_neg (by omega))
  rw [hnext] at hpath
  have hmem : ∀ i, i ∈ List.range' (0 + 1 + 1) m ↔ 2 ≤ i ∧ i < n ∧ i < NULL_IDX := by
    intro i
    rw [List.mem_range'_1]
    omega
  refine ⟨_, ⟨hpath.congr fun i hi => ?_, fun hmem' => ?_⟩, hmem⟩
  · rw [opened, stage_order _ _ _ _ _ _ _ ((hmem i).1 hi).1]
  · exact absurd ((hmem NULL_IDX).1 hmem').2.2 (Nat.lt_irrefl _)

/-- The entries of other ids than 0 are those that the script has left. -/
theorem slot_opened (hx : 0 < x) : Ladder.slot (opened b x) x = 1 ∧
    ∀ z, 0 < z → z ≠ x → z = 1 ∨ Ladder.slot b z = 0 →
      Ladder.slot (opened b x) z = 0 ∨ Ladder.slot (opened b x) z = NULL_IDX := by
  have hslot : ∀ id, 0 < id → Ladder.slot (opened b x) id = scriptEntries b x id := by
    intro id hid
    have hne : id ≠ 0 := Nat.ne_of_gt hid
    exact (Function.update_of_ne hne _ _).trans (Function.update_of_ne hne _ _)
  refine ⟨?_, fun z hz hzx hentry => ?_⟩
  · rw [hslot x hx]
    exact Function.update_self x 1 _
  · rw [hslot z hz, scriptEntries, Function.update_of_ne hzx]
    by_cases hone : z = 1
    · rw [hone, Function.update_self]
      exact Or.inr rfl
    · have hzero : z ≠ 0 := Nat.ne_of_gt hz
      simp only [Function.update_of_ne hone, Function.update_of_ne hzero]
      exact Or.inl (hentry.resolve_left hone)

/-- A bid comes to rest in the first free slot of a book without bids at its price. -/
theorem addOrder_rests {r : FastOrderBook} {price : Nat} (hfree : r.nextFreeOrderIdx ≠ NULL_IDX)
    (hlt : r.nextFreeOrderIdx < r.orders.size) (hz : z < r.idMap.size) (hp : price < MAX_PRICES) (qty : Nat)
    (hempty : (Ladder.level r true price).head = NULL_IDX) : ∃ b', addOrder r z price qty true = .ok b' ∧
      b'.getQuantity z = .ok qty ∧ b'.orders.size = r.orders.size ∧ b'.idMap.size = r.idMap.size ∧
      (∀ id, id ≠ z → Ladder.slot b' id = Ladder.slot r id) ∧
      ∀ j, (Ladder.order b' j).qty = if j = r.nextFreeOrderIdx then qty else (Ladder.order r j).qty := by
  have hslot : ∀ id, Ladder.slot ((r.taken z price qty true).withLevel true price
      ⟨r.nextFreeOrderIdx, r.nextFreeOrderIdx⟩) id = if id = z then r.nextFreeOrderIdx else Ladder.slot r id := by
    intro id
    simp only [taken, slot_withLevel, slot_withSlot, slot_withOrder, slot_withFree]
  have horder : ∀ j, (Ladder.order ((r.taken z price qty true).withLevel true price
      ⟨r.nextFreeOrderIdx, r.nextFreeOrderIdx⟩) j).qty =
        if j = r.nextFreeOrderIdx then qty else (Ladder.order r j).qty := by
    intro j
    rw [order_withLevel, order_taken rfl]
    split <;> rfl
  refine ⟨_, addOrder_empty hfree hlt hz hp hempty, ?_, rfl, rfl, fun id hid => ?_, horder⟩
  · have hself := (hslot z).trans (if_pos rfl)
    refine Eq.trans (getQuantity_of_lt (by exact hz) hself hfree (by exact hlt)) ?_
    rw [horder, if_pos rfl]
  · rw [hslot, if_neg hid]

/-- What filling the opened level leaves: if the bid is not filled, then all orders that the free list leads to had no
quantity, and the entries of their ids are erased. -/
structure Drained (n : Nat) (b : FastOrderBook) (x : Nat) (r : FastOrderBook) (q : Nat) : Prop where
  size : r.orders.size = n
  map_size : r.idMap.size = n
  left : q = 0 ∨ q = 1
  rests : (∀ i ∈ slots n, 2 ≤ i → (Ladder.order b i).qty = 0) → q = 1
  orders : q = 1 → ∀ i ∈ slots n, 2 ≤ i → (Ladder.order b i).qty = 0 ∧ (Ladder.order b i).id < n ∧
    Ladder.slot r (Ladder.order b i).id = NULL_IDX
  first : (Ladder.order r 0).qty = 0
  second : (Ladder.order r 1).qty = 1
  erased : Ladder.Erased (opened b x) r
  bids : (Ladder.level r true 1).head = NULL_IDX
  free : r.nextFreeOrderIdx ≠ NULL_IDX ∧ r.nextFreeOrderIdx < r.orders.size

/-- An opened level leads to an end, so to fill it either fails at an id that is not in the map, or drains it. -/
theorem fillLevel_opened (h : b₀.Initialised n b) (hn : 3 ≤ n) (x fuel : Nat) (hfuel : n < fuel) :
    fillLevel fuel false 1 (opened b x) 1 = .error .outOfRange ∧
        (∃ i ∈ slots n, 2 ≤ i ∧ n ≤ (Ladder.order b i).id) ∨
      ∃ r q, fillLevel fuel false 1 (opened b x) 1 = .ok (r, q) ∧ Drained n b x r q ∧
        ∀ id, (∀ i ∈ slots n, 2 ≤ i → (Ladder.order b i).id ≠ id) → Ladder.slot r id = Ladder.slot (opened b x) id := by
  obtain ⟨l, hl, hmem⟩ := opened_meets h hn x
  have hbound : ∀ i ∈ l, i < (opened b x).orders.size := fun i hi => h.size.symm ▸ ((hmem i).1 hi).2.1
  have horder : ∀ i ∈ l, Ladder.order (opened b x) i = Ladder.order b i := fun i hi =>
    stage_order _ _ _ _ _ _ _ ((hmem i).1 hi).1
  have hslots : ∀ i, i ∈ l ↔ i ∈ slots n ∧ 2 ≤ i := fun i => (hmem i).trans and_comm
  rcases fillLevel_swept (b := opened b x) (s := false) fuel (show 1 < MAX_PRICES by decide) hl hbound 1 with
    ⟨_, hle⟩ | ⟨e, i, hi, hid⟩ | ⟨⟨r, q⟩, e, hswept⟩
  · -- the fuel is enough: the level has fewer orders than the pool
    have hlen := Meets.length_le hl hbound
    rw [show (opened b x).orders.size = n from h.size] at hlen
    omega
  · rw [horder i hi, show (opened b x).idMap.size = n from h.map_size] at hid
    exact Or.inl ⟨e, i, ((hslots i).1 hi).1, ((hslots i).1 hi).2, hid⟩
  · have herased := fillLevel_erased e
    have hleft : q = 1 - (l.map fun i => (Ladder.order (opened b x) i).qty).sum := hswept.left
    refine Or.inr ⟨r, q, e, ⟨hswept.filled.size.trans h.size, hswept.filled.map_size.trans h.map_size, by omega,
      fun hzero => ?_, fun hq i hi hle => ?_, ?_, ?_, herased, ?_, herased.free ⟨zero_ne_null, ?_⟩⟩, fun id hne => ?_⟩
    · have hsum : (l.map fun i => (Ladder.order (opened b x) i).qty).sum = 0 := by
        refine List.sum_eq_zero fun q hq => ?_
        obtain ⟨i, hi, rfl⟩ := List.mem_map.1 hq
        rw [horder i hi]
        exact hzero i ((hslots i).1 hi).1 ((hslots i).1 hi).2
      omega
    · have hil : i ∈ l := (hslots i).2 ⟨hi, hle⟩
      have hsum : (Ladder.order (opened b x) i).qty ≤ (l.map fun i => (Ladder.order (opened b x) i).qty).sum :=
        List.le_sum_of_mem (List.mem_map_of_mem hil)
      have hid := hswept.ids (show 0 < q by omega) i hil
      have hclear := fillLevel_clears (l := l) (by exact hl) e (show 0 < q by omega) hil
      rw [horder i hil] at hsum hid hclear
      exact ⟨by omega, h.map_size ▸ hid, hclear⟩
    · rw [hswept.order 0 fun h₀ => absurd ((hmem 0).1 h₀).1 (by decide)]
      rfl
    · rw [hswept.order 1 fun h₁ => absurd ((hmem 1).1 h₁).1 (by decide)]
      rfl
    · rw [hswept.filled.level true 1 fun hs => absurd hs.1 (by decide)]
      rfl
    · exact h.size.symm ▸ h.pos
    · exact hswept.slot id fun i hi => horder i hi ▸ hne i ((hslots i).1 hi).1 ((hslots i).1 hi).2

/-- What is left of the bid comes to rest. -/
theorem Drained.addOrder {r : FastOrderBook} {q : Nat} (h : Drained n b x r q) (hz : z < n) :
    ∃ b', FastOrderBook.addOrder r z 1 q true = .ok b' ∧ b'.getQuantity z = .ok q ∧ b'.orders.size = n ∧
      b'.idMap.size = n ∧ (∀ id, id ≠ z → Ladder.slot b' id = Ladder.slot r id) ∧
      ∀ j, (Ladder.order b' j).qty = if j = r.nextFreeOrderIdx then q else (Ladder.order r j).qty := by
  obtain ⟨b', e, hqty, hsize, hmap, hrest⟩ := addOrder_rests h.free.1 h.free.2 (h.map_size.symm ▸ hz)
    (show 1 < MAX_PRICES by decide) q h.bids
  exact ⟨b', e, hqty, hsize.trans h.size, hmap.trans h.map_size, hrest⟩

/-- If the free list leads to orders of id 0 without a quantity, then both the bid and the order in slot 1 rest. -/
theorem bait_taken (h : b₀.Initialised n b) (hn : 3 ≤ n) (hx : 0 < x) (hxn : x < n) (hz : z < n) (hzx : z ≠ x)
    (hrest : ∀ i ∈ slots n, 2 ≤ i → (Ladder.order b i).qty = 0 ∧ (Ladder.order b i).id = 0) :
    ∃ b', Step (baited b x) (.submit z 1 2 true) b' ∧ b'.getQuantity z = .ok 1 ∧ b'.getQuantity x = .ok 1 := by
  have hb : 2 < b.orders.size := h.size.symm ▸ hn
  have hm : 2 < b.idMap.size := h.map_size.symm ▸ hn
  rcases fillLevel_opened h hn x (n + 1) (Nat.lt_succ_self n) with ⟨_, i, hi, hle, hid⟩ | ⟨r, q, e, hd, hkeep⟩
  · rw [(hrest i hi hle).2] at hid
    omega
  · obtain rfl := hd.rests fun i hi hle => (hrest i hi hle).1
    obtain ⟨b', e', hqty, hsize, hmap, hslot, horder⟩ := hd.addOrder hz
    refine ⟨b', (step_baited_iff hb hm).2 ⟨n + 1, r, 1, e, e'⟩, hqty, ?_⟩
    have hentry : Ladder.slot b' x = 1 := by
      rw [hslot x hzx.symm, hkeep x fun i hi hle => by rw [(hrest i hi hle).2]; exact Nat.ne_of_lt hx]
      exact (slot_opened hx).1
    rw [getQuantity_of_lt (hmap.symm ▸ hxn) hentry one_ne_null (by omega), horder, hd.second, ite_self]

/-- If both rest, then the free list leads to orders without a quantity, and `x` is not an id of theirs. -/
theorem bait_shows (h : b₀.Initialised n b) (hn : 3 ≤ n) (hx : 0 < x) (hz : 0 < z) (hzn : z < n)
    (hzx : z ≠ x) (hentry : z = 1 ∨ Ladder.slot b z = 0) (hstep : Step (baited b x) (.submit z 1 2 true) b')
    (hqz : b'.getQuantity z = .ok 1) (hqx : b'.getQuantity x = .ok 1) (hi : i ∈ slots n) (hle : 2 ≤ i) :
    (Ladder.order b i).qty = 0 ∧ (Ladder.order b i).id < n ∧ (Ladder.order b i).id ≠ x := by
  have hb : 2 < b.orders.size := h.size.symm ▸ hn
  have hm : 2 < b.idMap.size := h.map_size.symm ▸ hn
  obtain ⟨fuel, r, q, hfill, hadd⟩ := (step_baited_iff hb hm).1 hstep
  have hd : Drained n b x r q := by
    have hfill' := (fillLevel_cutOff (Nat.le_add_right fuel (n + 1)) false 1 (opened b x) 1).extends _ hfill
    rcases fillLevel_opened h hn x (fuel + (n + 1)) (by omega) with ⟨e, _⟩ | ⟨r', q', e, hd, _⟩
    · cases hfill'.symm.trans e
    · obtain ⟨rfl, rfl⟩ := Prod.mk.inj (Except.ok.inj (hfill'.symm.trans e))
      exact hd
  rcases hd.left with rfl | rfl
  · -- a bid that is filled does not rest, and its id had no quantity before
    obtain rfl : r = b' := Except.ok.inj hadd
    have hqty : r.getQuantity z = .ok 0 := by
      by_cases hnull : Ladder.slot r z = NULL_IDX
      · exact getQuantity_absent (Or.inr hnull)
      · have hkept := (hd.erased.slot z).resolve_right hnull
        have hslot : Ladder.slot r z = 0 :=
          hkept.trans (((slot_opened hx).2 z hz hzx hentry).resolve_right (hkept ▸ hnull))
        rw [getQuantity_of_lt (hd.map_size.symm ▸ hzn) hslot zero_ne_null (by rw [hd.size]; omega), hd.first]
    cases hqty.symm.trans hqz
  · obtain ⟨b'', e, _, _, hmap, hslot, _⟩ := hd.addOrder hzn
    obtain rfl : b'' = b' := Except.ok.inj (e.symm.trans hadd)
    obtain ⟨hqty, hid, hclear⟩ := hd.orders rfl i hi hle
    refine ⟨hqty, hid, fun hidx => ?_⟩
    rw [hidx, ← hslot x hzx.symm] at hclear
    cases (getQuantity_absent (Or.inr hclear)).symm.trans hqx

end FastOrderBook

end Lobook
