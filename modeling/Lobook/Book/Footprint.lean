import Lobook.Book.Amendment

/-!
# How much of the pool is used

A slot that becomes free is the first one to be used again.  So the slots that have been used are as many as there have
been orders at one time: if at most `h` orders rested at one time, only the first `h` slots have been written, and the
free list goes through some of them and then through all the others in their order (`peak_run`).
-/

namespace Lobook

open Checked Links PriceTime Relation Transition

/-! ### Free lists -/

/-- Some numbers below `h`, and then all from `h` up to `n` in their order. -/
def Stacked (n h : Nat) (F : List Nat) : Prop := ∃ used, F = used ++ List.range' h (n - h) ∧ ∀ j ∈ used, j < h

variable {n h i : Nat} {F : List Nat}

theorem stacked_init (n : Nat) : Stacked n 0 (List.range' 0 n) := ⟨[], rfl, fun _ hj => by cases hj⟩

theorem Stacked.push (hF : Stacked n h F) (hi : i < h) : Stacked n h (i :: F) := by
  obtain ⟨used, rfl, hused⟩ := hF
  exact ⟨i :: used, rfl, List.forall_mem_cons.2 ⟨hi, hused⟩⟩

/-- What is taken is a number that has been used, or, if there is none, the first one that has not. -/
theorem Stacked.pop (hF : Stacked n h (i :: F)) :
    i < h ∧ Stacked n h F ∨ i = h ∧ h < n ∧ Stacked n (h + 1) F ∧ ∀ j ∈ F, h < j := by
  obtain ⟨used, hsplit, hused⟩ := hF
  cases used with
  | cons j used =>
    obtain ⟨rfl, rfl⟩ := List.cons.inj hsplit
    obtain ⟨hj, hrest⟩ := List.forall_mem_cons.1 hused
    exact Or.inl ⟨hj, used, rfl, hrest⟩
  | nil =>
    rw [List.nil_append] at hsplit
    cases hm : n - h with
    | zero =>
      rw [hm] at hsplit
      cases hsplit
    | succ m =>
      rw [hm, List.range'_succ] at hsplit
      obtain ⟨rfl, rfl⟩ := List.cons.inj hsplit
      have hm' : n - (i + 1) = m := by omega
      refine Or.inr ⟨rfl, by omega, ⟨[], by rw [hm']; rfl, fun _ hj => by cases hj⟩, fun j hj => ?_⟩
      rw [List.mem_range'_1] at hj
      omega

namespace Ladder

variable {b₀ b b' : Ladder} {Q : Bool × Nat → List Nat} {isBuy : Bool} {price id qty : Nat} {l l₁ l₂ : List Nat}

/-- How many ids below `n` rest. -/
def orderCount (b : Ladder) (n : Nat) : Nat := ((Finset.range n).filter fun id => b.Shows id).card

/-- The slots from `h` on are free and as they were at first. -/
structure Reaches (b₀ b : Ladder) (n h : Nat) (Q : Bool × Nat → List Nat) (F : List Nat) : Prop where
  stacked : Stacked n h F
  below : ∀ k, ∀ i ∈ Q k, i < h
  same : ∀ j, h ≤ j → b.order j = b₀.order j

/-! ### Counting the orders -/

theorem Linked.slot_of_shows (hb : b.Linked Q F) (hid : b.Shows id) :
    (∃ k, b.slot id ∈ Q k) ∧ (b.order (b.slot id)).id = id := by
  obtain ⟨hid, hp, hmem⟩ := hid
  rw [hb.queue_eq hp] at hmem
  exact ⟨⟨_, hmem⟩, hid⟩

/-- There are not more orders than slots that can hold one. -/
theorem Linked.orderCount_le (hb : b.Linked Q F) (hbelow : ∀ k, ∀ i ∈ Q k, i < h) (n : Nat) : b.orderCount n ≤ h := by
  have hcard : b.orderCount n ≤ (Finset.range h).card := by
    apply Finset.card_le_card_of_injOn b.slot
    · intro id hid
      obtain ⟨⟨k, hmem⟩, _⟩ := hb.slot_of_shows (Finset.mem_filter.1 hid).2
      exact Finset.mem_coe.2 (Finset.mem_range.2 (hbelow k _ hmem))
    · intro id hid id' hid' heq
      rw [← (hb.slot_of_shows (Finset.mem_filter.1 hid).2).2, heq]
      exact (hb.slot_of_shows (Finset.mem_filter.1 hid').2).2
  rwa [Finset.card_range] at hcard

/-- There are at least as many orders as slots that hold one. -/
theorem Linked.le_orderCount (hb : b.Linked Q F) (hmap : b.idMap.size = n) (hheld : ∀ j, j < h → ∃ k, j ∈ Q k) :
    h ≤ b.orderCount n := by
  have hcard : (Finset.range h).card ≤ b.orderCount n := by
    apply Finset.card_le_card_of_injOn fun j => (b.order j).id
    · intro j hj
      obtain ⟨k, hk⟩ := hheld j (Finset.mem_range.1 (Finset.mem_coe.1 hj))
      have hid := (hb.mapped k j hk).1
      rw [hmap] at hid
      exact Finset.mem_coe.2 (Finset.mem_filter.2 ⟨Finset.mem_range.2 hid,
        hb.shows_iff.2 (hb.resting_iff.2 ⟨k, j, hk, rfl⟩)⟩)
    · intro i hi j hj heq
      obtain ⟨k, hk⟩ := hheld i (Finset.mem_range.1 (Finset.mem_coe.1 hi))
      obtain ⟨k', hk'⟩ := hheld j (Finset.mem_range.1 (Finset.mem_coe.1 hj))
      exact hb.eq_of_id hk hk' heq
  rwa [Finset.card_range] at hcard

/-! ### What the blocks write -/

/-- The order behind another one, if there is one, is in the same queue. -/
theorem Linked.next_mem (hb : b.Linked Q F) {k : Bool × Nat} (hi : i ∈ Q k) (hnext : (b.order i).next ≠ NULL_IDX) :
    (b.order i).next ∈ Q k := by
  obtain ⟨l₁, l₂, hk⟩ := List.append_of_mem hi
  have hpath := hb.threads.queue k
  rw [hk] at hpath
  obtain ⟨_, _, _, hrest⟩ := path_append.1 hpath
  cases l₂ with
  | nil => exact absurd hrest hnext
  | cons c l₂ =>
    have hc : (b.order i).next = c := hrest.1
    rw [hc, hk]
    simp

namespace Reaches

theorem popped (hr : Reaches b₀ b n h Q F) (hb : b.Pool Q F) (hk : Q (isBuy, price) = i :: l) :
    Reaches b₀ (b.popped isBuy price) n h (Function.update Q (isBuy, price) l) (i :: F) := by
  have hi : i < h := hr.below _ i (hk ▸ List.mem_cons_self)
  constructor
  · exact hr.stacked.push hi
  · exact fun k j hj => hr.below k j (hb.threads.mem_of_pop hk hj).1
  · intro j hj
    rw [order_popped (hb.of_cons hk).1 (by omega)]
    exact hr.same j hj

theorem reduced (hr : Reaches b₀ b n h Q F) (hb : b.Pool Q F) (hk : Q (isBuy, price) = i :: l) :
    Reaches b₀ (b.reduced isBuy price qty) n h Q F := by
  have hi : i < h := hr.below _ i (hk ▸ List.mem_cons_self)
  refine ⟨hr.stacked, hr.below, fun j hj => ?_⟩
  have hji : j ≠ i := by omega
  rw [order_reduced (hb.of_cons hk).1, if_neg hji]
  exact hr.same j hj

/-- An order that leaves its queue has its neighbours in the queue, unless what it writes changes nothing. -/
theorem unlinked (hr : Reaches b₀ b n h Q F) (hb : b.Pool Q F) (hk : Q (isBuy, price) = l₁ ++ i :: l₂)
    (hclean : b.UnlinksCleanly i) (hu : b.Unlinked isBuy price i b') :
    Reaches b₀ b' n h (Function.update Q (isBuy, price) (l₁ ++ l₂)) F := by
  have hi : i ∈ Q (isBuy, price) := by rw [hk]; simp
  refine ⟨hr.stacked, fun k j hj => hr.below k j (hb.threads.mem_of_unlink hk hj).1, fun j hj => ?_⟩
  have hout : ∀ k, j ∉ Q k := fun k hjk => absurd (hr.below k j hjk) (by omega)
  have hnext : ¬ ((b.order i).next ≠ NULL_IDX ∧ j = (b.order i).next) := by
    rintro ⟨hnull, rfl⟩
    exact hout _ (hb.toLinked.next_mem hi hnull)
  rw [← hr.same j hj, hu.order, if_neg hnext]
  by_cases hprev : (b.order i).prev ≠ NULL_IDX ∧ j = (b.order i).prev
  · obtain ⟨hnull, rfl⟩ := hprev
    rcases List.eq_nil_or_concat l₁ with rfl | ⟨l, a, rfl⟩
    · rw [if_pos ⟨hnull, rfl⟩, ← hb.first_of_clean hk hclean rfl hnull]
    · rw [List.concat_eq_append] at hk
      have ha : (b.order i).prev = a := hb.mirrored.prev_eq hk List.getLast?_concat
      exact absurd (show (b.order i).prev ∈ Q (isBuy, price) by rw [ha, hk]; simp) (hout _)
  · rw [if_neg hprev]

/-- A slot that becomes the last one of a queue has its neighbour in the queue. -/
theorem appended (hr : Reaches b₀ b n h Q F) (hb : b.Linked Q F) (hi : i < h) (hp : price < MAX_PRICES)
    (ha : b.Appended isBuy price i b') :
    Reaches b₀ b' n h (Function.update Q (isBuy, price) (Q (isBuy, price) ++ [i])) F := by
  refine ⟨hr.stacked, fun k j hj => ?_, fun j hj => ?_⟩
  · rcases eq_or_ne k (isBuy, price) with rfl | hne
    · rw [Function.update_self, List.mem_append, List.mem_singleton] at hj
      rcases hj with hj | rfl
      · exact hr.below _ j hj
      · exact hi
    · rw [Function.update_of_ne hne] at hj
      exact hr.below k j hj
  · have hji : j ≠ i := by omega
    have htail : ¬ ((b.level isBuy price).head ≠ NULL_IDX ∧ j = (b.level isBuy price).tail) := by
      rintro ⟨hhead, rfl⟩
      have hmem := hb.threads.tail_mem fun e => hhead ((hb.head_eq_null hp).2 e)
      have hlt : (b.level isBuy price).tail < h := hr.below _ _ hmem
      omega
    rw [← hr.same j hj, ha.order, if_neg htail, if_neg hji]

/-- The data of a slot below `h` does not matter. -/
theorem eqExcept (hr : Reaches b₀ b n h Q F) (hi : i < h) (he : EqExcept i b b') : Reaches b₀ b' n h Q F := by
  refine ⟨hr.stacked, hr.below, fun j hj => ?_⟩
  have hji : j ≠ i := by omega
  rw [he.order j hji]
  exact hr.same j hj

/-- A new order takes a slot that has been used, or, if all of these hold orders, the next one. -/
theorem rested (hr : Reaches b₀ b n h Q (i :: F)) (hb : b.Pool Q (i :: F))
    (hfresh : ∀ k, ∀ j ∈ Q k, (b.order j).id ≠ id) (hp : price < MAX_PRICES)
    (ha : (b.taken id price qty isBuy).Appended isBuy price i b') :
    (i < h ∧ Reaches b₀ b' n h (Function.update Q (isBuy, price) (Q (isBuy, price) ++ [i])) F) ∨
      h < n ∧ (∀ j ∈ F, h < j) ∧
        Reaches b₀ b' n (h + 1) (Function.update Q (isBuy, price) (Q (isBuy, price) ++ [i])) F := by
  obtain ⟨hfree, _, _, _, htaken⟩ := hb.taken hfresh price qty isBuy
  have horder : ∀ j, j ≠ i → (b.taken id price qty isBuy).order j = b.order j := by
    intro j hj
    rw [order_taken hfree, if_neg hj]
  rcases hr.stacked.pop with ⟨hi, hF⟩ | ⟨rfl, hn, hF, hrest⟩
  · left
    have hr' : Reaches b₀ (b.taken id price qty isBuy) n h Q F :=
      ⟨hF, hr.below, fun j hj => (horder j (by omega)).trans (hr.same j hj)⟩
    exact ⟨hi, hr'.appended htaken.toLinked hi hp ha⟩
  · right
    have hr' : Reaches b₀ (b.taken id price qty isBuy) n (i + 1) Q F :=
      ⟨hF, fun k j hj => Nat.lt_succ_of_lt (hr.below k j hj),
        fun j hj => (horder j (by omega)).trans (hr.same j (by omega))⟩
    exact ⟨hn, hrest, hr'.appended htaken.toLinked (Nat.lt_succ_self i) hp ha⟩

end Reaches

end Ladder

namespace FastBitsetOrderBook

open Ladder

variable {b₀ b b' : FastBitsetOrderBook} {Q : Bool × Nat → List Nat} {isBuy : Bool} {price id newPrice newQty : Nat}

/-- Every legal request without a stale back link uses new slots only for more orders than there were before. -/
theorem Whole.request_reaches {l₀ : Ladder} (hw : b.Whole n Q F) (hr : Reaches l₀ b.toLadder n h Q F) {r : Request}
    (hlegal : Legal n b r) (hdetach : b.Detaches r) :
    ∃ b' Q' F', b.RequestStep r b' ∧ b'.Whole n Q' F' ∧
      Reaches l₀ b'.toLadder n (max h (b'.orderCount n)) Q' F' := by
  -- while the slots below `h` are enough, the orders are at most `h`
  have henough : ∀ {b' : FastBitsetOrderBook} {Q' F'}, b'.Whole n Q' F' → Reaches l₀ b'.toLadder n h Q' F' →
      Reaches l₀ b'.toLadder n (max h (b'.orderCount n)) Q' F' := by
    intro b' Q' F' hw' hr'
    rwa [Nat.max_eq_left (hw'.pool.toLinked.orderCount_le hr'.below n)]
  match r with
  | .call (.submit id price qty isBuy) =>
    obtain ⟨hid, hrest, hp⟩ := hlegal
    obtain ⟨b₁, b', Q₁, F₁, qty', hstep, _, h₁, hr₁, hfresh₁, hcases⟩ := hw.submit
      (P := fun b₁ Q₁ F₁ _ => Reaches l₀ b₁ n h Q₁ F₁) hid (hw.pool.fresh hrest) hp qty isBuy hr
      (fun b Q F qty p i l hb hr hk _ _ _ => hr.popped hb hk) (fun b Q F qty p i l hb hr hk _ _ _ => hr.reduced hb hk)
    rcases hcases with ⟨_, rfl, hw'⟩ | ⟨i, F₂, _, rfl, happ, hw'⟩
    · exact ⟨b', Q₁, F₁, hstep, hw', henough hw' hr₁⟩
    · rcases hr₁.rested h₁ hfresh₁ hp happ with ⟨_, hr'⟩ | ⟨hn, hrest', hr'⟩
      · exact ⟨b', _, F₂, hstep, hw', henough hw' hr'⟩
      · -- now all slots up to `h` hold orders
        have hfull : ∀ j, j < h + 1 → ∃ k, j ∈ Function.update Q₁ (isBuy, price) (Q₁ (isBuy, price) ++ [i]) k := by
          intro j hj
          rcases hw'.held j (by omega) with hj' | hj'
          · have hlt := hrest' j hj'
            omega
          · exact hj'
        have hle := hw'.pool.toLinked.le_orderCount hw'.map_size hfull
        have hge := hw'.pool.toLinked.orderCount_le hr'.below n
        have hpeak : max h (b'.orderCount n) = h + 1 := by omega
        exact ⟨b', _, F₂, hstep, hw', hpeak ▸ hr'⟩
  | .call (.cancel id) =>
    obtain ⟨⟨isBuy, price⟩, i, hi, rfl⟩ := hw.pool.resting_iff.1 hlegal
    obtain ⟨l₁, l₂, hk⟩ := List.append_of_mem hi
    have hclean : b.UnlinksCleanly (b.slot (b.order i).id) := hdetach
    rw [(hw.pool.mapped _ i hi).2] at hclean
    obtain ⟨b₁, b', hstep, hu, hb', hw'⟩ := hw.cancel hk hclean
    have hi' : i < h := hr.below _ i hi
    obtain ⟨hF, hbelow, hsame⟩ := hr.unlinked hw.pool hk hclean hu
    refine ⟨b', _, _, hstep, hw', henough hw' ⟨hF.push hi', hbelow, fun j hj => ?_⟩⟩
    have hji : j ≠ i := by omega
    rw [hb', order_freed hji]
    exact hsame j hj
  | .replace id newPrice newQty =>
    obtain ⟨hrest, hp⟩ := hlegal
    obtain ⟨⟨isBuy, price⟩, i, hi, rfl⟩ := hw.pool.resting_iff.1 hrest
    obtain ⟨l₁, l₂, hk⟩ := List.append_of_mem hi
    have hclean : b.Moves (b.slot (b.order i).id) newPrice newQty → b.UnlinksCleanly (b.slot (b.order i).id) := hdetach
    rw [(hw.pool.mapped _ i hi).2] at hclean
    have hi' : i < h := hr.below _ i hi
    obtain ⟨b', hstep, ⟨_, _, hb', hw'⟩ | ⟨hmoves, hm, hw'⟩⟩ := hw.replace_cases hk hclean hp
    · refine ⟨b', Q, F, hstep, hw', henough hw' ?_⟩
      rw [hb']
      exact hr.eqExcept hi' (eqExcept_withOrder _)
    · obtain ⟨b₁, b₂, hu, ha, he, _⟩ := hm.blocks
      obtain ⟨_, _, h₁⟩ := hw.pool.unlinked hk (hw.pool.first_of_clean hk (hclean hmoves)) hu
      have hr₁ := hr.unlinked hw.pool hk (hclean hmoves) hu
      exact ⟨b', _, F, hstep, hw', henough hw' ((hr₁.appended h₁.toLinked hi' hp ha).eqExcept hi' he)⟩

/-- A lawful request, and the largest number of orders that have rested at one time. -/
def Peaked (n : Nat) (s : FastBitsetOrderBook × Nat) (r : Request) (t : FastBitsetOrderBook × Nat) : Prop :=
  Lawful n s.1 r ∧ s.1.RequestStep r t.1 ∧ t.2 = max s.2 (t.1.orderCount n)

/-- Along every run, if `h` is the largest number of orders that have rested at one time, the free list goes through some
slots below `h` and then through all the others in their order; the slots below `h` hold all orders, and the others still
hold what `init` wrote. -/
theorem peak_run (hlt : n < NULL_IDX) (hinit : new.init n = .ok b₀) (rs : List Request) (b : FastBitsetOrderBook)
    (h : Nat) (hrun : Run (Peaked n) (b₀, 0) rs (b, h)) :
    (∃ used, b.Meets b.nextFreeOrderIdx (used ++ List.range' h (n - h)) ∧ ∀ i ∈ used, i < h) ∧
      (∀ s p, p < MAX_PRICES → ∀ i ∈ b.queue s p, i < h) ∧ ∀ j, h ≤ j → b.order j = b₀.order j := by
  let I : FastBitsetOrderBook × Nat → Prop := fun s =>
    ∃ Q F, s.1.Whole n Q F ∧ Reaches b₀.toLadder s.1.toLadder n s.2 Q F
  have hI : I (b, h) := by
    apply hrun.invariant
    · exact ⟨_, _, Whole.init hlt hinit, stacked_init n, fun k i hi => (by cases hi), fun _ _ => rfl⟩
    · rintro ⟨b, h⟩ r ⟨b', h'⟩ ⟨Q, F, hw, hr⟩ ⟨hlawful, hstep, hpeak⟩
      obtain ⟨b₁, Q', F', hstep', hw', hr'⟩ := hw.request_reaches hr hlawful.1 hlawful.2
      obtain rfl := hstep.unique hstep'
      exact ⟨Q', F', hw', hpeak ▸ hr'⟩
  obtain ⟨Q, F, hw, hr⟩ := hI
  obtain ⟨used, rfl, hused⟩ := hr.stacked
  refine ⟨⟨used, ⟨hw.pool.threads.freeList, hw.pool.threads.null_free⟩, hused⟩, fun s p hp i hi => ?_, hr.same⟩
  rw [hw.pool.queue_eq hp] at hi
  exact hr.below _ i hi

/-- Every lawful run has a largest number of orders. -/
theorem run_peaked {rs : List Request} (hrun : Run (Guarded (Lawful n) RequestStep) b₀ rs b) :
    ∃ h, Run (Peaked n) (b₀, 0) rs (b, h) := by
  induction hrun with
  | refl => exact ⟨0, Run.refl⟩
  | @snoc _ _ _ u _ hs ih =>
    obtain ⟨h, hrun⟩ := ih
    exact ⟨max h (u.orderCount n), hrun.snoc ⟨hs.1, hs.2, rfl⟩⟩

/-- A bid that is cancelled, and another one that takes its slot. -/
def reusedSlot : List Request := [.call (.submit 2 5 10 true), .call (.cancel 2), .call (.submit 1 6 10 true)]

theorem reusedSlot_run : ∃ b₀, new.init 3 = .ok b₀ ∧
    Run (Guarded (Lawful 3) RequestStep) b₀ reusedSlot (trial 3 reusedSlot) := run_trial (by decide) (by decide +kernel)

theorem peak_run_reusedSlot : ∃ b₀ h, new.init 3 = .ok b₀ ∧ Run (Peaked 3) (b₀, 0) reusedSlot (trial 3 reusedSlot, h) ∧
    ∀ j, h ≤ j → (trial 3 reusedSlot).order j = b₀.order j := by
  obtain ⟨b₀, h₀, hrun⟩ := reusedSlot_run
  obtain ⟨h, hpeaked⟩ := run_peaked hrun
  exact ⟨b₀, h, h₀, hpeaked, (peak_run (by decide) h₀ _ _ _ hpeaked).2.2⟩

end FastBitsetOrderBook

end Lobook
