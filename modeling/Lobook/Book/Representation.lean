import Lobook.Book.Sweep

/-!
# The representation invariant of the pool

`Intact n b` says that the free list and the queues of all levels visit each of the `n` slots exactly once, and that the
tails and the back links are right.  `cancel_order` and `replace_order` of orders that rest keep this;
`submit_order` keeps it exactly if the incoming order does not end behind the first order of a level that it does not
fill, since `match` does not reset the back link of an order that becomes the first one.
-/

namespace Lobook

open Checked Links Relation Transition

namespace Ladder

/-- The free list `F` and the queues `Q` of the levels visit each of the `n` slots exactly once, and the tails and back
links of the levels are right. -/
structure IntactWith (n : Nat) (b : Ladder) (Q : Bool × Nat → List Nat) (F : List Nat) : Prop where
  free : b.Meets b.nextFreeOrderIdx F
  level : ∀ isBuy price, price < MAX_PRICES → b.Meets (b.level isBuy price).head (Q (isBuy, price))
  free_nodup : F.Nodup
  level_nodup : ∀ isBuy price, price < MAX_PRICES → (Q (isBuy, price)).Nodup
  once : ∀ i, i < n → (i ∈ F ∧ ∀ k : Bool × Nat, k.2 < MAX_PRICES → i ∉ Q k) ∨
    (i ∉ F ∧ ∃! k : Bool × Nat, k.2 < MAX_PRICES ∧ i ∈ Q k)
  free_lt : ∀ i ∈ F, i < n
  level_lt : ∀ isBuy price, price < MAX_PRICES → ∀ i ∈ Q (isBuy, price), i < n
  tail : ∀ isBuy price, price < MAX_PRICES → ∀ i, (Q (isBuy, price)).getLast? = some i →
    (b.level isBuy price).tail = i
  head_prev : ∀ isBuy price, price < MAX_PRICES → ∀ i l, Q (isBuy, price) = i :: l → (b.order i).prev = NULL_IDX
  back : ∀ isBuy price, price < MAX_PRICES → ∀ l₁ i j l₂, Q (isBuy, price) = l₁ ++ i :: j :: l₂ → (b.order j).prev = i

/-- The representation invariant of a pool of `n` orders. -/
def Intact (n : Nat) (b : Ladder) : Prop := ∃ Q F, IntactWith n b Q F

variable {b b' b₁ : Ladder} {Q : Bool × Nat → List Nat} {F l₁ l₂ : List Nat} {isBuy : Bool}
  {price i id qty newPrice newQty : Nat}

namespace Pool

/-- In a clean book every order can be unlinked. -/
theorem unlinksCleanly (h : b.Pool Q F) (hclean : b.Clean Q) (hi : i ∈ Q (isBuy, price)) : b.UnlinksCleanly i := by
  obtain ⟨rfl, rfl⟩ := h.place_eq hi
  intro hhead hprev
  cases hk : Q ((b.order i).isBuy, (b.order i).price) with
  | nil =>
    rw [hk] at hi
    cases hi
  | cons j l =>
    obtain rfl : j = i := (h.of_cons hk).1.symm.trans hhead
    exact absurd (hclean _ j l hk) hprev

/-! ### Clean books -/

theorem clean_unlinked (h : b.Pool Q F) (hclean : b.Clean Q) (hk : Q (isBuy, price) = l₁ ++ i :: l₂)
    (hu : b.Unlinked isBuy price i b') : b'.Clean (Function.update Q (isBuy, price) (l₁ ++ l₂)) := by
  refine Fronts.unlink hclean h.threads hk fun j => ?_
  rw [hu.order]

theorem clean_freed (hQ : ∀ k, i ∉ Q k) : (FastOrderBook.freed b id i).Clean Q ↔ b.Clean Q := by
  refine fronts_congr fun k j hj => ?_
  rw [order_freed fun e : j = i => hQ k (e ▸ hj)]

theorem clean_appended (h : b.Pool Q F) (hQ : ∀ k, i ∉ Q k) (hp : price < MAX_PRICES)
    (ha : b.Appended isBuy price i b') :
    b'.Clean (Function.update Q (isBuy, price) (Q (isBuy, price) ++ [i])) ↔ b.Clean Q := by
  refine fronts_append h.threads hQ fun j => ?_
  rw [ha.order, front_of_lt hp]

end Pool

namespace Linked

/-! ### Positive quantities -/

theorem positive_unlinked (h : b.Linked Q F) (hpos : b.Positive Q) (hk : Q (isBuy, price) = l₁ ++ i :: l₂)
    (hu : b.Unlinked isBuy price i b') : b'.Positive (Function.update Q (isBuy, price) (l₁ ++ l₂)) := by
  intro k j hj
  rw [hu.order]
  exact hpos k j (h.threads.mem_of_unlink hk hj).1

theorem positive_appended (hpos : b.Positive Q) (hQ : ∀ k, i ∉ Q k) (ha : b.Appended isBuy price i b₁)
    (he : EqExcept i b₁ b') (hi : 0 < (b'.order i).qty) :
    b'.Positive (Function.update Q (isBuy, price) (Q (isBuy, price) ++ [i])) := by
  intro k j hj
  rcases mem_of_append hQ hj with ⟨hj, hji⟩ | ⟨rfl, _⟩
  · rw [he.order j hji, ha.order]
    exact hpos k j hj
  · exact hi

theorem positive_freed (hpos : b.Positive Q) (hQ : ∀ k, i ∉ Q k) : (FastOrderBook.freed b id i).Positive Q := by
  intro k j hj
  rw [order_freed fun e : j = i => hQ k (e ▸ hj)]
  exact hpos k j hj

/-- A new order that has something left comes to rest. -/
theorem positive_rested (h : b.Linked Q (i :: F)) (hpos : b.Positive Q)
    (hfresh : ∀ k, ∀ j ∈ Q k, (b.order j).id ≠ id) (hq : 0 < qty)
    (ha : (b.taken id price qty isBuy).Appended isBuy price i b') :
    b'.Positive (Function.update Q (isBuy, price) (Q (isBuy, price) ++ [i])) := by
  obtain ⟨hfree, _, hQ, _⟩ := h.taken hfresh price qty isBuy
  refine positive_appended (fun k j hj => ?_) hQ ha EqExcept.refl ?_
  · rw [order_taken hfree, if_neg fun e : j = i => hQ k (e ▸ hj)]
    exact hpos k j hj
  · rw [ha.order, order_taken hfree, if_pos rfl]
    exact hq

theorem positive_withQty (hpos : b.Positive Q) (hq : 0 < newQty) :
    (b.withOrder i { b.order i with qty := newQty }).Positive Q := by
  intro k j hj
  rw [order_withOrder]
  split
  · exact hq
  · exact hpos k j hj

end Linked

end Ladder

namespace FastBitsetOrderBook

open Ladder

variable {b b' : FastBitsetOrderBook} {Q : Bool × Nat → List Nat} {F l₁ l₂ : List Nat} {isBuy : Bool}
  {price i id qty newPrice newQty n : Nat}

/-- The requests of a caller who submits new ids below `n`, and cancels and replaces orders that rest, at prices within
the ladder. -/
def Admissible (n : Nat) (b : FastBitsetOrderBook) : Request → Prop
  | .call (.submit id price _ _) => id < n ∧ ¬ b.Resting id ∧ price < MAX_PRICES
  | .call (.cancel id) => b.Resting id
  | .replace id newPrice newQty => b.Resting id ∧ newPrice < MAX_PRICES ∧ 0 < newQty

/-- A submitted order does not end behind the first order of a level unless it fills the whole level. -/
def SparesHeads (b : FastBitsetOrderBook) : Request → Prop
  | .call (.submit _ price qty isBuy) => b.SparesFronts price qty isBuy
  | _ => True

namespace Whole

/-! ### What the requests do to a clean book -/

theorem submit_clean (hw : b.Whole n Q F) (hpos : b.Positive Q) (hclean : b.Clean Q) (hid : id < n)
    (hfresh : ∀ k, ∀ j ∈ Q k, (b.order j).id ≠ id) (hp : price < MAX_PRICES) (qty : Nat) (isBuy : Bool) :
    ∃ b' Q' F', b.Step (.submit id price qty isBuy) b' ∧ b'.Whole n Q' F' ∧ b'.Positive Q' ∧
      (b'.Clean Q' ↔ b.SparesFronts price qty isBuy) := by
  obtain ⟨b₁, b', Q₁, F₁, qty', hstep, hend, h₁, ⟨hpos₁, hends⟩, hfresh₁, hcases⟩ := hw.submit
    (P := fun b₁ Q₁ _ qty₁ => b₁.Positive Q₁ ∧
      (EndsClean isBuy price b₁ Q₁ qty₁ ↔ b.SparesFronts price qty isBuy))
    hid hfresh hp qty isBuy ⟨hpos, hw.pool.endsClean_start hclean⟩
    (fun b₁ Q F qty p i l h hP hk hbest _ hle =>
      ⟨h.positive_popped hP.1 hk, (h.endsClean_popped hk hbest hle).trans hP.2⟩)
    (fun b₁ Q F qty p i l h hP hk hbest _ hlt =>
      ⟨h.positive_reduced hP.1 hk hlt, (h.endsClean_reduced hP.1 hk hbest hlt).trans hP.2⟩)
  have hclean₁ : b₁.Clean Q₁ ↔ b.SparesFronts price qty isBuy :=
    (h₁.endsClean_ended hpos₁ hend).symm.trans hends
  rcases hcases with ⟨_, rfl, hw'⟩ | ⟨i, F₂, hq, rfl, happ, hw'⟩
  · exact ⟨b', Q₁, F₁, hstep, hw', hpos₁, hclean₁⟩
  · obtain ⟨hfree, _, hQ, _, htaken⟩ := h₁.taken hfresh₁ price qty' isBuy
    refine ⟨b', _, F₂, hstep, hw', h₁.positive_rested hpos₁ hfresh₁ hq happ, ?_⟩
    rw [htaken.clean_appended hQ hp happ, ← hclean₁]
    exact fronts_congr fun k j hj => by rw [order_taken hfree, if_neg fun e : j = i => hQ k (e ▸ hj)]

theorem cancel_clean (hw : b.Whole n Q F) (hpos : b.Positive Q) (hclean : b.Clean Q) (hi : i ∈ Q (isBuy, price)) :
    ∃ b' Q' F', b.Step (.cancel (b.order i).id) b' ∧ b'.Whole n Q' F' ∧ b'.Positive Q' ∧ b'.Clean Q' := by
  obtain ⟨l₁, l₂, hk⟩ := List.append_of_mem hi
  have hunlinks := hw.pool.unlinksCleanly hclean hi
  obtain ⟨b₁, b', hstep, hu, hb', hw'⟩ := hw.cancel hk hunlinks
  obtain ⟨hQ, _⟩ := hw.pool.unlinked hk (hw.pool.first_of_clean hk hunlinks) hu
  refine ⟨b', _, _, hstep, hw', ?_, ?_⟩
  · rw [hb']
    exact Linked.positive_freed (hw.pool.positive_unlinked hpos hk hu) hQ
  · rw [hb', Pool.clean_freed hQ]
    exact hw.pool.clean_unlinked hclean hk hu

theorem replace_clean (hw : b.Whole n Q F) (hpos : b.Positive Q) (hclean : b.Clean Q) (hi : i ∈ Q (isBuy, price))
    (hp : newPrice < MAX_PRICES) (hq : 0 < newQty) :
    ∃ b' Q', b.RequestStep (.replace (b.order i).id newPrice newQty) b' ∧ b'.Whole n Q' F ∧ b'.Positive Q' ∧
      b'.Clean Q' := by
  obtain ⟨l₁, l₂, hk⟩ := List.append_of_mem hi
  have hunlinks := hw.pool.unlinksCleanly hclean hi
  obtain ⟨b', hstep, ⟨hb', hw'⟩ | ⟨hm, hw'⟩⟩ := hw.replace hk (fun _ : b.Moves i newPrice newQty => hunlinks) hp
  · refine ⟨b', Q, hstep, hw', hb' ▸ Linked.positive_withQty hpos hq, (fronts_congr fun k j _ => ?_).2 hclean⟩
    rw [hb', order_withOrder]
    split
    · rename_i e
      rw [e]
    · rfl
  · obtain ⟨b₁, b₂, hu, ha, he, horder⟩ := hm.blocks
    obtain ⟨hQ, _, h₁⟩ := hw.pool.unlinked hk (hw.pool.first_of_clean hk hunlinks) hu
    refine ⟨b', _, hstep, hw', ?_, ?_⟩
    · refine Linked.positive_appended (hw.pool.positive_unlinked hpos hk hu) hQ ha he ?_
      rw [horder]
      exact hq
    · have hclean₂ := (h₁.clean_appended hQ hp ha).2 (hw.pool.clean_unlinked hclean hk hu)
      refine (fronts_congr fun k j _ => ?_).2 hclean₂
      by_cases hji : j = i
      · rw [hji, horder]
      · rw [he.order j hji]

/-- A request keeps the book clean exactly if it spares the first orders. -/
theorem request_clean (hw : b.Whole n Q F) (hpos : b.Positive Q) (hclean : b.Clean Q) {r : Request}
    (hok : Admissible n b r) : ∃ b' Q' F', b.RequestStep r b' ∧ b'.Whole n Q' F' ∧ b'.Positive Q' ∧
      (b'.Clean Q' ↔ b.SparesHeads r) := by
  cases r with
  | call c =>
    cases c with
    | submit id price qty isBuy =>
      obtain ⟨hid, hnew, hp⟩ := hok
      exact hw.submit_clean hpos hclean hid (hw.pool.fresh hnew) hp qty isBuy
    | cancel id =>
      obtain ⟨k, i, hi, rfl⟩ := hw.pool.resting_iff.1 hok
      obtain ⟨b', Q', F', hstep, hw', hpos', hclean'⟩ := hw.cancel_clean hpos hclean hi
      exact ⟨b', Q', F', hstep, hw', hpos', iff_of_true hclean' trivial⟩
  | replace id newPrice newQty =>
    obtain ⟨hrest, hp, hq⟩ := hok
    obtain ⟨k, i, hi, rfl⟩ := hw.pool.resting_iff.1 hrest
    obtain ⟨b', Q', hstep, hw', hpos', hclean'⟩ := hw.replace_clean hpos hclean hi hp hq
    exact ⟨b', Q', F, hstep, hw', hpos', iff_of_true hclean' trivial⟩

/-- The representation invariant in a state whose links thread the pool. -/
theorem intact_iff (hw : b.Whole n Q F) : Intact n b.toLadder ↔ b.Clean Q := by
  have h := hw.pool
  constructor
  · rintro ⟨Q', F', hb⟩ ⟨s, p⟩ i l hk
    have hp := (h.of_cons hk).2.2.2.1
    have heq : Q' (s, p) = Q (s, p) := (hb.level s p hp).unique (h.meets (k := (s, p)) hp)
    exact hb.head_prev s p hp i l (heq.trans hk)
  · intro hclean
    refine ⟨Q, F, ⟨h.threads.freeList, h.threads.null_free⟩, fun s p hp => h.meets (k := (s, p)) hp, h.threads.free_nodup,
      fun s p _ => h.threads.nodup (s, p), fun i hi => ?_, fun i hi => hw.size ▸ h.free_bound i hi,
      fun s p _ i hi => hw.size ▸ h.bound _ i hi, fun s p _ i hi => h.threads.tail (s, p) i hi,
      fun s p _ i l hk => hclean (s, p) i l hk, fun s p _ l₁ i j l₂ hk => ?_⟩
    · rcases hw.held i hi with hF | ⟨k, hk⟩
      · exact Or.inl ⟨hF, fun k _ => h.threads.free_apart k i hF⟩
      · refine Or.inr ⟨fun hF => h.threads.free_apart k i hF hk, k, ⟨h.price_lt k i hk, hk⟩, fun k' hk' => ?_⟩
        exact h.threads.apart k' k i hk'.2 hk
    · have hk' : Q (s, p) = (l₁ ++ [i]) ++ j :: l₂ := by
        rw [hk, List.append_assoc]
        rfl
      exact h.mirrored.prev_eq hk' List.getLast?_concat

end Whole

/-- Along every run whose submitted orders spare the first orders of the levels, the representation invariant holds;
and in every state of such a run the next request keeps it exactly if it does so too. -/
theorem intact_run {b₀ : FastBitsetOrderBook} (hlt : n < NULL_IDX) (hinit : new.init n = .ok b₀) (rs : List Request)
    (b : FastBitsetOrderBook)
    (hrun : Run (Guarded (fun b r => Admissible n b r ∧ b.SparesHeads r) RequestStep) b₀ rs b) :
    Intact n b.toLadder ∧
      ∀ r b', Admissible n b r → b.RequestStep r b' → (Intact n b'.toLadder ↔ b.SparesHeads r) := by
  have h₀ : ∃ Q F, b₀.Whole n Q F ∧ b₀.Positive Q ∧ b₀.Clean Q :=
    ⟨fun _ => [], _, Whole.init hlt hinit, fun k i hi => absurd hi List.not_mem_nil, fun k i l hk => by cases hk⟩
  have hinv : ∃ Q F, b.Whole n Q F ∧ b.Positive Q ∧ b.Clean Q := by
    refine hrun.invariant (I := fun b => ∃ Q F, b.Whole n Q F ∧ b.Positive Q ∧ b.Clean Q) h₀ ?_
    rintro s r t ⟨Q, F, hw, hpos, hclean⟩ ⟨⟨hok, hspares⟩, hstep⟩
    obtain ⟨t', Q', F', hstep', hw', hpos', hiff⟩ := hw.request_clean hpos hclean hok
    obtain rfl := hstep.unique hstep'
    exact ⟨Q', F', hw', hpos', hiff.2 hspares⟩
  obtain ⟨Q, F, hw, hpos, hclean⟩ := hinv
  refine ⟨hw.intact_iff.2 hclean, fun r b' hok hstep => ?_⟩
  obtain ⟨b'', Q', F', hstep', hw', _, hiff⟩ := hw.request_clean hpos hclean hok
  obtain rfl := hstep.unique hstep'
  exact hw'.intact_iff.trans hiff

/-! ### A stale back link -/

/-- Submissions of ids whose slots hold orders with other ids. -/
def Fresh (n : Nat) (b : FastBitsetOrderBook) : Request → Prop
  | .call (.submit id price _ _) => id < n ∧ (b.order (b.slot id)).id ≠ id ∧ price < MAX_PRICES
  | _ => False

instance (n : Nat) (b : FastBitsetOrderBook) : ∀ r, Decidable (Fresh n b r)
  | .call (.submit _ _ _ _) => inferInstanceAs (Decidable (_ ∧ _ ∧ _))
  | .call (.cancel _) => inferInstanceAs (Decidable False)
  | .replace _ _ _ => inferInstanceAs (Decidable False)

private theorem run_of_fresh {b₀ : FastBitsetOrderBook} {rs : List Request} (hw : b₀.Whole n Q F)
    (hrun : Run (Guarded (Fresh n) RequestStep) b₀ rs b) :
    Run (Guarded (Admissible n) RequestStep) b₀ rs b ∧ ∃ Q F, b.Whole n Q F := by
  induction hrun with
  | refl => exact ⟨Run.refl, Q, F, hw⟩
  | @snoc _ r s t _ hl ih =>
    obtain ⟨hrun, Q, F, hs⟩ := ih
    obtain ⟨hfresh, hstep⟩ := hl
    match r with
    | .call (.submit id price qty isBuy) =>
      obtain ⟨hid, hslot, hp⟩ := hfresh
      have hrest : ¬ s.Resting id := hs.pool.not_resting hslot
      refine ⟨hrun.snoc ⟨⟨hid, hrest, hp⟩, hstep⟩, ?_⟩
      obtain ⟨_, t', Q₁, F₁, _, hstep', _, _, _, _, hcases⟩ := hs.submit (P := fun _ _ _ _ => True) hid
        (hs.pool.fresh hrest) hp qty isBuy trivial
        (fun _ _ _ _ _ _ _ _ _ _ _ _ _ => trivial) (fun _ _ _ _ _ _ _ _ _ _ _ _ _ => trivial)
      obtain rfl := hstep.unique hstep'
      rcases hcases with ⟨_, _, hw'⟩ | ⟨_, _, _, _, _, hw'⟩
      · exact ⟨_, _, hw'⟩
      · exact ⟨_, _, hw'⟩

/-- The bid fills the first ask, and the second ask keeps it as its predecessor. -/
def fillFirst : List Request := [.call (.submit 1 10 1 false), .call (.submit 2 10 1 false), .call (.submit 3 10 1 true)]

private theorem fillFirst_run : ∃ b₀ b, new.init 4 = .ok b₀ ∧ Run (Guarded (Fresh 4) RequestStep) b₀ fillFirst b ∧
    (b.level false 10).head = 1 ∧ (b.order 1).prev = 0 := by
  have hok : (new.init 4 >>= fun b₀ => fillFirst.foldlM (guardedExec (Fresh 4) (execRequest 10)) b₀).isOk = true := by
    decide +kernel
  obtain ⟨b₀, h₀, h⟩ := bind_eq_ok.1 (eq_ok_value new hok)
  exact ⟨b₀, _, h₀, run_of_foldlM (fun s r t (h : s.execRequest 10 r = .ok t) => ⟨10, h⟩) h, by decide +kernel,
    by decide +kernel⟩

theorem fillFirst_not_intact : ∃ b₀ b, new.init 4 = .ok b₀ ∧
    Run (Guarded (Admissible 4) RequestStep) b₀ fillFirst b ∧ ¬ Intact 4 b.toLadder := by
  obtain ⟨b₀, b, h₀, hrun, hhead, hprev⟩ := fillFirst_run
  obtain ⟨hrun', Q, F, hw⟩ := run_of_fresh (Whole.init (by decide) h₀) hrun
  refine ⟨b₀, b, h₀, hrun', fun hintact => ?_⟩
  have hclean := hw.intact_iff.1 hintact
  cases hk : Q (false, 10) with
  | nil =>
    rw [(hw.pool.head_eq_null (by decide)).2 hk] at hhead
    exact absurd hhead (by decide)
  | cons i l =>
    obtain rfl : i = 1 := (hw.pool.of_cons hk).1.symm.trans hhead
    have hnull : (b.order 1).prev = NULL_IDX := hclean _ _ _ hk
    rw [hprev] at hnull
    exact absurd hnull (by decide)

/-- A run of one order that rests. -/
theorem intact_run_submit : ∃ b₀ b, new.init 4 = .ok b₀ ∧
    Run (Guarded (fun b r => Admissible 4 b r ∧ b.SparesHeads r) RequestStep) b₀ [.call (.submit 1 10 1 false)] b ∧
      Intact 4 b.toLadder := by
  have hok : (new.init 4).isOk = true := by decide +kernel
  have h₀ := eq_ok_value new hok
  have hw := Whole.init (by decide) h₀
  have hnil : ∀ (i : Nat) (l : List Nat), [] = i :: l → False := fun i l hk => by cases hk
  have hadm : Admissible 4 (value (new.init 4) new) (.call (.submit 1 10 1 false)) := by
    refine ⟨by decide, fun hrest => ?_, by decide⟩
    obtain ⟨_, _, hi, _⟩ := hw.pool.resting_iff.1 hrest
    cases hi
  have hclean : (value (new.init 4) new).Clean fun _ => [] := fun k i l hk => (hnil i l hk).elim
  have hspares : (value (new.init 4) new).SparesHeads (.call (.submit 1 10 1 false)) :=
    (hw.pool.endsClean_start hclean).1 fun s p i l hk => (hnil i l hk).elim
  obtain ⟨b, _, _, hstep, _⟩ := hw.request_clean (fun k i hi => absurd hi List.not_mem_nil) hclean hadm
  have hrun : Run (Guarded (fun b r => Admissible 4 b r ∧ b.SparesHeads r) RequestStep) (value (new.init 4) new)
      [.call (.submit 1 10 1 false)] b := Run.single ⟨⟨hadm, hspares⟩, hstep⟩
  exact ⟨_, b, h₀, hrun, (intact_run (by decide) h₀ _ _ hrun).1⟩

end FastBitsetOrderBook

end Lobook
