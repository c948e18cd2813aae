import Lobook.Book.Steps

/-!
# Requests for ids that do not rest

`id_map` sends an id that rests to the slot of its order.  When the order is filled or cancelled its entry becomes
`NULL_IDX`, so that later requests for the id do nothing (`noOp_iff`).  But `init` leaves the entries of a new map at 0,
and `submit_order` writes the entry only of an order that comes to rest: until an id has rested for the first time its
entry names slot 0.  `Recorded b K` says this of a book in which the ids of `K` have rested so far.
-/

namespace Lobook

open Checked Links Relation Transition

namespace Ladder

/-- Of the ids that do not rest in `b'`, those that rest in `b` have lost their entry, and the others have kept it. -/
def Erases (b b' : Ladder) : Prop :=
  ∀ id, ¬ b'.Resting id → (b.Resting id → b'.slot id = NULL_IDX) ∧ (¬ b.Resting id → b'.slot id = b.slot id)

/-- The entries of the ids that do not rest, where the ids of `K` have rested so far. -/
structure Recorded (b : Ladder) (K : Set Nat) : Prop where
  resting : ∀ id, b.Resting id → id ∈ K
  erased : ∀ id ∈ K, ¬ b.Resting id → b.slot id = NULL_IDX
  zero : ∀ id, id < b.idMap.size → id ∉ K → b.slot id = 0

variable {b b' b₁ : Ladder} {Q Q' : Bool × Nat → List Nat} {F F' l₁ l₂ : List Nat} {isBuy : Bool}
  {price i id qty qty' limit : Nat} {k : Bool × Nat} {K : Set Nat}

theorem Erases.refl : Erases b b := fun _ hrest => ⟨fun h => absurd h hrest, fun _ => rfl⟩

theorem Erases.trans (h : Erases b b₁) (h' : Erases b₁ b') (hsub : ∀ id, b₁.Resting id → b.Resting id) :
    Erases b b' := by
  intro id hrest
  obtain ⟨hlost, hkept⟩ := h' id hrest
  by_cases h₁ : b₁.Resting id
  · exact ⟨fun _ => hlost h₁, fun hno => absurd (hsub id h₁) hno⟩
  · obtain ⟨hlost', hkept'⟩ := h id h₁
    rw [hkept h₁]
    exact ⟨hlost', hkept'⟩

theorem Recorded.step (h : b.Recorded K) (he : Erases b b') (hsize : b'.idMap.size = b.idMap.size) :
    b'.Recorded (K ∪ {id | b'.Resting id}) := by
  constructor
  · exact fun id hrest => Or.inr hrest
  · intro id hid hno
    have hK : id ∈ K := hid.resolve_right hno
    by_cases hrest : b.Resting id
    · exact (he id hno).1 hrest
    · rw [(he id hno).2 hrest]
      exact h.erased id hK hrest
  · intro id hlt hid
    have hK : id ∉ K := fun hK => hid (Or.inl hK)
    have hno : ¬ b'.Resting id := fun hrest => hid (Or.inr hrest)
    rw [(he id hno).2 fun hrest => hK (h.resting id hrest)]
    exact h.zero id (hsize ▸ hlt) hK

namespace Pool

/-! ### Orders that leave, and orders that stay -/

/-- One order leaves its queue, and its id loses its entry. -/
theorem erases_of_leave (h : b.Pool Q F) (h' : b'.Pool Q' F') (hi : i ∈ Q k)
    (hmem : ∀ k j, j ∈ Q' k ↔ j ∈ Q k ∧ j ≠ i) (hid : ∀ j, j ≠ i → (b'.order j).id = (b.order j).id)
    (hslot : ∀ id, b'.slot id = if id = (b.order i).id then NULL_IDX else b.slot id) :
    Erases b b' ∧ ∀ id, b'.Resting id → b.Resting id := by
  constructor
  · intro id hno
    rw [hslot]
    split
    · rename_i heq
      exact ⟨fun _ => rfl, fun hrest => absurd (h.resting_iff.2 ⟨k, i, hi, heq.symm⟩) hrest⟩
    · rename_i hne
      refine ⟨fun hrest => ?_, fun _ => rfl⟩
      obtain ⟨k', j, hj, rfl⟩ := h.resting_iff.1 hrest
      have hji : j ≠ i := fun e => hne (by rw [e])
      exact absurd (h'.resting_iff.2 ⟨k', j, (hmem k' j).2 ⟨hj, hji⟩, hid j hji⟩) hno
  · intro id hrest
    obtain ⟨k', j, hj, rfl⟩ := h'.resting_iff.1 hrest
    obtain ⟨hjQ, hji⟩ := (hmem k' j).1 hj
    exact h.resting_iff.2 ⟨k', j, hjQ, (hid j hji).symm⟩

/-- All orders stay in the book. -/
theorem erases_of_stay (h : b.Pool Q F) (h' : b'.Pool Q' F') (hmem : ∀ k j, j ∈ Q k → ∃ k', j ∈ Q' k')
    (hid : ∀ k j, j ∈ Q k → (b'.order j).id = (b.order j).id)
    (hslot : ∀ id, ¬ b'.Resting id → b'.slot id = b.slot id) : Erases b b' := by
  intro id hno
  refine ⟨fun hrest => ?_, fun _ => hslot id hno⟩
  obtain ⟨k, j, hj, rfl⟩ := h.resting_iff.1 hrest
  obtain ⟨k', hj'⟩ := hmem k j hj
  exact absurd (h'.resting_iff.2 ⟨k', j, hj', hid k j hj⟩) hno

theorem mem_unlink (h : b.Pool Q F) (hk : Q k = l₁ ++ i :: l₂) (k' : Bool × Nat) (j : Nat) :
    j ∈ Function.update Q k (l₁ ++ l₂) k' ↔ j ∈ Q k' ∧ j ≠ i :=
  ⟨h.threads.mem_of_unlink hk, fun hj => mem_unlink_of_ne hk hj.1 hj.2⟩

/-- The first order of a level is filled. -/
theorem erases_popped (h : b.Pool Q F) {l : List Nat} (hk : Q (isBuy, price) = i :: l) :
    Erases b (b.popped isBuy price) ∧ ∀ id, (b.popped isBuy price).Resting id → b.Resting id := by
  have hhead := (h.of_cons hk).1
  refine h.erases_of_leave (h.popped hk) (hk ▸ List.mem_cons_self)
    (h.mem_unlink (show Q (isBuy, price) = [] ++ i :: l from hk)) (fun j hj => by rw [order_popped hhead hj])
    fun id => ?_
  rw [slot_popped hhead]

/-- The orders that trading leaves in the book rested in it before. -/
theorem erases_trades (h : b.Pool Q F) (ht : ReflTransGen (Trade isBuy limit) (b, qty) (b', qty')) :
    Erases b b' ∧ ∀ id, b'.Resting id → b.Resting id := by
  suffices hend : ∃ Q' F', b'.Pool Q' F' ∧ Erases b b' ∧ ∀ id, b'.Resting id → b.Resting id by
    obtain ⟨_, _, _, herases⟩ := hend
    exact herases
  refine h.trades
    (P := fun b₁ _ _ _ => Erases b b₁ ∧ ∀ id, b₁.Resting id → b.Resting id) ⟨Erases.refl, fun _ hrest => hrest⟩
    (fun b₁ Q₁ F₁ qty₁ p i l h₁ hP hk _ _ _ => ?_) (fun b₁ Q₁ F₁ qty₁ p i l h₁ hP _ _ _ _ => ?_) ht
  · obtain ⟨he, hsub⟩ := h₁.erases_popped hk
    exact ⟨hP.1.trans he hP.2, fun id hrest => hP.2 id (hsub id hrest)⟩
  · have hid : ∀ j, ((b₁.reduced (!isBuy) p qty₁).order j).id = (b₁.order j).id := by
      intro j
      by_cases hj : j = (b₁.level (!isBuy) p).head <;> simp [Ladder.reduced, hj]
    have he : Erases b₁ (b₁.reduced (!isBuy) p qty₁) :=
      h₁.erases_of_stay h₁.reduced (fun k j hj => ⟨k, hj⟩) (fun _ j _ => hid j) fun _ _ => rfl
    refine ⟨hP.1.trans he hP.2, fun id hrest => hP.2 id ?_⟩
    obtain ⟨k, j, hj, rfl⟩ := h₁.reduced.resting_iff.1 hrest
    exact h₁.resting_iff.2 ⟨k, j, hj, (hid j).symm⟩

end Pool

end Ladder

namespace FastBitsetOrderBook

open Ladder

/-- Asked for the id, the book answers that nothing is there, and stays as it is. -/
def NoOp (b : FastBitsetOrderBook) (id : Nat) : Prop :=
  b.getQuantity id = .ok 0 ∧ b.cancelOrder id = .ok b ∧
    ∀ newPrice newQty, b.replaceOrder id newPrice newQty = .ok b

variable {b b' : FastBitsetOrderBook} {Q : Bool × Nat → List Nat} {F l₁ l₂ : List Nat} {isBuy : Bool}
  {price i id qty newPrice newQty n : Nat}

theorem cancelOrder_absent (h : b.idMap.size ≤ id ∨ b.slot id = NULL_IDX) : b.cancelOrder id = .ok b := by
  by_cases hid : b.idMap.size ≤ id
  · simp only [cancelOrder, if_pos hid, pure_eq_ok]
  · simp only [cancelOrder, if_neg hid, Ladder.getSlot_of_lt (Nat.lt_of_not_le hid), ok_bind,
      if_pos (h.resolve_left hid), pure_eq_ok]

/-- The map decides which requests do nothing. -/
theorem noOp_iff (hi : b.Indexed) : b.NoOp id ↔ b.idMap.size ≤ id ∨ b.slot id = NULL_IDX := by
  constructor
  · rintro ⟨_, hcancel, _⟩
    have ha := agrees_cancelOrder hi.follows id
    cases hl : FastOrderBook.cancelOrder b.toLadder id with
    | error e =>
      rw [hl] at ha
      exact absurd (hcancel.symm.trans ha) (by simp)
    | ok l =>
      rw [hl] at ha
      obtain ⟨b', e, hb'⟩ := ha
      obtain rfl : b = b' := Except.ok.inj (hcancel.symm.trans e)
      rcases FastOrderBook.cancelOrder_cases hl with ⟨habs, _⟩ | ⟨_, _, _, _, b₁, _, rfl⟩
      · exact habs
      · -- had it cancelled an order, the entry of the id would be erased now
        have hslot : b.slot id = NULL_IDX := by
          rw [hb'.1, slot_freed, if_pos rfl]
        exact Or.inr hslot
  · exact fun habs => ⟨getQuantity_absent habs, cancelOrder_absent habs, fun _ _ => replaceOrder_absent habs⟩

/-! ### What the requests do to the map -/

theorem submit_erases (hi : b.Indexed) (h : b.Pool Q F) (hid : id < b.idMap.size) (hrest : ¬ b.Resting id)
    (hp : price < MAX_PRICES) (qty : Nat) (isBuy : Bool) :
    ∃ b' Q' F', b.Step (.submit id price qty isBuy) b' ∧ b'.Indexed ∧ b'.Pool Q' F' ∧
      b'.idMap.size = b.idMap.size ∧ Erases b.toLadder b'.toLadder := by
  have hfresh : ∀ k, ∀ j ∈ Q k, (b.order j).id ≠ id := h.fresh hrest
  obtain ⟨b₁, b', qty', hstep, hi', htrades, _, hall⟩ := submitOrder_pool hi h hid hfresh hp qty isBuy
  obtain ⟨Q₁, F₁, h₁⟩ := h.of_trades htrades
  obtain ⟨_, hsize⟩ := trades_size htrades
  obtain ⟨he, hsub⟩ := h.erases_trades htrades
  obtain ⟨hfresh₁, hcases⟩ := hall Q₁ F₁ h₁
  rcases hcases with ⟨_, hb'⟩ | ⟨i, F₂, _, rfl, happ, h'⟩
  · exact ⟨b', Q₁, F₁, hstep, hi', hb'.symm ▸ h₁, hb'.symm ▸ hsize, hb'.symm ▸ he⟩
  · obtain ⟨hfree, _, hQ, _⟩ := h₁.taken hfresh₁ price qty' isBuy
    have horder : ∀ j, j ≠ i → ((b₁.taken id price qty' isBuy).order j) = b₁.order j := by
      intro j hj
      rw [order_taken hfree, if_neg hj]
    have hnew : ((b₁.taken id price qty' isBuy).order i).id = id := by
      rw [order_taken hfree, if_pos rfl]
    have hslot : ∀ id', b'.slot id' = if id' = id then i else b₁.slot id' := slot_appended hfree happ
    refine ⟨b', _, F₂, hstep, hi', h', ?_, he.trans (h₁.erases_of_stay h' (fun k j hj => ⟨k, mem_append_of_mem hj⟩)
      (fun k j hj => ?_) fun id' hno => ?_) hsub⟩
    · rw [happ.idMap]
      exact hsize
    · rw [happ.order, horder j fun e => hQ k (e ▸ hj)]
    · have hne : id' ≠ id := by
        rintro rfl
        refine hno (h'.resting_iff.2 ⟨(isBuy, price), i, mem_append_self, ?_⟩)
        rw [happ.order]
        exact hnew
      rw [hslot, if_neg hne]

theorem cancel_erases (hi : b.Indexed) (h : b.Pool Q F) (hmem : i ∈ Q (isBuy, price)) (hclean : b.UnlinksCleanly i) :
    ∃ b' Q' F', b.Step (.cancel (b.order i).id) b' ∧ b'.Indexed ∧ b'.Pool Q' F' ∧
      b'.idMap.size = b.idMap.size ∧ Erases b.toLadder b'.toLadder := by
  obtain ⟨l₁, l₂, hk⟩ := List.append_of_mem hmem
  obtain ⟨b₁, b', e, hi', hu, hb', h'⟩ := cancelOrder_pool hi h hk hclean
  refine ⟨b', _, _, ⟨0, e⟩, hi', h', ?_, (h.erases_of_leave h' hmem (h.mem_unlink hk) (fun j hj => ?_)
    fun id => ?_).1⟩
  · rw [hb']
    show b₁.idMap.size = _
    rw [hu.idMap]
  · rw [hb', order_freed hj, hu.order]
  · rw [hb', slot_freed, hu.slot]

theorem replace_erases (hi : b.Indexed) (h : b.Pool Q F) (hmem : i ∈ Q (isBuy, price))
    (hclean : b.Moves i newPrice newQty → b.UnlinksCleanly i) (hp : newPrice < MAX_PRICES) :
    ∃ b' Q' F', b.RequestStep (.replace (b.order i).id newPrice newQty) b' ∧ b'.Indexed ∧ b'.Pool Q' F' ∧
      b'.idMap.size = b.idMap.size ∧ Erases b.toLadder b'.toLadder := by
  obtain ⟨l₁, l₂, hk⟩ := List.append_of_mem hmem
  obtain ⟨b', e, hi', ⟨_, rfl, hb'⟩ | ⟨_, hm, h'⟩⟩ := replaceOrder_pool hi h hk hclean hp
  · have hprice := (h.place_eq hmem).2
    have h' : b'.Pool Q F := by
      rw [hb', ← hprice]
      exact h.withQty i newQty
    refine ⟨b', Q, F, ⟨0, e⟩, hi', h', by rw [hb']; rfl, h.erases_of_stay h' (fun k j hj => ⟨k, hj⟩)
      (fun k j hj => ?_) fun id _ => by rw [hb']; rfl⟩
    rw [hb', order_withOrder]
    split
    · rename_i heq
      rw [heq]
    · rfl
  · obtain ⟨b₁, b₂, hu, ha, he, horder⟩ := hm.blocks
    have hmap : b'.idMap = b.idMap := he.idMap.trans (ha.idMap.trans hu.idMap)
    refine ⟨b', _, F, ⟨0, e⟩, hi', h', by rw [hmap], h.erases_of_stay h' (fun k j hj => ?_) (fun k j hj => ?_)
      fun id _ => ?_⟩
    · by_cases hji : j = i
      · exact ⟨(isBuy, newPrice), hji ▸ mem_append_self⟩
      · exact ⟨k, mem_append_of_mem (mem_unlink_of_ne hk hj hji)⟩
    · by_cases hji : j = i
      · rw [hji, horder, ha.order, hu.order]
      · rw [he.order j hji, ha.order, hu.order]
    · simp only [Ladder.slot, hmap]

end FastBitsetOrderBook

/-- A book, with the ids that have rested in it so far. -/
structure Logged where
  book : FastBitsetOrderBook
  rested : Set Nat

namespace Logged

open Ladder FastBitsetOrderBook

/-- The request returns, and the ids that rest afterwards are logged. -/
def Step (s : Logged) (r : Request) (t : Logged) : Prop :=
  s.book.RequestStep r t.book ∧ t.rested = s.rested ∪ {id | t.book.Resting id}

/-- The requests of a caller who submits new ids below `n`, at prices within the ladder. -/
def Admissible (n : Nat) (s : Logged) : Request → Prop
  | .call (.submit id price _ _) => id < n ∧ ¬ s.book.Resting id ∧ price < MAX_PRICES
  | .call (.cancel _) => True
  | .replace _ newPrice _ => newPrice < MAX_PRICES

/-- An id of the map that is cancelled or replaced has rested, and if its order is taken out of a level this does not
go through a stale back link. -/
def Sound (n : Nat) (s : Logged) : Request → Prop
  | .call (.submit _ _ _ _) => True
  | .call (.cancel id) => (id < n → id ∈ s.rested) ∧ (s.book.Resting id → s.book.UnlinksCleanly (s.book.slot id))
  | .replace id newPrice newQty => (id < n → id ∈ s.rested) ∧ (s.book.Resting id →
      s.book.Moves (s.book.slot id) newPrice newQty → s.book.UnlinksCleanly (s.book.slot id))

/-- The links thread the pool, and the log says which entries of the map are 0. -/
def Kept (n : Nat) (s : Logged) : Prop :=
  ∃ Q F, s.book.Indexed ∧ s.book.Pool Q F ∧ s.book.idMap.size = n ∧ s.book.Recorded s.rested

variable {n id : Nat} {s t : Logged} {r : Request}

theorem kept_init {b₀ : FastBitsetOrderBook} (hinit : FastBitsetOrderBook.new.init n = .ok b₀) : Kept n ⟨b₀, ∅⟩ := by
  have hi := Indexed.init hinit
  obtain ⟨l, hl, h⟩ := bind_eq_ok.1 hinit
  cases h
  have hinit' := Ladder.initialised_of_eq_ok hl
  have hpool := Pool.init hinit'
  have hempty : ∀ id, ¬ l.Resting id := by
    intro id hrest
    obtain ⟨_, _, hi, _⟩ := hpool.resting_iff.1 hrest
    cases hi
  refine ⟨_, _, hi, hpool, hinit'.map_size, fun id hrest => absurd hrest (hempty id),
    fun id hid => absurd hid (Set.notMem_empty id), fun id hid _ => ?_⟩
  rw [hinit'.map_size] at hid
  rw [hinit'.slot id hid]
  exact if_neg (Nat.not_lt_zero id)

/-- An id that does not rest, at or above `n` or logged, is not in the map. -/
theorem Kept.absent (h : Kept n s) (hrest : ¬ s.book.Resting id) (hid : id < n → id ∈ s.rested) :
    s.book.idMap.size ≤ id ∨ s.book.slot id = NULL_IDX := by
  obtain ⟨Q, F, _, _, hsize, hrec⟩ := h
  rcases Nat.lt_or_ge id n with hlt | hge
  · exact Or.inr (hrec.erased id (hid hlt) hrest)
  · exact Or.inl (hsize.symm ▸ hge)

theorem Kept.noOp_iff (h : Kept n s) (hrest : ¬ s.book.Resting id) : s.book.NoOp id ↔ n ≤ id ∨ id ∈ s.rested := by
  obtain ⟨Q, F, hi, _, hsize, hrec⟩ := h
  rw [FastBitsetOrderBook.noOp_iff hi, hsize]
  refine or_congr_right' fun hlt => ⟨fun hnull => ?_, fun hid => hrec.erased id hid hrest⟩
  by_contra hid
  rw [hrec.zero id (hsize.symm ▸ Nat.lt_of_not_le hlt) hid] at hnull
  exact absurd hnull (by decide)

theorem Kept.step (h : Kept n s) (hok : Admissible n s r) (hsound : Sound n s r) (hstep : Step s r t) : Kept n t := by
  obtain ⟨hstep, hlog⟩ := hstep
  suffices hnext : ∃ b' Q' F', s.book.RequestStep r b' ∧ b'.Indexed ∧ b'.Pool Q' F' ∧
      b'.idMap.size = s.book.idMap.size ∧ Erases s.book.toLadder b'.toLadder by
    obtain ⟨Q, F, _, _, hsize, hrec⟩ := h
    obtain ⟨b', Q', F', hstep', hi', h', hsize', he⟩ := hnext
    obtain rfl := hstep.unique hstep'
    exact ⟨Q', F', hi', h', hsize'.trans hsize, hlog ▸ hrec.step he hsize'⟩
  have habsent : ∀ id, (id < n → id ∈ s.rested) → ¬ s.book.Resting id →
      s.book.idMap.size ≤ id ∨ s.book.slot id = NULL_IDX := fun id hid hrest => h.absent hrest hid
  obtain ⟨Q, F, hi, hpool, hsize, hrec⟩ := h
  match r with
  | .call (.submit id price qty isBuy) =>
    obtain ⟨hid, hrest, hp⟩ := hok
    exact submit_erases hi hpool (hsize.symm ▸ hid) hrest hp qty isBuy
  | .call (.cancel id) =>
    obtain ⟨hid, hclean⟩ := hsound
    by_cases hrest : s.book.Resting id
    · have hclean' := hclean hrest
      obtain ⟨k, i, hmem, rfl⟩ := hpool.resting_iff.1 hrest
      rw [(hpool.mapped k i hmem).2] at hclean'
      exact cancel_erases hi hpool hmem hclean'
    · exact ⟨s.book, Q, F, ⟨0, cancelOrder_absent (habsent id hid hrest)⟩, hi, hpool, rfl, Erases.refl⟩
  | .replace id newPrice newQty =>
    obtain ⟨hid, hclean⟩ := hsound
    by_cases hrest : s.book.Resting id
    · have hclean' := hclean hrest
      obtain ⟨k, i, hmem, rfl⟩ := hpool.resting_iff.1 hrest
      rw [(hpool.mapped k i hmem).2] at hclean'
      exact replace_erases hi hpool hmem hclean' hok
    · exact ⟨s.book, Q, F, ⟨0, replaceOrder_absent (habsent id hid hrest)⟩, hi, hpool, rfl, Erases.refl⟩

/-- In every state of a run whose cancelled and replaced ids have rested, a request for an id that does not rest does
nothing exactly if the id is not below `n` or has rested. -/
theorem noOp_run {b₀ : FastBitsetOrderBook} (hinit : FastBitsetOrderBook.new.init n = .ok b₀) (rs : List Request) (s : Logged)
    (hrun : Run (Guarded (fun s r => Admissible n s r ∧ Sound n s r) Step) ⟨b₀, ∅⟩ rs s) (id : Nat)
    (hrest : ¬ s.book.Resting id) : s.book.NoOp id ↔ n ≤ id ∨ id ∈ s.rested := by
  have hkept : Kept n s :=
    hrun.invariant (I := Kept n) (kept_init hinit) fun _ _ _ hs ⟨⟨hok, hsound⟩, hstep⟩ => hs.step hok hsound hstep
  exact hkept.noOp_iff hrest

/-! ### An id that never rested -/

/-- One bid rests, in slot 0, to which the entry of the id 0 also leads. -/
def submitOne : Request := .call (.submit 1 5 10 true)

private theorem submitOne_steps : ∃ b₀ b₁ b₂, FastBitsetOrderBook.new.init 2 = .ok b₀ ∧ b₀.RequestStep submitOne b₁ ∧
    b₁.RequestStep (.call (.cancel 1)) b₂ ∧ (b₀.order (b₀.slot 1)).id ≠ 1 ∧ (b₁.order (b₁.slot 0)).id ≠ 0 ∧
    b₁.getQuantity 0 = .ok 10 ∧ 0 ∈ b₁.queue true 5 ∧ (b₁.order 0).id = 1 ∧ b₁.UnlinksCleanly (b₁.slot 1) ∧
    (b₂.order (b₂.slot 1)).id ≠ 1 := by
  have hok : (FastBitsetOrderBook.new.init 2 >>= fun b₀ => b₀.execRequest 10 submitOne >>= fun b₁ =>
      b₁.execRequest 10 (.call (.cancel 1)) >>= fun b₂ => pure (b₀, b₁, b₂)).isOk = true := by
    decide +kernel
  obtain ⟨b₀, h₀, h⟩ := bind_eq_ok.1 (eq_ok_value (FastBitsetOrderBook.new, FastBitsetOrderBook.new,
    FastBitsetOrderBook.new) hok)
  obtain ⟨b₁, h₁, h⟩ := bind_eq_ok.1 h
  obtain ⟨b₂, h₂, h⟩ := bind_eq_ok.1 h
  cases h
  refine ⟨_, _, _, h₀, ⟨10, h₁⟩, ⟨10, h₂⟩, ?_, ?_, ?_, ?_, ?_, ?_, ?_⟩
  all_goals decide +kernel

theorem submitOne_quantity : ∃ b₀ s, FastBitsetOrderBook.new.init 2 = .ok b₀ ∧
    Run (Guarded (Admissible 2) Step) ⟨b₀, ∅⟩ [submitOne] s ∧ ¬ s.book.Resting 0 ∧ s.book.getQuantity 0 = .ok 10 := by
  obtain ⟨b₀, b₁, _, h₀, h₁, _, hnew, hnever, hqty, _⟩ := submitOne_steps
  have hkept := kept_init h₀
  have hpool := hkept.choose_spec.choose_spec.2.1
  have hok : Admissible 2 ⟨b₀, ∅⟩ submitOne := ⟨by decide, hpool.not_resting hnew, by decide⟩
  have hstep : Step ⟨b₀, ∅⟩ submitOne ⟨b₁, ∅ ∪ {id | b₁.Resting id}⟩ := ⟨h₁, rfl⟩
  obtain ⟨_, _, _, hpool₁, _⟩ := hkept.step hok trivial hstep
  exact ⟨b₀, _, h₀, Run.single ⟨hok, hstep⟩, hpool₁.not_resting hnever, hqty⟩

/-- The bid is cancelled, and its id does not rest any more. -/
theorem noOp_run_cancelled : ∃ b₀ s, FastBitsetOrderBook.new.init 2 = .ok b₀ ∧
    Run (Guarded (fun s r => Admissible 2 s r ∧ Sound 2 s r) Step) ⟨b₀, ∅⟩ [submitOne, .call (.cancel 1)] s ∧
      ¬ s.book.Resting 1 ∧ s.book.NoOp 1 := by
  obtain ⟨b₀, b₁, b₂, h₀, h₁, h₂, hnew, _, _, hqueue, hid, hclean, hgone⟩ := submitOne_steps
  have hkept := kept_init h₀
  have hpool := hkept.choose_spec.choose_spec.2.1
  have hok : Admissible 2 ⟨b₀, ∅⟩ submitOne := ⟨by decide, hpool.not_resting hnew, by decide⟩
  have hstep : Step ⟨b₀, ∅⟩ submitOne ⟨b₁, ∅ ∪ {id | b₁.Resting id}⟩ := ⟨h₁, rfl⟩
  have hrest : b₁.Resting 1 := ⟨true, 5, by decide, 0, hqueue, hid⟩
  have hsound : Sound 2 ⟨b₁, ∅ ∪ {id | b₁.Resting id}⟩ (.call (.cancel 1)) :=
    ⟨fun _ => Or.inr hrest, fun _ => hclean⟩
  have hstep' : Step ⟨b₁, ∅ ∪ {id | b₁.Resting id}⟩ (.call (.cancel 1))
      ⟨b₂, ∅ ∪ {id | b₁.Resting id} ∪ {id | b₂.Resting id}⟩ := ⟨h₂, rfl⟩
  have hrun : Run (Guarded (fun s r => Admissible 2 s r ∧ Sound 2 s r) Step) ⟨b₀, ∅⟩
      [submitOne, .call (.cancel 1)] ⟨b₂, ∅ ∪ {id | b₁.Resting id} ∪ {id | b₂.Resting id}⟩ :=
    (Run.single ⟨⟨hok, trivial⟩, hstep⟩).snoc ⟨⟨trivial, hsound⟩, hstep'⟩
  obtain ⟨_, _, _, hpool₂, _⟩ := (hkept.step hok trivial hstep).step (r := .call (.cancel 1)) trivial hsound hstep'
  have hno : ¬ b₂.Resting 1 := hpool₂.not_resting hgone
  exact ⟨b₀, _, h₀, hrun, hno, (noOp_run h₀ _ _ hrun 1 hno).2 (Or.inr (Or.inl (Or.inr hrest)))⟩

end Logged

end Lobook
