import Lobook.Book.Amendment

/-!
# Bids and asks are alike

The mirror image of a book has its bids as asks and its asks as bids, at prices that are counted from the other end of the
ladder.  Every request has a mirror image too, and the two stay together: after every run, the book that has made the
mirrored requests has the same slots in the mirrored levels, with the same links, the same free list and the same map
(`mirror_run`).  So no branch of the code treats one side in another way than the other one.
-/

namespace Lobook

open Checked Links Relation Transition

/-- The price counted from the other end of the ladder. -/
def opposite (price : Nat) : Nat := MAX_PRICES - 1 - price

section Prices

variable {s : Bool} {p q : Nat}

theorem opposite_lt (hp : p < MAX_PRICES) : opposite p < MAX_PRICES := by
  unfold opposite
  omega

theorem opposite_opposite (hp : p < MAX_PRICES) : opposite (opposite p) = p := by
  unfold opposite
  omega

theorem exists_opposite (hp : p < MAX_PRICES) : ∃ q, q < MAX_PRICES ∧ opposite q = p :=
  ⟨opposite p, opposite_lt hp, opposite_opposite hp⟩

theorem opposite_inj (hp : p < MAX_PRICES) (hq : q < MAX_PRICES) : opposite p = opposite q ↔ p = q := by
  unfold opposite
  omega

theorem crosses_opposite (hp : p < MAX_PRICES) (hq : q < MAX_PRICES) :
    Crosses (!s) (opposite p) (opposite q) ↔ Crosses s p q := by
  cases s with
  | true =>
    change opposite p ≤ opposite q ↔ q ≤ p
    unfold opposite
    omega
  | false =>
    change opposite q ≤ opposite p ↔ p ≤ q
    unfold opposite
    omega

theorem better_opposite (hp : p < MAX_PRICES) (hq : q < MAX_PRICES) :
    Better (!s) (opposite p) (opposite q) ↔ Better s p q := by
  cases s with
  | true =>
    change opposite q < opposite p ↔ p < q
    unfold opposite
    omega
  | false =>
    change opposite p < opposite q ↔ q < p
    unfold opposite
    omega

end Prices

/-- The request for the other side. -/
def Request.mirror : Request → Request
  | .call (.submit id price qty isBuy) => .call (.submit id (opposite price) qty (!isBuy))
  | .call (.cancel id) => .call (.cancel id)
  | .replace id newPrice newQty => .replace id (opposite newPrice) newQty

namespace Ladder

/-- The slots of `c` hold the same orders with the same links, in the levels of the other side. -/
structure Mirrors (b c : Ladder) : Prop where
  level : ∀ s p, p < MAX_PRICES → c.level (!s) (opposite p) = b.level s p
  order : ∀ i, (c.order i).id = (b.order i).id ∧ (c.order i).qty = (b.order i).qty ∧
    (c.order i).next = (b.order i).next ∧ (c.order i).prev = (b.order i).prev
  idMap : c.idMap = b.idMap
  free : c.nextFreeOrderIdx = b.nextFreeOrderIdx
  size : c.orders.size = b.orders.size

variable {b c b' c' : Ladder} {Q Q' : Bool × Nat → List Nat} {F F' : List Nat} {s isBuy : Bool}
  {p i id qty qty' limit : Nat}

namespace Mirrors

theorem slot (h : Mirrors b c) (id : Nat) : c.slot id = b.slot id := by
  simp only [Ladder.slot, h.idMap]

/-- Two levels are the same exactly if their mirror images are. -/
theorem key_iff {s s' : Bool} {p q : Nat} (hp : p < MAX_PRICES) (hq : q < MAX_PRICES) :
    (!s') = (!s) ∧ opposite q = opposite p ↔ s' = s ∧ q = p := by
  rw [opposite_inj hq hp]
  simp

/-! ### The blocks -/

theorem popped (h : Mirrors b c) (hp : p < MAX_PRICES) : Mirrors (b.popped s p) (c.popped (!s) (opposite p)) := by
  have hlevel := h.level s p hp
  constructor
  · intro s' q hq
    simp only [Ladder.popped, level_withFree, level_withLevel, level_withSlot, level_withOrder, hlevel,
      h.level s' q hq, (h.order (b.level s p).head).2.2.1, key_iff hp hq]
  · intro j
    have hj := h.order j
    by_cases hji : j = (b.level s p).head
    · simp [Ladder.popped, hlevel, hji, h.free, h.order]
    · simp [Ladder.popped, hlevel, hji, hj]
  · simp only [Ladder.popped, withSlot, withLevel, withFree, withOrder, hlevel, h.idMap, (h.order _).1]
  · exact congrArg PriceLevel.head hlevel
  · exact h.size

theorem withQty (h : Mirrors b c) (i qty : Nat) :
    Mirrors (b.withOrder i { b.order i with qty := qty }) (c.withOrder i { c.order i with qty := qty }) := by
  refine ⟨h.level, fun j => ?_, h.idMap, h.free, h.size⟩
  have hj := h.order j
  by_cases hji : j = i
  · simp [hji, h.order]
  · simp [hji, hj]

theorem reduced (h : Mirrors b c) (hp : p < MAX_PRICES) :
    Mirrors (b.reduced s p qty) (c.reduced (!s) (opposite p) qty) := by
  have hqty : (c.order (b.level s p).head).qty = (b.order (b.level s p).head).qty := (h.order _).2.1
  simp only [Ladder.reduced, h.level s p hp, hqty]
  exact h.withQty _ _

theorem taken (h : Mirrors b c) (p' : Nat) : Mirrors (b.taken id p qty s) (c.taken id p' qty (!s)) := by
  have hnext : (c.order c.nextFreeOrderIdx).next = (b.order b.nextFreeOrderIdx).next := by
    rw [h.free]
    exact (h.order _).2.2.1
  constructor
  · exact h.level
  · intro j
    rw [order_taken h.free, order_taken rfl]
    by_cases hji : j = b.nextFreeOrderIdx
    · rw [if_pos hji, if_pos hji]
      exact ⟨rfl, rfl, rfl, rfl⟩
    · rw [if_neg hji, if_neg hji]
      exact h.order j
  · simp only [Ladder.taken, withSlot, withFree, withOrder, h.idMap, h.free]
  · exact hnext
  · exact h.size

theorem unlinked (h : Mirrors b c) (hp : p < MAX_PRICES) (hu : b.Unlinked s p i b')
    (hu' : c.Unlinked (!s) (opposite p) i c') : Mirrors b' c' := by
  obtain ⟨_, _, hnext, hprev⟩ := h.order i
  constructor
  · intro s' q hq
    simp only [hu.level, hu'.level, key_iff hp hq, h.level s p hp, h.level s' q hq, hnext, hprev]
  · intro j
    simp only [hu.order, hu'.order, hnext, hprev, h.order j, and_self]
  · rw [hu.idMap, hu'.idMap, h.idMap]
  · rw [hu.free, hu'.free, h.free]
  · rw [hu.size, hu'.size, h.size]

theorem appended (h : Mirrors b c) (hp : p < MAX_PRICES) (ha : b.Appended s p i b')
    (ha' : c.Appended (!s) (opposite p) i c') : Mirrors b' c' := by
  constructor
  · intro s' q hq
    simp only [ha.level, ha'.level, key_iff hp hq, h.level s p hp, h.level s' q hq]
  · intro j
    simp only [ha.order, ha'.order, h.level s p hp, h.order j, and_self]
  · rw [ha.idMap, ha'.idMap, h.idMap]
  · rw [ha.free, ha'.free, h.free]
  · rw [ha.size, ha'.size, h.size]

theorem freed (h : Mirrors b c) (id i : Nat) : Mirrors (FastOrderBook.freed b id i) (FastOrderBook.freed c id i) := by
  constructor
  · exact h.level
  · intro j
    by_cases hji : j = i
    · subst hji
      rw [order_freed_self, order_freed_self, h.free]
      exact ⟨(h.order j).1, (h.order j).2.1, rfl, rfl⟩
    · rw [order_freed hji, order_freed hji]
      exact h.order j
  · simp only [FastOrderBook.freed, withSlot, withFree, withOrder, h.idMap]
  · rfl
  · exact h.size

/-- The data of one order is written. -/
theorem eqExcept (h : Mirrors b c) (he : EqExcept i b b') (he' : EqExcept i c c')
    (hi : (c'.order i).id = (b'.order i).id ∧ (c'.order i).qty = (b'.order i).qty ∧
      (c'.order i).next = (b'.order i).next ∧ (c'.order i).prev = (b'.order i).prev) : Mirrors b' c' := by
  refine ⟨fun s p hp => ?_, fun j => ?_, ?_, ?_, ?_⟩
  · rw [he.level, he'.level, h.level s p hp]
  · by_cases hji : j = i
    · rw [hji]
      exact hi
    · rw [he.order j hji, he'.order j hji]
      exact h.order j
  · rw [he.idMap, he'.idMap, h.idMap]
  · rw [he.free, he'.free, h.free]
  · rw [he.size, he'.size, h.size]

/-! ### Trades -/

theorem mem_occupied (h : Mirrors b c) (hp : p < MAX_PRICES) : opposite p ∈ c.occupied (!s) ↔ p ∈ b.occupied s := by
  rw [Ladder.mem_occupied, Ladder.mem_occupied, h.level s p hp]
  exact and_congr_left' (iff_of_true (opposite_lt hp) hp)

theorem best (h : Mirrors b c) (hlimit : limit < MAX_PRICES) (hbest : Best isBuy limit b p) :
    Best (!isBuy) (opposite limit) c (opposite p) := by
  have hp : p < MAX_PRICES := hbest.occupied.1
  constructor
  · exact (h.mem_occupied hp).2 hbest.occupied
  · intro q hq hbetter
    obtain ⟨q, hq', rfl⟩ := exists_opposite hq.1
    exact hbest.best _ ((h.mem_occupied hq').1 hq) ((better_opposite hq' hp).1 hbetter)
  · exact (crosses_opposite hlimit hp).2 hbest.crosses

theorem ended (h : Mirrors b c) (hlimit : limit < MAX_PRICES) (hend : Ended isBuy limit (b, qty)) :
    Ended (!isBuy) (opposite limit) (c, qty) := by
  apply hend.imp_right
  intro hfar q hq hcross
  obtain ⟨q, hq', rfl⟩ := exists_opposite hq.1
  exact hfar _ ((h.mem_occupied hq').1 hq) ((crosses_opposite hlimit hq').1 hcross)

theorem trade (h : Mirrors b c) (hlimit : limit < MAX_PRICES) (ht : Trade isBuy limit (b, qty) (b', qty')) :
    ∃ c', Trade (!isBuy) (opposite limit) (c, qty) (c', qty') ∧ Mirrors b' c' := by
  cases ht with
  | @full _ _ p hq hbest hle =>
    have hp : p < MAX_PRICES := hbest.occupied.1
    have hqty : (c.order (c.level (!!isBuy) (opposite p)).head).qty = (b.order (b.level (!isBuy) p).head).qty := by
      rw [h.level (!isBuy) p hp]
      exact (h.order _).2.1
    have ht' := Trade.full hq (h.best hlimit hbest) (hqty ▸ hle)
    rw [hqty] at ht'
    exact ⟨_, ht', h.popped hp⟩
  | @part _ _ p hq hbest hlt =>
    have hp : p < MAX_PRICES := hbest.occupied.1
    have hqty : (c.order (c.level (!!isBuy) (opposite p)).head).qty = (b.order (b.level (!isBuy) p).head).qty := by
      rw [h.level (!isBuy) p hp]
      exact (h.order _).2.1
    exact ⟨_, Trade.part hq (h.best hlimit hbest) (hqty ▸ hlt), h.reduced hp⟩

/-- Trading in the mirror image. -/
theorem trades (h : Mirrors b c) (hlimit : limit < MAX_PRICES)
    (ht : ReflTransGen (Trade isBuy limit) (b, qty) (b', qty')) :
    ∃ c', ReflTransGen (Trade (!isBuy) (opposite limit)) (c, qty) (c', qty') ∧ Mirrors b' c' := by
  generalize hs : (b', qty') = t at ht
  induction ht generalizing b' qty' with
  | refl =>
    cases hs
    exact ⟨c, ReflTransGen.refl, h⟩
  | @tail t₁ _ _ hlast ih =>
    subst hs
    obtain ⟨b₁, qty₁⟩ := t₁
    obtain ⟨c₁, htrades, h₁⟩ := ih rfl
    obtain ⟨c', htrade, h'⟩ := h₁.trade hlimit hlast
    exact ⟨c', htrades.tail htrade, h'⟩

/-! ### Queues -/

theorem meets {idx : Nat} {l : List Nat} (h : Mirrors b c) (hc : c.Meets idx l) : b.Meets idx l := by
  have hnext : (fun i => (c.order i).next) = fun i => (b.order i).next := funext fun i => (h.order i).2.2.1
  exact ⟨hnext ▸ hc.1, hc.2⟩

theorem queues (h : Mirrors b c) (hb : b.Linked Q F) (hc : c.Linked Q' F') (hp : p < MAX_PRICES) :
    Q' (!s, opposite p) = Q (s, p) := by
  have hmeets := h.meets (hc.meets (k := (!s, opposite p)) (opposite_lt hp))
  rw [h.level s p hp] at hmeets
  exact hmeets.unique (hb.meets (k := (s, p)) hp)

theorem free_eq (h : Mirrors b c) (hb : b.Linked Q F) (hc : c.Linked Q' F') : F' = F := by
  have hmeets := h.meets ⟨hc.threads.freeList, hc.threads.null_free⟩
  rw [h.free] at hmeets
  exact hmeets.unique ⟨hb.threads.freeList, hb.threads.null_free⟩

theorem resting_iff (h : Mirrors b c) (hb : b.Linked Q F) (hc : c.Linked Q' F') : c.Resting id ↔ b.Resting id := by
  rw [hb.resting_iff, hc.resting_iff]
  constructor
  · rintro ⟨⟨s, q⟩, i, hi, hid⟩
    obtain ⟨p, hp, rfl⟩ := exists_opposite (hc.price_lt _ i hi)
    rw [← Bool.not_not s, h.queues hb hc hp] at hi
    exact ⟨_, i, hi, (h.order i).1.symm.trans hid⟩
  · rintro ⟨⟨s, p⟩, i, hi, hid⟩
    refine ⟨(!s, opposite p), i, ?_, (h.order i).1.trans hid⟩
    rwa [h.queues hb hc (hb.price_lt _ i hi)]

/-- Where an order rests in the mirror image. -/
theorem place (h : Mirrors b c) (hb : b.Linked Q F) (hc : c.Linked Q' F') (hi : i ∈ Q (s, p)) :
    (c.order i).isBuy = (!s) ∧ (c.order i).price = opposite p := by
  apply hc.place_eq
  rwa [h.queues hb hc (hb.price_lt _ i hi)]

theorem unlinksCleanly (h : Mirrors b c) (hb : b.Linked Q F) (hc : c.Linked Q' F') (hi : i ∈ Q (s, p))
    (hclean : b.UnlinksCleanly i) : c.UnlinksCleanly i := by
  obtain ⟨hside, hprice⟩ := h.place hb hc hi
  obtain ⟨hside', hprice'⟩ := hb.place_eq hi
  unfold UnlinksCleanly at hclean ⊢
  rw [hside', hprice'] at hclean
  rw [hside, hprice, h.level s p (hb.price_lt _ i hi), (h.order i).2.2.2, (h.order i).2.2.1, (h.order _).2.2.1]
  exact hclean

theorem moves_iff {newPrice : Nat} (h : Mirrors b c) (hb : b.Linked Q F) (hc : c.Linked Q' F')
    (hi : i ∈ Q (s, p)) (hp : newPrice < MAX_PRICES) (newQty : Nat) :
    c.Moves i (opposite newPrice) newQty ↔ b.Moves i newPrice newQty := by
  obtain ⟨hside, hprice⟩ := h.place hb hc hi
  obtain ⟨hside', hprice'⟩ := hb.place_eq hi
  have hp' : p < MAX_PRICES := hb.price_lt _ i hi
  unfold Moves
  rw [hside, hprice, h.level s p hp', (h.order i).2.1, hside', hprice', ne_eq, ne_eq, opposite_inj hp' hp]

end Mirrors

/-! ### Trading has one end -/

theorem Best.unique {q : Nat} (hp : Best isBuy limit b p) (hq : Best isBuy limit b q) : p = q :=
  better_total (hq.best p hp.occupied) (hp.best q hq.occupied)

theorem Trade.unique : Relator.RightUnique (Trade isBuy limit) := by
  rintro ⟨b, qty⟩ t t' h h'
  cases h with
  | full _ hbest hle =>
    cases h' with
    | full _ hbest' _ =>
      obtain rfl := hbest.unique hbest'
      rfl
    | part _ hbest' hlt =>
      obtain rfl := hbest.unique hbest'
      omega
  | part _ hbest hlt =>
    cases h' with
    | full _ hbest' hle =>
      obtain rfl := hbest.unique hbest'
      omega
    | part _ hbest' _ =>
      obtain rfl := hbest.unique hbest'
      rfl

theorem Ended.no_trade {t t' : Ladder × Nat} (h : Ended isBuy limit t) : ¬ Trade isBuy limit t t' := by
  intro ht
  rcases h with h | h
  · cases ht with
    | full hq => exact absurd h (Nat.ne_of_gt hq)
    | part hq => exact absurd h (Nat.ne_of_gt hq)
  · cases ht with
    | full _ hbest => exact h _ hbest.occupied hbest.crosses
    | part _ hbest => exact h _ hbest.occupied hbest.crosses

end Ladder

namespace FastBitsetOrderBook

open Ladder

variable {b c b' c' : FastBitsetOrderBook} {Q Q' : Bool × Nat → List Nat} {F F' : List Nat}
  {n id i price qty newPrice newQty : Nat} {isBuy : Bool}

/-- Both books make their requests, and stay mirror images of each other. -/
def StayMirrored (n : Nat) (b c : FastBitsetOrderBook) (r : Request) : Prop :=
  ∃ b' c' Q F Q' F', b.RequestStep r b' ∧ c.RequestStep r.mirror c' ∧ b'.Whole n Q F ∧ c'.Whole n Q' F' ∧
    Mirrors b'.toLadder c'.toLadder

/-- What a submission does, with its trades. -/
theorem Whole.submit_trades (hw : b.Whole n Q F) (hid : id < n) (hrest : ¬ b.Resting id) (hp : price < MAX_PRICES)
    (qty : Nat) (isBuy : Bool) : ∃ b₁ b' Q₁ F₁ qty', b.Step (.submit id price qty isBuy) b' ∧
      ReflTransGen (Trade isBuy price) (b.toLadder, qty) (b₁, qty') ∧ Ended isBuy price (b₁, qty') ∧ b₁.Pool Q₁ F₁ ∧
      (∀ k, ∀ j ∈ Q₁ k, (b₁.order j).id ≠ id) ∧
      (qty' = 0 ∧ b'.toLadder = b₁ ∧ b'.Whole n Q₁ F₁ ∨
        ∃ i F₂, 0 < qty' ∧ F₁ = i :: F₂ ∧ (b₁.taken id price qty' isBuy).Appended isBuy price i b'.toLadder ∧
          b'.Whole n (Function.update Q₁ (isBuy, price) (Q₁ (isBuy, price) ++ [i])) F₂) := by
  obtain ⟨b₁, b', Q₁, F₁, qty', hstep, hend, h₁, htrades, hfresh₁, hcases⟩ := hw.submit
    (P := fun b₁ _ _ qty₁ => ReflTransGen (Trade isBuy price) (b.toLadder, qty) (b₁, qty₁)) hid (hw.pool.fresh hrest)
    hp qty isBuy ReflTransGen.refl
    (fun b₁ Q F qty p i l h₁ htrades hk hbest hq hle => htrades.tail (by
      rw [← (h₁.of_cons hk).1] at hle ⊢
      exact Trade.full hq hbest hle))
    (fun b₁ Q F qty p i l h₁ htrades hk hbest hq hlt => htrades.tail (by
      rw [← (h₁.of_cons hk).1] at hlt
      exact Trade.part hq hbest hlt))
  exact ⟨b₁, b', Q₁, F₁, qty', hstep, htrades, hend, h₁, hfresh₁, hcases⟩

theorem Whole.mirror_submit (hb : b.Whole n Q F) (hc : c.Whole n Q' F') (hm : Mirrors b.toLadder c.toLadder)
    (hid : id < n) (hrest : ¬ b.Resting id) (hp : price < MAX_PRICES) (qty : Nat) (isBuy : Bool) :
    StayMirrored n b c (.call (.submit id price qty isBuy)) := by
  have hrest' : ¬ c.Resting id := fun h => hrest ((hm.resting_iff hb.pool.toLinked hc.pool.toLinked).1 h)
  obtain ⟨b₁, b', Q₁, F₁, qty₁, hstep, htrades, hend, h₁, hfresh₁, hcases⟩ := hb.submit_trades hid hrest hp qty isBuy
  obtain ⟨c₂, c', Q₂, F₂, qty₂, hstep', htrades₂, hend₂, h₂, hfresh₂, hcases'⟩ :=
    hc.submit_trades hid hrest' (opposite_lt hp) qty !isBuy
  -- the trades are mirror images
  obtain ⟨c₁, htrades₁, hm₁⟩ := hm.trades hp htrades
  obtain ⟨rfl, rfl⟩ := Prod.mk.inj (end_unique Trade.unique htrades₁ (fun _ => (hm₁.ended hp hend).no_trade) htrades₂
    fun _ => hend₂.no_trade)
  obtain rfl : F₂ = F₁ := hm₁.free_eq h₁.toLinked h₂.toLinked
  rcases hcases with ⟨hq, rfl, hb'⟩ | ⟨i, F₃, hq, rfl, happ, hb'⟩
  · rcases hcases' with ⟨_, rfl, hc'⟩ | ⟨_, _, hq', _⟩
    · exact ⟨b', c', _, _, _, _, hstep, hstep', hb', hc', hm₁⟩
    · omega
  · rcases hcases' with ⟨hq', _⟩ | ⟨j, F₄, _, hcons, happ', hc'⟩
    · omega
    · obtain ⟨rfl, rfl⟩ := List.cons.inj hcons
      exact ⟨b', c', _, _, _, _, hstep, hstep', hb', hc', (hm₁.taken _).appended hp happ happ'⟩

theorem Whole.mirror_cancel (hb : b.Whole n Q F) (hc : c.Whole n Q' F') (hm : Mirrors b.toLadder c.toLadder)
    (hi : i ∈ Q (isBuy, price)) (hclean : b.UnlinksCleanly i) :
    StayMirrored n b c (.call (.cancel (b.order i).id)) := by
  obtain ⟨l₁, l₂, hk⟩ := List.append_of_mem hi
  have hp : price < MAX_PRICES := hb.pool.price_lt _ i hi
  have hk' : Q' (!isBuy, opposite price) = l₁ ++ i :: l₂ := (hm.queues hb.pool.toLinked hc.pool.toLinked hp).trans hk
  have hclean' := hm.unlinksCleanly hb.pool.toLinked hc.pool.toLinked hi hclean
  obtain ⟨b₁, b', hstep, hu, hb₁, hb'⟩ := hb.cancel hk hclean
  obtain ⟨c₁, c', hstep', hu', hc₁, hc'⟩ := hc.cancel hk' hclean'
  have hid : (c.order i).id = (b.order i).id := (hm.order i).1
  rw [hid] at hstep' hc₁
  refine ⟨b', c', _, _, _, _, hstep, hstep', hb', hc', ?_⟩
  rw [hb₁, hc₁]
  exact (hm.unlinked hp hu hu').freed _ _

theorem Whole.mirror_replace (hb : b.Whole n Q F) (hc : c.Whole n Q' F') (hm : Mirrors b.toLadder c.toLadder)
    (hi : i ∈ Q (isBuy, price)) (hclean : b.Moves i newPrice newQty → b.UnlinksCleanly i) (hp : newPrice < MAX_PRICES) :
    StayMirrored n b c (.replace (b.order i).id newPrice newQty) := by
  obtain ⟨l₁, l₂, hk⟩ := List.append_of_mem hi
  have hp' : price < MAX_PRICES := hb.pool.price_lt _ i hi
  have hk' : Q' (!isBuy, opposite price) = l₁ ++ i :: l₂ := (hm.queues hb.pool.toLinked hc.pool.toLinked hp').trans hk
  have hmoves := hm.moves_iff hb.pool.toLinked hc.pool.toLinked hi hp newQty
  have hclean' : c.Moves i (opposite newPrice) newQty → c.UnlinksCleanly i :=
    fun h => hm.unlinksCleanly hb.pool.toLinked hc.pool.toLinked hi (hclean (hmoves.1 h))
  obtain ⟨b', hstep, hcase⟩ := hb.replace_cases hk hclean hp
  obtain ⟨c', hstep', hcase'⟩ := hc.replace_cases hk' hclean' (opposite_lt hp)
  have hid : (c.order i).id = (b.order i).id := (hm.order i).1
  rw [hid] at hstep'
  rcases hcase with ⟨hstay, _, hb₁, hb'⟩ | ⟨hmove, hmoved, hb'⟩
  · rcases hcase' with ⟨_, _, hc₁, hc'⟩ | ⟨hmove, _⟩
    · refine ⟨b', c', _, _, _, _, hstep, hstep', hb', hc', ?_⟩
      rw [hb₁, hc₁]
      exact hm.withQty i newQty
    · exact absurd (hmoves.1 hmove) hstay
  · rcases hcase' with ⟨hstay, _⟩ | ⟨_, hmoved', hc'⟩
    · exact absurd (hmoves.2 hmove) hstay
    · obtain ⟨b₁, b₂, hu, ha, he, ho⟩ := hmoved.blocks
      obtain ⟨c₁, c₂, hu', ha', he', ho'⟩ := hmoved'.blocks
      have hm₂ := (hm.unlinked hp' hu hu').appended hp ha ha'
      refine ⟨b', c', _, _, _, _, hstep, hstep', hb', hc', hm₂.eqExcept he he' ?_⟩
      rw [ho, ho']
      exact ⟨(hm₂.order i).1, rfl, rfl, (hm₂.order i).2.2.2⟩

/-- Two mirror images stay mirror images. -/
theorem Whole.mirror_request (hb : b.Whole n Q F) (hc : c.Whole n Q' F') (hm : Mirrors b.toLadder c.toLadder)
    {r : Request} (hlawful : Lawful n b r) : Lawful n c r.mirror ∧ StayMirrored n b c r := by
  have hb' := hb.pool.toLinked
  have hc' := hc.pool.toLinked
  match r with
  | .call (.submit id price qty isBuy) =>
    obtain ⟨⟨hid, hrest, hp⟩, _⟩ := hlawful
    have hrest' : ¬ c.Resting id := fun h => hrest ((hm.resting_iff hb' hc').1 h)
    exact ⟨⟨⟨hid, hrest', opposite_lt hp⟩, trivial⟩, hb.mirror_submit hc hm hid hrest hp qty isBuy⟩
  | .call (.cancel id) =>
    obtain ⟨hrest, hclean⟩ := hlawful
    have hrest' : c.Resting id := (hm.resting_iff hb' hc').2 hrest
    obtain ⟨⟨isBuy, price⟩, i, hi, rfl⟩ := hb.pool.resting_iff.1 hrest
    have hslot : b.slot (b.order i).id = i := (hb.pool.mapped _ i hi).2
    have hclean : b.UnlinksCleanly (b.slot (b.order i).id) := hclean
    rw [hslot] at hclean
    refine ⟨⟨hrest', ?_⟩, hb.mirror_cancel hc hm hi hclean⟩
    show c.UnlinksCleanly (c.slot (b.order i).id)
    rw [hm.slot, hslot]
    exact hm.unlinksCleanly hb' hc' hi hclean
  | .replace id newPrice newQty =>
    obtain ⟨⟨hrest, hp⟩, hclean⟩ := hlawful
    have hrest' : c.Resting id := (hm.resting_iff hb' hc').2 hrest
    obtain ⟨⟨isBuy, price⟩, i, hi, rfl⟩ := hb.pool.resting_iff.1 hrest
    have hslot : b.slot (b.order i).id = i := (hb.pool.mapped _ i hi).2
    have hclean : b.Moves (b.slot (b.order i).id) newPrice newQty → b.UnlinksCleanly (b.slot (b.order i).id) := hclean
    rw [hslot] at hclean
    refine ⟨⟨⟨hrest', opposite_lt hp⟩, ?_⟩, hb.mirror_replace hc hm hi hclean hp⟩
    show c.Moves (c.slot (b.order i).id) (opposite newPrice) newQty → c.UnlinksCleanly (c.slot (b.order i).id)
    rw [hm.slot, hslot, hm.moves_iff hb' hc' hi hp]
    exact fun hmoves => hm.unlinksCleanly hb' hc' hi (hclean hmoves)

theorem mirrors_init (hinit : new.init n = .ok b) : Mirrors b.toLadder b.toLadder := by
  obtain ⟨l, hl, e⟩ := bind_eq_ok.1 hinit
  cases e
  refine ⟨fun s p _ => ?_, fun _ => ⟨rfl, rfl, rfl, rfl⟩, rfl, rfl, rfl⟩
  rw [(Ladder.initialised_of_eq_ok hl).level, (Ladder.initialised_of_eq_ok hl).level]

/-- The mirrored requests of a run are a run too, and it leads to the mirror image: the same slots in the mirrored levels,
with the same links, and the same orders in the same places. -/
theorem mirror_run {b₀ : FastBitsetOrderBook} (hlt : n < NULL_IDX) (hinit : new.init n = .ok b₀) (rs : List Request)
    (b : FastBitsetOrderBook) (hrun : Run (Guarded (Lawful n) RequestStep) b₀ rs b) :
    ∃ c, Run (Guarded (Lawful n) RequestStep) b₀ (rs.map Request.mirror) c ∧ Mirrors b.toLadder c.toLadder ∧
      ∀ s p, p < MAX_PRICES → c.shown (!s, opposite p) = b.shown (s, p) := by
  have hmirror : ∃ c Q F Q' F', Run (Guarded (Lawful n) RequestStep) b₀ (rs.map Request.mirror) c ∧ b.Whole n Q F ∧
      c.Whole n Q' F' ∧ Mirrors b.toLadder c.toLadder := by
    induction hrun with
    | refl => exact ⟨b₀, _, _, _, _, Run.refl, Whole.init hlt hinit, Whole.init hlt hinit, mirrors_init hinit⟩
    | snoc _ hs ih =>
      obtain ⟨c, Q, F, Q', F', hrun', hb, hc, hm⟩ := ih
      obtain ⟨hlawful', b', c', _, _, _, _, hstep, hstep', hb', hc', hm'⟩ := hb.mirror_request hc hm hs.1
      obtain rfl := hs.2.unique hstep
      rw [List.map_append]
      exact ⟨c', _, _, _, _, hrun'.snoc ⟨hlawful', hstep'⟩, hb', hc', hm'⟩
  obtain ⟨c, Q, F, Q', F', hrun', hb, hc, hm⟩ := hmirror
  refine ⟨c, hrun', hm, fun s p hp => ?_⟩
  rw [hb.pool.shown_eq, hc.pool.shown_eq]
  have hentry : c.entry = b.entry := funext fun i => Prod.ext (hm.order i).1 (hm.order i).2.1
  rw [quotes, quotes, hm.queues hb.pool.toLinked hc.pool.toLinked hp, hentry]

theorem mirror_run_movedAsk : ∃ b₀ c, new.init 2 = .ok b₀ ∧
    Run (Guarded (Lawful 2) RequestStep) b₀ (movedAsk.map Request.mirror) c ∧
      Mirrors (trial 2 movedAsk).toLadder c.toLadder := by
  obtain ⟨b₀, h₀, hrun⟩ := movedAsk_run
  obtain ⟨c, hrun', hm, _⟩ := mirror_run (by decide) h₀ _ _ hrun
  exact ⟨b₀, c, h₀, hrun', hm⟩

end FastBitsetOrderBook

end Lobook
