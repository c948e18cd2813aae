import Lobook.Book.Execution

/-!
# Cancelling what was left of an order

What `match` leaves of an incoming order takes the first free slot and becomes the last order of its level.  When it is
cancelled right away, the slot is the first free one again and the order before it, if there is one, is the last of the
level again: only the entry of the id and the data of the slot differ from the state after `match`.  The back link of the
order that is unlinked was written just before, so the stale back links of other orders do not matter.
-/

namespace Lobook

open Checked Links Relation

namespace Ladder

variable {b b₁ b' b'' : Ladder} {Q : Bool × Nat → List Nat} {F : List Nat} {isBuy : Bool} {price i id qty : Nat}

/-- The last order of a level has no link. -/
theorem Linked.next_tail (h : b.Linked Q F) (hp : price < MAX_PRICES) (hhead : (b.level isBuy price).head ≠ NULL_IDX) :
    (b.order (b.level isBuy price).tail).next = NULL_IDX := by
  rcases List.eq_nil_or_concat (Q (isBuy, price)) with hnil | ⟨l, a, hk⟩
  · exact absurd ((h.head_eq_null hp).2 hnil) hhead
  · rw [List.concat_eq_append] at hk
    have htail : (b.level isBuy price).tail = a :=
      h.threads.tail (isBuy, price) a (by rw [hk, List.getLast?_concat])
    have hpath := h.threads.queue (isBuy, price)
    rw [hk] at hpath
    obtain ⟨_, _, _, hlast⟩ := path_append.1 hpath
    rw [htail]
    exact hlast

/-- An order that was appended just before can leave its queue. -/
theorem Linked.detachable_appended (h : b.Linked Q (i :: F)) (hfresh : ∀ k, ∀ j ∈ Q k, (b.order j).id ≠ id)
    (hp : price < MAX_PRICES) (ha : (b.taken id price qty isBuy).Appended isBuy price i b') :
    b'.Detachable i (Q (isBuy, price)) := by
  have hprev : (b'.order i).prev =
      if (b.level isBuy price).head = NULL_IDX then NULL_IDX else (b.level isBuy price).tail := by
    rw [h.order_appended hfresh hp ha, if_pos rfl]
  refine ⟨fun a hlast => ?_, fun hnil hne => ?_, ?_⟩
  · have hhead : (b.level isBuy price).head ≠ NULL_IDX := by
      intro e
      rw [(h.head_eq_null hp).1 e] at hlast
      cases hlast
    rw [hprev, if_neg hhead]
    exact h.threads.tail (isBuy, price) a hlast
  · rw [hprev, if_pos ((h.head_eq_null hp).2 hnil)] at hne
    exact absurd rfl hne
  · rw [hprev, Fits, ha.size]
    split
    · exact Or.inl rfl
    · rename_i hhead
      exact Or.inr (h.tail_lt hp hhead)

/-- Taking the order out again restores the data of all other slots and levels. -/
theorem Linked.unlink_appended (h : b.Linked Q (i :: F)) (hfresh : ∀ k, ∀ j ∈ Q k, (b.order j).id ≠ id)
    (hp : price < MAX_PRICES) (ha : (b.taken id price qty isBuy).Appended isBuy price i b')
    (hu : b'.Unlinked isBuy price i b'') :
    (∀ j, j ≠ i → b''.order j = b.order j) ∧
      ∀ s p, (b''.level s p).head = (b.level s p).head ∧
        ((b.level s p).head ≠ NULL_IDX → (b''.level s p).tail = (b.level s p).tail) := by
  have horder := h.order_appended hfresh hp ha
  have hi : b'.order i = _ := (horder i).trans (if_pos rfl)
  constructor
  · intro j hj
    rw [hu.order, hi, horder, if_neg hj]
    by_cases hhead : (b.level isBuy price).head = NULL_IDX
    · simp [hhead]
    · have htail : (b.level isBuy price).tail ≠ NULL_IDX :=
        h.ne_null (h.threads.tail_mem fun hnil => hhead ((h.head_eq_null hp).2 hnil))
      by_cases hjt : j = (b.level isBuy price).tail
      · have hnext := h.next_tail hp hhead
        rw [← hjt] at hnext htail ⊢
        simp only [hhead, htail, ne_eq, not_false_eq_true, and_self, if_true, if_false, not_true_eq_false]
        rw [← hnext]
      · simp [hhead, hjt]
  · intro s p
    have hold : ∀ s p, (b.taken id price qty isBuy).level s p = b.level s p := fun _ _ => rfl
    by_cases hsp : s = isBuy ∧ p = price
    · obtain ⟨rfl, rfl⟩ := hsp
      have hne : (b.level s p).head ≠ i := by
        intro e
        have hmem : i ∈ i :: F := List.mem_cons_self
        by_cases hhead : (b.level s p).head = NULL_IDX
        · exact h.threads.null_free (by rw [← hhead, e]; exact hmem)
        · obtain ⟨j, l, hk⟩ := List.exists_cons_of_ne_nil fun hnil => hhead ((h.head_eq_null hp).2 hnil)
          refine h.threads.free_apart (s, p) i hmem ?_
          rw [← e, (h.of_cons hk).1, hk]
          exact List.mem_cons_self
      have hlevel : b'.level s p = ⟨if (b.level s p).head = NULL_IDX then i else (b.level s p).head, i⟩ := by
        rw [ha.level, if_pos ⟨rfl, rfl⟩, hold]
      rw [hu.level, if_pos ⟨rfl, rfl⟩, hi, hlevel]
      by_cases hhead : (b.level s p).head = NULL_IDX
      · simp [hhead]
      · simp [hhead, hne]
    · rw [hu.level, if_neg hsp, ha.level, if_neg hsp, hold]
      exact ⟨rfl, fun _ => rfl⟩

end Ladder

namespace FastBitsetOrderBook

open Ladder

variable {b b₁ b' b'' : FastBitsetOrderBook} {Q : Bool × Nat → List Nat} {F : List Nat} {isBuy : Bool}
  {price id qty : Nat}

/-- The books differ only in the data of the slot `i` and in the entry of `id`. -/
structure EqBut (id i : Nat) (b b' : FastBitsetOrderBook) : Prop where
  chain : ∀ s p, p < MAX_PRICES → ∃ l, b.Meets (b.level s p).head l ∧ b'.Meets (b'.level s p).head l
  head : ∀ s p, (b'.level s p).head = (b.level s p).head
  tail : ∀ s p, (b.level s p).head ≠ NULL_IDX → (b'.level s p).tail = (b.level s p).tail
  order : ∀ j, j ≠ i → b'.order j = b.order j
  freeList : ∃ l, b.Meets b.nextFreeOrderIdx l ∧ b'.Meets b'.nextFreeOrderIdx l
  index : b'.index = b.index
  slot : ∀ id', id' ≠ id → b'.slot id' = b.slot id'
  size : b'.orders.size = b.orders.size
  map_size : b'.idMap.size = b.idMap.size

/-- Cancelling what was left of an order right after submitting it leaves its fills. -/
theorem cancel_after_submit (h : b.Faithful Q F) (hid : id < b.idMap.size) (hrest : ¬ b.Resting id)
    (hp : price < MAX_PRICES) (qty : Nat) (isBuy : Bool) :
    ∃ fuel b₁ qty₁, b.matchOrder fuel price qty isBuy = .ok (b₁, qty₁) ∧
      (0 < qty₁ → b₁.nextFreeOrderIdx ≠ NULL_IDX →
        ∃ b' b'', b.submitOrder fuel id price qty isBuy = .ok b' ∧ b'.cancelOrder id = .ok b'' ∧
          EqBut id b₁.nextFreeOrderIdx b₁ b'') := by
  obtain ⟨hs, hl, _⟩ := h
  have hfresh : ∀ k, ∀ j ∈ Q k, (b.order j).id ≠ id := hl.fresh hrest
  obtain ⟨fuel, b₁, b', qty₁, e, e', hi₁, hi', htrades, _, hall⟩ :=
    submitOrder_linked (signposted_iff.1 hs) hl hid hfresh hp qty isBuy
  obtain ⟨Q₁, F₁, h₁⟩ := hl.of_trades htrades
  refine ⟨fuel, b₁, qty₁, e, fun hq hnull => ?_⟩
  obtain ⟨hfresh₁, ⟨hstop, _⟩ | ⟨i, F₂, _, rfl, happ, h'⟩⟩ := hall Q₁ F₁ h₁
  · rcases hstop with hzero | hnil
    · exact absurd hzero (Nat.ne_of_gt hq)
    · exact absurd (h₁.threads.free_eq_null.2 hnil) hnull
  · obtain ⟨hfree, _⟩ := h₁.taken hfresh₁ price qty₁ isBuy
    have hk : Function.update Q₁ (isBuy, price) (Q₁ (isBuy, price) ++ [i]) (isBuy, price) =
        Q₁ (isBuy, price) ++ i :: [] := Function.update_self _ _ _
    obtain ⟨b₂, b'', e'', hi'', hu, hb'', h''⟩ :=
      cancelOrder_linked hi' h' hk (h₁.detachable_appended hfresh₁ hp happ)
    have hid' : (b'.order i).id = id := by
      rw [h₁.order_appended hfresh₁ hp happ, if_pos rfl]
    rw [hid'] at e'' hb''
    obtain ⟨horder, hlevels⟩ := h₁.unlink_appended hfresh₁ hp happ hu
    have hlevels' : ∀ s p, b''.level s p = b₂.level s p := fun s p => by rw [hb'']; rfl
    have hheads : ∀ s p, (b''.level s p).head = (b₁.level s p).head := fun s p => by rw [hlevels', (hlevels s p).1]
    -- the queues and the free list are those after `match`
    rw [Function.update_idem, List.append_nil, Function.update_eq_self] at h''
    refine ⟨b', b'', e', e'', fun s p hp => ⟨Q₁ (s, p), h₁.meets (k := (s, p)) hp, h''.meets (k := (s, p)) hp⟩, hheads,
      fun s p hhead => by rw [hlevels', (hlevels s p).2 hhead], fun j hj => ?_,
      ⟨i :: F₂, ⟨h₁.threads.freeList, h₁.threads.null_free⟩, h''.threads.freeList, h''.threads.null_free⟩,
      hi₁.index_eq hi'' fun s p _ => by rw [hheads], fun id' hne => ?_, ?_, ?_⟩
    · rw [hfree] at hj
      rw [hb'', order_freed hj, horder j hj]
    · rw [hb'', slot_freed, if_neg hne, hu.slot, slot_appended hfree happ, if_neg hne]
    · rw [hb'']
      exact hu.size.trans happ.size
    · rw [hb'']
      show b₂.idMap.size = _
      rw [hu.idMap, happ.idMap]
      rfl

/-- An order at the best price of an empty book is submitted and cancelled. -/
theorem cancel_after_submit_alone : ∃ b₀ fuel b' b'', new.init 2 = .ok b₀ ∧
    b₀.submitOrder fuel 0 5 10 true = .ok b' ∧ b'.cancelOrder 0 = .ok b'' ∧ EqBut 0 0 b₀ b'' := by
  have hok : (new.init 2).isOk = true := by decide +kernel
  have h₀ := eq_ok_value new hok
  obtain ⟨hstocked, hrest⟩ := stocked_init h₀
  obtain ⟨Q, F, hf⟩ := hstocked.faithful
  have hsize : (value (new.init 2) new).idMap.size = 2 := by decide +kernel
  obtain ⟨fuel, b₁, qty₁, e, hround⟩ := cancel_after_submit hf (hsize.symm ▸ (by decide : 0 < 2)) (hrest 0)
    (show 5 < MAX_PRICES by decide) 10 true
  have hmatch : (value (new.init 2) new).matchOrder 1 5 10 true = .ok (value (new.init 2) new, 10) := by
    have hbest : (value (new.init 2) new).best true = .ok none := by decide +kernel
    simp only [matchOrder, loop, matchRound, hbest, ok_bind]
    rfl
  obtain ⟨rfl, rfl⟩ : b₁ = value (new.init 2) new ∧ qty₁ = 10 := Prod.mk.inj (matchOrder_unique e hmatch)
  have hfree : (value (new.init 2) new).nextFreeOrderIdx = 0 := by decide +kernel
  obtain ⟨b', b'', hsubmit, hcancel, heq⟩ := hround (by decide) (by rw [hfree]; decide)
  rw [hfree] at heq
  exact ⟨_, fuel, b', b'', h₀, hsubmit, hcancel, heq⟩

end FastBitsetOrderBook

end Lobook
