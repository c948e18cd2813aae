import Lobook.Book.Linked

/-!
# The pool of orders

`Pool b Q F` adds to `Linked b Q F` that the back links of the orders are right, those of the first orders of the
queues apart, about which it only says that they lead to an order of the pool if they lead anywhere.  Every operation
on the queues keeps this, as long as an order that leaves the front of its queue does not write through a back link
that is wrong.
-/

namespace Lobook

open Checked Links

namespace Ladder

/-- The links thread the queues `Q` and the free list `F`, and the back links mirror them. -/
structure Pool (b : Ladder) (Q : Bool × Nat → List Nat) (F : List Nat) : Prop extends Linked b Q F where
  mirrored : Mirrored (fun i => (b.order i).prev) Q
  fits_prev : ∀ k, ∀ i ∈ Q k, b.Fits (b.order i).prev

variable {b b' b₁ : Ladder} {Q : Bool × Nat → List Nat} {F : List Nat} {isBuy : Bool} {price i id qty : Nat}
  {l l₁ l₂ : List Nat} {k : Bool × Nat}

namespace Pool

/-- After `init` all slots up to the first one that the links cannot name are free, and nothing rests. -/
theorem init {n : Nat} (h : b.Initialised n b') : b'.Pool (fun _ => []) (List.range' 0 (min n NULL_IDX)) :=
  ⟨Linked.init h, fun _ => List.isChain_nil, fun k i hi => by cases hi⟩

/-- An order can leave its queue, unless it is the first one and has a wrong back link. -/
theorem detachable (h : b.Pool Q F) (hk : Q k = l₁ ++ i :: l₂)
    (hfirst : l₁ = [] → (b.order i).prev ≠ NULL_IDX → (b.order (b.order i).prev).next = (b.order i).next) :
    b.Detachable i l₁ :=
  ⟨fun a ha => h.mirrored.prev_eq hk ha, hfirst, h.fits_prev k i (by rw [hk]; simp)⟩

/-- The first order of a level is filled: its slot is free. -/
theorem popped (h : b.Pool Q F) (hk : Q (isBuy, price) = i :: l) :
    (b.popped isBuy price).Pool (Function.update Q (isBuy, price) l) (i :: F) := by
  have hhead := (h.of_cons hk).1
  have horder : ∀ k j, j ∈ Function.update Q (isBuy, price) l k → (b.popped isBuy price).order j = b.order j :=
    fun k j hj => order_popped hhead (h.threads.mem_of_pop hk hj).2
  refine ⟨h.toLinked.popped hk, (h.mirrored.pop hk).congr fun k j hj => ?_, fun k j hj => ?_⟩
  · rw [horder k j hj]
  · rw [horder k j hj]
    exact h.fits_prev k j (h.threads.mem_of_pop hk hj).1

/-- The quantity of an order is written. -/
theorem withQty (h : b.Pool Q F) (i qty : Nat) : (b.withOrder i { b.order i with qty := qty }).Pool Q F := by
  have hprev : ∀ j, ((b.withOrder i { b.order i with qty := qty }).order j).prev = (b.order j).prev := by
    intro j
    by_cases hj : j = i <;> simp [hj]
  refine ⟨h.toLinked.withQty i qty, h.mirrored.congr fun k j _ => hprev j, fun k j hj => ?_⟩
  rw [hprev]
  exact h.fits_prev k j hj

/-- The first order is filled in part. -/
theorem reduced (h : b.Pool Q F) : (b.reduced isBuy price qty).Pool Q F := h.withQty _ _

/-- The data of a slot that is neither free nor in a queue does not matter. -/
theorem eqExcept (h : b.Pool Q F) (hQ : ∀ k, i ∉ Q k) (hF : i ∉ F) (he : EqExcept i b b') : b'.Pool Q F := by
  have horder : ∀ k j, j ∈ Q k → b'.order j = b.order j := fun k j hj => he.order j fun e => hQ k (e ▸ hj)
  refine ⟨h.toLinked.eqExcept hQ hF he, h.mirrored.congr fun k j hj => by rw [horder k j hj], fun k j hj => ?_⟩
  rw [horder k j hj]
  exact (h.fits_prev k j hj).imp_right fun hlt => he.size ▸ hlt

/-- The first free slot is taken by a new order, whose id no order in a queue has. -/
theorem taken (h : b.Pool Q (i :: F)) (hid : ∀ k, ∀ j ∈ Q k, (b.order j).id ≠ id) (price qty : Nat) (isBuy : Bool) :
    b.nextFreeOrderIdx = i ∧ i ≠ NULL_IDX ∧ (∀ k, i ∉ Q k) ∧ i ∉ F ∧ (b.taken id price qty isBuy).Pool Q F := by
  obtain ⟨hfree, hnull, hQ, hF, h'⟩ := h.toLinked.taken hid price qty isBuy
  have horder : ∀ k j, j ∈ Q k → (b.taken id price qty isBuy).order j = b.order j := by
    intro k j hj
    have hji : j ≠ i := fun e => hQ k (e ▸ hj)
    rw [order_taken hfree, if_neg hji]
  exact ⟨hfree, hnull, hQ, hF, h', h.mirrored.congr fun k j hj => by rw [horder k j hj],
    fun k j hj => by rw [horder k j hj]; exact h.fits_prev k j hj⟩

/-- An order leaves its queue. -/
theorem unlinked (h : b.Pool Q F) (hk : Q (isBuy, price) = l₁ ++ i :: l₂)
    (hfirst : l₁ = [] → (b.order i).prev ≠ NULL_IDX → (b.order (b.order i).prev).next = (b.order i).next)
    (hu : b.Unlinked isBuy price i b') :
    (∀ k, i ∉ Function.update Q (isBuy, price) (l₁ ++ l₂) k) ∧ i ∉ F ∧
      b'.Pool (Function.update Q (isBuy, price) (l₁ ++ l₂)) F := by
  obtain ⟨hQ, hF, h'⟩ := h.toLinked.unlinked hk (h.detachable hk hfirst) hu
  refine ⟨hQ, hF, h', ?_, fun k j hj => ?_⟩
  · refine h.mirrored.unlink h.threads hk fun j => ?_
    rw [hu.order]
  · rw [hu.order, Fits, hu.size]
    show (if _ then _ else _) = NULL_IDX ∨ (if _ then _ else _) < _
    split
    · exact h.fits_prev _ i (by rw [hk]; simp)
    · exact h.fits_prev k j (h.threads.mem_of_unlink hk hj).1

/-- The slot of an order outside the queues becomes free. -/
theorem freed (h : b.Pool Q F) (hnull : i ≠ NULL_IDX) (hlt : i < b.orders.size) (hQ : ∀ k, i ∉ Q k) (hF : i ∉ F)
    (hslot : b.slot id = i) : (FastOrderBook.freed b id i).Pool Q (i :: F) := by
  have horder : ∀ k j, j ∈ Q k → (FastOrderBook.freed b id i).order j = b.order j :=
    fun k j hj => order_freed fun e => hQ k (e ▸ hj)
  exact ⟨h.toLinked.freed hnull hlt hQ hF hslot, h.mirrored.congr fun k j hj => by rw [horder k j hj],
    fun k j hj => by rw [horder k j hj]; exact h.fits_prev k j hj⟩

/-- The back links after an order outside the queues has become the last one of a level. -/
theorem of_appended (h : b.Pool Q F) (hQ : ∀ k, i ∉ Q k) (hp : price < MAX_PRICES) (ha : b.Appended isBuy price i b₁)
    (he : EqExcept i b₁ b') (hprev : (b'.order i).prev = (b₁.order i).prev)
    (h' : b'.Linked (Function.update Q (isBuy, price) (Q (isBuy, price) ++ [i])) F) :
    b'.Pool (Function.update Q (isBuy, price) (Q (isBuy, price) ++ [i])) F := by
  have hsize : b'.orders.size = b.orders.size := he.size.trans ha.size
  refine ⟨h', ?_, fun k j hj => ?_⟩
  · refine h.mirrored.append h.threads hQ fun j => ?_
    rw [front_of_lt hp]
    by_cases hj : j = i
    · subst hj
      rw [hprev, ha.order]
    · rw [he.order j hj, ha.order, if_neg hj]
  · rw [Fits, hsize]
    rcases mem_of_append hQ hj with ⟨hj, hji⟩ | ⟨rfl, rfl⟩
    · rw [he.order j hji, ha.order]
      simp only [if_neg hji]
      exact h.fits_prev k j hj
    · rw [hprev, ha.order]
      simp only [if_true]
      split
      · exact Or.inl rfl
      · rename_i hhead
        exact Or.inr (h.tail_lt hp hhead)

/-- An order outside the queues becomes the last one of a level. -/
theorem appended (h : b.Pool Q F) (hnull : i ≠ NULL_IDX) (hlt : i < b.orders.size) (hQ : ∀ k, i ∉ Q k) (hF : i ∉ F)
    (hp : price < MAX_PRICES) (ha : b.Appended isBuy price i b₁) (he : EqExcept i b₁ b')
    (hnext : (b'.order i).next = NULL_IDX) (hprev : (b'.order i).prev = (b₁.order i).prev)
    (hplace : ((b'.order i).isBuy, (b'.order i).price) = (isBuy, price)) (hid : (b'.order i).id < b'.idMap.size)
    (hslot : b'.slot (b'.order i).id = i) :
    b'.Pool (Function.update Q (isBuy, price) (Q (isBuy, price) ++ [i])) F :=
  h.of_appended hQ hp ha he hprev (h.toLinked.appended hnull hlt hQ hF hp ha he hnext hplace hid hslot)

end Pool

end Ladder

end Lobook
