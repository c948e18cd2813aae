import Mathlib.Data.List.Perm.Subperm
import Lobook.Lib.Links
import Lobook.Book.FastBook
import Lobook.Book.Index

/-!
# Queues and free slots

`Linked b Q F` says that the `next` fields of the book thread the queues `Q`, one for each level, and the free list `F`
through the pool, that every order is in the queue of its side and price, and that the map finds it there.  Back links
play no role in it; only to take an order out of its queue, the back link of this order must be right (`Detachable`).
One lemma for each operation: filling the first order of a level in full or in part, adding an order, taking one out,
freeing its slot, and moving it.
-/

namespace Lobook

open Checked Links

namespace Ladder

/-- The first slot of a level; there is none outside the ladder. -/
def front (b : Ladder) (k : Bool × Nat) : Nat := if k.2 < MAX_PRICES then (b.level k.1 k.2).head else NULL_IDX

/-- The links thread the queues `Q` and the free list `F`, and the map finds every order of a queue. -/
structure Linked (b : Ladder) (Q : Bool × Nat → List Nat) (F : List Nat) : Prop where
  threads : Threads NULL_IDX (fun i => (b.order i).next) b.front (fun k => (b.level k.1 k.2).tail)
    b.nextFreeOrderIdx Q F
  bound : ∀ k, ∀ i ∈ Q k, i < b.orders.size
  free_bound : ∀ i ∈ F, i < b.orders.size
  place : ∀ k, ∀ i ∈ Q k, ((b.order i).isBuy, (b.order i).price) = k
  mapped : ∀ k, ∀ i ∈ Q k, (b.order i).id < b.idMap.size ∧ b.slot (b.order i).id = i

/-- The back link of the order in slot `i`, which comes after `l₁` in its queue, leads to the last order of `l₁`; if the
order is the first one of its queue, a write to the link of the order behind its back link changes nothing. -/
structure Detachable (b : Ladder) (i : Nat) (l₁ : List Nat) : Prop where
  pred : ∀ a, l₁.getLast? = some a → (b.order i).prev = a
  first : l₁ = [] → (b.order i).prev ≠ NULL_IDX → (b.order (b.order i).prev).next = (b.order i).next
  fits : b.Fits (b.order i).prev

/-- Following `next` from `idx` one meets the slots of `l`, and then `NULL_IDX`. -/
def Meets (b : Ladder) (idx : Nat) (l : List Nat) : Prop :=
  Path (fun i => (b.order i).next) idx l NULL_IDX ∧ NULL_IDX ∉ l

/-- The slots that one meets from the head of a level. -/
def queue (b : Ladder) (isBuy : Bool) (price : Nat) : List Nat :=
  walk NULL_IDX (fun i => (b.order i).next) b.orders.size (b.level isBuy price).head

/-- An order in a bid or ask level has this id. -/
def Resting (b : Ladder) (id : Nat) : Prop :=
  ∃ isBuy price, price < MAX_PRICES ∧ ∃ i ∈ b.queue isBuy price, (b.order i).id = id

/-- Only the order in slot `i` differs. -/
structure EqExcept (i : Nat) (b b' : Ladder) : Prop where
  order : ∀ j, j ≠ i → b'.order j = b.order j
  levels : b'.levels = b.levels
  idMap : b'.idMap = b.idMap
  free : b'.nextFreeOrderIdx = b.nextFreeOrderIdx
  size : b'.orders.size = b.orders.size

variable {b b' b₁ : Ladder} {Q : Bool × Nat → List Nat} {F : List Nat} {isBuy : Bool} {price i id qty : Nat}
  {l l₁ l₂ : List Nat} {k : Bool × Nat}

theorem front_of_lt (hp : price < MAX_PRICES) : b.front (isBuy, price) = (b.level isBuy price).head := if_pos hp

theorem front_congr (h : ∀ s p, (b'.level s p).head = (b.level s p).head) : b'.front = b.front := by
  funext k
  unfold front
  rw [h]

/-- A block that changes the head of one level. -/
theorem front_update {x : Nat} (hp : price < MAX_PRICES)
    (h : ∀ s p, (b'.level s p).head = if s = isBuy ∧ p = price then x else (b.level s p).head) (k : Bool × Nat) :
    b'.front k = if k = (isBuy, price) then x else b.front k := by
  unfold front
  rw [h]
  by_cases e : k = (isBuy, price)
  · simp only [e, and_self, if_true, if_pos hp]
  · have e' : ¬ (k.1 = isBuy ∧ k.2 = price) := fun h => e (Prod.ext h.1 h.2)
    rw [if_neg e', if_neg e]

theorem Meets.unique {idx : Nat} (h : b.Meets idx l₁) (h' : b.Meets idx l₂) : l₁ = l₂ := h.1.unique h'.1 h.2 h'.2

/-- The slots of the pool that one meets are not more than the pool has. -/
theorem Meets.length_le {idx : Nat} (h : b.Meets idx l) (hb : ∀ i ∈ l, i < b.orders.size) :
    l.length ≤ b.orders.size := by
  have hsub : l ⊆ List.range b.orders.size := fun i hi => List.mem_range.2 (hb i hi)
  have hlen := (List.subperm_of_subset (h.1.nodup h.2) hsub).length_le
  rwa [List.length_range] at hlen

theorem Meets.queue_eq (h : b.Meets (b.level isBuy price).head l) (hb : ∀ i ∈ l, i < b.orders.size) :
    b.queue isBuy price = l := h.1.walk_eq h.2 (h.length_le hb)

theorem EqExcept.refl : EqExcept i b b := ⟨fun _ _ => rfl, rfl, rfl, rfl, rfl⟩

theorem eqExcept_withOrder (o : Order) : EqExcept i b (b.withOrder i o) :=
  ⟨fun j hj => by rw [order_withOrder, if_neg hj], rfl, rfl, rfl, rfl⟩

theorem EqExcept.trans (h : EqExcept i b b') (h' : EqExcept i b' b₁) : EqExcept i b b₁ where
  order j hj := (h'.order j hj).trans (h.order j hj)
  levels := h'.levels.trans h.levels
  idMap := h'.idMap.trans h.idMap
  free := h'.free.trans h.free
  size := h'.size.trans h.size

theorem EqExcept.level (h : EqExcept i b b') (s : Bool) (p : Nat) : b'.level s p = b.level s p := by
  simp only [Ladder.level, h.levels]

theorem EqExcept.slot (h : EqExcept i b b') (id : Nat) : b'.slot id = b.slot id := by
  simp only [Ladder.slot, h.idMap]

private theorem key_eq (k : Bool × Nat) : (k.1 = isBuy ∧ k.2 = price) ↔ k = (isBuy, price) :=
  (Prod.ext_iff (x := k) (y := (isBuy, price))).symm

theorem order_freed {j : Nat} (hj : j ≠ i) : (FastOrderBook.freed b id i).order j = b.order j := by
  simp only [FastOrderBook.freed, order_withSlot, order_withFree, order_withOrder, if_neg hj]

theorem order_freed_self : (FastOrderBook.freed b id i).order i =
    { b.order i with prev := NULL_IDX, next := b.nextFreeOrderIdx } := by
  simp only [FastOrderBook.freed, order_withSlot, order_withFree, order_withOrder, if_true]

theorem slot_freed (id' : Nat) : (FastOrderBook.freed b id i).slot id' = if id' = id then NULL_IDX else b.slot id' := by
  simp only [FastOrderBook.freed, slot_withSlot, slot_withFree, slot_withOrder]

namespace Linked

/-! ### What the links say -/

theorem ne_null (h : b.Linked Q F) (hi : i ∈ Q k) : i ≠ NULL_IDX := fun e => h.threads.null_queue k (e ▸ hi)

theorem unique {Q' : Bool × Nat → List Nat} {F' : List Nat} (h : b.Linked Q F) (h' : b.Linked Q' F') :
    Q = Q' ∧ F = F' := h.threads.unique h'.threads

/-- The levels outside the ladder hold nothing. -/
theorem price_lt (h : b.Linked Q F) (k : Bool × Nat) (i : Nat) (hi : i ∈ Q k) : k.2 < MAX_PRICES := by
  by_contra hp
  have hnil := (h.threads.head_eq_null k).1 (if_neg hp)
  rw [hnil] at hi
  cases hi

/-- The first order of a level. -/
theorem of_cons (h : b.Linked Q F) (hk : Q (isBuy, price) = i :: l) :
    (b.level isBuy price).head = i ∧ i ≠ NULL_IDX ∧ i < b.orders.size ∧ price < MAX_PRICES ∧
      (b.order i).id < b.idMap.size ∧ b.slot (b.order i).id = i := by
  have hi : i ∈ Q (isBuy, price) := hk ▸ List.mem_cons_self
  have hp : price < MAX_PRICES := h.price_lt _ i hi
  have hhead := (h.threads.of_cons hk).1
  rw [front_of_lt hp] at hhead
  obtain ⟨hid, hslot⟩ := h.mapped _ i hi
  exact ⟨hhead, h.ne_null hi, h.bound _ i hi, hp, hid, hslot⟩

theorem meets (h : b.Linked Q F) (hp : k.2 < MAX_PRICES) : b.Meets (b.level k.1 k.2).head (Q k) := by
  have hpath := h.threads.queue k
  rw [show b.front k = (b.level k.1 k.2).head from if_pos hp] at hpath
  exact ⟨hpath, h.threads.null_queue k⟩

theorem head_eq_null (h : b.Linked Q F) (hp : price < MAX_PRICES) :
    (b.level isBuy price).head = NULL_IDX ↔ Q (isBuy, price) = [] := by
  rw [← h.threads.head_eq_null (isBuy, price), front_of_lt hp]

theorem mem_occupied (h : b.Linked Q F) : price ∈ b.occupied isBuy ↔ Q (isBuy, price) ≠ [] := by
  rw [Ladder.mem_occupied]
  constructor
  · rintro ⟨hp, hhead⟩ hnil
    exact hhead ((h.head_eq_null hp).2 hnil)
  · intro hne
    obtain ⟨i, hi⟩ := List.exists_mem_of_ne_nil _ hne
    have hp : price < MAX_PRICES := h.price_lt _ i hi
    exact ⟨hp, fun hhead => hne ((h.head_eq_null hp).1 hhead)⟩

theorem tail_lt (h : b.Linked Q F) (hp : price < MAX_PRICES) (hhead : (b.level isBuy price).head ≠ NULL_IDX) :
    (b.level isBuy price).tail < b.orders.size :=
  h.bound _ _ (h.threads.tail_mem fun e => hhead ((h.head_eq_null hp).2 e))

/-- The map knows an order by its id. -/
theorem eq_of_id (h : b.Linked Q F) {k' : Bool × Nat} {j : Nat} (hi : i ∈ Q k) (hj : j ∈ Q k')
    (hid : (b.order i).id = (b.order j).id) : i = j := by
  rw [← (h.mapped k i hi).2, ← (h.mapped k' j hj).2, hid]

theorem place_eq (h : b.Linked Q F) (hi : i ∈ Q (isBuy, price)) :
    (b.order i).isBuy = isBuy ∧ (b.order i).price = price := Prod.mk.inj (h.place _ i hi)

/-- What follows an order in its queue. -/
theorem fits_next (h : b.Linked Q F) (hi : i ∈ Q k) : b.Fits (b.order i).next := by
  obtain ⟨l₁, l₂, hk⟩ := List.append_of_mem hi
  have hp := h.threads.queue k
  rw [hk] at hp
  obtain ⟨_, _, _, hp₂⟩ := path_append.1 hp
  cases l₂ with
  | nil => exact Or.inl hp₂
  | cons c l₂ =>
    have hc : c ∈ Q k := by rw [hk]; simp
    have hnext : (b.order i).next = c := hp₂.1
    exact Or.inr (hnext ▸ h.bound k c hc)

theorem queue_eq (h : b.Linked Q F) (hp : price < MAX_PRICES) : b.queue isBuy price = Q (isBuy, price) :=
  (h.meets (k := (isBuy, price)) hp).queue_eq (h.bound _)

theorem resting_iff (h : b.Linked Q F) : b.Resting id ↔ ∃ k, ∃ i ∈ Q k, (b.order i).id = id := by
  constructor
  · rintro ⟨isBuy, price, hp, i, hi, hid⟩
    rw [h.queue_eq hp] at hi
    exact ⟨(isBuy, price), i, hi, hid⟩
  · rintro ⟨k, i, hi, hid⟩
    have hp := h.price_lt k i hi
    exact ⟨k.1, k.2, hp, i, by rwa [h.queue_eq hp], hid⟩

theorem fresh (h : b.Linked Q F) (hrest : ¬ b.Resting id) : ∀ k, ∀ i ∈ Q k, (b.order i).id ≠ id :=
  fun k i hi hid => hrest (h.resting_iff.2 ⟨k, i, hi, hid⟩)

/-- An id whose slot holds another order does not rest. -/
theorem not_resting (h : b.Linked Q F) (hid : (b.order (b.slot id)).id ≠ id) : ¬ b.Resting id := by
  intro hrest
  obtain ⟨k, i, hi, rfl⟩ := h.resting_iff.1 hrest
  rw [(h.mapped k i hi).2] at hid
  exact hid rfl

/-! ### The empty book -/

private theorem path_range' {next : Nat → Nat} {e m s : Nat} (hnext : ∀ i, s ≤ i → i + 1 < s + m → next i = i + 1)
    (hend : ∀ i, i + 1 = s + m → next i = e) (hm : m = 0 → s = e) : Path next s (List.range' s m) e := by
  induction m generalizing s with
  | zero => exact hm rfl
  | succ m ih =>
    refine ⟨rfl, ?_⟩
    rcases Nat.eq_zero_or_pos m with rfl | hpos
    · exact hend s rfl
    · rw [hnext s (Nat.le_refl s) (by omega)]
      exact ih (fun i h₁ h₂ => hnext i (by omega) (by omega)) (fun i h => hend i (by omega)) (by omega)

/-- After `init` all slots up to the first one that the links cannot name are free, and nothing rests. -/
theorem init {n : Nat} (h : b.Initialised n b') : b'.Linked (fun _ => []) (List.range' 0 (min n NULL_IDX)) := by
  have hpos : NULL_IDX = 4294967295 := rfl
  have hn := h.pos
  refine ⟨⟨fun k => ?_, ?_, fun k a ha => ?_, fun k => List.not_mem_nil, fun hm => ?_, fun k k' i hi => ?_,
    fun k i _ => List.not_mem_nil⟩, fun k i hi => ?_, fun i hi => ?_, fun k i hi => ?_, fun k i hi => ?_⟩
  · show b'.front k = NULL_IDX
    unfold front
    rw [h.level]
    exact ite_self _
  · rw [h.free]
    refine path_range' (fun i _ hi => ?_) (fun i hi => ?_) (by omega)
    · rw [h.next i (by omega), if_neg (by omega), u32]
      omega
    · rw [h.next i (by omega), u32]
      split <;> omega
  · cases ha
  · rw [List.mem_range'_1] at hm
    omega
  · cases hi
  · cases hi
  · rw [List.mem_range'_1] at hi
    rw [h.size]
    omega
  · cases hi
  · cases hi

/-! ### Filling the first order of a level -/

/-- The first order is filled: its slot is free. -/
theorem popped (h : b.Linked Q F) (hk : Q (isBuy, price) = i :: l) :
    (b.popped isBuy price).Linked (Function.update Q (isBuy, price) l) (i :: F) := by
  obtain ⟨hhead, hnull, hlt, hp, hid, hslot⟩ := h.of_cons hk
  have hi : i ∈ Q (isBuy, price) := hk ▸ List.mem_cons_self
  have hmem : ∀ k j, j ∈ Function.update Q (isBuy, price) l k → j ∈ Q k ∧ j ≠ i :=
    fun k j hj => h.threads.mem_of_pop hk hj
  have horder : ∀ j, j ≠ i → (b.popped isBuy price).order j = b.order j := fun j => order_popped hhead
  have hheads : ∀ s p, ((b.popped isBuy price).level s p).head =
      if s = isBuy ∧ p = price then (b.order i).next else (b.level s p).head := by
    intro s p
    by_cases e : s = isBuy ∧ p = price <;> simp [Ladder.popped, hhead, e]
  refine ⟨?_, fun k j hj => h.bound k j (hmem k j hj).1, fun j hj => ?_, fun k j hj => ?_, fun k j hj => ?_⟩
  · rw [show (b.popped isBuy price).nextFreeOrderIdx = i from hhead]
    refine h.threads.pop hk (fun j => ?_) (front_update hp hheads) fun k => ?_
    · by_cases hj : j = i
      · simp [Ladder.popped, hhead, hj]
      · rw [horder j hj, if_neg hj]
    · by_cases e : k = (isBuy, price)
      · simp [Ladder.popped, hhead, e]
      · simp [Ladder.popped, key_eq, e]
  · rcases List.mem_cons.1 hj with rfl | hj
    · exact hlt
    · exact h.free_bound j hj
  · rw [horder j (hmem k j hj).2]
    exact h.place k j (hmem k j hj).1
  · obtain ⟨hjQ, hji⟩ := hmem k j hj
    obtain ⟨hid', hslot'⟩ := h.mapped k j hjQ
    rw [horder j hji]
    have hne : (b.order j).id ≠ (b.order i).id := fun e => hji (h.eq_of_id hjQ hi e)
    exact ⟨hid', by rw [slot_popped hhead, if_neg hne, hslot']⟩

/-- The quantity of an order is written. -/
theorem withQty (h : b.Linked Q F) (i qty : Nat) : (b.withOrder i { b.order i with qty := qty }).Linked Q F := by
  have horder : ∀ j, (b.withOrder i { b.order i with qty := qty }).order j =
      { b.order j with qty := ((b.withOrder i { b.order i with qty := qty }).order j).qty } := by
    intro j
    by_cases hj : j = i <;> simp [hj]
  refine ⟨?_, h.bound, h.free_bound, fun k j hj => ?_, fun k j hj => ?_⟩
  · have hfront : (b.withOrder i { b.order i with qty := qty }).front = b.front := front_congr fun _ _ => rfl
    rw [hfront]
    refine h.threads.congr (fun k j _ => ?_) fun j _ => ?_
    · rw [horder]
    · rw [horder]
  · rw [horder]
    exact h.place k j hj
  · rw [horder]
    exact h.mapped k j hj

/-- The first order is filled in part. -/
theorem reduced (h : b.Linked Q F) : (b.reduced isBuy price qty).Linked Q F := h.withQty _ _

/-! ### An order outside the queues -/

/-- The data of a slot that is neither free nor in a queue does not matter. -/
theorem eqExcept (h : b.Linked Q F) (hQ : ∀ k, i ∉ Q k) (hF : i ∉ F) (he : EqExcept i b b') : b'.Linked Q F := by
  have horder : ∀ k j, j ∈ Q k → b'.order j = b.order j := fun k j hj => he.order j fun e => hQ k (e ▸ hj)
  have hlevel := he.level
  refine ⟨?_, fun k j hj => he.size ▸ h.bound k j hj, fun j hj => he.size ▸ h.free_bound j hj,
    fun k j hj => horder k j hj ▸ h.place k j hj, fun k j hj => ?_⟩
  · have hfront : b'.front = b.front := front_congr fun s p => by rw [hlevel]
    rw [hfront, he.free]
    simp only [hlevel]
    exact h.threads.congr (fun k j hj => by rw [horder k j hj]) fun j hj => by rw [he.order j fun e => hF (e ▸ hj)]
  · rw [horder k j hj, he.slot, he.idMap]
    exact h.mapped k j hj

/-- The first free slot is taken by a new order, whose id no order in a queue has. -/
theorem taken (h : b.Linked Q (i :: F)) (hid : ∀ k, ∀ j ∈ Q k, (b.order j).id ≠ id) (price qty : Nat) (isBuy : Bool) :
    b.nextFreeOrderIdx = i ∧ i ≠ NULL_IDX ∧ (∀ k, i ∉ Q k) ∧ i ∉ F ∧ (b.taken id price qty isBuy).Linked Q F := by
  obtain ⟨hfree, hnull, hQ, hF, hthreads⟩ := h.threads.take
  refine ⟨hfree, hnull, hQ, hF, ?_⟩
  have horder : ∀ j, j ≠ i → (b.taken id price qty isBuy).order j = b.order j := by
    intro j hj
    rw [order_taken hfree, if_neg hj]
  have horder' : ∀ k j, j ∈ Q k → (b.taken id price qty isBuy).order j = b.order j :=
    fun k j hj => horder j fun e => hQ k (e ▸ hj)
  refine ⟨?_, h.bound, fun j hj => h.free_bound j (List.mem_cons_of_mem _ hj),
    fun k j hj => horder' k j hj ▸ h.place k j hj, fun k j hj => ?_⟩
  · have hfront : (b.taken id price qty isBuy).front = b.front := front_congr fun _ _ => rfl
    rw [hfront, show (b.taken id price qty isBuy).nextFreeOrderIdx = (b.order i).next by
      simp only [Ladder.taken, free_withSlot, free_withOrder, free_withFree, hfree]]
    exact hthreads.congr (fun k j hj => by rw [horder' k j hj]) fun j hj => by rw [horder j fun e => hF (e ▸ hj)]
  · rw [horder' k j hj]
    obtain ⟨hlt, hslot⟩ := h.mapped k j hj
    exact ⟨hlt, by rw [slot_taken hfree, if_neg (hid k j hj), hslot]⟩

/-- An order leaves its queue. -/
theorem unlinked (h : b.Linked Q F) (hk : Q (isBuy, price) = l₁ ++ i :: l₂) (hd : b.Detachable i l₁)
    (hu : b.Unlinked isBuy price i b') :
    (∀ k, i ∉ Function.update Q (isBuy, price) (l₁ ++ l₂) k) ∧ i ∉ F ∧
      b'.Linked (Function.update Q (isBuy, price) (l₁ ++ l₂)) F := by
  have hi : i ∈ Q (isBuy, price) := by rw [hk]; simp
  have hp : price < MAX_PRICES := h.price_lt _ i hi
  have hmem : ∀ k j, j ∈ Function.update Q (isBuy, price) (l₁ ++ l₂) k → j ∈ Q k ∧ j ≠ i :=
    fun k j hj => h.threads.mem_of_unlink hk hj
  refine ⟨fun k hmem' => (hmem k i hmem').2 rfl, fun hF => h.threads.free_apart _ i hF hi, ?_⟩
  refine ⟨?_, fun k j hj => hu.size ▸ h.bound k j (hmem k j hj).1, fun j hj => hu.size ▸ h.free_bound j hj,
    fun k j hj => ?_, fun k j hj => ?_⟩
  · have hheads : ∀ s p, (b'.level s p).head = if s = isBuy ∧ p = price then
        if (b.level isBuy price).head = i then (b.order i).next else (b.level isBuy price).head
        else (b.level s p).head := by
      intro s p
      rw [hu.level]
      split <;> rfl
    rw [hu.free]
    refine h.threads.unlink hk hd.pred hd.first (fun j => ?_) (fun k => ?_) fun k => ?_
    · rw [hu.order]
    · rw [front_update hp hheads, front_of_lt hp]
    · simp only [hu.level, key_eq]
      split <;> rfl
  · rw [hu.order]
    exact h.place k j (hmem k j hj).1
  · rw [hu.order, hu.idMap, hu.slot]
    exact h.mapped k j (hmem k j hj).1

/-- The slot of an order outside the queues becomes free. -/
theorem freed (h : b.Linked Q F) (hnull : i ≠ NULL_IDX) (hlt : i < b.orders.size) (hQ : ∀ k, i ∉ Q k) (hF : i ∉ F)
    (hslot : b.slot id = i) : (FastOrderBook.freed b id i).Linked Q (i :: F) := by
  have horder : ∀ j, j ≠ i → (FastOrderBook.freed b id i).order j = b.order j := fun j => order_freed
  have horder' : ∀ k j, j ∈ Q k → (FastOrderBook.freed b id i).order j = b.order j :=
    fun k j hj => horder j fun e => hQ k (e ▸ hj)
  refine ⟨?_, h.bound, fun j hj => ?_, fun k j hj => horder' k j hj ▸ h.place k j hj, fun k j hj => ?_⟩
  · have hfront : (FastOrderBook.freed b id i).front = b.front := front_congr fun _ _ => rfl
    rw [hfront, show (FastOrderBook.freed b id i).nextFreeOrderIdx = i from rfl]
    exact h.threads.release hnull hQ hF (fun j hj => by rw [horder j hj]) (by rw [order_freed_self])
  · rcases List.mem_cons.1 hj with rfl | hj
    · exact hlt
    · exact h.free_bound j hj
  · rw [horder' k j hj]
    obtain ⟨hlt', hslot'⟩ := h.mapped k j hj
    have hne : (b.order j).id ≠ id := fun e => hQ k (by rw [← hslot, ← e, hslot']; exact hj)
    exact ⟨hlt', by rw [slot_freed, if_neg hne, hslot']⟩

/-- An order outside the queues becomes the last one of a level. -/
theorem appended (h : b.Linked Q F) (hnull : i ≠ NULL_IDX) (hlt : i < b.orders.size) (hQ : ∀ k, i ∉ Q k) (hF : i ∉ F)
    (hp : price < MAX_PRICES) (ha : b.Appended isBuy price i b₁) (he : EqExcept i b₁ b')
    (hnext : (b'.order i).next = NULL_IDX) (hplace : ((b'.order i).isBuy, (b'.order i).price) = (isBuy, price))
    (hid : (b'.order i).id < b'.idMap.size) (hslot : b'.slot (b'.order i).id = i) :
    b'.Linked (Function.update Q (isBuy, price) (Q (isBuy, price) ++ [i])) F := by
  have hmem : ∀ k j, j ∈ Function.update Q (isBuy, price) (Q (isBuy, price) ++ [i]) k →
      j ∈ Q k ∧ j ≠ i ∨ j = i ∧ k = (isBuy, price) := fun k j hj => mem_of_append hQ hj
  have horder : ∀ j, j ≠ i → b'.order j = b₁.order j := he.order
  have hlevel : ∀ s p, b'.level s p = b₁.level s p := he.level
  have hsize : b'.orders.size = b.orders.size := he.size.trans ha.size
  refine ⟨?_, fun k j hj => ?_, fun j hj => hsize ▸ h.free_bound j hj, fun k j hj => ?_, fun k j hj => ?_⟩
  · have hheads : ∀ s p, (b'.level s p).head = if s = isBuy ∧ p = price then
        if (b.level isBuy price).head = NULL_IDX then i else (b.level isBuy price).head
        else (b.level s p).head := by
      intro s p
      rw [hlevel, ha.level]
      split <;> rfl
    rw [he.free, ha.free]
    refine h.threads.append hnull hQ hF (fun j hj => ?_) hnext (fun k => ?_) fun k => ?_
    · rw [horder j hj, ha.order, front_of_lt hp]
    · rw [front_update hp hheads, front_of_lt hp]
    · simp only [hlevel, ha.level, key_eq]
      split <;> rfl
  · rw [hsize]
    rcases hmem k j hj with ⟨hj, _⟩ | ⟨rfl, _⟩
    · exact h.bound k j hj
    · exact hlt
  · rcases hmem k j hj with ⟨hj, hji⟩ | ⟨rfl, rfl⟩
    · rw [horder j hji, ha.order]
      exact h.place k j hj
    · exact hplace
  · rcases hmem k j hj with ⟨hj, hji⟩ | ⟨rfl, rfl⟩
    · rw [horder j hji, ha.order, he.slot, he.idMap, ha.idMap, ha.slot]
      exact h.mapped k j hj
    · exact ⟨hid, hslot⟩

end Linked

end Ladder

end Lobook
