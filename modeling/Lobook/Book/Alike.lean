import Lobook.Lib.Related
import Lobook.Book.Linked

/-!
# Books that differ where nobody looks

The operations reach a slot only through the heads of the levels, the front of the free list, the map, and the `next`
fields of slots they have reached.  `Near S` relates two books that have the same levels, map and free list, and agree
on the slots in `S`, which all these lead into: in everything if the map leads there, in the fields that `match` reads
if only the links do.  Every operation does the same to both, whether it returns or not, and however the links are
tangled.
-/

namespace Lobook

open Checked Links

namespace Ladder

/-- Null, or a slot in `S`. -/
def Within (S : Set Nat) (i : Nat) : Prop := i ≠ NULL_IDX → i ∈ S

/-- The orders agree in what is read of an order of a level or of a free slot. -/
structure SameKeys (o o' : Order) : Prop where
  id : o'.id = o.id
  qty : o'.qty = o.qty
  next : o'.next = o.next

/-- The books agree on the slots in `S`, to which the levels, the free list and the links of these slots lead, and
completely on those in `O`, to which the map leads. -/
structure Alike (S O : Set Nat) (b b' : Ladder) : Prop where
  size : b'.orders.size = b.orders.size
  idMap : b'.idMap = b.idMap
  levels : b'.levels = b.levels
  free : b'.nextFreeOrderIdx = b.nextFreeOrderIdx
  keys : ∀ i ∈ S, SameKeys (b.order i) (b'.order i)
  same : ∀ i ∈ O, b'.order i = b.order i
  next_mem : ∀ i ∈ S, Within S (b.order i).next
  head_mem : ∀ s p, Within S (b.level s p).head
  free_mem : Within S b.nextFreeOrderIdx
  slot_mem : ∀ id, id < b.idMap.size → Within O (b.slot id)
  sub : O ⊆ S

/-- The books agree on the slots in `S`, as far as they can be reached. -/
def Near (S : Set Nat) (b b' : Ladder) : Prop := ∃ O, Alike S O b b'

variable {S O : Set Nat} {b b' : Ladder} {s : Bool} {p i id price qty : Nat} {f : Order → Order}

theorem Within.mono (h : Within O i) (hsub : O ⊆ S) : Within S i := fun hi => hsub (h hi)

theorem within_null : Within S NULL_IDX := fun h => absurd rfl h

theorem SameKeys.refl (o : Order) : SameKeys o o := ⟨rfl, rfl, rfl⟩

theorem SameKeys.symm {o o' : Order} (h : SameKeys o o') : SameKeys o' o := ⟨h.id.symm, h.qty.symm, h.next.symm⟩

/-! ### Reading -/

/-- What one meets from a slot in `S` is in `S`, and the same in both books. -/
theorem walk_within {next next' : Nat → Nat} (hnext : ∀ i ∈ S, next' i = next i ∧ Within S (next i)) (fuel : Nat)
    (hi : Within S i) : walk NULL_IDX next' fuel i = walk NULL_IDX next fuel i ∧
      ∀ j ∈ walk NULL_IDX next fuel i, j ∈ S := by
  induction fuel generalizing i with
  | zero => exact ⟨rfl, List.forall_mem_nil _⟩
  | succ fuel ih =>
    by_cases hnull : i = NULL_IDX
    · simp only [walk, if_pos hnull]
      exact ⟨trivial, List.forall_mem_nil _⟩
    · obtain ⟨e, hmem⟩ := ih (hnext i (hi hnull)).2
      simp only [walk, if_neg hnull, (hnext i (hi hnull)).1, e]
      exact ⟨trivial, List.forall_mem_cons.2 ⟨hi hnull, hmem⟩⟩

/-- An id does not rest if no order in `S` has it, and the levels lead into `S`. -/
theorem not_resting_of_within (hhead : ∀ s p, Within S (b.level s p).head)
    (hnext : ∀ i ∈ S, Within S (b.order i).next) (hid : ∀ i ∈ S, (b.order i).id ≠ id) : ¬ b.Resting id := by
  rintro ⟨s, p, _, i, hi, e⟩
  have hwalk : ∀ i ∈ S, (b.order i).next = (b.order i).next ∧ Within S (b.order i).next := fun i hi =>
    ⟨rfl, hnext i hi⟩
  have hmem := (walk_within hwalk b.orders.size (hhead s p)).2
  exact hid i (hmem i hi) e

/-- The same ids rest if the levels are the same and lead into a set of slots with the same ids and links. -/
theorem resting_congr (hsize : b'.orders.size = b.orders.size) (hlevel : ∀ s p, b'.level s p = b.level s p)
    (hkeys : ∀ i ∈ S, SameKeys (b.order i) (b'.order i) ∧ Within S (b.order i).next)
    (hhead : ∀ s p, Within S (b.level s p).head) (id : Nat) : b'.Resting id ↔ b.Resting id := by
  have hwalk : ∀ s p, b'.queue s p = b.queue s p ∧ ∀ i ∈ b.queue s p, i ∈ S := by
    intro s p
    unfold queue
    rw [hlevel, hsize]
    exact walk_within (fun i hi => ⟨(hkeys i hi).1.next, (hkeys i hi).2⟩) _ (hhead s p)
  constructor
  · rintro ⟨s, p, hp, i, hi, e⟩
    rw [(hwalk s p).1] at hi
    exact ⟨s, p, hp, i, hi, (hkeys i ((hwalk s p).2 i hi)).1.id ▸ e⟩
  · rintro ⟨s, p, hp, i, hi, e⟩
    have hid := (hkeys i ((hwalk s p).2 i hi)).1.id
    rw [← (hwalk s p).1] at hi
    exact ⟨s, p, hp, i, hi, hid.trans e⟩

/-- The quantities are the same if the map is, and the slots it leads to have the same quantities. -/
theorem getQuantity_congr (hsize : b'.orders.size = b.orders.size) (hmap : b'.idMap = b.idMap)
    (hqty : ∀ id, id < b.idMap.size → b.slot id ≠ NULL_IDX →
      (b'.order (b.slot id)).qty = (b.order (b.slot id)).qty) (id : Nat) : b'.getQuantity id = b.getQuantity id := by
  unfold getQuantity getSlot
  rw [hmap]
  split
  · rfl
  · rename_i hid
    have hid := Nat.lt_of_not_le hid
    rw [show b.idMap.get id = .ok (b.slot id) from getSlot_of_lt hid, ok_bind, ok_bind]
    split
    · rfl
    · rename_i hnull
      by_cases hlt : b.slot id < b.orders.size
      · rw [getOrder_of_lt hlt, getOrder_of_lt (hsize.symm ▸ hlt), ok_bind, ok_bind, hqty id hid hnull]
      · simp only [getOrder, Vec.get, if_neg hlt, hsize]

namespace Alike

theorem symm (h : Alike S O b b') : Alike S O b' b where
  size := h.size.symm
  idMap := h.idMap.symm
  levels := h.levels.symm
  free := h.free.symm
  keys i hi := (h.keys i hi).symm
  same i hi := (h.same i hi).symm
  next_mem i hi := by
    rw [(h.keys i hi).next]
    exact h.next_mem i hi
  head_mem s p := by
    rw [Ladder.level, h.levels]
    exact h.head_mem s p
  free_mem := by
    rw [h.free]
    exact h.free_mem
  slot_mem id hid := by
    rw [Ladder.slot, h.idMap]
    exact h.slot_mem id (by rwa [h.idMap] at hid)
  sub := h.sub

theorem level (h : Alike S O b b') (s : Bool) (p : Nat) : b'.level s p = b.level s p := by
  simp only [Ladder.level, h.levels]

theorem getLevel (h : Alike S O b b') (s : Bool) (p : Nat) : b'.getLevel s p = b.getLevel s p := by
  simp only [Ladder.getLevel, h.levels]

theorem getSlot (h : Alike S O b b') (id : Nat) : b'.getSlot id = b.getSlot id := by
  simp only [Ladder.getSlot, h.idMap]

theorem resting_iff (h : Alike S O b b') (id : Nat) : b'.Resting id ↔ b.Resting id :=
  resting_congr h.size h.level (fun i hi => ⟨h.keys i hi, h.next_mem i hi⟩) h.head_mem id

theorem getQuantity (h : Alike S O b b') (id : Nat) : b'.getQuantity id = b.getQuantity id :=
  getQuantity_congr h.size h.idMap (fun id hid hnull => congrArg Order.qty (h.same _ (h.slot_mem id hid hnull))) id

/-! ### Writing -/

theorem withOrder (h : Alike S O b b') {o o' : Order} (hkeys : i ∈ S → SameKeys o o' ∧ Within S o.next)
    (hsame : i ∈ O → o' = o) : Alike S O (b.withOrder i o) (b'.withOrder i o') where
  size := h.size
  idMap := h.idMap
  levels := h.levels
  free := h.free
  keys j hj := by
    rw [order_withOrder, order_withOrder]
    by_cases e : j = i
    · rw [if_pos e, if_pos e]
      exact (hkeys (e ▸ hj)).1
    · rw [if_neg e, if_neg e]
      exact h.keys j hj
  same j hj := by
    rw [order_withOrder, order_withOrder]
    by_cases e : j = i
    · rw [if_pos e, if_pos e]
      exact hsame (e ▸ hj)
    · rw [if_neg e, if_neg e]
      exact h.same j hj
  next_mem j hj := by
    rw [order_withOrder]
    by_cases e : j = i
    · rw [if_pos e]
      exact (hkeys (e ▸ hj)).2
    · rw [if_neg e]
      exact h.next_mem j hj
  head_mem := h.head_mem
  free_mem := h.free_mem
  slot_mem := h.slot_mem
  sub := h.sub

theorem withLevel (h : Alike S O b b') {l : PriceLevel} (hl : Within S l.head) :
    Alike S O (b.withLevel s p l) (b'.withLevel s p l) where
  size := h.size
  idMap := h.idMap
  levels := by simp only [Ladder.withLevel, h.levels]
  free := h.free
  keys := h.keys
  same := h.same
  next_mem := h.next_mem
  head_mem s' p' := by
    rw [level_withLevel]
    split
    · exact hl
    · exact h.head_mem s' p'
  free_mem := h.free_mem
  slot_mem := h.slot_mem
  sub := h.sub

theorem withSlot (h : Alike S O b b') (hi : Within O i) : Alike S O (b.withSlot id i) (b'.withSlot id i) where
  size := h.size
  idMap := by simp only [Ladder.withSlot, h.idMap]
  levels := h.levels
  free := h.free
  keys := h.keys
  same := h.same
  next_mem := h.next_mem
  head_mem := h.head_mem
  free_mem := h.free_mem
  slot_mem id' hid' := by
    rw [slot_withSlot]
    split
    · exact hi
    · exact h.slot_mem id' hid'
  sub := h.sub

theorem withFree (h : Alike S O b b') (hi : Within S i) : Alike S O (b.withFree i) (b'.withFree i) where
  size := h.size
  idMap := h.idMap
  levels := h.levels
  free := rfl
  keys := h.keys
  same := h.same
  next_mem := h.next_mem
  head_mem := h.head_mem
  free_mem := hi
  slot_mem := h.slot_mem
  sub := h.sub

/-- A slot on whose order the books agree. -/
theorem insert (h : Alike S O b b') (hi : i ∈ S) (hsame : b'.order i = b.order i) : Alike S (insert i O) b b' :=
  { h with
    same := by
      rintro j (rfl | hj)
      · exact hsame
      · exact h.same j hj
    slot_mem := fun id hid => (h.slot_mem id hid).mono (Set.subset_insert i O)
    sub := Set.insert_subset hi h.sub }

end Alike

/-- The function keeps what agrees, and leads to nothing outside `S`. -/
def Mild (S : Set Nat) (f : Order → Order) : Prop :=
  ∀ o o', SameKeys o o' → SameKeys (f o) (f o') ∧ (Within S o.next → Within S (f o).next)

theorem mild_qty (g : Nat → Nat) : Mild S fun o => { o with qty := g o.qty } :=
  fun _ _ h => ⟨⟨h.id, congrArg g h.qty, h.next⟩, fun hn => hn⟩

theorem mild_prev (k : Nat) : Mild S fun o => { o with prev := k } := fun _ _ h => ⟨⟨h.id, h.qty, h.next⟩, fun hn => hn⟩

theorem mild_next {k : Nat} (hk : Within S k) : Mild S fun o => { o with next := k } :=
  fun _ _ h => ⟨⟨h.id, h.qty, rfl⟩, fun _ => hk⟩

namespace Alike

theorem getOrder (h : Alike S O b b') (i : Nat) :
    Both (fun o o' => o = b.order i ∧ o' = b'.order i) (b.getOrder i) (b'.getOrder i) := by
  by_cases hi : i < b.orders.size
  · rw [getOrder_of_lt hi, getOrder_of_lt (h.size.symm ▸ hi)]
    exact ⟨rfl, rfl⟩
  · simp only [Ladder.getOrder, Vec.get, h.size, if_neg hi, both_error]

theorem modifyOrder (h : Alike S O b b') (hf : Mild S f) (i : Nat) :
    Both (Alike S O) (b.modifyOrder i f) (b'.modifyOrder i f) := by
  by_cases hi : i < b.orders.size
  · rw [modifyOrder_of_lt hi, modifyOrder_of_lt (h.size.symm ▸ hi)]
    refine h.withOrder (fun hmem => ?_) fun hmem => congrArg f (h.same i hmem)
    exact ⟨(hf _ _ (h.keys i hmem)).1, (hf _ _ (h.keys i hmem)).2 (h.next_mem i hmem)⟩
  · simp only [Ladder.modifyOrder, Vec.modify, h.size, if_neg hi, error_bind, both_error]

theorem setLevel (h : Alike S O b b') {l : PriceLevel} (hl : Within S l.head) (s : Bool) (p : Nat) :
    Both (Alike S O) (b.setLevel s p l) (b'.setLevel s p l) := by
  by_cases hp : p < MAX_PRICES
  · rw [setLevel_of_lt hp, setLevel_of_lt hp]
    exact h.withLevel hl
  · simp only [Ladder.setLevel, Table.set, if_neg hp, error_bind, both_error]

theorem setSlot (h : Alike S O b b') (hi : Within O i) (id : Nat) :
    Both (Alike S O) (b.setSlot id i) (b'.setSlot id i) := by
  by_cases hid : id < b.idMap.size
  · rw [setSlot_of_lt hid, setSlot_of_lt (h.idMap.symm ▸ hid)]
    exact h.withSlot hi
  · simp only [Ladder.setSlot, Vec.set, h.idMap, if_neg hid, error_bind, both_error]

/-! ### Blocks -/

theorem release (h : Alike S O b b') (hi : i ∈ S) : Both (Alike S O) (b.release i) (b'.release i) := by
  unfold Ladder.release
  rw [h.free]
  exact (h.modifyOrder (mild_next h.free_mem) i).bind fun _ _ h₁ => h₁.withFree fun _ => hi

theorem patch (h : Alike S O b b') (hf : Mild S f) (i : Nat) : Both (Alike S O) (b.patch i f) (b'.patch i f) := by
  unfold Ladder.patch
  split
  · exact h.modifyOrder hf i
  · exact h

theorem unlink (h : Alike S O b b') (hi : i ∈ O) (s : Bool) (p : Nat) :
    Both (Alike S O) (b.unlink s p i) (b'.unlink s p i) := by
  unfold Ladder.unlink
  refine (h.getOrder i).bind ?_
  rintro _ _ ⟨rfl, rfl⟩
  rw [h.same i hi, h.getLevel]
  have hnext := h.next_mem i (h.sub hi)
  refine Both.same _ fun l hl => ?_
  obtain ⟨_, rfl⟩ := getLevel_eq_ok.1 hl
  refine (h.setLevel ?_ s p).bind fun b₁ b₁' h₁ => ?_
  · split
    · exact hnext
    · exact h.head_mem s p
  · exact (h₁.patch (mild_next hnext) _).bind fun b₂ b₂' h₂ => h₂.patch (mild_prev _) _

theorem linkTail (h : Alike S O b b') (hi : i ∈ S) (s : Bool) (p : Nat) :
    Both (Alike S O) (b.linkTail s p i) (b'.linkTail s p i) := by
  unfold Ladder.linkTail
  rw [h.getLevel]
  refine Both.same _ fun l hl => ?_
  obtain ⟨_, rfl⟩ := getLevel_eq_ok.1 hl
  refine (h.modifyOrder (mild_prev _) i).bind fun b₁ b₁' h₁ => ?_
  refine (h₁.modifyOrder (mild_next fun _ => hi) _).bind fun b₂ b₂' h₂ => ?_
  exact h₂.setLevel (l := ⟨(b.level s p).head, i⟩) (h.head_mem s p) s p

theorem takeSlot (h : Alike S O b b') (hnull : b.nextFreeOrderIdx ≠ NULL_IDX) (id price qty : Nat) (s : Bool) :
    Both (Alike S (Insert.insert b.nextFreeOrderIdx O)) (b.takeSlot id price qty s) (b'.takeSlot id price qty s) := by
  have hmem := h.free_mem hnull
  unfold Ladder.takeSlot
  rw [h.free]
  refine (h.getOrder b.nextFreeOrderIdx).bind ?_
  rintro _ _ ⟨rfl, rfl⟩
  rw [(h.keys _ hmem).next]
  have h₁ := h.withFree (h.next_mem _ hmem)
  by_cases hlt : b.nextFreeOrderIdx < b.orders.size
  · have hlt' : b.nextFreeOrderIdx < b'.orders.size := h.size.symm ▸ hlt
    rw [modifyOrder_of_lt (by exact hlt), modifyOrder_of_lt (by exact hlt')]
    refine Alike.setSlot (Alike.insert ?_ hmem ?_) (fun _ => Set.mem_insert _ _) id
    · exact h₁.withOrder (fun _ => ⟨SameKeys.refl _, within_null⟩) fun _ => rfl
    · rw [order_withOrder, order_withOrder, if_pos rfl, if_pos rfl]
  · have hfail : ∀ b₁ : Ladder, b₁.orders.size = b.orders.size → ∀ k f,
        (b₁.withFree k).modifyOrder b.nextFreeOrderIdx f = .error .outOfRange := by
      intro b₁ hsize k f
      simp only [Ladder.modifyOrder, Vec.modify, orders_withFree, hsize, if_neg hlt, error_bind]
    rw [hfail b rfl, hfail b' h.size, error_bind, both_error]

/-- A round of the inner loop does the same to both books. -/
theorem fillRound (h : Alike S O b b') (s : Bool) (p qty : Nat) :
    Both (Flow.Both (fun r r' => Alike S O r.1 r'.1 ∧ r.2 = r'.2) fun r r' => Alike S O r.1 r'.1 ∧ r.2 = r'.2)
      (Ladder.fillRound s p (b, qty)) (Ladder.fillRound s p (b', qty)) := by
  simp only [Ladder.fillRound]
  rw [h.getLevel]
  refine Both.same _ fun l hl => ?_
  obtain ⟨_, rfl⟩ := getLevel_eq_ok.1 hl
  split
  · rename_i hcond
    have hmem := h.head_mem s p hcond.1
    refine (h.getOrder _).bind ?_
    rintro _ _ ⟨rfl, rfl⟩
    rw [(h.keys _ hmem).qty, (h.keys _ hmem).id, (h.keys _ hmem).next]
    refine (h.modifyOrder (mild_qty fun q => q - min qty (b.order (b.level s p).head).qty) _).bind fun b₁ b₁' h₁ => ?_
    split
    · refine (h₁.setSlot within_null _).bind fun b₂ b₂' h₂ => ?_
      refine (h₂.setLevel (h.next_mem _ hmem) s p).bind fun b₃ b₃' h₃ => ?_
      exact (h₃.release hmem).bind fun b₄ b₄' h₄ => ⟨h₄, rfl⟩
    · exact ⟨h₁, rfl⟩
  · exact ⟨h, rfl⟩

/-! ### Calls -/

/-- If the two new orders get the same slot, they also get the same place in their level. -/
theorem addOrder_of_takeSlot (hfree : b'.nextFreeOrderIdx = b.nextFreeOrderIdx) (hnull : b.nextFreeOrderIdx ≠ NULL_IDX)
    (hmem : b.nextFreeOrderIdx ∈ S)
    (htake : Both (Alike S O) (b.takeSlot id price qty s) (b'.takeSlot id price qty s)) :
    Both (Near S) (FastOrderBook.addOrder b id price qty s) (FastOrderBook.addOrder b' id price qty s) := by
  unfold FastOrderBook.addOrder
  rw [hfree, if_neg hnull, if_neg hnull]
  refine htake.bind fun b₁ b₁' h₁ => ?_
  split
  · exact ⟨_, h₁⟩
  · rw [h₁.getLevel]
    refine Both.same _ fun l hl => ?_
    split
    · exact (h₁.setLevel (fun _ => hmem) s price).mono fun _ _ h₂ => ⟨_, h₂⟩
    · exact (h₁.linkTail hmem s price).mono fun _ _ h₂ => ⟨_, h₂⟩

theorem addOrder (h : Alike S O b b') (id price qty : Nat) (s : Bool) :
    Both (Near S) (FastOrderBook.addOrder b id price qty s) (FastOrderBook.addOrder b' id price qty s) := by
  by_cases hnull : b.nextFreeOrderIdx = NULL_IDX
  · rw [FastOrderBook.addOrder_full hnull, FastOrderBook.addOrder_full (h.free.trans hnull)]
    exact ⟨O, h⟩
  · exact addOrder_of_takeSlot h.free hnull (h.free_mem hnull) (h.takeSlot hnull id price qty s)

theorem cancelOrder (h : Alike S O b b') (id : Nat) :
    Both (Alike S O) (FastOrderBook.cancelOrder b id) (FastOrderBook.cancelOrder b' id) := by
  unfold FastOrderBook.cancelOrder
  rw [h.idMap, h.getSlot]
  split
  · exact h
  · rename_i hid
    rw [getSlot_of_lt (Nat.lt_of_not_le hid), ok_bind, ok_bind]
    split
    · exact h
    · rename_i hnull
      have hmem := h.slot_mem id (Nat.lt_of_not_le hid) hnull
      refine (h.getOrder _).bind ?_
      rintro _ _ ⟨rfl, rfl⟩
      rw [h.same _ hmem]
      refine (h.unlink hmem _ _).bind fun b₁ b₁' h₁ => ?_
      refine (h₁.modifyOrder (mild_prev _) _).bind fun b₂ b₂' h₂ => ?_
      exact (h₂.release (h.sub hmem)).bind fun b₃ b₃' h₃ => h₃.setSlot within_null id

end Alike

end Ladder

end Lobook
