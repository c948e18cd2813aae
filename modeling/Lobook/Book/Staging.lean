import Lobook.Book.Converse
import Lobook.Book.Leftover
import Lobook.Book.Observation

/-!
# A script for every initialised book

Six calls lead every initialised book of size at least 3 into a state in which slot 0 is its own successor in the asks
at 1, an order with a chosen id has slot 1, and the free list goes on from slot 2 (`script_run`).  They touch two slots
and two levels only, so they are executed on a book of which all else is left open (`stage`).
-/

namespace Lobook

open Checked Links Transition

namespace Ladder

/-- The book `b`, with other orders in slots 0 and 1 and with only two levels, the asks at 1 and 2. -/
def stage (b : Ladder) (o₀ o₁ : Order) (l₁ l₂ : PriceLevel) (entries : Nat → Nat) (free : Nat) : Ladder where
  orders := ⟨b.orders.size, fun i => if i = 0 then o₀ else if i = 1 then o₁ else b.order i⟩
  levels := fun s => ⟨fun p => if s = false ∧ p = 1 then l₁ else if s = false ∧ p = 2 then l₂ else ⟨NULL_IDX, NULL_IDX⟩⟩
  idMap := ⟨b.idMap.size, entries⟩
  nextFreeOrderIdx := free

section Stage

variable (b : Ladder) (o₀ o₁ : Order) (l₁ l₂ l : PriceLevel) (entries : Nat → Nat) (free i id : Nat) (f : Order → Order)

@[simp] theorem stage_free : (stage b o₀ o₁ l₁ l₂ entries free).nextFreeOrderIdx = free := rfl

@[simp] theorem stage_withFree :
    (stage b o₀ o₁ l₁ l₂ entries free).withFree i = stage b o₀ o₁ l₁ l₂ entries i := rfl

@[simp] theorem stage_map_size : (stage b o₀ o₁ l₁ l₂ entries free).idMap.size = b.idMap.size := rfl

@[simp] theorem stage_getLevel_one : (stage b o₀ o₁ l₁ l₂ entries free).getLevel false 1 = .ok l₁ := rfl

@[simp] theorem stage_getLevel_two : (stage b o₀ o₁ l₁ l₂ entries free).getLevel false 2 = .ok l₂ := rfl

theorem stage_level {s : Bool} {p : Nat} (h : ¬ (s = false ∧ (p = 1 ∨ p = 2))) :
    (stage b o₀ o₁ l₁ l₂ entries free).level s p = ⟨NULL_IDX, NULL_IDX⟩ := by
  have h₁ : ¬ (s = false ∧ p = 1) := fun e => h ⟨e.1, Or.inl e.2⟩
  have h₂ : ¬ (s = false ∧ p = 2) := fun e => h ⟨e.1, Or.inr e.2⟩
  exact (if_neg h₁).trans (if_neg h₂)

theorem stage_order {i : Nat} (hi : 2 ≤ i) : (stage b o₀ o₁ l₁ l₂ entries free).order i = b.order i := by
  have h₀ : i ≠ 0 := by omega
  have h₁ : i ≠ 1 := by omega
  exact (if_neg h₀).trans (if_neg h₁)

@[simp] theorem stage_setLevel_one :
    (stage b o₀ o₁ l₁ l₂ entries free).setLevel false 1 l = .ok (stage b o₀ o₁ l l₂ entries free) := by
  rw [setLevel_of_lt (by decide)]
  unfold withLevel stage
  congr 2
  funext s
  cases s with
  | false =>
    rw [Function.update_self]
    congr 1
    funext p
    by_cases hp : p = 1
    · rw [hp, Function.update_self, if_pos ⟨rfl, rfl⟩]
    · simp only [Function.update_of_ne hp, hp, and_false, if_false]
  | true => simp

@[simp] theorem stage_setLevel_two :
    (stage b o₀ o₁ l₁ l₂ entries free).setLevel false 2 l = .ok (stage b o₀ o₁ l₁ l entries free) := by
  rw [setLevel_of_lt (by decide)]
  unfold withLevel stage
  congr 2
  funext s
  cases s with
  | false =>
    rw [Function.update_self]
    congr 1
    funext p
    by_cases hp : p = 2
    · subst hp
      rw [Function.update_self, if_neg (by decide), if_pos ⟨rfl, rfl⟩]
    · simp only [Function.update_of_ne hp, hp, and_false, if_false]
  | true => simp

variable {b id}

theorem stage_getOrder_zero (h : 0 < b.orders.size) : (stage b o₀ o₁ l₁ l₂ entries free).getOrder 0 = .ok o₀ :=
  getOrder_of_lt (b := stage b o₀ o₁ l₁ l₂ entries free) h

theorem stage_getOrder_one (h : 1 < b.orders.size) : (stage b o₀ o₁ l₁ l₂ entries free).getOrder 1 = .ok o₁ :=
  getOrder_of_lt (b := stage b o₀ o₁ l₁ l₂ entries free) h

theorem stage_modifyOrder_zero (h : 0 < b.orders.size) :
    (stage b o₀ o₁ l₁ l₂ entries free).modifyOrder 0 f = .ok (stage b (f o₀) o₁ l₁ l₂ entries free) := by
  rw [modifyOrder_of_lt (b := stage b o₀ o₁ l₁ l₂ entries free) h]
  unfold withOrder stage
  congr 3
  funext i
  by_cases hi : i = 0
  · rw [hi, Function.update_self, if_pos rfl]
    rfl
  · simp only [Function.update_of_ne hi, if_neg hi]

theorem stage_modifyOrder_one (h : 1 < b.orders.size) :
    (stage b o₀ o₁ l₁ l₂ entries free).modifyOrder 1 f = .ok (stage b o₀ (f o₁) l₁ l₂ entries free) := by
  rw [modifyOrder_of_lt (b := stage b o₀ o₁ l₁ l₂ entries free) h]
  unfold withOrder stage
  congr 3
  funext i
  by_cases hi : i = 1
  · rw [hi, Function.update_self, if_neg Nat.one_ne_zero, if_pos rfl]
    rfl
  · simp only [Function.update_of_ne hi, if_neg hi]

theorem stage_getSlot (h : id < b.idMap.size) : (stage b o₀ o₁ l₁ l₂ entries free).getSlot id = .ok (entries id) :=
  getSlot_of_lt (b := stage b o₀ o₁ l₁ l₂ entries free) h

theorem stage_setSlot (h : id < b.idMap.size) : (stage b o₀ o₁ l₁ l₂ entries free).setSlot id i =
    .ok (stage b o₀ o₁ l₁ l₂ (Function.update entries id i) free) :=
  setSlot_of_lt (b := stage b o₀ o₁ l₁ l₂ entries free) h

end Stage

variable {b : Ladder} {e : Nat → Nat} {o₀ o₁ o u : Order} {l l₁ l₂ : PriceLevel} {k id : Nat}

theorem eq_stage (hlevel : ∀ s p, b.level s p = ⟨NULL_IDX, NULL_IDX⟩) :
    b = stage b (b.order 0) (b.order 1) ⟨NULL_IDX, NULL_IDX⟩ ⟨NULL_IDX, NULL_IDX⟩ b.slot b.nextFreeOrderIdx := by
  have horders : b.orders = ⟨b.orders.size, fun i => if i = 0 then b.order 0 else if i = 1 then b.order 1 else b.order i⟩ := by
    refine congrArg (Vec.mk b.orders.size) (funext fun i => ?_)
    split
    · rename_i hi
      rw [hi, Ladder.order]
    · split
      · rename_i hi
        rw [hi, Ladder.order]
      · rfl
  have hlevels : b.levels = fun s => ⟨fun p => if s = false ∧ p = 1 then ⟨NULL_IDX, NULL_IDX⟩ else
      if s = false ∧ p = 2 then ⟨NULL_IDX, NULL_IDX⟩ else ⟨NULL_IDX, NULL_IDX⟩⟩ := by
    refine funext fun s => congrArg Table.mk (funext fun p => ?_)
    rw [ite_self, ite_self]
    exact hlevel s p
  unfold stage
  rw [← horders, ← hlevels]
  rfl

/-- An id does not rest if it is not that of an order in slot 0 or 1 that a level leads to. -/
theorem stage_not_resting {S : Set Nat} (hS : ∀ i ∈ S, i = 0 ∨ i = 1) (h₀ : 0 ∈ S → o₀.id ≠ id ∧ Within S o₀.next)
    (h₁ : 1 ∈ S → o₁.id ≠ id ∧ Within S o₁.next) (hl₁ : Within S l₁.head) (hl₂ : Within S l₂.head) :
    ¬ (stage b o₀ o₁ l₁ l₂ e k).Resting id := by
  refine not_resting_of_within (S := S) (fun s p => ?_) (fun i hi => ?_) fun i hi => ?_
  · by_cases hsp : s = false ∧ (p = 1 ∨ p = 2)
    · obtain ⟨rfl, rfl | rfl⟩ := hsp
      · exact hl₁
      · exact hl₂
    · rw [stage_level b o₀ o₁ l₁ l₂ e k hsp]
      exact within_null
  · rcases hS i hi with rfl | rfl
    · exact (h₀ hi).2
    · exact (h₁ hi).2
  · rcases hS i hi with rfl | rfl
    · exact (h₀ hi).1
    · exact (h₁ hi).1

theorem one_ne_null : (1 : Nat) ≠ NULL_IDX := by decide

/-- The first ask at 1 gets slot 0. -/
theorem stage_first (hb : 0 < b.orders.size) (hid : id < b.idMap.size) :
    FastOrderBook.addOrder (stage b o u ⟨NULL_IDX, NULL_IDX⟩ l e 0) id 1 1 false =
      .ok (stage b ⟨id, 1, 1, false, NULL_IDX, NULL_IDX⟩ u ⟨0, 0⟩ l (Function.update e id 0) o.next) := by
  simp [FastOrderBook.addOrder, takeSlot, stage_getOrder_zero, stage_modifyOrder_zero, stage_setSlot, hb, hid,
    zero_ne_null, show ¬ MAX_PRICES ≤ 1 by decide]

/-- The second one gets slot 1, and slot 0 leads to it. -/
theorem stage_second (hb : 2 < b.orders.size) (hm : 2 < b.idMap.size) :
    FastOrderBook.addOrder (stage b ⟨0, 1, 1, false, NULL_IDX, NULL_IDX⟩ o ⟨0, 0⟩ l e 1) 1 1 1 false =
      .ok (stage b ⟨0, 1, 1, false, 1, NULL_IDX⟩ ⟨1, 1, 1, false, NULL_IDX, 0⟩ ⟨0, 1⟩ l (Function.update e 1 1)
        o.next) := by
  have h₀ : 0 < b.orders.size := by omega
  have h₁ : 1 < b.orders.size := by omega
  have hm₁ : 1 < b.idMap.size := by omega
  simp [FastOrderBook.addOrder, takeSlot, linkTail, stage_getOrder_one, stage_modifyOrder_zero, stage_modifyOrder_one,
    stage_setSlot, h₀, h₁, hm₁, zero_ne_null, one_ne_null, show ¬ MAX_PRICES ≤ 1 by decide]

/-- The first one is filled: the back link of the second one is stale. -/
theorem stage_fill (hb : 2 < b.orders.size) (hid : o.id < b.idMap.size) {t qty : Nat} (hqty : 0 < qty)
    (hle : o.qty ≤ qty) : fillRound false 1 (stage b o u ⟨0, t⟩ l e k, qty) =
      .ok (.again (stage b { o with qty := 0, next := k } u
        ⟨o.next, if o.next = NULL_IDX then NULL_IDX else t⟩ l (Function.update e o.id NULL_IDX) 0, qty - o.qty)) := by
  have h₀ : 0 < b.orders.size := by omega
  simp [fillRound, release, stage_getOrder_zero, stage_modifyOrder_zero, stage_setSlot, h₀, hid, zero_ne_null, hqty,
    Nat.min_eq_right hle]

/-- The next ask at 1 gets slot 0 again, behind slot 1. -/
theorem stage_again (hb : 2 < b.orders.size) (hm : 2 < b.idMap.size) :
    FastOrderBook.addOrder (stage b o ⟨1, 1, 1, false, NULL_IDX, 0⟩ ⟨1, 1⟩ l e 0) 0 1 1 false =
      .ok (stage b ⟨0, 1, 1, false, NULL_IDX, 1⟩ ⟨1, 1, 1, false, 0, 0⟩ ⟨1, 0⟩ l (Function.update e 0 0) o.next) := by
  have h₀ : 0 < b.orders.size := by omega
  have h₁ : 1 < b.orders.size := by omega
  have hm₀ : 0 < b.idMap.size := by omega
  simp [FastOrderBook.addOrder, takeSlot, linkTail, stage_getOrder_zero, stage_modifyOrder_zero, stage_modifyOrder_one,
    stage_setSlot, h₀, h₁, hm₀, zero_ne_null, one_ne_null, show ¬ MAX_PRICES ≤ 1 by decide]

/-- To cancel the order in slot 1 makes slot 0 its own successor. -/
theorem stage_stale (hb : 2 < b.orders.size) (hm : 2 < b.idMap.size) (he : e 1 = 1) :
    FastOrderBook.cancelOrder (stage b ⟨0, 1, 1, false, NULL_IDX, 1⟩ ⟨1, 1, 1, false, 0, 0⟩ ⟨1, 0⟩ l e k) 1 =
      .ok (stage b ⟨0, 1, 1, false, 0, 0⟩ ⟨1, 1, 1, false, k, NULL_IDX⟩ ⟨0, 0⟩ l (Function.update e 1 NULL_IDX) 1) := by
  have h₀ : 0 < b.orders.size := by omega
  have h₁ : 1 < b.orders.size := by omega
  have hm₁ : 1 < b.idMap.size := by omega
  simp [FastOrderBook.cancelOrder, unlink, patch, release, stage_getSlot, stage_getOrder_one, stage_modifyOrder_zero,
    stage_modifyOrder_one, stage_setSlot, he, h₀, h₁, hm₁, zero_ne_null, one_ne_null, Nat.not_le.2 hm₁]

/-- An ask at 2 gets slot 1. -/
theorem stage_other (hb : 2 < b.orders.size) (hid : id < b.idMap.size) :
    FastOrderBook.addOrder (stage b u o l ⟨NULL_IDX, NULL_IDX⟩ e 1) id 2 1 false =
      .ok (stage b u ⟨id, 2, 1, false, NULL_IDX, NULL_IDX⟩ l ⟨1, 1⟩ (Function.update e id 1) o.next) := by
  have h₁ : 1 < b.orders.size := by omega
  simp [FastOrderBook.addOrder, takeSlot, stage_getOrder_one, stage_modifyOrder_one, stage_setSlot, h₁, hid, one_ne_null,
    show ¬ MAX_PRICES ≤ 2 by decide]

end Ladder

namespace FastOrderBook

open Ladder

variable {b b' : FastOrderBook} {id price qty n : Nat} {s : Bool}

/-- An order that meets no order comes to rest. -/
theorem step_rests (hin : FastBitsetOrderBook.Inside (.submit id price qty s)) (hq : 0 < qty)
    (hempty : ∀ p, p < MAX_PRICES → (Ladder.level b (!s) p).head = NULL_IDX)
    (hadd : addOrder b id price qty s = .ok b') : Step b (.submit id price qty s) b' := by
  obtain ⟨e, he, hcross⟩ := crosses_scanned_iff hin.1 hin.2
  have hscan := scan_finishes (b := b) Nat.one_pos hq he (Nat.zero_le e) hcross
    fun j hj => hempty _ (scanned_lt (by omega))
  rw [position_zero] at hscan
  refine ⟨max 1 (1 + (e - 0)), ?_⟩
  have hmatch : matchOrder (max 1 (1 + (e - 0))) b price qty s = .ok (b, qty) := matchOrder_of_loop hscan
  simp only [exec, submitOrder, hmatch, ok_bind, if_pos hq, hadd]

/-- A bid at 1 fills the asks at 1, if there are none at 0. -/
theorem matchOrder_one (hzero : (Ladder.level b false 0).head = NULL_IDX) (hq : 0 < qty) (fuel : Nat) :
    matchOrder (fuel + 3) b 1 qty true = b.fillLevel (fuel + 3) false 1 qty := by
  have hempty : ∀ j, 0 ≤ j → j < 0 + 1 → (Ladder.level b (!true) (scanned true j)).head = NULL_IDX := by
    intro j _ hj
    rw [show j = 0 by omega]
    exact hzero
  have hcross : ∀ j, 0 ≤ j → j < 0 + 1 → Crosses true 1 (scanned true j) := fun j _ hj => show j ≤ 1 by omega
  have hskip := scan_skips (Nat.succ_pos (fuel + 2)) hq (by decide) hempty hcross (fuel + 2)
  have hround : scanRound (fuel + 3) 1 true (position true 1, b, qty) = _ :=
    scanRound_inside (n := 1) (by decide) hq (show 1 ≤ 1 from Nat.le_refl 1)
  refine Eq.trans hskip ?_
  rw [Nat.zero_add, loop, hround]
  cases hfill : b.fillLevel (fuel + 3) (!true) (scanned true 1) qty with
  | error err => exact hfill.symm
  | ok r =>
    refine Eq.trans (loop_done (scanRound_end (Or.inr ⟨by decide, ?_⟩)) fuel) hfill.symm
    show ¬ 2 ≤ 1
    decide

/-! ### The script -/

/-- The queries, and the calls at whose limits the scan stops. -/
def Polite (n : Nat) (b : FastOrderBook) (a : Answer) : Prop :=
  Ladder.Asks b n a ∧ match a with
    | .call c => FastBitsetOrderBook.Inside c
    | .quantity _ _ => True

/-- The calls that tie slot 0 to itself and put an order with the id `x` into slot 1. -/
def script (x : Nat) : List Answer :=
  [.call (.submit 0 1 1 false), .call (.submit 1 1 1 false), .call (.submit 2 1 1 true), .call (.submit 0 1 1 false),
    .call (.cancel 1), .call (.submit x 2 1 false)]

/-- The entries after these calls, -/
def scriptEntries (b : FastOrderBook) (x : Nat) : Nat → Nat :=
  let e := Function.update (Function.update (Function.update b.slot 0 0) 1 1) 0 NULL_IDX
  Function.update (Function.update (Function.update e 0 0) 1 NULL_IDX) x 1

/-- and the book. -/
def baited (b : FastOrderBook) (x : Nat) : FastOrderBook :=
  stage b ⟨0, 1, 1, false, 0, 0⟩ ⟨x, 2, 1, false, NULL_IDX, NULL_IDX⟩ ⟨0, 0⟩ ⟨1, 1⟩ (scriptEntries b x) 2

variable {b₀ : Ladder} {x z : Nat}

/-- An ask that a caller may submit to a book without bids. -/
theorem guarded_rests {e : Nat → Nat} {o₀ o₁ : Order} {l₁ l₂ : PriceLevel} {k : Nat}
    (hadd : addOrder (stage b o₀ o₁ l₁ l₂ e k) id price qty false = .ok b') (hid : id < n) (hq : 0 < qty)
    (hp : 0 < price ∧ price < MAX_PRICES) (hrest : ¬ Ladder.Resting (stage b o₀ o₁ l₁ l₂ e k) id) :
    Guarded (Polite n) Answers (stage b o₀ o₁ l₁ l₂ e k) (.call (.submit id price qty false)) b' := by
  have hin : FastBitsetOrderBook.Inside (.submit id price qty false) := ⟨hp.2, Nat.ne_of_gt hp.1⟩
  refine ⟨⟨⟨hid, hrest, hp.2⟩, hin⟩, step_rests hin hq (fun p _ => ?_) hadd⟩
  rw [stage_level b o₀ o₁ l₁ l₂ e k (by simp)]

/-- The book with one order, the ask at 1 that a caller submits first. -/
def seeded (b : FastOrderBook) (id : Nat) : FastOrderBook :=
  stage b ⟨id, 1, 1, false, NULL_IDX, NULL_IDX⟩ (Ladder.order b 1) ⟨0, 0⟩ ⟨NULL_IDX, NULL_IDX⟩
    (Function.update (Ladder.slot b) id 0) (Ladder.order b 0).next

theorem slot_seeded (b : FastOrderBook) {i : Nat} (hi : i ≠ id) : Ladder.slot (seeded b id) i = Ladder.slot b i :=
  Function.update_of_ne hi 0 (Ladder.slot b)

theorem order_seeded (b : FastOrderBook) (id i : Nat) : Ladder.order (seeded b id) i =
    if i = 0 then ⟨id, 1, 1, false, NULL_IDX, NULL_IDX⟩ else Ladder.order b i := by
  show (if i = 0 then _ else if i = 1 then _ else _) = _
  split
  · rfl
  · split
    · rename_i hi
      rw [hi]
    · rfl

theorem guarded_first (h : b₀.Initialised n b) (hid : id < n) :
    Guarded (Polite n) Answers b (.call (.submit id 1 1 false)) (seeded b id) := by
  have hstart := eq_stage h.level
  rw [h.free] at hstart
  have hadd := stage_first (o := Ladder.order b 0) (u := Ladder.order b 1) (l := ⟨NULL_IDX, NULL_IDX⟩)
    (e := Ladder.slot b) (h.size.symm ▸ h.pos) (h.map_size.symm ▸ hid)
  have hguard := guarded_rests hadd hid Nat.one_pos (by decide) (stage_not_resting (S := ∅) (fun _ hi => hi.elim)
    (fun hi => hi.elim) (fun hi => hi.elim) within_null within_null)
  rwa [← hstart] at hguard

/-- The bid that fills the first of the two asks. -/
theorem guarded_fills {e : Nat → Nat} {k : Nat} (hb : 2 < b.orders.size) (hm : 2 < b.idMap.size) (hn : 2 < n) :
    Guarded (Polite n) Answers (stage b ⟨0, 1, 1, false, 1, NULL_IDX⟩ ⟨1, 1, 1, false, NULL_IDX, 0⟩ ⟨0, 1⟩
        ⟨NULL_IDX, NULL_IDX⟩ e k) (.call (.submit 2 1 1 true))
      (stage b ⟨0, 1, 0, false, k, NULL_IDX⟩ ⟨1, 1, 1, false, NULL_IDX, 0⟩ ⟨1, 1⟩ ⟨NULL_IDX, NULL_IDX⟩
        (Function.update e 0 NULL_IDX) 0) := by
  have hrest : ¬ Ladder.Resting (stage b ⟨0, 1, 1, false, 1, NULL_IDX⟩ ⟨1, 1, 1, false, NULL_IDX, 0⟩ ⟨0, 1⟩
      ⟨NULL_IDX, NULL_IDX⟩ e k) 2 :=
    stage_not_resting (S := {0, 1}) (fun _ hi => hi) (fun _ => ⟨by decide, fun _ => Or.inr rfl⟩)
      (fun _ => ⟨by decide, within_null⟩) (fun _ => Or.inl rfl) within_null
  refine ⟨⟨⟨hn, hrest, by decide⟩, by decide, by decide⟩, 3, ?_⟩
  have hround := stage_fill (o := ⟨0, 1, 1, false, 1, NULL_IDX⟩) (u := ⟨1, 1, 1, false, NULL_IDX, 0⟩) (t := 1)
    (l := ⟨NULL_IDX, NULL_IDX⟩) (e := e) (k := k) hb (show 0 < b.idMap.size by omega) Nat.one_pos (Nat.le_refl 1)
  have hfill : fillLevel 3 false 1 (stage b ⟨0, 1, 1, false, 1, NULL_IDX⟩ ⟨1, 1, 1, false, NULL_IDX, 0⟩ ⟨0, 1⟩
      ⟨NULL_IDX, NULL_IDX⟩ e k) 1 = .ok (stage b ⟨0, 1, 0, false, k, NULL_IDX⟩
        ⟨1, 1, 1, false, NULL_IDX, 0⟩ ⟨1, 1⟩ ⟨NULL_IDX, NULL_IDX⟩ (Function.update e 0 NULL_IDX) 0, 0) :=
    (loop_again hround 2).trans (loop_done (fillRound_idle (by decide) (Or.inr rfl)) 1)
  have hmatch := (matchOrder_one (b := stage b ⟨0, 1, 1, false, 1, NULL_IDX⟩ ⟨1, 1, 1, false, NULL_IDX, 0⟩ ⟨0, 1⟩
    ⟨NULL_IDX, NULL_IDX⟩ e k) rfl Nat.one_pos 0).trans hfill
  simp only [exec, submitOrder, hmatch, ok_bind, Nat.lt_irrefl, if_false, pure_eq_ok]

/-- Every initialised book of size at least 3 can be led there. -/
theorem script_run (h : b₀.Initialised n b) (hn : 3 ≤ n) (hx : 0 < x) (hxn : x < n) :
    Run (Guarded (Polite n) Answers) b (script x) (baited b x) := by
  have hb : 2 < b.orders.size := h.size.symm ▸ hn
  have hm : 2 < b.idMap.size := h.map_size.symm ▸ hn
  have hxm : x < b.idMap.size := h.map_size.symm ▸ hxn
  have hnext₀ : (Ladder.order b 0).next = 1 := by
    rw [h.next_eq ⟨h.pos, by decide⟩, if_neg (by omega)]
  have hnext₁ : (Ladder.order b 1).next = 2 := by
    rw [h.next_eq ⟨by omega, by decide⟩, if_neg (by omega)]
  -- one guarded step for each call; the successors of slots 0 and 1 are those of the new free list
  have h₁ := guarded_first h h.pos
  rw [seeded, hnext₀] at h₁
  have h₂ := guarded_rests (stage_second (o := Ladder.order b 1) (l := ⟨NULL_IDX, NULL_IDX⟩)
    (e := Function.update (Ladder.slot b) 0 0) hb hm) (show 1 < n by omega) Nat.one_pos (by decide)
      (stage_not_resting (S := {0}) (fun _ hi => Or.inl hi) (fun _ => ⟨Nat.zero_ne_one, within_null⟩)
        (fun hi => absurd hi Nat.one_ne_zero) (fun _ => rfl) within_null)
  rw [hnext₁] at h₂
  have h₃ := guarded_fills (n := n) (e := Function.update (Function.update (Ladder.slot b) 0 0) 1 1) (k := 2) hb hm hn
  have h₄ := guarded_rests (stage_again (o := ⟨0, 1, 0, false, 2, NULL_IDX⟩) (l := ⟨NULL_IDX, NULL_IDX⟩)
    (e := Function.update (Function.update (Function.update (Ladder.slot b) 0 0) 1 1) 0 NULL_IDX) hb hm) h.pos
      Nat.one_pos (by decide) (stage_not_resting (S := {1}) (fun _ hi => Or.inr hi) (fun hi => absurd hi Nat.zero_ne_one)
        (fun _ => ⟨Nat.one_ne_zero, within_null⟩) (fun _ => rfl) within_null)
  have hstale := stage_stale (b := b) (l := ⟨NULL_IDX, NULL_IDX⟩) (k := 2) (e := Function.update (Function.update
    (Function.update (Function.update (Ladder.slot b) 0 0) 1 1) 0 NULL_IDX) 0 0) hb hm (by simp)
  have h₅ : Guarded (Polite n) Answers _ (.call (.cancel 1)) _ := ⟨⟨trivial, trivial⟩, 0, hstale⟩
  have h₆ := guarded_rests (stage_other (u := ⟨0, 1, 1, false, 0, 0⟩) (o := ⟨1, 1, 1, false, 2, NULL_IDX⟩)
    (l := ⟨0, 0⟩) (e := Function.update (Function.update (Function.update
    (Function.update (Function.update (Ladder.slot b) 0 0) 1 1) 0 NULL_IDX) 0 0) 1 NULL_IDX) hb hxm)
      hxn Nat.one_pos (by decide) (stage_not_resting (S := {0}) (fun _ hi => Or.inl hi)
        (fun _ => ⟨Nat.ne_of_lt hx, fun _ => rfl⟩) (fun hi => absurd hi Nat.one_ne_zero) (fun _ => rfl) within_null)
  exact (((((Run.single h₁).snoc h₂).snoc h₃).snoc h₄).snoc h₅).snoc h₆

end FastOrderBook

end Lobook
