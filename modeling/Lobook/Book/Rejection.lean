import Lobook.Book.Chained
import Lobook.Book.Rested
import Lobook.Book.Exhaustion
import Lobook.Book.Equivalence
import Lobook.Engine.Bounds

/-!
# Orders with a price beyond the ladder

`match` treats such an order like any other: a bid meets every ask, an ask meets no bid.  What is left of it should be
rejected, but `add_order` takes a slot and writes the entry of the id before it looks at the price.  So the order leaves
no trace only if nothing is left of it, or no slot is free; and the entry of its id must be null before, because
`match` does not write it (`rejects_iff`).
-/

namespace Lobook

open Checked Transition

namespace Ladder

/-- The levels of the side `s` at the prices in `S` are empty, unless nothing is left of the incoming quantity. -/
structure Emptied (b : Ladder) (s : Bool) (qty : Nat) (S : Finset Nat) (b₁ : Ladder) (qty₁ : Nat) : Prop where
  bound : ∀ p ∈ S, p < MAX_PRICES
  left : qty₁ = qty - ∑ p ∈ S, b.volume s p
  untouched : b.Untouched s S b₁
  head : 0 < qty₁ → ∀ p ∈ S, (b₁.level s p).head = NULL_IDX

variable {b b₁ b₂ : Ladder} {s : Bool} {S : Finset Nat} {p qty qty₁ qty₂ inner : Nat}

theorem Emptied.start : Emptied b s qty ∅ b qty :=
  ⟨fun _ hp => absurd hp (Finset.notMem_empty _), rfl, Untouched.refl, fun _ _ hp => absurd hp (Finset.notMem_empty _)⟩

theorem Emptied.round (hc : b.Chained s) (h : Emptied b s qty S b₁ qty₁) (hp : p ∈ b₁.occupied s) (hq : 0 < qty₁)
    (hf : b₁.fillLevel inner s p qty₁ = .ok (b₂, qty₂)) : Emptied b s qty (insert p S) b₂ qty₂ := by
  have hpS : p ∉ S := fun hmem => hp.2 (h.head hq p hmem)
  obtain ⟨hfill, hstop⟩ := fillLevel_filled hf
  rcases h.untouched.fillLevel hc hp.1 (fun hmem => hpS (Finset.mem_coe.1 hmem)) inner qty₁ with
    ⟨e, _⟩ | ⟨e, _⟩ | ⟨b₃, e, h₃, _⟩
  · rw [hf] at e
    cases e
  · rw [hf] at e
    cases e
  · rw [hf] at e
    obtain ⟨rfl, hqty₂⟩ := Prod.mk.inj (Except.ok.inj e)
    refine ⟨fun q hmem => ?_, ?_, ?_, fun hq₂ q hmem => ?_⟩
    · rcases Finset.mem_insert.1 hmem with rfl | hmem
      · exact hp.1
      · exact h.bound q hmem
    · rw [hqty₂, h.left, Finset.sum_insert hpS, Nat.add_comm, Nat.sub_sub]
    · rw [Finset.coe_insert]
      exact h₃
    · by_cases hqp : q = p
      · exact hqp ▸ hstop.resolve_right (Nat.ne_of_gt hq₂)
      · rw [hfill.level s q fun e => hqp e.2]
        exact h.head hq q ((Finset.mem_insert.1 hmem).resolve_left hqp)

/-- When nothing is left of the incoming quantity or of the side, the whole side has been filled as far as possible. -/
theorem Emptied.finish (hc : b.Chained s) (h : Emptied b s qty S b₁ qty₁) (hend : qty₁ = 0 ∨ b₁.occupied s = ∅) :
    qty₁ = qty - b.depth s := by
  have hsub : S ⊆ Finset.range MAX_PRICES := fun p hp => Finset.mem_range.2 (h.bound p hp)
  have hle : ∑ p ∈ S, b.volume s p ≤ b.depth s := Finset.sum_le_sum_of_subset hsub
  have hleft := h.left
  rcases Nat.eq_zero_or_pos qty₁ with hzero | hq
  · omega
  · have hempty := hend.resolve_left (Nat.ne_of_gt hq)
    have hrest : ∀ p ∈ Finset.range MAX_PRICES, p ∉ S → b.volume s p = 0 := by
      intro p hp hpS
      have hp := Finset.mem_range.1 hp
      have hhead : (b.level s p).head = NULL_IDX := by
        by_contra hne
        rw [← h.untouched.level p hp fun hmem => hpS (Finset.mem_coe.1 hmem)] at hne
        exact Set.notMem_empty p (hempty ▸ ⟨hp, hne⟩)
      obtain ⟨hmeets, _⟩ := hc.queue hp
      rw [volume, (hmeets.1.head_eq_iff hmeets.2).1 hhead]
      rfl
    rw [hleft, Finset.sum_subset hsub hrest]
    rfl

end Ladder

namespace FastBitsetOrderBook

open Ladder

variable {b b' b₁ : FastBitsetOrderBook} {isBuy : Bool} {id price qty qty₁ fuel n : Nat}

/-- `match` fills a whole side, as far as the incoming quantity goes. -/
theorem matchOrder_side (hi : b.Indexed) (hc : b.Chained (!isBuy)) (hknown : ∀ p, p < MAX_PRICES → b.Known (!isBuy) p)
    (hall : ∀ p, p < MAX_PRICES → Crosses isBuy price p) (qty : Nat) :
    ∃ fuel b₁, b.matchOrder fuel price qty isBuy = .ok (b₁, qty - b.depth (!isBuy)) ∧
      (∀ id, ¬ b.Resting id → b₁.slot id = b.slot id) ∧
      (0 < qty - b.depth (!isBuy) → b₁.occupied (!isBuy) = ∅) := by
  have hloop : ∃ fuel r, loop (matchRound (b.orders.size + 1) price isBuy) fuel (b, qty) = .ok r ∧
      ((∃ S, Emptied b.toLadder (!isBuy) qty S r.1.toLadder r.2) ∧ (r.2 = 0 ∨ r.1.occupied (!isBuy) = ∅)) := by
    refine loop_total (I := fun s => s.1.Indexed ∧ ∃ S, Emptied b.toLadder (!isBuy) qty S s.1.toLadder s.2)
      (fun s => (s.1.occupied (!isBuy)).ncard + if s.2 = 0 then 0 else 1) (fun s hs => ?_) ⟨hi, ∅, Emptied.start⟩
    obtain ⟨b₁, qty₁⟩ := s
    obtain ⟨hi₁, S, h₁⟩ := hs
    rcases hi₁.matchRound isBuy price qty₁ (b.orders.size + 1) with ⟨e, hend⟩ | ⟨p, hq, hbest, hround⟩
    · refine ⟨_, e, ⟨S, h₁⟩, hend.imp_right fun hfar => Set.eq_empty_iff_forall_notMem.2 fun p hp => ?_⟩
      exact hfar p hp (hall p hp.1)
    · have hp : p < MAX_PRICES := hbest.occupied.1
      have hpS : p ∉ (S : Set Nat) := fun hmem => hbest.occupied.2 (h₁.head hq p (Finset.mem_coe.1 hmem))
      rcases h₁.untouched.fillLevel hc hp hpS (b.orders.size + 1) qty₁ with ⟨_, hle⟩ | ⟨_, hstray⟩ | ⟨l, ef, _⟩
      · exact absurd hle (Nat.not_succ_le_self _)
      · exact absurd (hknown p hp) hstray
      · obtain ⟨b₂, e, rfl, hi₂⟩ := hround l _ ef
        obtain ⟨hfill, hstop⟩ := fillLevel_filled ef
        exact ⟨_, e, ⟨hi₂, _, h₁.round hc hbest.occupied hq ef⟩, rounds_left_lt hfill hstop hbest.occupied hq⟩
  obtain ⟨fuel, ⟨b₁, qty₁⟩, e, ⟨S, h₁⟩, hend⟩ := hloop
  have hleft : qty₁ = qty - b.depth (!isBuy) := h₁.finish hc hend
  rw [← hleft]
  exact ⟨max (b.orders.size + 1) fuel, b₁, matchOrder_of_loop e, h₁.untouched.slot,
    fun hq => hend.resolve_left (Nat.ne_of_gt hq)⟩

/-- The quantity that an order with a price beyond the ladder can trade with. -/
def withinReach (b : FastBitsetOrderBook) (isBuy : Bool) : Nat := if isBuy then b.depth false else 0

/-- A bid beyond the ladder meets every ask, an ask beyond the ladder meets no bid. -/
theorem matchOrder_beyond (hi : b.Indexed) (hr : b.InRange) (hc : isBuy = true → b.Chained false)
    (hp : MAX_PRICES ≤ price) (qty : Nat) :
    ∃ fuel b₁, b.matchOrder fuel price qty isBuy = .ok (b₁, qty - b.withinReach isBuy) ∧
      (∀ id, ¬ b.Resting id → b₁.slot id = b.slot id) ∧
      (0 < qty - b.withinReach isBuy → isBuy = true → b₁.occupied false = ∅) := by
  cases isBuy with
  | true =>
    have hc : b.Chained (!true) := hc rfl
    have hknown : ∀ p, p < MAX_PRICES → b.Known false p := fun p hp i hi => hr.id i ((hc.queue hp).2 i hi)
    have hall : ∀ p, p < MAX_PRICES → Crosses true price p := fun p hlt => Nat.le_of_lt (Nat.lt_of_lt_of_le hlt hp)
    obtain ⟨fuel, b₁, e, hslot, hempty⟩ := matchOrder_side hi hc hknown hall qty
    exact ⟨fuel, b₁, e, hslot, fun hq _ => hempty hq⟩
  | false =>
    have hfar : ∀ p ∈ b.occupied (!false), ¬ Crosses false price p :=
      fun p hocc => Nat.not_le.2 (Nat.lt_of_lt_of_le hocc.1 hp)
    exact ⟨1, b, hi.matchOrder_idle hfar, fun _ _ => rfl, fun _ h => absurd h Bool.false_ne_true⟩

/-! ### What is left of the order -/

/-- `submit_order` has changed the book `b₁`, which `match` left, in no way that a caller can see: nothing was queued,
as many slots are free as before, and the id is unknown. -/
structure Untraced (b₁ b' : FastBitsetOrderBook) (id : Nat) : Prop where
  queue : ∀ s p, p < MAX_PRICES → b'.queue s p = b₁.queue s p
  free : ∀ l, b₁.Meets b₁.nextFreeOrderIdx l → ∃ l', b'.Meets b'.nextFreeOrderIdx l' ∧ l'.length = l.length
  quantity : b'.getQuantity id = .ok 0
  cancel : b'.cancelOrder id = .ok b'

/-- `submit_order` changes the book only by the fills that `match` performs. -/
def Rejects (b : FastBitsetOrderBook) (id price qty : Nat) (isBuy : Bool) : Prop :=
  ∃ fuel b₁ qty₁ b', b.matchOrder fuel price qty isBuy = .ok (b₁, qty₁) ∧
    b.submitOrder fuel id price qty isBuy = .ok b' ∧ Untraced b₁ b' id

/-- A cancellation that changes nothing is one of an id that the map does not know. -/
theorem cancelOrder_noop (h : b.cancelOrder id = .ok b) : b.idMap.size ≤ id ∨ b.slot id = NULL_IDX := by
  by_contra habs
  obtain ⟨hid, hnull⟩ := not_or.1 habs
  have hlast : b.slot id = NULL_IDX := by
    simp only [cancelOrder, if_neg hid, Ladder.getSlot_of_lt (Nat.lt_of_not_le hid), ok_bind, if_neg hnull] at h
    obtain ⟨order, _, h⟩ := bind_eq_ok.1 h
    obtain ⟨b₁, _, h⟩ := bind_eq_ok.1 h
    obtain ⟨b₂, _, h⟩ := bind_eq_ok.1 h
    obtain ⟨b₃, _, h⟩ := bind_eq_ok.1 h
    obtain ⟨b₄, _, h⟩ := bind_eq_ok.1 h
    obtain ⟨l, hl, e⟩ := onLadder_eq_ok.1 h
    obtain ⟨_, rfl⟩ := Ladder.setSlot_eq_ok.1 hl
    rw [← e]
    exact Function.update_self _ _ _
  exact hnull hlast

/-- `add_order` takes a slot for an order beyond the ladder. -/
theorem addOrder_far (hnull : b.nextFreeOrderIdx ≠ NULL_IDX) (hfree : b.nextFreeOrderIdx < b.orders.size)
    (hid : id < b.idMap.size) (hp : MAX_PRICES ≤ price) :
    b.addOrder id price qty isBuy = .ok { b with toLadder := b.taken id price qty isBuy } := by
  have htake : b.onLadder (fun l => l.takeSlot id price qty isBuy) = _ :=
    onLadder_of_ok (takeSlot_of_lt hfree hid)
  simp only [addOrder, if_neg hnull, htake, ok_bind, if_pos hp, pure_eq_ok]

theorem submitOrder_stop (h : b.matchOrder fuel price qty isBuy = .ok (b₁, qty₁))
    (hstop : qty₁ = 0 ∨ b₁.nextFreeOrderIdx = NULL_IDX) : b.submitOrder fuel id price qty isBuy = .ok b₁ := by
  rcases Nat.eq_zero_or_pos qty₁ with hzero | hq
  · have hq : ¬ 0 < qty₁ := Nat.not_lt.2 (Nat.le_of_eq hzero)
    simp only [submitOrder, h, ok_bind, if_neg hq, pure_eq_ok]
  · have hfull := hstop.resolve_left (Nat.ne_of_gt hq)
    simp only [submitOrder, h, ok_bind, if_pos hq, addOrder, if_pos hfull, pure_eq_ok]

/-- An order beyond the ladder leaves no trace exactly if nothing is left of it or no slot is free when `match` returns,
and the map does not know its id then. -/
theorem rejects_iff_of_match (h : b.matchOrder fuel price qty isBuy = .ok (b₁, qty₁)) (hp : MAX_PRICES ≤ price)
    (hid : id < b₁.idMap.size) (hfree : b₁.Fits b₁.nextFreeOrderIdx) :
    b.Rejects id price qty isBuy ↔ b₁.slot id = NULL_IDX ∧ (qty₁ = 0 ∨ b₁.nextFreeOrderIdx = NULL_IDX) := by
  constructor
  · rintro ⟨fuel', b₂, qty₂, b', h', e, htrace⟩
    obtain ⟨rfl, rfl⟩ := Prod.mk.inj (matchOrder_unique h h')
    have habs := cancelOrder_noop htrace.cancel
    by_cases hstop : qty₁ = 0 ∨ b₁.nextFreeOrderIdx = NULL_IDX
    · obtain rfl : b₁ = b' := Except.ok.inj ((submitOrder_stop h' hstop).symm.trans e)
      exact ⟨habs.resolve_left (Nat.not_le.2 hid), hstop⟩
    · -- the slot that was taken is the entry of the id
      obtain ⟨hq, hnull⟩ := not_or.1 hstop
      simp only [submitOrder, h', ok_bind, if_pos (Nat.pos_of_ne_zero hq),
        addOrder_far hnull (hfree.resolve_left hnull) hid hp] at e
      obtain rfl := Except.ok.inj e
      have hslot : (b₁.taken id price qty₁ isBuy).slot id = b₁.nextFreeOrderIdx := by
        simp only [taken, slot_withSlot, if_true]
      rcases habs with hge | hentry
      · exact absurd hid (Nat.not_lt.2 hge)
      · exact absurd (hslot.symm.trans hentry) hnull
  · rintro ⟨hnull, hstop⟩
    exact ⟨fuel, b₁, qty₁, b₁, h, submitOrder_stop h hstop, fun _ _ _ => rfl, fun l hl => ⟨l, hl, rfl⟩,
      getQuantity_absent (Or.inr hnull), cancelOrder_absent (Or.inr hnull)⟩

/-! ### Runs -/

theorem Indexed.matchOrder (hi : b.Indexed) (h : b.matchOrder fuel price qty isBuy = .ok (b₁, qty₁)) :
    b₁.Indexed := by
  have hloop : Sat (fun _ => True) (b.matchOrder fuel price qty isBuy) fun r => r.1.Indexed := by
    refine Sat.loop (I := fun r => r.1.Indexed) trivial (fun r hr => ?_) fuel hi
    obtain ⟨b₂, qty₂⟩ := r
    refine sat_true_iff.2 fun flow hflow => ?_
    rcases hr.tracks.matchRound isBuy price qty₂ fuel with ⟨e, _⟩ | ⟨_, _, _, _, _, ⟨_, _, e⟩ | ⟨_, _, b₃, _, e, hb₃⟩⟩
    · rw [hflow] at e
      cases e
      exact hr
    · rw [hflow] at e
      cases e
    · rw [hflow] at e
      cases e
      exact (hb₃.mono fun _ _ _ hp => hp).indexed
  exact hloop.of_ok h

/-- What every call keeps, whatever its arguments are. -/
structure Sane (n : Nat) (b : FastBitsetOrderBook) : Prop where
  indexed : b.Indexed
  inRange : b.InRange
  map_size : b.idMap.size = n

theorem Sane.step {c : Call} (h : Sane n b) (hs : b.Step c b') : Sane n b' := by
  obtain ⟨hi, hr, hsize⟩ := h
  obtain ⟨_, hr'⟩ := RequestStep.inRange (r := .call c) hi.covered hr hs
  suffices hrest : b'.Indexed ∧ b'.idMap.size = b.idMap.size from ⟨hrest.1, hr', hrest.2.trans hsize⟩
  obtain ⟨fuel, hs⟩ := hs
  cases c with
  | submit id price qty isBuy =>
    obtain ⟨⟨b₁, rest⟩, hm, hs⟩ := bind_eq_ok.1 hs
    obtain ⟨_, _, _, hsize₁, _⟩ := (matchOrder_inRange hi.covered hr fuel price qty isBuy).of_ok hm
    have hi₁ := hi.matchOrder hm
    simp only at hs
    split at hs
    · obtain ⟨e, hf⟩ := (agrees_addOrder hi₁.follows id price rest isBuy).of_ok hs
      refine ⟨hf.indexed, Eq.trans ?_ hsize₁⟩
      rcases FastOrderBook.addOrder_cases e with ⟨_, heq⟩ | ⟨_, _, _, ⟨_, heq⟩ | ⟨_, _, ha⟩⟩
      · rw [heq]
      · rw [heq]
        rfl
      · rw [ha.idMap]
        rfl
    · cases hs
      exact ⟨hi₁, hsize₁⟩
  | cancel id =>
    obtain ⟨e, hf⟩ := (agrees_cancelOrder hi.follows id).of_ok hs
    refine ⟨hf.indexed, ?_⟩
    rcases FastOrderBook.cancelOrder_cases e with ⟨_, heq⟩ | ⟨_, _, _, _, b₁, hu, heq⟩
    · rw [heq]
    · rw [heq, ← hu.idMap]
      rfl

theorem sane_init (h : new.init n = .ok b) : Sane n b := by
  refine ⟨Indexed.init h, init_inRange h, ?_⟩
  obtain ⟨l, hl, h⟩ := bind_eq_ok.1 h
  cases h
  exact (initialised_of_eq_ok hl).map_size

/-- A submitted id is in range and does not rest; a cancelled one is unknown, or rests and is not taken out of its level
through a stale back link. -/
def Sound (n : Nat) (b : FastBitsetOrderBook) : Call → Prop
  | .submit id price _ _ => id < n ∧ ¬ b.Resting id ∧ price < MAX_PRICES
  | .cancel id => b.Resting id ∧ b.UnlinksCleanly (b.slot id) ∨ n ≤ id ∨ b.slot id = NULL_IDX

theorem Stocked.chained (h : Stocked n b) (s : Bool) : b.Chained s := by
  obtain ⟨Q, F, _, hpool, _⟩ := h
  exact hpool.toLinked.chained s

theorem Stocked.step {c : Call} (h : Stocked n b) (hsound : Sound n b c) (hs : b.Step c b') : Stocked n b' := by
  have hrequest : Legal n b (.call c) ∧ b.Detaches (.call c) → Stocked n b' := by
    rintro ⟨hlegal, hdetach⟩
    obtain ⟨b'', Q, F, hs', hi, hpool, hsize, hpos⟩ := h.request hlegal hdetach
    obtain rfl : b' = b'' := Step.unique hs hs'
    refine ⟨Q, F, hi, hpool, hpos.2 ?_, hsize⟩
    cases c <;> trivial
  cases c with
  | submit id price qty isBuy => exact hrequest ⟨hsound, trivial⟩
  | cancel id =>
    rcases hsound with hrest | habs
    · exact hrequest hrest
    · have hsize : b.idMap.size = n := by
        obtain ⟨_, _, _, _, _, hsize⟩ := h
        exact hsize
      obtain rfl : b' = b := Step.unique hs ⟨0, cancelOrder_absent (hsize ▸ habs)⟩
      exact h

/-- After every run, an order with a price beyond the ladder and an id that does not rest leaves no trace exactly if the
map does not know its id, and it is filled completely or no slot is free and nothing trades.  A bid goes along the
asks; that they can be gone along is sure unless the run has submitted an id that was in use, or cancelled an order that
did not rest, or through a stale back link. -/
theorem rejects_iff {b₀ : FastBitsetOrderBook} (hinit : new.init n = .ok b₀) (cs : List Call)
    (b : FastBitsetOrderBook) (hrun : Run Step b₀ cs b) (hp : MAX_PRICES ≤ price) (hid : id < n)
    (hrest : ¬ b.Resting id) (qty : Nat) :
    ((isBuy = true → b.Chained false) →
      (b.Rejects id price qty isBuy ↔ b.slot id = NULL_IDX ∧ (qty ≤ b.withinReach isBuy ∨
        b.nextFreeOrderIdx = NULL_IDX ∧ (isBuy = true → b.occupied false = ∅)))) ∧
    (Run (Guarded (Sound n) Step) b₀ cs b → b.Chained false) := by
  refine ⟨fun hc => ?_, fun hsound => ?_⟩
  swap
  · have hstocked : Stocked n b := hsound.invariant (I := Stocked n) (stocked_init hinit).1
      fun _ _ _ h hstep => h.step hstep.1 hstep.2
    exact hstocked.chained false
  obtain ⟨hi, hr, hsize⟩ := hrun.invariant (I := Sane n) (sane_init hinit) fun _ _ _ hs hstep => hs.step hstep
  obtain ⟨fuel, b₁, h, hslot, hempty⟩ := matchOrder_beyond hi hr hc hp qty
  obtain ⟨_, hr₁, _, hsize₁, _⟩ := (matchOrder_inRange hi.covered hr fuel price qty isBuy).of_ok h
  have hid₁ : id < b₁.idMap.size := by
    rw [hsize₁, hsize]
    exact hid
  rw [rejects_iff_of_match h hp hid₁ hr₁.free, hslot id hrest]
  refine and_congr_right fun _ => ?_
  by_cases hle : qty ≤ b.withinReach isBuy
  · exact iff_of_true (Or.inl (Nat.sub_eq_zero_of_le hle)) (Or.inl hle)
  · have hq : 0 < qty - b.withinReach isBuy := Nat.sub_pos_of_lt (Nat.lt_of_not_le hle)
    rw [or_iff_right (Nat.ne_of_gt hq), or_iff_right hle]
    constructor
    · intro hfull
      -- had `match` filled an order, its slot would be free
      rcases (matchOrder_fills (signposted_iff.2 hi).backed h).2 with heq | hfree | hzero
      · rw [← (Prod.mk.inj heq).1]
        exact ⟨hfull, hempty hq⟩
      · exact absurd hfull hfree
      · exact absurd hzero (Nat.ne_of_gt hq)
    · rintro ⟨hfull, hnone⟩
      have hfar : ∀ p ∈ b.occupied (!isBuy), ¬ Crosses isBuy price p := by
        intro p hocc
        cases isBuy with
        | true => exact absurd (hnone rfl ▸ hocc) (Set.notMem_empty p)
        | false => exact Nat.not_le.2 (Nat.lt_of_lt_of_le hocc.1 hp)
      have hidle := matchOrder_unique h (hi.matchOrder_idle hfar)
      rw [(Prod.mk.inj hidle).1]
      exact hfull

/-! ### Two asks, of which one is cancelled -/

/-- One ask rests at 5; the id 1 has rested and does so no more. -/
def twoAsks : List Call := [.submit 0 5 10 false, .submit 1 6 1 false, .cancel 1]

private theorem twoAsks_steps : ∃ b₀ b₁ b₂ b₃ b₄, new.init 2 = .ok b₀ ∧ b₀.Step (.submit 0 5 10 false) b₁ ∧
    b₁.Step (.submit 1 6 1 false) b₂ ∧ b₂.Step (.cancel 1) b₃ ∧ b₃.Step (.submit 1 100005 20 true) b₄ ∧
    (b₁.order (b₁.slot 1)).id ≠ 1 ∧ 1 ∈ b₂.queue false 6 ∧ (b₂.order 1).id = 1 ∧ b₂.UnlinksCleanly (b₂.slot 1) ∧
    (b₃.order (b₃.slot 1)).id ≠ 1 ∧ b₃.slot 1 = NULL_IDX ∧ 4 ≤ b₃.volume false 5 ∧ b₄.getQuantity 1 = .ok 10 := by
  have hok : (new.init 2 >>= fun b₀ => b₀.exec 10 (.submit 0 5 10 false) >>= fun b₁ =>
      b₁.exec 10 (.submit 1 6 1 false) >>= fun b₂ => b₂.exec 10 (.cancel 1) >>= fun b₃ =>
      b₃.exec 10 (.submit 1 100005 20 true) >>= fun b₄ => pure (b₀, b₁, b₂, b₃, b₄)).isOk = true := by
    decide +kernel
  obtain ⟨b₀, h₀, h⟩ := bind_eq_ok.1 (eq_ok_value (new, new, new, new, new) hok)
  obtain ⟨b₁, h₁, h⟩ := bind_eq_ok.1 h
  obtain ⟨b₂, h₂, h⟩ := bind_eq_ok.1 h
  obtain ⟨b₃, h₃, h⟩ := bind_eq_ok.1 h
  obtain ⟨b₄, h₄, h⟩ := bind_eq_ok.1 h
  have hb := Except.ok.inj h
  refine ⟨b₀, b₁, b₂, b₃, b₄, h₀, ⟨10, h₁⟩, ⟨10, h₂⟩, ⟨10, h₃⟩, ⟨10, h₄⟩, ?_⟩
  rw [show b₁ = _ from congrArg (fun t => t.2.1) hb, show b₂ = _ from congrArg (fun t => t.2.2.1) hb,
    show b₃ = _ from congrArg (fun t => t.2.2.2.1) hb, show b₄ = _ from congrArg (fun t => t.2.2.2.2) hb]
  refine ⟨?_, ?_, ?_, ?_, ?_, ?_, ?_, ?_⟩
  all_goals decide +kernel

private theorem twoAsks_run : ∃ b₀ b b', new.init 2 = .ok b₀ ∧ Run Step b₀ twoAsks b ∧ Stocked 2 b ∧ ¬ b.Resting 1 ∧
    b.slot 1 = NULL_IDX ∧ 4 ≤ b.withinReach true ∧ b.Step (.submit 1 100005 20 true) b' ∧
    b'.getQuantity 1 = .ok 10 := by
  obtain ⟨b₀, b₁, b₂, b₃, b₄, h₀, h₁, h₂, h₃, h₄, hnew, hqueue, hid, hclean, hgone, hnull, hvolume, hqty⟩ :=
    twoAsks_steps
  obtain ⟨hs₀, hrest₀⟩ := stocked_init h₀
  have hlegal₁ : Legal 2 b₀ (.call (.submit 0 5 10 false)) := ⟨by decide, hrest₀ 0, by decide⟩
  obtain ⟨_, Q₁, F₁, hstep₁, hi₁, hpool₁, hsize₁, hpos₁⟩ := hs₀.request hlegal₁ trivial
  obtain rfl := h₁.unique hstep₁
  have hlegal₂ : Legal 2 b₁ (.call (.submit 1 6 1 false)) := ⟨by decide, hpool₁.not_resting hnew, by decide⟩
  obtain ⟨_, Q₂, F₂, hstep₂, hi₂, hpool₂, hsize₂, hpos₂⟩ :=
    Stocked.request ⟨Q₁, F₁, hi₁, hpool₁, hpos₁.2 trivial, hsize₁⟩ hlegal₂ trivial
  obtain rfl := h₂.unique hstep₂
  have hlegal₃ : Legal 2 b₂ (.call (.cancel 1)) := ⟨false, 6, by decide, 1, hqueue, hid⟩
  obtain ⟨_, Q₃, F₃, hstep₃, hi₃, hpool₃, hsize₃, hpos₃⟩ :=
    Stocked.request ⟨Q₂, F₂, hi₂, hpool₂, hpos₂.2 trivial, hsize₂⟩ hlegal₃ hclean
  obtain rfl := h₃.unique hstep₃
  have hreach : b₃.volume false 5 ≤ b₃.depth false :=
    Finset.single_le_sum (fun p _ => Nat.zero_le _) (Finset.mem_range.2 (by decide : 5 < MAX_PRICES))
  exact ⟨b₀, b₃, b₄, h₀, ((Run.single h₁).snoc h₂).snoc h₃, ⟨Q₃, F₃, hi₃, hpool₃, hpos₃.2 trivial, hsize₃⟩,
    hpool₃.not_resting hgone, hnull, hvolume.trans hreach, h₄, hqty⟩

/-- What is left of a bid behind the only ask can be read from the book. -/
theorem twoAsks_not_rejects : ∃ b₀ b b', new.init 2 = .ok b₀ ∧ Run Step b₀ twoAsks b ∧ ¬ b.Resting 1 ∧
    b.Step (.submit 1 100005 20 true) b' ∧ b'.getQuantity 1 = .ok 10 ∧ ¬ b.Rejects 1 100005 20 true := by
  obtain ⟨b₀, b, b', h₀, hrun, _, hrest, _, _, hstep, hqty⟩ := twoAsks_run
  refine ⟨b₀, b, b', h₀, hrun, hrest, hstep, hqty, ?_⟩
  rintro ⟨fuel, _, _, b'', _, e, htrace⟩
  obtain rfl : b' = b'' := Step.unique hstep ⟨fuel, e⟩
  have hzero := htrace.quantity
  rw [hqty] at hzero
  exact absurd (Except.ok.inj hzero) (by decide)

/-- A bid that the ask fills leaves no trace. -/
theorem rejects_iff_filled : ∃ b₀ b, new.init 2 = .ok b₀ ∧ Run Step b₀ twoAsks b ∧ b.Rejects 1 100005 4 true := by
  obtain ⟨b₀, b, _, h₀, hrun, hs, hrest, hnull, hreach, _⟩ := twoAsks_run
  have hiff := (rejects_iff h₀ twoAsks b hrun (show MAX_PRICES ≤ 100005 by decide) (show 1 < 2 by decide) hrest 4).1
    fun _ : true = true => hs.chained false
  exact ⟨b₀, b, h₀, hrun, hiff.2 ⟨hnull, Or.inl hreach⟩⟩

end FastBitsetOrderBook

end Lobook
