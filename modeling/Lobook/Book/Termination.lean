import Lobook.Book.Rejection

/-!
# When a submission returns

`match` follows the `next` links of a level and reuses them for the free list.  As long as the links thread the pool,
every round of the inner loop leaves one order less in its level (`submit_returns_run`).  But a cancellation of an id
that the map sends to a slot that is not its own can free a slot twice.  Then a level may begin with a slot that is its
own successor and also the first free one; to fill its order changes no link any more, and `match` never returns
(`fillLevel_spins`).
-/

namespace Lobook

open Checked Transition

namespace Ladder

/-- The calls of a caller who submits new ids below `n` at prices within the ladder, and cancels any id. -/
def Admits (b : Ladder) (n : Nat) : Call → Prop
  | .submit id price _ _ => id < n ∧ ¬ b.Resting id ∧ price < MAX_PRICES
  | .cancel _ => True

/-- The level begins with slot `i`, which leads to itself and is the first free slot. -/
structure Spins (b : Ladder) (s : Bool) (p i : Nat) : Prop where
  head : (b.level s p).head = i
  next : (b.order i).next = i
  free : b.nextFreeOrderIdx = i
  ne_null : i ≠ NULL_IDX
  lt : i < b.orders.size
  id : (b.order i).id < b.idMap.size

variable {b : Ladder} {s : Bool} {p i qty : Nat}

/-- Filling the order takes its slot out of the level and puts it back. -/
theorem Spins.popped (h : b.Spins s p i) : (b.popped s p).Spins s p i ∧ ((b.popped s p).order i).qty = 0 := by
  have horder : (b.popped s p).order i = { b.order i with qty := 0, next := i } := by
    rw [order_popped_self h.head, h.free]
  have hlevel : ((b.popped s p).level s p).head = i := by
    simp only [Ladder.popped, level_withFree, level_withLevel, h.head, h.next, and_self, if_true]
  refine ⟨⟨hlevel, ?_, h.head, h.ne_null, h.lt, ?_⟩, ?_⟩
  · rw [horder]
  · rw [horder]
    exact h.id
  · rw [horder]

/-- The inner loop never returns from such a level, if there is more to fill than its first order. -/
theorem fillLevel_spins (h : b.Spins s p i) (hp : p < MAX_PRICES) (hqty : (b.order i).qty < qty) (fuel : Nat) :
    b.fillLevel fuel s p qty = .error .outOfFuel := by
  have hloop : Sat (· = .outOfFuel) (b.fillLevel fuel s p qty) fun _ => False := by
    have hstart : (b, qty).1.Spins s p i ∧ ((b, qty).1.order i).qty < (b, qty).2 := ⟨h, hqty⟩
    refine Sat.loop (I := fun r => r.1.Spins s p i ∧ (r.1.order i).qty < r.2) (by rfl) (fun r hr => ?_) fuel hstart
    obtain ⟨b₁, qty₁⟩ := r
    obtain ⟨h₁, hlt⟩ := hr
    have hround := fillRound_full hp (h₁.head ▸ h₁.ne_null) (h₁.head ▸ h₁.lt) (h₁.head ▸ h₁.id)
      (Nat.zero_lt_of_lt hlt) (h₁.head ▸ Nat.le_of_lt hlt)
    refine Sat.ok_of hround ⟨h₁.popped.1, ?_⟩
    rw [h₁.popped.2, h₁.head]
    exact Nat.sub_pos_of_lt hlt
  cases hfill : b.fillLevel fuel s p qty with
  | error e => rw [hloop.of_error hfill]
  | ok r => exact (hloop.of_ok hfill).elim

end Ladder

namespace FastBitsetOrderBook

variable {b : FastBitsetOrderBook} {isBuy : Bool} {id p i price qty n : Nat}

/-- If the best level is such a level, a submission never returns. -/
theorem Indexed.submit_spins (hi : b.Indexed) (h : b.Spins (!isBuy) p i) (hp : p < MAX_PRICES)
    (hbest : ∀ q ∈ b.occupied (!isBuy), ¬ Better isBuy q p) (hc : Crosses isBuy price p)
    (hqty : (b.order i).qty < qty) (id : Nat) : ¬ ∃ b', b.Step (.submit id price qty isBuy) b' := by
  rintro ⟨b', fuel, e⟩
  obtain ⟨r, hmatch, _⟩ := bind_eq_ok.1 e
  have hocc : p ∈ b.occupied (!isBuy) := ⟨hp, h.head ▸ h.ne_null⟩
  cases fuel with
  | zero => cases hmatch
  | succ fuel =>
    rcases hi.tracks.matchRound isBuy price qty (fuel + 1) with ⟨_, hend⟩ | ⟨m, _, hm, hbest', _, hround⟩
    · rcases hend with rfl | hend
      · exact absurd hqty (Nat.not_lt_zero _)
      · exact hend p hocc hc
    · obtain rfl : m = p := better_total (hbest m hm) (hbest' p hocc)
      rw [Ladder.fillLevel_spins h hp hqty] at hround
      rcases hround with ⟨_, _, hround⟩ | ⟨_, _, _, hfill, _⟩
      · rw [FastBitsetOrderBook.matchOrder, loop, hround, error_bind] at hmatch
        cases hmatch
      · cases hfill

/-! ### Runs -/

/-- Along every run that cancels only unknown ids, and orders that rest and are not taken out of their level through a
stale back link, every submission returns. -/
theorem submit_returns_run {b₀ : FastBitsetOrderBook} (hinit : new.init n = .ok b₀) (cs : List Call)
    (b : FastBitsetOrderBook) (hrun : Run (Guarded (Sound n) Step) b₀ cs b) (id price qty : Nat) (isBuy : Bool)
    (hadmits : b.Admits n (.submit id price qty isBuy)) : ∃ b', b.Step (.submit id price qty isBuy) b' := by
  have hstocked : Stocked n b := hrun.invariant (I := Stocked n) (stocked_init hinit).1
    fun _ _ _ h hstep => h.step hstep.1 hstep.2
  have hlegal : Legal n b (.call (.submit id price qty isBuy)) := hadmits
  obtain ⟨b', _, _, hstep, _⟩ := hstocked.request hlegal trivial
  exact ⟨b', hstep⟩

/-! ### A slot that is freed twice -/

/-- The prices from the lowest to the highest mark of a side. -/
def marked (b : FastBitsetOrderBook) (s : Bool) : List Nat :=
  match (b.index s).findLowest, (b.index s).findHighest with
  | .ok (some lo), .ok (some hi) => List.range' lo (hi + 1 - lo)
  | _, _ => []

theorem Indexed.mem_marked (hi : b.Indexed) {s : Bool} (hp : p ∈ b.occupied s) : p ∈ b.marked s := by
  rcases (hi s).findLowest with ⟨_, hS⟩ | ⟨lo, elo, hlo⟩
  · exact absurd (hS ▸ hp) (Set.notMem_empty p)
  rcases (hi s).findHighest with ⟨_, hS⟩ | ⟨top, etop, htop⟩
  · exact absurd (hS ▸ hp) (Set.notMem_empty p)
  have hle : lo ≤ p ∧ p ≤ top := ⟨hlo.2 hp, htop.2 hp⟩
  simp only [marked, elo, etop, List.mem_range'_1]
  omega

/-- An id that no order at a marked price has does not rest. -/
theorem Indexed.not_resting (hi : b.Indexed) (h : ∀ s, ∀ p ∈ b.marked s, ∀ i ∈ b.queue s p, (b.order i).id ≠ id) :
    ¬ b.Resting id := by
  rintro ⟨s, p, hp, i, hmem, hid⟩
  have hhead : (b.level s p).head ≠ NULL_IDX := by
    intro hnull
    rw [Ladder.queue, hnull] at hmem
    cases hsize : b.orders.size <;> simp [hsize, Links.walk] at hmem
  exact h s p (hi.mem_marked ⟨hp, hhead⟩) i hmem hid

/-- The first cancellation frees slot 0, which is free already.  So the two asks get the same slot, and the two other
cancellations free it twice. -/
def twiceFreed : List Call := [.cancel 0, .submit 0 5 1 false, .submit 1 6 1 false, .cancel 0, .cancel 1]

private theorem twiceFreed_steps : ∃ b₀ b₁ b₂ b₃ b₄ b₅, new.init 2 = .ok b₀ ∧ b₀.Step (.cancel 0) b₁ ∧
    b₁.Step (.submit 0 5 1 false) b₂ ∧ b₂.Step (.submit 1 6 1 false) b₃ ∧ b₃.Step (.cancel 0) b₄ ∧
    b₄.Step (.cancel 1) b₅ ∧ (∀ s, ∀ p ∈ b₁.marked s, ∀ i ∈ b₁.queue s p, (b₁.order i).id ≠ 0) ∧
    (∀ s, ∀ p ∈ b₂.marked s, ∀ i ∈ b₂.queue s p, (b₂.order i).id ≠ 1) ∧
    (∀ s, ∀ p ∈ b₅.marked s, ∀ i ∈ b₅.queue s p, (b₅.order i).id ≠ 0) ∧ (∀ p ∈ b₅.marked false, p = 5) ∧
    (b₅.level false 5).head = 0 ∧ (b₅.order 0).next = 0 ∧ b₅.nextFreeOrderIdx = 0 ∧ 0 < b₅.orders.size ∧
    (b₅.order 0).id < b₅.idMap.size ∧ (b₅.order 0).qty < 2 := by
  have hok : (new.init 2 >>= fun b₀ => b₀.exec 10 (.cancel 0) >>= fun b₁ => b₁.exec 10 (.submit 0 5 1 false) >>= fun b₂ =>
      b₂.exec 10 (.submit 1 6 1 false) >>= fun b₃ => b₃.exec 10 (.cancel 0) >>= fun b₄ =>
      b₄.exec 10 (.cancel 1) >>= fun b₅ => pure (b₀, b₁, b₂, b₃, b₄, b₅)).isOk = true := by
    decide +kernel
  obtain ⟨b₀, h₀, h⟩ := bind_eq_ok.1 (eq_ok_value (new, new, new, new, new, new) hok)
  obtain ⟨b₁, h₁, h⟩ := bind_eq_ok.1 h
  obtain ⟨b₂, h₂, h⟩ := bind_eq_ok.1 h
  obtain ⟨b₃, h₃, h⟩ := bind_eq_ok.1 h
  obtain ⟨b₄, h₄, h⟩ := bind_eq_ok.1 h
  obtain ⟨b₅, h₅, h⟩ := bind_eq_ok.1 h
  have hb := Except.ok.inj h
  refine ⟨b₀, b₁, b₂, b₃, b₄, b₅, h₀, ⟨10, h₁⟩, ⟨10, h₂⟩, ⟨10, h₃⟩, ⟨10, h₄⟩, ⟨10, h₅⟩, ?_⟩
  rw [show b₁ = _ from congrArg (fun t => t.2.1) hb, show b₂ = _ from congrArg (fun t => t.2.2.1) hb,
    show b₅ = _ from congrArg (fun t => t.2.2.2.2.2) hb]
  refine ⟨?_, ?_, ?_, ?_, ?_, ?_, ?_, ?_, ?_, ?_⟩
  all_goals decide +kernel

/-- After these calls, a bid for more than the ask at 5 never returns. -/
theorem twiceFreed_never_returns : ∃ b₀ b, new.init 2 = .ok b₀ ∧
    Run (Guarded (fun b c => b.Admits 2 c) Step) b₀ twiceFreed b ∧ b.Admits 2 (.submit 0 5 2 true) ∧
    ¬ ∃ b', b.Step (.submit 0 5 2 true) b' := by
  obtain ⟨b₀, b₁, b₂, b₃, b₄, b, h₀, h₁, h₂, h₃, h₄, h₅, hnew₁, hnew₂, hnew, honly, hhead, hnext, hfree, hlt, hid, hqty⟩ :=
    twiceFreed_steps
  have hs₁ : Sane 2 b₁ := (sane_init h₀).step h₁
  have hs₂ : Sane 2 b₂ := hs₁.step h₂
  have hs : Sane 2 b := ((hs₂.step h₃).step h₄).step h₅
  have hrun : Run (Guarded (fun b c => b.Admits 2 c) Step) b₀ twiceFreed b :=
    ((((Run.single ⟨trivial, h₁⟩).snoc ⟨⟨by decide, hs₁.indexed.not_resting hnew₁, by decide⟩, h₂⟩).snoc
      ⟨⟨by decide, hs₂.indexed.not_resting hnew₂, by decide⟩, h₃⟩).snoc ⟨trivial, h₄⟩).snoc ⟨trivial, h₅⟩
  refine ⟨b₀, b, h₀, hrun, ⟨by decide, hs.indexed.not_resting hnew, by decide⟩, ?_⟩
  have hspins : b.Spins (!true) 5 0 := ⟨hhead, hnext, hfree, by decide, hlt, hid⟩
  refine hs.indexed.submit_spins hspins (by decide) (fun q hq => ?_) (by decide) hqty 0
  rw [honly q (hs.indexed.mem_marked hq)]
  exact better_irrefl

/-- A bid meets an ask. -/
theorem submit_returns_run_bid : ∃ b₀ b b', new.init 2 = .ok b₀ ∧ b₀.Step (.submit 0 5 10 false) b ∧
    b.Step (.submit 1 7 4 true) b' := by
  have hok : (new.init 2 >>= fun b₀ => b₀.exec 10 (.submit 0 5 10 false) >>= fun b => pure (b₀, b)).isOk = true := by
    decide +kernel
  obtain ⟨b₀, h₀, h⟩ := bind_eq_ok.1 (eq_ok_value (new, new) hok)
  obtain ⟨b, h₁, h⟩ := bind_eq_ok.1 h
  have hnew : ∀ s, ∀ p ∈ b.marked s, ∀ i ∈ b.queue s p, (b.order i).id ≠ 1 := by
    rw [(Prod.mk.inj (Except.ok.inj h)).2]
    decide +kernel
  have hstep : b₀.Step (.submit 0 5 10 false) b := ⟨10, h₁⟩
  have hrun : Run (Guarded (Sound 2) Step) b₀ [.submit 0 5 10 false] b :=
    Run.single ⟨⟨by decide, (stocked_init h₀).2 0, by decide⟩, hstep⟩
  have hi : b.Indexed := ((sane_init h₀).step hstep).indexed
  obtain ⟨b', hstep'⟩ := submit_returns_run h₀ _ b hrun 1 7 4 true ⟨by decide, hi.not_resting hnew, by decide⟩
  exact ⟨b₀, b, b', h₀, hstep, hstep'⟩

end FastBitsetOrderBook

end Lobook
