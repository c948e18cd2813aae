import Lobook.Book.Scan
import Lobook.Book.Lockstep

/-!
# From the jumps to the scan

Where the scan of the linear-scan book returns, so do the jumps of the bitset book (`step_simulated`).  The converse
fails for an order at the last price that the scan looks at, which may run beyond the ladder.  For every other call the
scan returns where the jumps do: between two marked prices it passes empty levels only (`step_reflected`).
-/

namespace Lobook

open Checked

namespace FastOrderBook

open Ladder

variable {b : FastOrderBook} {isBuy : Bool} {price qty inner m k : Nat}

/-- The scan looks at the prices that may trade first. -/
theorem crosses_scanned_iff (hp : price < MAX_PRICES) (hne : price ≠ lastPrice isBuy) :
    ∃ e, e < MAX_PRICES ∧ ∀ j, j < MAX_PRICES → (Crosses isBuy price (scanned isBuy j) ↔ j < e) := by
  cases isBuy with
  | true =>
    change price ≠ MAX_PRICES - 1 at hne
    refine ⟨price + 1, by omega, fun j _ => ?_⟩
    show j ≤ price ↔ j < price + 1
    omega
  | false =>
    change price ≠ 0 at hne
    refine ⟨MAX_PRICES - price, by omega, fun j _ => ?_⟩
    show price ≤ MAX_PRICES - 1 - j ↔ j < MAX_PRICES - price
    omega

/-- The scan passes empty levels. -/
theorem scan_skips (hinner : 0 < inner) (hq : 0 < qty) (hk : m + k ≤ MAX_PRICES)
    (hempty : ∀ j, m ≤ j → j < m + k → (b.level (!isBuy) (scanned isBuy j)).head = NULL_IDX)
    (hcross : ∀ j, m ≤ j → j < m + k → Crosses isBuy price (scanned isBuy j)) (rounds : Nat) :
    loop (scanRound inner price isBuy) (rounds + k) (position isBuy m, b, qty) =
      loop (scanRound inner price isBuy) rounds (position isBuy (m + k), b, qty) := by
  induction k generalizing m with
  | zero => rfl
  | succ k ih =>
    obtain ⟨inner, rfl⟩ : ∃ i, inner = i + 1 := ⟨inner - 1, by omega⟩
    have hlt : m < MAX_PRICES := by omega
    have hfill : b.fillLevel (inner + 1) (!isBuy) (scanned isBuy m) qty = .ok (b, qty) :=
      loop_done (fillRound_idle (scanned_lt hlt) (Or.inl (hempty m (Nat.le_refl m) (by omega)))) inner
    have hround : scanRound (inner + 1) price isBuy (position isBuy m, b, qty) =
        .ok (.again (position isBuy (m + 1), b, qty)) := by
      rw [scanRound_inside hlt hq (hcross m (Nat.le_refl m) (by omega)), hfill, ok_bind]
    rw [← Nat.add_assoc, loop_again hround, ih (by omega) (fun j hj hjk => hempty j (by omega) (by omega))
      fun j hj hjk => hcross j (by omega) (by omega), Nat.add_right_comm, Nat.add_assoc]

/-- The scan ends where no price may trade any more. -/
theorem scan_finishes {e : Nat} (hinner : 0 < inner) (hq : 0 < qty) (he : e < MAX_PRICES) (hm : m ≤ e)
    (hcross : ∀ j, j < MAX_PRICES → (Crosses isBuy price (scanned isBuy j) ↔ j < e))
    (hempty : ∀ j, j < e → (b.level (!isBuy) (scanned isBuy j)).head = NULL_IDX) :
    loop (scanRound inner price isBuy) (1 + (e - m)) (position isBuy m, b, qty) = .ok (b, qty) := by
  have hend : ¬ Crosses isBuy price (scanned isBuy e) := fun hc => absurd ((hcross e he).1 hc) (Nat.lt_irrefl e)
  rw [scan_skips hinner hq (by omega) (fun j _ hj => hempty j (by omega))
    (fun j _ hj => (hcross j (by omega)).2 (by omega)), Nat.add_sub_cancel' hm]
  exact loop_done (scanRound_end (Or.inr ⟨he, hend⟩)) 0

/-- The scan fills the level at the first price that is not empty. -/
theorem scan_fills {j qty₁ : Nat} {b₁ : FastOrderBook} (hinner : 0 < inner) (hq : 0 < qty) (hj : j < MAX_PRICES)
    (hm : m ≤ j) (hcross : ∀ i, i ≤ j → Crosses isBuy price (scanned isBuy i))
    (hempty : ∀ i, i < j → (b.level (!isBuy) (scanned isBuy i)).head = NULL_IDX)
    (hf : b.fillLevel inner (!isBuy) (scanned isBuy j) qty = .ok (b₁, qty₁)) (rounds : Nat) :
    loop (scanRound inner price isBuy) (rounds + 1 + (j - m)) (position isBuy m, b, qty) =
      loop (scanRound inner price isBuy) rounds (position isBuy (j + 1), b₁, qty₁) := by
  have hscan : scanRound inner price isBuy (position isBuy j, b, qty) =
      .ok (.again (position isBuy (j + 1), b₁, qty₁)) := by
    rw [scanRound_inside hj hq (hcross j (Nat.le_refl j)), hf, ok_bind]
  rw [scan_skips hinner hq (by omega) (fun i _ hi => hempty i (by omega)) (fun i _ hi => hcross i (by omega)),
    Nat.add_sub_cancel' hm, loop_again hscan]

/-- What the scan looks at first is better. -/
theorem better_scanned {j : Nat} (hlt : m < j) (hj : j < MAX_PRICES) :
    Better isBuy (scanned isBuy m) (scanned isBuy j) := by
  cases isBuy with
  | true => exact hlt
  | false =>
    show MAX_PRICES - 1 - j < MAX_PRICES - 1 - m
    omega

end FastOrderBook

namespace FastBitsetOrderBook

open Ladder FastOrderBook

variable {b b' : FastBitsetOrderBook} {isBuy : Bool} {limit price qty qty' inner fuel m e : Nat}

/-- Where the jumps return, so does the scan from a price before which all levels are empty. -/
theorem jumps_reflected (hi : b.Indexed) (hinner : 0 < inner) (he : e < MAX_PRICES) (hm : m ≤ e)
    (hcross : ∀ j, j < MAX_PRICES → (Crosses isBuy limit (scanned isBuy j) ↔ j < e))
    (hpast : ∀ j, j < m → (b.level (!isBuy) (scanned isBuy j)).head = NULL_IDX)
    (h : loop (FastBitsetOrderBook.matchRound inner limit isBuy) fuel (b, qty) = .ok (b', qty')) :
    b'.Indexed ∧ ∃ rounds, loop (scanRound inner limit isBuy) rounds (position isBuy m, b.toLadder, qty) =
      .ok (b'.toLadder, qty') := by
  induction fuel generalizing b qty m with
  | zero => cases h
  | succ fuel ih =>
    rcases hi.tracks.matchRound isBuy limit qty inner with ⟨hround, hend⟩ | ⟨p, hq, hp, hbest, hc, hround⟩
    · -- no marked price may trade: the scan passes the others
      rw [loop_done hround] at h
      obtain ⟨rfl, rfl⟩ := Prod.mk.inj (Except.ok.inj h)
      rcases Nat.eq_zero_or_pos qty with hzero | hq
      · exact ⟨hi, 1, loop_done (scanRound_end (Or.inl hzero)) 0⟩
      · have hempty : ∀ j, j < e → (b.level (!isBuy) (scanned isBuy j)).head = NULL_IDX := by
          intro j hj
          by_contra hne
          exact hend.resolve_left (Nat.ne_of_gt hq) _ ⟨scanned_lt (by omega), hne⟩ ((hcross j (by omega)).2 hj)
        exact ⟨hi, 1 + (e - m), scan_finishes hinner hq he hm hcross hempty⟩
    · -- the best marked price is the first one that the scan does not find empty
      obtain ⟨j, hj, rfl⟩ : ∃ j, j < MAX_PRICES ∧ scanned isBuy j = p := scanned_surjective hp.1
      have hje : j < e := (hcross j hj).1 hc
      have hmj : m ≤ j := Nat.le_of_not_lt fun hlt => hp.2 (hpast j hlt)
      have hempty : ∀ i, i < j → (b.level (!isBuy) (scanned isBuy i)).head = NULL_IDX := by
        intro i hi
        by_contra hne
        exact hbest _ ⟨scanned_lt (by omega), hne⟩ (better_scanned hi hj)
      rcases hround with ⟨err, _, hround⟩ | ⟨l, qty₁, b₁, hf, hround, hb₁⟩
      · rw [loop, hround, error_bind] at h
        cases h
      · have hcrossed : ∀ i, i ≤ j → Crosses isBuy limit (scanned isBuy i) := fun i hi =>
          (hcross i (by omega)).2 (by omega)
        have hscan := scan_fills hinner hq hj hmj hcrossed hempty hf
        rw [loop_again hround] at h
        have hi₁ : b₁.Indexed := (hb₁.mono fun _ _ _ hp => hp).indexed
        obtain rfl : b₁.toLadder = l := hb₁.1
        obtain ⟨hfill, hstop⟩ := fillLevel_filled hf
        by_cases hzero : qty₁ = 0
        · subst hzero
          cases fuel with
          | zero => cases h
          | succ fuel =>
            rw [loop_done matchRound_zero] at h
            cases h
            exact ⟨hi₁, 1 + 1 + (j - m), (hscan 1).trans (loop_done scanRound_zero 0)⟩
        · have hpast₁ : ∀ i, i < j + 1 → (b₁.level (!isBuy) (scanned isBuy i)).head = NULL_IDX := by
            intro i hi
            rcases Nat.lt_succ_iff_lt_or_eq.1 hi with hij | rfl
            · have hne : scanned isBuy i ≠ scanned isBuy j := fun heq =>
                Nat.ne_of_lt hij (scanned_injective (hij.trans hj) hj heq)
              rw [hfill.level _ _ fun heq => hne heq.2]
              exact hempty i hij
            · exact hstop.resolve_right hzero
          obtain ⟨hi', rounds, e'⟩ := ih hi₁ hje hpast₁ h
          exact ⟨hi', rounds + 1 + (j - m), (hscan rounds).trans e'⟩

theorem Agrees.reflected {m : Exec Ladder} {k : Exec FastBitsetOrderBook} (h : Agrees True m k) (hk : k = .ok b') :
    m = .ok b'.toLadder ∧ b'.Indexed := by
  cases m with
  | error err => cases (show k = .error err from h).symm.trans hk
  | ok l =>
    obtain ⟨b₁, e, hb₁⟩ := h
    obtain rfl : b₁ = b' := Except.ok.inj (e.symm.trans hk)
    exact ⟨congrArg _ hb₁.1.symm, hb₁.indexed⟩

/-- A call of which the scan looks at a price beyond the limit, if it is not done before. -/
def Inside : Call → Prop
  | .submit _ price _ isBuy => price < MAX_PRICES ∧ price ≠ lastPrice isBuy
  | .cancel _ => True

/-- Where a call of the bitset book returns, so does the call of the linear-scan book, with the same data, unless it is
for an order at the last price that the scan looks at. -/
theorem step_reflected {c : Call} (hi : b.Indexed) (hc : Inside c) (h : b.Step c b') :
    FastOrderBook.Step b.toLadder c b'.toLadder ∧ b'.Indexed := by
  obtain ⟨fuel, h⟩ := h
  cases c with
  | submit id price qty isBuy =>
    obtain ⟨⟨b₁, qty₁⟩, hmatch, h⟩ := bind_eq_ok.1 h
    obtain ⟨e, he, hcross⟩ := crosses_scanned_iff hc.1 hc.2
    have hfuel : 0 < fuel := by
      cases fuel with
      | zero => cases hmatch
      | succ fuel => exact Nat.succ_pos fuel
    obtain ⟨hi₁, rounds, hscan⟩ := jumps_reflected hi hfuel he (Nat.zero_le e) hcross
      (fun j hj => absurd hj (Nat.not_lt_zero j)) hmatch
    rw [position_zero] at hscan
    have hmatch' : FastOrderBook.matchOrder (max fuel rounds) b.toLadder price qty isBuy = .ok (b₁.toLadder, qty₁) :=
      FastOrderBook.matchOrder_of_loop hscan
    simp only at h
    split at h
    · rename_i hq
      obtain ⟨hadd, hi'⟩ := (agrees_addOrder hi₁.follows id price qty₁ isBuy).reflected h
      refine ⟨⟨max fuel rounds, ?_⟩, hi'⟩
      simp only [FastOrderBook.exec, FastOrderBook.submitOrder, hmatch', ok_bind, if_pos hq, hadd]
    · rename_i hq
      cases h
      refine ⟨⟨max fuel rounds, ?_⟩, hi₁⟩
      simp only [FastOrderBook.exec, FastOrderBook.submitOrder, hmatch', ok_bind, if_neg hq, pure_eq_ok]
  | cancel id =>
    obtain ⟨hcancel, hi'⟩ := (agrees_cancelOrder hi.follows id).reflected h
    exact ⟨⟨0, hcancel⟩, hi'⟩

end FastBitsetOrderBook

end Lobook
