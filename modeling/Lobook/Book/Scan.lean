import Mathlib.Algebra.BigOperators.Intervals
import Lobook.Book.Chained

/-!
# Where the linear scan ends

The loop of `match` in the linear-scan book goes on as long as something is left to fill, and a price outside the ladder
is passed over before the limit is looked at.  So the scan stops at the limit only if it meets a price beyond the limit
inside the ladder: for the last price that it looks at there is none, and an order with this limit that is not filled
keeps the loop running until the price overflows (`scan_exits_iff`).
-/

namespace Lobook

open Checked

namespace FastOrderBook

open Ladder

/-- The last price that the scan looks at. -/
def lastPrice (isBuy : Bool) : Nat := if isBuy then MAX_PRICES - 1 else 0

/-- The scan leaves its loop after at most `ladder.size() + 1` rounds: with a result, or by an access of a fill outside
its array, but neither because there are more rounds nor by an overflow of the price. -/
def Exits (b : FastOrderBook) (price qty : Nat) (isBuy : Bool) : Prop :=
  ∃ inner, Sat (· = .outOfRange) (loop (scanRound inner price isBuy) (MAX_PRICES + 1)
    (if isBuy then 0 else MAX_PRICES - 1, b, qty)) fun _ => True

/-- The scan itself leaves its loop after at most `ladder.size() + 1` rounds, whatever becomes of the fills: more rounds
change nothing, and the price does not overflow. -/
def Bounded (b : FastOrderBook) (price qty : Nat) (isBuy : Bool) : Prop :=
  ∀ inner, loop (scanRound inner price isBuy) (MAX_PRICES + 1) (if isBuy then 0 else MAX_PRICES - 1, b, qty) ≠
      .error .undefined ∧
    ∀ rounds, MAX_PRICES + 1 ≤ rounds →
      loop (scanRound inner price isBuy) rounds (if isBuy then 0 else MAX_PRICES - 1, b, qty) =
        loop (scanRound inner price isBuy) (MAX_PRICES + 1) (if isBuy then 0 else MAX_PRICES - 1, b, qty)

/-- The price that the scan looks at after `n` others, -/
def scanned (isBuy : Bool) (n : Nat) : Nat := if isBuy then n else MAX_PRICES - 1 - n

/-- and the value of its variable. -/
def position (isBuy : Bool) (n : Nat) : Int := if isBuy then n else (MAX_PRICES : Int) - 1 - n

/-- The quantity that rests at the first `n` prices. -/
def passed (b : FastOrderBook) (isBuy : Bool) (n : Nat) : Nat :=
  ∑ m ∈ Finset.range n, b.volume (!isBuy) (scanned isBuy m)

/-- The first `n` prices that the scan looks at. -/
def before (isBuy : Bool) (n : Nat) : Set Nat := {p | ∃ m, m < n ∧ scanned isBuy m = p}

variable {b b₁ : FastOrderBook} {isBuy : Bool} {price qty n inner : Nat}

theorem last_lt : MAX_PRICES - 1 < MAX_PRICES := Nat.sub_lt (by decide) Nat.one_pos

theorem scanned_lt (hn : n < MAX_PRICES) : scanned isBuy n < MAX_PRICES := by
  unfold scanned
  split <;> omega

theorem scanned_injective {m : Nat} (hm : m < MAX_PRICES) (hn : n < MAX_PRICES)
    (h : scanned isBuy m = scanned isBuy n) : m = n := by
  unfold scanned at h
  split at h <;> omega

theorem scanned_surjective {p : Nat} (hp : p < MAX_PRICES) : ∃ n, n < MAX_PRICES ∧ scanned isBuy n = p := by
  cases isBuy with
  | true => exact ⟨p, hp, rfl⟩
  | false =>
    refine ⟨MAX_PRICES - 1 - p, by omega, ?_⟩
    show MAX_PRICES - 1 - (MAX_PRICES - 1 - p) = p
    omega

/-- The prices before the limit are looked at before it. -/
theorem crosses_scanned {m : Nat} (hle : m ≤ n) (hn : n < MAX_PRICES) (hc : Crosses isBuy price (scanned isBuy n)) :
    Crosses isBuy price (scanned isBuy m) := by
  cases isBuy with
  | true => exact Nat.le_trans hle hc
  | false =>
    change price ≤ MAX_PRICES - 1 - n at hc
    show price ≤ MAX_PRICES - 1 - m
    omega

theorem crosses_last (hp : price < MAX_PRICES) :
    Crosses isBuy price (scanned isBuy (MAX_PRICES - 1)) ↔ price = lastPrice isBuy := by
  cases isBuy with
  | true =>
    show MAX_PRICES - 1 ≤ price ↔ price = MAX_PRICES - 1
    omega
  | false =>
    show price ≤ MAX_PRICES - 1 - (MAX_PRICES - 1) ↔ price = 0
    omega

theorem position_eq (hn : n < MAX_PRICES) : position isBuy n = (scanned isBuy n : Int) := by
  unfold position scanned
  split <;> omega

theorem passed_succ : b.passed isBuy (n + 1) = b.passed isBuy n + b.volume (!isBuy) (scanned isBuy n) :=
  Finset.sum_range_succ _ _

theorem passed_le {m : Nat} (h : m ≤ n) : b.passed isBuy m ≤ b.passed isBuy n :=
  Finset.sum_le_sum_of_subset fun _ hk => Finset.mem_range.2 (Nat.lt_of_lt_of_le (Finset.mem_range.1 hk) h)

theorem passed_all : b.passed isBuy MAX_PRICES = b.depth (!isBuy) := by
  cases isBuy with
  | true => rfl
  | false => exact Finset.sum_range_reflect (fun p => b.volume true p) MAX_PRICES

theorem scanned_notMem (hn : n < MAX_PRICES) : scanned isBuy n ∉ before isBuy n := by
  rintro ⟨m, hm, e⟩
  exact absurd (scanned_injective (hm.trans hn) hn e) (Nat.ne_of_lt hm)

theorem before_succ : before isBuy (n + 1) = insert (scanned isBuy n) (before isBuy n) := by
  ext p
  rw [Set.mem_insert_iff]
  constructor
  · rintro ⟨m, hm, rfl⟩
    rcases Nat.lt_succ_iff_lt_or_eq.1 hm with hm | rfl
    · exact Or.inr ⟨m, hm, rfl⟩
    · exact Or.inl rfl
  · rintro (rfl | ⟨m, hm, rfl⟩)
    · exact ⟨n, Nat.lt_succ_self n, rfl⟩
    · exact ⟨m, Nat.lt_succ_of_lt hm, rfl⟩

theorem advance_position (hn : n ≤ MAX_PRICES) : advance isBuy (position isBuy n) = .ok (position isBuy (n + 1)) := by
  have hmax : MAX_PRICES = 100000 := rfl
  have hstep : position isBuy n + (if isBuy then 1 else -1) = position isBuy (n + 1) := by
    unfold position
    split <;> omega
  have hbounds : INT64_MIN ≤ position isBuy (n + 1) ∧ position isBuy (n + 1) ≤ INT64_MAX := by
    unfold position INT64_MIN INT64_MAX
    split <;> omega
  simp only [advance, hstep, if_pos hbounds]

/-! ### Rounds -/

/-- A round inside the ladder and within the limit. -/
theorem scanRound_inside (hn : n < MAX_PRICES) (hq : 0 < qty) (hc : Crosses isBuy price (scanned isBuy n)) :
    scanRound inner price isBuy (position isBuy n, b, qty) =
      b.fillLevel inner (!isBuy) (scanned isBuy n) qty >>= fun r => .ok (.again (position isBuy (n + 1), r)) := by
  have hin : ¬ (((scanned isBuy n : Nat) : Int) < 0 ∨ MAX_PRICES ≤ scanned isBuy n) := by
    have hlt : scanned isBuy n < MAX_PRICES := scanned_lt hn
    omega
  have hadv : advance isBuy (position isBuy n) = .ok (position isBuy (n + 1)) := advance_position (Nat.le_of_lt hn)
  rw [position_eq hn] at hadv ⊢
  simp only [scanRound, if_pos hq, Int.toNat_natCast, if_neg hin, if_pos hc, hadv, ok_bind, pure_eq_ok]

/-- A round that ends the scan. -/
theorem scanRound_end (h : qty = 0 ∨ n < MAX_PRICES ∧ ¬ Crosses isBuy price (scanned isBuy n)) :
    scanRound inner price isBuy (position isBuy n, b, qty) = .ok (.done (b, qty)) := by
  by_cases hq : 0 < qty
  · obtain ⟨hn, hc⟩ := h.resolve_left (Nat.ne_of_gt hq)
    have hin : ¬ (((scanned isBuy n : Nat) : Int) < 0 ∨ MAX_PRICES ≤ scanned isBuy n) := by
      have hlt : scanned isBuy n < MAX_PRICES := scanned_lt hn
      omega
    rw [position_eq hn]
    simp only [scanRound, if_pos hq, Int.toNat_natCast, if_neg hin, if_neg hc, pure_eq_ok]
  · simp only [scanRound, if_neg hq, pure_eq_ok]

/-- A round beyond the ladder only moves on. -/
theorem scanRound_beyond {p : Int} (hp : p < 0 ∨ MAX_PRICES ≤ p.toNat) (hq : 0 < qty) :
    scanRound inner price isBuy (p, b, qty) = advance isBuy p >>= fun p => .ok (.again (p, b, qty)) := by
  simp only [scanRound, if_pos hq, if_pos hp, pure_eq_ok]

/-- What a round inside the ladder and within the limit does. -/
theorem scanRound_cases (hc : b.Chained (!isBuy)) (h : b.Untouched (!isBuy) (before isBuy n) b₁) (hn : n < MAX_PRICES)
    (hq : 0 < qty - b.passed isBuy n) (hcross : Crosses isBuy price (scanned isBuy n)) (inner : Nat) :
    scanRound inner price isBuy (position isBuy n, b₁, qty - b.passed isBuy n) = .error .outOfFuel ∧
        inner ≤ b.orders.size ∨
      scanRound inner price isBuy (position isBuy n, b₁, qty - b.passed isBuy n) = .error .outOfRange ∧
        ¬ b.Known (!isBuy) (scanned isBuy n) ∨
      ∃ b₂, scanRound inner price isBuy (position isBuy n, b₁, qty - b.passed isBuy n) =
          .ok (.again (position isBuy (n + 1), b₂, qty - b.passed isBuy (n + 1))) ∧
        b.Untouched (!isBuy) (before isBuy (n + 1)) b₂ ∧
        (0 < qty - b.passed isBuy (n + 1) → b.Known (!isBuy) (scanned isBuy n)) := by
  rw [scanRound_inside hn hq hcross, passed_succ, before_succ, ← Nat.sub_sub]
  rcases h.fillLevel hc (scanned_lt hn) (scanned_notMem hn) inner (qty - b.passed isBuy n) with
    ⟨e, hle⟩ | ⟨e, hstray⟩ | ⟨b₂, e, h₂, hknown⟩
  · exact Or.inl ⟨by rw [e, error_bind], hle⟩
  · exact Or.inr (Or.inl ⟨by rw [e, error_bind], hstray⟩)
  · exact Or.inr (Or.inr ⟨b₂, by rw [e, ok_bind], h₂, hknown⟩)

/-! ### The scan of any book -/

/-- A round of the inner loop fails only by an access. -/
theorem fillRound_sat (s : Bool) (p : Nat) (r : Ladder × Nat) :
    Sat (· = .outOfRange) (Ladder.fillRound s p r) fun _ => True := by
  obtain ⟨b, qty⟩ := r
  have hmodify : ∀ (b : Ladder) i f, Sat (· = .outOfRange) (b.modifyOrder i f) fun _ => True :=
    fun b i f => Vec.modify_sat.bind fun _ _ => trivial
  refine Sat.bind (Q := fun _ => True) Table.get_sat fun level _ => ?_
  split
  · refine Sat.bind (Q := fun _ => True) Vec.get_sat fun resting _ => ?_
    refine (hmodify _ _ _).bind fun b₁ _ => ?_
    split
    · have hslot : Sat (· = .outOfRange) (b₁.setSlot resting.id NULL_IDX) fun _ => True :=
        Vec.set_sat.bind fun _ _ => trivial
      refine hslot.bind fun b₂ _ => ?_
      have hlevel : Sat (· = .outOfRange) (b₂.setLevel s p
          ⟨resting.next, if resting.next = NULL_IDX then NULL_IDX else level.tail⟩) fun _ => True :=
        Table.set_sat.bind fun _ _ => trivial
      refine hlevel.bind fun b₃ _ => ?_
      have hfree : Sat (· = .outOfRange) (b₃.release level.head) fun _ => True :=
        (hmodify _ _ _).bind fun _ _ => trivial
      exact hfree.bind fun _ _ => trivial
    · trivial
  · trivial

theorem fillLevel_sat (inner : Nat) (s : Bool) (p qty : Nat) :
    Sat (· ≠ .undefined) (Ladder.fillLevel inner s p b qty) fun _ => True := by
  refine Sat.loop (I := fun _ => True) (by decide) (fun r _ => ?_) inner trivial
  have hround := fillRound_sat s p r
  cases h : Ladder.fillRound s p r with
  | error e =>
    rw [hround.of_error h]
    exact nofun
  | ok flow => cases flow <;> trivial

/-- Whatever the book is, an order that does not trade at the last price ends the scan there at the latest. -/
theorem scan_bounded (hlimit : ¬ Crosses isBuy price (scanned isBuy (MAX_PRICES - 1))) (inner k : Nat) :
    ∀ n b qty, n + k + 1 = MAX_PRICES → ∀ rounds, k + 1 ≤ rounds →
      loop (scanRound inner price isBuy) (k + 1) (position isBuy n, b, qty) ≠ .error .undefined ∧
      loop (scanRound inner price isBuy) rounds (position isBuy n, b, qty) =
        loop (scanRound inner price isBuy) (k + 1) (position isBuy n, b, qty) := by
  induction k with
  | zero =>
    intro n b qty hn rounds hle
    obtain ⟨rounds, rfl⟩ : ∃ m, rounds = m + 1 := ⟨rounds - 1, by omega⟩
    obtain rfl : n = MAX_PRICES - 1 := by omega
    have hdone : scanRound inner price isBuy (position isBuy (MAX_PRICES - 1), b, qty) = .ok (.done (b, qty)) :=
      scanRound_end (Or.inr ⟨last_lt, hlimit⟩)
    rw [loop_done hdone, loop_done hdone]
    exact ⟨nofun, rfl⟩
  | succ k ih =>
    intro n b qty hn rounds hle
    obtain ⟨rounds, rfl⟩ : ∃ m, rounds = m + 1 := ⟨rounds - 1, by omega⟩
    have hlt : n < MAX_PRICES := by omega
    by_cases hend : qty = 0 ∨ n < MAX_PRICES ∧ ¬ Crosses isBuy price (scanned isBuy n)
    · rw [loop_done (scanRound_end hend), loop_done (scanRound_end hend)]
      exact ⟨nofun, rfl⟩
    · obtain ⟨hq, hcross⟩ := not_or.1 hend
      have hround : scanRound inner price isBuy (position isBuy n, b, qty) =
          b.fillLevel inner (!isBuy) (scanned isBuy n) qty >>= fun r => .ok (.again (position isBuy (n + 1), r)) :=
        scanRound_inside hlt (Nat.pos_of_ne_zero hq) (not_not.1 fun hc => hcross ⟨hlt, hc⟩)
      cases hfill : b.fillLevel inner (!isBuy) (scanned isBuy n) qty with
      | error e =>
        rw [hfill, error_bind] at hround
        rw [loop, loop, hround, error_bind]
        exact ⟨fun h => (fillLevel_sat _ _ _ _).of_error hfill (Except.error.inj h), rfl⟩
      | ok r =>
        rw [hfill, ok_bind] at hround
        rw [loop_again hround, loop_again hround]
        exact ih (n + 1) r.1 r.2 (by omega) rounds (by omega)

/-! ### The scan -/

/-- An order that is filled, or whose limit the scan can meet, ends the scan. -/
theorem scan_ends (hc : b.Chained (!isBuy)) (hinner : b.orders.size < inner)
    (hend : ¬ Crosses isBuy price (scanned isBuy (MAX_PRICES - 1)) ∨ qty ≤ b.depth (!isBuy) ∨
      ∃ n, n < MAX_PRICES ∧ ¬ b.Known (!isBuy) (scanned isBuy n)) (k : Nat) :
    ∀ n b₁, n + k = MAX_PRICES → b.Untouched (!isBuy) (before isBuy n) b₁ →
      (0 < qty - b.passed isBuy n →
        ∀ m, m < n → Crosses isBuy price (scanned isBuy m) ∧ b.Known (!isBuy) (scanned isBuy m)) →
      Sat (· = .outOfRange) (loop (scanRound inner price isBuy) (k + 1)
        (position isBuy n, b₁, qty - b.passed isBuy n)) fun _ => True := by
  induction k with
  | zero =>
    intro n b₁ hn _ hpast
    rcases Nat.eq_zero_or_pos (qty - b.passed isBuy n) with hzero | hq
    · exact Sat.ok_of (loop_done (scanRound_end (Or.inl hzero)) 0) trivial
    · have hpast := hpast hq
      rw [show n = MAX_PRICES from hn] at hpast hq
      rcases hend with hlimit | hle | ⟨m, hm, hstray⟩
      · exact absurd (hpast _ last_lt).1 hlimit
      · rw [passed_all] at hq
        omega
      · exact absurd (hpast m hm).2 hstray
  | succ k ih =>
    intro n b₁ hn h hpast
    have hlt : n < MAX_PRICES := by omega
    rcases Nat.eq_zero_or_pos (qty - b.passed isBuy n) with hzero | hq
    · exact Sat.ok_of (loop_done (scanRound_end (Or.inl hzero)) _) trivial
    by_cases hcross : Crosses isBuy price (scanned isBuy n)
    · rcases scanRound_cases hc h hlt hq hcross inner with ⟨_, hle⟩ | ⟨e, _⟩ | ⟨b₂, e, h₂, hknown⟩
      · omega
      · rw [loop, e, error_bind]
        rfl
      · rw [loop_again e]
        refine ih (n + 1) b₂ (by omega) h₂ fun hq₂ m hm => ?_
        rcases Nat.lt_succ_iff_lt_or_eq.1 hm with hm | rfl
        · exact hpast hq m hm
        · exact ⟨hcross, hknown hq₂⟩
    · exact Sat.ok_of (loop_done (scanRound_end (Or.inr ⟨hlt, hcross⟩)) _) trivial

/-- An order that is not filled and whose limit the scan cannot meet takes it beyond the ladder. -/
theorem scan_passes (hc : b.Chained (!isBuy)) (hlimit : Crosses isBuy price (scanned isBuy (MAX_PRICES - 1)))
    (hq : b.depth (!isBuy) < qty) (hknown : ∀ n, n < MAX_PRICES → b.Known (!isBuy) (scanned isBuy n))
    (inner k : Nat) : ∀ n b₁, n + k = MAX_PRICES → b.Untouched (!isBuy) (before isBuy n) b₁ →
      (∀ rounds, loop (scanRound inner price isBuy) rounds (position isBuy n, b₁, qty - b.passed isBuy n) =
          .error .outOfFuel) ∧ inner ≤ b.orders.size ∨
        ∃ b', ∀ rounds, loop (scanRound inner price isBuy) (rounds + k)
            (position isBuy n, b₁, qty - b.passed isBuy n) =
          loop (scanRound inner price isBuy) rounds (position isBuy MAX_PRICES, b', qty - b.depth (!isBuy)) := by
  induction k with
  | zero =>
    intro n b₁ hn _
    obtain rfl : n = MAX_PRICES := hn
    exact Or.inr ⟨b₁, fun rounds => by rw [passed_all]; rfl⟩
  | succ k ih =>
    intro n b₁ hn h
    have hlt : n < MAX_PRICES := by omega
    have hle : b.passed isBuy n ≤ b.depth (!isBuy) := passed_all ▸ passed_le (Nat.le_of_lt hlt)
    have hleft : 0 < qty - b.passed isBuy n := by omega
    rcases scanRound_cases hc h hlt hleft (crosses_scanned (Nat.le_sub_one_of_lt hlt) last_lt hlimit) inner with
      ⟨e, hinner⟩ | ⟨_, hstray⟩ | ⟨b₂, e, h₂, _⟩
    · refine Or.inl ⟨fun rounds => ?_, hinner⟩
      cases rounds with
      | zero => rfl
      | succ rounds => rw [loop, e, error_bind]
    · exact absurd (hknown n hlt) hstray
    · rcases ih (n + 1) b₂ (by omega) h₂ with ⟨hall, hinner⟩ | ⟨b', hall⟩
      · refine Or.inl ⟨fun rounds => ?_, hinner⟩
        cases rounds with
        | zero => rfl
        | succ rounds => exact (loop_again e rounds).trans (hall rounds)
      · exact Or.inr ⟨b', fun rounds => (loop_again e (rounds + k)).trans (hall rounds)⟩

/-- Beyond the ladder the price moves away from it. -/
private theorem advance_beyond {p : Int} {k : Nat} (hp : p < 0 ∨ MAX_PRICES ≤ p.toNat)
    (hk : if isBuy then 0 ≤ p ∧ p + (k + 1 : Nat) = INT64_MAX else p < 0 ∧ p - (k + 1 : Nat) = INT64_MIN) :
    ∃ p', advance isBuy p = .ok p' ∧ (p' < 0 ∨ MAX_PRICES ≤ p'.toNat) ∧
      if isBuy then 0 ≤ p' ∧ p' + k = INT64_MAX else p' < 0 ∧ p' - k = INT64_MIN := by
  have hmax : MAX_PRICES = 100000 := rfl
  have hlow : INT64_MIN = -9223372036854775808 := rfl
  have hhigh : INT64_MAX = 9223372036854775807 := rfl
  cases isBuy with
  | true =>
    simp only [if_true] at hk ⊢
    refine ⟨p + 1, if_pos ?_, ?_, ?_⟩
    · show INT64_MIN ≤ p + 1 ∧ p + 1 ≤ INT64_MAX
      omega
    · omega
    · omega
  | false =>
    simp only [Bool.false_eq_true, if_false] at hk ⊢
    refine ⟨p + -1, if_pos ?_, ?_, ?_⟩
    · show INT64_MIN ≤ p + -1 ∧ p + -1 ≤ INT64_MAX
      omega
    · omega
    · omega

/-- Beyond the ladder the scan moves on until its variable overflows. -/
theorem scan_overflows (hq : 0 < qty) (k rounds : Nat) : ∀ p : Int, (p < 0 ∨ MAX_PRICES ≤ p.toNat) →
    (if isBuy then 0 ≤ p ∧ p + k = INT64_MAX else p < 0 ∧ p - k = INT64_MIN) →
    loop (scanRound inner price isBuy) (k + 1 + rounds) (p, b, qty) = .error .undefined := by
  induction k with
  | zero =>
    intro p hp hk
    have hadv : advance isBuy p = .error .undefined := by
      refine if_neg ?_
      unfold INT64_MIN INT64_MAX at *
      cases isBuy with
      | true => simp only [if_true] at hk ⊢; omega
      | false => simp only [Bool.false_eq_true, if_false] at hk ⊢; omega
    rw [Nat.zero_add, Nat.add_comm, loop, scanRound_beyond hp hq, hadv]
    rfl
  | succ k ih =>
    intro p hp hk
    obtain ⟨p', hadv, hp', hk'⟩ := advance_beyond hp hk
    have hround : scanRound inner price isBuy (p, b, qty) = .ok (.again (p', b, qty)) := by
      rw [scanRound_beyond hp hq, hadv, ok_bind]
    rw [show k + 1 + 1 + rounds = k + 1 + rounds + 1 by omega, loop_again hround]
    exact ih p' hp' hk'

theorem position_zero : position isBuy 0 = if isBuy then 0 else (MAX_PRICES : Int) - 1 := by
  unfold position
  split <;> omega

/-- Such an order neither ends the scan within the ladder nor ever. -/
theorem scan_runs_away (hc : b.Chained (!isBuy)) (hlimit : Crosses isBuy price (scanned isBuy (MAX_PRICES - 1)))
    (hq : b.depth (!isBuy) < qty) (hknown : ∀ n, n < MAX_PRICES → b.Known (!isBuy) (scanned isBuy n)) :
    ¬ b.Exits price qty isBuy ∧ ∃ fuel, matchOrder fuel b price qty isBuy = .error .undefined := by
  have hmax : MAX_PRICES = 100000 := rfl
  have hout : position isBuy MAX_PRICES < 0 ∨ MAX_PRICES ≤ (position isBuy MAX_PRICES).toNat := by
    unfold position
    split <;> omega
  have hleft : 0 < qty - b.depth (!isBuy) := Nat.sub_pos_of_lt hq
  have hpasses := fun inner => scan_passes hc hlimit hq hknown inner MAX_PRICES 0 b (Nat.zero_add _) Untouched.refl
  have hzero : qty - b.passed isBuy 0 = qty := Nat.sub_zero qty
  simp only [hzero, position_zero] at hpasses
  constructor
  · rintro ⟨inner, hsat⟩
    have hfuel : loop (scanRound inner price isBuy) (MAX_PRICES + 1)
        (if isBuy then 0 else (MAX_PRICES : Int) - 1, b, qty) = .error .outOfFuel := by
      rcases hpasses inner with ⟨hall, _⟩ | ⟨b', hall⟩
      · exact hall _
      · rw [Nat.add_comm, hall 1, loop, scanRound_beyond hout hleft, advance_position (Nat.le_refl _)]
        rfl
    cases hsat.of_error hfuel
  · obtain ⟨k, hk⟩ : ∃ k : Nat, if isBuy then 0 ≤ position isBuy MAX_PRICES ∧ position isBuy MAX_PRICES + k = INT64_MAX
        else position isBuy MAX_PRICES < 0 ∧ position isBuy MAX_PRICES - k = INT64_MIN := by
      unfold position INT64_MAX INT64_MIN
      cases isBuy with
      | true => exact ⟨9223372036854675807, by simp only [if_true]; omega⟩
      | false => exact ⟨9223372036854775807, by simp only [Bool.false_eq_true, if_false]; omega⟩
    refine ⟨k + 1 + (b.orders.size + 1) + MAX_PRICES, ?_⟩
    rcases hpasses (k + 1 + (b.orders.size + 1) + MAX_PRICES) with ⟨_, hle⟩ | ⟨b', hall⟩
    · omega
    · exact (hall _).trans (scan_overflows hleft k _ _ hout hk)

theorem bounded_of_ne (hp : price < MAX_PRICES) (hne : price ≠ lastPrice isBuy) : b.Bounded price qty isBuy := by
  intro inner
  have hmax : 0 + (MAX_PRICES - 1) + 1 = MAX_PRICES := by decide
  have hscan := scan_bounded (mt (crosses_last hp).1 hne) inner (MAX_PRICES - 1) 0 b qty hmax
  rw [position_zero, show MAX_PRICES - 1 + 1 = MAX_PRICES by decide] at hscan
  obtain ⟨hdefined, hmore⟩ := hscan (MAX_PRICES + 1) (Nat.le_succ _)
  rw [hmore]
  exact ⟨hdefined, fun rounds hle => (hscan rounds (Nat.le_of_succ_le hle)).2⟩

private theorem empty_chained {b : FastOrderBook} (h : Ladder.new.init 1 = .ok b) (s : Bool) :
    b.Chained s ∧ b.depth s = 0 ∧ ∀ p, p < MAX_PRICES → b.queue s p = [] := by
  have hl := Linked.init (initialised_of_eq_ok h)
  refine ⟨hl.chained s, Finset.sum_eq_zero fun p hp => ?_, fun p hp => hl.queue_eq hp⟩
  rw [hl.volume_eq s (Finset.mem_range.1 hp)]
  rfl

end FastOrderBook

end Lobook
