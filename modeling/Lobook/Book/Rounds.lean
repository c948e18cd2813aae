import Lobook.Book.Amendment

/-!
# How many rounds a request takes

Each round of the outer loop of `match` empties a level or ends the matching, and the levels that are not empty hold
different slots; each round of the inner loop takes an order out of its level.  So `n + 1` rounds of each loop are enough
in a book of `n` slots, whatever the prices and the quantities (`returns_within`).
-/

namespace Lobook

open Checked Links Relation Transition

namespace Ladder

variable {b : Ladder} {Q : Bool × Nat → List Nat} {F : List Nat}

/-- There are not more levels with an order than slots. -/
theorem Linked.occupied_le (h : b.Linked Q F) (s : Bool) : (b.occupied s).ncard ≤ b.orders.size := by
  have hfirst : ∀ p ∈ b.occupied s, (b.level s p).head ∈ Q (s, p) := by
    intro p hp
    obtain ⟨i, l, hk⟩ := List.exists_cons_of_ne_nil (h.mem_occupied.1 hp)
    rw [(h.of_cons hk).1, hk]
    exact List.mem_cons_self
  have hle : (b.occupied s).ncard ≤ (Finset.range b.orders.size : Set Nat).ncard := by
    apply Set.ncard_le_ncard_of_injOn (fun p => (b.level s p).head)
    · intro p hp
      rw [Finset.mem_coe, Finset.mem_range]
      exact h.bound _ _ (hfirst p hp)
    · intro p hp q hq heq
      have hsame := hfirst q hq
      rw [← show (b.level s p).head = (b.level s q).head from heq] at hsame
      exact (Prod.mk.inj (h.threads.apart _ _ _ (hfirst p hp) hsame)).2
  rwa [Set.ncard_coe_finset, Finset.card_range] at hle

end Ladder

namespace FastBitsetOrderBook

open Ladder

variable {b b' : FastBitsetOrderBook} {Q : Bool × Nat → List Nat} {F : List Nat} {n fuel : Nat}

/-- `match` returns within `n + 1` rounds of its loops. -/
theorem matchOrder_within (hi : b.Indexed) (h : b.Linked Q F) (hfuel : b.orders.size < fuel) (limit qty : Nat)
    (isBuy : Bool) : ∃ r, b.matchOrder fuel limit qty isBuy = .ok r := by
  let μ : FastBitsetOrderBook × Nat → Nat := fun s => if s.2 = 0 then 0 else (s.1.occupied (!isBuy)).ncard
  have hrounds : μ (b, qty) < fuel := by
    have hle := h.occupied_le (!isBuy)
    simp only [μ]
    split <;> omega
  let I : FastBitsetOrderBook × Nat → Prop := fun s =>
    s.1.Indexed ∧ ReflTransGen (Trade isBuy limit) (b.toLadder, qty) (s.1.toLadder, s.2)
  have hround : ∀ s, I s → ∃ flow, FastBitsetOrderBook.matchRound fuel limit isBuy s = .ok flow ∧
      flow.Post (fun s' => I s' ∧ μ s' < μ s) fun _ => True := by
    rintro ⟨b₁, qty₁⟩ ⟨hi₁, htrades⟩
    rcases hi₁.matchRound isBuy limit qty₁ fuel with ⟨e, _⟩ | ⟨p, hq, hbest, hround⟩
    · exact ⟨_, e, trivial⟩
    · -- the level holds at most as many orders as there are slots
      obtain ⟨Q₁, F₁, h₁⟩ := h.of_trades htrades
      have hsize : b₁.orders.size = b.orders.size := (trades_size htrades).1
      have hlen : (Q₁ (!isBuy, p)).length ≤ b.orders.size :=
        hsize ▸ (h₁.meets (k := (!isBuy, p)) hbest.occupied.1).length_le (h₁.bound _)
      have hinner : (Q₁ (!isBuy, p)).length < fuel := by omega
      obtain ⟨⟨l, qty₂⟩, ef⟩ := h₁.fillLevel_total hbest.occupied.1 qty₁ hinner
      obtain ⟨b₂, e, rfl, hi₂⟩ := hround l qty₂ ef
      obtain ⟨hfill, hstop⟩ := fillLevel_filled ef
      refine ⟨_, e, ⟨hi₂, htrades.trans (fillLevel_trades hbest ef)⟩, ?_⟩
      have hless := rounds_left_lt hfill hstop hbest.occupied hq
      have hpos : 0 < (b₁.occupied (!isBuy)).ncard := by
        have hfin : (b₁.occupied (!isBuy)).Finite := (Set.finite_lt_nat MAX_PRICES).subset fun q hq => hq.1
        exact (Set.ncard_pos hfin).2 ⟨p, hbest.occupied⟩
      simp only [μ, if_neg (Nat.ne_of_gt hq)] at hless ⊢
      split
      · exact hpos
      · rename_i hmore
        rw [if_neg hmore] at hless
        omega
  obtain ⟨r, e, _⟩ := loop_within μ hround ⟨hi, ReflTransGen.refl⟩ hrounds
  exact ⟨r, e⟩

/-- A request that returns does so within `n + 1` rounds. -/
theorem Whole.within_rounds (hw : b.Whole n Q F) {r : Request} (h : b.RequestStep r b') (hfuel : n < fuel) :
    b.execRequest fuel r = .ok b' := by
  obtain ⟨fuel', e⟩ := h
  match r with
  | .call (.submit id price qty isBuy) =>
    have hsize : b.orders.size < fuel := by rwa [hw.size]
    obtain ⟨r, hr⟩ := matchOrder_within hw.indexed hw.pool.toLinked hsize price qty isBuy
    obtain ⟨r', hr', hrest⟩ := bind_eq_ok.1 e
    obtain rfl := matchOrder_unique hr hr'
    exact bind_eq_ok.2 ⟨r, hr, hrest⟩
  | .call (.cancel id) => exact e
  | .replace id newPrice newQty => exact e

/-- In every state that a run leads to, every lawful request has its result after `n + 1` rounds of each loop. -/
theorem returns_within {b₀ : FastBitsetOrderBook} (hlt : n < NULL_IDX) (hinit : new.init n = .ok b₀) (rs : List Request)
    (b : FastBitsetOrderBook) (hrun : Run (Guarded (Lawful n) RequestStep) b₀ rs b) (r : Request) (hr : Lawful n b r) :
    ∃ b', ∀ fuel, n < fuel → b.execRequest fuel r = .ok b' := by
  obtain ⟨Q₀, F₀, hw₀, _⟩ := whole_init hlt hinit
  obtain ⟨Q, F, hw, _⟩ := hw₀.run_obeys hrun
  obtain ⟨b', _, _, hstep, _⟩ := hw.request_obeys hr.1 hr.2
  exact ⟨b', fun fuel hfuel => hw.within_rounds hstep hfuel⟩

theorem returns_within_movedAsk : ∃ b', (trial 2 movedAsk).execRequest 3 (.call (.submit 1 7 5 true)) = .ok b' := by
  obtain ⟨b₀, h₀, hrun⟩ := movedAsk_run
  obtain ⟨Q, F, hw, _⟩ := (Whole.init (by decide) h₀).run_obeys hrun
  have hfree : ¬ (trial 2 movedAsk).Resting 1 := fun h => absurd (hw.pool.shows_iff.2 h) (by decide +kernel)
  obtain ⟨b', h⟩ := returns_within (by decide) h₀ _ _ hrun (.call (.submit 1 7 5 true)) ⟨⟨by decide, hfree, by decide⟩, trivial⟩
  exact ⟨b', h 3 (by decide)⟩

end FastBitsetOrderBook

end Lobook
