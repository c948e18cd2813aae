import Mathlib.Data.Set.Card
import Mathlib.Logic.Relation
import Lobook.Book.Pool

/-!
# Matching as a sequence of trades

`Trade` is one trade of an incoming order with the first order of the best level of the other side, on the data of the
books.  In every state with an exact index, what `match` of the bitset book does is a sequence of trades that ends with
nothing left, or nothing within the limit (`matchOrder_trades`); in a state whose links thread the pool it returns
(`matchOrder_total`).  What every trade preserves, `match` preserves (`Linked.trades`, `Pool.trades`).
-/

namespace Lobook

open Checked Relation

namespace Ladder

/-- The best level of the side that an incoming order trades with, if it is within the limit. -/
structure Best (isBuy : Bool) (limit : Nat) (b : Ladder) (p : Nat) : Prop where
  occupied : p ∈ b.occupied (!isBuy)
  best : ∀ q ∈ b.occupied (!isBuy), ¬ Better isBuy q p
  crosses : Crosses isBuy limit p

/-- The incoming order trades with the first order of the best level. -/
inductive Trade (isBuy : Bool) (limit : Nat) : Ladder × Nat → Ladder × Nat → Prop
  | full {b : Ladder} {qty p : Nat} (hq : 0 < qty) (hbest : Best isBuy limit b p)
      (h : (b.order (b.level (!isBuy) p).head).qty ≤ qty) :
      Trade isBuy limit (b, qty) (b.popped (!isBuy) p, qty - (b.order (b.level (!isBuy) p).head).qty)
  | part {b : Ladder} {qty p : Nat} (hq : 0 < qty) (hbest : Best isBuy limit b p)
      (h : qty < (b.order (b.level (!isBuy) p).head).qty) :
      Trade isBuy limit (b, qty) (b.reduced (!isBuy) p qty, 0)

/-- Nothing is left of the incoming order, or nothing that it may trade with. -/
def Ended (isBuy : Bool) (limit : Nat) (s : Ladder × Nat) : Prop :=
  s.2 = 0 ∨ ∀ p ∈ s.1.occupied (!isBuy), ¬ Crosses isBuy limit p

variable {b b' : Ladder} {isBuy : Bool} {limit qty qty' p n id : Nat} {Q : Bool × Nat → List Nat} {F : List Nat}

/-- As long as the best level is not empty it remains the best one. -/
theorem Best.filled (h : Best isBuy limit b p) (hf : Filled (!isBuy) p b b')
    (hhead : (b'.level (!isBuy) p).head ≠ NULL_IDX) : Best isBuy limit b' p where
  occupied := ⟨h.occupied.1, hhead⟩
  best q hq := by
    by_cases hqp : q = p
    · rw [hqp]
      exact better_irrefl
    · exact h.best q ⟨hq.1, hf.level (!isBuy) q (fun e => hqp e.2) ▸ hq.2⟩
  crosses := h.crosses

/-- The inner loop of `match` trades at its level. -/
theorem fillLevel_trades {fuel : Nat} (hbest : Best isBuy limit b p)
    (h : b.fillLevel fuel (!isBuy) p qty = .ok (b', qty')) :
    ReflTransGen (Trade isBuy limit) (b, qty) (b', qty') := by
  have hloop : Sat (fun _ => True) (b.fillLevel fuel (!isBuy) p qty)
      (ReflTransGen (Trade isBuy limit) (b, qty)) := by
    refine Sat.loop (I := fun s => ReflTransGen (Trade isBuy limit) (b, qty) s ∧ Filled (!isBuy) p b s.1) trivial
      (fun s hs => ?_) fuel ⟨ReflTransGen.refl, Filled.refl⟩
    obtain ⟨b₁, qty₁⟩ := s
    obtain ⟨htrades, hf⟩ := hs
    refine sat_true_iff.2 fun flow hflow => ?_
    obtain ⟨_, ⟨_, rfl⟩ | ⟨hhead, _, hq, ⟨hlt, rfl⟩ | ⟨hle, _, rfl⟩⟩⟩ := fillRound_cases hflow
    · exact htrades
    · exact htrades.tail (Trade.part hq (hbest.filled hf hhead) hlt)
    · exact ⟨htrades.tail (Trade.full hq (hbest.filled hf hhead) hle), hf.trans (filled_popped hhead)⟩
  exact hloop.of_ok h

/-- Trading changes no length. -/
theorem trades_size (ht : ReflTransGen (Trade isBuy limit) (b, qty) (b', qty')) :
    b'.orders.size = b.orders.size ∧ b'.idMap.size = b.idMap.size := by
  generalize hs : (b', qty') = t at ht
  induction ht generalizing b' qty' with
  | refl =>
    cases hs
    exact ⟨rfl, rfl⟩
  | tail _ ht ih =>
    cases ht with
    | full =>
      cases hs
      have hsize := ih rfl
      exact hsize
    | part =>
      cases hs
      have hsize := ih rfl
      exact hsize

namespace Linked

/-! ### What every trade preserves -/

/-- What every trade preserves, and every state in between is threaded, holds after trading. -/
theorem trades {P : Ladder → (Bool × Nat → List Nat) → List Nat → Nat → Prop} (h : b.Linked Q F) (hP : P b Q F qty)
    (hfull : ∀ b Q F qty p i l, b.Linked Q F → P b Q F qty → Q (!isBuy, p) = i :: l → Best isBuy limit b p → 0 < qty →
      (b.order i).qty ≤ qty →
      P (b.popped (!isBuy) p) (Function.update Q (!isBuy, p) l) (i :: F) (qty - (b.order i).qty))
    (hpart : ∀ b Q F qty p i l, b.Linked Q F → P b Q F qty → Q (!isBuy, p) = i :: l → Best isBuy limit b p → 0 < qty →
      qty < (b.order i).qty → P (b.reduced (!isBuy) p qty) Q F 0)
    (ht : ReflTransGen (Trade isBuy limit) (b, qty) (b', qty')) : ∃ Q' F', b'.Linked Q' F' ∧ P b' Q' F' qty' := by
  generalize hs : (b', qty') = t at ht
  induction ht generalizing b' qty' with
  | refl =>
    cases hs
    exact ⟨Q, F, h, hP⟩
  | tail _ ht ih =>
    cases ht with
    | @full b₁ qty₁ p hq hbest hle =>
      cases hs
      obtain ⟨Q₁, F₁, h₁, hP₁⟩ := ih rfl
      obtain ⟨i, l, hk⟩ := List.exists_cons_of_ne_nil (h₁.mem_occupied.1 hbest.occupied)
      have hhead := (h₁.of_cons hk).1
      rw [hhead] at hle ⊢
      exact ⟨_, _, h₁.popped hk, hfull b₁ Q₁ F₁ qty₁ p i l h₁ hP₁ hk hbest hq hle⟩
    | @part b₁ qty₁ p hq hbest hlt =>
      cases hs
      obtain ⟨Q₁, F₁, h₁, hP₁⟩ := ih rfl
      obtain ⟨i, l, hk⟩ := List.exists_cons_of_ne_nil (h₁.mem_occupied.1 hbest.occupied)
      rw [(h₁.of_cons hk).1] at hlt
      exact ⟨Q₁, F₁, h₁.reduced, hpart b₁ Q₁ F₁ qty₁ p i l h₁ hP₁ hk hbest hq hlt⟩

theorem of_trades (h : b.Linked Q F) (ht : ReflTransGen (Trade isBuy limit) (b, qty) (b', qty')) :
    ∃ Q' F', b'.Linked Q' F' := by
  obtain ⟨Q', F', h', _⟩ := h.trades (P := fun _ _ _ _ => True) trivial
    (fun _ _ _ _ _ _ _ _ _ _ _ _ _ => trivial) (fun _ _ _ _ _ _ _ _ _ _ _ _ _ => trivial) ht
  exact ⟨Q', F', h'⟩

/-- Trading brings no order into the book. -/
theorem trades_fresh (h : b.Linked Q F) (hid : ∀ k, ∀ j ∈ Q k, (b.order j).id ≠ id)
    (ht : ReflTransGen (Trade isBuy limit) (b, qty) (b', qty')) :
    ∃ Q' F', b'.Linked Q' F' ∧ ∀ k, ∀ j ∈ Q' k, (b'.order j).id ≠ id := by
  refine h.trades (P := fun b Q _ _ => ∀ k, ∀ j ∈ Q k, (b.order j).id ≠ id) hid
    (fun b Q F qty p i l h hP hk _ _ _ k j hj => ?_) (fun b Q F qty p i l h hP _ _ _ _ k j hj => ?_) ht
  · obtain ⟨hjQ, hji⟩ := h.threads.mem_of_pop hk hj
    rw [order_popped (h.of_cons hk).1 hji]
    exact hP k j hjQ
  · have hsame : ((b.reduced (!isBuy) p qty).order j).id = (b.order j).id := by
      by_cases hj' : j = (b.level (!isBuy) p).head <;> simp [Ladder.reduced, hj']
    rw [hsame]
    exact hP k j hj

/-! ### Matching returns -/

/-- The inner loop of `match` returns after at most one round for each order of the level. -/
theorem fillLevel_total (h : b.Linked Q F) (hp : p < MAX_PRICES) (qty : Nat) {fuel : Nat}
    (hfuel : (Q (isBuy, p)).length < fuel) : ∃ r, b.fillLevel fuel isBuy p qty = .ok r := by
  induction hk : Q (isBuy, p) generalizing b Q F qty fuel with
  | nil =>
    obtain ⟨fuel, rfl⟩ : ∃ k, fuel = k + 1 := ⟨fuel - 1, by omega⟩
    exact ⟨_, loop_done (fillRound_idle hp (Or.inl ((h.head_eq_null hp).2 hk))) fuel⟩
  | cons i l ih =>
    obtain ⟨fuel, rfl⟩ : ∃ k, fuel = k + 1 := ⟨fuel - 1, by omega⟩
    obtain ⟨hhead, hnull, hlt, _, hid, _⟩ := h.of_cons hk
    have hhead' : (b.level isBuy p).head ≠ NULL_IDX := hhead ▸ hnull
    have hlt' : (b.level isBuy p).head < b.orders.size := hhead ▸ hlt
    rcases Nat.eq_zero_or_pos qty with rfl | hq
    · exact ⟨_, loop_done (fillRound_idle hp (Or.inr rfl)) fuel⟩
    · rcases Nat.lt_or_ge qty (b.order (b.level isBuy p).head).qty with hless | hge
      · exact ⟨_, loop_done (fillRound_part hp hhead' hlt' hq hless) fuel⟩
      · have hround := fillRound_full hp hhead' hlt' (hhead.symm ▸ hid) hq hge
        have htail : Function.update Q (isBuy, p) l (isBuy, p) = l := Function.update_self _ _ _
        obtain ⟨r, e⟩ := ih (h.popped hk) (qty - (b.order (b.level isBuy p).head).qty)
          (show _ < fuel by rw [htail]; rw [hk, List.length_cons] at hfuel; omega) htail
        exact ⟨r, (loop_again hround fuel).trans e⟩

end Linked

namespace Pool

/-- What every trade preserves holds after trading; the states in between are threaded with back links. -/
theorem trades {P : Ladder → (Bool × Nat → List Nat) → List Nat → Nat → Prop} (h : b.Pool Q F) (hP : P b Q F qty)
    (hfull : ∀ b Q F qty p i l, b.Pool Q F → P b Q F qty → Q (!isBuy, p) = i :: l → Best isBuy limit b p → 0 < qty →
      (b.order i).qty ≤ qty →
      P (b.popped (!isBuy) p) (Function.update Q (!isBuy, p) l) (i :: F) (qty - (b.order i).qty))
    (hpart : ∀ b Q F qty p i l, b.Pool Q F → P b Q F qty → Q (!isBuy, p) = i :: l → Best isBuy limit b p → 0 < qty →
      qty < (b.order i).qty → P (b.reduced (!isBuy) p qty) Q F 0)
    (ht : ReflTransGen (Trade isBuy limit) (b, qty) (b', qty')) : ∃ Q' F', b'.Pool Q' F' ∧ P b' Q' F' qty' := by
  obtain ⟨Q', F', _, hboth⟩ := h.toLinked.trades (P := fun b Q F qty => b.Pool Q F ∧ P b Q F qty) ⟨h, hP⟩
    (fun b Q F qty p i l _ hboth hk hbest hq hle =>
      ⟨hboth.1.popped hk, hfull b Q F qty p i l hboth.1 hboth.2 hk hbest hq hle⟩)
    (fun b Q F qty p i l _ hboth hk hbest hq hlt =>
      ⟨hboth.1.reduced, hpart b Q F qty p i l hboth.1 hboth.2 hk hbest hq hlt⟩) ht
  exact ⟨Q', F', hboth⟩

theorem of_trades (h : b.Pool Q F) (ht : ReflTransGen (Trade isBuy limit) (b, qty) (b', qty')) :
    ∃ Q' F', b'.Pool Q' F' := by
  obtain ⟨Q', F', h', _⟩ := h.trades (P := fun _ _ _ _ => True) trivial
    (fun _ _ _ _ _ _ _ _ _ _ _ _ _ => trivial) (fun _ _ _ _ _ _ _ _ _ _ _ _ _ => trivial) ht
  exact ⟨Q', F', h'⟩

end Pool

end Ladder

namespace FastBitsetOrderBook

open Ladder

variable {b b' : FastBitsetOrderBook} {isBuy : Bool} {limit qty qty' n : Nat} {Q : Bool × Nat → List Nat}
  {F : List Nat}

/-- A round of the outer loop in a state with an exact index. -/
theorem Indexed.matchRound (hi : b.Indexed) (isBuy : Bool) (limit qty inner : Nat) :
    FastBitsetOrderBook.matchRound inner limit isBuy (b, qty) = .ok (.done (b, qty)) ∧
        Ended isBuy limit (b.toLadder, qty) ∨
      ∃ p, 0 < qty ∧ Best isBuy limit b.toLadder p ∧ ∀ l qty', b.fillLevel inner (!isBuy) p qty = .ok (l, qty') →
        ∃ b', FastBitsetOrderBook.matchRound inner limit isBuy (b, qty) = .ok (.again (b', qty')) ∧
          b'.toLadder = l ∧ b'.Indexed := by
  rcases hi.tracks.matchRound isBuy limit qty inner with h | ⟨p, hq, hp, hbest, hc, h⟩
  · exact Or.inl h
  · refine Or.inr ⟨p, hq, ⟨hp, hbest, hc⟩, fun l qty' hf => ?_⟩
    rcases h with ⟨err, he, _⟩ | ⟨l', qty'', b', hf', hround, hb'⟩
    · rw [hf] at he
      cases he
    · rw [hf] at hf'
      cases hf'
      exact ⟨b', hround, hb'.1, (hb'.mono fun _ _ _ hp => hp).indexed⟩

/-- A round at a level that is not empty leaves less to do: the level is empty afterwards, or nothing is left to fill. -/
theorem rounds_left_lt {l l' : Ladder} {s : Bool} {p : Nat} (hfill : Filled s p l l')
    (hstop : (l'.level s p).head = NULL_IDX ∨ qty' = 0) (hocc : p ∈ l.occupied s) (hq : 0 < qty) :
    (l'.occupied s).ncard + (if qty' = 0 then 0 else 1) < (l.occupied s).ncard + if qty = 0 then 0 else 1 := by
  have hfin : (l.occupied s).Finite := (Set.finite_lt_nat MAX_PRICES).subset fun p hp => hp.1
  have hsub : l'.occupied s ⊆ l.occupied s := by
    intro q hmem
    by_cases hqp : q = p
    · exact hqp ▸ hocc
    · exact ⟨hmem.1, hfill.level s q (fun e => hqp e.2) ▸ hmem.2⟩
  rw [if_neg (Nat.ne_of_gt hq)]
  by_cases hzero : qty' = 0
  · have hle := Set.ncard_le_ncard hsub hfin
    rw [if_pos hzero]
    omega
  · have hnull := hstop.resolve_right hzero
    have hlt := Set.ncard_lt_ncard ⟨hsub, fun hsup => (hsup hocc).2 hnull⟩ hfin
    rw [if_neg hzero]
    omega

/-- `match` trades until nothing is left or no level is within the limit. -/
theorem matchOrder_total (hi : b.Indexed) (h : b.Linked Q F) (isBuy : Bool) (limit qty : Nat) :
    ∃ fuel b' qty', b.matchOrder fuel limit qty isBuy = .ok (b', qty') ∧ b'.Indexed ∧
      ReflTransGen (Trade isBuy limit) (b.toLadder, qty) (b'.toLadder, qty') ∧
      Ended isBuy limit (b'.toLadder, qty') := by
  -- every round empties a level or leaves nothing
  let μ : FastBitsetOrderBook × Nat → Nat := fun s => (s.1.occupied (!isBuy)).ncard + if s.2 = 0 then 0 else 1
  have hloop : ∃ fuel r, loop (FastBitsetOrderBook.matchRound (b.orders.size + 1) limit isBuy) fuel (b, qty) = .ok r ∧
      r.1.Indexed ∧ ReflTransGen (Trade isBuy limit) (b.toLadder, qty) (r.1.toLadder, r.2) ∧
      Ended isBuy limit (r.1.toLadder, r.2) := by
    refine loop_total
      (I := fun s => s.1.Indexed ∧ ReflTransGen (Trade isBuy limit) (b.toLadder, qty) (s.1.toLadder, s.2)) μ
      (fun s hs => ?_) ⟨hi, ReflTransGen.refl⟩
    obtain ⟨b₁, qty₁⟩ := s
    obtain ⟨hi₁, htrades⟩ := hs
    rcases hi₁.matchRound isBuy limit qty₁ (b.orders.size + 1) with ⟨e, hend⟩ | ⟨p, hq, hbest, hround⟩
    · exact ⟨_, e, hi₁, htrades, hend⟩
    · obtain ⟨Q₁, F₁, h₁⟩ := h.of_trades htrades
      have hsize : b₁.orders.size = b.orders.size := (trades_size htrades).1
      have hlen : (Q₁ (!isBuy, p)).length ≤ b.orders.size :=
        hsize ▸ (h₁.meets (k := (!isBuy, p)) hbest.occupied.1).length_le (h₁.bound _)
      obtain ⟨⟨l, qty₂⟩, ef⟩ := h₁.fillLevel_total hbest.occupied.1 qty₁ (Nat.lt_succ_of_le hlen)
      obtain ⟨b₂, e, rfl, hi₂⟩ := hround l qty₂ ef
      refine ⟨_, e, ⟨hi₂, htrades.trans (fillLevel_trades hbest ef)⟩, ?_⟩
      obtain ⟨hfill, hstop⟩ := fillLevel_filled ef
      exact rounds_left_lt hfill hstop hbest.occupied hq
  obtain ⟨fuel, ⟨b', qty'⟩, e, hb'⟩ := hloop
  exact ⟨max (b.orders.size + 1) fuel, b', qty', matchOrder_of_loop e, hb'⟩

end FastBitsetOrderBook

end Lobook
