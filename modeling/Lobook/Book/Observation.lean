import Lobook.Book.Twins
import Lobook.Book.Termination

/-!
# What a caller sees of a book

A caller makes calls and asks for quantities.  If two books are related by a relation that `Indistinct` holds of, then
every sequence of calls and answers that one of them allows, the other one allows too: for the linear-scan book
directly, for the bitset book because its index is that of the same levels.
-/

namespace Lobook

open Checked Transition

/-- A call, or a query with its result. -/
inductive Answer where
  | call (c : Call)
  | quantity (id qty : Nat)
  deriving DecidableEq

namespace Ladder

/-- The calls and queries of a caller who submits new ids below `n` at prices within the ladder. -/
def Asks (b : Ladder) (n : Nat) : Answer → Prop
  | .call c => b.Admits n c
  | .quantity _ _ => True

variable {T R : Ladder → Ladder → Prop} {b b' : Ladder} {n p qty : Nat}

theorem Indistinct.asks (h : Indistinct n R) (hR : R b b') {a : Answer} (ha : b.Asks n a) : b'.Asks n a := by
  cases a with
  | call c =>
    cases c with
    | submit id price qty s => exact ⟨ha.1, fun hrest => ha.2.1 ((h.resting b b' hR id).1 hrest), ha.2.2⟩
    | cancel id => trivial
  | quantity id qty => trivial

theorem FillsAlike.fillLevel (hT : FillsAlike T) (h : T b b') (hp : p < MAX_PRICES) (fuel : Nat) (s : Bool) (qty : Nat) :
    Both (Paired T) (b.fillLevel fuel s p qty) (b'.fillLevel fuel s p qty) := by
  refine Both.loop (I := Paired T) (fun r r' hr => ?_) fuel ⟨h, rfl⟩
  obtain ⟨l, qty⟩ := r
  obtain ⟨l', qty'⟩ := r'
  obtain ⟨hl, rfl⟩ : T l l' ∧ qty = qty' := hr
  exact hT.round l l' hl s p qty hp

end Ladder

/-! ### The linear-scan book -/

namespace FastOrderBook

open Ladder

/-- The call returns, or the query has this result. -/
def Answers (b : FastOrderBook) : Answer → FastOrderBook → Prop
  | .call c, b' => Step b c b'
  | .quantity id qty, b' => b.getQuantity id = .ok qty ∧ b' = b

variable {T R : Ladder → Ladder → Prop} {b b' : FastOrderBook} {n : Nat}

theorem Answers.unique {a : Answer} {b₁ b₂ : FastOrderBook} (h₁ : Answers b a b₁) (h₂ : Answers b a b₂) : b₁ = b₂ := by
  cases a with
  | call c => exact Step.unique h₁ h₂
  | quantity id qty => exact h₁.2.trans h₂.2.symm

theorem matchOrder_both (hT : FillsAlike T) (h : T b b') (fuel price qty : Nat) (s : Bool) :
    Both (Paired T) (matchOrder fuel b price qty s) (matchOrder fuel b' price qty s) := by
  refine Both.loop (I := fun r r' => r.1 = r'.1 ∧ Paired T r.2 r'.2) (fun r r' hr => ?_) fuel ⟨rfl, h, rfl⟩
  obtain ⟨p, l, qty⟩ := r
  obtain ⟨p', l', qty'⟩ := r'
  obtain ⟨rfl, hl, rfl⟩ : p = p' ∧ T l l' ∧ qty = qty' := hr
  simp only [scanRound]
  split
  · split
    · exact Both.same _ fun p _ => ⟨rfl, hl, rfl⟩
    · rename_i hin
      split
      · refine (hT.fillLevel hl (by omega) fuel (!s) qty).bind fun r r' hr => ?_
        exact Both.same _ fun p _ => ⟨rfl, hr⟩
      · exact ⟨hl, rfl⟩
  · exact ⟨hl, rfl⟩

theorem submitOrder_both (h : Indistinct n R) (hR : R b b') {id price : Nat} (qty : Nat) {s : Bool} (hid : id < n)
    (hrest : ¬ Ladder.Resting b id) (hp : price < MAX_PRICES) (fuel : Nat) :
    Both R (submitOrder fuel b id price qty s) (submitOrder fuel b' id price qty s) := by
  obtain ⟨T, hT, hb, hadd⟩ := h.submit b b' hR id price s hid hrest hp
  refine (matchOrder_both hT hb fuel price qty s).bind fun r r' hr => ?_
  obtain ⟨l, qty⟩ := r
  obtain ⟨l', qty'⟩ := r'
  obtain ⟨hl, rfl⟩ : T l l' ∧ qty = qty' := hr
  simp only
  split
  · exact (hadd l l' hl).2 qty
  · exact (hadd l l' hl).1

theorem bisimulation (h : Indistinct n R) : Bisimulation R (fun b a => Ladder.Asks b n a) Answers where
  symm := h.symm
  allows _ _ _ hR ha := h.asks hR ha
  step b b' a b₁ hR ha hstep := by
    cases a with
    | call c =>
      obtain ⟨fuel, e⟩ := hstep
      cases c with
      | submit id price qty s =>
        obtain ⟨b₁', e', h₁⟩ := (submitOrder_both h hR qty ha.1 ha.2.1 ha.2.2 fuel).of_ok e
        exact ⟨b₁', ⟨fuel, e'⟩, h₁⟩
      | cancel id =>
        obtain ⟨b₁', e', h₁⟩ := (h.cancel b b' hR id).of_ok e
        exact ⟨b₁', ⟨fuel, e'⟩, h₁⟩
    | quantity id qty =>
      obtain ⟨e, rfl⟩ := hstep
      exact ⟨b', ⟨(h.quantity _ b' hR id).trans e, rfl⟩, hR⟩

end FastOrderBook

/-! ### The bitset book -/

namespace FastBitsetOrderBook

open Ladder

/-- The call returns, or the query has this result. -/
def Answers (b : FastBitsetOrderBook) : Answer → FastBitsetOrderBook → Prop
  | .call c, b' => b.Step c b'
  | .quantity id qty, b' => b.getQuantity id = .ok qty ∧ b' = b

/-- The data of the books is related, and the index of each holds its non-empty levels. -/
structure Lifted (R : Ladder → Ladder → Prop) (b b' : FastBitsetOrderBook) : Prop where
  rel : R b.toLadder b'.toLadder
  indexed : b.Indexed
  indexed' : b'.Indexed

variable {T R : Ladder → Ladder → Prop} {b b' : FastBitsetOrderBook} {n : Nat}

theorem Answers.unique {a : Answer} {b₁ b₂ : FastBitsetOrderBook} (h₁ : b.Answers a b₁) (h₂ : b.Answers a b₂) :
    b₁ = b₂ := by
  cases a with
  | call c => exact Step.unique h₁ h₂
  | quantity id qty => exact h₁.2.trans h₂.2.symm

theorem Agrees.lifted {m m' : Exec Ladder} {k k' : Exec FastBitsetOrderBook} (h : Agrees True m k)
    (h' : Agrees True m' k') (hm : Both R m m') : Both (Lifted R) k k' := by
  cases m with
  | error e =>
    have e' : m' = .error e := hm.of_error rfl
    subst e'
    rw [show k = .error e from h, show k' = .error e from h', both_error]
  | ok l =>
    obtain ⟨l', rfl, hl⟩ := hm.of_ok rfl
    obtain ⟨b, rfl, hb⟩ := h
    obtain ⟨b', rfl, hb'⟩ := h'
    obtain rfl : b.toLadder = l := hb.1
    obtain rfl : b'.toLadder = l' := hb'.1
    exact ⟨hl, hb.indexed, hb'.indexed⟩

theorem matchRound_both (hT : FillsAlike T) (h : Lifted T b b') (inner limit qty : Nat) (s : Bool) :
    Both (Flow.Both (fun r r' => Lifted T r.1 r'.1 ∧ r.2 = r'.2) fun r r' => Lifted T r.1 r'.1 ∧ r.2 = r'.2)
      (matchRound inner limit s (b, qty)) (matchRound inner limit s (b', qty)) := by
  have hocc : b'.occupied (!s) = b.occupied (!s) :=
    occupied_congr (fun s p => congrArg PriceLevel.head (hT.level _ _ h.rel s p)) (!s)
  -- the rounds jump to the best price of the same levels
  have hround' := h.indexed'.tracks.matchRound s limit qty inner
  rw [hocc] at hround'
  rcases h.indexed.tracks.matchRound s limit qty inner with ⟨e, hend⟩ | ⟨p, hq, hp, hbest, hc, hround⟩
  · rcases hround' with ⟨e', _⟩ | ⟨p, hq, hp, _, hc, _⟩
    · rw [e, e']
      exact ⟨h, rfl⟩
    · rcases hend with rfl | hend
      · exact absurd hq (Nat.lt_irrefl 0)
      · exact absurd hc (hend p hp)
  · rcases hround' with ⟨_, hend⟩ | ⟨p', _, hp', hbest', _, hround'⟩
    · rcases hend with rfl | hend
      · exact absurd hq (Nat.lt_irrefl 0)
      · exact absurd hc (hend p hp)
    · obtain rfl : p = p' := better_total (hbest' p hp) (hbest p' hp')
      have hfill := hT.fillLevel h.rel hp.1 inner (!s) qty
      rcases hround with ⟨e, hf, hr⟩ | ⟨l, qty₁, b₁, hf, hr, hb₁⟩
      · have hf' := hfill.of_error hf
        rcases hround' with ⟨e', hf₂, hr'⟩ | ⟨_, _, _, hf₂, _⟩
        · rw [hf'] at hf₂
          rw [hr, hr', both_error]
          exact Except.error.inj hf₂
        · cases hf'.symm.trans hf₂
      · obtain ⟨⟨l', qty₁'⟩, hf', hl⟩ := hfill.of_ok hf
        rcases hround' with ⟨_, hf₂, _⟩ | ⟨l₂, qty₂, b₁', hf₂, hr', hb₁'⟩
        · cases hf'.symm.trans hf₂
        · obtain ⟨rfl, rfl⟩ := Prod.mk.inj (Except.ok.inj (hf'.symm.trans hf₂))
          rw [hr, hr']
          have hi₁ : b₁.Indexed := (hb₁.mono fun _ _ _ hp => hp).indexed
          have hi₁' : b₁'.Indexed := (hb₁'.mono fun _ _ _ hp => hp).indexed
          refine ⟨⟨?_, hi₁, hi₁'⟩, hl.2⟩
          rw [hb₁.1, hb₁'.1]
          exact hl.1

theorem matchOrder_both (hT : FillsAlike T) (h : Lifted T b b') (fuel price qty : Nat) (s : Bool) :
    Both (fun r r' => Lifted T r.1 r'.1 ∧ r.2 = r'.2) (b.matchOrder fuel price qty s)
      (b'.matchOrder fuel price qty s) := by
  refine Both.loop (I := fun r r' => Lifted T r.1 r'.1 ∧ r.2 = r'.2) (fun r r' hr => ?_) fuel ⟨h, rfl⟩
  obtain ⟨l, qty⟩ := r
  obtain ⟨l', qty'⟩ := r'
  obtain ⟨hl, rfl⟩ : Lifted T l l' ∧ qty = qty' := hr
  exact matchRound_both hT hl fuel price qty s

theorem submitOrder_both (h : Indistinct n R) (hR : Lifted R b b') {id price : Nat} (qty : Nat) {s : Bool} (hid : id < n)
    (hrest : ¬ b.Resting id) (hp : price < MAX_PRICES) (fuel : Nat) :
    Both (Lifted R) (b.submitOrder fuel id price qty s) (b'.submitOrder fuel id price qty s) := by
  obtain ⟨T, hT, hb, hadd⟩ := h.submit _ _ hR.rel id price s hid hrest hp
  refine (matchOrder_both hT ⟨hb, hR.indexed, hR.indexed'⟩ fuel price qty s).bind fun r r' hr => ?_
  obtain ⟨l, qty⟩ := r
  obtain ⟨l', qty'⟩ := r'
  obtain ⟨hl, rfl⟩ : Lifted T l l' ∧ qty = qty' := hr
  simp only
  split
  · exact (agrees_addOrder hl.indexed.follows id price qty s).lifted
      (agrees_addOrder hl.indexed'.follows id price qty s) ((hadd _ _ hl.rel).2 qty)
  · exact ⟨(hadd _ _ hl.rel).1, hl.indexed, hl.indexed'⟩

theorem bisimulation (h : Indistinct n R) : Bisimulation (Lifted R) (fun b a => b.Asks n a) Answers where
  symm b b' hR := ⟨h.symm _ _ hR.rel, hR.indexed', hR.indexed⟩
  allows _ _ _ hR ha := h.asks hR.rel ha
  step b b' a b₁ hR ha hstep := by
    cases a with
    | call c =>
      obtain ⟨fuel, e⟩ := hstep
      cases c with
      | submit id price qty s =>
        obtain ⟨b₁', e', h₁⟩ := (submitOrder_both h hR qty ha.1 ha.2.1 ha.2.2 fuel).of_ok e
        exact ⟨b₁', ⟨fuel, e'⟩, h₁⟩
      | cancel id =>
        obtain ⟨b₁', e', h₁⟩ := ((agrees_cancelOrder hR.indexed.follows id).lifted
          (agrees_cancelOrder hR.indexed'.follows id) (h.cancel _ _ hR.rel id)).of_ok e
        exact ⟨b₁', ⟨fuel, e'⟩, h₁⟩
    | quantity id qty =>
      obtain ⟨e, rfl⟩ := hstep
      exact ⟨b', ⟨(h.quantity _ _ hR.rel id).trans e, rfl⟩, hR⟩

end FastBitsetOrderBook

end Lobook
