import Lobook.Book.Blocks
import Lobook.Book.FastBitsetBook

/-!
# The index and the non-empty levels

`Tracks b S` says that the two bitsets of `b` represent sets `S` that contain the prices of all non-empty levels; every
request keeps this in every state, however tangled the links are.  `Indexed b` says that they represent exactly these
prices, so that the best price is the price of the best non-empty level; every call keeps it.
-/

namespace Lobook

open Checked

theorem u32_of_lt {price : Nat} (h : price < MAX_PRICES) : u32 price = price := by
  simp only [MAX_PRICES] at h
  simp only [u32]
  omega

namespace Ladder

/-- The prices of the non-empty levels of a side. -/
def occupied (b : Ladder) (isBuy : Bool) : Set Nat :=
  {p | p < MAX_PRICES ∧ (b.level isBuy p).head ≠ NULL_IDX}

variable {b b' : Ladder}

@[simp] theorem mem_occupied {isBuy : Bool} {p : Nat} :
    p ∈ b.occupied isBuy ↔ p < MAX_PRICES ∧ (b.level isBuy p).head ≠ NULL_IDX := Iff.rfl

theorem occupied_congr (h : ∀ s p, (b'.level s p).head = (b.level s p).head) (isBuy : Bool) :
    b'.occupied isBuy = b.occupied isBuy := by
  ext p
  rw [mem_occupied, mem_occupied, h]

end Ladder

namespace FastBitsetOrderBook

/-- The index represents `S`, and every non-empty level is in `S`. -/
def Tracks (b : FastBitsetOrderBook) (S : Bool → Set Nat) : Prop :=
  ∀ isBuy, (b.index isBuy).Represents (S isBuy) ∧ b.occupied isBuy ⊆ S isBuy

/-- Every level in `S` is non-empty. -/
def Exact (b : FastBitsetOrderBook) (S : Bool → Set Nat) : Prop := ∀ isBuy, S isBuy ⊆ b.occupied isBuy

/-- The index of each side holds the prices of its non-empty levels. -/
def Indexed (b : FastBitsetOrderBook) : Prop := ∀ isBuy, (b.index isBuy).Represents (b.occupied isBuy)

/-- The book has the data `l` and a valid index, which is exact if `X` holds. -/
def Follows (X : Prop) (l : Ladder) (b : FastBitsetOrderBook) : Prop :=
  b.toLadder = l ∧ ∃ S, b.Tracks S ∧ (X → b.Exact S)

variable {b b' : FastBitsetOrderBook} {S : Bool → Set Nat} {l : Ladder} {isBuy : Bool} {price : Nat}

theorem Indexed.tracks (hi : b.Indexed) : b.Tracks b.occupied := fun s => ⟨hi s, fun _ h => h⟩

theorem Tracks.indexed (ht : b.Tracks S) (he : b.Exact S) : b.Indexed := by
  intro s
  rw [Set.Subset.antisymm (ht s).2 (he s)]
  exact (ht s).1

theorem Follows.indexed (h : Follows True l b) : b.Indexed := by
  obtain ⟨_, S, ht, he⟩ := h
  exact ht.indexed (he trivial)

theorem Indexed.follows (hi : b.Indexed) : Follows True b.toLadder b := ⟨rfl, _, hi.tracks, fun _ _ _ hp => hp⟩

theorem Follows.mono {X Y : Prop} (h : X → Y) (hb : Follows Y l b) : Follows X l b := by
  obtain ⟨hl, S, ht, he⟩ := hb
  exact ⟨hl, S, ht, fun hx => he (h hx)⟩

/-- The index is in a state that its operations can produce, and its bits mark the non-empty levels. -/
def Signposted (b : FastBitsetOrderBook) : Prop := ∀ isBuy, (b.index isBuy).Produced ∧
  ∀ p, p < MAX_PRICES → ((b.index isBuy).test p = .ok true ↔ (b.level isBuy p).head ≠ NULL_IDX)

theorem Indexed.test (hi : b.Indexed) (hp : price < MAX_PRICES) :
    (b.index isBuy).test price = .ok true ↔ (b.level isBuy price).head ≠ NULL_IDX := by
  obtain ⟨t, e, ht⟩ := (hi isBuy).test hp
  rw [e, Except.ok.injEq, ht, Ladder.mem_occupied]
  exact and_iff_right hp

theorem signposted_iff : b.Signposted ↔ b.Indexed := by
  constructor
  · intro h isBuy
    obtain ⟨hprod, htest⟩ := h isBuy
    obtain ⟨S, hS⟩ := PriceBitset.produced_iff.1 hprod
    have heq : S = b.occupied isBuy := by
      ext p
      by_cases hp : p < MAX_PRICES
      · obtain ⟨t, e, ht⟩ := hS.test hp
        have hbit := htest p hp
        rw [e, Except.ok.injEq, ht] at hbit
        rw [hbit, Ladder.mem_occupied]
        exact (and_iff_right hp).symm
      · exact iff_of_false (fun hmem => hp (hS.bound p hmem)) fun hmem => hp hmem.1
    exact heq ▸ hS
  · intro hi isBuy
    exact ⟨PriceBitset.produced_iff.2 ⟨_, hi isBuy⟩, fun p hp => hi.test hp⟩

/-- The index is determined by the levels that are not empty. -/
theorem Indexed.index_eq (hi : b.Indexed) (hi' : b'.Indexed)
    (h : ∀ s p, p < MAX_PRICES → ((b'.level s p).head ≠ NULL_IDX ↔ (b.level s p).head ≠ NULL_IDX)) :
    b'.index = b.index := by
  funext s
  have hocc : b'.occupied s = b.occupied s := by
    ext p
    exact and_congr_right fun hp => h s p hp
  have hrep := hi' s
  rw [hocc] at hrep
  exact hrep.ext (hi s)

/-! ### The blocks -/

theorem onLadder_of_ok {f : Ladder → Exec Ladder} (h : f b.toLadder = .ok l) :
    b.onLadder f = .ok { b with toLadder := l } := by
  simp only [onLadder, h, ok_bind, pure_eq_ok]

theorem onLadder_eq_ok {f : Ladder → Exec Ladder} :
    b.onLadder f = .ok b' ↔ ∃ l, f b.toLadder = .ok l ∧ { b with toLadder := l } = b' := by
  simp only [onLadder, bind_eq_ok, pure_eq_ok, Except.ok.injEq]

/-- Blocks that fill no level keep the index valid. -/
theorem Tracks.shrink (ht : b.Tracks S)
    (h : ∀ s p, (l.level s p).head ≠ NULL_IDX → (b.level s p).head ≠ NULL_IDX) :
    Tracks { b with toLadder := l } S :=
  fun s => ⟨(ht s).1, fun _ hp => (ht s).2 ⟨hp.1, h s _ hp.2⟩⟩

/-- Blocks that keep the heads of all levels keep the index exact. -/
theorem Tracks.of_heads (ht : b.Tracks S) (h : ∀ s p, (l.level s p).head = (b.level s p).head) :
    Follows (b.Exact S) l { b with toLadder := l } := by
  refine ⟨rfl, S, ht.shrink fun s p hp => h s p ▸ hp, fun he s => ?_⟩
  show S s ⊆ l.occupied s
  rw [Ladder.occupied_congr h]
  exact he s

theorem Indexed.of_heads (hi : b.Indexed) (h : ∀ s p, (l.level s p).head = (b.level s p).head) :
    Indexed { b with toLadder := l } :=
  ((hi.tracks.of_heads h).mono fun _ _ _ hp => hp).indexed

/-- After a block that can only have emptied one level, its bit is brought up to date. -/
theorem Tracks.clearIfEmpty (ht : b.Tracks S) (hp : price < MAX_PRICES)
    (hother : ∀ s p, ¬ (s = isBuy ∧ p = price) → (l.level s p).head = (b.level s p).head)
    (hsub : (l.level isBuy price).head ≠ NULL_IDX → (b.level isBuy price).head ≠ NULL_IDX) :
    ∃ b', { b with toLadder := l }.clearIfEmpty isBuy price = .ok b' ∧ Follows (b.Exact S) l b' := by
  have hget : l.getLevel isBuy price = .ok (l.level isBuy price) := Ladder.getLevel_of_lt hp
  by_cases hempty : (l.level isBuy price).head = NULL_IDX
  · obtain ⟨bits, e, hbits⟩ := (ht isBuy).1.clear hp
    refine ⟨⟨l, Function.update b.index isBuy bits⟩, ?_, rfl, Function.update S isBuy (S isBuy \ {price}), ?_, ?_⟩
    · simp only [FastBitsetOrderBook.clearIfEmpty, hget, ok_bind, if_pos hempty, u32_of_lt hp, e, pure_eq_ok]
    · intro s
      by_cases hs : s = isBuy
      · subst hs
        simp only [Function.update_self]
        refine ⟨hbits, fun p hmem => ?_⟩
        have hne : p ≠ price := fun e => hmem.2 (e ▸ hempty)
        exact ⟨(ht s).2 ⟨hmem.1, hother s p (fun e => hne e.2) ▸ hmem.2⟩, hne⟩
      · simp only [Function.update_of_ne hs]
        exact ⟨(ht s).1, fun p hmem => (ht s).2 ⟨hmem.1, hother s p (fun e => hs e.1) ▸ hmem.2⟩⟩
    · intro he s p hmem
      by_cases hs : s = isBuy
      · subst hs
        rw [Function.update_self] at hmem
        have hocc := he s hmem.1
        exact ⟨hocc.1, (hother s p fun e => hmem.2 e.2).symm ▸ hocc.2⟩
      · rw [Function.update_of_ne hs] at hmem
        have hocc := he s hmem
        exact ⟨hocc.1, (hother s p fun e => hs e.1).symm ▸ hocc.2⟩
  · have hkeep : ∀ s p, (l.level s p).head ≠ NULL_IDX ↔ (b.level s p).head ≠ NULL_IDX := by
      intro s p
      by_cases hsp : s = isBuy ∧ p = price
      · obtain ⟨rfl, rfl⟩ := hsp
        exact iff_of_true hempty (hsub hempty)
      · rw [hother s p hsp]
    refine ⟨{ b with toLadder := l }, ?_, rfl, S, ht.shrink fun s p => (hkeep s p).1, fun he s p hmem => ?_⟩
    · simp only [FastBitsetOrderBook.clearIfEmpty, hget, ok_bind, if_neg hempty, pure_eq_ok]
    · exact ⟨(he s hmem).1, (hkeep s p).2 (he s hmem).2⟩

/-- After a block that can only have filled one level, its bit is set. -/
theorem Tracks.setIndex (ht : b.Tracks S) (hp : price < MAX_PRICES)
    (hother : ∀ s p, ¬ (s = isBuy ∧ p = price) → (l.level s p).head = (b.level s p).head)
    (hhead : (l.level isBuy price).head ≠ NULL_IDX) :
    ∃ b', { b with toLadder := l }.setIndex isBuy price = .ok b' ∧ Follows (b.Exact S) l b' := by
  obtain ⟨bits, e, hbits⟩ := (ht isBuy).1.set hp
  refine ⟨⟨l, Function.update b.index isBuy bits⟩, ?_, rfl, Function.update S isBuy (insert price (S isBuy)), ?_, ?_⟩
  · simp only [FastBitsetOrderBook.setIndex, u32_of_lt hp, e, ok_bind, pure_eq_ok]
  · intro s
    by_cases hs : s = isBuy
    · subst hs
      simp only [Function.update_self]
      refine ⟨hbits, fun p hmem => ?_⟩
      by_cases hpp : p = price
      · exact Set.mem_insert_iff.2 (Or.inl hpp)
      · exact Set.mem_insert_of_mem _ ((ht s).2 ⟨hmem.1, hother s p (fun e => hpp e.2) ▸ hmem.2⟩)
    · simp only [Function.update_of_ne hs]
      exact ⟨(ht s).1, fun p hmem => (ht s).2 ⟨hmem.1, hother s p (fun e => hs e.1) ▸ hmem.2⟩⟩
  · intro he s p hmem
    by_cases hsp : s = isBuy ∧ p = price
    · obtain ⟨rfl, rfl⟩ := hsp
      exact ⟨hp, hhead⟩
    · have hS : p ∈ S s := by
        by_cases hs : s = isBuy
        · subst hs
          rw [Function.update_self] at hmem
          exact hmem.resolve_left fun e => hsp ⟨rfl, e⟩
        · rwa [Function.update_of_ne hs] at hmem
      have hocc := he s hS
      exact ⟨hocc.1, (hother s p hsp).symm ▸ hocc.2⟩

/-- The best price is the best one in the sets that the index represents. -/
theorem best_of_represents (h : ∀ s, (b.index s).Represents (S s)) (isBuy : Bool) :
    b.best isBuy = .ok none ∧ S (!isBuy) = ∅ ∨
      ∃ p, b.best isBuy = .ok (some p) ∧ p ∈ S (!isBuy) ∧ ∀ q ∈ S (!isBuy), ¬ Better isBuy q p := by
  cases isBuy with
  | true =>
    rcases (h false).findLowest with ⟨e, hS⟩ | ⟨p, e, hp⟩
    · exact Or.inl ⟨e, hS⟩
    · exact Or.inr ⟨p, e, hp.1, fun q hq => Nat.not_lt.2 (hp.2 hq)⟩
  | false =>
    rcases (h true).findHighest with ⟨e, hS⟩ | ⟨p, e, hp⟩
    · exact Or.inl ⟨e, hS⟩
    · exact Or.inr ⟨p, e, hp.1, fun q hq => Nat.not_lt.2 (hp.2 hq)⟩

theorem Tracks.best (ht : b.Tracks S) (isBuy : Bool) :
    b.best isBuy = .ok none ∧ S (!isBuy) = ∅ ∨
      ∃ p, b.best isBuy = .ok (some p) ∧ p ∈ S (!isBuy) ∧ ∀ q ∈ S (!isBuy), ¬ Better isBuy q p :=
  best_of_represents (fun s => (ht s).1) isBuy

theorem Tracks.lt (ht : b.Tracks S) (h : price ∈ S isBuy) : price < MAX_PRICES := (ht isBuy).1.bound price h

/-! ### Matching -/

/-- What a round of the outer loop does: it ends where no level of the other side may trade at the limit, and
otherwise fills the best one. -/
theorem Tracks.matchRound (ht : b.Tracks S) (isBuy : Bool) (limit qty inner : Nat) :
    FastBitsetOrderBook.matchRound inner limit isBuy (b, qty) = .ok (.done (b, qty)) ∧
        (qty = 0 ∨ ∀ p ∈ S (!isBuy), ¬ Crosses isBuy limit p) ∨
      ∃ p, 0 < qty ∧ p ∈ S (!isBuy) ∧ (∀ q ∈ S (!isBuy), ¬ Better isBuy q p) ∧ Crosses isBuy limit p ∧
        ((∃ e, b.fillLevel inner (!isBuy) p qty = .error e ∧
            FastBitsetOrderBook.matchRound inner limit isBuy (b, qty) = .error e) ∨
          ∃ l qty' b', b.fillLevel inner (!isBuy) p qty = .ok (l, qty') ∧
            FastBitsetOrderBook.matchRound inner limit isBuy (b, qty) = .ok (.again (b', qty')) ∧
            Follows (b.Exact S) l b') := by
  by_cases hq : 0 < qty
  · rcases ht.best isBuy with ⟨e, hS⟩ | ⟨p, e, hp, hbest⟩
    · refine Or.inl ⟨?_, Or.inr fun p hp => ?_⟩
      · simp only [FastBitsetOrderBook.matchRound, if_pos hq, e, ok_bind, pure_eq_ok]
      · rw [hS] at hp
        exact absurd hp (Set.notMem_empty p)
    · by_cases hc : Crosses isBuy limit p
      · refine Or.inr ⟨p, hq, hp, hbest, hc, ?_⟩
        cases hf : b.fillLevel inner (!isBuy) p qty with
        | error err =>
          refine Or.inl ⟨err, rfl, ?_⟩
          simp only [FastBitsetOrderBook.matchRound, if_pos hq, e, ok_bind, if_pos hc, hf, error_bind]
        | ok r =>
          obtain ⟨l, qty'⟩ := r
          obtain ⟨hfill, _⟩ := Ladder.fillLevel_filled hf
          obtain ⟨b', eb, hb'⟩ := ht.clearIfEmpty (ht.lt hp)
            (fun s q hne => by rw [hfill.level s q hne]) hfill.head
          refine Or.inr ⟨l, qty', b', rfl, ?_, hb'⟩
          simp only [FastBitsetOrderBook.matchRound, if_pos hq, e, ok_bind, if_pos hc, hf, eb, pure_eq_ok]
      · refine Or.inl ⟨?_, Or.inr fun q hmem => not_crosses_of_not_better hc (hbest q hmem)⟩
        simp only [FastBitsetOrderBook.matchRound, if_pos hq, e, ok_bind, if_neg hc, pure_eq_ok]
  · refine Or.inl ⟨?_, Or.inl (by omega)⟩
    simp only [FastBitsetOrderBook.matchRound, if_neg hq, pure_eq_ok]

end FastBitsetOrderBook

end Lobook
