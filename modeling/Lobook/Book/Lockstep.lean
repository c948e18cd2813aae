import Lobook.Book.Index
import Lobook.Book.FastBook

/-!
# The two intrusive books run in lockstep

The bitset book does to the shared data what the linear-scan book does, in every state.  For `cancel_order` and
`add_order` this is the bind rule of `Agrees`; for `match`, the scan passes only empty levels between two prices that
the bitset jumps to (`scan_simulated`).
-/

namespace Lobook

open Checked Transition

namespace FastBitsetOrderBook

/-- `m'` does to the shared data what `m` does, and keeps a valid index, which is exact if `X` holds. -/
def Agrees (X : Prop) (m : Exec Ladder) (m' : Exec FastBitsetOrderBook) : Prop :=
  match m with
  | .ok l => ∃ b, m' = .ok b ∧ Follows X l b
  | .error e => m' = .error e

section Agrees

variable {X : Prop} {α : Type} {l : Ladder} {b : FastBitsetOrderBook} {m : Exec Ladder}
  {m' : Exec FastBitsetOrderBook} {isBuy : Bool} {price : Nat}

theorem Agrees.pure (hb : Follows X l b) : Agrees X (pure l) (pure b) := ⟨b, rfl, hb⟩

theorem Agrees.bind {f : Ladder → Exec Ladder} {f' : FastBitsetOrderBook → Exec FastBitsetOrderBook}
    (hm : Agrees X m m') (hf : ∀ l b, Follows X l b → Agrees X (f l) (f' b)) : Agrees X (m >>= f) (m' >>= f') := by
  cases m with
  | error e =>
    obtain rfl : m' = .error e := hm
    rfl
  | ok l =>
    obtain ⟨b, rfl, hb⟩ := hm
    exact hf l b hb

/-- A computation that both books make. -/
theorem Agrees.both {f : α → Exec Ladder} {f' : α → Exec FastBitsetOrderBook} (m : Exec α)
    (hf : ∀ a, m = .ok a → Agrees X (f a) (f' a)) : Agrees X (m >>= f) (m >>= f') := by
  cases m with
  | error e => rfl
  | ok a => exact hf a rfl

/-- A block that keeps the heads of all levels. -/
theorem Agrees.onLadder (hb : Follows X l b) {g : Ladder → Exec Ladder} (hm : m = g l)
    (hg : ∀ l', g l = .ok l' → ∀ s p, (l'.level s p).head = (l.level s p).head) : Agrees X m (b.onLadder g) := by
  obtain ⟨rfl, S, ht, he⟩ := hb
  subst hm
  cases h : g b.toLadder with
  | error e => simp only [Agrees, FastBitsetOrderBook.onLadder, h, error_bind]
  | ok l' => exact ⟨_, onLadder_of_ok h, (ht.of_heads (hg l' h)).mono he⟩

/-- Taking an order out of its level, with the update of the index that follows it. -/
theorem Agrees.unlink (hb : Follows X l b) {i : Nat} (hi : i ≠ NULL_IDX) :
    Agrees X (l.unlink isBuy price i)
      (b.onLadder (fun l => l.unlink isBuy price i) >>= fun b => b.clearIfEmpty isBuy price) := by
  obtain ⟨rfl, S, ht, he⟩ := hb
  cases h : b.unlink isBuy price i with
  | error e => simp only [Agrees, FastBitsetOrderBook.onLadder, h, error_bind]
  | ok l' =>
    have hu := Ladder.unlinked_of_eq_ok h
    obtain ⟨b', e, hb'⟩ := ht.clearIfEmpty (Ladder.unlink_lt h).2.1
      (fun s p hne => by rw [hu.level, if_neg hne]) (hu.head_ne_null hi)
    exact ⟨b', by rw [onLadder_of_ok h, ok_bind, e], hb'.mono he⟩

theorem Agrees.unlink_bind (hb : Follows X l b) {i : Nat} (hi : i ≠ NULL_IDX) {f : Ladder → Exec Ladder}
    {f' : FastBitsetOrderBook → Exec FastBitsetOrderBook} (hf : ∀ l b, Follows X l b → Agrees X (f l) (f' b)) :
    Agrees X (l.unlink isBuy price i >>= f)
      (b.onLadder (fun l => l.unlink isBuy price i) >>= fun b => b.clearIfEmpty isBuy price >>= f') := by
  simp only [← bind_assoc]
  exact (Agrees.unlink hb hi).bind hf

/-- Starting a level, with the update of the index that follows it. -/
theorem Agrees.start (hb : Follows X l b) {i : Nat} (hi : i ≠ NULL_IDX) (hp : price < MAX_PRICES) :
    Agrees X (l.setLevel isBuy price ⟨i, i⟩)
      (b.onLadder (fun l => l.setLevel isBuy price ⟨i, i⟩) >>= fun b => b.setIndex isBuy price) := by
  obtain ⟨rfl, S, ht, he⟩ := hb
  have h : b.toLadder.setLevel isBuy price ⟨i, i⟩ = .ok _ := Ladder.setLevel_of_lt hp
  obtain ⟨b', e, hb'⟩ := ht.setIndex (l := b.withLevel isBuy price ⟨i, i⟩) hp
    (fun s p hne => by rw [Ladder.level_withLevel, if_neg hne]) (by simpa using hi)
  rw [h]
  exact ⟨b', by rw [onLadder_of_ok h, ok_bind, e], hb'.mono he⟩

theorem agrees_cancelOrder (hb : Follows X l b) (id : Nat) :
    Agrees X (FastOrderBook.cancelOrder l id) (b.cancelOrder id) := by
  have hl : b.toLadder = l := hb.1
  subst hl
  unfold FastOrderBook.cancelOrder FastBitsetOrderBook.cancelOrder
  split
  · exact Agrees.pure hb
  · refine Agrees.both _ fun i _ => ?_
    split
    · exact Agrees.pure hb
    · rename_i hnull
      refine Agrees.both _ fun o _ => ?_
      refine Agrees.unlink_bind hb hnull fun l b hb => ?_
      refine Agrees.bind (Agrees.onLadder hb rfl fun l' h s p => ?_) fun l b hb => ?_
      · obtain ⟨_, rfl⟩ := Ladder.modifyOrder_eq_ok.1 h
        rfl
      refine Agrees.bind (Agrees.onLadder hb rfl fun l' h s p => ?_)
        fun l b hb => Agrees.onLadder hb rfl fun l' h s p => ?_
      · rw [Ladder.release_of_lt (Ladder.release_lt h)] at h
        cases h
        rfl
      · obtain ⟨_, rfl⟩ := Ladder.setSlot_eq_ok.1 h
        rfl

theorem agrees_addOrder (hb : Follows X l b) (id price qty : Nat) (isBuy : Bool) :
    Agrees X (FastOrderBook.addOrder l id price qty isBuy) (b.addOrder id price qty isBuy) := by
  have hl : b.toLadder = l := hb.1
  subst hl
  unfold FastOrderBook.addOrder FastBitsetOrderBook.addOrder
  split
  · exact Agrees.pure hb
  · rename_i hnull
    dsimp only
    refine Agrees.bind (Agrees.onLadder hb rfl fun l' h s p => ?_) fun l b hb => ?_
    · obtain ⟨h₁, h₂⟩ := Ladder.takeSlot_lt h
      rw [Ladder.takeSlot_of_lt h₁ h₂] at h
      cases h
      rfl
    have hl : b.toLadder = l := hb.1
    subst hl
    split
    · exact Agrees.pure hb
    · rename_i hp
      refine Agrees.both _ fun lv _ => ?_
      split
      · exact Agrees.start hb hnull (Nat.lt_of_not_le hp)
      · refine Agrees.onLadder hb rfl fun l' h s p => ?_
        rw [(Ladder.tailLinked_of_eq_ok h).level]
        split
        · rename_i hsp
          obtain ⟨rfl, rfl⟩ := hsp
          rfl
        · rfl

end Agrees

/-! ### The scan and the jumps -/

/-- The scan has passed this price. -/
def Behind (isBuy : Bool) (p : Int) (price : Nat) : Prop := if isBuy then (price : Int) < p else p < price

section Scan

variable {inner limit qty : Nat} {isBuy : Bool} {l : Ladder} {b : FastBitsetOrderBook} {p : Int}

theorem advance_behind {p' : Int} {price : Nat} (h : FastOrderBook.advance isBuy p = .ok p')
    (hb : Behind isBuy p' price) (hne : (price : Int) ≠ p) : Behind isBuy p price := by
  have hp' : p' = p + if isBuy then 1 else -1 := by
    simp only [FastOrderBook.advance] at h
    generalize p + (if isBuy then 1 else -1) = k at h ⊢
    split at h
    · exact (Except.ok.inj h).symm
    · cases h
  subst hp'
  cases isBuy with
  | true =>
    change (price : Int) < p + 1 at hb
    change (price : Int) < p
    omega
  | false =>
    change p + -1 < (price : Int) at hb
    change p < (price : Int)
    omega

/-- A loop of either book ends when nothing is left to fill. -/
theorem scanRound_zero : FastOrderBook.scanRound inner limit isBuy (p, l, 0) = .ok (.done (l, 0)) := rfl

theorem matchRound_zero : matchRound inner limit isBuy (b, 0) = .ok (.done (b, 0)) := rfl

theorem fillLevel_empty {price : Nat} {r : Ladder × Nat} (hp : price < MAX_PRICES)
    (hempty : (l.level isBuy price).head = NULL_IDX) (h : l.fillLevel inner isBuy price qty = .ok r) :
    r = (l, qty) := by
  cases inner with
  | zero => cases h
  | succ inner =>
    rw [Ladder.fillLevel, loop_done (Ladder.fillRound_idle hp (Or.inl hempty))] at h
    exact (Except.ok.inj h).symm

/-- The first non-empty level that the scan has not passed is the best one. -/
theorem eq_of_not_behind {m n : Nat} (hm : ¬ Behind isBuy n m) (hn : ¬ Better isBuy n m) : m = n := by
  cases isBuy with
  | true =>
    change ¬ (m : Int) < n at hm
    change ¬ n < m at hn
    omega
  | false =>
    change ¬ (n : Int) < m at hm
    change ¬ m < n at hn
    omega

/-- What the scan has not passed trades at a limit only if the price it has reached does. -/
theorem crosses_of_not_behind {m n : Nat} (hm : ¬ Behind isBuy n m) (hc : Crosses isBuy limit m) :
    Crosses isBuy limit n := by
  cases isBuy with
  | true =>
    change ¬ (m : Int) < n at hm
    change m ≤ limit at hc
    change n ≤ limit
    omega
  | false =>
    change ¬ (n : Int) < m at hm
    change limit ≤ m at hc
    change limit ≤ n
    omega

/-- The first level that is not empty and that the scan has not passed is the one that the index names. -/
private theorem jump_simulated {n qty' : Nat} {l' : Ladder} (hi : b.Indexed)
    (hpast : ∀ q ∈ b.occupied (!isBuy), ¬ Behind isBuy n q) (hn : n ∈ b.occupied (!isBuy)) (hq : 0 < qty)
    (hc : Crosses isBuy limit n) (hf : b.fillLevel inner (!isBuy) n qty = .ok (l', qty')) :
    ∃ b', matchRound inner limit isBuy (b, qty) = .ok (.again (b', qty')) ∧ b'.toLadder = l' ∧ b'.Indexed := by
  rcases hi.tracks.matchRound isBuy limit qty inner with ⟨_, hend⟩ | ⟨m, _, hm, hbest, _, hround⟩
  · rcases hend with rfl | hend
    · exact absurd hq (Nat.lt_irrefl 0)
    · exact absurd hc (hend n hn)
  · obtain rfl := eq_of_not_behind (hpast m hm) (hbest n hn)
    rw [hf] at hround
    rcases hround with ⟨_, e, _⟩ | ⟨_, _, b', e, hagain, hb'⟩
    · cases e
    · cases e
      exact ⟨b', hagain, hb'.1, (hb'.mono fun _ _ _ hp => hp).indexed⟩

/-- Where the scan returns, so do the jumps, with the same data: the levels that the scan has passed are empty. -/
theorem scan_simulated {fuel : Nat} {r : Ladder × Nat} (hi : b.Indexed)
    (hpast : ∀ q ∈ b.occupied (!isBuy), ¬ Behind isBuy p q)
    (h : loop (FastOrderBook.scanRound inner limit isBuy) fuel (p, b.toLadder, qty) = .ok r) :
    ∃ fuel' b', loop (matchRound inner limit isBuy) fuel' (b, qty) = .ok (b', r.2) ∧ b'.toLadder = r.1 ∧
      b'.Indexed := by
  induction fuel generalizing p b qty with
  | zero => cases h
  | succ fuel ih =>
    obtain ⟨flow, hflow, hrest⟩ := bind_eq_ok.1 h
    rcases FastOrderBook.scanRound_eq_ok hflow with ⟨rfl, rfl⟩ | ⟨_, hout, p', hadv, rfl⟩ |
      ⟨hq, n, rfl, hn, ⟨hc, rfl⟩ | ⟨hc, ⟨l', qty'⟩, p', hf, hadv, rfl⟩⟩
    · cases hrest
      exact ⟨1, b, loop_done matchRound_zero 0, rfl, hi⟩
    · -- outside the ladder the scan only moves on
      refine ih hi (fun q hmem hb => hpast q hmem (advance_behind hadv hb fun e => ?_)) hrest
      have := hmem.1
      omega
    · cases hrest
      rcases hi.tracks.matchRound isBuy limit qty inner with ⟨hdone, _⟩ | ⟨m, _, hm, _, hcm, _⟩
      · exact ⟨1, b, loop_done hdone 0, rfl, hi⟩
      · exact absurd (crosses_of_not_behind (hpast m hm) hcm) hc
    · by_cases hempty : (b.level (!isBuy) n).head = NULL_IDX
      · obtain ⟨rfl, rfl⟩ := Prod.mk.inj (fillLevel_empty hn hempty hf)
        refine ih hi (fun q hmem hb => hpast q hmem (advance_behind hadv hb fun e => ?_)) hrest
        obtain rfl : q = n := by omega
        exact hmem.2 hempty
      · obtain ⟨b', hagain, rfl, hi'⟩ := jump_simulated hi hpast ⟨hn, hempty⟩ hq hc hf
        obtain ⟨hfill, hstop⟩ := Ladder.fillLevel_filled hf
        by_cases hzero : qty' = 0
        · subst hzero
          cases fuel with
          | zero => cases hrest
          | succ fuel =>
            change loop (FastOrderBook.scanRound inner limit isBuy) (fuel + 1) (p', b'.toLadder, 0) = .ok r at hrest
            rw [loop_done scanRound_zero] at hrest
            cases hrest
            exact ⟨2, b', by rw [loop_again hagain, loop_done matchRound_zero], rfl, hi'⟩
        · have hnull := hstop.resolve_right hzero
          have hpast' : ∀ q ∈ b'.occupied (!isBuy), ¬ Behind isBuy p' q := by
            intro q hmem hb
            have hne : q ≠ n := fun e => hmem.2 (e ▸ hnull)
            have hocc : q ∈ b.occupied (!isBuy) :=
              ⟨hmem.1, hfill.level (!isBuy) q (fun e => hne e.2) ▸ hmem.2⟩
            exact hpast q hocc (advance_behind hadv hb (by omega))
          obtain ⟨fuel', b'', e', hb''⟩ := ih hi' hpast' hrest
          exact ⟨fuel' + 1, b'', (loop_again hagain _).trans e', hb''⟩

end Scan

/-! ### Runs -/

/-- Both books have the same data, and the index holds exactly the non-empty levels. -/
structure Lockstep (f : FastOrderBook) (b : FastBitsetOrderBook) : Prop where
  orders : b.orders = f.orders
  levels : b.levels = f.levels
  idMap : b.idMap = f.idMap
  free : b.nextFreeOrderIdx = f.nextFreeOrderIdx
  index : ∀ isBuy p, p < MAX_PRICES →
    ∃ t, (b.index isBuy).test p = .ok t ∧ (t = true ↔ (b.level isBuy p).head ≠ NULL_IDX)

section Runs

variable {f f' : FastOrderBook} {b b' : FastBitsetOrderBook}

theorem Indexed.lockstep (hi : b.Indexed) : Lockstep b.toLadder b where
  orders := rfl
  levels := rfl
  idMap := rfl
  free := rfl
  index isBuy p hp := by
    obtain ⟨t, ht, hmem⟩ := (hi isBuy).test hp
    exact ⟨t, ht, hmem.trans (and_iff_right hp)⟩

theorem start_not_behind {isBuy : Bool} {p : Nat} (hp : p < MAX_PRICES) :
    ¬ Behind isBuy (if isBuy then 0 else (MAX_PRICES : Int) - 1) p := by
  cases isBuy with
  | true =>
    change ¬ (p : Int) < 0
    omega
  | false =>
    change ¬ (MAX_PRICES : Int) - 1 < p
    omega

theorem submit_simulated {fuel id price qty : Nat} {isBuy : Bool} (hi : b.Indexed)
    (h : FastOrderBook.submitOrder fuel b.toLadder id price qty isBuy = .ok f') :
    ∃ fuel' b', b.submitOrder fuel' id price qty isBuy = .ok b' ∧ b'.toLadder = f' ∧ b'.Indexed := by
  obtain ⟨⟨l, qty'⟩, hm, h⟩ := bind_eq_ok.1 h
  obtain ⟨k, b₁, e, rfl, hi₁⟩ := scan_simulated hi (fun q hq => start_not_behind hq.1) hm
  have hmatch : b.matchOrder (max fuel k) price qty isBuy = .ok (b₁, qty') := matchOrder_of_loop e
  simp only at h
  split at h
  · rename_i hq
    have ha := agrees_addOrder hi₁.follows id price qty' isBuy
    rw [h] at ha
    obtain ⟨b', e', hb'⟩ := ha
    refine ⟨max fuel k, b', ?_, hb'.1, hb'.indexed⟩
    simp only [submitOrder, hmatch, ok_bind, if_pos hq, e']
  · rename_i hq
    cases h
    refine ⟨max fuel k, b₁, ?_, rfl, hi₁⟩
    simp only [submitOrder, hmatch, ok_bind, if_neg hq, pure_eq_ok]

/-- Where a call of the linear-scan book returns, so does the call of the bitset book, with the same data. -/
theorem step_simulated {c : Call} (hi : b.Indexed) (h : FastOrderBook.Step b.toLadder c f') :
    ∃ b', b.Step c b' ∧ b'.toLadder = f' ∧ b'.Indexed := by
  obtain ⟨fuel, h⟩ := h
  cases c with
  | submit id price qty isBuy =>
    obtain ⟨fuel', b', e, hb'⟩ := submit_simulated hi h
    exact ⟨b', ⟨fuel', e⟩, hb'⟩
  | cancel id =>
    have ha := agrees_cancelOrder hi.follows id
    rw [show FastOrderBook.cancelOrder b.toLadder id = .ok f' from h] at ha
    obtain ⟨b', e, hb'⟩ := ha
    exact ⟨b', ⟨0, e⟩, hb'.1, hb'.indexed⟩

theorem run_simulated {cs : List Call} (hi : b.Indexed) (h : Run FastOrderBook.Step b.toLadder cs f') :
    ∃ b', Run Step b cs b' ∧ b'.toLadder = f' ∧ b'.Indexed := by
  generalize hf : b.toLadder = f at h
  induction h with
  | refl => exact ⟨b, Run.refl, hf, hi⟩
  | snoc _ hs ih =>
    obtain ⟨b₁, hrun, rfl, hi₁⟩ := ih
    obtain ⟨b₂, hs₂, hl₂, hi₂⟩ := step_simulated hi₁ hs
    exact ⟨b₂, hrun.snoc hs₂, hl₂, hi₂⟩

theorem Step.unique {c : Call} {b₁ b₂ : FastBitsetOrderBook} (h₁ : b.Step c b₁) (h₂ : b.Step c b₂) : b₁ = b₂ :=
  RequestStep.unique (r := .call c) h₁ h₂

/-- Every initialised book is empty, with an exact index. -/
theorem Indexed.init {n : Nat} (h : b.init n = .ok b') : b'.Indexed := by
  obtain ⟨l, hl, h⟩ := bind_eq_ok.1 h
  obtain rfl := Except.ok.inj h
  intro isBuy
  have hocc : l.occupied isBuy = ∅ := by
    refine Set.eq_empty_iff_forall_notMem.2 fun p hp => hp.2 ?_
    rw [(Ladder.initialised_of_eq_ok hl).level]
  show (b.index isBuy).clearAll.Represents (l.occupied isBuy)
  rw [hocc]
  exact PriceBitset.represents_clearAll _

/-- From `init` on, as long as the calls of the linear-scan book return, those of the bitset book do, and the two are in
lockstep. -/
theorem lockstep_run {n : Nat} (hn : 1 ≤ n) :
    ∃ f₀ b₀, Ladder.new.init n = .ok f₀ ∧ FastBitsetOrderBook.new.init n = .ok b₀ ∧
      ∀ cs f, Run FastOrderBook.Step f₀ cs f →
        (∃ b, Run Step b₀ cs b) ∧ ∀ b, Run Step b₀ cs b → Lockstep f b := by
  obtain ⟨f₀, hf₀, _⟩ := Ladder.init_of_pos (b := Ladder.new) hn
  have hb₀ : FastBitsetOrderBook.new.init n = .ok ⟨f₀, fun _ => PriceBitset.new.clearAll⟩ := by
    simp only [FastBitsetOrderBook.init, FastBitsetOrderBook.new, hf₀, ok_bind, pure_eq_ok]
  refine ⟨f₀, _, hf₀, hb₀, fun cs f hrun => ?_⟩
  obtain ⟨b, hb, rfl, hi⟩ := run_simulated (Indexed.init hb₀) hrun
  refine ⟨⟨b, hb⟩, fun b' hb' => ?_⟩
  have hdet : ∀ b c b₁ b₂, Step b c b₁ → Step b c b₂ → b₁ = b₂ := fun _ _ _ _ => Step.unique
  obtain rfl := Run.unique hdet hb hb'
  exact hi.lockstep

/-- A run of one order that rests. -/
theorem lockstep_run_submit : ∃ f₀ b₀ f b, Ladder.new.init 1 = .ok f₀ ∧ FastBitsetOrderBook.new.init 1 = .ok b₀ ∧
    Run FastOrderBook.Step f₀ [.submit 0 3 10 true] f ∧ Run Step b₀ [.submit 0 3 10 true] b ∧ Lockstep f b := by
  obtain ⟨f₀, b₀, hf, hb, h⟩ := lockstep_run (n := 1) (by decide)
  have hok : (Ladder.new.init 1 >>= fun f => FastOrderBook.exec 6 f (.submit 0 3 10 true)).isOk = true := by
    decide +kernel
  rw [hf, ok_bind] at hok
  have hrun : Run FastOrderBook.Step f₀ [.submit 0 3 10 true] _ := Run.single ⟨6, eq_ok_value f₀ hok⟩
  obtain ⟨⟨b, hbrun⟩, hall⟩ := h _ _ hrun
  exact ⟨f₀, b₀, _, b, hf, hb, hrun, hbrun, hall b hbrun⟩

end Runs

end FastBitsetOrderBook

end Lobook
