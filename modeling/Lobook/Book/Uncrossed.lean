import Lobook.Book.Lockstep

/-!
# When the book is crossed

A book is uncrossed if every price with a bid lies below every price with an ask.  `submit_order` first trades with
all levels that its limit reaches and `cancel_order` fills no level, so both keep the book uncrossed, in every state.
`replace_order` puts an order at its new price without trading: it keeps the book uncrossed exactly if no level of the
other side would have traded at that price.
-/

namespace Lobook

open Checked Transition

namespace Ladder

/-- Every bid price is below every ask price. -/
def Uncrossed (b : Ladder) : Prop := ∀ p ∈ b.occupied true, ∀ q ∈ b.occupied false, p < q

variable {b b' : Ladder} {isBuy : Bool} {price : Nat}

theorem Uncrossed.mono (h : b.Uncrossed) (hsub : ∀ s, b'.occupied s ⊆ b.occupied s) : b'.Uncrossed :=
  Apart.mono h hsub

/-- An order that nothing on the other side would have traded with may rest. -/
theorem Uncrossed.insert (h : b.Uncrossed) (hsub : b'.occupied isBuy ⊆ insert price (b.occupied isBuy))
    (hother : b'.occupied (!isBuy) ⊆ b.occupied (!isBuy))
    (hfar : ∀ p ∈ b.occupied (!isBuy), ¬ Crosses isBuy price p) : b'.Uncrossed :=
  Apart.insert h hsub hother hfar

/-- An order that rests beyond a level of the other side crosses the book. -/
theorem not_uncrossed {p : Nat} (hprice : price ∈ b.occupied isBuy) (hp : p ∈ b.occupied (!isBuy))
    (hc : Crosses isBuy price p) : ¬ b.Uncrossed := by
  intro h
  cases isBuy with
  | true =>
    have hlt := h price hprice p hp
    change p ≤ price at hc
    omega
  | false =>
    have hlt := h p hp price hprice
    change price ≤ p at hc
    omega

theorem occupied_subset (h : ∀ s p, (b'.level s p).head ≠ NULL_IDX → (b.level s p).head ≠ NULL_IDX) (s : Bool) :
    b'.occupied s ⊆ b.occupied s := fun p hp => ⟨hp.1, h s p hp.2⟩

theorem Filled.occupied (h : Filled isBuy price b b') (s : Bool) : b'.occupied s ⊆ b.occupied s := by
  refine occupied_subset (fun s p hp => ?_) s
  by_cases hsp : s = isBuy ∧ p = price
  · obtain ⟨rfl, rfl⟩ := hsp
    exact h.head hp
  · exact h.level s p hsp ▸ hp

theorem Unlinked.occupied {i : Nat} (h : b.Unlinked isBuy price i b') (hi : i ≠ NULL_IDX) (s : Bool) :
    b'.occupied s ⊆ b.occupied s := by
  refine occupied_subset (fun s p hp => ?_) s
  by_cases hsp : s = isBuy ∧ p = price
  · obtain ⟨rfl, rfl⟩ := hsp
    exact h.head_ne_null hi hp
  · rwa [h.level, if_neg hsp] at hp

/-- Appending an order occupies its level and no other one. -/
theorem Appended.occupied {i : Nat} (h : b.Appended isBuy price i b') (hi : i ≠ NULL_IDX) (hp : price < MAX_PRICES)
    (s : Bool) : b'.occupied s = if s = isBuy then insert price (b.occupied s) else b.occupied s := by
  ext p
  rw [mem_occupied, h.level]
  by_cases hs : s = isBuy
  · subst hs
    by_cases hpp : p = price
    · subst hpp
      by_cases hhead : (b.level s p).head = NULL_IDX <;> simp [hhead, hi, hp]
    · simp [hpp]
  · simp [hs]

end Ladder

namespace FastOrderBook

/-- `add_order` may occupy the level of the order, and no other one. -/
theorem addOrder_occupied {b b' : FastOrderBook} {id price qty : Nat} {isBuy : Bool}
    (h : addOrder b id price qty isBuy = .ok b') :
    b'.occupied isBuy ⊆ insert price (b.occupied isBuy) ∧ b'.occupied (!isBuy) ⊆ b.occupied (!isBuy) := by
  have hne : ¬ (!isBuy) = isBuy := by cases isBuy <;> decide
  rcases addOrder_cases h with ⟨_, rfl⟩ | ⟨hnull, _, _, ⟨_, rfl⟩ | ⟨hp, _, ha⟩⟩
  · exact ⟨Set.subset_insert _ _, Set.Subset.rfl⟩
  · exact ⟨Set.subset_insert _ _, Set.Subset.rfl⟩
  · rw [ha.occupied hnull hp, ha.occupied hnull hp, if_pos rfl, if_neg hne]
    exact ⟨Set.Subset.rfl, Set.Subset.rfl⟩

/-- `cancel_order` occupies no level. -/
theorem cancelOrder_occupied {b b' : FastOrderBook} {id : Nat} (h : cancelOrder b id = .ok b') (s : Bool) :
    b'.occupied s ⊆ b.occupied s := by
  rcases cancelOrder_cases h with ⟨_, rfl⟩ | ⟨_, hnull, _, _, b₁, hu, rfl⟩
  · exact Set.Subset.rfl
  · exact hu.occupied hnull s

end FastOrderBook

namespace FastBitsetOrderBook

/-- The index is valid, and contains every non-empty level. -/
def Covered (b : FastBitsetOrderBook) : Prop := ∃ S, b.Tracks S

variable {b b' : FastBitsetOrderBook} {isBuy : Bool} {price : Nat}

theorem Indexed.covered (hi : b.Indexed) : b.Covered := ⟨_, hi.tracks⟩

theorem Follows.covered {X : Prop} {l : Ladder} (h : Follows X l b) : b.Covered := h.2.imp fun _ h => h.1

theorem Covered.follows (hc : b.Covered) : Follows False b.toLadder b := ⟨rfl, hc.imp fun _ ht => ⟨ht, False.elim⟩⟩

theorem Agrees.of_ok {X : Prop} {m : Exec Ladder} {m' : Exec FastBitsetOrderBook} (h : Agrees X m m')
    (hb : m' = .ok b) : m = .ok b.toLadder ∧ Follows X b.toLadder b := by
  cases m with
  | error e =>
    rw [show m' = .error e from h] at hb
    cases hb
  | ok l =>
    obtain ⟨b', e, hb'⟩ := h
    rw [hb] at e
    cases e
    obtain ⟨rfl, _⟩ := id hb'
    exact ⟨rfl, hb'⟩

/-- `match` occupies no level, and ends with nothing left or with no level open to trade. -/
theorem matchOrder_occupied {fuel limit qty qty' : Nat} (hc : b.Covered)
    (h : b.matchOrder fuel limit qty isBuy = .ok (b', qty')) :
    b'.Covered ∧ (∀ s, b'.occupied s ⊆ b.occupied s) ∧
      (qty' = 0 ∨ ∀ p ∈ b'.occupied (!isBuy), ¬ Crosses isBuy limit p) := by
  have hloop : Sat (fun _ => True) (b.matchOrder fuel limit qty isBuy) fun r => r.1.Covered ∧
      (∀ s, r.1.occupied s ⊆ b.occupied s) ∧ (r.2 = 0 ∨ ∀ p ∈ r.1.occupied (!isBuy), ¬ Crosses isBuy limit p) := by
    refine Sat.loop (I := fun r => r.1.Covered ∧ ∀ s, r.1.occupied s ⊆ b.occupied s) trivial (fun r hr => ?_) fuel
      ⟨hc, fun _ => Set.Subset.rfl⟩
    obtain ⟨b₁, qty₁⟩ := r
    obtain ⟨⟨S, ht⟩, hsub⟩ := hr
    rcases ht.matchRound isBuy limit qty₁ fuel with ⟨e, hend⟩ | ⟨p, _, _, _, _, ⟨_, _, e⟩ | ⟨l, _, b₂, hf, e, hb₂⟩⟩
    · rw [e]
      exact ⟨⟨S, ht⟩, hsub, hend.imp_right fun hfar p hp => hfar p ((ht _).2 hp)⟩
    · rw [e]
      trivial
    · rw [e]
      obtain ⟨rfl, _⟩ := id hb₂
      exact ⟨hb₂.covered, fun s => ((Ladder.fillLevel_filled hf).1.occupied s).trans (hsub s)⟩
  exact hloop.of_ok h

theorem submitOrder_uncrossed {fuel id price qty : Nat} (hc : b.Covered) (hu : b.Uncrossed)
    (h : b.submitOrder fuel id price qty isBuy = .ok b') : b'.Covered ∧ b'.Uncrossed := by
  obtain ⟨⟨b₁, qty'⟩, hm, h⟩ := bind_eq_ok.1 h
  obtain ⟨hc₁, hsub, hend⟩ := matchOrder_occupied hc hm
  have hu₁ := hu.mono hsub
  simp only at h
  split at h
  · rename_i hq
    obtain ⟨e, hf⟩ := (agrees_addOrder hc₁.follows id price qty' isBuy).of_ok h
    obtain ⟨hadd, hother⟩ := FastOrderBook.addOrder_occupied e
    exact ⟨hf.covered, hu₁.insert hadd hother (hend.resolve_left (by omega))⟩
  · cases h
    exact ⟨hc₁, hu₁⟩

theorem cancelOrder_uncrossed {id : Nat} (hc : b.Covered) (hu : b.Uncrossed) (h : b.cancelOrder id = .ok b') :
    b'.Covered ∧ b'.Uncrossed := by
  obtain ⟨e, hf⟩ := (agrees_cancelOrder hc.follows id).of_ok h
  exact ⟨hf.covered, hu.mono (FastOrderBook.cancelOrder_occupied e)⟩

/-- An order that moves to a new price occupies its level, whatever rests on the other side. -/
theorem moveOrder_occupied {i newPrice : Nat} (hc : b.Covered) (hi : i ≠ NULL_IDX)
    (h : b.moveOrder i isBuy price newPrice = .ok b') :
    b'.Covered ∧ newPrice ∈ b'.occupied isBuy ∧ b'.occupied isBuy ⊆ insert newPrice (b.occupied isBuy) ∧
      b'.occupied (!isBuy) = b.occupied (!isBuy) := by
  have hne : ¬ (!isBuy) = isBuy := by cases isBuy <;> decide
  obtain ⟨S, ht⟩ := hc
  obtain ⟨b₁, h₁, k₁⟩ := bind_eq_ok.1 h
  obtain ⟨l₁, hl₁, rfl⟩ := onLadder_eq_ok.1 h₁
  have hu := Ladder.unlinked_of_eq_ok hl₁
  obtain ⟨b₂, h₂, k₂⟩ := bind_eq_ok.1 k₁
  obtain ⟨b₂', e₂, hf₂⟩ := ht.clearIfEmpty (Ladder.unlink_lt hl₁).2.1
    (fun s p hsp => by rw [hu.level, if_neg hsp]) (hu.head_ne_null hi)
  obtain rfl : b₂ = b₂' := Except.ok.inj (h₂.symm.trans e₂)
  obtain ⟨rfl, S₂, ht₂, _⟩ := hf₂
  obtain ⟨b₃, h₃, k₃⟩ := bind_eq_ok.1 k₂
  obtain ⟨l₃, hl₃, rfl⟩ := onLadder_eq_ok.1 h₃
  have ha := Ladder.appended_of_eq_ok hl₃
  have hp := (Ladder.relink_lt hl₃).2.1
  have hocc := ha.occupied hi hp
  have hmem : newPrice ∈ l₃.occupied isBuy := by
    rw [hocc, if_pos rfl]
    exact Set.mem_insert _ _
  obtain ⟨b₄, h₄, k₄⟩ := bind_eq_ok.1 k₃
  obtain ⟨b₄', e₄, hf₄⟩ := ht₂.setIndex hp (fun s p hsp => by rw [ha.level, if_neg hsp]) hmem.2
  obtain rfl : b₄ = b₄' := Except.ok.inj (h₄.symm.trans e₄)
  obtain ⟨rfl, S₄, ht₄, _⟩ := hf₄
  obtain ⟨l₅, hl₅, rfl⟩ := onLadder_eq_ok.1 k₄
  obtain ⟨_, rfl⟩ := Ladder.modifyOrder_eq_ok.1 hl₅
  refine ⟨(ht₄.of_heads (fun _ _ => rfl)).covered, hmem, ?_, ?_⟩
  · show b₄.occupied isBuy ⊆ _
    rw [hocc, if_pos rfl]
    exact Set.insert_subset_insert (hu.occupied hi isBuy)
  · show b₄.occupied (!isBuy) = _
    rw [hocc, if_neg hne]
    ext p
    rw [Ladder.mem_occupied, Ladder.mem_occupied, hu.level, if_neg fun e => hne e.1]

theorem requeueOrder_occupied {i : Nat} (hc : b.Covered) (hi : i ≠ NULL_IDX)
    (h : b.requeueOrder i isBuy price = .ok b') : b'.Covered ∧ ∀ s, b'.occupied s ⊆ b.occupied s := by
  obtain ⟨b₁, h₁, h⟩ := bind_eq_ok.1 h
  obtain ⟨l₁, hl₁, rfl⟩ := onLadder_eq_ok.1 h₁
  obtain ⟨b₂, h₂, h⟩ := bind_eq_ok.1 h
  obtain ⟨l₂, hl₂, rfl⟩ := onLadder_eq_ok.1 h₂
  obtain ⟨l₃, hl₃, rfl⟩ := onLadder_eq_ok.1 h
  obtain ⟨_, rfl⟩ := Ladder.modifyOrder_eq_ok.1 hl₃
  have hu := Ladder.unlinked_of_eq_ok hl₁
  have htail := Ladder.tailLinked_of_eq_ok hl₂
  have hheads : ∀ s p, (l₂.level s p).head ≠ NULL_IDX → (b.level s p).head ≠ NULL_IDX := by
    intro s p hp
    rw [htail.level] at hp
    by_cases hsp : s = isBuy ∧ p = price
    · rw [if_pos hsp] at hp
      obtain ⟨rfl, rfl⟩ := hsp
      exact hu.head_ne_null hi hp
    · rwa [if_neg hsp, hu.level, if_neg hsp] at hp
  obtain ⟨S, ht⟩ := hc
  exact ⟨⟨S, ht.shrink hheads⟩, Ladder.occupied_subset hheads⟩

/-- If a replacement moves an order, no level of the other side trades at the new price. -/
def KeepsApart (b : FastBitsetOrderBook) : Request → Prop
  | .call _ => True
  | .replace id newPrice _ =>
    let order := b.order (b.slot id)
    id < b.idMap.size → b.slot id ≠ NULL_IDX → order.price ≠ newPrice →
      ∀ p ∈ b.occupied (!order.isBuy), ¬ Crosses order.isBuy newPrice p

theorem replaceOrder_uncrossed {id newPrice newQty : Nat} (hc : b.Covered) (hu : b.Uncrossed)
    (h : b.replaceOrder id newPrice newQty = .ok b') :
    b'.Covered ∧ (b'.Uncrossed ↔ b.KeepsApart (.replace id newPrice newQty)) := by
  unfold replaceOrder at h
  split at h
  · rename_i hid
    cases h
    exact ⟨hc, iff_of_true hu fun hlt => absurd hlt (by omega)⟩
  · obtain ⟨i, hi, h⟩ := bind_eq_ok.1 h
    obtain ⟨hid, rfl⟩ := Ladder.getSlot_eq_ok.1 hi
    split at h
    · rename_i hnull
      cases h
      exact ⟨hc, iff_of_true hu fun _ hne => absurd hnull hne⟩
    · rename_i hnull
      obtain ⟨b₁, h₁, h⟩ := bind_eq_ok.1 h
      obtain ⟨l, hl, rfl⟩ := onLadder_eq_ok.1 h
      obtain ⟨_, rfl⟩ := Ladder.modifyOrder_eq_ok.1 hl
      -- the last write changes no level
      suffices hrep : b₁.Covered ∧ (b₁.Uncrossed ↔ b.KeepsApart (.replace id newPrice newQty)) by
        obtain ⟨⟨S, ht⟩, hiff⟩ := hrep
        exact ⟨(ht.of_heads fun _ _ => rfl).covered, hiff⟩
      obtain ⟨o, ho, h₁⟩ := bind_eq_ok.1 h₁
      obtain ⟨_, rfl⟩ := Ladder.getOrder_eq_ok.1 ho
      obtain ⟨lv, _, h₁⟩ := bind_eq_ok.1 h₁
      split at h₁
      · rename_i hprice
        obtain ⟨hc₁, hmem, hsub, hother⟩ := moveOrder_occupied hc hnull h₁
        refine ⟨hc₁, fun hu₁ _ _ _ p hp hcross => ?_, fun hapart => ?_⟩
        · exact Ladder.not_uncrossed hmem (hother ▸ hp) hcross hu₁
        · exact hu.insert hsub hother.subset (hapart hid hnull hprice)
      · rename_i hprice
        have hkeep : b.KeepsApart (.replace id newPrice newQty) := fun _ _ hne => absurd hne hprice
        split at h₁
        · obtain ⟨hc₁, hsub⟩ := requeueOrder_occupied hc hnull h₁
          exact ⟨hc₁, iff_of_true (hu.mono hsub) hkeep⟩
        · cases h₁
          exact ⟨hc, iff_of_true hu hkeep⟩

/-- A request keeps the book uncrossed exactly if it keeps the sides apart. -/
theorem RequestStep.uncrossed {r : Request} (hc : b.Covered) (hu : b.Uncrossed) (h : b.RequestStep r b') :
    b'.Covered ∧ (b'.Uncrossed ↔ b.KeepsApart r) := by
  obtain ⟨fuel, h⟩ := h
  cases r with
  | replace id newPrice newQty => exact replaceOrder_uncrossed hc hu h
  | call c =>
    suffices hcall : b'.Covered ∧ b'.Uncrossed from ⟨hcall.1, iff_of_true hcall.2 trivial⟩
    cases c with
    | submit id price qty isBuy => exact submitOrder_uncrossed hc hu h
    | cancel id => exact cancelOrder_uncrossed hc hu h

theorem init_uncrossed {n : Nat} (h : b.init n = .ok b') : b'.Uncrossed := by
  obtain ⟨l, hl, h⟩ := bind_eq_ok.1 h
  cases h
  intro p hp
  refine absurd ?_ hp.2
  show (l.level true p).head = NULL_IDX
  rw [(Ladder.initialised_of_eq_ok hl).level]

/-- Along every run whose replacements keep the sides apart the book is uncrossed; and in every state of such a run the
next request keeps it uncrossed exactly if it keeps the sides apart too. -/
theorem uncrossed_run {n : Nat} {b₀ : FastBitsetOrderBook} (hinit : new.init n = .ok b₀) (rs : List Request)
    (b : FastBitsetOrderBook) (hrun : Run (Guarded KeepsApart RequestStep) b₀ rs b) :
    b.Uncrossed ∧ ∀ r b', b.RequestStep r b' → (b'.Uncrossed ↔ b.KeepsApart r) := by
  have hinv : b.Covered ∧ b.Uncrossed := by
    refine hrun.invariant (I := fun b => b.Covered ∧ b.Uncrossed) ⟨(Indexed.init hinit).covered,
      init_uncrossed hinit⟩ fun s r t ⟨hc, hu⟩ ⟨hapart, hstep⟩ => ?_
    obtain ⟨hc', hiff⟩ := hstep.uncrossed hc hu
    exact ⟨hc', hiff.2 hapart⟩
  exact ⟨hinv.2, fun r b' hstep => (hstep.uncrossed hinv.1 hinv.2).2⟩

/-- An ask rests at 5 when a bid at 3 moves to 7. -/
def moveAcross : List Request := [.call (.submit 0 5 10 false), .call (.submit 1 3 10 true), .replace 1 7 10]

theorem moveAcross_crosses :
    ∃ b₀ b, new.init 4 = .ok b₀ ∧ Run RequestStep b₀ moveAcross b ∧ 7 ∈ b.occupied true ∧ 5 ∈ b.occupied false ∧
      ¬ b.Uncrossed := by
  have hok : (new.init 4 >>= fun b => b.execAll 10 moveAcross).isOk = true := by decide +kernel
  obtain ⟨b₀, h₀, h⟩ := bind_eq_ok.1 (eq_ok_value new hok)
  have hbid : 7 ∈ (value (new.init 4 >>= fun b => b.execAll 10 moveAcross) new).occupied true :=
    ⟨by decide, by decide +kernel⟩
  have hask : 5 ∈ (value (new.init 4 >>= fun b => b.execAll 10 moveAcross) new).occupied false :=
    ⟨by decide, by decide +kernel⟩
  exact ⟨b₀, _, h₀, run_of_execAll h, hbid, hask, fun hu => absurd (hu 7 hbid 5 hask) (by decide)⟩

theorem uncrossed_run_submit : ∃ b₀ b, new.init 4 = .ok b₀ ∧ b₀.RequestStep (.call (.submit 0 5 10 false)) b ∧
    b.Uncrossed := by
  have hok : (new.init 4 >>= fun b => b.execRequest 10 (.call (.submit 0 5 10 false))).isOk = true := by
    decide +kernel
  obtain ⟨b₀, h₀, h⟩ := bind_eq_ok.1 (eq_ok_value new hok)
  have hstep : b₀.RequestStep (.call (.submit 0 5 10 false)) _ := ⟨10, h⟩
  have hrun : Run (Guarded KeepsApart RequestStep) b₀ [.call (.submit 0 5 10 false)] _ :=
    Run.single ⟨trivial, hstep⟩
  exact ⟨b₀, _, h₀, hstep, (uncrossed_run h₀ _ _ hrun).1⟩

end FastBitsetOrderBook

end Lobook
