import Lobook.Book.Representation

/-!
# What the index reports

The index marks the levels that are not empty.  That something can be traded at a marked price needs in addition that
every order of a level has something left: `match` unlinks an order as soon as it has nothing left, and `submit_order`
adds none, but `replace_order` writes whatever quantity it is given.  As long as no request writes the quantity 0, and
none unlinks an order through a stale back link, the best prices of the index are the best prices at which something
rests (`liquid_run`).
-/

namespace Lobook

open Checked Links Relation Transition

namespace Ladder

/-- The prices at which something can be traded. -/
def quoted (b : Ladder) (isBuy : Bool) : Set Nat := {p | p < MAX_PRICES ∧ 0 < b.volume isBuy p}

variable {b : Ladder} {Q : Bool × Nat → List Nat} {F : List Nat}

/-- If all orders have something left, something can be traded at every level that is not empty. -/
theorem Linked.quoted_eq (h : b.Linked Q F) (hpos : b.Positive Q) (isBuy : Bool) :
    b.quoted isBuy = b.occupied isBuy := by
  ext p
  rw [h.mem_occupied]
  constructor
  · rintro ⟨hp, hvolume⟩ hnil
    rw [h.volume_eq isBuy hp, hnil] at hvolume
    exact absurd hvolume (Nat.lt_irrefl 0)
  · intro hne
    obtain ⟨i, l, hk⟩ := List.exists_cons_of_ne_nil hne
    refine ⟨(h.of_cons hk).2.2.2.1, ?_⟩
    rw [h.volume_cons hk]
    exact Nat.add_pos_left (hpos _ i (hk ▸ List.mem_cons_self)) _

end Ladder

namespace FastBitsetOrderBook

open Ladder

/-- All orders in the levels have something left, and the index reports at which prices something can be traded. -/
structure Liquid (b : FastBitsetOrderBook) : Prop where
  meets : ∀ isBuy p, p < MAX_PRICES → b.Meets (b.level isBuy p).head (b.queue isBuy p)
  positive : ∀ isBuy p, p < MAX_PRICES → ∀ i ∈ b.queue isBuy p, 0 < (b.order i).qty
  bit : ∀ isBuy p, p < MAX_PRICES → ((b.index isBuy).test p = .ok true ↔ 0 < b.volume isBuy p)
  bid : ∃ best, (b.index true).findHighest = .ok best ∧ (best = none ↔ b.quoted true = ∅) ∧
    ∀ p, best = some p ↔ IsGreatest (b.quoted true) p
  ask : ∃ best, (b.index false).findLowest = .ok best ∧ (best = none ↔ b.quoted false = ∅) ∧
    ∀ p, best = some p ↔ IsLeast (b.quoted false) p

/-- The requests of a caller who submits new ids below `n`, and cancels and replaces orders that rest, at prices within
the ladder and with any quantity. -/
def Legal (n : Nat) (b : FastBitsetOrderBook) : Request → Prop
  | .call (.submit id price _ _) => id < n ∧ ¬ b.Resting id ∧ price < MAX_PRICES
  | .call (.cancel id) => b.Resting id
  | .replace id newPrice _ => b.Resting id ∧ newPrice < MAX_PRICES

/-- A request that takes an order out of its level does not write through a stale back link. -/
def Detaches (b : FastBitsetOrderBook) : Request → Prop
  | .call (.submit _ _ _ _) => True
  | .call (.cancel id) => b.UnlinksCleanly (b.slot id)
  | .replace id newPrice newQty => b.Moves (b.slot id) newPrice newQty → b.UnlinksCleanly (b.slot id)

/-- A replaced order has something left. -/
def LeavesQty : Request → Prop
  | .call _ => True
  | .replace _ _ newQty => 0 < newQty

variable {b b' : FastBitsetOrderBook} {Q : Bool × Nat → List Nat} {F : List Nat} {isBuy : Bool}
  {price i id newPrice newQty n : Nat}

/-- With an exact index, the reports are right exactly if all orders have something left. -/
theorem Indexed.liquid_iff (hi : b.Indexed) (h : b.Linked Q F) : b.Liquid ↔ b.Positive Q := by
  constructor
  · rintro hliquid ⟨s, p⟩ i hk
    have hp : p < MAX_PRICES := h.price_lt _ i hk
    exact hliquid.positive s p hp i ((h.queue_eq hp).symm ▸ hk)
  · intro hpos
    have hquoted := h.quoted_eq hpos
    refine ⟨fun s p hp => ?_, fun s p hp i hk => ?_, fun s p hp => ?_, ?_, ?_⟩
    · rw [h.queue_eq hp]
      exact h.meets (k := (s, p)) hp
    · rw [h.queue_eq hp] at hk
      exact hpos _ i hk
    · rw [hi.test hp]
      have hmem := Set.ext_iff.1 (hquoted s) p
      exact ⟨fun hhead => (hmem.2 ⟨hp, hhead⟩).2, fun hvolume => (hmem.1 ⟨hp, hvolume⟩).2⟩
    · rw [hquoted]
      exact PriceBitset.reports_iff (fun _ hp => hp.1) (fun _ _ hp hq => hp.unique hq) (hi true).findHighest
    · rw [hquoted]
      exact PriceBitset.reports_iff (fun _ hp => hp.1) (fun _ _ hp hq => hp.unique hq) (hi false).findLowest

/-! ### What the requests leave -/

/-- A book of `n` ids with an exact index, whose links thread the pool, and whose orders have something left. -/
def Stocked (n : Nat) (b : FastBitsetOrderBook) : Prop :=
  ∃ Q F, b.Indexed ∧ b.Pool Q F ∧ b.Positive Q ∧ b.idMap.size = n

/-- The book after a request: everything but the quantities is in order. -/
def Stocks (b : FastBitsetOrderBook) (n : Nat) (r : Request) : Prop :=
  ∃ b' Q' F', b.RequestStep r b' ∧ b'.Indexed ∧ b'.Pool Q' F' ∧ b'.idMap.size = n ∧ (b'.Positive Q' ↔ LeavesQty r)

theorem submit_stocks (hi : b.Indexed) (h : b.Pool Q F) (hpos : b.Positive Q) (hsize : b.idMap.size = n)
    (hid : id < n) (hrest : ¬ b.Resting id) (hp : price < MAX_PRICES) (qty : Nat) (isBuy : Bool) :
    b.Stocks n (.call (.submit id price qty isBuy)) := by
  have hfresh : ∀ k, ∀ j ∈ Q k, (b.order j).id ≠ id := h.fresh hrest
  obtain ⟨b₁, b', qty', hstep, hi', htrades, _, hall⟩ := submitOrder_pool hi h (hsize ▸ hid) hfresh hp qty isBuy
  obtain ⟨Q₁, F₁, h₁, hpos₁⟩ := h.trades (P := fun b₁ Q₁ _ _ => b₁.Positive Q₁) hpos
    (fun b₁ Q₁ F₁ qty₁ p i l h₁ hpos₁ hk _ _ _ => h₁.positive_popped hpos₁ hk)
    (fun b₁ Q₁ F₁ qty₁ p i l h₁ hpos₁ hk _ _ hlt => h₁.positive_reduced hpos₁ hk hlt) htrades
  have hsize₁ : b₁.idMap.size = n := (trades_size htrades).2.trans hsize
  obtain ⟨hfresh₁, ⟨_, rfl⟩ | ⟨i, F₂, hq, rfl, happ, h'⟩⟩ := hall Q₁ F₁ h₁
  · exact ⟨b', Q₁, F₁, hstep, hi', h₁, hsize₁, iff_of_true hpos₁ trivial⟩
  · refine ⟨b', _, F₂, hstep, hi', h', ?_, iff_of_true (h₁.positive_rested hpos₁ hfresh₁ hq happ) trivial⟩
    rw [happ.idMap]
    exact hsize₁

theorem cancel_stocks (hi : b.Indexed) (h : b.Pool Q F) (hpos : b.Positive Q) (hsize : b.idMap.size = n)
    (hmem : i ∈ Q (isBuy, price)) (hclean : b.UnlinksCleanly i) : b.Stocks n (.call (.cancel (b.order i).id)) := by
  obtain ⟨l₁, l₂, hk⟩ := List.append_of_mem hmem
  obtain ⟨b₁, b', e, hi', hu, hb', h'⟩ := cancelOrder_pool hi h hk hclean
  obtain ⟨hQ, _⟩ := h.unlinked hk (h.first_of_clean hk hclean) hu
  refine ⟨b', _, _, ⟨0, e⟩, hi', h', ?_, iff_of_true ?_ trivial⟩
  · rw [hb', ← hsize, ← hu.idMap]
    rfl
  · rw [hb']
    exact Linked.positive_freed (h.positive_unlinked hpos hk hu) hQ

theorem replace_stocks (hi : b.Indexed) (h : b.Pool Q F) (hpos : b.Positive Q) (hsize : b.idMap.size = n)
    (hmem : i ∈ Q (isBuy, price)) (hclean : b.Moves i newPrice newQty → b.UnlinksCleanly i)
    (hp : newPrice < MAX_PRICES) : b.Stocks n (.replace (b.order i).id newPrice newQty) := by
  obtain ⟨l₁, l₂, hk⟩ := List.append_of_mem hmem
  obtain ⟨b', e, hi', ⟨_, rfl, hb'⟩ | ⟨_, hm, h'⟩⟩ := replaceOrder_pool hi h hk hclean hp
  · rw [← (h.place_eq hmem).2] at hb'
    refine ⟨b', Q, F, ⟨0, e⟩, hi', hb' ▸ h.withQty i newQty, by rw [hb']; exact hsize, ?_⟩
    rw [hb']
    refine ⟨fun hpos' => ?_, fun hq => Linked.positive_withQty hpos hq⟩
    have hi := hpos' _ i hmem
    rwa [order_withOrder, if_pos rfl] at hi
  · obtain ⟨b₁, b₂, hu, ha, he, horder⟩ := hm.blocks
    have hQ : ∀ k, i ∉ Function.update Q (isBuy, price) (l₁ ++ l₂) k :=
      fun k hj => (h.threads.mem_of_unlink hk hj).2 rfl
    refine ⟨b', _, F, ⟨0, e⟩, hi', h', by rw [he.idMap, ha.idMap, hu.idMap, hsize], fun hpos' => ?_, fun hq => ?_⟩
    · have hi := hpos' (isBuy, newPrice) i mem_append_self
      rwa [horder] at hi
    · refine Linked.positive_appended (h.positive_unlinked hpos hk hu) hQ ha he ?_
      rw [horder]
      exact hq

/-- After a legal request all orders have something left exactly if a replaced one has. -/
theorem Stocked.request (hs : Stocked n b) {r : Request} (hlegal : Legal n b r) (hdetach : b.Detaches r) :
    b.Stocks n r := by
  obtain ⟨Q, F, hi, h, hpos, hsize⟩ := hs
  match r with
  | .call (.submit id price qty isBuy) =>
    obtain ⟨hid, hrest, hp⟩ := hlegal
    exact submit_stocks hi h hpos hsize hid hrest hp qty isBuy
  | .call (.cancel id) =>
    obtain ⟨k, i, hmem, rfl⟩ := h.resting_iff.1 hlegal
    have hclean : b.UnlinksCleanly (b.slot (b.order i).id) := hdetach
    rw [(h.mapped k i hmem).2] at hclean
    exact cancel_stocks hi h hpos hsize hmem hclean
  | .replace id newPrice newQty =>
    obtain ⟨hrest, hp⟩ := hlegal
    obtain ⟨k, i, hmem, rfl⟩ := h.resting_iff.1 hrest
    have hclean : b.Moves (b.slot (b.order i).id) newPrice newQty → b.UnlinksCleanly (b.slot (b.order i).id) := hdetach
    rw [(h.mapped k i hmem).2] at hclean
    exact replace_stocks hi h hpos hsize hmem hclean hp

theorem stocked_init (hinit : new.init n = .ok b) : Stocked n b ∧ ∀ id, ¬ b.Resting id := by
  have hi := Indexed.init hinit
  obtain ⟨l, hl, h⟩ := bind_eq_ok.1 hinit
  cases h
  have hpool := Pool.init (Ladder.initialised_of_eq_ok hl)
  refine ⟨⟨_, _, hi, hpool, fun k i hi => ?_, (Ladder.initialised_of_eq_ok hl).map_size⟩, fun id hrest => ?_⟩
  · cases hi
  · obtain ⟨_, _, hi, _⟩ := hpool.resting_iff.1 hrest
    cases hi

/-- Along every run that writes no quantity 0, the index reports at which prices something can be traded; and in every
state of such a run the next request keeps this exactly if it writes no quantity 0 either. -/
theorem liquid_run {b₀ : FastBitsetOrderBook} (hinit : new.init n = .ok b₀) (rs : List Request)
    (b : FastBitsetOrderBook)
    (hrun : Run (Guarded (fun b r => Legal n b r ∧ b.Detaches r ∧ LeavesQty r) RequestStep) b₀ rs b) :
    b.Liquid ∧ ∀ r b', Legal n b r → b.Detaches r → b.RequestStep r b' → (b'.Liquid ↔ LeavesQty r) := by
  have hstocked : Stocked n b := by
    refine hrun.invariant (I := Stocked n) (stocked_init hinit).1 ?_
    rintro s r t hs ⟨⟨hlegal, hdetach, hqty⟩, hstep⟩
    obtain ⟨t', Q', F', hstep', hi', h', hsize', hiff⟩ := hs.request hlegal hdetach
    obtain rfl := hstep.unique hstep'
    exact ⟨Q', F', hi', h', hiff.2 hqty, hsize'⟩
  refine ⟨?_, fun r b' hlegal hdetach hstep => ?_⟩
  · obtain ⟨Q, F, hi, h, hpos, _⟩ := hstocked
    exact (hi.liquid_iff h.toLinked).2 hpos
  · obtain ⟨t', Q', F', hstep', hi', h', _, hiff⟩ := hstocked.request hlegal hdetach
    obtain rfl := hstep.unique hstep'
    exact (hi'.liquid_iff h'.toLinked).trans hiff

/-! ### An order with nothing left -/

/-- An ask, which is then replaced by one with nothing left. -/
def emptyAsk : List Request := [.call (.submit 0 5 10 false), .replace 0 5 0]

private theorem emptyAsk_steps : ∃ b₀ b₁ b₂, new.init 1 = .ok b₀ ∧ b₀.RequestStep (.call (.submit 0 5 10 false)) b₁ ∧
    b₁.RequestStep (.replace 0 5 0) b₂ ∧ 0 ∈ b₁.queue false 5 ∧ (b₁.order 0).id = 0 ∧ 0 ∈ b₂.queue false 5 ∧
    (b₂.order 0).qty = 0 := by
  have hok : (new.init 1 >>= fun b₀ => b₀.execRequest 10 (.call (.submit 0 5 10 false)) >>= fun b₁ =>
      b₁.execRequest 10 (.replace 0 5 0) >>= fun b₂ => pure (b₀, b₁, b₂)).isOk = true := by
    decide +kernel
  obtain ⟨b₀, h₀, h⟩ := bind_eq_ok.1 (eq_ok_value (new, new, new) hok)
  obtain ⟨b₁, h₁, h⟩ := bind_eq_ok.1 h
  obtain ⟨b₂, h₂, h⟩ := bind_eq_ok.1 h
  cases h
  refine ⟨_, _, _, h₀, ⟨10, h₁⟩, ⟨10, h₂⟩, ?_, ?_, ?_, ?_⟩
  all_goals decide +kernel

theorem emptyAsk_not_liquid : ∃ b₀ b, new.init 1 = .ok b₀ ∧ Run (Guarded (Legal 1) RequestStep) b₀ emptyAsk b ∧
    (∃ i ∈ b.queue false 5, (b.order i).qty = 0) ∧ ¬ b.Liquid := by
  obtain ⟨b₀, b₁, b₂, h₀, h₁, h₂, hmem, hid, hmem', hqty⟩ := emptyAsk_steps
  have hrest : b₁.Resting 0 := ⟨false, 5, by decide, 0, hmem, hid⟩
  have hrun : Run (Guarded (Legal 1) RequestStep) b₀ emptyAsk b₂ :=
    (Run.single ⟨⟨by decide, (stocked_init h₀).2 0, by decide⟩, h₁⟩).snoc ⟨⟨hrest, by decide⟩, h₂⟩
  refine ⟨b₀, b₂, h₀, hrun, ⟨0, hmem', hqty⟩, fun hliquid => ?_⟩
  have hpos := hliquid.positive false 5 (by decide) 0 hmem'
  rw [hqty] at hpos
  exact absurd hpos (Nat.lt_irrefl 0)

/-- A run of one order that rests. -/
theorem liquid_run_submit : ∃ b₀ b, new.init 1 = .ok b₀ ∧ b₀.RequestStep (.call (.submit 0 5 10 false)) b ∧
    b.Liquid := by
  obtain ⟨b₀, b₁, _, h₀, h₁, _⟩ := emptyAsk_steps
  have hrun : Run (Guarded (fun b r => Legal 1 b r ∧ b.Detaches r ∧ LeavesQty r) RequestStep) b₀
      [.call (.submit 0 5 10 false)] b₁ :=
    Run.single ⟨⟨⟨by decide, (stocked_init h₀).2 0, by decide⟩, trivial, trivial⟩, h₁⟩
  exact ⟨b₀, b₁, h₀, h₁, (liquid_run h₀ _ _ hrun).1⟩

end FastBitsetOrderBook

end Lobook
