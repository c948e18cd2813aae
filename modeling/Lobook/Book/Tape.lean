import Lobook.Book.NaiveLookup
import Lobook.Book.Priority

/-!
# The tape

Each trade of an incoming order is a deal with the order that makes it, at its price.  The deals of one call are within
the limit, at prices that get no better, each with another maker, and of a positive quantity, together what has left the
order (`Prints.orderly`).  The reference book counts in `total_trades` exactly the deals of all its calls (`tape_run`).
-/

namespace Lobook

open Checked Naive PriceTime Relation Transition

namespace PriceTime

structure Deal (ι : Type) where
  maker : ι
  price : Nat
  qty : Nat
  deriving DecidableEq

variable {ι : Type} {A A' : Quotes ι} {isBuy : Bool} {limit qty qty' : Nat} {s t : Quotes ι × Nat} {d : Deal ι}
  {deals : List (Deal ι)}

/-- A trade, with its deal. -/
inductive DealStep (isBuy : Bool) (limit : Nat) : Quotes ι × Nat → Deal ι → Quotes ι × Nat → Prop
  | full {A : Quotes ι} {qty p : Nat} {e : ι × Nat} {l : List (ι × Nat)} (hq : 0 < qty) (hbest : Best isBuy limit A p)
      (hA : A (!isBuy, p) = e :: l) (h : e.2 ≤ qty) :
      DealStep isBuy limit (A, qty) ⟨e.1, p, e.2⟩ (Function.update A (!isBuy, p) l, qty - e.2)
  | part {A : Quotes ι} {qty p : Nat} {e : ι × Nat} {l : List (ι × Nat)} (hq : 0 < qty) (hbest : Best isBuy limit A p)
      (hA : A (!isBuy, p) = e :: l) (h : qty < e.2) :
      DealStep isBuy limit (A, qty) ⟨e.1, p, qty⟩ (Function.update A (!isBuy, p) ((e.1, e.2 - qty) :: l), 0)

/-- Every order has a quantity. -/
def Positive (A : Quotes ι) : Prop := ∀ k, ∀ x ∈ A k, 0 < x.2

theorem DealStep.trade (h : DealStep isBuy limit s d t) : Trade isBuy limit s t := by
  cases h with
  | full hq hbest hA hle => exact Trade.full hq hbest hA hle
  | part hq hbest hA hlt => exact Trade.part hq hbest hA hlt

theorem deals_trades (h : Run (DealStep isBuy limit) s deals t) : ReflTransGen (Trade isBuy limit) s t := by
  induction h with
  | refl => exact ReflTransGen.refl
  | snoc _ hs ih => exact ih.tail hs.trade

/-! ### One deal -/

theorem DealStep.best (h : DealStep isBuy limit s d t) : Best isBuy limit s.1 d.price := by
  cases h with
  | full _ hbest _ _ => exact hbest
  | part _ hbest _ _ => exact hbest

theorem DealStep.qty_eq (h : DealStep isBuy limit s d t) : d.qty + t.2 = s.2 := by
  cases h with
  | full _ _ _ hle => exact Nat.add_sub_cancel' hle
  | part => rfl

theorem DealStep.pos (h : DealStep isBuy limit s d t) : 0 < s.2 := by
  cases h with
  | full hq => exact hq
  | part hq => exact hq

/-- The maker is the first order of the best price, and is gone after the deal unless nothing is left to trade. -/
theorem DealStep.maker (hd : Distinct A) (h : DealStep isBuy limit (A, qty) d (A', qty')) :
    (∃ x ∈ A (!isBuy, d.price), x.1 = d.maker) ∧ (Gone A' d.maker ∨ qty' = 0) := by
  cases h with
  | @full _ _ p e l _ _ hA _ =>
    have he : e ∈ A (!isBuy, p) := by rw [hA]; exact List.mem_cons_self
    refine ⟨⟨e, he, rfl⟩, Or.inl fun k x hx hid => ?_⟩
    rcases eq_or_ne k (!isBuy, p) with rfl | hne
    · rw [Function.update_self] at hx
      have hnodup := hd.nodup (!isBuy, p)
      rw [hA, List.map_cons] at hnodup
      apply (List.nodup_cons.1 hnodup).1
      rw [show e.1 = x.1 from hid.symm]
      exact List.mem_map_of_mem hx
    · rw [Function.update_of_ne hne] at hx
      exact hne (hd.apart _ _ x e hx he hid)
  | @part _ _ p e l _ _ hA _ =>
    have he : e ∈ A (!isBuy, p) := by rw [hA]; exact List.mem_cons_self
    exact ⟨⟨e, he, rfl⟩, Or.inr rfl⟩

/-- A deal has a quantity, and leaves orders that have one. -/
theorem DealStep.positive (hpos : Positive A) (h : DealStep isBuy limit (A, qty) d (A', qty')) :
    0 < d.qty ∧ Positive A' := by
  have hupdate : ∀ p e l l', A (!isBuy, p) = e :: l → (∀ x ∈ l', x ∈ l ∨ 0 < x.2) →
      Positive (Function.update A (!isBuy, p) l') := by
    intro p e l l' hA hl k x hx
    rcases eq_or_ne k (!isBuy, p) with rfl | hne
    · rw [Function.update_self] at hx
      rcases hl x hx with hx | hx
      · exact hpos (!isBuy, p) x (by rw [hA]; exact List.mem_cons_of_mem _ hx)
      · exact hx
    · rw [Function.update_of_ne hne] at hx
      exact hpos k x hx
  cases h with
  | @full _ _ p e l _ _ hA _ =>
    refine ⟨hpos (!isBuy, p) e (by rw [hA]; exact List.mem_cons_self), ?_⟩
    exact hupdate p e l l hA fun x hx => Or.inl hx
  | @part _ _ p e l hq _ hA hlt =>
    refine ⟨hq, hupdate p e l _ hA fun x hx => ?_⟩
    rcases List.mem_cons.1 hx with rfl | hx
    · right
      show 0 < e.2 - qty
      omega
    · exact Or.inl hx

/-! ### The deals of an order -/

/-- The deals of an order of this side, limit and quantity. -/
structure Orderly (isBuy : Bool) (limit qty : Nat) (deals : List (Deal ι)) : Prop where
  within : ∀ d ∈ deals, Crosses isBuy limit d.price
  positive : ∀ d ∈ deals, 0 < d.qty
  prices : deals.Pairwise fun d d' => ¬ Better isBuy d'.price d.price
  makers : (deals.map Deal.maker).Nodup
  total : (deals.map Deal.qty).sum ≤ qty

/-- Each deal is at a price that is no better than those before, with a maker that has not traded yet. -/
theorem deals_orderly (hd : Distinct A) (hpos : Positive A)
    (h : Run (DealStep isBuy limit) (A, qty) deals (A', qty')) :
    Orderly isBuy limit qty deals ∧ (deals.map Deal.qty).sum + qty' = qty ∧ Distinct A' ∧ Positive A' := by
  suffices hall : Orderly isBuy limit qty deals ∧ (deals.map Deal.qty).sum + qty' = qty ∧ Distinct A' ∧ Positive A' ∧
      (∀ d ∈ deals, ∀ q, A' (!isBuy, q) ≠ [] → ¬ Better isBuy q d.price) ∧
      ∀ d ∈ deals, Gone A' d.maker ∨ qty' = 0 from ⟨hall.1, hall.2.1, hall.2.2.1, hall.2.2.2.1⟩
  generalize ht : (A', qty') = t at h
  induction h generalizing A' qty' with
  | refl =>
    cases ht
    refine ⟨⟨?_, ?_, List.Pairwise.nil, List.nodup_nil, Nat.zero_le _⟩, Nat.zero_add _, hd, hpos, ?_, ?_⟩ <;>
      exact fun d hd => absurd hd List.not_mem_nil
  | @snoc deals d t u _ hs ih =>
    obtain ⟨A₁, qty₁⟩ := t
    subst ht
    obtain ⟨horderly, hsum, hd₁, hpos₁, hbest, hgone⟩ := ih rfl
    obtain ⟨⟨x, hx, hmaker⟩, hfilled⟩ := hs.maker hd₁
    obtain ⟨hqty, hpos'⟩ := hs.positive hpos₁
    have hleft : d.qty + qty' = qty₁ := hs.qty_eq
    have hmore : 0 < qty₁ := hs.pos
    have hsum' : ((deals ++ [d]).map Deal.qty).sum + qty' = qty := by
      rw [List.map_append, List.sum_append, List.map_singleton, List.sum_singleton]
      omega
    have hprices : ∀ q, A' (!isBuy, q) ≠ [] → A₁ (!isBuy, q) ≠ [] := fun q hq =>
      trades_prices (ReflTransGen.single hs.trade) (!isBuy) hq
    -- the maker of the new deal still rested, so it is none of those before
    have hnew : ∀ d' ∈ deals, d'.maker ≠ d.maker := by
      intro d' hd' heq
      rcases hgone d' hd' with hgone | hzero
      · exact hgone _ x hx (hmaker.trans heq.symm)
      · omega
    refine ⟨⟨?_, ?_, ?_, ?_, by omega⟩, hsum', hd₁.of_ids hs.trade.ids_sublist, hpos', ?_, ?_⟩
    · intro d' hd'
      rcases List.mem_append.1 hd' with hd' | hd'
      · exact horderly.within d' hd'
      · rw [List.mem_singleton.1 hd']
        exact hs.best.crosses
    · intro d' hd'
      rcases List.mem_append.1 hd' with hd' | hd'
      · exact horderly.positive d' hd'
      · rw [List.mem_singleton.1 hd']
        exact hqty
    · refine List.pairwise_append.2 ⟨horderly.prices, List.pairwise_singleton _ _, fun d' hd' d'' hd'' => ?_⟩
      rw [List.mem_singleton.1 hd'']
      exact hbest d' hd' d.price (List.ne_nil_of_mem hx)
    · rw [List.map_append, List.map_singleton]
      refine List.nodup_append.2 ⟨horderly.makers, List.nodup_singleton _, fun i hi j hj => ?_⟩
      obtain ⟨d', hd', rfl⟩ := List.mem_map.1 hi
      rw [List.mem_singleton.1 hj]
      exact hnew d' hd'
    · intro d' hd' q hq
      rcases List.mem_append.1 hd' with hd' | hd'
      · exact hbest d' hd' q (hprices q hq)
      · rw [List.mem_singleton.1 hd']
        exact hs.best.best q (hprices q hq)
    · intro d' hd'
      rcases List.mem_append.1 hd' with hd' | hd'
      · rcases hgone d' hd' with hgone | hzero
        · exact Or.inl (hgone.trades (ReflTransGen.single hs.trade))
        · omega
      · rw [List.mem_singleton.1 hd']
        exact hfilled

/-- A call, with the deals it leads to. -/
inductive Prints : Quotes Nat → Call × List (Deal Nat) → Quotes Nat → Prop
  | submit {A A' : Quotes Nat} {id price qty qty' : Nat} {isBuy : Bool} {deals : List (Deal Nat)}
      (h : Run (DealStep isBuy price) (A, qty) deals (A', qty')) (hend : Ended isBuy price (A', qty')) :
      Prints A (.submit id price qty isBuy, deals) (rest A' id price qty' isBuy)
  | cancel {A : Quotes Nat} {id : Nat} : Prints A (.cancel id, []) (withdraw A id)

/-- A submitted order has the deals of its side, limit and quantity; a cancelled one has none. -/
def Proper : Call × List (Deal Nat) → Prop
  | (.submit _ price qty isBuy, deals) => Orderly isBuy price qty deals
  | (.cancel _, deals) => deals = []

theorem Prints.proper {A A' : Quotes Nat} {entry : Call × List (Deal Nat)} (hd : Distinct A) (hpos : Positive A)
    (h : Prints A entry A') : Proper entry := by
  cases h with
  | submit hrun _ => exact (deals_orderly hd hpos hrun).1
  | cancel => rfl

end PriceTime

namespace NaiveOrderBook

open LevelMap

variable {b b' : NaiveOrderBook} {isBuy : Bool} {p limit qty qty' : Nat} {l l' : List Node} {rest : LevelMap}

/-- A round of `process_list` is over, or makes one deal with the first order of the list. -/
theorem processRound_deal (hv : (b.withLevels (!isBuy) ((p, l) :: rest)).Valid) (hc : Crosses isBuy limit p) (qty : Nat) :
    processRound (b, l, qty) = .ok (.done (b, l, qty)) ∨
      ∃ b' l' qty' d, processRound (b, l, qty) = .ok (.again (b', l', qty')) ∧ b'.levels = b.levels ∧
        b'.totalTrades = b.totalTrades + 1 ∧ (b'.withLevels (!isBuy) ((p, l') :: rest)).Valid ∧
        DealStep isBuy limit ((b.withLevels (!isBuy) ((p, l) :: rest)).quotes, qty) d
          ((b'.withLevels (!isBuy) ((p, l') :: rest)).quotes, qty') := by
  cases l with
  | nil => exact Or.inl rfl
  | cons node l =>
    rcases Nat.eq_zero_or_pos qty with rfl | hq
    · exact Or.inl rfl
    · right
      have hlist : (b.withLevels (!isBuy) ((p, node :: l) :: rest)).list (!isBuy) p = [] ++ node :: l := by
        rw [list_withLevels, if_pos rfl, listAt, if_pos rfl, List.nil_append]
      have hquote : (b.withLevels (!isBuy) ((p, node :: l) :: rest)).quotes (!isBuy, p) =
          entry node :: l.map entry := by
        simp only [quotes, hlist, List.nil_append, List.map_cons]
      rcases Nat.lt_or_ge qty node.order.qty with hlt | hge
      · let node' : Node := { node with order := { node.order with qty := node.order.qty - qty } }
        let b₁ : NaiveOrderBook := { b with totalTrades := b.totalTrades + 1 }
        have hround : processRound (b, node :: l, qty) = .ok (.again (b₁, node' :: l, 0)) := by
          have hmin : min qty node.order.qty = qty := Nat.min_eq_left (Nat.le_of_lt hlt)
          have hrest : ¬ node.order.qty - qty = 0 := by omega
          simp only [processRound, if_pos hq, hmin, if_neg hrest, Nat.sub_self, pure_eq_ok, node', b₁]
        have hb : Replaces (b.withLevels (!isBuy) ((p, node :: l) :: rest)) (!isBuy) p (node' :: l)
            (b₁.withLevels (!isBuy) ((p, node' :: l) :: rest)) := replaces_front b b₁ rfl
        have hv₁ : (b₁.withLevels (!isBuy) ((p, node' :: l) :: rest)).Valid :=
          hv.rewrite hlist (show node'.itr = node.itr from rfl) (show node'.order.id = node.order.id from rfl)
            (sorted_front b b₁ rfl hv) hb rfl rfl
        refine ⟨b₁, node' :: l, 0, ⟨(entry node).1, p, qty⟩, hround, rfl, rfl, hv₁, ?_⟩
        rw [hb.quotes]
        exact DealStep.part hq (best_front hv hc) hquote hlt
      · let b₁ : NaiveOrderBook := { b with
          totalTrades := b.totalTrades + 1
          orderLookup := Function.update b.orderLookup node.order.id none }
        have hknown : b.orderLookup node.order.id = some ⟨p, !isBuy, node.itr⟩ :=
          hv.known (!isBuy) p node (by rw [hlist]; exact List.mem_cons_self)
        have hround : processRound (b, node :: l, qty) = .ok (.again (b₁, l, qty - node.order.qty)) := by
          have hmin : min qty node.order.qty = node.order.qty := Nat.min_eq_right hge
          simp only [processRound, if_pos hq, hmin, Nat.sub_self, if_true, eraseLookup, hknown, pure_eq_ok, ok_bind, b₁]
        have hb : Replaces (b.withLevels (!isBuy) ((p, node :: l) :: rest)) (!isBuy) p ([] ++ l)
            (b₁.withLevels (!isBuy) ((p, l) :: rest)) := replaces_front b b₁ rfl
        have hv₁ : (b₁.withLevels (!isBuy) ((p, l) :: rest)).Valid :=
          hv.remove hlist (sorted_front b b₁ rfl hv) hb rfl rfl
        refine ⟨b₁, l, _, ⟨(entry node).1, p, (entry node).2⟩, hround, rfl, rfl, hv₁, ?_⟩
        rw [hb.quotes]
        exact DealStep.full hq (best_front hv hc) hquote hge

/-- `process_list` counts the deals it makes. -/
theorem processList_deals (hv : (b.withLevels (!isBuy) ((p, l) :: rest)).Valid) (hc : Crosses isBuy limit p)
    {fuel : Nat} (h : b.processList fuel l qty = .ok (b', l', qty')) :
    b'.levels = b.levels ∧ (b'.withLevels (!isBuy) ((p, l') :: rest)).Valid ∧
      ∃ deals, b'.totalTrades = b.totalTrades + deals.length ∧
        Run (DealStep isBuy limit) ((b.withLevels (!isBuy) ((p, l) :: rest)).quotes, qty) deals
          ((b'.withLevels (!isBuy) ((p, l') :: rest)).quotes, qty') := by
  let I : NaiveOrderBook × List Node × Nat → Prop := fun r =>
    r.1.levels = b.levels ∧ (r.1.withLevels (!isBuy) ((p, r.2.1) :: rest)).Valid ∧
      ∃ deals, r.1.totalTrades = b.totalTrades + deals.length ∧
        Run (DealStep isBuy limit) ((b.withLevels (!isBuy) ((p, l) :: rest)).quotes, qty) deals
          ((r.1.withLevels (!isBuy) ((p, r.2.1) :: rest)).quotes, r.2.2)
  have hloop : Sat (fun _ => True) (b.processList fuel l qty) I := by
    refine Sat.loop (I := I) trivial (fun s hs => ?_) fuel ⟨rfl, hv, [], rfl, Run.refl⟩
    obtain ⟨b₁, l₁, qty₁⟩ := s
    obtain ⟨hlevels, hv₁, deals, hcount, hrun⟩ := hs
    rcases processRound_deal hv₁ hc qty₁ with hround | ⟨b₂, l₂, qty₂, d, hround, hlevels₂, hcount₂, hv₂, hdeal⟩
    · exact Sat.ok_of hround ⟨hlevels, hv₁, deals, hcount, hrun⟩
    · refine Sat.ok_of hround ⟨hlevels₂.trans hlevels, hv₂, deals ++ [d], ?_, hrun.snoc hdeal⟩
      rw [List.length_append, List.length_singleton, hcount₂, hcount]
      exact Nat.add_assoc _ _ _
  exact hloop.of_ok h

/-- `match` counts the deals it makes. -/
theorem matchOrder_deals (hv : b.Valid) {fuel : Nat} (h : b.matchOrder fuel limit qty isBuy = .ok (b', qty')) :
    b'.Valid ∧ ∃ deals, b'.totalTrades = b.totalTrades + deals.length ∧
      Run (DealStep isBuy limit) (b.quotes, qty) deals (b'.quotes, qty') := by
  let I : NaiveOrderBook × Nat → Prop := fun r =>
    r.1.Valid ∧ ∃ deals, r.1.totalTrades = b.totalTrades + deals.length ∧
      Run (DealStep isBuy limit) (b.quotes, qty) deals (r.1.quotes, r.2)
  have hloop : Sat (fun _ => True) (b.matchOrder fuel limit qty isBuy) I := by
    refine Sat.loop (I := I) trivial (fun s hs => ?_) fuel ⟨hv, [], rfl, Run.refl⟩
    obtain ⟨b₁, qty₁⟩ := s
    obtain ⟨hv₁, deals, hcount, hrun⟩ := hs
    simp only [matchRound]
    cases hm : b₁.levels (!isBuy) with
    | nil => exact ⟨hv₁, deals, hcount, hrun⟩
    | cons e rest =>
      obtain ⟨p, l⟩ := e
      simp only
      split
      · split
        · rename_i hc
          have hself : b₁.withLevels (!isBuy) ((p, l) :: rest) = b₁ := withLevels_self hm
          have hlist : Sat (fun _ => True) (b₁.processList fuel l qty₁) fun r => r.1.levels = b₁.levels ∧
              (r.1.withLevels (!isBuy) ((p, r.2.1) :: rest)).Valid ∧
                ∃ deals, r.1.totalTrades = b₁.totalTrades + deals.length ∧ Run (DealStep isBuy limit)
                  (b₁.quotes, qty₁) deals ((r.1.withLevels (!isBuy) ((p, r.2.1) :: rest)).quotes, r.2.2) := by
            refine sat_true_iff.2 fun r hr => ?_
            have hdeals := processList_deals (hself.symm ▸ hv₁) hc hr
            rwa [hself] at hdeals
          refine Sat.bind hlist fun r hr => ?_
          obtain ⟨b₂, l₂, qty₂⟩ := r
          obtain ⟨_, hv₂, deals₂, hcount₂, hrun₂⟩ := hr
          have hcount' : b₂.totalTrades = b.totalTrades + (deals ++ deals₂).length := by
            rw [List.length_append, hcount₂, hcount]
            exact Nat.add_assoc _ _ _
          cases l₂ with
          | nil =>
            -- the list is empty: its price leaves the map
            obtain ⟨hv₃, hquotes⟩ := hv₂.erase_front
            exact ⟨hv₃, deals ++ deals₂, hcount', hquotes ▸ hrun.trans hrun₂⟩
          | cons node l₂ => exact ⟨hv₂, deals ++ deals₂, hcount', hrun.trans hrun₂⟩
        · exact ⟨hv₁, deals, hcount, hrun⟩
      · exact ⟨hv₁, deals, hcount, hrun⟩
  exact hloop.of_ok h

/-! ### Calls -/

theorem addOrder_trades {fuel id : Nat} (h : b.addOrder fuel id limit qty isBuy = .ok b') :
    ∃ b₁ qty', b.matchOrder fuel limit qty isBuy = .ok (b₁, qty') ∧ b'.totalTrades = b₁.totalTrades := by
  obtain ⟨⟨b₁, qty'⟩, hmatch, h⟩ := bind_eq_ok.1 h
  refine ⟨b₁, qty', hmatch, ?_⟩
  dsimp only at h
  split at h
  · obtain ⟨m, _, h⟩ := bind_eq_ok.1 h
    cases h
    rfl
  · cases h
    rfl

theorem cancelOrder_trades {id : Nat} (h : b.cancelOrder id = .ok b') : b'.totalTrades = b.totalTrades := by
  unfold cancelOrder at h
  split at h
  · cases h
    rfl
  · obtain ⟨m, _, h⟩ := bind_eq_ok.1 h
    cases h
    rfl

/-- A call counts the deals it leads to. -/
theorem Valid.step_prints (hv : b.Valid) {c : Call} (hfresh : b.Fresh c) (hstep : b.Step c b') :
    b'.Valid ∧ ∃ deals, b'.totalTrades = b.totalTrades + deals.length ∧ Prints b.quotes (c, deals) b'.quotes := by
  obtain ⟨u, hu, hv', hquotes⟩ := hv.step_refines hfresh
  obtain rfl := hstep.unique hu
  refine ⟨hv', ?_⟩
  obtain ⟨fuel, hexec⟩ := hstep
  cases c with
  | submit id price qty isBuy =>
    obtain ⟨b₁, qty', hmatch, htotal⟩ := addOrder_trades hexec
    obtain ⟨_, deals, hcount, hrun⟩ := matchOrder_deals hv hmatch
    have hend : Ended isBuy price (b₁.quotes, qty') := by
      obtain ⟨fuel', b₂, qty₂, hmatch', _, _, hend⟩ := matchOrder_trades hv isBuy price qty
      have hsame : (b₁, qty') = (b₂, qty₂) := by
        have h₁ := (matchOrder_cutOff (Nat.le_max_left fuel fuel') b price qty isBuy).extends _ hmatch
        have h₂ := (matchOrder_cutOff (Nat.le_max_right fuel fuel') b price qty isBuy).extends _ hmatch'
        exact Except.ok.inj (h₁.symm.trans h₂)
      obtain ⟨rfl, rfl⟩ := Prod.mk.inj hsame
      exact hend
    refine ⟨deals, htotal.trans hcount, ?_⟩
    rw [hquotes.unique (Step.submit (deals_trades hrun) hend)]
    exact Prints.submit hrun hend
  | cancel id =>
    refine ⟨[], cancelOrder_trades hexec, ?_⟩
    rw [hquotes.unique Step.cancel]
    exact Prints.cancel

theorem Valid.distinct (hv : b.Valid) : Distinct b.quotes where
  nodup k := by
    rw [quotes, List.map_map]
    refine List.Nodup.map_on (fun x hx y hy hid => ?_) (hv.nodup k.1 k.2).of_map
    exact List.inj_on_of_nodup_map (hv.nodup k.1 k.2) hx hy (hv.unique hy hx hid).2.2
  apart k k' x y hx hy hid := by
    obtain ⟨node, hnode, rfl⟩ := List.mem_map.1 hx
    obtain ⟨node', hnode', rfl⟩ := List.mem_map.1 hy
    obtain ⟨hs, hp, _⟩ := hv.unique hnode' hnode hid
    exact Prod.ext hs hp

theorem Placed.positive (h : b.Placed) : Positive b.quotes := by
  intro k x hx
  obtain ⟨node, hnode, rfl⟩ := List.mem_map.1 hx
  exact (h.belongs hnode).qty_pos

/-- Along every run there is a tape of the deals of each call: the orders that rest are those that the tape leads to, the
deals of each call are in order, and `total_trades` is the number of all deals. -/
theorem tape_run (cs : List Call) (b : NaiveOrderBook) (hrun : Run (Guarded Fresh Step) new cs b) :
    ∃ tape : List (Call × List (Deal Nat)), tape.map Prod.fst = cs ∧ Run Prints (fun _ => []) tape b.quotes ∧
      (∀ entry ∈ tape, Proper entry) ∧ b.totalTrades = (tape.map fun entry => entry.2.length).sum := by
  suffices hall : b.Valid ∧ b.Placed ∧ ∃ tape : List (Call × List (Deal Nat)), tape.map Prod.fst = cs ∧
      Run Prints (fun _ => []) tape b.quotes ∧ (∀ entry ∈ tape, Proper entry) ∧
        b.totalTrades = (tape.map fun entry => entry.2.length).sum from hall.2.2
  induction hrun with
  | refl => exact ⟨valid_new, fun _ => List.forall_mem_nil _, [], rfl, Run.refl, List.forall_mem_nil _, rfl⟩
  | @snoc cs c t u _ hstep ih =>
    obtain ⟨hv, hplaced, tape, hcalls, hprints, hproper, htotal⟩ := ih
    obtain ⟨hv', deals, hcount, hprint⟩ := hv.step_prints hstep.1 hstep.2
    refine ⟨hv', hstep.2.placed hplaced, tape ++ [(c, deals)], ?_, hprints.snoc hprint, ?_, ?_⟩
    · rw [List.map_append, hcalls, List.map_singleton]
    · refine List.forall_mem_append.2 ⟨hproper, List.forall_mem_singleton.2 ?_⟩
      exact hprint.proper hv.distinct hplaced.positive
    · rw [List.map_append, List.sum_append, ← htotal, List.map_singleton, List.sum_singleton]
      exact hcount

/-- Two asks, and a bid that takes the better one whole and a part of the other. -/
def twoDeals : List Call := [.submit 0 6 10 false, .submit 1 5 4 false, .submit 2 6 7 true]

theorem twoDeals_run :
    Run (Guarded Fresh Step) new twoDeals (value (twoDeals.foldlM (guardedExec Fresh (exec 5)) new) new) :=
  run_of_foldlM (fun _ _ _ e => ⟨5, e⟩) (eq_ok_value new (by decide))

theorem tape_run_twoDeals : ∃ b, Run (Guarded Fresh Step) new twoDeals b ∧ b.totalTrades = 2 ∧
    ∃ tape : List (Call × List (Deal Nat)), tape.map Prod.fst = twoDeals ∧ Run Prints (fun _ => []) tape b.quotes ∧
      (∀ entry ∈ tape, Proper entry) ∧ b.totalTrades = (tape.map fun entry => entry.2.length).sum := by
  exact ⟨_, twoDeals_run, by decide, tape_run twoDeals _ twoDeals_run⟩

/-! ### How many deals there are -/

/-- An order that is not filled yet counts as one that may still rest. -/
def pending (qty : Nat) : Nat := if 0 < qty then 1 else 0

/-- The number of orders in a map. -/
def LevelMap.count (m : LevelMap) : Nat := (m.flatMap Prod.snd).length

theorem LevelMap.count_cons : LevelMap.count ((p, l) :: rest) = l.length + LevelMap.count rest := by
  simp [LevelMap.count]

theorem resting_length (b : NaiveOrderBook) (isBuy : Bool) :
    b.resting.length = LevelMap.count (b.levels isBuy) + LevelMap.count (b.levels (!isBuy)) := by
  cases isBuy <;> simp [resting, side, LevelMap.count, Nat.add_comm]

theorem eraseNode_sublist {itr : Nat} (e : eraseNode itr l = .ok l') : l'.Sublist l := by
  unfold eraseNode at e
  split at e
  · cases e
    exact List.eraseP_sublist
  · cases e

theorem resting_withLevels (b : NaiveOrderBook) (isBuy : Bool) (m : LevelMap) :
    (b.withLevels (!isBuy) m).resting.length = LevelMap.count (b.levels isBuy) + LevelMap.count m := by
  cases isBuy <;> simp [resting_length _ true, withLevels, Nat.add_comm]

theorem eraseLookup_counts {id : Nat} (e : b.eraseLookup id = .ok b') :
    b'.levels = b.levels ∧ b'.totalTrades = b.totalTrades := by
  unfold eraseLookup at e
  split at e
  · cases e
  · cases e
    exact ⟨rfl, rfl⟩

/-- Each deal fills the order that makes it, or the incoming order. -/
theorem processList_count {fuel : Nat} (h : b.processList fuel l qty = .ok (b', l', qty')) :
    b'.levels = b.levels ∧ b'.totalTrades + l'.length + pending qty' ≤ b.totalTrades + l.length + pending qty := by
  let I : NaiveOrderBook × List Node × Nat → Prop := fun r =>
    r.1.levels = b.levels ∧ r.1.totalTrades + r.2.1.length + pending r.2.2 ≤ b.totalTrades + l.length + pending qty
  have hloop : Sat (fun _ => True) (b.processList fuel l qty) I := by
    refine Sat.loop (I := I) trivial (fun s hs => ?_) fuel ⟨rfl, Nat.le_refl _⟩
    obtain ⟨b₁, l₁, qty₁⟩ := s
    obtain ⟨hlevels, hcount⟩ := hs
    cases l₁ with
    | nil => exact ⟨hlevels, hcount⟩
    | cons node l₁ =>
      simp only [processRound]
      split
      · rename_i hq
        simp only [pending, if_pos hq, List.length_cons] at hcount
        split
        · -- the first order of the list is filled
          refine (sat_true_iff.2 fun b₂ e => eraseLookup_counts e).bind fun b₂ h₂ => ?_
          refine ⟨h₂.1.trans hlevels, ?_⟩
          simp only [h₂.2, pending]
          split <;> omega
        · -- the incoming order is filled
          rename_i hmore
          refine ⟨hlevels, ?_⟩
          have hzero : ¬ 0 < qty₁ - min qty₁ node.order.qty := by omega
          simp only [pending, if_neg hzero, List.length_cons]
          omega
      · exact ⟨hlevels, hcount⟩
  exact hloop.of_ok h

theorem matchOrder_count {fuel : Nat} (h : b.matchOrder fuel limit qty isBuy = .ok (b', qty')) :
    b'.totalTrades + b'.resting.length + pending qty' ≤ b.totalTrades + b.resting.length + pending qty := by
  let I : NaiveOrderBook × Nat → Prop := fun r =>
    r.1.totalTrades + r.1.resting.length + pending r.2 ≤ b.totalTrades + b.resting.length + pending qty
  have hloop : Sat (fun _ => True) (b.matchOrder fuel limit qty isBuy) I := by
    refine Sat.loop (I := I) trivial (fun s hs => ?_) fuel (Nat.le_refl _)
    obtain ⟨b₁, qty₁⟩ := s
    have hcount : b₁.totalTrades + b₁.resting.length + pending qty₁ ≤ b.totalTrades + b.resting.length + pending qty := hs
    simp only [matchRound]
    split
    · exact hs
    · rename_i best l rest hm
      split
      · split
        · refine (sat_true_iff.2 fun r e => processList_count e).bind fun r hr => ?_
          obtain ⟨b₂, l₂, qty₂⟩ := r
          obtain ⟨hlevels, hcount₂⟩ := hr
          rw [resting_length b₁ isBuy, hm, LevelMap.count_cons] at hcount
          -- an empty list counts nothing, whether or not its price leaves the map
          have hmap : LevelMap.count (if l₂.isEmpty then rest else (best, l₂) :: rest) =
              l₂.length + LevelMap.count rest := by
            split
            · rename_i hnil
              rw [List.isEmpty_iff.1 hnil, List.length_nil, Nat.zero_add]
            · exact LevelMap.count_cons
          have hresting := resting_withLevels b₂ isBuy (if l₂.isEmpty then rest else (best, l₂) :: rest)
          simp only at hlevels hcount₂
          rw [hmap, hlevels] at hresting
          have hafter : b₂.totalTrades +
              (b₂.withLevels (!isBuy) (if l₂.isEmpty then rest else (best, l₂) :: rest)).resting.length +
                pending qty₂ ≤ b.totalTrades + b.resting.length + pending qty := by omega
          exact hafter
        · exact hs
      · exact hs
  exact hloop.of_ok h

/-- A change of one list, by how much it adds. -/
theorem modifyAt_count {f : List Node → Exec (List Node)} {k : Nat} {m m' : LevelMap}
    (hf : ∀ l l', f l = .ok l' → l'.length ≤ l.length + k) (e : LevelMap.modifyAt isBuy p f m = .ok m') :
    LevelMap.count m' ≤ LevelMap.count m + k := by
  induction m generalizing m' with
  | nil =>
    obtain ⟨l, hl, e⟩ := bind_eq_ok.1 e
    cases e
    rw [LevelMap.count_cons]
    have hlen := hf [] l hl
    simp only [List.length_nil] at hlen
    omega
  | cons level rest ih =>
    obtain ⟨q, list⟩ := level
    rw [LevelMap.modifyAt] at e
    split at e
    · obtain ⟨l, hl, e⟩ := bind_eq_ok.1 e
      cases e
      rw [LevelMap.count_cons, LevelMap.count_cons]
      have hlen := hf list l hl
      omega
    · split at e
      · obtain ⟨l, hl, e⟩ := bind_eq_ok.1 e
        cases e
        rw [LevelMap.count_cons, LevelMap.count_cons]
        have hlen := hf [] l hl
        simp only [List.length_nil] at hlen
        omega
      · obtain ⟨rest', hr, e⟩ := bind_eq_ok.1 e
        cases e
        rw [LevelMap.count_cons, LevelMap.count_cons]
        have hrest := ih hr
        omega

def isSubmit : Call → Bool
  | .submit .. => true
  | .cancel _ => false

/-- A submission makes room for one deal or one order. -/
theorem Step.count {c : Call} (h : b.Step c b') :
    b'.totalTrades + b'.resting.length ≤ b.totalTrades + b.resting.length + if isSubmit c then 1 else 0 := by
  obtain ⟨fuel, e⟩ := h
  cases c with
  | submit id price qty isBuy =>
    obtain ⟨⟨b₁, qty₁⟩, he, e⟩ := bind_eq_ok.1 e
    have hmatch := matchOrder_count he
    have hone : pending qty ≤ 1 := by
      unfold pending
      split <;> omega
    dsimp only at e
    split at e
    · -- what is left rests
      rename_i hq
      obtain ⟨m, hm, e⟩ := bind_eq_ok.1 e
      cases e
      have hadd := modifyAt_count (k := 1) (fun l l' hl => by cases hl; simp) hm
      have hresting : ({ b₁.withLevels isBuy m with
          orderLookup := Function.update b₁.orderLookup id (some ⟨price, isBuy, b₁.nextItr⟩)
          nextItr := b₁.nextItr + 1 } : NaiveOrderBook).resting.length =
          LevelMap.count (b₁.levels (!isBuy)) + LevelMap.count m := by
        have hwith := resting_withLevels b₁ (!isBuy) m
        rw [Bool.not_not] at hwith
        exact hwith
      rw [resting_length b₁ isBuy, pending, if_pos hq] at hmatch
      rw [hresting, isSubmit, if_pos rfl]
      show b₁.totalTrades + _ ≤ _
      omega
    · cases e
      simp only [isSubmit, if_true]
      omega
  | cancel id =>
    have htotal := cancelOrder_trades e
    simp only [exec, cancelOrder] at e
    split at e
    · cases e
      exact Nat.le_refl _
    · rename_i loc _
      obtain ⟨m, hm, e⟩ := bind_eq_ok.1 e
      cases e
      have herase := modifyAt_count (k := 0) (fun l l' hl => (eraseNode_sublist hl).length_le) hm
      have hwith := resting_withLevels b (!loc.isBuy) m
      rw [Bool.not_not] at hwith
      have hbefore := resting_length b loc.isBuy
      show b.totalTrades + (b.withLevels loc.isBuy m).resting.length ≤ _
      omega

/-- Along every run the deals and the orders that rest are together at most as many as the submissions. -/
theorem trades_bounded (cs : List Call) (b : NaiveOrderBook) (hrun : Run Step new cs b) :
    b.totalTrades + b.resting.length ≤ cs.countP isSubmit := by
  induction hrun with
  | refl => exact Nat.le_refl _
  | snoc _ hstep ih =>
    have hcount := hstep.count
    rw [List.countP_append, List.countP_singleton]
    omega

theorem trades_bounded_twoDeals : ∃ b, Run Step new twoDeals b ∧ b.totalTrades = 2 ∧ b.resting.length = 1 ∧
    b.totalTrades + b.resting.length ≤ twoDeals.countP isSubmit := by
  have hrun : Run Step new twoDeals _ := twoDeals_run.mono fun _ _ _ hs => hs.2
  exact ⟨_, hrun, by decide, by decide, trades_bounded twoDeals _ hrun⟩

end NaiveOrderBook

end Lobook
