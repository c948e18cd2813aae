import Lobook.Book.NaiveRefines

/-!
# The lookup of the reference book is exact

Along every run of `NaiveOrderBook`, `order_lookup` holds one entry for each order that rests, and the entry is the
order's own location; every order has a quantity and is in the list of its price and side; and the bids are below the
asks.  What a list may hold (`Belongs`) is kept by every round of the two loops, whether or not the other lists are
empty; that the entries and the lists belong together is `Valid`, and that the sides are apart is a fact about
price-time priority.
-/

namespace Lobook

open Checked Naive PriceTime Transition

variable {b b' : NaiveOrderBook} {m m' : LevelMap} {l : List Node} {node : Node} {isBuy : Bool} {price qty : Nat}

namespace Naive

/-- An order with a quantity, in the list of its own side and price. -/
structure Belongs (isBuy : Bool) (price : Nat) (node : Node) : Prop where
  price_eq : node.order.price = price
  side : node.order.isBuy = isBuy
  qty_pos : 0 < node.order.qty

/-- Where an order is. -/
def location (node : Node) : OrderLocation := ⟨node.order.price, node.order.isBuy, node.itr⟩

/-- Every order of a map is where it belongs. -/
def LevelMap.Placed (isBuy : Bool) (m : LevelMap) : Prop := ∀ level ∈ m, ∀ node ∈ level.2, Belongs isBuy level.1 node

theorem LevelMap.placed_cons {level : Nat × List Node} :
    LevelMap.Placed isBuy (level :: m) ↔ (∀ node ∈ level.2, Belongs isBuy level.1 node) ∧ m.Placed isBuy :=
  List.forall_mem_cons

/-- A change of one list that keeps orders where they belong. -/
theorem LevelMap.Placed.modifyAt {f : List Node → Exec (List Node)} (h : m.Placed isBuy)
    (hf : ∀ l l', f l = .ok l' → (∀ node ∈ l, Belongs isBuy price node) → ∀ node ∈ l', Belongs isBuy price node)
    (e : LevelMap.modifyAt isBuy price f m = .ok m') : m'.Placed isBuy := by
  induction m generalizing m' with
  | nil =>
    obtain ⟨l, hl, e⟩ := bind_eq_ok.1 e
    cases e
    exact placed_cons.2 ⟨hf [] l hl (List.forall_mem_nil _), h⟩
  | cons level rest ih =>
    obtain ⟨p, list⟩ := level
    obtain ⟨hlist, hrest⟩ := placed_cons.1 h
    rw [LevelMap.modifyAt] at e
    split at e
    · -- the list at this price
      rename_i hp
      subst hp
      obtain ⟨l, hl, e⟩ := bind_eq_ok.1 e
      cases e
      exact placed_cons.2 ⟨hf list l hl hlist, hrest⟩
    · split at e
      · -- a new list
        obtain ⟨l, hl, e⟩ := bind_eq_ok.1 e
        cases e
        exact placed_cons.2 ⟨hf [] l hl (List.forall_mem_nil _), h⟩
      · obtain ⟨rest', hr, e⟩ := bind_eq_ok.1 e
        cases e
        exact placed_cons.2 ⟨hlist, ih hrest hr⟩

theorem mem_of_mem_eraseNode {itr : Nat} {l' : List Node} (e : eraseNode itr l = .ok l') (hnode : node ∈ l') :
    node ∈ l := by
  unfold eraseNode at e
  split at e
  · cases e
    exact List.mem_of_mem_eraseP hnode
  · cases e

end Naive

namespace NaiveOrderBook

/-! ### Orders are where they belong -/

/-- Every order has a quantity and is in the list of its own side and price. -/
def Placed (b : NaiveOrderBook) : Prop := ∀ s, (b.levels s).Placed s

theorem Placed.withLevels (h : b.Placed) (hm : m.Placed isBuy) : (b.withLevels isBuy m).Placed := by
  intro s
  rcases eq_or_ne s isBuy with rfl | hne
  · simpa only [NaiveOrderBook.withLevels, Function.update_self] using hm
  · simpa only [NaiveOrderBook.withLevels, Function.update_of_ne hne] using h s

theorem eraseLookup_levels {id : Nat} (e : b.eraseLookup id = .ok b') : b'.levels = b.levels := by
  unfold eraseLookup at e
  split at e
  · cases e
  · cases e
    rfl

/-- A round of `process_list` takes quantity from the first order, or the order away. -/
theorem processRound_placed {levels : Bool → LevelMap} {s : NaiveOrderBook × List Node × Nat}
    (hs : s.1.levels = levels ∧ ∀ node ∈ s.2.1, Belongs isBuy price node) :
    Sat (fun _ => True) (processRound s)
      (Flow.Post (fun s' => s'.1.levels = levels ∧ ∀ node ∈ s'.2.1, Belongs isBuy price node)
        fun r => r.1.levels = levels ∧ ∀ node ∈ r.2.1, Belongs isBuy price node) := by
  obtain ⟨b, l, qty⟩ := s
  obtain ⟨hlevels, hl⟩ := hs
  cases l with
  | nil => exact ⟨hlevels, hl⟩
  | cons node l =>
    obtain ⟨hnode, hrest⟩ := List.forall_mem_cons.1 hl
    simp only [processRound]
    split
    · split
      · refine (sat_true_iff.2 fun b₁ e => eraseLookup_levels e).bind fun b₁ h₁ => ?_
        exact ⟨h₁.trans hlevels, hrest⟩
      · rename_i hq
        exact ⟨hlevels, List.forall_mem_cons.2 ⟨⟨hnode.price_eq, hnode.side, Nat.pos_of_ne_zero hq⟩, hrest⟩⟩
    · exact ⟨hlevels, hl⟩

theorem processList_placed {fuel : Nat} {r : NaiveOrderBook × List Node × Nat}
    (hl : ∀ node ∈ l, Belongs isBuy price node) (e : b.processList fuel l qty = .ok r) :
    r.1.levels = b.levels ∧ ∀ node ∈ r.2.1, Belongs isBuy price node :=
  (Sat.loop (E := fun _ => True) trivial (fun _ hs => processRound_placed hs) fuel ⟨rfl, hl⟩).of_ok e

/-- A round of `match`. -/
theorem matchRound_placed {inner limit : Nat} {s : NaiveOrderBook × Nat} (h : s.1.Placed) :
    Sat (fun _ => True) (matchRound inner limit isBuy s) (Flow.Post (fun s' => s'.1.Placed) fun r => r.1.Placed) := by
  obtain ⟨b, qty⟩ := s
  simp only [matchRound]
  split
  · exact h
  · rename_i best l rest hm
    have hside : LevelMap.Placed (!isBuy) ((best, l) :: rest) := hm ▸ h (!isBuy)
    obtain ⟨hl, hrest⟩ := LevelMap.placed_cons.1 hside
    split
    · split
      · refine (sat_true_iff.2 fun r e => processList_placed hl e).bind fun r hr => ?_
        have hb : r.1.Placed := fun s => hr.1 ▸ h s
        refine hb.withLevels ?_
        split
        · exact hrest
        · exact LevelMap.placed_cons.2 ⟨hr.2, hrest⟩
      · exact h
    · exact h

theorem matchOrder_placed {fuel limit : Nat} {r : NaiveOrderBook × Nat} (h : b.Placed)
    (e : b.matchOrder fuel limit qty isBuy = .ok r) : r.1.Placed :=
  (Sat.loop (E := fun _ => True) (I := fun s : NaiveOrderBook × Nat => s.1.Placed)
    (Q := fun r : NaiveOrderBook × Nat => r.1.Placed) trivial (fun _ hs => matchRound_placed hs) fuel h).of_ok e

/-- Every call leaves the orders where they belong. -/
theorem Step.placed {c : Call} (hstep : b.Step c b') (h : b.Placed) : b'.Placed := by
  obtain ⟨fuel, e⟩ := hstep
  cases c with
  | submit id price qty isBuy =>
    obtain ⟨⟨b₁, qty₁⟩, he, e⟩ := bind_eq_ok.1 e
    have h₁ : b₁.Placed := matchOrder_placed h he
    dsimp only at e
    split at e
    · rename_i hq
      obtain ⟨m, hm, e⟩ := bind_eq_ok.1 e
      cases e
      refine h₁.withLevels ((h₁ isBuy).modifyAt (fun l l' hl hold => ?_) hm)
      cases hl
      exact List.forall_mem_append.2 ⟨hold, List.forall_mem_singleton.2 ⟨rfl, rfl, hq⟩⟩
    · cases e
      exact h₁
  | cancel id =>
    simp only [exec, cancelOrder] at e
    split at e
    · cases e
      exact h
    · rename_i loc _
      obtain ⟨m, hm, e⟩ := bind_eq_ok.1 e
      cases e
      exact h.withLevels ((h loc.isBuy).modifyAt (fun _ _ hl hold node hnode =>
        hold node (mem_of_mem_eraseNode hl hnode)) hm)

/-! ### The lookup is exact -/

/-- The orders that rest on a side, the best price first. -/
def side (b : NaiveOrderBook) (isBuy : Bool) : List Node := (b.levels isBuy).flatMap Prod.snd

/-- All orders that rest. -/
def resting (b : NaiveOrderBook) : List Node := b.side true ++ b.side false

/-- `order_lookup` has one entry for each order that rests, with its location, and in every list an iterator refers to
one order. -/
structure Exact (b : NaiveOrderBook) : Prop where
  sorted : ∀ s, LevelMap.Sorted s (b.levels s)
  itrs : ∀ s, ∀ level ∈ b.levels s, (level.2.map Node.itr).Nodup
  ids : (b.resting.map fun node => node.order.id).Nodup
  lookup : ∀ id loc, b.orderLookup id = some loc ↔ ∃ node ∈ b.resting, node.order.id = id ∧ location node = loc

/-- Every bid is below every ask. -/
def Uncrossed (b : NaiveOrderBook) : Prop :=
  ∀ bid ∈ b.side true, ∀ ask ∈ b.side false, bid.order.price < ask.order.price

theorem mem_side : node ∈ b.side isBuy ↔ ∃ level ∈ b.levels isBuy, node ∈ level.2 := List.mem_flatMap

theorem mem_resting : node ∈ b.resting ↔ ∃ isBuy, node ∈ b.side isBuy := by
  rw [resting, List.mem_append, Bool.exists_bool, or_comm]

theorem Valid.mem_side (h : b.Valid) : node ∈ b.side isBuy ↔ ∃ price, node ∈ b.list isBuy price := by
  rw [NaiveOrderBook.mem_side]
  constructor
  · rintro ⟨⟨price, l⟩, hlevel, hnode⟩
    have hl : b.list isBuy price = l := (h.sorted isBuy).listAt_of_mem hlevel
    exact ⟨price, hl.symm ▸ hnode⟩
  · rintro ⟨price, hnode⟩
    obtain ⟨level, hlevel, _, hmem⟩ := LevelMap.exists_of_mem_listAt hnode
    exact ⟨level, hlevel, hmem⟩

/-- An order in a list belongs there. -/
theorem Placed.belongs (h : b.Placed) (hnode : node ∈ b.list isBuy price) : Belongs isBuy price node := by
  obtain ⟨level, hlevel, rfl, hmem⟩ := LevelMap.exists_of_mem_listAt hnode
  exact h isBuy level hlevel node hmem

/-- Two orders that rest have different ids. -/
theorem Valid.ids_nodup (h : b.Valid) : (b.resting.map fun node => node.order.id).Nodup := by
  have hside : ∀ s, ((b.side s).map fun node => node.order.id).Nodup := by
    intro s
    rw [side, List.map_flatMap, List.nodup_flatMap]
    constructor
    · rintro ⟨p, l⟩ hlevel
      have hl : b.list s p = l := (h.sorted s).listAt_of_mem hlevel
      have hnd := h.nodup s p
      rw [hl] at hnd
      refine List.Nodup.map_on (fun x hx y hy hid => ?_) hnd.of_map
      exact List.inj_on_of_nodup_map hnd hx hy (h.unique (hl.symm ▸ hy) (hl.symm ▸ hx) hid).2.2
    · refine (h.sorted s).imp_of_mem ?_
      rintro ⟨p, l⟩ ⟨p', l'⟩ hlevel hlevel' hbetter id hid hid'
      obtain ⟨x, hx, rfl⟩ := List.mem_map.1 hid
      obtain ⟨y, hy, hyx⟩ := List.mem_map.1 hid'
      have hl : b.list s p = l := (h.sorted s).listAt_of_mem hlevel
      have hl' : b.list s p' = l' := (h.sorted s).listAt_of_mem hlevel'
      obtain ⟨_, rfl, _⟩ := h.unique (hl.symm ▸ hx) (hl'.symm ▸ hy) hyx
      exact better_irrefl hbetter
  rw [resting, List.map_append, List.nodup_append]
  refine ⟨hside true, hside false, fun id hid id' hid' heq => ?_⟩
  obtain ⟨x, hx, rfl⟩ := List.mem_map.1 hid
  obtain ⟨y, hy, rfl⟩ := List.mem_map.1 hid'
  obtain ⟨p, hx⟩ := h.mem_side.1 hx
  obtain ⟨q, hy⟩ := h.mem_side.1 hy
  cases (h.unique hx hy heq.symm).1

/-- The entries of `order_lookup` are those of the orders that rest. -/
theorem Valid.exact (h : b.Valid) (hplaced : b.Placed) : b.Exact where
  sorted := h.sorted
  itrs s level hlevel := by
    have hl : b.list s level.1 = level.2 := (h.sorted s).listAt_of_mem hlevel
    exact hl ▸ h.nodup s level.1
  ids := h.ids_nodup
  lookup id loc := by
    constructor
    · intro hloc
      obtain ⟨node, hnode, hitr, hid⟩ := h.found id loc hloc
      have hb := hplaced.belongs hnode
      refine ⟨node, mem_resting.2 ⟨loc.isBuy, h.mem_side.2 ⟨loc.price, hnode⟩⟩, hid, ?_⟩
      rw [location, hb.price_eq, hb.side, hitr]
    · rintro ⟨node, hnode, rfl, rfl⟩
      obtain ⟨s, hnode⟩ := mem_resting.1 hnode
      obtain ⟨p, hnode⟩ := h.mem_side.1 hnode
      have hb := hplaced.belongs hnode
      rw [h.known s p node hnode, location, hb.price_eq, hb.side]

/-! ### Every run -/

/-- A submitted id does not rest at that moment. -/
def Fresh (b : NaiveOrderBook) : Call → Prop
  | .submit id _ _ _ => ¬ b.Resting id
  | .cancel _ => True

instance (b : NaiveOrderBook) (c : Call) : Decidable (b.Fresh c) :=
  match c with
  | .submit id _ _ _ => inferInstanceAs (Decidable (¬ b.Resting id))
  | .cancel _ => inferInstanceAs (Decidable True)

/-- A call returns, and follows price-time priority. -/
theorem Valid.step_refines (h : b.Valid) {c : Call} (hfresh : b.Fresh c) :
    ∃ b', b.Step c b' ∧ b'.Valid ∧ PriceTime.Step b.quotes c b'.quotes := by
  cases c with
  | submit id price qty isBuy => exact addOrder_refines h hfresh price qty isBuy
  | cancel id => exact cancelOrder_refines h id

theorem Valid.uncrossed (h : b.Valid) (hplaced : b.Placed) (hapart : Apart (prices b.quotes)) : b.Uncrossed := by
  intro bid hbid ask hask
  obtain ⟨p, hbid⟩ := h.mem_side.1 hbid
  obtain ⟨q, hask⟩ := h.mem_side.1 hask
  have hrests : ∀ {s r node}, node ∈ b.list s r → r ∈ prices b.quotes s :=
    fun hnode => List.ne_nil_of_mem (List.mem_map_of_mem hnode)
  rw [(hplaced.belongs hbid).price_eq, (hplaced.belongs hask).price_eq]
  exact hapart p (hrests hbid) q (hrests hask)

/-- Along every run the lookup is exact, every order has a quantity and is in its own list, and the bids are below the
asks; and every call returns, without looking up an order that `order_lookup` does not have. -/
theorem lookup_exact (cs : List Call) (b : NaiveOrderBook) (hrun : Run (Guarded Fresh Step) new cs b) :
    b.Exact ∧ b.Placed ∧ b.Uncrossed ∧
      ∀ c, b.Fresh c → (∃ b', b.Step c b') ∧ ∀ fuel, b.exec fuel c ≠ .error .undefined := by
  have hinv : b.Valid ∧ b.Placed ∧ Apart (prices b.quotes) := by
    have hnew : Apart (prices new.quotes) := fun p hp => absurd rfl hp
    refine hrun.invariant (I := fun b => b.Valid ∧ b.Placed ∧ Apart (prices b.quotes))
      ⟨valid_new, fun _ => List.forall_mem_nil _, hnew⟩ ?_
    rintro t c u ⟨hv, hp, ha⟩ ⟨hfresh, hstep⟩
    obtain ⟨u', hstep', hv', habstract⟩ := hv.step_refines hfresh
    obtain rfl := hstep.unique hstep'
    exact ⟨hv', hstep.placed hp, habstract.apart ha⟩
  obtain ⟨hv, hp, ha⟩ := hinv
  refine ⟨hv.exact hp, hp, hv.uncrossed hp ha, fun c hfresh => ?_⟩
  obtain ⟨b', hstep, _⟩ := hv.step_refines hfresh
  exact ⟨⟨b', hstep⟩, fun fuel he => by cases hstep.no_failure he⟩

/-- An ask is filled in part and cancelled, and a bid then passes the empty list at its price. -/
def passEmpty : List Call := [.submit 0 5 10 false, .submit 1 6 4 true, .cancel 0, .submit 2 7 1 true]

theorem lookup_exact_passEmpty : ∃ b, Run (Guarded Fresh Step) new passEmpty b ∧
    b.resting = [⟨1, ⟨2, 7, 1, true⟩⟩] ∧ b.Exact ∧ b.Placed ∧ b.Uncrossed ∧
      ∀ c, b.Fresh c → (∃ b', b.Step c b') ∧ ∀ fuel, b.exec fuel c ≠ .error .undefined := by
  have hok : (passEmpty.foldlM (guardedExec Fresh (exec 5)) new).isOk = true := by decide
  have hrun : Run (Guarded Fresh Step) new passEmpty (value (passEmpty.foldlM (guardedExec Fresh (exec 5)) new) new) :=
    run_of_foldlM (fun _ _ _ e => ⟨5, e⟩) (eq_ok_value new hok)
  exact ⟨_, hrun, by decide, lookup_exact passEmpty _ hrun⟩

end NaiveOrderBook

end Lobook
