import Mathlib.Data.List.Nodup
import Lobook.Book.NaiveBook

/-!
# The reference book follows price-time priority

`Valid b` says that the maps are sorted and that the locations and the nodes of the lists belong together.  Every call
that submits a new id returns, keeps this, and is the step of `PriceTime` on what the lists hold (`step_refines`).
-/

namespace Lobook

open Checked Naive PriceTime Relation

namespace Naive.LevelMap

/-- The prices are in the order of the comparator. -/
def Sorted (isBuy : Bool) (m : LevelMap) : Prop := m.Pairwise fun a b => Better (!isBuy) a.1 b.1

variable {isBuy : Bool} {p price : Nat} {list l : List Node} {m rest : LevelMap}

theorem listAt_eq_nil (h : ∀ e ∈ m, e.1 ≠ p) : listAt p m = [] := by
  induction m with
  | nil => rfl
  | cons e m ih =>
    rw [listAt, if_neg (h e List.mem_cons_self)]
    exact ih fun e' he' => h e' (List.mem_cons_of_mem _ he')

theorem exists_of_mem_listAt {node : Node} (h : node ∈ listAt p m) : ∃ level ∈ m, level.1 = p ∧ node ∈ level.2 := by
  induction m with
  | nil => cases h
  | cons e m ih =>
    rw [listAt] at h
    split at h
    · exact ⟨e, List.mem_cons_self, ‹_›, h⟩
    · obtain ⟨level, hlevel, hprice, hmem⟩ := ih h
      exact ⟨level, List.mem_cons_of_mem _ hlevel, hprice, hmem⟩

theorem Sorted.ne (h : Sorted isBuy ((p, list) :: rest)) : ∀ e ∈ rest, e.1 ≠ p := by
  intro e he heq
  have hb := (List.pairwise_cons.1 h).1 e he
  rw [heq] at hb
  exact better_irrefl hb

theorem Sorted.listAt_of_mem (h : Sorted isBuy m) (hlevel : (p, list) ∈ m) : listAt p m = list := by
  induction m with
  | nil => cases hlevel
  | cons e m ih =>
    rcases List.mem_cons.1 hlevel with rfl | hlevel
    · rw [listAt, if_pos rfl]
    · have hne : e.1 ≠ p := fun e' => h.ne (p, list) hlevel e'.symm
      rw [listAt, if_neg hne]
      exact ih (List.pairwise_cons.1 h).2 hlevel

/-- The first price of a map is the best one. -/
theorem Sorted.first_best (h : Sorted isBuy ((p, list) :: rest)) {q : Nat} (hq : listAt q ((p, list) :: rest) ≠ []) :
    ¬ Better (!isBuy) q p := by
  intro hb
  refine hq (listAt_eq_nil fun e he heq => ?_)
  rcases List.mem_cons.1 he with rfl | he
  · rw [show p = q from heq] at hb
    exact better_irrefl hb
  · have hb' := (List.pairwise_cons.1 h).1 e he
    rw [heq] at hb'
    exact better_irrefl (better_trans hb' hb)

/-- What `levels[price]` followed by a change of the list does. -/
theorem modifyAt_of_ok {f : List Node → Exec (List Node)} (hs : Sorted isBuy m) (hf : f (listAt price m) = .ok l) :
    ∃ m', modifyAt isBuy price f m = .ok m' ∧ Sorted isBuy m' ∧
      (∀ q, listAt q m' = if q = price then l else listAt q m) ∧ ∀ e ∈ m', e.1 = price ∨ ∃ e' ∈ m, e'.1 = e.1 := by
  induction m with
  | nil =>
    change f [] = .ok l at hf
    refine ⟨[(price, l)], by simp only [modifyAt, hf, ok_bind, pure_eq_ok], List.pairwise_singleton _ _,
      fun q => ?_, fun e he => ?_⟩
    · simp only [listAt, eq_comm]
    · rw [List.mem_singleton] at he
      exact Or.inl (congrArg Prod.fst he)
  | cons e rest ih =>
    obtain ⟨p, list⟩ := e
    obtain ⟨hfirst, hrest⟩ := List.pairwise_cons.1 hs
    by_cases hp : p = price
    · subst hp
      rw [listAt, if_pos rfl] at hf
      refine ⟨(p, l) :: rest, by simp only [modifyAt, if_true, hf, ok_bind, pure_eq_ok],
        List.pairwise_cons.2 ⟨hfirst, hrest⟩, fun q => ?_, fun e he => ?_⟩
      · by_cases hq : p = q
        · rw [listAt, if_pos hq, if_pos hq.symm]
        · rw [listAt, if_neg hq, if_neg fun e : q = p => hq e.symm, listAt, if_neg hq]
      · rcases List.mem_cons.1 he with rfl | he
        · exact Or.inl rfl
        · exact Or.inr ⟨e, List.mem_cons_of_mem _ he, rfl⟩
    · by_cases hb : Better (!isBuy) price p
      · -- a new price, before all the others
        have hbefore : ∀ e ∈ (p, list) :: rest, Better (!isBuy) price e.1 := by
          intro e he
          rcases List.mem_cons.1 he with rfl | he
          · exact hb
          · exact better_trans hb (hfirst e he)
        have hnil : listAt price ((p, list) :: rest) = [] :=
          listAt_eq_nil fun e he heq => better_irrefl (heq ▸ hbefore e he)
        rw [hnil] at hf
        refine ⟨(price, l) :: (p, list) :: rest, by
          simp only [modifyAt, if_neg hp, if_pos hb, hf, ok_bind, pure_eq_ok],
          List.pairwise_cons.2 ⟨hbefore, hs⟩, fun q => ?_, fun e he => ?_⟩
        · by_cases hq : price = q
          · rw [listAt, if_pos hq, if_pos hq.symm]
          · rw [listAt, if_neg hq, if_neg fun e : q = price => hq e.symm]
        · rcases List.mem_cons.1 he with rfl | he
          · exact Or.inl rfl
          · exact Or.inr ⟨e, he, rfl⟩
      · rw [listAt, if_neg hp] at hf
        obtain ⟨rest', e', hs', hlist', hkeys⟩ := ih hrest hf
        refine ⟨(p, list) :: rest', by
          simp only [modifyAt, if_neg hp, if_neg hb, e', ok_bind, pure_eq_ok],
          List.pairwise_cons.2 ⟨fun e he => ?_, hs'⟩, fun q => ?_, fun e he => ?_⟩
        · rcases hkeys e he with heq | ⟨e₁, he₁, heq⟩
          · rw [heq]
            by_contra hn
            exact hp (better_total hn hb)
          · rw [← heq]
            exact hfirst e₁ he₁
        · by_cases hq : p = q
          · rw [listAt, if_pos hq, if_neg fun e : q = price => hp (hq.trans e), listAt, if_pos hq]
          · rw [listAt, if_neg hq, hlist', listAt, if_neg hq]
        · rcases List.mem_cons.1 he with rfl | he
          · exact Or.inr ⟨(p, list), List.mem_cons_self, rfl⟩
          · exact (hkeys e he).imp_right fun ⟨e₁, he₁, heq⟩ => ⟨e₁, List.mem_cons_of_mem _ he₁, heq⟩

end Naive.LevelMap

namespace NaiveOrderBook

open LevelMap

/-- The orders that rest at a price, oldest first. -/
def list (b : NaiveOrderBook) (isBuy : Bool) (price : Nat) : List Node := listAt price (b.levels isBuy)

def entry (node : Node) : Nat × Nat := (node.order.id, node.order.qty)

/-- What the lists hold. -/
def quotes (b : NaiveOrderBook) : Quotes Nat := fun k => (b.list k.1 k.2).map entry

/-- The maps are sorted, every node is where its id is looked up, and every location is that of a node. -/
structure Valid (b : NaiveOrderBook) : Prop where
  sorted : ∀ s, Sorted s (b.levels s)
  known : ∀ s p, ∀ node ∈ b.list s p, b.orderLookup node.order.id = some ⟨p, s, node.itr⟩
  found : ∀ id loc, b.orderLookup id = some loc →
    ∃ node ∈ b.list loc.isBuy loc.price, node.itr = loc.itr ∧ node.order.id = id
  nodup : ∀ s p, ((b.list s p).map Node.itr).Nodup
  fresh : ∀ s p, ∀ node ∈ b.list s p, node.itr < b.nextItr

variable {b b' : NaiveOrderBook} {s isBuy : Bool} {p id qty limit : Nat} {node : Node} {l l₁ l₂ list' : List Node}
  {rest : LevelMap}

/-- The lists of `b'` are those of `b`, but for one. -/
def Replaces (b : NaiveOrderBook) (s : Bool) (p : Nat) (l : List Node) (b' : NaiveOrderBook) : Prop :=
  ∀ s' q, b'.list s' q = if s' = s ∧ q = p then l else b.list s' q

theorem Replaces.quotes (h : Replaces b s p l b') : b'.quotes = Function.update b.quotes (s, p) (l.map entry) := by
  funext k
  rcases eq_or_ne k (s, p) with rfl | hne
  · simp only [NaiveOrderBook.quotes, h s p, true_and, if_true, Function.update_self]
  · have hk : ¬ (k.1 = s ∧ k.2 = p) := fun e => hne (Prod.ext e.1 e.2)
    simp only [NaiveOrderBook.quotes, h k.1 k.2, if_neg hk, Function.update_of_ne hne]

/-- Two nodes with one id are the same. -/
theorem Valid.unique (h : b.Valid) {s' : Bool} {p' : Nat} {node' : Node} (hn : node ∈ b.list s p)
    (hn' : node' ∈ b.list s' p') (hid : node'.order.id = node.order.id) : s' = s ∧ p' = p ∧ node'.itr = node.itr := by
  have hloc := (h.known s' p' node' hn').symm.trans (hid ▸ h.known s p node hn)
  obtain ⟨rfl, rfl, hitr⟩ := OrderLocation.mk.inj (Option.some.inj hloc)
  exact ⟨rfl, rfl, hitr⟩

theorem Valid.not_mem (h : b.Valid) (hl : b.list s p = l₁ ++ node :: l₂) : ∀ x ∈ l₁ ++ l₂, x.itr ≠ node.itr := by
  intro x hx heq
  have hnd := h.nodup s p
  rw [hl, List.map_append, List.map_cons, List.nodup_middle, List.nodup_cons] at hnd
  refine hnd.1 ?_
  rw [← List.map_append, ← heq]
  exact List.mem_map_of_mem hx

/-- A node leaves its list, and its id is forgotten. -/
theorem Valid.remove (h : b.Valid) (hl : b.list s p = l₁ ++ node :: l₂) (hsorted : ∀ s, Sorted s (b'.levels s))
    (hb : Replaces b s p (l₁ ++ l₂) b')
    (hlookup : b'.orderLookup = Function.update b.orderLookup node.order.id none) (hnext : b'.nextItr = b.nextItr) :
    b'.Valid := by
  have hnode : node ∈ b.list s p := by rw [hl]; simp
  have hmem : ∀ s' q x, x ∈ b'.list s' q → x ∈ b.list s' q ∧ x.order.id ≠ node.order.id := by
    intro s' q x hx
    rw [hb] at hx
    split at hx
    · rename_i e
      obtain ⟨rfl, rfl⟩ := e
      have hx' : x ∈ b.list s' q := by
        rw [hl]
        exact (List.mem_append.1 hx).elim (List.mem_append_left _)
          fun hx => List.mem_append_right _ (List.mem_cons_of_mem _ hx)
      exact ⟨hx', fun e => h.not_mem hl x hx (h.unique hnode hx' e).2.2⟩
    · rename_i e
      exact ⟨hx, fun hid => e ⟨(h.unique hnode hx hid).1, (h.unique hnode hx hid).2.1⟩⟩
  refine ⟨hsorted, fun s' q x hx => ?_, fun id loc hloc => ?_, fun s' q => ?_, fun s' q x hx => ?_⟩
  · rw [hlookup, Function.update_of_ne (hmem s' q x hx).2]
    exact h.known s' q x (hmem s' q x hx).1
  · rw [hlookup] at hloc
    have hne : id ≠ node.order.id := by
      rintro rfl
      rw [Function.update_self] at hloc
      cases hloc
    rw [Function.update_of_ne hne] at hloc
    obtain ⟨x, hx, hitr, hid⟩ := h.found id loc hloc
    refine ⟨x, ?_, hitr, hid⟩
    rw [hb]
    split
    · rename_i e
      rw [e.1, e.2, hl] at hx
      rcases List.mem_append.1 hx with hx | hx
      · exact List.mem_append_left _ hx
      · rcases List.mem_cons.1 hx with rfl | hx
        · exact absurd hid.symm hne
        · exact List.mem_append_right _ hx
    · exact hx
  · rw [hb]
    split
    · have hnd := h.nodup s p
      rw [hl, List.map_append, List.map_cons, List.nodup_middle, List.nodup_cons] at hnd
      rw [List.map_append]
      exact hnd.2
    · exact h.nodup s' q
  · rw [hnext]
    exact h.fresh s' q x (hmem s' q x hx).1

/-- The first node of a list changes its quantity. -/
theorem Valid.rewrite {node' : Node} (h : b.Valid) (hl : b.list s p = node :: l) (hitr : node'.itr = node.itr)
    (hid : node'.order.id = node.order.id) (hsorted : ∀ s, Sorted s (b'.levels s)) (hb : Replaces b s p (node' :: l) b')
    (hlookup : b'.orderLookup = b.orderLookup) (hnext : b'.nextItr = b.nextItr) : b'.Valid := by
  have hmem : ∀ s' q x, x ∈ b'.list s' q → ∃ y ∈ b.list s' q, y.itr = x.itr ∧ y.order.id = x.order.id := by
    intro s' q x hx
    rw [hb] at hx
    split at hx
    · rename_i e
      obtain ⟨rfl, rfl⟩ := e
      rw [hl]
      rcases List.mem_cons.1 hx with rfl | hx
      · exact ⟨node, List.mem_cons_self, hitr.symm, hid.symm⟩
      · exact ⟨x, List.mem_cons_of_mem _ hx, rfl, rfl⟩
    · exact ⟨x, hx, rfl, rfl⟩
  refine ⟨hsorted, fun s' q x hx => ?_, fun id loc hloc => ?_, fun s' q => ?_, fun s' q x hx => ?_⟩
  · obtain ⟨y, hy, hitr, hid⟩ := hmem s' q x hx
    rw [hlookup, ← hid, ← hitr]
    exact h.known s' q y hy
  · obtain ⟨y, hy, hyitr, hyid⟩ := h.found id loc (hlookup ▸ hloc)
    rw [hb]
    split
    · rename_i e
      rw [e.1, e.2, hl] at hy
      rcases List.mem_cons.1 hy with rfl | hy
      · exact ⟨node', List.mem_cons_self, hitr.trans hyitr, hid.trans hyid⟩
      · exact ⟨y, List.mem_cons_of_mem _ hy, hyitr, hyid⟩
    · exact ⟨y, hy, hyitr, hyid⟩
  · rw [hb]
    split
    · have hnd := h.nodup s p
      rw [hl, List.map_cons] at hnd
      rwa [List.map_cons, hitr]
    · exact h.nodup s' q
  · obtain ⟨y, hy, hyitr, _⟩ := hmem s' q x hx
    rw [hnext, ← hyitr]
    exact h.fresh s' q y hy

/-- A new node joins the end of a list. -/
theorem Valid.push (h : b.Valid) (hitr : node.itr = b.nextItr)
    (hnew : ∀ s q, ∀ x ∈ b.list s q, x.order.id ≠ node.order.id) (hsorted : ∀ s, Sorted s (b'.levels s))
    (hb : Replaces b s p (b.list s p ++ [node]) b')
    (hlookup : b'.orderLookup = Function.update b.orderLookup node.order.id (some ⟨p, s, b.nextItr⟩))
    (hnext : b'.nextItr = b.nextItr + 1) : b'.Valid := by
  have hmem : ∀ s' q x, x ∈ b'.list s' q →
      x ∈ b.list s' q ∧ x.order.id ≠ node.order.id ∨ x = node ∧ s' = s ∧ q = p := by
    intro s' q x hx
    rw [hb] at hx
    split at hx
    · rename_i e
      rcases List.mem_append.1 hx with hx | hx
      · exact Or.inl ⟨e.1 ▸ e.2 ▸ hx, hnew _ _ x hx⟩
      · exact Or.inr ⟨List.mem_singleton.1 hx, e⟩
    · exact Or.inl ⟨hx, hnew _ _ x hx⟩
  refine ⟨hsorted, fun s' q x hx => ?_, fun id loc hloc => ?_, fun s' q => ?_, fun s' q x hx => ?_⟩
  · rw [hlookup]
    rcases hmem s' q x hx with ⟨hx, hne⟩ | ⟨rfl, rfl, rfl⟩
    · rw [Function.update_of_ne hne]
      exact h.known s' q x hx
    · rw [Function.update_self, hitr]
  · rw [hlookup] at hloc
    rcases eq_or_ne id node.order.id with rfl | hne
    · rw [Function.update_self, Option.some.injEq] at hloc
      subst hloc
      refine ⟨node, ?_, hitr, rfl⟩
      rw [hb, if_pos ⟨rfl, rfl⟩]
      exact List.mem_append_right _ List.mem_cons_self
    · rw [Function.update_of_ne hne] at hloc
      obtain ⟨x, hx, hxitr, hxid⟩ := h.found id loc hloc
      refine ⟨x, ?_, hxitr, hxid⟩
      rw [hb]
      split
      · rename_i e
        exact List.mem_append_left _ (e.1 ▸ e.2 ▸ hx)
      · exact hx
  · rw [hb]
    split
    · rw [List.map_append, List.map_singleton, List.nodup_append]
      refine ⟨h.nodup s p, List.nodup_singleton _, fun i hi j hj => ?_⟩
      obtain ⟨x, hx, rfl⟩ := List.mem_map.1 hi
      rw [List.mem_singleton.1 hj, hitr]
      exact Nat.ne_of_lt (h.fresh s p x hx)
    · exact h.nodup s' q
  · rw [hnext]
    rcases hmem s' q x hx with ⟨hx, _⟩ | ⟨rfl, _⟩
    · exact Nat.lt_succ_of_lt (h.fresh s' q x hx)
    · rw [hitr]
      exact Nat.lt_succ_self _

/-- A node leaves its list: its order is withdrawn. -/
theorem Valid.withdraw (h : b.Valid) (hl : b.list s p = l₁ ++ node :: l₂) (hb : Replaces b s p (l₁ ++ l₂) b') :
    b'.quotes = withdraw b.quotes node.order.id := by
  have hnode : node ∈ b.list s p := by rw [hl]; simp
  have hk : b.quotes (s, p) = l₁.map entry ++ entry node :: l₂.map entry := by
    simp only [NaiveOrderBook.quotes, hl, List.map_append, List.map_cons]
  rw [hb.quotes, List.map_append]
  refine (withdraw_eq_update hk (fun x hx => ?_) fun k hne x hx hid => ?_).symm
  · rw [← List.map_append] at hx
    obtain ⟨y, hy, rfl⟩ := List.mem_map.1 hx
    have hy' : y ∈ b.list s p := by
      rw [hl]
      exact (List.mem_append.1 hy).elim (List.mem_append_left _)
        fun hy => List.mem_append_right _ (List.mem_cons_of_mem _ hy)
    exact fun hid => h.not_mem hl y hy (h.unique hnode hy' hid).2.2
  · obtain ⟨y, hy, rfl⟩ := List.mem_map.1 hx
    obtain ⟨h₁, h₂, _⟩ := h.unique hnode hy hid
    exact hne (Prod.ext h₁ h₂)

/-! ### Matching -/

theorem list_withLevels {m : LevelMap} (s' : Bool) (q : Nat) :
    (b.withLevels s m).list s' q = if s' = s then listAt q m else b.list s' q := by
  by_cases hs : s' = s
  · subst hs
    simp only [list, withLevels, Function.update_self, if_true]
  · simp only [list, withLevels, Function.update_of_ne hs, if_neg hs]

/-- A new map for one side, of which one list is new. -/
theorem replaces_withLevels {m : LevelMap} (hm : ∀ q, listAt q m = if q = p then l else b.list s q)
    (hb : b'.levels = (b.withLevels s m).levels) : Replaces b s p l b' := by
  intro s' q
  have hlist : b'.list s' q = (b.withLevels s m).list s' q := by simp only [list, hb]
  rw [hlist, list_withLevels]
  by_cases hs : s' = s
  · subst hs
    rw [if_pos rfl, hm]
    simp only [true_and]
  · rw [if_neg hs, if_neg fun e : s' = s ∧ q = p => hs e.1]

theorem sorted_withLevels {m : LevelMap} (h : ∀ s, Sorted s (b.levels s)) (hm : Sorted s m)
    (hb : b'.levels = (b.withLevels s m).levels) (s' : Bool) : Sorted s' (b'.levels s') := by
  rw [hb, withLevels]
  by_cases hs : s' = s
  · subst hs
    simpa only [Function.update_self] using hm
  · simpa only [Function.update_of_ne hs] using h s'

theorem replaces_front (b₁ b₂ : NaiveOrderBook) (hb : b₂.levels = b₁.levels) :
    Replaces (b₁.withLevels s ((p, l) :: rest)) s p list' (b₂.withLevels s ((p, list') :: rest)) := by
  intro s' q
  rw [list_withLevels, list_withLevels]
  by_cases hs : s' = s
  · subst hs
    simp only [if_true, listAt, true_and]
    by_cases hq : p = q
    · rw [if_pos hq, if_pos hq.symm]
    · rw [if_neg hq, if_neg fun e : q = p => hq e.symm, if_neg hq]
  · rw [if_neg hs, if_neg fun e : s' = s ∧ q = p => hs e.1, if_neg hs]
    simp only [list, hb]

theorem sorted_front (b₁ b₂ : NaiveOrderBook) (hb : b₂.levels = b₁.levels)
    (h : (b₁.withLevels s ((p, l) :: rest)).Valid) (s' : Bool) :
    Sorted s' ((b₂.withLevels s ((p, list') :: rest)).levels s') := by
  have hs' := h.sorted s'
  by_cases hs : s' = s
  · subst hs
    simp only [withLevels, Function.update_self] at hs' ⊢
    exact List.pairwise_cons.2 (List.pairwise_cons.1 hs')
  · simp only [withLevels, Function.update_of_ne hs] at hs' ⊢
    rwa [hb]

theorem best_front (h : (b.withLevels (!isBuy) ((p, node :: l) :: rest)).Valid) (hc : Crosses isBuy limit p) :
    Best isBuy limit (b.withLevels (!isBuy) ((p, node :: l) :: rest)).quotes p := by
  have hlist : ∀ q, (b.withLevels (!isBuy) ((p, node :: l) :: rest)).list (!isBuy) q =
      listAt q ((p, node :: l) :: rest) := fun q => by rw [list_withLevels, if_pos rfl]
  refine ⟨?_, fun q hq => ?_, hc⟩
  · simp only [quotes, hlist, listAt, if_true, List.map_cons, ne_eq, reduceCtorEq, not_false_eq_true]
  · have hs := h.sorted (!isBuy)
    simp only [withLevels, Function.update_self] at hs
    simp only [quotes, hlist, ne_eq, List.map_eq_nil_iff] at hq
    have hbest := hs.first_best hq
    rwa [Bool.not_not] at hbest

/-- `process_list` trades with the orders of the best list until it is empty or nothing is left. -/
theorem processList_trades (hv : (b.withLevels (!isBuy) ((p, l) :: rest)).Valid) (hc : Crosses isBuy limit p)
    (qty : Nat) : ∃ fuel b' l' qty', b.processList fuel l qty = .ok (b', l', qty') ∧ b'.levels = b.levels ∧
      (b'.withLevels (!isBuy) ((p, l') :: rest)).Valid ∧
      ReflTransGen (Trade isBuy limit) ((b.withLevels (!isBuy) ((p, l) :: rest)).quotes, qty)
        ((b'.withLevels (!isBuy) ((p, l') :: rest)).quotes, qty') ∧ (l' = [] ∨ qty' = 0) := by
  induction l generalizing b qty with
  | nil => exact ⟨1, b, [], qty, rfl, rfl, hv, ReflTransGen.refl, Or.inl rfl⟩
  | cons node l ih =>
    have hlist : (b.withLevels (!isBuy) ((p, node :: l) :: rest)).list (!isBuy) p = [] ++ node :: l := by
      rw [list_withLevels, if_pos rfl, listAt, if_pos rfl, List.nil_append]
    have hquote : (b.withLevels (!isBuy) ((p, node :: l) :: rest)).quotes (!isBuy, p) =
        entry node :: l.map entry := by
      simp only [quotes, hlist, List.nil_append, List.map_cons]
    rcases Nat.eq_zero_or_pos qty with rfl | hq
    · exact ⟨1, b, node :: l, 0, rfl, rfl, hv, ReflTransGen.refl, Or.inr rfl⟩
    · rcases Nat.lt_or_ge qty node.order.qty with hlt | hge
      · -- filled in part: the next round ends the loop
        let node' : Node := { node with order := { node.order with qty := node.order.qty - qty } }
        let b₁ : NaiveOrderBook := { b with totalTrades := b.totalTrades + 1 }
        have hround : processRound (b, node :: l, qty) = .ok (.again (b₁, node' :: l, 0)) := by
          have hmin : min qty node.order.qty = qty := Nat.min_eq_left (Nat.le_of_lt hlt)
          have hrest : ¬ node.order.qty - qty = 0 := by omega
          simp only [processRound, if_pos hq, hmin, if_neg hrest, Nat.sub_self, pure_eq_ok, node', b₁]
        have hb : Replaces (b.withLevels (!isBuy) ((p, node :: l) :: rest)) (!isBuy) p (node' :: l)
            (b₁.withLevels (!isBuy) ((p, node' :: l) :: rest)) := replaces_front b b₁ rfl
        have hv₁ : (b₁.withLevels (!isBuy) ((p, node' :: l) :: rest)).Valid :=
          hv.rewrite hlist (show node'.itr = node.itr from rfl) (show node'.order.id = node.order.id from rfl)
            (sorted_front b b₁ rfl hv) hb rfl rfl
        refine ⟨2, b₁, node' :: l, 0, by rw [processList, loop_again hround]; rfl, rfl, hv₁, ?_, Or.inr rfl⟩
        rw [hb.quotes]
        exact ReflTransGen.single (Trade.part hq (best_front hv hc) hquote hlt)
      · -- filled in full: the next order
        let b₁ : NaiveOrderBook := { b with
          totalTrades := b.totalTrades + 1
          orderLookup := Function.update b.orderLookup node.order.id none }
        have hknown : b.orderLookup node.order.id = some ⟨p, !isBuy, node.itr⟩ :=
          hv.known (!isBuy) p node (by rw [hlist]; exact List.mem_cons_self)
        have hround : processRound (b, node :: l, qty) = .ok (.again (b₁, l, qty - node.order.qty)) := by
          have hmin : min qty node.order.qty = node.order.qty := Nat.min_eq_right hge
          simp only [processRound, if_pos hq, hmin, Nat.sub_self, if_true, eraseLookup, hknown, pure_eq_ok, ok_bind, b₁]
        have hb : Replaces (b.withLevels (!isBuy) ((p, node :: l) :: rest)) (!isBuy) p ([] ++ l)
            (b₁.withLevels (!isBuy) ((p, l) :: rest)) := replaces_front b b₁ rfl
        have hv₁ : (b₁.withLevels (!isBuy) ((p, l) :: rest)).Valid :=
          hv.remove hlist (sorted_front b b₁ rfl hv) hb rfl rfl
        obtain ⟨fuel, b', l', qty', e, hlevels, hv', htrades, hend⟩ := ih hv₁ (qty - node.order.qty)
        refine ⟨fuel + 1, b', l', qty', (loop_again hround fuel).trans e, hlevels, hv', ?_, hend⟩
        refine ReflTransGen.head ?_ htrades
        rw [hb.quotes]
        exact Trade.full hq (best_front hv hc) hquote hge

theorem withLevels_self {m : LevelMap} (hm : b.levels s = m) : b.withLevels s m = b := by
  subst hm
  simp only [withLevels, Function.update_eq_self]

/-- Erasing a price with an empty list from the map changes no list. -/
theorem Valid.erase_front (h : (b.withLevels s ((p, []) :: rest)).Valid) :
    (b.withLevels s rest).Valid ∧ (b.withLevels s rest).quotes = (b.withLevels s ((p, []) :: rest)).quotes := by
  have hs := h.sorted s
  simp only [withLevels, Function.update_self] at hs
  have hsame : ∀ s' q, (b.withLevels s rest).list s' q = (b.withLevels s ((p, []) :: rest)).list s' q := by
    intro s' q
    rw [list_withLevels, list_withLevels]
    by_cases hs' : s' = s
    · rw [if_pos hs', if_pos hs', listAt]
      by_cases hq' : p = q
      · rw [if_pos hq', ← hq']
        exact listAt_eq_nil hs.ne
      · rw [if_neg hq']
    · rw [if_neg hs', if_neg hs']
  refine ⟨⟨fun s' => ?_, fun s' q => hsame s' q ▸ h.known s' q, fun id loc hloc => ?_,
    fun s' q => hsame s' q ▸ h.nodup s' q, fun s' q => hsame s' q ▸ h.fresh s' q⟩, ?_⟩
  · by_cases hs' : s' = s
    · subst hs'
      simp only [withLevels, Function.update_self]
      exact (List.pairwise_cons.1 hs).2
    · have hsort := h.sorted s'
      simp only [withLevels, Function.update_of_ne hs'] at hsort ⊢
      exact hsort
  · rw [hsame]
    exact h.found id loc hloc
  · funext k
    simp only [quotes, hsame]

/-- `match` trades until nothing is left or no price is within the limit. -/
theorem matchOrder_trades (hv : b.Valid) (isBuy : Bool) (limit qty : Nat) :
    ∃ fuel b' qty', b.matchOrder fuel limit qty isBuy = .ok (b', qty') ∧ b'.Valid ∧
      ReflTransGen (Trade isBuy limit) (b.quotes, qty) (b'.quotes, qty') ∧ Ended isBuy limit (b'.quotes, qty') := by
  induction hm : b.levels (!isBuy) generalizing b qty with
  | nil =>
    refine ⟨1, b, qty, loop_done (by simp only [matchRound, hm, pure_eq_ok]) 0, hv, ReflTransGen.refl,
      Or.inr fun p hp => absurd ?_ hp⟩
    simp only [quotes, list, hm, listAt, List.map_nil]
  | cons e rest ih =>
    obtain ⟨p, l⟩ := e
    have hs := hv.sorted (!isBuy)
    rw [hm] at hs
    rcases Nat.eq_zero_or_pos qty with rfl | hq
    · exact ⟨1, b, 0, loop_done (by simp only [matchRound, hm, Nat.lt_irrefl, if_false, pure_eq_ok]) 0, hv,
        ReflTransGen.refl, Or.inl rfl⟩
    · by_cases hc : Crosses isBuy limit p
      · have hself : b.withLevels (!isBuy) ((p, l) :: rest) = b := withLevels_self hm
        obtain ⟨inner, b₁, l', qty', e, hlevels, hv₁, htrades, hend⟩ :=
          processList_trades (l := l) (hself.symm ▸ hv) hc qty
        rw [hself] at htrades
        by_cases hl : l' = []
        · -- the list is empty: its price leaves the map
          subst hl
          obtain ⟨hv₂, hquotes⟩ := hv₁.erase_front
          obtain ⟨fuel, b', qty'', e', hv', htrades', hend'⟩ :=
            ih hv₂ qty' (by simp only [withLevels, Function.update_self])
          have hround : matchRound (max inner fuel) limit isBuy (b, qty) =
              .ok (.again (b₁.withLevels (!isBuy) rest, qty')) := by
            have e₁ := loop_mono (fun _ => CutOff.refl _) (Nat.le_max_left inner fuel) _ _ e
            simp only [matchRound, hm, if_pos hq, if_pos hc, processList, e₁, ok_bind, List.isEmpty_nil, if_true,
              pure_eq_ok]
          refine ⟨max inner fuel + 1, b', qty'', ?_, hv', htrades.trans (hquotes ▸ htrades'), hend'⟩
          have hround' := (matchRound_cutOff (Nat.le_succ (max inner fuel)) limit isBuy (b, qty)).extends _ hround
          rw [matchOrder, loop_again hround']
          exact loop_mono (matchRound_cutOff (Nat.le_succ_of_le (Nat.le_max_right inner fuel)) limit isBuy)
            (Nat.le_max_right inner fuel) _ _ e'
        · -- nothing is left
          obtain rfl := hend.resolve_left hl
          have hround : matchRound (inner + 2) limit isBuy (b, qty) =
              .ok (.again (b₁.withLevels (!isBuy) ((p, l') :: rest), 0)) := by
            have e₁ := loop_mono (fun _ => CutOff.refl _) (Nat.le_add_right inner 2) _ _ e
            have hl' : l'.isEmpty = false := List.isEmpty_eq_false_iff.2 hl
            simp only [matchRound, hm, if_pos hq, if_pos hc, processList, e₁, ok_bind, hl', Bool.false_eq_true,
              if_false, pure_eq_ok]
          have hdone : ∀ k, matchRound k limit isBuy (b₁.withLevels (!isBuy) ((p, l') :: rest), 0) =
              .ok (.done (b₁.withLevels (!isBuy) ((p, l') :: rest), 0)) := by
            intro k
            simp only [matchRound, withLevels, Function.update_self, Nat.lt_irrefl, if_false, pure_eq_ok]
          exact ⟨inner + 2, _, 0, by rw [matchOrder, loop_again hround, loop_done (hdone _)], hv₁, htrades, Or.inl rfl⟩
      · refine ⟨1, b, qty, loop_done (by simp only [matchRound, hm, if_pos hq, if_neg hc, pure_eq_ok]) 0, hv,
          ReflTransGen.refl, Or.inr fun q hq' => not_crosses_of_not_better hc ?_⟩
        have hne : listAt q ((p, l) :: rest) ≠ [] := by
          intro hnil
          simp only [quotes, list, hm, hnil, List.map_nil] at hq'
          exact hq' rfl
        have hbest := hs.first_best hne
        rwa [Bool.not_not] at hbest

/-! ### Calls -/

/-- An order with this id rests. -/
def Resting (b : NaiveOrderBook) (id : Nat) : Prop :=
  ∃ isBuy, ∃ level ∈ b.levels isBuy, ∃ node ∈ level.2, node.order.id = id

instance (b : NaiveOrderBook) (id : Nat) : Decidable (b.Resting id) :=
  inferInstanceAs (Decidable (∃ isBuy, ∃ level ∈ b.levels isBuy, ∃ node ∈ level.2, node.order.id = id))

theorem valid_new : new.Valid where
  sorted _ := List.Pairwise.nil
  known _ _ _ h := by cases h
  found _ _ h := by cases h
  nodup _ _ := List.nodup_nil
  fresh _ _ _ h := by cases h

theorem Valid.resting_iff (h : b.Valid) : b.Resting id ↔ ∃ k, ∃ x ∈ b.quotes k, x.1 = id := by
  constructor
  · rintro ⟨s, ⟨p, l⟩, hlevel, node, hnode, rfl⟩
    have hl : b.list s p = l := (h.sorted s).listAt_of_mem hlevel
    exact ⟨(s, p), entry node, List.mem_map_of_mem (hl.symm ▸ hnode), rfl⟩
  · rintro ⟨k, x, hx, rfl⟩
    obtain ⟨node, hnode, rfl⟩ := List.mem_map.1 hx
    obtain ⟨level, hlevel, _, hmem⟩ := exists_of_mem_listAt hnode
    exact ⟨k.1, level, hlevel, node, hmem, rfl⟩

/-- `add_order` with a new id. -/
theorem addOrder_refines (h : b.Valid) (hid : ¬ b.Resting id) (price qty : Nat) (isBuy : Bool) :
    ∃ b', b.Step (.submit id price qty isBuy) b' ∧ b'.Valid ∧
      PriceTime.Step b.quotes (.submit id price qty isBuy) b'.quotes := by
  obtain ⟨fuel, b₁, qty', e, hv₁, htrades, hend⟩ := matchOrder_trades h isBuy price qty
  have hnew : ∀ k, ∀ x ∈ b₁.quotes k, x.1 ≠ id := by
    intro k x hx heq
    obtain ⟨y, hy, hyx⟩ := trades_ids htrades k x hx
    exact hid (h.resting_iff.2 ⟨k, y, hy, hyx.trans heq⟩)
  have hstep : PriceTime.Step b.quotes (.submit id price qty isBuy) (rest b₁.quotes id price qty' isBuy) :=
    PriceTime.Step.submit htrades hend
  rcases Nat.eq_zero_or_pos qty' with rfl | hq
  · rw [rest, if_neg (Nat.lt_irrefl 0)] at hstep
    exact ⟨b₁, ⟨fuel, by simp only [exec, addOrder, e, ok_bind, Nat.lt_irrefl, if_false, pure_eq_ok]⟩, hv₁, hstep⟩
  · let node : Node := ⟨b₁.nextItr, ⟨id, price, qty', isBuy⟩⟩
    obtain ⟨m, em, hsort, hlist, _⟩ := modifyAt_of_ok (hv₁.sorted isBuy)
      (f := fun list => return list ++ [node]) (show _ = Except.ok (b₁.list isBuy price ++ [node]) from rfl)
    let b₂ : NaiveOrderBook := { b₁.withLevels isBuy m with
      orderLookup := Function.update b₁.orderLookup id (some ⟨price, isBuy, b₁.nextItr⟩)
      nextItr := b₁.nextItr + 1 }
    have hb : Replaces b₁ isBuy price (b₁.list isBuy price ++ [node]) b₂ := replaces_withLevels hlist rfl
    have hother : ∀ s q, ∀ x ∈ b₁.list s q, x.order.id ≠ id :=
      fun s q x hx => hnew (s, q) (entry x) (List.mem_map_of_mem hx)
    refine ⟨b₂, ⟨fuel, ?_⟩, ?_, ?_⟩
    · simp only [exec, addOrder, e, ok_bind, if_pos hq]
      rw [em]
      rfl
    · exact hv₁.push (show node.itr = b₁.nextItr from rfl) hother (sorted_withLevels hv₁.sorted hsort rfl) hb rfl rfl
    · rw [hb.quotes, List.map_append]
      rwa [rest, if_pos hq] at hstep

/-- `cancel_order`. -/
theorem cancelOrder_refines (h : b.Valid) (id : Nat) :
    ∃ b', b.Step (.cancel id) b' ∧ b'.Valid ∧ PriceTime.Step b.quotes (.cancel id) b'.quotes := by
  cases hlookup : b.orderLookup id with
  | none =>
    refine ⟨b, ⟨0, by simp only [exec, cancelOrder, hlookup, pure_eq_ok]⟩, h, ?_⟩
    have habsent : ∀ k, ∀ x ∈ b.quotes k, x.1 ≠ id := by
      rintro k x hx rfl
      obtain ⟨node, hnode, rfl⟩ := List.mem_map.1 hx
      have hknown := h.known k.1 k.2 node hnode
      rw [show node.order.id = (entry node).1 from rfl, hlookup] at hknown
      cases hknown
    have hstep : PriceTime.Step b.quotes (.cancel id) (PriceTime.withdraw b.quotes id) := PriceTime.Step.cancel
    rwa [withdraw_absent habsent] at hstep
  | some loc =>
    obtain ⟨node, hnode, hitr, rfl⟩ := h.found id loc hlookup
    obtain ⟨l₁, l₂, hl⟩ := List.append_of_mem hnode
    have herase : eraseNode loc.itr (b.list loc.isBuy loc.price) = .ok (l₁ ++ l₂) := by
      have hne : ∀ x ∈ l₁, ¬ decide (x.itr = loc.itr) = true := by
        intro x hx heq
        exact h.not_mem hl x (List.mem_append_left _ hx) ((of_decide_eq_true heq).trans hitr.symm)
      rw [eraseNode, if_pos ⟨node, hnode, hitr⟩, hl, List.eraseP_append_right _ hne]
      simp only [List.eraseP_cons, hitr, decide_true, cond_true, pure_eq_ok]
    obtain ⟨m, em, hsort, hlist, _⟩ := modifyAt_of_ok (h.sorted loc.isBuy) herase
    let b' : NaiveOrderBook := { b.withLevels loc.isBuy m with
      orderLookup := Function.update b.orderLookup node.order.id none }
    have hb : Replaces b loc.isBuy loc.price (l₁ ++ l₂) b' := replaces_withLevels hlist rfl
    have hsorted : ∀ s, Sorted s (b'.levels s) := sorted_withLevels h.sorted hsort rfl
    refine ⟨b', ⟨0, ?_⟩, h.remove hl hsorted hb rfl rfl, ?_⟩
    · simp only [exec, cancelOrder, hlookup, em, ok_bind, pure_eq_ok, b']
    · rw [h.withdraw hl hb]
      exact PriceTime.Step.cancel

end NaiveOrderBook

end Lobook
