import Lobook.Book.NaiveRefines
import Lobook.Book.Steps

/-!
# The bitset book against the reference book

Both books follow `PriceTime`: the reference book always (`NaiveOrderBook.addOrder_refines`,
`NaiveOrderBook.cancelOrder_refines`), the bitset book in every state whose links thread the pool, as long as
`cancel_order` takes no order out of its level that has a stale back link (`Whole.submit_refines`,
`Whole.cancel_refines`).  Since these rules leave no choice, the two books then hold the same orders after every call.
-/

namespace Lobook

open Checked Links PriceTime Relation Transition

namespace Ladder

variable {b b' : Ladder} {Q Q' : Bool × Nat → List Nat} {F : List Nat} {k : Bool × Nat} {isBuy : Bool}
  {price i id qty limit : Nat} {l l₁ l₂ : List Nat}

def entry (b : Ladder) (i : Nat) : Nat × Nat := ((b.order i).id, (b.order i).qty)

/-- What the queues hold. -/
def quotes (b : Ladder) (Q : Bool × Nat → List Nat) : Quotes Nat := fun k => (Q k).map b.entry

theorem quotes_congr (h : ∀ k, ∀ j ∈ Q k, b'.entry j = b.entry j) : b'.quotes Q = b.quotes Q :=
  funext fun k => List.map_congr_left fun j hj => h k j hj

theorem quotes_update : b.quotes (Function.update Q k l) = Function.update (b.quotes Q) k (l.map b.entry) := by
  funext k'
  rcases eq_or_ne k' k with rfl | hne
  · simp only [quotes, Function.update_self]
  · simp only [quotes, Function.update_of_ne hne]

namespace Pool

theorem quotes_ne_nil (h : b.Pool Q F) : b.quotes Q (isBuy, price) ≠ [] ↔ price ∈ b.occupied isBuy := by
  rw [h.mem_occupied, quotes, ne_eq, List.map_eq_nil_iff]

/-! ### Trades -/

theorem best (h : b.Pool Q F) (hbest : Ladder.Best isBuy limit b price) :
    PriceTime.Best isBuy limit (b.quotes Q) price where
  rests := h.quotes_ne_nil.2 hbest.occupied
  best q hq := hbest.best q (h.quotes_ne_nil.1 hq)
  crosses := hbest.crosses

theorem quotes_popped (h : b.Pool Q F) (hk : Q (isBuy, price) = i :: l) :
    (b.popped isBuy price).quotes (Function.update Q (isBuy, price) l) =
      Function.update (b.quotes Q) (isBuy, price) (l.map b.entry) := by
  rw [← quotes_update]
  refine quotes_congr fun k j hj => ?_
  rw [entry, order_popped (h.of_cons hk).1 (h.threads.mem_of_pop hk hj).2, entry]

theorem quotes_reduced (h : b.Pool Q F) (hk : Q (isBuy, price) = i :: l) :
    (b.reduced isBuy price qty).quotes Q =
      Function.update (b.quotes Q) (isBuy, price) (((b.entry i).1, (b.entry i).2 - qty) :: l.map b.entry) := by
  have hhead := (h.of_cons hk).1
  have hother : ∀ j, j ≠ i → (b.reduced isBuy price qty).entry j = b.entry j := by
    intro j hj
    rw [entry, order_reduced hhead, if_neg hj, entry]
  have hfirst : (b.reduced isBuy price qty).entry i = ((b.entry i).1, (b.entry i).2 - qty) := by
    rw [entry, order_reduced hhead, if_pos rfl, entry]
  have hi : i ∈ Q (isBuy, price) := hk ▸ List.mem_cons_self
  funext k
  rcases eq_or_ne k (isBuy, price) with rfl | hne
  · rw [Function.update_self, quotes, hk, List.map_cons, hfirst]
    congr 1
    exact List.map_congr_left fun j hj => hother j fun e => (h.threads.of_cons hk).2.2.1 (e ▸ hj)
  · rw [Function.update_of_ne hne]
    exact List.map_congr_left fun j hj => hother j fun e => hne (h.threads.apart _ _ i (e ▸ hj) hi)

theorem ended (h : b.Pool Q F) (hend : Ladder.Ended isBuy limit (b, qty)) :
    PriceTime.Ended isBuy limit (b.quotes Q, qty) :=
  hend.imp_right fun hfar p hp => hfar p (h.quotes_ne_nil.1 hp)

/-! ### Orders that come and go -/

theorem quotes_appended (h : b.Pool Q (i :: F)) (hfresh : ∀ k, ∀ j ∈ Q k, (b.order j).id ≠ id)
    (ha : (b.taken id price qty isBuy).Appended isBuy price i b') :
    b'.quotes (Function.update Q (isBuy, price) (Q (isBuy, price) ++ [i])) =
      Function.update (b.quotes Q) (isBuy, price) (b.quotes Q (isBuy, price) ++ [(id, qty)]) := by
  obtain ⟨hfree, _, hQ, _⟩ := h.taken hfresh price qty isBuy
  have hold : ∀ k, ∀ j ∈ Q k, b'.entry j = b.entry j := by
    intro k j hj
    have hji : j ≠ i := fun e => hQ k (e ▸ hj)
    rw [entry, ha.order, order_taken hfree, if_neg hji, entry]
  have hnew : b'.entry i = (id, qty) := by
    rw [entry, ha.order, order_taken hfree, if_pos rfl]
  rw [quotes_update, quotes_congr hold, List.map_append, List.map_singleton, hnew,
    List.map_congr_left fun j hj => hold _ j hj]
  rfl

theorem quotes_freed (h : b.Pool Q F) (hk : Q (isBuy, price) = l₁ ++ i :: l₂) (hu : b.Unlinked isBuy price i b') :
    (FastOrderBook.freed b' (b.order i).id i).quotes (Function.update Q (isBuy, price) (l₁ ++ l₂)) =
      withdraw (b.quotes Q) (b.order i).id := by
  have hi : i ∈ Q (isBuy, price) := by rw [hk]; simp
  have hentries : b.quotes Q (isBuy, price) = l₁.map b.entry ++ b.entry i :: l₂.map b.entry := by
    rw [quotes, hk, List.map_append, List.map_cons]
  have hsame : ∀ k, ∀ j ∈ Function.update Q (isBuy, price) (l₁ ++ l₂) k,
      (FastOrderBook.freed b' (b.order i).id i).entry j = b.entry j := by
    intro k j hj
    have hji := (h.threads.mem_of_unlink hk hj).2
    rw [entry, order_freed hji, hu.order, entry]
  rw [quotes_congr hsame, quotes_update, List.map_append]
  refine (withdraw_eq_update hentries (fun x hx => ?_) fun k hne x hx hid => ?_).symm
  · rw [← List.map_append] at hx
    obtain ⟨j, hj, rfl⟩ := List.mem_map.1 hx
    have hj' : j ∈ Function.update Q (isBuy, price) (l₁ ++ l₂) (isBuy, price) := by rwa [Function.update_self]
    obtain ⟨hjQ, hji⟩ := h.threads.mem_of_unlink hk hj'
    exact fun hid => hji (h.eq_of_id hjQ hi hid)
  · obtain ⟨j, hj, rfl⟩ := List.mem_map.1 hx
    obtain rfl : j = i := h.eq_of_id hj hi hid
    exact hne (h.threads.apart _ _ j hj hi)

end Pool

end Ladder

namespace FastBitsetOrderBook

open Ladder

variable {b b' : FastBitsetOrderBook} {Q : Bool × Nat → List Nat} {F l₁ l₂ : List Nat} {isBuy : Bool}
  {price i id n : Nat}

/-- `submit_order` with a new id. -/
theorem Whole.submit_refines (hw : b.Whole n Q F) (hid : id < n) (hfresh : ∀ k, ∀ j ∈ Q k, (b.order j).id ≠ id)
    (hp : price < MAX_PRICES) (qty : Nat) (isBuy : Bool) :
    ∃ b' Q' F', b.Step (.submit id price qty isBuy) b' ∧ b'.Whole n Q' F' ∧
      PriceTime.Step (b.quotes Q) (.submit id price qty isBuy) (b'.quotes Q') := by
  obtain ⟨b₁, b', Q₁, F₁, qty', hstep, hend, h₁, htrades, hfresh₁, hcases⟩ := hw.submit
    (P := fun b₁ Q₁ _ qty₁ => ReflTransGen (PriceTime.Trade isBuy price) (b.quotes Q, qty) (b₁.quotes Q₁, qty₁))
    hid hfresh hp qty isBuy ReflTransGen.refl
    (fun b Q F qty p i l h htrades hk hbest hq hle => htrades.tail (by
      rw [h.quotes_popped hk]
      exact PriceTime.Trade.full hq (h.best hbest) (congrArg (List.map b.entry) hk) hle))
    (fun b Q F qty p i l h htrades hk hbest hq hlt => htrades.tail (by
      rw [h.quotes_reduced hk]
      exact PriceTime.Trade.part hq (h.best hbest) (congrArg (List.map b.entry) hk) hlt))
  have hrest : PriceTime.Step (b.quotes Q) (.submit id price qty isBuy) _ :=
    PriceTime.Step.submit htrades (h₁.ended hend)
  rcases hcases with ⟨rfl, rfl, hw'⟩ | ⟨i, F₂, hq, rfl, happ, hw'⟩
  · rw [rest, if_neg (Nat.lt_irrefl 0)] at hrest
    exact ⟨b', Q₁, F₁, hstep, hw', hrest⟩
  · rw [rest, if_pos hq, ← h₁.quotes_appended hfresh₁ happ] at hrest
    exact ⟨b', _, F₂, hstep, hw', hrest⟩

/-- `cancel_order` of an order that rests. -/
theorem Whole.cancel_refines (hw : b.Whole n Q F) (hi : i ∈ Q (isBuy, price)) (hclean : b.UnlinksCleanly i) :
    ∃ b' Q' F', b.Step (.cancel (b.order i).id) b' ∧ b'.Whole n Q' F' ∧
      PriceTime.Step (b.quotes Q) (.cancel (b.order i).id) (b'.quotes Q') := by
  obtain ⟨l₁, l₂, hk⟩ := List.append_of_mem hi
  obtain ⟨b₁, b', hstep, hu, hb', hw'⟩ := hw.cancel hk hclean
  refine ⟨b', _, _, hstep, hw', ?_⟩
  rw [hb', hw.pool.quotes_freed hk hu]
  exact PriceTime.Step.cancel

end FastBitsetOrderBook

/-! ### The two books in parallel -/

namespace Parallel

open FastBitsetOrderBook

/-- The reference book and the bitset book. -/
abbrev Books := NaiveOrderBook × FastBitsetOrderBook

/-- Both books make the call. -/
def Step (s : Books) (c : Call) (t : Books) : Prop := s.1.Step c t.1 ∧ s.2.Step c t.2

/-- The calls of a caller who submits new ids below `n` at prices within the ladder and cancels orders that rest. -/
def Admissible (n : Nat) (s : Books) : Call → Prop
  | .submit id price _ _ => id < n ∧ ¬ s.1.Resting id ∧ price < MAX_PRICES
  | .cancel id => s.1.Resting id

instance (n : Nat) (s : Books) (c : Call) : Decidable (Admissible n s c) :=
  match c with
  | .submit id price _ _ => inferInstanceAs (Decidable (id < n ∧ ¬ s.1.Resting id ∧ price < MAX_PRICES))
  | .cancel id => inferInstanceAs (Decidable (s.1.Resting id))

/-- A cancelled order that is the first one of its level has no back link, or one that leads to an order that has its
link already. -/
def AvoidsStale (s : Books) : Call → Prop
  | .submit .. => True
  | .cancel id => s.2.UnlinksCleanly (s.2.slot id)

instance (s : Books) (c : Call) : Decidable (AvoidsStale s c) :=
  match c with
  | .submit .. => isTrue trivial
  | .cancel id => inferInstanceAs (Decidable (s.2.UnlinksCleanly (s.2.slot id)))

/-- At every side and price the chain of the bitset book holds the list of the reference book. -/
def SameOrders (s : Books) : Prop := ∀ isBuy price, price < MAX_PRICES →
  ∃ l, s.2.Meets (s.2.level isBuy price).head l ∧
    (l.map fun i => ((s.2.order i).id, (s.2.order i).qty)) =
      (s.1.list isBuy price).map fun node => (node.order.id, node.order.qty)

variable {n : Nat} {s : Books}

/-- Both books are in order, and hold the same. -/
def Related (n : Nat) (s : Books) : Prop :=
  s.1.Valid ∧ ∃ Q F, s.2.Whole n Q F ∧ s.2.quotes Q = s.1.quotes

theorem Related.sameOrders (h : Related n s) : SameOrders s := by
  obtain ⟨_, Q, F, hw, heq⟩ := h
  intro isBuy price hp
  exact ⟨Q (isBuy, price), hw.pool.meets (k := (isBuy, price)) hp, congrFun heq (isBuy, price)⟩

/-- Both books make every call that meets the conditions, and hold the same afterwards. -/
theorem Related.step {c : Call} (h : Related n s) (hok : Admissible n s c) (havoid : AvoidsStale s c) :
    ∃ t, Step s c t ∧ Related n t := by
  obtain ⟨m, b⟩ := s
  obtain ⟨hv, Q, F, hw, heq⟩ := h
  have hrests : ∀ id, m.Resting id ↔ ∃ k, ∃ j ∈ Q k, (b.order j).id = id := by
    intro id
    rw [hv.resting_iff, show m.quotes = b.quotes Q from heq.symm]
    constructor
    · rintro ⟨k, x, hx, rfl⟩
      obtain ⟨j, hj, rfl⟩ := List.mem_map.1 hx
      exact ⟨k, j, hj, rfl⟩
    · rintro ⟨k, j, hj, rfl⟩
      exact ⟨k, b.entry j, List.mem_map_of_mem hj, rfl⟩
  -- both steps are the step of the rules
  suffices hsteps : (∃ m', m.Step c m' ∧ m'.Valid ∧ PriceTime.Step m.quotes c m'.quotes) ∧
      ∃ b' Q' F', b.Step c b' ∧ b'.Whole n Q' F' ∧ PriceTime.Step (b.quotes Q) c (b'.quotes Q') by
    obtain ⟨⟨m', hm, hv', hspec⟩, b', Q', F', hb, hw', hspec'⟩ := hsteps
    rw [show b.quotes Q = m.quotes from heq] at hspec'
    exact ⟨(m', b'), ⟨hm, hb⟩, hv', Q', F', hw', hspec'.unique hspec⟩
  cases c with
  | submit id price qty isBuy =>
    obtain ⟨hid, hnew, hp⟩ := hok
    have hfresh : ∀ k, ∀ j ∈ Q k, (b.order j).id ≠ id := fun k j hj heq => hnew ((hrests id).2 ⟨k, j, hj, heq⟩)
    exact ⟨NaiveOrderBook.addOrder_refines hv hnew price qty isBuy, hw.submit_refines hid hfresh hp qty isBuy⟩
  | cancel id =>
    obtain ⟨k, i, hi, rfl⟩ := (hrests id).1 hok
    have hclean : b.UnlinksCleanly (b.slot (b.order i).id) := havoid
    rw [(hw.pool.mapped k i hi).2] at hclean
    exact ⟨NaiveOrderBook.cancelOrder_refines hv (b.order i).id, hw.cancel_refines hi hclean⟩

/-- Along every run of the two books in which no cancelled order is the first one of its level with a stale back link,
they hold the same orders after every call, and both return from the next call. -/
theorem refines_run {b₀ : FastBitsetOrderBook} (hlt : n < NULL_IDX)
    (hinit : FastBitsetOrderBook.new.init n = .ok b₀) (cs : List Call) (s : Books)
    (hrun : Run (Guarded (fun s c => Admissible n s c ∧ AvoidsStale s c) Step) (NaiveOrderBook.new, b₀) cs s) :
    SameOrders s ∧ ∀ c, Admissible n s c → AvoidsStale s c → ∃ t, Step s c t := by
  have hinv : Related n s := by
    refine hrun.invariant (I := Related n) ⟨NaiveOrderBook.valid_new, _, _, Whole.init hlt hinit, rfl⟩ ?_
    rintro s c t hs ⟨⟨hok, havoid⟩, hstep⟩
    obtain ⟨t', hstep', ht'⟩ := hs.step hok havoid
    obtain rfl : t = t' := Prod.ext (hstep.1.unique hstep'.1) (FastBitsetOrderBook.Step.unique hstep.2 hstep'.2)
    exact ht'
  refine ⟨hinv.sameOrders, fun c hok havoid => ?_⟩
  obtain ⟨t, hstep, _⟩ := hinv.step hok havoid
  exact ⟨t, hstep⟩

/-! ### A stale back link -/

def exec (fuel : Nat) (s : Books) (c : Call) : Exec Books := do
  let m ← s.1.exec fuel c
  let b ← s.2.exec fuel c
  return (m, b)

theorem step_of_exec {fuel : Nat} {c : Call} {t : Books} (h : exec fuel s c = .ok t) : Step s c t := by
  obtain ⟨m, hm, h⟩ := bind_eq_ok.1 h
  obtain ⟨b, hb, h⟩ := bind_eq_ok.1 h
  cases h
  exact ⟨⟨fuel, hm⟩, fuel, hb⟩

/-- The bid fills the first ask at 10, whose slot is then used at 20; the second ask at 10 still has it as its
predecessor when it is cancelled. -/
def cancelStale : List Call := [.submit 0 10 1 false, .submit 1 10 1 false, .submit 2 10 1 true, .submit 2 20 1 false,
  .submit 3 20 1 false, .cancel 1]

private theorem cancelStale_run : ∃ b₀ s, FastBitsetOrderBook.new.init 4 = .ok b₀ ∧
    Run (Guarded (Admissible 4) Step) (NaiveOrderBook.new, b₀) cancelStale s ∧ (s.2.level false 20).head = 0 ∧
      (s.2.order 0).next = NULL_IDX ∧ (s.1.list false 20).length = 2 := by
  have hok : (FastBitsetOrderBook.new.init 4 >>= fun b₀ =>
      cancelStale.foldlM (guardedExec (Admissible 4) (exec 10)) (NaiveOrderBook.new, b₀)).isOk = true := by
    decide +kernel
  obtain ⟨b₀, h₀, h⟩ := bind_eq_ok.1 (eq_ok_value (NaiveOrderBook.new, FastBitsetOrderBook.new) hok)
  exact ⟨b₀, _, h₀, run_of_foldlM (fun _ _ _ => step_of_exec) h, by decide +kernel, by decide +kernel,
    by decide +kernel⟩

theorem cancelStale_differs : ∃ b₀ s, FastBitsetOrderBook.new.init 4 = .ok b₀ ∧
    Run (Guarded (Admissible 4) Step) (NaiveOrderBook.new, b₀) cancelStale s ∧ ¬ SameOrders s := by
  obtain ⟨b₀, s, h₀, hrun, hhead, hnext, hlen⟩ := cancelStale_run
  refine ⟨b₀, s, h₀, hrun, fun hsame => ?_⟩
  obtain ⟨l, hmeets, heq⟩ := hsame false 20 (by decide)
  have hchain : s.2.Meets (s.2.level false 20).head [0] := ⟨⟨hhead, hnext⟩, by decide⟩
  obtain rfl := hmeets.unique hchain
  have hlen' := congrArg List.length heq
  rw [List.length_map, List.length_map, hlen] at hlen'
  exact absurd hlen' (by decide)

/-- Two asks at one price, and the first one is cancelled. -/
theorem refines_run_cancel : ∃ b₀ s, FastBitsetOrderBook.new.init 4 = .ok b₀ ∧
    Run (Guarded (fun s c => Admissible 4 s c ∧ AvoidsStale s c) Step) (NaiveOrderBook.new, b₀)
      [.submit 0 10 1 false, .submit 1 10 1 false, .cancel 0] s ∧ SameOrders s := by
  have hok : (FastBitsetOrderBook.new.init 4 >>= fun b₀ =>
      [Call.submit 0 10 1 false, .submit 1 10 1 false, .cancel 0].foldlM
        (guardedExec (fun s c => Admissible 4 s c ∧ AvoidsStale s c) (exec 10))
          (NaiveOrderBook.new, b₀)).isOk = true := by
    decide +kernel
  obtain ⟨b₀, h₀, h⟩ := bind_eq_ok.1 (eq_ok_value (NaiveOrderBook.new, FastBitsetOrderBook.new) hok)
  have hrun : Run (Guarded (fun s c => Admissible 4 s c ∧ AvoidsStale s c) Step) (NaiveOrderBook.new, b₀) _ _ :=
    run_of_foldlM (fun _ _ _ => step_of_exec) h
  exact ⟨b₀, _, h₀, hrun, (refines_run (by decide) h₀ _ _ hrun).1⟩

end Parallel

end Lobook
