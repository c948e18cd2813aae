import Lobook.Book.Calm

/-!
# The benchmark of `replace_order` (`benchmark_replace.cpp`)

The benchmark compares `replace_order` with `cancel_order` and `submit_order` on the same random operations.  The bids and
the asks are drawn from ranges that do not meet, so nothing can trade, whatever the generator draws.  Both scenarios then
end with the same orders at each price (`replace_benchmark`), although the second one starts from a book that the first
one has used.
-/

namespace Lobook

open Checked PriceTime

namespace BenchmarkReplace

open FastBitsetOrderBook

def kMaxOrders : Nat := 100000

def kLiveOrders : Nat := 10000

def kNumOps : Nat := 1000000

structure Operation where
  id : Nat
  newPrice : Nat
  newQty : Nat
  isBuy : Bool

/-- The prices that the sides draw from. -/
def InRange (isBuy : Bool) (price : Nat) : Prop :=
  if isBuy then 100 ≤ price ∧ price ≤ MAX_PRICES / 2 - 1 else MAX_PRICES / 2 ≤ price ∧ price ≤ MAX_PRICES - 100

instance (isBuy : Bool) (price : Nat) : Decidable (InRange isBuy price) :=
  inferInstanceAs (Decidable (if isBuy then _ ∧ _ else _ ∧ _))

/-- A generator of random numbers with the states `σ`, and the three distributions. -/
structure Generator (σ : Type) where
  rng : σ → Nat × σ
  bidDist : σ → Nat × σ
  askDist : σ → Nat × σ
  qtyDist : σ → Nat × σ
  bid_range : ∀ s, InRange true (bidDist s).1
  ask_range : ∀ s, InRange false (askDist s).1
  qty_range : ∀ s, 1 ≤ (qtyDist s).1 ∧ (qtyDist s).1 ≤ 100

variable {σ : Type}

/-- The operation on this id, with a price and a quantity that are drawn. -/
def Generator.draw (g : Generator σ) (id : Nat) (s : σ) : Operation × σ :=
  let isBuy := id % 2 == 0
  let (price, s) := if isBuy then g.bidDist s else g.askDist s
  let (qty, s) := g.qtyDist s
  (⟨id, price, qty, isBuy⟩, s)

/-- What `seed_book` submits, from the id `i` on. -/
def seedOrders (g : Generator σ) : Nat → Nat → σ → List Operation
  | _, 0, _ => []
  | i, count + 1, s =>
    let (op, s) := g.draw i s
    op :: seedOrders g (i + 1) count s

def generateOps (g : Generator σ) (live : Nat) : Nat → σ → List Operation
  | 0, _ => []
  | count + 1, s =>
    let (r, s) := g.rng s
    let (op, s) := g.draw (r % live) s
    op :: generateOps g live count s

/-- The calls of one round of the loop of `seed_book`. -/
def seedOrder (op : Operation) : List Request := [.call (.submit op.id op.newPrice op.newQty op.isBuy)]

/-- The calls of one round of scenario A. -/
def nativeReplace (op : Operation) : List Request := [.replace op.id op.newPrice op.newQty]

/-- The calls of one round of scenario B. -/
def cancelSubmit (op : Operation) : List Request :=
  [.call (.cancel op.id), .call (.submit op.id op.newPrice op.newQty op.isBuy)]

/-- `seed_book`, with the same draws each time it is called. -/
def seedBook (g : Generator σ) (fuel live : Nat) (book : FastBitsetOrderBook) (s : σ) : Exec FastBitsetOrderBook := do
  let book ← book.init kMaxOrders
  book.execAll fuel ((seedOrders g 0 live s).flatMap seedOrder)

/-- The books after scenario A and after scenario B. -/
def benchmark (g : Generator σ) (fuel live numOps : Nat) (opRng seedRng : σ) :
    Exec (FastBitsetOrderBook × FastBitsetOrderBook) := do
  let ops := generateOps g live numOps opRng
  let book ← seedBook g fuel live new seedRng
  let a ← book.execAll fuel (ops.flatMap nativeReplace)
  let book ← seedBook g fuel live a seedRng
  let b ← book.execAll fuel (ops.flatMap cancelSubmit)
  return (a, b)

/-! ### What is drawn -/

variable {g : Generator σ} {op : Operation} {ops : List Operation} {t : Table Nat} {n fuel live count i : Nat} {s : σ}
  {isBuy : Bool} {p q : Nat}

theorem InRange.lt (h : InRange isBuy p) : p < MAX_PRICES := by
  have hmax : 200 ≤ MAX_PRICES := by decide
  cases isBuy with
  | true =>
    obtain ⟨_, hp⟩ : 100 ≤ p ∧ p ≤ MAX_PRICES / 2 - 1 := h
    omega
  | false =>
    obtain ⟨_, hp⟩ : MAX_PRICES / 2 ≤ p ∧ p ≤ MAX_PRICES - 100 := h
    omega

/-- A bid and an ask do not trade. -/
theorem InRange.not_crosses (hp : InRange isBuy p) (hq : InRange (!isBuy) q) : ¬ Crosses isBuy p q := by
  have hmax : 200 ≤ MAX_PRICES := by decide
  cases isBuy with
  | true =>
    obtain ⟨_, hp⟩ : 100 ≤ p ∧ p ≤ MAX_PRICES / 2 - 1 := hp
    obtain ⟨hq, _⟩ : MAX_PRICES / 2 ≤ q ∧ q ≤ MAX_PRICES - 100 := hq
    change ¬ q ≤ p
    omega
  | false =>
    obtain ⟨hp, _⟩ : MAX_PRICES / 2 ≤ p ∧ p ≤ MAX_PRICES - 100 := hp
    obtain ⟨_, hq⟩ : 100 ≤ q ∧ q ≤ MAX_PRICES / 2 - 1 := hq
    change ¬ p ≤ q
    omega

/-- The side goes with the id, the price with the side. -/
structure Drawn (op : Operation) : Prop where
  side : op.isBuy = (op.id % 2 == 0)
  price : InRange op.isBuy op.newPrice
  qty : 0 < op.newQty

theorem Generator.drawn (g : Generator σ) (id : Nat) (s : σ) : Drawn (g.draw id s).1 ∧ (g.draw id s).1.id = id := by
  refine ⟨⟨rfl, ?_, (g.qty_range _).1⟩, rfl⟩
  show InRange (id % 2 == 0) (if id % 2 == 0 then g.bidDist s else g.askDist s).1
  cases id % 2 == 0 with
  | true => exact g.bid_range s
  | false => exact g.ask_range s

/-! ### The table -/

/-- The operation determines the row of its id. -/
def record (t : Table Nat) (op : Operation) : Table Nat :=
  Function.update t op.id (some ((op.isBuy, op.newPrice), op.newQty))

def tabulate (t : Table Nat) (ops : List Operation) : Table Nat := ops.foldl record t

/-- All rows are on the side of their id, within its range. -/
def Split (t : Table Nat) : Prop := ∀ id k q, t id = some (k, q) → k.1 = (id % 2 == 0) ∧ InRange k.1 k.2

theorem Split.record (ht : Split t) (h : Drawn op) : Split (record t op) := by
  intro id k q hrow
  unfold BenchmarkReplace.record at hrow
  by_cases hid : id = op.id
  · subst hid
    rw [Function.update_self] at hrow
    cases hrow
    exact ⟨h.side, h.price⟩
  · rw [Function.update_of_ne hid] at hrow
    exact ht id k q hrow

theorem record_ne_none {id : Nat} : record t op id ≠ none ↔ id = op.id ∨ t id ≠ none := by
  unfold record
  by_cases hid : id = op.id
  · subst hid
    simp
  · rw [Function.update_of_ne hid]
    simp [hid]

/-- The price of an operation is far from all prices of the other side. -/
theorem Split.far (ht : Split t) (h : Drawn op) (i p q : Nat) (hrow : t i = some ((!op.isBuy, p), q)) :
    ¬ Crosses op.isBuy op.newPrice p :=
  h.price.not_crosses (ht i _ q hrow).2

/-! ### The loops -/

/-- The conditions under which each operation is made, one after the other. -/
def Allowed (P : Table Nat → Operation → Prop) : Table Nat → List Operation → Prop
  | _, [] => True
  | t, op :: ops => P t op ∧ Allowed P (record t op) ops

/-- A loop whose rounds record their operations leaves a calm book with the whole table. -/
theorem execAll_rounds {P : Table Nat → Operation → Prop} {calls : Operation → List Request}
    (hround : ∀ b t op, Calm n b t → P t op → ∃ b', b.execAll fuel (calls op) = .ok b' ∧ Calm n b' (record t op))
    (hops : Allowed P t ops) {b : FastBitsetOrderBook} (hb : Calm n b t) :
    ∃ b', b.execAll fuel (ops.flatMap calls) = .ok b' ∧ Calm n b' (tabulate t ops) := by
  induction ops generalizing t b with
  | nil => exact ⟨b, rfl, hb⟩
  | cons op ops ih =>
    obtain ⟨b₁, e₁, hb₁⟩ := hround b t op hb hops.1
    obtain ⟨b₂, e₂, hb₂⟩ := ih hops.2 hb₁
    refine ⟨b₂, ?_, hb₂⟩
    rw [List.flatMap_cons, execAll, List.foldlM_append]
    exact bind_eq_ok.2 ⟨b₁, e₁, e₂⟩

/-- The id has no row yet. -/
def Fresh (n : Nat) (t : Table Nat) (op : Operation) : Prop := Drawn op ∧ Split t ∧ op.id < n ∧ t op.id = none

/-- The id has a row. -/
def Live (n : Nat) (t : Table Nat) (op : Operation) : Prop := Drawn op ∧ Split t ∧ op.id < n ∧ t op.id ≠ none

section Rounds

variable {b : FastBitsetOrderBook} (hfuel : n < fuel) (hb : Calm n b t)
include hfuel hb

theorem seedOrder_round (h : Fresh n t op) :
    ∃ b', b.execAll fuel (seedOrder op) = .ok b' ∧ Calm n b' (record t op) := by
  obtain ⟨hdrawn, hsplit, hid, hnew⟩ := h
  obtain ⟨b', e, hb'⟩ := hb.submit hid hnew hdrawn.price.lt hdrawn.qty (hsplit.far hdrawn)
  exact ⟨b', bind_eq_ok.2 ⟨b', e fuel hfuel, rfl⟩, hb'⟩

theorem nativeReplace_round (h : Live n t op) :
    ∃ b', b.execAll fuel (nativeReplace op) = .ok b' ∧ Calm n b' (record t op) := by
  obtain ⟨hdrawn, hsplit, _, hrow⟩ := h
  obtain ⟨⟨⟨isBuy, p⟩, q⟩, hrow⟩ := Option.ne_none_iff_exists'.1 hrow
  -- the order keeps its side, which is that of the operation
  obtain rfl : isBuy = op.isBuy := (hsplit _ _ _ hrow).1.trans hdrawn.side.symm
  obtain ⟨b', e, hb'⟩ := hb.replace hrow hdrawn.price.lt hdrawn.qty
  exact ⟨b', bind_eq_ok.2 ⟨b', e fuel hfuel, rfl⟩, hb'⟩

theorem cancelSubmit_round (h : Live n t op) :
    ∃ b', b.execAll fuel (cancelSubmit op) = .ok b' ∧ Calm n b' (record t op) := by
  obtain ⟨hdrawn, hsplit, hid, hrow⟩ := h
  obtain ⟨⟨k, q⟩, hrow⟩ := Option.ne_none_iff_exists'.1 hrow
  obtain ⟨b₁, e₁, hb₁⟩ := hb.cancel hrow
  have hfar : ∀ i p q, Function.update t op.id none i = some ((!op.isBuy, p), q) → ¬ Crosses op.isBuy op.newPrice p := by
    intro i p q hi
    by_cases hid : i = op.id
    · subst hid
      rw [Function.update_self] at hi
      cases hi
    · rw [Function.update_of_ne hid] at hi
      exact hsplit.far hdrawn i p q hi
  obtain ⟨b', e, hb'⟩ := hb₁.submit hid (Function.update_self _ _ _) hdrawn.price.lt hdrawn.qty hfar
  rw [Function.update_idem] at hb'
  exact ⟨b', bind_eq_ok.2 ⟨b₁, e₁ fuel hfuel, bind_eq_ok.2 ⟨b', e fuel hfuel, rfl⟩⟩, hb'⟩

end Rounds

/-! ### The operations are allowed -/

theorem allowed_seedOrders (g : Generator σ) (hlive : i + count ≤ n) (s : σ) (hsplit : Split t)
    (hnew : ∀ id, i ≤ id → t id = none) : Allowed (Fresh n) t (seedOrders g i count s) := by
  induction count generalizing i t s with
  | zero => trivial
  | succ count ih =>
    obtain ⟨hdrawn, hid⟩ := g.drawn i s
    have hfresh : Fresh n t (g.draw i s).1 := by
      refine ⟨hdrawn, hsplit, by omega, ?_⟩
      rw [hid]
      exact hnew i (Nat.le_refl i)
    refine ⟨hfresh, ?_⟩
    apply ih (by omega) _ (hsplit.record hdrawn)
    intro id hle
    have hne : id ≠ (g.draw i s).1.id := by omega
    rw [record, Function.update_of_ne hne]
    exact hnew id (by omega)

/-- The ids from `i` up to `i + count` get rows. -/
theorem seedOrders_rows (g : Generator σ) (i count : Nat) (s : σ) {id : Nat} :
    tabulate t (seedOrders g i count s) id ≠ none ↔ i ≤ id ∧ id < i + count ∨ t id ≠ none := by
  induction count generalizing i t s with
  | zero =>
    have hnot : ¬ (i ≤ id ∧ id < i + 0) := by omega
    simp only [hnot, false_or]
    rfl
  | succ count ih =>
    have hid : (g.draw i s).1.id = i := (g.drawn i s).2
    rw [show tabulate t (seedOrders g i (count + 1) s) =
      tabulate (record t (g.draw i s).1) (seedOrders g (i + 1) count (g.draw i s).2) from rfl, ih, record_ne_none, hid]
    by_cases hrow : t id ≠ none
    · simp [hrow]
    · simp only [hrow, or_false]
      omega

theorem tabulate_ne_none {id : Nat} (h : t id ≠ none) : tabulate t ops id ≠ none := by
  induction ops generalizing t with
  | nil => exact h
  | cons op ops ih => exact ih (record_ne_none.2 (Or.inr h))

theorem tabulate_split (hsplit : Split t) (hops : ∀ op ∈ ops, Drawn op) : Split (tabulate t ops) := by
  induction ops generalizing t with
  | nil => exact hsplit
  | cons op ops ih =>
    obtain ⟨hop, hops⟩ := List.forall_mem_cons.1 hops
    exact ih (hsplit.record hop) hops

theorem seedOrders_drawn (g : Generator σ) (i count : Nat) (s : σ) : ∀ op ∈ seedOrders g i count s, Drawn op := by
  induction count generalizing i s with
  | zero =>
    intro op hop
    cases hop
  | succ count ih => exact List.forall_mem_cons.2 ⟨(g.drawn i s).1, ih (i + 1) _⟩

theorem allowed_generateOps (g : Generator σ) (hpos : 0 < live) (hlive : live ≤ n) (count : Nat) (s : σ)
    (hsplit : Split t) (hrows : ∀ id, id < live → t id ≠ none) : Allowed (Live n) t (generateOps g live count s) := by
  induction count generalizing t s with
  | zero => trivial
  | succ count ih =>
    have hlt : (g.rng s).1 % live < live := Nat.mod_lt _ hpos
    obtain ⟨hdrawn, hid⟩ := g.drawn ((g.rng s).1 % live) (g.rng s).2
    have hop : Live n t (g.draw ((g.rng s).1 % live) (g.rng s).2).1 := by
      refine ⟨hdrawn, hsplit, by omega, ?_⟩
      rw [hid]
      exact hrows _ hlt
    refine ⟨hop, ?_⟩
    apply ih _ (hsplit.record hdrawn)
    intro id hid
    exact record_ne_none.2 (Or.inr (hrows id hid))

/-! ### The whole benchmark -/

theorem split_empty : Split fun _ => none := fun _ _ _ hrow => by cases hrow

/-- `seed_book` leaves the same orders in every book. -/
theorem seedBook_calm (g : Generator σ) (hlive : live ≤ kMaxOrders) (hfuel : kMaxOrders < fuel)
    (book : FastBitsetOrderBook) (s : σ) :
    ∃ b, seedBook g fuel live book s = .ok b ∧ Calm kMaxOrders b (tabulate (fun _ => none) (seedOrders g 0 live s)) := by
  obtain ⟨l, hl, _⟩ := Ladder.init_of_pos (b := book.toLadder) (show 0 < kMaxOrders by decide)
  obtain ⟨b₀, h₀⟩ : ∃ b₀, book.init kMaxOrders = .ok b₀ := ⟨_, bind_eq_ok.2 ⟨l, hl, rfl⟩⟩
  have hids : 0 + live ≤ kMaxOrders := by omega
  have hallowed := allowed_seedOrders g hids s split_empty fun _ _ => rfl
  obtain ⟨b, e, hb⟩ := execAll_rounds (fun b t op hb hop => seedOrder_round hfuel hb hop) hallowed
    (calm_init (by decide) h₀)
  exact ⟨b, bind_eq_ok.2 ⟨b₀, h₀, e⟩, hb⟩

/-- Whatever is drawn, both scenarios return; each id rests with the price and the quantity of the last operation on it,
and nothing else rests; the two books differ only in the order within the levels. -/
theorem replace_benchmark (g : Generator σ) (hpos : 0 < live) (hlive : live ≤ kMaxOrders) (hfuel : kMaxOrders < fuel)
    (numOps : Nat) (opRng seedRng : σ) : ∃ a b t, benchmark g fuel live numOps opRng seedRng = .ok (a, b) ∧
      t = tabulate (tabulate (fun _ => none) (seedOrders g 0 live seedRng)) (generateOps g live numOps opRng) ∧
      Lists a.shown t ∧ (∀ k, (a.shown k).Perm (b.shown k)) ∧
      ∀ id, id < live → ∃ row, t id = some row ∧ a.getQuantity id = .ok row.2 ∧ b.getQuantity id = .ok row.2 := by
  have hseeds := tabulate_split split_empty (seedOrders_drawn g 0 live seedRng)
  have hrows : ∀ id, id < live → tabulate (fun _ => none) (seedOrders g 0 live seedRng) id ≠ none :=
    fun id hid => (seedOrders_rows g 0 live seedRng).2 (Or.inl ⟨Nat.zero_le id, by omega⟩)
  have hops := allowed_generateOps g hpos hlive numOps opRng hseeds hrows
  obtain ⟨b₁, e₁, hb₁⟩ := seedBook_calm g hlive hfuel new seedRng
  obtain ⟨a, ea, ha⟩ := execAll_rounds (fun b t op hb hop => nativeReplace_round hfuel hb hop) hops hb₁
  obtain ⟨b₂, e₂, hb₂⟩ := seedBook_calm g hlive hfuel a seedRng
  obtain ⟨b, eb, hb⟩ := execAll_rounds (fun b t op hb hop => cancelSubmit_round hfuel hb hop) hops hb₂
  have hrun : benchmark g fuel live numOps opRng seedRng = .ok (a, b) :=
    bind_eq_ok.2 ⟨b₁, e₁, bind_eq_ok.2 ⟨a, ea, bind_eq_ok.2 ⟨b₂, e₂, bind_eq_ok.2 ⟨b, eb, rfl⟩⟩⟩⟩
  refine ⟨a, b, _, hrun, rfl, ha.shown, ha.shown.perm hb.shown, fun id hid => ?_⟩
  obtain ⟨⟨k, q⟩, hrow⟩ := Option.ne_none_iff_exists'.1 (tabulate_ne_none (hrows id hid))
  exact ⟨(k, q), hrow, ha.quantity hrow, hb.quantity hrow⟩

/-- A generator that always draws the smallest numbers. -/
def smallest : Generator Unit where
  rng s := (0, s)
  bidDist s := (100, s)
  askDist s := (MAX_PRICES / 2, s)
  qtyDist s := (1, s)
  bid_range _ := show InRange true 100 by decide
  ask_range _ := show InRange false (MAX_PRICES / 2) by decide
  qty_range _ := show 1 ≤ 1 ∧ 1 ≤ 100 by decide

theorem replace_benchmark_smallest : ∃ a b,
    benchmark smallest (kMaxOrders + 1) kLiveOrders kNumOps () () = .ok (a, b) ∧ ∀ k, (a.shown k).Perm (b.shown k) := by
  obtain ⟨a, b, _, hrun, _, _, hperm, _⟩ := replace_benchmark smallest (show 0 < kLiveOrders by decide)
    (show kLiveOrders ≤ kMaxOrders by decide) (Nat.lt_succ_self kMaxOrders) kNumOps () ()
  exact ⟨a, b, hrun, hperm⟩

end BenchmarkReplace

end Lobook
