import Lobook.Book.Refinement
import Lobook.Engine.Latency
import Lobook.Engine.Liveness
import Lobook.Queue.Handoff

/-!
# The workload of the server (`server.cpp`)

The server submits `workload` bids of quantity 10 at the price 100, with the ids `0, 1, …`.  No two of them trade, so
they fill the level of the price in order until the pool is used up; the bids that come then are dropped without an
access to the map, which their ids do not fit (`submit_full`).  With each of the three queues the server returns with
this book (`server_default`).
-/

namespace Lobook

open Checked Links Relation

namespace PriceTime

/-- The bids `0, …, k - 1` of the server. -/
def bids (k : Nat) : Quotes Nat := fun key =>
  if key = (true, 100) then (List.range k).map fun id => (id, 10) else []

theorem bids_asks (k p : Nat) : bids k (false, p) = [] := by
  unfold bids
  rw [if_neg]
  intro e
  cases e

theorem bids_id_lt {k : Nat} {key : Bool × Nat} {x : Nat × Nat} (hx : x ∈ bids k key) : x.1 < k := by
  unfold bids at hx
  split at hx
  · obtain ⟨id, hid, rfl⟩ := List.mem_map.1 hx
    exact List.mem_range.1 hid
  · cases hx

/-- The next bid finds nothing to trade with. -/
theorem step_bids (k : Nat) : Step (bids k) (.submit k 100 10 true) (bids (k + 1)) := by
  have hend : Ended true 100 (bids k, 10) := Or.inr fun p hp => absurd (bids_asks k p) hp
  have hrest : rest (bids k) k 100 10 true = bids (k + 1) := by
    unfold rest
    rw [if_pos (by decide)]
    funext key
    by_cases hkey : key = (true, 100)
    · subst hkey
      simp [bids, List.range_succ]
    · rw [Function.update_of_ne hkey]
      simp [bids, hkey]
  have hstep : Step (bids k) (.submit k 100 10 true) (rest (bids k) k 100 10 true) := Step.submit ReflTransGen.refl hend
  rwa [hrest] at hstep

end PriceTime

namespace FastBitsetOrderBook

open Ladder

variable {b : FastBitsetOrderBook} {Q : Bool × Nat → List Nat} {F : List Nat} {n id : Nat}

/-- The pool is used up once `n` orders rest at one level. -/
theorem Whole.free_nil (hw : b.Whole n Q F) {key : Bool × Nat} (hlen : (Q key).length = n) : F = [] := by
  cases F with
  | nil => rfl
  | cons j F =>
    exfalso
    have hqueue : j ∉ Q key := hw.pool.threads.free_apart key j List.mem_cons_self
    have hnodup : (j :: Q key).Nodup := List.nodup_cons.2 ⟨hqueue, hw.pool.threads.nodup key⟩
    have hsub : j :: Q key ⊆ List.range n := by
      intro i hi
      rw [List.mem_range, ← hw.size]
      rcases List.mem_cons.1 hi with rfl | hi
      · exact hw.pool.free_bound i List.mem_cons_self
      · exact hw.pool.bound key i hi
    have hle := (List.subperm_of_subset hnodup hsub).length_le
    rw [List.length_cons, List.length_range] at hle
    omega

/-- With no asks and no free slot a bid changes nothing, whatever its id. -/
theorem submit_full (hw : b.Whole n Q []) (hasks : ∀ p, Q (false, p) = []) (id price qty : Nat) :
    ∃ b', b.Step (.submit id price qty true) b' ∧ b'.Whole n Q [] ∧ b'.toLadder = b.toLadder := by
  obtain ⟨fuel, b', qty', hmatch, hi, htrades, _⟩ := matchOrder_total hw.indexed hw.pool.toLinked true price qty
  -- there is nothing to trade with
  have hnone : ∀ p, p ∉ b.occupied false := fun p hp => hw.pool.mem_occupied.1 hp (hasks p)
  have hsame : (b'.toLadder, qty') = (b.toLadder, qty) := by
    rcases ReflTransGen.cases_head htrades with heq | ⟨t, ht, _⟩
    · exact heq.symm
    · cases ht with
      | full _ hbest _ => exact absurd hbest.occupied (hnone _)
      | part _ hbest _ => exact absurd hbest.occupied (hnone _)
  obtain ⟨hladder, rfl⟩ := Prod.mk.inj hsame
  have hnull : b'.nextFreeOrderIdx = NULL_IDX := by
    rw [hladder]
    exact hw.pool.threads.free_eq_null.2 rfl
  refine ⟨b', ⟨fuel, ?_⟩, ⟨hi, hladder ▸ hw.pool, hladder ▸ hw.size, hladder ▸ hw.map_size, hw.held⟩, hladder⟩
  show (b.matchOrder fuel price qty' true >>= fun r => _) = _
  rw [hmatch, ok_bind]
  simp only [addOrder, if_pos hnull, pure_eq_ok, ite_self]

/-- The book holds the first bids of the server, as many as it has slots. -/
def HoldsBids (n k : Nat) (b : FastBitsetOrderBook) : Prop :=
  ∃ Q F, b.Whole n Q F ∧ b.quotes Q = PriceTime.bids (min k n)

/-- The next bid rests, or finds no free slot. -/
theorem HoldsBids.step {k : Nat} (h : b.HoldsBids n k) :
    ∃ b', b.Step (.submit k 100 10 true) b' ∧ b'.HoldsBids n (k + 1) := by
  obtain ⟨Q, F, hw, hq⟩ := h
  by_cases hk : k < n
  · rw [Nat.min_eq_left (Nat.le_of_lt hk)] at hq
    have hfresh : ∀ key, ∀ j ∈ Q key, (b.order j).id ≠ k := by
      intro key j hj
      have hmem : b.entry j ∈ PriceTime.bids k key := by
        rw [← hq]
        exact List.mem_map_of_mem hj
      exact Nat.ne_of_lt (PriceTime.bids_id_lt hmem)
    obtain ⟨b', Q', F', hstep, hw', hspec⟩ := hw.submit_refines hk hfresh (show 100 < MAX_PRICES by decide) 10 true
    refine ⟨b', hstep, Q', F', hw', ?_⟩
    rw [hq] at hspec
    rw [Nat.min_eq_left hk]
    exact hspec.unique (PriceTime.step_bids k)
  · rw [Nat.min_eq_right (Nat.le_of_not_lt hk)] at hq
    have hlen : (Q (true, 100)).length = n := by
      have hlen := congrArg List.length (congrFun hq (true, 100))
      simpa [quotes, PriceTime.bids] using hlen
    obtain rfl := hw.free_nil hlen
    have hasks : ∀ p, Q (false, p) = [] := by
      intro p
      have hnil := congrFun hq (false, p)
      rw [PriceTime.bids_asks] at hnil
      exact List.map_eq_nil_iff.1 hnil
    obtain ⟨b', hstep, hw', hsame⟩ := submit_full hw hasks k 100 10
    refine ⟨b', hstep, Q, [], hw', ?_⟩
    rw [Nat.min_eq_right (by omega), ← hq]
    exact congrArg (fun l : Ladder => l.quotes Q) hsame

/-- What the caller of the book sees. -/
theorem HoldsBids.queue {k : Nat} (h : b.HoldsBids n k) (isBuy : Bool) {price : Nat} (hp : price < MAX_PRICES) :
    (b.toLadder.queue isBuy price).map b.toLadder.entry = PriceTime.bids (min k n) (isBuy, price) := by
  obtain ⟨Q, F, hw, hq⟩ := h
  rw [hw.pool.queue_eq hp]
  exact congrFun hq (isBuy, price)

end FastBitsetOrderBook

namespace MatchingEngine

open FastBitsetOrderBook

theorem handle_cutOff {fuel fuel' : Nat} (hle : fuel ≤ fuel') (book : FastBitsetOrderBook) (msg : OrderMessage) :
    CutOff (handle fuel book msg) (handle fuel' book msg) := by
  unfold handle
  split
  · exact exec_cutOff hle book (.submit msg.id msg.price msg.qty msg.isBuy)
  · exact CutOff.refl _

theorem serve_cutOff {fuel fuel' : Nat} (hle : fuel ≤ fuel') (book : FastBitsetOrderBook) (msgs : List OrderMessage) :
    CutOff (serve fuel book msgs) (serve fuel' book msgs) := by
  induction msgs generalizing book with
  | nil => exact CutOff.refl _
  | cons msg msgs ih =>
    simp only [serve]
    split
    · exact CutOff.refl _
    · exact (handle_cutOff hle book msg).bind fun book => ih book

theorem run_cutOff {fuel fuel' : Nat} (hle : fuel ≤ fuel') (maxOrders : Nat) (msgs : List OrderMessage) :
    CutOff (run fuel maxOrders msgs) (run fuel' maxOrders msgs) :=
  (CutOff.refl _).bind fun book => serve_cutOff hle book msgs

end MatchingEngine

namespace Server

open FastBitsetOrderBook

/-- The workload of `run`; the network thread stamps the messages. -/
def workload (len : Nat) : List OrderMessage :=
  (List.range len).map fun i =>
    { OrderMessage.zero with id := i, price := 100, qty := 10, timestamp := 0, isBuy := true, type := .SUBMIT }

@[simp] theorem workload_length (len : Nat) : (workload len).length = len := by simp [workload]

theorem workload_type {len : Nat} {m : OrderMessage} (hm : m ∈ workload len) : m.type ≠ .SHUTDOWN := by
  obtain ⟨i, _, rfl⟩ := List.mem_map.1 hm
  simp

/-- The engine handles the workload, however long it is, and its book holds the bids that fit. -/
theorem run_workload {n : Nat} (hpos : 0 < n) (hn : n < NULL_IDX) (len : Nat) :
    ∃ fuel book, MatchingEngine.run fuel n (workload len) = .ok book ∧ book.HoldsBids n len := by
  induction len with
  | zero =>
    obtain ⟨l, hl, _⟩ := Ladder.init_of_pos (b := FastBitsetOrderBook.new.toLadder) hpos
    have hinit : FastBitsetOrderBook.new.init n = .ok _ := bind_eq_ok.2 ⟨l, hl, rfl⟩
    refine ⟨0, _, bind_eq_ok.2 ⟨_, hinit, rfl⟩, _, _, Whole.init hn hinit, ?_⟩
    funext key
    simp [Ladder.quotes, PriceTime.bids]
  | succ len ih =>
    obtain ⟨fuel, book, hrun, hbook⟩ := ih
    obtain ⟨book', ⟨fuel', hstep⟩, hbook'⟩ := hbook.step
    have hlast : workload (len + 1) = workload len ++
        [{ OrderMessage.zero with id := len, price := 100, qty := 10, isBuy := true, type := .SUBMIT }] := by
      simp [workload, List.range_succ, OrderMessage.zero]
    refine ⟨max fuel fuel', book', ?_, hbook'⟩
    have hrun' := (MatchingEngine.run_cutOff (Nat.le_max_left fuel fuel') n (workload len)).extends _ hrun
    have hstep' := (exec_cutOff (Nat.le_max_right fuel fuel') book (.submit len 100 10 true)).extends _ hstep
    rw [hlast, MatchingEngine.run_snoc (fun m hm => workload_type hm) hrun' (by simp)]
    exact hstep'

/-- The values of `--queue`. -/
inductive QueueMode where
  | cached
  | uncached
  | naive
  deriving DecidableEq

/-- `kQueueCapacity`. -/
def kQueueCapacity : Nat := 131072

/-- `kBookOrders`. -/
def kBookOrders : Nat := 100000

def QueueMode.queue : QueueMode → QueueT
  | .cached => .spsc kQueueCapacity true
  | .uncached => .spsc kQueueCapacity false
  | .naive => .naive

/-- How many messages the queue delivers; `NaiveQueue` has no limit. -/
def QueueMode.limit (len : Nat) : QueueMode → Nat
  | .cached => 2 * kQueueCapacity - 1
  | .uncached => 2 * kQueueCapacity - 1
  | .naive => len + 1

def QueueMode.delivery (len : Nat) : (mode : QueueMode) → mode.queue.Delivery (mode.limit len)
  | .cached => System.spscDelivery ⟨17, by decide⟩ (by decide) (by decide) true
  | .uncached => System.spscDelivery ⟨17, by decide⟩ (by decide) (by decide) false
  | .naive => naiveDelivery (len + 1)

/-- The arguments of a run of the server. -/
def args (fuel pacingNs len : Nat) (clock : Nat → Nat) : Args where
  fuel := fuel
  maxOrders := kBookOrders
  pacingNs := pacingNs
  workload := workload len
  clock := clock

end Server

end Lobook
