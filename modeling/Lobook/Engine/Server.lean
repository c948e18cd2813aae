import Lobook.Lib.Fairness
import Lobook.Queue.Delivery
import Lobook.Engine.MatchingEngine

/-!
# The server (`server.cpp`, `matching_engine.h`)

`run<QueueT>` starts the engine thread and a network thread.  The network thread waits until the engine is ready,
stamps each message of the workload with the clock, pushes it, and spins until the pacing interval is over.  The main
thread joins the network thread, and then `stop` pushes `SHUTDOWN` and joins the engine thread.  The engine thread
initialises the book, pops one message after the other, hands it to the book, and records the two latencies.

A turn is one step of one thread: a turn of the queue, a reading of the clock, an operation of the book.  Whatever the
schedule, the clock and the queue, the engine has handled the first messages of the workload, in order, each once, and
its book is the one that handles them one after the other (`server_sequential`).
-/

namespace Lobook

open Checked SPSCQueue

/-- What the run is given: the arguments of the server, and the clock as it is read at each time.  The loops of the
book are cut off after `fuel` rounds. -/
structure Args where
  fuel : Nat
  maxOrders : Nat
  pacingNs : Nat
  workload : List OrderMessage
  clock : Nat → Nat

inductive Network where
  | waiting
  | stamping (i : Nat)
  | pushing (i : Nat) (msg : OrderMessage)
  | pacing (i waitUntil : Nat)
  | finished

inductive Main where
  | joining
  | stopping
  | joiningEngine
  | returned
  deriving DecidableEq

inductive Engine where
  | starting
  | initialised
  | popping
  | popped (msg : OrderMessage)
  | handling (msg : OrderMessage) (nowPop : Nat)
  | recording (msg : OrderMessage) (nowPop : Nat)
  | stopped
  | crashed (e : Stop)

inductive Thread where
  | network
  | main
  | engine
  | wakeup
  deriving DecidableEq

/-- The shared state and the three threads.  `sent` has the messages of the pushes begun so far, and `handled` those
given to the book. -/
structure Server (Q : QueueT) where
  queue : Q.State
  ready : Bool
  network : Network
  main : Main
  engine : Engine
  book : FastBitsetOrderBook
  latencies : List Nat
  queueLatencies : List Nat
  sent : List OrderMessage
  handled : List OrderMessage

namespace Server

variable {Q : QueueT}

/-- The message of `stop`. -/
def shutdown : OrderMessage := { OrderMessage.zero with type := .SHUTDOWN }

/-- The difference of two readings, of type `uint64_t`. -/
def elapsed (now timestamp : Nat) : Nat := wrap (now + 2 ^ 64 - timestamp)

def init (Q : QueueT) : Server Q where
  queue := Q.new
  ready := false
  network := .waiting
  main := .joining
  engine := .starting
  book := FastBitsetOrderBook.new
  latencies := []
  queueLatencies := []
  sent := []
  handled := []

section Turns

variable (A : Args) (n : Nat)

def networkTurn (s : Server Q) : Server Q :=
  match s.network with
  | .waiting => if s.ready = true then { s with network := .stamping 0 } else s
  | .stamping i =>
    match A.workload[i]? with
    | none => { s with network := .finished }
    | some msg =>
      { s with
        network := .pushing i { msg with timestamp := A.clock n }
        sent := s.sent ++ [{ msg with timestamp := A.clock n }] }
  | .pushing i msg =>
    { s with
      queue := (Q.pushTurn msg s.queue).1
      network :=
        if (Q.pushTurn msg s.queue).2 then .pacing i (wrap (msg.timestamp + A.pacingNs)) else .pushing i msg }
  | .pacing i waitUntil => if waitUntil ≤ A.clock n then { s with network := .stamping (i + 1) } else s
  | .finished => s

def mainTurn (s : Server Q) : Server Q :=
  match s.main with
  | .joining =>
    match s.network with
    | .finished => { s with main := .stopping, sent := s.sent ++ [shutdown] }
    | _ => s
  | .stopping =>
    { s with
      queue := (Q.pushTurn shutdown s.queue).1
      main := if (Q.pushTurn shutdown s.queue).2 then .joiningEngine else .stopping }
  | .joiningEngine =>
    match s.engine with
    | .stopped => { s with main := .returned }
    | _ => s
  | .returned => s

def engineTurn (s : Server Q) : Server Q :=
  match s.engine with
  | .starting =>
    match FastBitsetOrderBook.new.init A.maxOrders with
    | .ok book => { s with book := book, engine := .initialised }
    | .error e => { s with engine := .crashed e }
  | .initialised => { s with ready := true, engine := .popping }
  | .popping =>
    { s with
      queue := (Q.popTurn s.queue).1
      engine :=
        match (Q.popTurn s.queue).2 with
        | none => .popping
        | some msg => .popped msg }
  | .popped msg =>
    if msg.type = .SHUTDOWN then { s with engine := .stopped } else { s with engine := .handling msg (A.clock n) }
  | .handling msg nowPop =>
    match MatchingEngine.handle A.fuel s.book msg with
    | .ok book => { s with book := book, engine := .recording msg nowPop, handled := s.handled ++ [msg] }
    | .error e => { s with engine := .crashed e, handled := s.handled ++ [msg] }
  | .recording msg nowPop =>
    { s with
      latencies := s.latencies ++ [elapsed (A.clock n) msg.timestamp]
      queueLatencies := s.queueLatencies ++ [elapsed nowPop msg.timestamp]
      engine := .popping }
  | .stopped => s
  | .crashed _ => s

def turn : Thread → Server Q → Server Q
  | .network, s => networkTurn A n s
  | .main, s => mainTurn s
  | .engine, s => engineTurn A n s
  | .wakeup, s => { s with queue := Q.wake s.queue }

end Turns

/-- The state at time `n` under a schedule. -/
def at_ (Q : QueueT) (A : Args) (sched : Nat → Thread) (n : Nat) : Server Q :=
  Fairness.stateAt (turn A) (init Q) sched n

/-- A message without its timestamp. -/
def strip (msg : OrderMessage) : OrderMessage := { msg with timestamp := 0 }

end Server

/-! ### What the engine has done -/

namespace MatchingEngine

variable {fuel maxOrders : Nat} {book : FastBitsetOrderBook} {msgs msgs' : List OrderMessage} {msg : OrderMessage}

theorem serve_append (h : ∀ m ∈ msgs, m.type ≠ .SHUTDOWN) :
    serve fuel book (msgs ++ msgs') = serve fuel book msgs >>= fun book => serve fuel book msgs' := by
  induction msgs generalizing book with
  | nil => rfl
  | cons m msgs ih =>
    have hm := h m List.mem_cons_self
    have htail : ∀ m ∈ msgs, m.type ≠ .SHUTDOWN := fun m' hm' => h m' (List.mem_cons_of_mem _ hm')
    simp only [List.cons_append, serve, if_neg hm]
    cases handle fuel book m with
    | error e => rfl
    | ok book' => exact ih htail

theorem run_append (h : ∀ m ∈ msgs, m.type ≠ .SHUTDOWN) :
    run fuel maxOrders (msgs ++ msgs') = run fuel maxOrders msgs >>= fun book => serve fuel book msgs' := by
  unfold run
  cases FastBitsetOrderBook.new.init maxOrders with
  | error e => rfl
  | ok book => exact serve_append h

theorem run_snoc (h : ∀ m ∈ msgs, m.type ≠ .SHUTDOWN) (hbook : run fuel maxOrders msgs = .ok book)
    (hmsg : msg.type ≠ .SHUTDOWN) : run fuel maxOrders (msgs ++ [msg]) = handle fuel book msg := by
  rw [run_append h, hbook, ok_bind]
  simp only [serve, if_neg hmsg]
  cases handle fuel book msg <;> rfl

/-- The timestamps do not matter to the book. -/
theorem serve_strip (book : FastBitsetOrderBook) (msgs : List OrderMessage) :
    serve fuel book (msgs.map Server.strip) = serve fuel book msgs := by
  induction msgs generalizing book with
  | nil => rfl
  | cons m msgs ih =>
    simp only [List.map_cons, serve, Server.strip, handle, ih]

theorem run_strip (msgs : List OrderMessage) :
    run fuel maxOrders (msgs.map Server.strip) = run fuel maxOrders msgs := by
  unfold run
  simp only [serve_strip]

end MatchingEngine

namespace Engine

/-- The message that has been popped and not been given to the book. -/
def inHand : Engine → List OrderMessage
  | .popped msg => [msg]
  | .handling msg _ => [msg]
  | .stopped => [Server.shutdown]
  | _ => []

/-- The message that the book has handled and whose latencies are not recorded. -/
def unrecorded : Engine → Nat
  | .recording _ _ => 1
  | _ => 0

/-- The thread has initialised its book and goes on. -/
def Alive : Engine → Prop
  | .starting => False
  | .crashed _ => False
  | _ => True

/-- The engine thread has handled `handled` one after the other. -/
structure Sound (A : Args) (engine : Engine) (ready : Bool) (book : FastBitsetOrderBook) (handled : List OrderMessage)
    (latencies queueLatencies : List Nat) : Prop where
  ready : engine.Alive → engine ≠ .initialised → ready = true
  fresh : engine = .starting → handled = []
  genuine : ∀ m ∈ handled, m.type ≠ .SHUTDOWN
  inHand : ∀ msg nowPop, engine = .handling msg nowPop → msg.type ≠ .SHUTDOWN
  book : engine.Alive → MatchingEngine.run A.fuel A.maxOrders handled = .ok book
  crash : ∀ e, engine = .crashed e → MatchingEngine.run A.fuel A.maxOrders handled = .error e
  columns : queueLatencies.length = latencies.length
  rows_le : latencies.length ≤ handled.length
  rows : engine.Alive → latencies.length + engine.unrecorded = handled.length

/-- The thread goes on with the same book and the same rows. -/
theorem Sound.goto {A : Args} {e e' : Engine} {ready ready' : Bool} {book : FastBitsetOrderBook}
    {handled : List OrderMessage} {latencies queueLatencies : List Nat}
    (h : e.Sound A ready book handled latencies queueLatencies) (halive : e.Alive) (halive' : e'.Alive)
    (hready : ready' = true) (hrow : e'.unrecorded = e.unrecorded)
    (hmsg : ∀ msg nowPop, e' = .handling msg nowPop → msg.type ≠ .SHUTDOWN) :
    e'.Sound A ready' book handled latencies queueLatencies where
  ready _ _ := hready
  fresh e := by subst e; exact halive'.elim
  genuine := h.genuine
  inHand := hmsg
  book _ := h.book halive
  crash err e := by subst e; exact halive'.elim
  columns := h.columns
  rows_le := h.rows_le
  rows _ := by rw [hrow]; exact h.rows halive

end Engine

namespace Network

/-- How many messages have been stamped. -/
def stamped (workload : List OrderMessage) : Network → Nat
  | .waiting => 0
  | .stamping i => i
  | .pushing i _ => i + 1
  | .pacing i _ => i + 1
  | .finished => workload.length

end Network

namespace Server

variable {Q : QueueT} {c : Nat}

/-- The message of the push under way. -/
def underway : Main → Network → Option OrderMessage
  | .stopping, _ => some shutdown
  | _, .pushing _ msg => some msg
  | _, _ => none

/-- What `stop` has sent. -/
def farewell : Main → List OrderMessage
  | .joining => []
  | _ => [shutdown]

structure Sound (A : Args) (D : Q.Delivery c) (s : Server Q) : Prop where
  queue : D.Inv s.queue s.sent (s.handled ++ s.engine.inHand) (underway s.main s.network)
  sent : ∃ msgs, s.sent = msgs ++ farewell s.main ∧
    msgs.map strip = (A.workload.take (s.network.stamped A.workload)).map strip
  within : s.network.stamped A.workload ≤ A.workload.length
  joined : s.main ≠ .joining → s.network = .finished
  engine : s.engine.Sound A s.ready s.book s.handled s.latencies s.queueLatencies
  returned : s.main = .returned → s.engine = .stopped

section Sound

variable {A : Args} {D : Q.Delivery c} {s : Server Q} {n : Nat}

theorem Sound.main_joining (h : s.Sound A D) (hn : s.network ≠ .finished) : s.main = .joining := by
  by_contra hm
  exact hn (h.joined hm)

theorem sound_init (hD : D.Inv Q.new [] [] none) : (init Q).Sound A D where
  queue := hD
  sent := ⟨[], rfl, rfl⟩
  within := Nat.zero_le _
  joined h := absurd rfl h
  engine := {
    ready := fun h => h.elim
    fresh := fun _ => rfl
    genuine := fun m hm => absurd hm List.not_mem_nil
    inHand := fun msg t h => by cases h
    book := fun h => h.elim
    crash := fun e h => by cases h
    columns := rfl
    rows_le := Nat.le_refl 0
    rows := fun h => h.elim }
  returned h := by cases h

theorem Sound.networkTurn (hcap : A.workload.length < c) (h : s.Sound A D) : (networkTurn A n s).Sound A D := by
  have hqueue := h.queue
  obtain ⟨msgs, hsent, hmsgs⟩ := h.sent
  have hwithin := h.within
  unfold Server.networkTurn
  split
  · -- waiting for the engine
    rename_i hn
    have hm := h.main_joining (by rw [hn]; simp)
    rw [hm, hn] at hqueue
    split
    · refine { h with queue := ?_, sent := ⟨msgs, hsent, ?_⟩, within := Nat.zero_le _, joined := ?_ }
      · rw [hm]
        exact hqueue
      · rw [hmsgs, hn]
        rfl
      · exact fun hne => absurd hm hne
    · exact h
  · -- the next message is stamped, or there is none left
    rename_i i hn
    have hm := h.main_joining (by rw [hn]; simp)
    rw [hm, hn] at hqueue
    rw [hn] at hmsgs hwithin
    simp only [Network.stamped] at hmsgs hwithin
    have hlen : s.sent.length = i := by
      have hcount := congrArg List.length hmsgs
      simp only [List.length_map, List.length_take] at hcount
      rw [hsent, hm, farewell, List.append_nil]
      omega
    split
    · rename_i hnone
      have hi : A.workload.length ≤ i := List.getElem?_eq_none_iff.1 hnone
      refine { h with queue := ?_, sent := ⟨msgs, hsent, ?_⟩, within := Nat.le_refl _, joined := fun _ => rfl }
      · rw [hm]
        exact hqueue
      · rw [hmsgs, Nat.le_antisymm hwithin hi]
        rfl
    · rename_i msg hsome
      have hi : i < A.workload.length := (List.getElem?_eq_some_iff.1 hsome).1
      refine { h with queue := ?_, sent := ?_, within := hi, joined := ?_ }
      · rw [hm]
        exact D.call _ hqueue (by omega)
      · refine ⟨msgs ++ [{ msg with timestamp := A.clock n }], ?_, ?_⟩
        · rw [hsent, hm, farewell, List.append_nil, List.append_nil]
        · rw [Network.stamped, List.take_add_one, hsome, List.map_append, List.map_append, hmsgs]
          rfl
      · exact fun hne => absurd hm hne
  · -- a turn of `push`
    rename_i i msg hn
    have hm := h.main_joining (by rw [hn]; simp)
    rw [hm, hn] at hqueue
    rw [hn] at hmsgs hwithin
    have hnext := D.push hqueue
    split
    · rename_i hdone
      rw [if_pos hdone] at hnext
      refine { h with queue := ?_, sent := ⟨msgs, hsent, hmsgs⟩, within := hwithin, joined := ?_ }
      · rw [hm]
        exact hnext
      · exact fun hne => absurd hm hne
    · rename_i hgo
      rw [if_neg hgo] at hnext
      refine { h with queue := ?_, sent := ⟨msgs, hsent, hmsgs⟩, within := hwithin, joined := ?_ }
      · rw [hm]
        exact hnext
      · exact fun hne => absurd hm hne
  · -- the pacing loop
    rename_i i waitUntil hn
    have hm := h.main_joining (by rw [hn]; simp)
    rw [hm, hn] at hqueue
    rw [hn] at hmsgs hwithin
    split
    · refine { h with queue := ?_, sent := ⟨msgs, hsent, hmsgs⟩, within := hwithin, joined := ?_ }
      · rw [hm]
        exact hqueue
      · exact fun hne => absurd hm hne
    · exact h
  · exact h

theorem Sound.mainTurn (hcap : A.workload.length < c) (h : s.Sound A D) : (mainTurn s).Sound A D := by
  have hqueue := h.queue
  obtain ⟨msgs, hsent, hmsgs⟩ := h.sent
  unfold Server.mainTurn
  split
  · -- the network thread has been joined, and `stop` calls `push`
    rename_i hm
    split
    · rename_i hn
      rw [hm, hn] at hqueue
      have hlen : s.sent.length = A.workload.length := by
        have hcount := congrArg List.length hmsgs
        rw [hn, Network.stamped, List.take_length] at hcount
        simpa [hsent, hm, farewell] using hcount
      refine { h with queue := ?_, sent := ⟨msgs, ?_, hmsgs⟩, joined := fun _ => hn, returned := ?_ }
      · exact D.call shutdown hqueue (by omega)
      · rw [hsent, hm, farewell, List.append_nil]
        rfl
      · intro e
        cases e
    · exact h
  · rename_i hm
    have hn := h.joined (by rw [hm]; simp)
    rw [hm, hn] at hqueue
    rw [hm] at hsent
    have hnext := D.push hqueue
    split
    · rename_i hdone
      rw [if_pos hdone] at hnext
      refine { h with queue := ?_, sent := ⟨msgs, hsent, hmsgs⟩, joined := fun _ => hn, returned := ?_ }
      · rw [hn]
        exact hnext
      · intro e
        cases e
    · rename_i hgo
      rw [if_neg hgo] at hnext
      refine { h with queue := ?_, sent := ⟨msgs, hsent, hmsgs⟩, joined := fun _ => hn, returned := ?_ }
      · rw [hn]
        exact hnext
      · intro e
        cases e
  · rename_i hm
    have hn := h.joined (by rw [hm]; simp)
    rw [hm, hn] at hqueue
    rw [hm] at hsent
    split
    · rename_i he
      refine { h with queue := ?_, sent := ⟨msgs, hsent, hmsgs⟩, joined := fun _ => hn, returned := fun _ => he }
      rw [hn]
      exact hqueue
    · exact h
  · exact h

/-- The only `SHUTDOWN` sent is that of `stop`. -/
theorem Sound.shutdown_of_mem (hw : ∀ m ∈ A.workload, m.type ≠ .SHUTDOWN) (h : s.Sound A D) {msg : OrderMessage}
    (hmem : msg ∈ s.sent) (hstop : msg.type = .SHUTDOWN) : msg = shutdown ∧ s.main ≠ .joining := by
  obtain ⟨msgs, hsent, hmsgs⟩ := h.sent
  rw [hsent, List.mem_append] at hmem
  rcases hmem with hmem | hmem
  · have hstrip : strip msg ∈ (A.workload.take (s.network.stamped A.workload)).map strip := by
      rw [← hmsgs]
      exact List.mem_map_of_mem hmem
    obtain ⟨m, hm, heq⟩ := List.mem_map.1 hstrip
    have htype : (strip m).type = (strip msg).type := congrArg OrderMessage.type heq
    exact absurd (htype.trans hstop) (hw m (List.mem_of_mem_take hm))
  · unfold farewell at hmem
    split at hmem
    · exact absurd hmem List.not_mem_nil
    · rename_i hm
      exact ⟨List.mem_singleton.1 hmem, hm⟩

/-- The engine thread goes on, and nothing else changes but the queue. -/
theorem Sound.advance (h : s.Sound A D) {q : Q.State} {ready : Bool} {book : FastBitsetOrderBook}
    {handled : List OrderMessage} {latencies queueLatencies : List Nat} {e : Engine}
    (hqueue : D.Inv q s.sent (handled ++ e.inHand) (underway s.main s.network))
    (hengine : e.Sound A ready book handled latencies queueLatencies)
    (hstop : s.engine ≠ .stopped ∨ e = .stopped) :
    Sound A D { s with
      queue := q, ready := ready, book := book, handled := handled, latencies := latencies
      queueLatencies := queueLatencies, engine := e } where
  queue := hqueue
  sent := h.sent
  within := h.within
  joined := h.joined
  engine := hengine
  returned hm := hstop.elim (fun hne => absurd (h.returned hm) hne) id

theorem Sound.engineTurn (hw : ∀ m ∈ A.workload, m.type ≠ .SHUTDOWN) (h : s.Sound A D) :
    (engineTurn A n s).Sound A D := by
  have hqueue := h.queue
  have he := h.engine
  unfold Server.engineTurn
  split
  · -- `book_.init`
    rename_i hpc
    have hfresh := he.fresh hpc
    have hrows : s.latencies = [] := by
      have hle := he.rows_le
      rw [hfresh] at hle
      exact List.length_eq_zero_iff.1 (Nat.le_zero.1 hle)
    rw [hpc] at hqueue
    split
    · rename_i book hbook
      refine h.advance hqueue ?_ (Or.inl (by rw [hpc]; simp))
      refine { he with ready := fun _ hne => absurd rfl hne, fresh := ?_, inHand := ?_, book := ?_, crash := ?_
                       rows := ?_ }
      · intro e; cases e
      · intro msg t e; cases e
      · intro _
        rw [hfresh, MatchingEngine.run, hbook]
        rfl
      · intro e e'; cases e'
      · intro _
        rw [hfresh, hrows]
        rfl
    · rename_i e hbook
      refine h.advance hqueue ?_ (Or.inl (by rw [hpc]; simp))
      refine { he with ready := fun hal => hal.elim, fresh := ?_, inHand := ?_, book := fun hal => hal.elim
                       crash := ?_, rows := fun hal => hal.elim }
      · intro e; cases e
      · intro msg t e; cases e
      · intro e' heq
        cases heq
        rw [hfresh, MatchingEngine.run, hbook]
        rfl
  · -- the engine is ready
    rename_i hpc
    have halive : s.engine.Alive := by rw [hpc]; trivial
    rw [hpc] at hqueue
    refine h.advance hqueue ?_ (Or.inl (by rw [hpc]; simp))
    exact he.goto halive trivial rfl (by rw [hpc]; rfl) (by simp)
  · -- a turn of `pop`
    rename_i hpc
    have halive : s.engine.Alive := by rw [hpc]; trivial
    have hready : s.ready = true := he.ready halive (by rw [hpc]; simp)
    have hnext := D.pop hqueue
    rw [hpc, show s.handled ++ Engine.popping.inHand = s.handled from List.append_nil _] at hnext
    cases hr : (Q.popTurn s.queue).2 with
    | none =>
      rw [hr] at hnext
      refine h.advance hnext ?_ (Or.inl (by rw [hpc]; simp))
      exact he.goto halive trivial hready (by rw [hpc]) (by simp)
    | some msg =>
      rw [hr] at hnext
      refine h.advance hnext ?_ (Or.inl (by rw [hpc]; simp))
      exact he.goto halive trivial hready (by rw [hpc]; rfl) (by simp)
  · -- the engine leaves its loop on `SHUTDOWN`
    rename_i msg hpc
    have halive : s.engine.Alive := by rw [hpc]; trivial
    have hready : s.ready = true := he.ready halive (by rw [hpc]; simp)
    rw [hpc] at hqueue
    split
    · rename_i hstop
      have hmem : msg ∈ s.sent := (D.order hqueue).subset (by simp [Engine.inHand])
      obtain ⟨rfl, _⟩ := h.shutdown_of_mem hw hmem hstop
      refine h.advance hqueue ?_ (Or.inr rfl)
      exact he.goto halive trivial hready (by rw [hpc]; rfl) (by simp)
    · rename_i hgo
      refine h.advance hqueue ?_ (Or.inl (by rw [hpc]; simp))
      refine he.goto halive trivial hready (by rw [hpc]; rfl) ?_
      intro msg' t e
      cases e
      exact hgo
  · -- the book handles the message
    rename_i msg nowPop hpc
    have halive : s.engine.Alive := by rw [hpc]; trivial
    have hready : s.ready = true := he.ready halive (by rw [hpc]; simp)
    have hrows := he.rows halive
    rw [hpc] at hrows hqueue
    have hmsg := he.inHand msg nowPop hpc
    have hrun := MatchingEngine.run_snoc he.genuine (he.book halive) hmsg
    have hgenuine : ∀ m ∈ s.handled ++ [msg], m.type ≠ .SHUTDOWN := by
      intro m hm
      rcases List.mem_append.1 hm with hm | hm
      · exact he.genuine m hm
      · rw [List.mem_singleton.1 hm]
        exact hmsg
    have hle : s.latencies.length ≤ (s.handled ++ [msg]).length := by
      rw [List.length_append]
      exact Nat.le_add_right_of_le he.rows_le
    have hgot : D.Inv s.queue s.sent (s.handled ++ [msg] ++ []) (underway s.main s.network) := by
      rw [List.append_nil]
      exact hqueue
    split
    · rename_i book hbook
      refine h.advance hgot ?_ (Or.inl (by rw [hpc]; simp))
      refine { he with ready := fun _ _ => hready, fresh := ?_, genuine := hgenuine, inHand := ?_
                       book := fun _ => hrun.trans hbook, crash := ?_, rows_le := hle, rows := fun _ => ?_ }
      · intro e; cases e
      · intro msg t e; cases e
      · intro e e'; cases e'
      · rw [List.length_append, ← hrows]
        rfl
    · rename_i e hbook
      refine h.advance hgot ?_ (Or.inl (by rw [hpc]; simp))
      refine { he with ready := fun hal => hal.elim, fresh := ?_, genuine := hgenuine, inHand := ?_
                       book := fun hal => hal.elim, crash := ?_, rows_le := hle, rows := fun hal => hal.elim }
      · intro e; cases e
      · intro msg t e; cases e
      · intro e' heq
        cases heq
        exact hrun.trans hbook
  · -- the latencies are recorded
    rename_i msg nowPop hpc
    have halive : s.engine.Alive := by rw [hpc]; trivial
    have hready : s.ready = true := he.ready halive (by rw [hpc]; simp)
    have hrows := he.rows halive
    rw [hpc] at hrows hqueue
    simp only [Engine.unrecorded] at hrows
    refine h.advance hqueue ?_ (Or.inl (by rw [hpc]; simp))
    refine { he with ready := fun _ _ => hready, fresh := ?_, inHand := ?_, book := fun _ => he.book halive
                     crash := ?_, columns := ?_, rows_le := ?_, rows := fun _ => ?_ }
    · intro e; cases e
    · intro msg t e; cases e
    · intro e e'; cases e'
    · simp only [List.length_append, he.columns, List.length_cons, List.length_nil]
    · simp only [List.length_append, List.length_cons, List.length_nil]
      omega
    · simp only [List.length_append, List.length_cons, List.length_nil, Engine.unrecorded]
      omega
  · exact h
  · exact h

theorem Sound.turn (hcap : A.workload.length < c) (hw : ∀ m ∈ A.workload, m.type ≠ .SHUTDOWN) (h : s.Sound A D)
    (t : Thread) : (turn A n t s).Sound A D := by
  cases t with
  | network => exact h.networkTurn hcap
  | main => exact h.mainTurn hcap
  | engine => exact h.engineTurn hw
  | wakeup => exact { h with queue := D.wake h.queue }

theorem sound_at (D : Q.Delivery c) (hcap : A.workload.length < c) (hw : ∀ m ∈ A.workload, m.type ≠ .SHUTDOWN)
    (sched : Nat → Thread) (n : Nat) : (at_ Q A sched n).Sound A D :=
  Fairness.stateAt_invariant (I := fun _ (s : Server Q) => s.Sound A D) (sound_init D.new)
    (fun _ t _ h => h.turn hcap hw t) n

/-- What the engine has handled is the beginning of what the network thread has sent. -/
theorem Sound.handled_prefix (hw : ∀ m ∈ A.workload, m.type ≠ .SHUTDOWN) (h : s.Sound A D) :
    ∃ msgs, s.sent = msgs ++ farewell s.main ∧ s.handled <+: msgs ∧
      msgs.map strip = (A.workload.take (s.network.stamped A.workload)).map strip ∧
      (s.engine = .stopped → s.handled = msgs) := by
  obtain ⟨msgs, hsent, hmsgs⟩ := h.sent
  have horder := D.order h.queue
  have hgenuine : ∀ m ∈ msgs, m.type ≠ .SHUTDOWN := by
    intro m hm hstop
    have hstrip : strip m ∈ (A.workload.take (s.network.stamped A.workload)).map strip := by
      rw [← hmsgs]
      exact List.mem_map_of_mem hm
    obtain ⟨m', hm', heq⟩ := List.mem_map.1 hstrip
    have htype : (strip m').type = (strip m).type := congrArg OrderMessage.type heq
    exact hw m' (List.mem_of_mem_take hm') (htype.trans hstop)
  refine ⟨msgs, hsent, ?_, hmsgs, ?_⟩
  · have hle : s.handled <+: msgs ++ farewell s.main := by
      rw [← hsent]
      exact (List.prefix_append _ _).trans horder
    unfold farewell at hle
    split at hle
    · rwa [List.append_nil] at hle
    · rcases List.prefix_concat_iff.1 hle with heq | hle
      · -- the messages handled do not contain `SHUTDOWN`
        have hmem : shutdown ∈ s.handled := by rw [heq]; simp
        exact absurd rfl (h.engine.genuine _ hmem)
      · exact hle
  · intro hstop
    rw [hstop, hsent] at horder
    unfold farewell at horder
    split at horder
    · have hmem : shutdown ∈ msgs := by
        rw [List.append_nil] at horder
        exact horder.subset (by simp [Engine.inHand])
      exact absurd rfl (hgenuine _ hmem)
    · rcases List.prefix_concat_iff.1 horder with heq | hle
      · exact List.append_cancel_right heq
      · have hmem : shutdown ∈ msgs := hle.subset (by simp [Engine.inHand])
        exact absurd rfl (hgenuine _ hmem)

/-- The engine has handled the first messages of the workload one after the other. -/
structure Sequential (A : Args) (s : Server Q) : Prop where
  first : s.handled.map strip <+: A.workload.map strip
  book : s.engine.Alive → MatchingEngine.run A.fuel A.maxOrders s.handled = .ok s.book
  crash : ∀ e, s.engine = .crashed e → MatchingEngine.run A.fuel A.maxOrders s.handled = .error e
  rows : s.queueLatencies.length = s.latencies.length ∧ s.latencies.length ≤ s.handled.length
  complete : s.main = .returned → s.handled.map strip = A.workload.map strip ∧
    s.latencies.length = A.workload.length ∧ s.engine.Alive

theorem Sound.sequential (hw : ∀ m ∈ A.workload, m.type ≠ .SHUTDOWN) (h : s.Sound A D) : s.Sequential A := by
  obtain ⟨msgs, _, hfirst, hmsgs, hall⟩ := h.handled_prefix hw
  refine ⟨?_, h.engine.book, h.engine.crash, ⟨h.engine.columns, h.engine.rows_le⟩, ?_⟩
  · have htake : msgs.map strip <+: A.workload.map strip := by
      rw [hmsgs]
      exact (List.take_prefix _ _).map strip
    exact (hfirst.map strip).trans htake
  · intro hm
    have hstop := h.returned hm
    have halive : s.engine.Alive := by rw [hstop]; trivial
    have hfinished := h.joined (by rw [hm]; simp)
    have heq : s.handled.map strip = A.workload.map strip := by
      rw [hall hstop, hmsgs, hfinished, Network.stamped, List.take_length]
    have hrows := h.engine.rows halive
    have hlen := congrArg List.length heq
    simp only [List.length_map] at hlen
    simp only [hstop, Engine.unrecorded] at hrows
    exact ⟨heq, by omega, halive⟩

end Sound

section OneBid

/-- One bid, and a clock that counts the turns. -/
def oneBid : Args := ⟨5, 1, 3, [⟨0, 100, 10, 0, true, .SUBMIT⟩], fun n => min n (2 ^ 64 - 1)⟩

theorem oneBid_type (m : OrderMessage) (hm : m ∈ oneBid.workload) : m.type ≠ .SHUTDOWN := by
  rw [List.mem_singleton.1 hm]
  decide

/-- A ring of four slots. -/
def smallRing : (QueueT.spsc 4 true).Delivery 7 := System.spscDelivery ⟨2, by decide⟩ (by decide) (by decide) true

end OneBid

end Server

end Lobook
