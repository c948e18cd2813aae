import Mathlib.Algebra.Group.Nat.Defs
import Mathlib.Logic.Function.Basic
import Lobook.Queue.NaiveQueue

/-!
# The single-producer single-consumer ring buffer (`spsc_queue.h`)

The shared state of `SPSCQueue<N, Cached>` and the steps of its two threads.  Every access to a shared atomic or to
a buffer slot is a step of its own, so a schedule is any sequence of turns of the two actors (sequentially
consistent atomics).  The counters `head_` and `tail_` have type `size_t` and wrap at `2 ^ 64`.  A spinning thread
repeats its test: such a step changes nothing.
-/

namespace Lobook

structure SPSCQueue where
  buffer : Nat → OrderMessage
  head : Nat
  tailCached : Nat
  tail : Nat
  headCached : Nat

/-- Where the producer is: between pushes, at its full test, about to write its slot, about to store `tail_`. -/
inductive Producer where
  | idle
  | fullTest (msg : OrderMessage) (tailIdx : Nat)
  | write (msg : OrderMessage) (tailIdx : Nat)
  | publish (tailIdx : Nat)
  deriving DecidableEq

/-- Where the consumer is: between pops, at its empty test, about to read its slot, about to store `head_`. -/
inductive Consumer where
  | idle
  | emptyTest (headIdx : Nat)
  | read (headIdx : Nat)
  | advance (headIdx : Nat) (msg : OrderMessage)
  deriving DecidableEq

/-- The queue, the two threads, and what they have completed: `pushed` pushes, and the pops that returned
`popped`. -/
structure System where
  queue : SPSCQueue
  producer : Producer
  consumer : Consumer
  pushed : Nat
  popped : List OrderMessage

inductive Actor where
  | producer
  | consumer
  deriving DecidableEq

namespace SPSCQueue

def new : SPSCQueue := ⟨fun _ => OrderMessage.zero, 0, 0, 0, 0⟩

/-- Arithmetic on `size_t`. -/
def wrap (x : Nat) : Nat := x % 2 ^ 64

section

variable (N : Nat) (cached : Bool)

def mask : Nat := N - 1

def nextTailIdx (tailIdx : Nat) : Nat := wrap (tailIdx + 1) &&& mask N

/-- The test of `push`: `none` while it spins, else the queue with the refreshed cache. -/
def fullTest (q : SPSCQueue) (tailIdx : Nat) : Option SPSCQueue :=
  if cached then
    if nextTailIdx N tailIdx = q.headCached then
      if nextTailIdx N tailIdx = q.head then none else some { q with headCached := q.head }
    else some q
  else if nextTailIdx N tailIdx = q.head then none
  else some q

/-- The test of `pop`: `none` while it spins, else the queue with the refreshed cache. -/
def emptyTest (q : SPSCQueue) (headIdx : Nat) : Option SPSCQueue :=
  if cached then
    if headIdx = q.tailCached then
      if headIdx = q.tail then none else some { q with tailCached := q.tail }
    else some q
  else if headIdx = q.tail then none
  else some q

end

end SPSCQueue

namespace System

open SPSCQueue

def init : System := ⟨SPSCQueue.new, .idle, .idle, 0, []⟩

section

variable (N : Nat) (cached : Bool) (msgs : Nat → OrderMessage)

/-- One step of `push`; the messages to push are `msgs 0, msgs 1, …`. -/
def producerStep (s : System) : System :=
  match s.producer with
  | .idle => { s with producer := .fullTest (msgs s.pushed) s.queue.tail }
  | .fullTest msg tailIdx =>
    match s.queue.fullTest N cached tailIdx with
    | none => s
    | some q => { s with queue := q, producer := .write msg tailIdx }
  | .write msg tailIdx =>
    { s with
      queue := { s.queue with buffer := Function.update s.queue.buffer (tailIdx &&& mask N) msg }
      producer := .publish tailIdx }
  | .publish tailIdx =>
    { s with queue := { s.queue with tail := wrap (tailIdx + 1) }, producer := .idle, pushed := s.pushed + 1 }

/-- One step of `pop`. -/
def consumerStep (s : System) : System :=
  match s.consumer with
  | .idle => { s with consumer := .emptyTest s.queue.head }
  | .emptyTest headIdx =>
    match s.queue.emptyTest cached headIdx with
    | none => s
    | some q => { s with queue := q, consumer := .read headIdx }
  | .read headIdx => { s with consumer := .advance headIdx (s.queue.buffer (headIdx &&& mask N)) }
  | .advance headIdx msg =>
    { s with
      queue := { s.queue with head := wrap (headIdx + 1) }
      consumer := .idle
      popped := s.popped ++ [msg] }

def step (s : System) : Actor → System
  | .producer => s.producerStep N cached msgs
  | .consumer => s.consumerStep N cached

/-- The state after a schedule. -/
def run (sched : List Actor) : System := sched.foldl (step N cached msgs) init

@[simp] theorem run_nil : run N cached msgs [] = init := rfl

@[simp] theorem run_snoc (sched : List Actor) (a : Actor) :
    run N cached msgs (sched ++ [a]) = (run N cached msgs sched).step N cached msgs a := by
  simp [run]

end

/-- The number of completed pops. -/
def taken (s : System) : Nat := s.popped.length

/-- The number of messages that are published and not yet popped. -/
def unread (s : System) : Nat := s.pushed - s.taken

/-- The producer's spin condition: `next_tail_idx == head_`. -/
def ProducerSpins (N : Nat) (s : System) : Prop := nextTailIdx N s.queue.tail = s.queue.head

/-- The consumer's spin condition: `head_idx == tail_`. -/
def ConsumerSpins (s : System) : Prop := s.queue.head = s.queue.tail

instance (N : Nat) (s : System) : Decidable (ProducerSpins N s) := inferInstanceAs (Decidable (_ = _))

instance (s : System) : Decidable (ConsumerSpins s) := inferInstanceAs (Decidable (_ = _))

end System

end Lobook
