import Lobook.Lib.Transition

/-!
# Messages and the unbounded queue (`order_message.h`, `naive_queue.h`)

`NaiveQueue` guards a `std::queue` by a mutex, so each of its operations is one step on the list of messages it
holds.  It is the specification of the ring buffer: an unbounded first-in first-out queue.
-/

namespace Lobook

/-- `enum class Type`. -/
inductive MsgType where
  | SUBMIT
  | CANCEL
  | SHUTDOWN
  deriving DecidableEq, Repr

structure OrderMessage where
  id : Nat
  price : Nat
  qty : Nat
  timestamp : Nat
  isBuy : Bool
  type : MsgType
  deriving DecidableEq, Repr

/-- `OrderMessage msg {}`. -/
def OrderMessage.zero : OrderMessage := ⟨0, 0, 0, 0, false, .SUBMIT⟩

structure NaiveQueue where
  queue : List OrderMessage
  deriving DecidableEq

namespace NaiveQueue

def empty : NaiveQueue := ⟨[]⟩

def push (q : NaiveQueue) (msg : OrderMessage) : NaiveQueue := ⟨q.queue ++ [msg]⟩

/-- `pop`, which waits while the queue is empty (`none`). -/
def pop (q : NaiveQueue) : Option (OrderMessage × NaiveQueue) :=
  match q.queue with
  | [] => none
  | msg :: rest => some (msg, ⟨rest⟩)

/-- A completed operation: a message pushed, or the message a pop returned. -/
inductive Event where
  | push (msg : OrderMessage)
  | pop (msg : OrderMessage)
  deriving DecidableEq

def Step (q : NaiveQueue) : Event → NaiveQueue → Prop
  | .push msg, q' => q' = q.push msg
  | .pop msg, q' => q.pop = some (msg, q')

abbrev Run := Transition.Run Step

/-- The messages pushed along a run, in order. -/
def pushes (es : List Event) : List OrderMessage :=
  es.filterMap fun e => match e with
    | .push msg => some msg
    | .pop _ => none

/-- The messages returned along a run, in order. -/
def pops (es : List Event) : List OrderMessage :=
  es.filterMap fun e => match e with
    | .push _ => none
    | .pop msg => some msg

@[simp] theorem pushes_snoc_push (es : List Event) (msg : OrderMessage) :
    pushes (es ++ [.push msg]) = pushes es ++ [msg] := by
  simp [pushes]

@[simp] theorem pushes_snoc_pop (es : List Event) (msg : OrderMessage) :
    pushes (es ++ [.pop msg]) = pushes es := by
  simp [pushes]

@[simp] theorem pops_snoc_push (es : List Event) (msg : OrderMessage) :
    pops (es ++ [.push msg]) = pops es := by
  simp [pops]

@[simp] theorem pops_snoc_pop (es : List Event) (msg : OrderMessage) :
    pops (es ++ [.pop msg]) = pops es ++ [msg] := by
  simp [pops]

/-- First in, first out: what was pushed is what was returned followed by what is still queued. -/
theorem Run.fifo {es : List Event} {q : NaiveQueue} (h : Run empty es q) : pushes es = pops es ++ q.queue := by
  induction h with
  | refl => rfl
  | snoc _ hs ih =>
    rename_i es e q q' _
    cases e with
    | push msg =>
      obtain rfl := hs
      simp [push, ih]
    | pop msg =>
      simp only [Step, pop] at hs
      split at hs
      · cases hs
      · rename_i msg' rest hq
        simp only [Option.some.injEq, Prod.mk.injEq] at hs
        obtain ⟨rfl, rfl⟩ := hs
        simp [ih, hq]

end NaiveQueue

end Lobook
