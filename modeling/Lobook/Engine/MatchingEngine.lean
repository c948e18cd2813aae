import Lobook.Queue.NaiveQueue
import Lobook.Book.FastBitsetBook

/-!
# The matching engine (`matching_engine.h`)

`MatchingEngine::run` initialises its book and then handles one message after the other until a `SHUTDOWN` arrives.
The clock and the recorded latencies have no influence on the book.
-/

namespace Lobook

open Checked

namespace MatchingEngine

/-- What `run` does with a message that is not `SHUTDOWN`. -/
def handle (fuel : Nat) (book : FastBitsetOrderBook) (msg : OrderMessage) : Exec FastBitsetOrderBook :=
  if msg.type = .SUBMIT then book.submitOrder fuel msg.id msg.price msg.qty msg.isBuy
  else if msg.type = .CANCEL then book.cancelOrder msg.id
  else return book

/-- The loop of `run` on the messages that `queue_.pop` returns. -/
def serve (fuel : Nat) (book : FastBitsetOrderBook) : List OrderMessage → Exec FastBitsetOrderBook
  | [] => return book
  | msg :: msgs => do
    if msg.type = .SHUTDOWN then return book
    else
      let book ← handle fuel book msg
      serve fuel book msgs

def run (fuel maxOrders : Nat) (msgs : List OrderMessage) : Exec FastBitsetOrderBook := do
  let book ← FastBitsetOrderBook.new.init maxOrders
  serve fuel book msgs

/-- What may happen to the book: a message of the engine, or a replacement. -/
inductive Event where
  | message (msg : OrderMessage)
  | replace (id newPrice newQty : Nat)
  deriving DecidableEq

def Event.exec (fuel : Nat) (book : FastBitsetOrderBook) : Event → Exec FastBitsetOrderBook
  | .message msg => handle fuel book msg
  | .replace id newPrice newQty => book.replaceOrder id newPrice newQty

/-- The event is handled completely, and the book is `book'` afterwards. -/
def EventStep (book : FastBitsetOrderBook) (e : Event) (book' : FastBitsetOrderBook) : Prop :=
  ∃ fuel, e.exec fuel book = .ok book'

/-- The engine takes its book through a run of message events, one for each message before `SHUTDOWN`. -/
theorem serve_run {fuel : Nat} {book book' : FastBitsetOrderBook} {msgs : List OrderMessage}
    (h : serve fuel book msgs = .ok book') :
    Transition.Run EventStep book ((msgs.takeWhile fun msg => msg.type ≠ .SHUTDOWN).map .message) book' := by
  induction msgs generalizing book with
  | nil =>
    cases h
    exact Transition.Run.refl
  | cons msg msgs ih =>
    by_cases hstop : msg.type = .SHUTDOWN
    · simp only [serve, if_pos hstop, pure_eq_ok] at h
      cases h
      simpa [hstop] using Transition.Run.refl
    · simp only [serve, if_neg hstop] at h
      obtain ⟨book₁, h₁, h₂⟩ := bind_eq_ok.1 h
      have hstep : EventStep book (.message msg) book₁ := ⟨fuel, h₁⟩
      simpa [hstop] using (Transition.Run.single hstep).trans (ih h₂)

end MatchingEngine

end Lobook
