import Lobook.Queue.Capacity

/-!
# What the server needs of its queue

`run<QueueT>` in `server.cpp` and `MatchingEngine<QueueT>` are written for any queue with `push` and `pop`.  `QueueT`
is such a queue, taken turn by turn, and `Delivery` what its users rely on: the messages of the first `capacity`
pushes are returned in order, each once, and while somebody waits the other side gets on.  `SPSCQueue<N, Cached>`
delivers `2 * N - 1` messages in both modes (`spscDelivery`).
-/

namespace Lobook

/-- A queue with one thread that pushes and one that pops. -/
structure QueueT where
  State : Type
  new : State
  /-- A turn of the thread in `push(msg)`, and whether `push` returns with it. -/
  pushTurn : OrderMessage → State → State × Bool
  /-- A turn of the thread in `pop()`, and the message that `pop` returns with it. -/
  popTurn : State → State × Option OrderMessage
  /-- A wakeup that nobody asked for. -/
  wake : State → State

/-- `Inv q sent got cur`: the pushes begun so far are those of `sent`, the last one still under way if `cur` is its
message, and the pops have returned `got`. -/
structure QueueT.Delivery (Q : QueueT) (capacity : Nat) where
  Inv : Q.State → List OrderMessage → List OrderMessage → Option OrderMessage → Prop
  work : Q.State → Nat
  bound : Nat
  new : Inv Q.new [] [] none
  call : ∀ {q sent got} (msg : OrderMessage), Inv q sent got none → sent.length < capacity →
    Inv q (sent ++ [msg]) got (some msg)
  push : ∀ {q sent got msg}, Inv q sent got (some msg) →
    Inv (Q.pushTurn msg q).1 sent got (if (Q.pushTurn msg q).2 then none else some msg)
  pop : ∀ {q sent got cur}, Inv q sent got cur → Inv (Q.popTurn q).1 sent (got ++ (Q.popTurn q).2.toList) cur
  wake : ∀ {q sent got cur}, Inv q sent got cur → Inv (Q.wake q) sent got cur
  order : ∀ {q sent got cur}, Inv q sent got cur → got <+: sent
  work_le : ∀ {q sent got cur}, Inv q sent got cur → work q ≤ bound
  /-- A turn waits or gets on. -/
  push_works : ∀ {q sent got msg}, Inv q sent got (some msg) →
    Q.pushTurn msg q = (q, false) ∨ work q < work (Q.pushTurn msg q).1
  pop_works : ∀ {q sent got cur}, Inv q sent got cur → Q.popTurn q = (q, none) ∨ work q < work (Q.popTurn q).1
  /-- The two threads never wait for each other. -/
  unstuck : ∀ {q sent got msg}, Inv q sent got (some msg) → Q.pushTurn msg q = (q, false) → Q.popTurn q ≠ (q, none)
  /-- A push whose message has been returned need not wait. -/
  released : ∀ {q got msg}, Inv q got got (some msg) → Q.pushTurn msg q ≠ (q, false)
  /-- With no push under way, `pop` waits only when everything has been returned. -/
  drained : ∀ {q sent got}, Inv q sent got none → Q.popTurn q = (q, none) → got = sent

namespace Producer

/-- How far a push has got. -/
def stage : Producer → Nat
  | .idle => 0
  | .fullTest _ _ => 1
  | .write _ _ => 2
  | .publish _ => 3

end Producer

namespace Consumer

/-- How far a pop has got. -/
def stage : Consumer → Nat
  | .idle => 0
  | .emptyTest _ => 1
  | .read _ => 2
  | .advance _ _ => 3

/-- The message with which the next step returns. -/
def returns : Consumer → Option OrderMessage
  | .advance _ msg => some msg
  | _ => none

end Consumer

namespace System

open SPSCQueue NaiveQueue

section Lists

variable {msgs msgs' : Nat → OrderMessage}

theorem slice_congr {a n : Nat} (h : ∀ i, a ≤ i → i < a + n → msgs i = msgs' i) : slice msgs a n = slice msgs' a n := by
  apply List.map_congr_left
  intro i hi
  have hmem := List.mem_range'_1.1 hi
  exact h i hmem.1 hmem.2

theorem slice_getD (l : List OrderMessage) {n : Nat} (hn : n ≤ l.length) :
    slice (fun i => l.getD i .zero) 0 n = l.take n := by
  induction n with
  | zero => simp [slice]
  | succ n ih =>
    rw [slice_succ_right, ih (by omega), Nat.zero_add, List.take_add_one]
    simp [List.getD_eq_getElem?_getD, List.getElem?_eq_getElem (show n < l.length by omega)]

end Lists

section Turns

variable {N : Nat} {cached : Bool} {msgs msgs' : Nat → OrderMessage} {s : System} {h t : Nat}

/-- The invariant between pushes speaks of the messages pushed so far only. -/
theorem Ring.congr (hr : Ring N msgs s) (hc : Counts N cached s h t) (hidle : s.producer = .idle)
    (heq : ∀ i, i < s.pushed → msgs i = msgs' i) : Ring N msgs' s where
  room := hr.room
  slots j h1 h2 := (hr.slots j h1 h2).trans (heq j h2)
  testing msg i e := by rw [hidle] at e; cases e
  writing msg i e := by rw [hidle] at e; cases e
  written i e := by rw [hidle] at e; cases e
  got i msg e := by
    have havail := hc.avail
    have hle := hc.tail_le
    rw [e] at havail
    simp only [Consumer.claim] at havail
    rw [hr.got i msg e]
    exact heq _ (by omega)
  refines := by
    have hle := hc.taken_le
    obtain ⟨es, hrun, hpush, hpop⟩ := hr.refines
    refine ⟨es, ?_, ?_, hpop⟩
    · rwa [← slice_congr fun i h1 h2 => heq i (by unfold unread at h2; omega)]
    · rw [hpush]
      exact slice_congr fun i _ h2 => heq i (by omega)
  popped := by
    have hle := hc.taken_le
    rw [hr.popped]
    exact slice_congr fun i _ h2 => heq i (by omega)

/-- A turn of the producer depends on the next message only. -/
theorem producerStep_congr (N : Nat) (cached : Bool) (hmsg : msgs s.pushed = msgs' s.pushed) :
    s.producerStep N cached msgs = s.producerStep N cached msgs' := by
  unfold System.producerStep
  rw [hmsg]

/-- What a turn of the producer does to the count of pushes: the push returns with it, or it waits or gets on. -/
theorem producerStep_cases (N : Nat) (cached : Bool) (msgs : Nat → OrderMessage) (s : System) :
    ((s.producerStep N cached msgs).producer = .idle ∧ (s.producerStep N cached msgs).pushed = s.pushed + 1) ∨
    ((s.producerStep N cached msgs).producer ≠ .idle ∧ (s.producerStep N cached msgs).pushed = s.pushed ∧
      (s.producerStep N cached msgs = s ∨
        s.producer.stage < (s.producerStep N cached msgs).producer.stage)) := by
  unfold System.producerStep
  cases hp : s.producer with
  | idle => exact Or.inr ⟨by simp, rfl, Or.inr (by simp [Producer.stage])⟩
  | fullTest msg i =>
    right
    cases hq : s.queue.fullTest N cached i with
    | none =>
      simp only [hq]
      exact ⟨by simp [hp], trivial, Or.inl trivial⟩
    | some q =>
      simp only [hq]
      exact ⟨by simp, trivial, Or.inr (by simp [Producer.stage])⟩
  | write msg i => exact Or.inr ⟨by simp, rfl, Or.inr (by simp [Producer.stage])⟩
  | publish i => exact Or.inl ⟨rfl, rfl⟩

/-- A turn of the producer leaves the consumer alone. -/
theorem producerStep_consumer (N : Nat) (cached : Bool) (msgs : Nat → OrderMessage) (s : System) :
    (s.producerStep N cached msgs).consumer = s.consumer ∧ (s.producerStep N cached msgs).popped = s.popped := by
  unfold System.producerStep
  split
  · exact ⟨rfl, rfl⟩
  · split <;> exact ⟨rfl, rfl⟩
  · exact ⟨rfl, rfl⟩
  · exact ⟨rfl, rfl⟩

/-- What a turn of the consumer does to the messages returned: the pop returns with it, or it waits or gets on. -/
theorem consumerStep_cases (N : Nat) (cached : Bool) (s : System) :
    (s.consumerStep N cached).popped = s.popped ++ s.consumer.returns.toList ∧
    ((∃ msg, s.consumer.returns = some msg ∧ (s.consumerStep N cached).consumer.stage = 0 ∧ s.consumer.stage = 3) ∨
      (s.consumer.returns = none ∧ (s.consumerStep N cached = s ∨
        s.consumer.stage < (s.consumerStep N cached).consumer.stage))) := by
  unfold System.consumerStep
  cases hp : s.consumer with
  | idle => exact ⟨by simp [Consumer.returns], Or.inr ⟨rfl, Or.inr (by simp [Consumer.stage])⟩⟩
  | emptyTest i =>
    cases hq : s.queue.emptyTest cached i with
    | none =>
      simp only [hq]
      exact ⟨by simp [Consumer.returns], Or.inr ⟨rfl, Or.inl trivial⟩⟩
    | some q =>
      simp only [hq]
      exact ⟨by simp [Consumer.returns], Or.inr ⟨rfl, Or.inr (by simp [Consumer.stage])⟩⟩
  | read i => exact ⟨by simp [Consumer.returns], Or.inr ⟨rfl, Or.inr (by simp [Consumer.stage])⟩⟩
  | advance i msg => exact ⟨rfl, Or.inl ⟨msg, rfl, rfl, rfl⟩⟩

/-- A turn of the consumer leaves the producer alone. -/
theorem consumerStep_producer (N : Nat) (cached : Bool) (s : System) :
    (s.consumerStep N cached).producer = s.producer ∧ (s.consumerStep N cached).pushed = s.pushed := by
  unfold System.consumerStep
  split
  · exact ⟨rfl, rfl⟩
  · split <;> exact ⟨rfl, rfl⟩
  · exact ⟨rfl, rfl⟩
  · exact ⟨rfl, rfl⟩

/-- A turn that changes nothing is a test that fails. -/
theorem spins_of_producerStep (hc : Counts N cached s h t) (heq : s.producerStep N cached msgs = s) :
    nextTailIdx N s.queue.tail = s.queue.head := by
  by_contra hne
  have hprod := congrArg System.producer heq
  unfold System.producerStep at hprod
  cases hp : s.producer with
  | idle => simp [hp] at hprod
  | fullTest msg i =>
    have hi : i = s.queue.tail := hc.tailIdx i (by rw [hp]; rfl)
    subst hi
    obtain ⟨q, hq, _⟩ := fullTest_of_ne cached hne
    simp [hp, hq] at hprod
  | write msg i => simp [hp] at hprod
  | publish i => simp [hp] at hprod

theorem spins_of_consumerStep (hc : Counts N cached s h t) (heq : s.consumerStep N cached = s) :
    s.queue.head = s.queue.tail := by
  by_contra hne
  have hcons := congrArg System.consumer heq
  unfold System.consumerStep at hcons
  cases hp : s.consumer with
  | idle => simp [hp] at hcons
  | emptyTest i =>
    have hi : i = s.queue.head := hc.headIdx i (by rw [hp]; rfl)
    subst hi
    obtain ⟨q, hq, _⟩ := emptyTest_of_ne cached hne
    simp [hp, hq] at hcons
  | read i => simp [hp] at hcons
  | advance i msg => simp [hp] at hcons

end Turns

/-! ### The ring buffer delivers -/

section Delivery

variable {N : Nat} {cached : Bool} {s : System} {sent got : List OrderMessage} {msg : OrderMessage}
  {cur : Option OrderMessage}

/-- Whether a push is under way, and which. -/
def Pushing (s : System) (sent : List OrderMessage) : Option OrderMessage → Prop
  | none => s.producer = .idle ∧ sent.length = s.pushed
  | some msg => sent.length = s.pushed + 1 ∧ sent.getD s.pushed .zero = msg

/-- The ring holds what has been sent and not been returned. -/
structure Delivers (N : Nat) (cached : Bool) (s : System) (sent got : List OrderMessage) (cur : Option OrderMessage) :
    Prop where
  ring : Ring N (fun i => sent.getD i .zero) s
  counts : ∃ h t, Counts N cached s h t
  got_eq : got = s.popped
  room : sent.length < 2 * N
  pushing : s.Pushing sent cur

theorem Delivers.length_le (hd : Delivers N cached s sent got cur) : s.begun ≤ sent.length := by
  have hp := hd.pushing
  unfold begun
  cases cur with
  | none =>
    rw [hp.1, hp.2, Producer.claim]
    omega
  | some msg =>
    have hclaim : s.producer.claim ≤ 1 := by cases s.producer <;> simp [Producer.claim]
    have hlen := hp.1
    omega

theorem delivers_new (hN : N.isPowerOfTwo) : Delivers N cached init [] [] none where
  ring := ring_init
  counts := ⟨0, 0, counts_init⟩
  got_eq := rfl
  room := by have := Nat.pos_of_isPowerOfTwo hN; simp only [List.length_nil]; omega
  pushing := ⟨rfl, rfl⟩

theorem Delivers.call (hd : Delivers N cached s sent got none) (msg : OrderMessage)
    (hroom : sent.length < 2 * N - 1) : Delivers N cached s (sent ++ [msg]) got (some msg) := by
  obtain ⟨hidle, hlen⟩ := hd.pushing
  obtain ⟨h, t, hc⟩ := hd.counts
  refine ⟨?_, hd.counts, hd.got_eq, ?_, ?_, ?_⟩
  · apply hd.ring.congr hc hidle
    intro i hi
    simp only [List.getD_eq_getElem?_getD]
    rw [List.getElem?_append_left (by omega)]
  · simp only [List.length_append, List.length_cons, List.length_nil]
    omega
  · simp [hlen]
  · simp [← hlen, List.getD_eq_getElem?_getD]

theorem Delivers.push (hN : N.isPowerOfTwo) (hlt : 2 * N ≤ 2 ^ 64) (hd : Delivers N cached s sent got (some msg)) :
    Delivers N cached (s.producerStep N cached fun _ => msg) sent got
      (if (s.producerStep N cached fun _ => msg).producer = .idle then none else some msg) := by
  obtain ⟨hlen, hmsg⟩ := hd.pushing
  obtain ⟨h, t, hc⟩ := hd.counts
  have hbegun := hd.length_le
  have hroom := hd.room
  have hstep : s.producerStep N cached (fun _ => msg) =
      s.step N cached (fun i => sent.getD i .zero) .producer := by
    show _ = s.producerStep N cached fun i => sent.getD i .zero
    apply producerStep_congr
    exact hmsg.symm
  obtain ⟨_, hpopped⟩ := producerStep_consumer N cached (fun _ => msg) s
  have hafter : (s.producerStep N cached fun _ => msg).begun < 2 * N := by
    rcases producerStep_cases N cached (fun _ => msg) s with ⟨h1, h2⟩ | ⟨_, h2, _⟩
    · rw [begun, h1, h2, Producer.claim]
      omega
    · have hclaim : (s.producerStep N cached fun _ => msg).producer.claim ≤ 1 := by
        cases (s.producerStep N cached fun _ => msg).producer <;> simp [Producer.claim]
      rw [begun, h2]
      omega
  refine ⟨?_, ?_, hd.got_eq.trans hpopped.symm, hroom, ?_⟩
  · rw [hstep] at hafter ⊢
    exact hd.ring.step_of_begun hN hlt hc .producer hafter
  · rw [hstep]
    exact hc.step_of_begun hN hlt (by omega) .producer
  · rcases producerStep_cases N cached (fun _ => msg) s with ⟨h1, h2⟩ | ⟨h1, h2, _⟩
    · rw [if_pos h1]
      exact ⟨h1, by rw [h2, hlen]⟩
    · rw [if_neg h1]
      exact ⟨by rw [h2, hlen], by rw [h2, hmsg]⟩

theorem Delivers.pop (hN : N.isPowerOfTwo) (hlt : 2 * N ≤ 2 ^ 64) (hd : Delivers N cached s sent got cur) :
    Delivers N cached (s.consumerStep N cached) sent (got ++ s.consumer.returns.toList) cur := by
  obtain ⟨h, t, hc⟩ := hd.counts
  have hbegun := hd.length_le
  have hroom := hd.room
  obtain ⟨hprod, hpushed⟩ := consumerStep_producer N cached s
  have hpos := Nat.pos_of_isPowerOfTwo hN
  refine ⟨hd.ring.consumerStep hN (by omega) hc, ?_, ?_, hroom, ?_⟩
  · have hstep : ∃ h' t', Counts N cached (s.step N cached (fun i => sent.getD i .zero) .consumer) h' t' :=
      hc.step_of_begun hN hlt (by omega) .consumer
    exact hstep
  · rw [hd.got_eq]
    exact (consumerStep_cases N cached s).1.symm
  · have hp := hd.pushing
    unfold Pushing at hp ⊢
    rw [hprod, hpushed]
    exact hp

theorem Delivers.order (hd : Delivers N cached s sent got cur) : got <+: sent := by
  obtain ⟨h, t, hc⟩ := hd.counts
  have hle := hc.taken_le
  have hbegun := hd.length_le
  unfold begun at hbegun
  rw [hd.got_eq, hd.ring.popped, slice_getD sent (by omega)]
  exact List.take_prefix _ _

/-- Four turns an operation. -/
def work (s : System) : Nat := 4 * s.pushed + s.producer.stage + (4 * s.taken + s.consumer.stage)

theorem Delivers.work_le (hd : Delivers N cached s sent got cur) : s.work ≤ 16 * N + 6 := by
  obtain ⟨h, t, hc⟩ := hd.counts
  have hle := hc.taken_le
  have hbegun := hd.length_le
  have hroom := hd.room
  have hp : s.producer.stage ≤ 3 := by cases s.producer <;> simp [Producer.stage]
  have hq : s.consumer.stage ≤ 3 := by cases s.consumer <;> simp [Consumer.stage]
  unfold begun at hbegun
  unfold work
  omega

theorem producerStep_works (msgs : Nat → OrderMessage) (s : System) :
    (s.producerStep N cached msgs = s ∧ (s.producerStep N cached msgs).producer ≠ .idle) ∨
      s.work < (s.producerStep N cached msgs).work := by
  obtain ⟨hcons, hpopped⟩ := producerStep_consumer N cached msgs s
  have hp : s.producer.stage ≤ 3 := by cases s.producer <;> simp [Producer.stage]
  unfold work taken
  rw [hcons, hpopped]
  rcases producerStep_cases N cached msgs s with ⟨_, h2⟩ | ⟨h1, h2, h3⟩
  · rw [h2]
    omega
  · rcases h3 with h3 | h3
    · exact Or.inl ⟨h3, h1⟩
    · rw [h2]
      omega

theorem consumerStep_works (s : System) :
    (s.consumerStep N cached = s ∧ s.consumer.returns = none) ∨ s.work < (s.consumerStep N cached).work := by
  obtain ⟨hprod, hpushed⟩ := consumerStep_producer N cached s
  obtain ⟨hpopped, hcases⟩ := consumerStep_cases N cached s
  unfold work taken
  rw [hprod, hpushed, hpopped]
  rcases hcases with ⟨msg, h1, h2, h3⟩ | ⟨h1, h2⟩
  · rw [h1, h2, h3]
    simp only [Option.toList_some, List.length_append, List.length_cons, List.length_nil]
    omega
  · rcases h2 with h2 | h2
    · exact Or.inl ⟨h2, h1⟩
    · rw [h1]
      simp only [Option.toList_none, List.append_nil]
      omega

end Delivery

end System

/-- `SPSCQueue<N, Cached>`. -/
def QueueT.spsc (N : Nat) (cached : Bool) : QueueT where
  State := System
  new := System.init
  pushTurn msg s :=
    (s.producerStep N cached fun _ => msg, (s.producerStep N cached fun _ => msg).producer = .idle)
  popTurn s := (s.consumerStep N cached, s.consumer.returns)
  wake s := s

/-- A ring of `N` slots delivers the first `2 * N - 1` messages. -/
def System.spscDelivery {N : Nat} (hN : N.isPowerOfTwo) (h2 : 2 ≤ N) (hlt : 2 * N ≤ 2 ^ 64) (cached : Bool) :
    (QueueT.spsc N cached).Delivery (2 * N - 1) where
  Inv := Delivers N cached
  work := System.work
  bound := 16 * N + 6
  new := delivers_new hN
  call msg hd hroom := hd.call msg hroom
  push hd := by simpa [QueueT.spsc] using hd.push hN hlt
  pop hd := hd.pop hN hlt
  wake hd := hd
  order hd := hd.order
  work_le hd := hd.work_le
  push_works {q sent got msg} _ := by
    refine (producerStep_works (fun _ => msg) q).imp_left fun h => ?_
    exact Prod.ext h.1 (decide_eq_false h.2)
  pop_works {q sent got cur} _ := (consumerStep_works q).imp_left fun h => Prod.ext h.1 h.2
  unstuck {q sent got msg} hd hpush hpop := by
    obtain ⟨h, t, hc⟩ := hd.counts
    have hbegun := hd.length_le
    have hroom := hd.room
    unfold System.begun at hbegun
    have hwait : q.producerStep N cached (fun _ => msg) = q := congrArg Prod.fst hpush
    have hwait' : q.consumerStep N cached = q := congrArg Prod.fst hpop
    have hfull := hc.full_of_spins hN (by omega) (by omega) (System.spins_of_producerStep hc hwait)
    have hempty := hc.empty_of_spins (by omega) (System.spins_of_consumerStep hc hwait')
    omega
  released {q got msg} hd := by
    obtain ⟨h, t, hc⟩ := hd.counts
    have hle := hc.taken_le
    have hlen := congrArg List.length hd.got_eq
    have hpushed := hd.pushing.1
    unfold System.taken at hle
    omega
  drained {q sent got} hd hpop := by
    obtain ⟨h, t, hc⟩ := hd.counts
    have hbegun := hd.length_le
    have hroom := hd.room
    unfold System.begun at hbegun
    have hwait : q.consumerStep N cached = q := congrArg Prod.fst hpop
    have hempty := hc.empty_of_spins (by omega) (System.spins_of_consumerStep hc hwait)
    obtain ⟨_, hlen⟩ := hd.pushing
    rw [hd.got_eq, hd.ring.popped, hempty.1, ← hlen, System.slice_getD sent (Nat.le_refl _), List.take_length]

end Lobook
