import Lobook.Queue.Modes

/-!
# How many messages a ring buffer can take

The full test compares a masked index with the counter `head_`, so it stops the producer only while that counter is
below `N`.  A ring of `N` slots is all the same safe for its first `2 * N - 1` messages: as long as fewer than `2 * N`
pushes have passed their test, every full test is sound (`Counts.fullTestSound`), and both invariants are kept
(`Counts.step_of_begun`, `Ring.step_of_begun`).  The bound is exact (`capacity_exact`): after `N` pushes, each followed by
a pop, the counter has reached `N` and never equals a masked index again, and `N` more pushes overfill the ring.
-/

namespace Lobook

namespace System

open SPSCQueue

/-- The pushes that have passed their full test. -/
def begun (s : System) : Nat := s.pushed + s.producer.claim

section Steps

variable {N : Nat} {cached : Bool} {msgs : Nat → OrderMessage} {s : System} {h t : Nat}

theorem begun_le_step (s : System) (a : Actor) : s.begun ≤ (s.step N cached msgs a).begun := by
  unfold begun
  cases a with
  | producer =>
    simp only [System.step, System.producerStep]
    split
    · rename_i hp; simp [hp, Producer.claim]
    · rename_i hp
      split <;> simp [hp, Producer.claim]
    · rename_i hp; simp [hp, Producer.claim]
    · rename_i hp; simp [hp, Producer.claim]
  | consumer =>
    simp only [System.step, System.consumerStep]
    split
    · exact Nat.le_refl _
    · split <;> exact Nat.le_refl _
    · exact Nat.le_refl _
    · exact Nat.le_refl _

/-- Before the last of `2 * N - 1` pushes a counter that has reached `N` leaves room in the ring. -/
theorem Counts.fullTestSound (hN : N.isPowerOfTwo) (hlt : 2 * N ≤ 2 ^ 64) (hc : Counts N cached s h t)
    (hpushed : s.pushed + 2 ≤ 2 * N) : FullTestSound N cached s := by
  intro msg i _
  have hpos := Nat.pos_of_isPowerOfTwo hN
  have htaken := hc.taken_le
  have hle := hc.head_le
  rw [hc.seenHead, wrap_of_lt (by omega)]
  unfold unread
  omega

/-- A full test that keeps the producer waiting changes nothing. -/
theorem producerStep_of_spin {msg : OrderMessage} {i : Nat} (hp : s.producer = .fullTest msg i)
    (hspin : s.queue.fullTest N cached i = none) : s.producerStep N cached msgs = s := by
  simp only [System.producerStep, hp, hspin]

/-- A push that passes its full test counts at once. -/
theorem begun_of_pass {msg : OrderMessage} {i : Nat} {q : SPSCQueue} (hp : s.producer = .fullTest msg i)
    (hpass : s.queue.fullTest N cached i = some q) : (s.producerStep N cached msgs).begun = s.pushed + 1 := by
  simp only [System.producerStep, hp, hpass, begun, Producer.claim]

theorem Counts.step_of_begun (hN : N.isPowerOfTwo) (hlt : 2 * N ≤ 2 ^ 64) (hc : Counts N cached s h t)
    (hbegun : s.begun < 2 * N) (a : Actor) : ∃ h' t', Counts N cached (s.step N cached msgs a) h' t' := by
  have hpos := Nat.pos_of_isPowerOfTwo hN
  apply hc.step hN (by omega)
  left
  unfold begun at hbegun
  omega

/-- As long as fewer than `2 * N` pushes have passed their test, the ring stays in order. -/
theorem Ring.step_of_begun (hN : N.isPowerOfTwo) (hlt : 2 * N ≤ 2 ^ 64) (hc : Counts N cached s h t)
    (hr : Ring N msgs s) (a : Actor) (hbegun : (s.step N cached msgs a).begun < 2 * N) :
    Ring N msgs (s.step N cached msgs a) := by
  have hpos := Nat.pos_of_isPowerOfTwo hN
  have hN64 : N < 2 ^ 64 := by omega
  cases a with
  | consumer => exact hr.consumerStep hN hN64 hc
  | producer =>
    change (s.producerStep N cached msgs).begun < 2 * N at hbegun
    show Ring N msgs (s.producerStep N cached msgs)
    cases hp : s.producer with
    | idle => exact hr.producerStep hN hN64 hc (fun msg i e => by rw [hp] at e; cases e)
    | write msg i => exact hr.producerStep hN hN64 hc (fun msg i e => by rw [hp] at e; cases e)
    | publish i => exact hr.producerStep hN hN64 hc (fun msg i e => by rw [hp] at e; cases e)
    | fullTest msg i =>
      cases hq : s.queue.fullTest N cached i with
      | none =>
        rw [producerStep_of_spin hp hq]
        exact hr
      | some q =>
        -- the push that passes is one of the first `2 * N - 1`
        rw [begun_of_pass hp hq] at hbegun
        exact hr.producerStep hN hN64 hc (hc.fullTestSound hN hlt (by omega))

end Steps

section Runs

variable {N : Nat} {cached : Bool} {msgs : Nat → OrderMessage}

/-- Both invariants along every run in which fewer than `2 * N` pushes pass their test. -/
theorem ring_of_begun (hN : N.isPowerOfTwo) (hlt : 2 * N ≤ 2 ^ 64) (sched : List Actor)
    (hbegun : (run N cached msgs sched).begun < 2 * N) :
    Ring N msgs (run N cached msgs sched) ∧ ∃ h t, Counts N cached (run N cached msgs sched) h t := by
  induction sched using List.reverseRecOn with
  | nil => exact ⟨ring_init, 0, 0, counts_init⟩
  | append_singleton sched a ih =>
    rw [run_snoc] at hbegun ⊢
    have hbefore := Nat.lt_of_le_of_lt (begun_le_step _ a) hbegun
    obtain ⟨hr, h, t, hc⟩ := ih hbefore
    exact ⟨hr.step_of_begun hN hlt hc a hbegun, hc.step_of_begun hN hlt hbefore a⟩

end Runs

/-! ### A schedule that overfills the ring -/

section Overfill

variable {N : Nat} {cached : Bool} {msgs : Nat → OrderMessage} {s : System} {p c : Nat}

def onePush : List Actor := List.replicate 4 .producer

def onePop : List Actor := List.replicate 4 .consumer

/-- `n` pushes, each followed by a pop. -/
def alternating (n : Nat) : List Actor := (List.replicate n (onePush ++ onePop)).flatten

/-- `N` pushes, each followed by a pop, and then `n` pushes. -/
def overfilling (N n : Nat) : List Actor := alternating N ++ (List.replicate n onePush).flatten

/-- Between operations, after `p` pushes and `c` pops. -/
structure Rests (s : System) (p c : Nat) : Prop where
  producer : s.producer = .idle
  consumer : s.consumer = .idle
  pushed : s.pushed = p
  taken : s.taken = c
  head : s.queue.head = c
  tail : s.queue.tail = wrap p

theorem rests_init : Rests init 0 0 := ⟨rfl, rfl, rfl, rfl, rfl, rfl⟩

/-- A full test passes where the real counter differs, and leaves that counter alone. -/
theorem fullTest_of_ne (cached : Bool) {q : SPSCQueue} {i : Nat} (hne : nextTailIdx N i ≠ q.head) :
    ∃ q', q.fullTest N cached i = some q' ∧ q'.head = q.head := by
  unfold fullTest
  cases cached with
  | true =>
    by_cases hcache : nextTailIdx N i = q.headCached
    · refine ⟨{ q with headCached := q.head }, ?_, rfl⟩
      rw [if_pos rfl, if_pos hcache, if_neg hne]
    · exact ⟨q, by rw [if_pos rfl, if_neg hcache], rfl⟩
  | false => exact ⟨q, if_neg hne, rfl⟩

/-- An empty test passes where the real counter differs, and leaves that counter alone. -/
theorem emptyTest_of_ne (cached : Bool) {q : SPSCQueue} {i : Nat} (hne : i ≠ q.tail) :
    ∃ q', q.emptyTest cached i = some q' ∧ q'.tail = q.tail := by
  unfold emptyTest
  cases cached with
  | true =>
    by_cases hcache : i = q.tailCached
    · refine ⟨{ q with tailCached := q.tail }, ?_, rfl⟩
      rw [if_pos rfl, if_pos hcache, if_neg hne]
    · exact ⟨q, by rw [if_pos rfl, if_neg hcache], rfl⟩
  | false => exact ⟨q, if_neg hne, rfl⟩

/-- A push goes through where the masked index differs from the counter. -/
theorem Rests.push (h : Rests s p c) (hN : N.isPowerOfTwo) (hlt : N < 2 ^ 64) (hne : (p + 1) % N ≠ c) :
    Rests (onePush.foldl (step N cached msgs) s) (p + 1) c := by
  have hspin : nextTailIdx N s.queue.tail ≠ s.queue.head := by
    rw [h.tail, nextTailIdx_wrap hN hlt, h.head]
    exact hne
  obtain ⟨q, hq, hhead⟩ := fullTest_of_ne cached hspin
  have hp := h.producer
  simp only [onePush, List.replicate, List.foldl_cons, List.foldl_nil, System.step, System.producerStep, hp, hq]
  exact ⟨rfl, h.consumer, by simp only [h.pushed], h.taken, hhead.trans h.head, by simp only [h.tail, wrap_succ]⟩

/-- A pop goes through where a message is left. -/
theorem Rests.pop (h : Rests s p c) (hc : c + 1 < 2 ^ 64) (hne : c ≠ wrap p) :
    Rests (onePop.foldl (step N cached msgs) s) p (c + 1) := by
  have hspin : s.queue.head ≠ s.queue.tail := by
    rw [h.head, h.tail]
    exact hne
  obtain ⟨q, hq, htail⟩ := emptyTest_of_ne cached hspin
  have hp := h.consumer
  simp only [onePop, List.replicate, List.foldl_cons, List.foldl_nil, System.step, System.consumerStep, hp, hq]
  have hcount := h.taken
  unfold System.taken at hcount
  refine ⟨h.producer, rfl, h.pushed, ?_, ?_, htail.trans h.tail⟩
  · simp [System.taken, hcount]
  · simp only [h.head, wrap_of_lt hc]

theorem Rests.alternate (hN : N.isPowerOfTwo) (h2 : 2 ≤ N) (hlt : 2 * N ≤ 2 ^ 64) {n : Nat} (hn : n ≤ N) :
    Rests (run N cached msgs (alternating n)) n n := by
  induction n with
  | zero => exact rests_init
  | succ n ih =>
    have hlast : alternating (n + 1) = alternating n ++ (onePush ++ onePop) := by
      simp only [alternating, List.replicate_succ', List.flatten_append, List.flatten_cons, List.flatten_nil,
        List.append_nil]
    have hrun : run N cached msgs (alternating (n + 1)) =
        onePop.foldl (step N cached msgs) (onePush.foldl (step N cached msgs) (run N cached msgs (alternating n))) := by
      rw [hlast]
      simp only [run, List.foldl_append]
    rw [hrun]
    have hpush : Rests (onePush.foldl (step N cached msgs) (run N cached msgs (alternating n))) (n + 1) n := by
      apply (ih (by omega)).push hN (by omega)
      -- the masked index is the successor of the counter, or zero at the end of the lap
      rcases Nat.lt_or_eq_of_le hn with hn' | hn'
      · rw [Nat.mod_eq_of_lt hn']; omega
      · rw [hn', Nat.mod_self]; omega
    apply hpush.pop (by omega)
    rw [wrap_of_lt (by omega)]
    omega

/-- Once the counter has reached `N`, every push goes through. -/
theorem Rests.overfill (hN : N.isPowerOfTwo) (h2 : 2 ≤ N) (hlt : 2 * N ≤ 2 ^ 64) (n : Nat) :
    Rests (run N cached msgs (overfilling N n)) (N + n) N := by
  induction n with
  | zero =>
    have hstart : overfilling N 0 = alternating N := by simp [overfilling]
    rw [hstart, Nat.add_zero]
    exact Rests.alternate hN h2 hlt (Nat.le_refl N)
  | succ n ih =>
    have hlast : overfilling N (n + 1) = overfilling N n ++ onePush := by
      simp only [overfilling, List.replicate_succ', List.flatten_append, List.flatten_cons, List.flatten_nil,
        List.append_nil, List.append_assoc]
    rw [hlast, run, List.foldl_append]
    apply ih.push hN (by omega)
    have := Nat.mod_lt (N + n + 1) (Nat.pos_of_isPowerOfTwo hN)
    omega

end Overfill

/-- A ring of `N` slots takes `2 * N - 1` messages and no more: under every schedule, in both modes, it is a
first-in first-out queue as long as fewer than `2 * N` pushes have passed their test; and one schedule overfills it
with the `2 * N`-th push, whatever the messages. -/
theorem capacity_exact {N : Nat} (hN : N.isPowerOfTwo) (h2 : 2 ≤ N) (hlt : 2 * N ≤ 2 ^ 64) :
    (∀ cached msgs sched, (run N cached msgs sched).begun < 2 * N → FifoAt N msgs (run N cached msgs sched)) ∧
      ∃ sched, ∀ cached msgs,
        (run N cached msgs sched).begun = 2 * N ∧ ¬ FifoAt N msgs (run N cached msgs sched) := by
  constructor
  · intro cached msgs sched hbegun
    obtain ⟨hr, h, t, hc⟩ := ring_of_begun hN hlt sched hbegun
    exact hr.fifoAt hN (by omega) hc
  · refine ⟨overfilling N N, fun cached msgs => ?_⟩
    have hrests : Rests (run N cached msgs (overfilling N N)) (N + N) N := Rests.overfill hN h2 hlt N
    refine ⟨?_, fun hfifo => ?_⟩
    · rw [begun, hrests.producer, hrests.pushed, Producer.claim]
      omega
    · have hle := hfifo.unread_le.2
      rw [unread, hrests.pushed, hrests.taken] at hle
      omega

/-- The ring of the server, with `131072` slots. -/
theorem capacity_exact_server :
    ∃ sched, ∀ cached msgs, (run 131072 cached msgs sched).begun = 2 * 131072 ∧
      ¬ FifoAt 131072 msgs (run 131072 cached msgs sched) :=
  (capacity_exact ⟨17, by decide⟩ (by decide) (by decide)).2

end System

end Lobook
