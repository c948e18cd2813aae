import Mathlib.Data.Fintype.Defs
import Mathlib.Order.Lattice
import Lobook.Lib.Checked

/-!
# Memory with release and acquire

Threads share atomic locations and plain cells.  A location keeps the messages that have been stored to it, and a load
may return any of them that is not older than what its thread knows of the location.  What a thread knows is a `View`:
for each location the position of a message, and for each thread the number of its accesses to cells that happen before.
A release store adds the view of its thread to the message, and an acquire load takes over the view of the message it
returns; relaxed ones pass nothing on.

An access to a cell needs that the accesses of other threads it conflicts with happen before it.  If not, it is a data
race, and the program has no meaning (`Stop.undefined`).  Stores to a location get into its history in the order of the
run.  That is no restriction for locations with a single writer, and where every load of a location of another thread is
an acquire load and every store a release store.

`Counters` is a way to hand cells over: every thread counts its accesses in a location of its own.
-/

namespace ReleaseAcquire

open Checked

/-- The `memory_order` of a load. -/
inductive LoadOrder where
  | relaxed
  | acquire
  deriving DecidableEq, Repr

/-- The `memory_order` of a store. -/
inductive StoreOrder where
  | relaxed
  | release
  deriving DecidableEq, Repr

abbrev View (L T : Type) := L ⊕ T → Nat

structure Message (L T V : Type) where
  value : V
  view : View L T

/-- `written` and `read` are the clocks of the threads at their last write to and read of a cell. -/
structure Memory (L T V X A : Type) where
  history : L → List (Message L T V)
  view : T → View L T
  cell : X → A
  written : X → T → Nat
  read : X → T → Nat

namespace Memory

variable {L T V X A : Type}

/-- Before the threads start, everybody knows the first messages. -/
def start (value : L → V) (cell : X → A) : Memory L T V X A where
  history l := [⟨value l, fun _ => 0⟩]
  view _ _ := 0
  cell := cell
  written _ _ := 0
  read _ _ := 0

section Operations

variable [DecidableEq T]

/-- Thread `t` takes over the view `v`. -/
def learn (m : Memory L T V X A) (t : T) (v : View L T) : Memory L T V X A :=
  { m with view := Function.update m.view t (m.view t ⊔ v) }

variable [DecidableEq L]

/-- A view that knows of one thing only. -/
def only (x : L ⊕ T) (n : Nat) : View L T := Function.update (fun _ => 0) x n

/-- What a load of the `i`-th message of `l` tells. -/
def gained (order : LoadOrder) (l : L) (i : Nat) (msg : Message L T V) : View L T :=
  match order with
  | .relaxed => only (.inl l) i
  | .acquire => msg.view

/-- A load of `l` that returns the `i`-th message, or `none` if it cannot. -/
def load (m : Memory L T V X A) (order : LoadOrder) (t : T) (l : L) (i : Nat) : Option (V × Memory L T V X A) :=
  match (m.history l)[i]? with
  | none => none
  | some msg => if m.view t (.inl l) ≤ i then some (msg.value, m.learn t (gained order l i msg)) else none

/-- What the next message of `l` tells. -/
def sent (m : Memory L T V X A) (order : StoreOrder) (t : T) (l : L) : View L T :=
  match order with
  | .relaxed => only (.inl l) (m.history l).length
  | .release => m.view t ⊔ only (.inl l) (m.history l).length

def store (m : Memory L T V X A) (order : StoreOrder) (t : T) (l : L) (value : V) : Memory L T V X A :=
  { m.learn t (only (.inl l) (m.history l).length) with
    history := Function.update m.history l (m.history l ++ [⟨value, m.sent order t l⟩]) }

/-- The clock of `t` at its next access. -/
def clock (m : Memory L T V X A) (t : T) : Nat := m.view t (.inr t) + 1

def tick (m : Memory L T V X A) (t : T) : Memory L T V X A := m.learn t (only (.inr t) (m.clock t))

omit [DecidableEq L] [DecidableEq T] in
/-- The accesses of a log happen before the next one of `t`. -/
def Precedes (m : Memory L T V X A) (log : T → Nat) (t : T) : Prop := ∀ u, log u ≤ m.view t (.inr u)

instance [Fintype T] (m : Memory L T V X A) (log : T → Nat) (t : T) : Decidable (m.Precedes log t) :=
  inferInstanceAs (Decidable (∀ u, log u ≤ m.view t (.inr u)))

variable [DecidableEq X] [Fintype T]

def readCell (m : Memory L T V X A) (t : T) (x : X) : Exec (A × Memory L T V X A) :=
  if m.Precedes (m.written x) t then
    .ok (m.cell x,
      { m.tick t with read := Function.update m.read x (Function.update (m.read x) t (m.clock t)) })
  else .error .undefined

def writeCell (m : Memory L T V X A) (t : T) (x : X) (a : A) : Exec (Memory L T V X A) :=
  if m.Precedes (m.written x) t ∧ m.Precedes (m.read x) t then
    .ok { m.tick t with
      cell := Function.update m.cell x a
      written := Function.update m.written x (Function.update (m.written x) t (m.clock t)) }
  else .error .undefined

end Operations

/-! ### What there is to know -/

/-- All that a thread can know. -/
def now (m : Memory L T V X A) : View L T
  | .inl l => (m.history l).length - 1
  | .inr t => m.view t (.inr t)

/-- No view is ahead of the memory, and a message tells its own position. -/
structure Wf (m : Memory L T V X A) : Prop where
  nonempty : ∀ l, m.history l ≠ []
  view_le : ∀ t, m.view t ≤ m.now
  message_le : ∀ l, ∀ msg ∈ m.history l, Message.view msg ≤ m.now
  position : ∀ l i msg, (m.history l)[i]? = some msg → Message.view msg (.inl l) = i

section Wf

variable {m m' : Memory L T V X A} {order : LoadOrder} {t u : T} {l : L} {i n : Nat} {value : V} {v : View L T}
  {msg : Message L T V}

theorem wf_start (value : L → V) (cell : X → A) : (start value cell : Memory L T V X A).Wf where
  nonempty l := List.cons_ne_nil _ _
  view_le t := fun _ => Nat.zero_le _
  message_le l msg hmsg := by
    obtain rfl := List.mem_singleton.1 hmsg
    exact fun _ => Nat.zero_le _
  position l i msg hmsg := by
    cases i with
    | zero =>
      obtain rfl := Option.some.inj hmsg
      rfl
    | succ i => cases hmsg

theorem Wf.length_eq (h : m.Wf) (l : L) : (m.history l).length = m.now (.inl l) + 1 := by
  have hpos := List.length_pos_iff.2 (h.nonempty l)
  simp only [now]
  omega

theorem Wf.le_now (h : m.Wf) (hmsg : (m.history l)[i]? = some msg) : i ≤ m.now (.inl l) := by
  have hlt := (List.getElem?_eq_some_iff.1 hmsg).1
  have hlen := h.length_eq l
  omega

/-- Only the messages and the views matter. -/
theorem Wf.congr (h : m.Wf) (hhistory : m'.history = m.history) (hview : m'.view = m.view) : m'.Wf := by
  cases m
  cases m'
  cases hhistory
  cases hview
  exact ⟨h.nonempty, h.view_le, h.message_le, h.position⟩

theorem now_congr (hhistory : m'.history = m.history) (hview : m'.view = m.view) : m'.now = m.now := by
  funext x
  cases x with
  | inl l => simp only [now, hhistory]
  | inr t => simp only [now, hview]

variable [DecidableEq T]

@[simp] theorem history_learn (m : Memory L T V X A) (t : T) (v : View L T) : (m.learn t v).history = m.history := rfl

@[simp] theorem view_learn_self (m : Memory L T V X A) (t : T) (v : View L T) :
    (m.learn t v).view t = m.view t ⊔ v := by
  simp [learn]

theorem view_learn_of_ne (m : Memory L T V X A) (v : View L T) (hne : u ≠ t) : (m.learn t v).view u = m.view u := by
  simp [learn, hne]

/-- Who learns nothing new keeps his view. -/
theorem learn_eq_self (h : v ≤ m.view t) : m.learn t v = m := by
  unfold learn
  rw [sup_eq_left.2 h, Function.update_eq_self]

/-- To learn does not change what there is to know. -/
theorem now_learn (hv : v ≤ m.now) : (m.learn t v).now = m.now := by
  funext x
  cases x with
  | inl l => rfl
  | inr u =>
    show (m.learn t v).view u (.inr u) = m.view u (.inr u)
    by_cases hu : u = t
    · subst hu
      rw [view_learn_self]
      exact sup_eq_left.2 (hv (.inr u))
    · rw [view_learn_of_ne m v hu]

theorem Wf.learn (h : m.Wf) (hv : v ≤ m.now) : (m.learn t v).Wf where
  nonempty := h.nonempty
  view_le u := by
    rw [now_learn hv]
    by_cases hu : u = t
    · subst hu
      rw [view_learn_self]
      exact sup_le (h.view_le u) hv
    · rw [view_learn_of_ne m v hu]
      exact h.view_le u
  message_le l msg hmsg := by
    rw [now_learn hv]
    exact h.message_le l msg hmsg
  position := h.position

variable [DecidableEq L]

theorem sup_only {x : L ⊕ T} (hn : v x ≤ n) : v ⊔ only x n = Function.update v x n := by
  funext y
  by_cases hy : y = x
  · subst hy
    simp [only, hn]
  · simp [only, hy]

theorem only_le {x : L ⊕ T} (hn : n ≤ v x) : only x n ≤ v := by
  intro y
  by_cases hy : y = x
  · subst hy
    simpa [only] using hn
  · simp [only, hy]

/-- What a load returns, and what it leaves behind. -/
theorem load_eq_some : m.load order t l i = some (value, m') ↔
    ∃ msg, (m.history l)[i]? = some msg ∧ m.view t (.inl l) ≤ i ∧ msg.value = value ∧
      m.learn t (gained order l i msg) = m' := by
  unfold load
  cases hmsg : (m.history l)[i]? with
  | none => simp
  | some msg =>
    by_cases hi : m.view t (.inl l) ≤ i
    · simp [hi]
    · simp [hi]

/-- The last message can be loaded. -/
theorem Wf.load_now (h : m.Wf) (order : LoadOrder) (t : T) (l : L) :
    ∃ r, m.load order t l (m.now (.inl l)) = some r := by
  have hlt : m.now (.inl l) < (m.history l).length := by
    rw [h.length_eq l]
    exact Nat.lt_succ_self _
  exact ⟨_, load_eq_some.2 ⟨_, List.getElem?_eq_getElem hlt, h.view_le t (.inl l), rfl, rfl⟩⟩

theorem view_tick_self (m : Memory L T V X A) (t : T) :
    (m.tick t).view t = Function.update (m.view t) (.inr t) (m.clock t) := by
  have hle : m.view t (.inr t) ≤ m.clock t := Nat.le_succ _
  rw [tick, view_learn_self, sup_only hle]

theorem view_tick_of_ne (m : Memory L T V X A) (hne : u ≠ t) : (m.tick t).view u = m.view u :=
  view_learn_of_ne m _ hne

/-- An access to a cell tells nothing about the locations. -/
theorem view_tick_inl (m : Memory L T V X A) (t u : T) (l : L) : (m.tick t).view u (.inl l) = m.view u (.inl l) := by
  by_cases hu : u = t
  · subst hu
    rw [view_tick_self, Function.update_of_ne (by simp)]
  · rw [view_tick_of_ne m hu]

theorem now_tick (m : Memory L T V X A) (t : T) : (m.tick t).now = Function.update m.now (.inr t) (m.clock t) := by
  funext x
  cases x with
  | inl l => rfl
  | inr u =>
    show (m.tick t).view u (.inr u) = _
    by_cases hu : u = t
    · subst hu
      simp [view_tick_self]
    · rw [view_tick_of_ne m hu, Function.update_of_ne (by simpa using hu)]
      rfl

theorem now_le_tick (m : Memory L T V X A) (t : T) : m.now ≤ (m.tick t).now := by
  rw [now_tick]
  intro x
  by_cases hx : x = .inr t
  · subst hx
    rw [Function.update_self]
    exact Nat.le_succ _
  · rw [Function.update_of_ne hx]

theorem Wf.tick (h : m.Wf) (t : T) : (m.tick t).Wf where
  nonempty := h.nonempty
  view_le u := by
    by_cases hu : u = t
    · subst hu
      rw [view_tick_self, now_tick]
      exact update_le_update_iff.2 ⟨Nat.le_refl _, fun x _ => h.view_le u x⟩
    · rw [view_tick_of_ne m hu]
      exact (h.view_le u).trans (now_le_tick m t)
  message_le l msg hmsg := (h.message_le l msg hmsg).trans (now_le_tick m t)
  position := h.position

theorem Wf.view_store_self (h : m.Wf) (order : StoreOrder) (t : T) (l : L) (value : V) :
    (m.store order t l value).view t = Function.update (m.view t) (.inl l) (m.now (.inl l) + 1) := by
  show (m.learn t _).view t = _
  rw [view_learn_self, h.length_eq l, sup_only (Nat.le_succ_of_le (h.view_le t (.inl l)))]

theorem view_store_of_ne (m : Memory L T V X A) (order : StoreOrder) (l : L) (value : V) (hne : u ≠ t) :
    (m.store order t l value).view u = m.view u := view_learn_of_ne m _ hne

theorem Wf.view_store_inl (h : m.Wf) (order : StoreOrder) (t u : T) {l k : L} (value : V) (hk : k ≠ l) :
    (m.store order t l value).view u (.inl k) = m.view u (.inl k) := by
  by_cases hu : u = t
  · subst hu
    rw [h.view_store_self, Function.update_of_ne (by simpa using hk)]
  · rw [view_store_of_ne m order l value hu]

theorem Wf.now_store (h : m.Wf) (order : StoreOrder) (t : T) (l : L) (value : V) :
    (m.store order t l value).now = Function.update m.now (.inl l) (m.now (.inl l) + 1) := by
  funext x
  cases x with
  | inl k =>
    by_cases hk : k = l
    · subst hk
      rw [Function.update_self]
      simp [now, store, Nat.sub_add_cancel (List.length_pos_iff.2 (h.nonempty k))]
    · rw [Function.update_of_ne (by simpa using hk)]
      simp [now, store, hk]
  | inr u =>
    rw [Function.update_of_ne (by simp)]
    show (m.store order t l value).view u (.inr u) = m.view u (.inr u)
    by_cases hu : u = t
    · subst hu
      rw [h.view_store_self, Function.update_of_ne (by simp)]
    · rw [view_store_of_ne m order l value hu]

theorem Wf.now_le_store (h : m.Wf) (order : StoreOrder) (t : T) (l : L) (value : V) :
    m.now ≤ (m.store order t l value).now := by
  rw [h.now_store]
  intro x
  by_cases hx : x = .inl l
  · subst hx
    rw [Function.update_self]
    exact Nat.le_succ _
  · rw [Function.update_of_ne hx]

/-- The messages of a location after a store. -/
theorem Wf.message_store (h : m.Wf) {order : StoreOrder} {value : V} {k : L}
    (hmsg : ((m.store order t l value).history k)[i]? = some msg) :
    (m.history k)[i]? = some msg ∨ k = l ∧ i = m.now (.inl l) + 1 ∧ msg = ⟨value, m.sent order t l⟩ := by
  by_cases hk : k = l
  · subst hk
    simp only [store, Function.update_self] at hmsg
    have hlen := h.length_eq k
    have hi := (List.getElem?_eq_some_iff.1 hmsg).1
    rw [List.length_append, List.length_singleton] at hi
    by_cases hlt : i < (m.history k).length
    · rw [List.getElem?_append_left hlt] at hmsg
      exact Or.inl hmsg
    · obtain rfl : i = (m.history k).length := by omega
      rw [List.getElem?_append_right (Nat.le_refl _), Nat.sub_self] at hmsg
      exact Or.inr ⟨rfl, hlen, (Option.some.inj hmsg).symm⟩
  · simp only [store, Function.update_of_ne hk] at hmsg
    exact Or.inl hmsg

theorem Wf.sent_le (h : m.Wf) (order : StoreOrder) (t : T) (l : L) (value : V) :
    m.sent order t l ≤ (m.store order t l value).now := by
  have honly : only (.inl l) (m.history l).length ≤ (m.store order t l value).now := by
    apply only_le
    rw [h.now_store, Function.update_self, h.length_eq l]
  cases order with
  | relaxed => exact honly
  | release => exact sup_le ((h.view_le t).trans (h.now_le_store .release t l value)) honly

theorem Wf.store (h : m.Wf) (order : StoreOrder) (t : T) (l : L) (value : V) : (m.store order t l value).Wf where
  nonempty k := by
    by_cases hk : k = l
    · subst hk
      simp [Memory.store]
    · simpa [Memory.store, hk] using h.nonempty k
  view_le u := by
    by_cases hu : u = t
    · subst hu
      rw [h.view_store_self, h.now_store]
      exact update_le_update_iff.2 ⟨Nat.le_refl _, fun x _ => h.view_le u x⟩
    · rw [view_store_of_ne m order l value hu]
      exact (h.view_le u).trans (h.now_le_store order t l value)
  message_le k msg hmsg := by
    obtain ⟨i, hi⟩ := List.mem_iff_getElem?.1 hmsg
    rcases h.message_store hi with hold | ⟨_, _, rfl⟩
    · exact (h.message_le k msg (List.mem_of_getElem? hold)).trans (h.now_le_store order t l value)
    · exact h.sent_le order t l value
  position k i msg hmsg := by
    rcases h.message_store hmsg with hold | ⟨rfl, rfl, rfl⟩
    · exact h.position k i msg hold
    · cases order with
      | relaxed => simp [sent, only, h.length_eq k]
      | release =>
        have hle : m.view t (.inl k) ≤ m.now (.inl k) + 1 := Nat.le_succ_of_le (h.view_le t (.inl k))
        simp only [sent, h.length_eq k, sup_only hle, Function.update_self]

/-! ### Data races -/

variable [DecidableEq X] [Fintype T] {x : X} {a : A}

theorem writeCell_eq_ok (h : m.writeCell t x a = .ok m') : m'.view = (m.tick t).view ∧ m'.written x t = m.clock t := by
  unfold writeCell at h
  split at h
  · cases h
    exact ⟨rfl, by simp⟩
  · cases h

theorem writeCell_eq_error {e : Stop} (h : m.writeCell t x a = .error e) : e = .undefined := by
  unfold writeCell at h
  split at h
  · cases h
  · cases h
    rfl

theorem cell_of_write (h : m.writeCell t x a = .ok m') : m'.cell = Function.update m.cell x a := by
  unfold writeCell at h
  split at h
  · cases h
    rfl
  · cases h

theorem cell_of_read {r : A × Memory L T V X A} (h : m.readCell t x = .ok r) : r.1 = m.cell x ∧ r.2.cell = m.cell := by
  unfold readCell at h
  split at h
  · cases h
    exact ⟨rfl, rfl⟩
  · cases h

/-- Who does not know of a write must not read. -/
theorem race_of_write (h : m.writeCell t x a = .ok m') (hne : u ≠ t) (hnew : m.view u (.inr t) < m.clock t) :
    m'.readCell u x = .error .undefined := by
  obtain ⟨hview, hwritten⟩ := writeCell_eq_ok h
  apply if_neg
  intro hprecedes
  have hle := hprecedes t
  rw [hwritten, hview, view_tick_of_ne m hne] at hle
  omega

end Wf

/-! ### Counters -/

/-- A view that knows as many stores to each location as accesses of its owner. -/
def Paired (owner : L → T) (v : View L T) : Prop := ∀ l, v (.inl l) = v (.inr (owner l))

/-- Every owner counts its accesses to cells in its location, whose messages are `value 0, value 1, …`; `pending` are
the accesses that are not counted yet. -/
structure Counters (owner : L → T) (value : Nat → V) (pending : T → Nat) (m : Memory L T V X A) : Prop where
  wf : m.Wf
  message : ∀ l i msg, (m.history l)[i]? = some msg → Message.value msg = value i ∧ Paired owner (Message.view msg)
  own : ∀ l, m.view (owner l) (.inl l) = m.now (.inl l)
  clock : ∀ l, m.view (owner l) (.inr (owner l)) = m.now (.inl l) + pending (owner l)
  other : ∀ l t, t ≠ owner l → m.view t (.inl l) = m.view t (.inr (owner l))

section Counters

variable {m m' : Memory L T V X A} {owner : L → T} {value : Nat → V} {pending : T → Nat} {t : T} {l : L} {i : Nat}
  {a : V} {v : View L T}

theorem counters_start (owner : L → T) (value : Nat → V) (cell : X → A) :
    (start (fun _ => value 0) cell : Memory L T V X A).Counters owner value (fun _ => 0) where
  wf := wf_start _ _
  message l i msg hmsg := by
    cases i with
    | zero =>
      obtain rfl := Option.some.inj hmsg
      exact ⟨rfl, fun _ => rfl⟩
    | succ i => cases hmsg
  own _ := rfl
  clock _ := rfl
  other _ _ _ := rfl

theorem Counters.congr (h : m.Counters owner value pending) (hhistory : m'.history = m.history)
    (hview : m'.view = m.view) : m'.Counters owner value pending where
  wf := h.wf.congr hhistory hview
  message := by
    rw [hhistory]
    exact h.message
  own := by
    rw [hview, now_congr hhistory hview]
    exact h.own
  clock := by
    rw [hview, now_congr hhistory hview]
    exact h.clock
  other := by
    rw [hview]
    exact h.other

variable [DecidableEq T]

/-- To learn what somebody else knows. -/
theorem Counters.learn (h : m.Counters owner value pending) (t : T) (hv : v ≤ m.now) (hpaired : Paired owner v) :
    (m.learn t v).Counters owner value pending where
  wf := h.wf.learn hv
  message := h.message
  own l := by
    rw [now_learn hv]
    by_cases ht : owner l = t
    · rw [← ht, view_learn_self, Pi.sup_apply, h.own]
      exact sup_eq_left.2 (hv (.inl l))
    · rw [view_learn_of_ne m v ht]
      exact h.own l
  clock l := by
    have hnow : (m.learn t v).view (owner l) (.inr (owner l)) = m.view (owner l) (.inr (owner l)) :=
      congrFun (now_learn hv) (.inr (owner l))
    rw [now_learn hv]
    exact hnow.trans (h.clock l)
  other l u hu := by
    by_cases ht : u = t
    · subst ht
      rw [view_learn_self, Pi.sup_apply, Pi.sup_apply, h.other l u hu, hpaired l]
    · rw [view_learn_of_ne m v ht]
      exact h.other l u hu

variable [DecidableEq L]

/-- An owner reads its own counter: it gets the last message, and learns nothing new. -/
theorem Counters.load_own (h : m.Counters owner value pending) (ht : owner l = t)
    (hload : m.load .relaxed t l i = some (a, m')) : a = value (m.now (.inl l)) ∧ m' = m := by
  subst ht
  obtain ⟨msg, hmsg, hle, rfl, rfl⟩ := load_eq_some.1 hload
  rw [h.own] at hle
  obtain rfl : i = m.now (.inl l) := Nat.le_antisymm (h.wf.le_now hmsg) hle
  exact ⟨(h.message l _ msg hmsg).1, learn_eq_self (only_le (Nat.le_of_eq (h.own l).symm))⟩

/-- Who reads a counter as `i` knows that the first `i` accesses of its owner happen before. -/
theorem Counters.load_acquire (h : m.Counters owner value pending) (hload : m.load .acquire t l i = some (a, m')) :
    ∃ v, m' = m.learn t v ∧ v ≤ m.now ∧ Paired owner v ∧ v (.inl l) = i ∧ m.view t (.inl l) ≤ i ∧ a = value i := by
  obtain ⟨msg, hmsg, hle, rfl, rfl⟩ := load_eq_some.1 hload
  obtain ⟨hvalue, hpaired⟩ := h.message l i msg hmsg
  exact ⟨msg.view, rfl, h.wf.message_le l msg (List.mem_of_getElem? hmsg), hpaired, h.wf.position l i msg hmsg, hle,
    hvalue⟩

/-- An access to a cell that is still to be counted. -/
theorem Counters.tick (h : m.Counters owner value pending) (t : T) :
    (m.tick t).Counters owner value (Function.update pending t (pending t + 1)) where
  wf := h.wf.tick t
  message := h.message
  own l := by
    rw [now_tick, Function.update_of_ne (by simp)]
    by_cases ht : owner l = t
    · rw [← ht, view_tick_self, Function.update_of_ne (by simp)]
      exact h.own l
    · rw [view_tick_of_ne m ht]
      exact h.own l
  clock l := by
    rw [now_tick, Function.update_of_ne (by simp)]
    by_cases ht : owner l = t
    · rw [← ht, view_tick_self, Function.update_self, Function.update_self, Memory.clock, h.clock, Nat.add_assoc]
    · rw [view_tick_of_ne m ht, Function.update_of_ne ht]
      exact h.clock l
  other l u hu := by
    by_cases ht : u = t
    · subst ht
      rw [view_tick_self, Function.update_of_ne (by simp), Function.update_of_ne (by simpa using hu.symm)]
      exact h.other l u hu
    · rw [view_tick_of_ne m ht]
      exact h.other l u hu

/-- The owner counts its access. -/
theorem Counters.publish (h : m.Counters owner value pending) (howner : Function.Injective owner)
    (ht : owner l = t) (hpending : pending t = 1) (ha : a = value (m.now (.inl l) + 1)) :
    (m.store .release t l a).Counters owner value (Function.update pending t 0) := by
  subst ht ha
  refine ⟨h.wf.store _ _ _ _, fun k i msg hmsg => ?_, fun k => ?_, fun k => ?_, fun k u hu => ?_⟩
  · -- the new message knows the access that it counts
    rcases h.wf.message_store hmsg with hold | ⟨rfl, rfl, rfl⟩
    · exact h.message k i msg hold
    · refine ⟨rfl, fun k' => ?_⟩
      have hle : m.view (owner k) (.inl k) ≤ m.now (.inl k) + 1 := by
        rw [h.own]
        exact Nat.le_succ _
      simp only [sent, h.wf.length_eq k, sup_only hle]
      rw [Function.update_of_ne (show Sum.inr (owner k') ≠ Sum.inl k by simp)]
      by_cases hk : k' = k
      · subst hk
        rw [Function.update_self, h.clock, hpending]
      · rw [Function.update_of_ne (by simpa using hk)]
        exact h.other k' _ fun e => hk (howner e).symm
  · rw [h.wf.now_store]
    by_cases hk : k = l
    · subst hk
      rw [h.wf.view_store_self, Function.update_self, Function.update_self]
    · rw [view_store_of_ne m _ _ _ (howner.ne hk), Function.update_of_ne (by simpa using hk)]
      exact h.own k
  · rw [h.wf.now_store]
    by_cases hk : k = l
    · subst hk
      rw [h.wf.view_store_self, Function.update_of_ne (by simp), Function.update_self, Function.update_self, h.clock,
        hpending]
    · rw [view_store_of_ne m _ _ _ (howner.ne hk), Function.update_of_ne (by simpa using hk),
        Function.update_of_ne (howner.ne hk)]
      exact h.clock k
  · by_cases ht : u = owner l
    · subst ht
      have hk : k ≠ l := fun e => hu (e ▸ rfl)
      rw [h.wf.view_store_self, Function.update_of_ne (by simpa using hk), Function.update_of_ne (by simp)]
      exact h.other k _ hu
    · rw [view_store_of_ne m _ _ _ ht]
      exact h.other k u hu

end Counters

end Memory

end ReleaseAcquire
