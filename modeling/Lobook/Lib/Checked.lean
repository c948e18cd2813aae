import Mathlib.Logic.Function.Basic

/-!
# Checked computations

Programs that index arrays and loop without a bound may have no result.  `Exec α` is the result, or the reason
why there is none; `Vec` is an array whose length is fixed at run time and `Table n` one of length `n`, both with
checked accesses.  `Sat E m Q` is the partial-correctness judgement of the library: `m` returns a value
satisfying `Q`, or stops for a reason that `E` admits.  With `E` everywhere true it ignores failures; with `E`
excluding `outOfRange` it also says that every access is within bounds.
-/

namespace Checked

/-- Why a computation has no result: an index outside its array, another operation without a meaning (a bit scan
of zero, a signed overflow), or a loop cut off by its fuel. -/
inductive Stop where
  | outOfRange
  | undefined
  | outOfFuel
  deriving DecidableEq, Repr

abbrev Exec (α : Type) := Except Stop α

variable {α β : Type}

@[simp] theorem ok_bind (a : α) (f : α → Exec β) : ((.ok a : Exec α) >>= f) = f a := rfl

@[simp] theorem error_bind (e : Stop) (f : α → Exec β) : ((.error e : Exec α) >>= f) = .error e := rfl

@[simp] theorem pure_eq_ok (a : α) : (pure a : Exec α) = .ok a := rfl

/-- A computation with a result is a sequence of computations with results. -/
theorem bind_eq_ok {m : Exec α} {f : α → Exec β} {b : β} :
    (m >>= f) = .ok b ↔ ∃ a, m = .ok a ∧ f a = .ok b := by
  cases m with
  | error e => simp
  | ok a => simp

/-- The result, or `d` where there is none. -/
def value (m : Exec α) (d : α) : α :=
  match m with
  | .ok a => a
  | .error _ => d

theorem eq_ok_value {m : Exec α} (d : α) (h : m.isOk = true) : m = .ok (value m d) := by
  cases m with
  | error e => cases h
  | ok a => rfl

/-- The reason why there is no result. -/
def stop (m : Exec α) : Option Stop :=
  match m with
  | .ok _ => none
  | .error e => some e

theorem eq_error_of_stop {m : Exec α} {e : Stop} (h : stop m = some e) : m = .error e := by
  cases m with
  | error e' => exact congrArg _ (Option.some.inj h)
  | ok a => cases h

/-! ### The judgement -/

/-- `m` returns a value satisfying `Q`, or stops for a reason that `E` admits. -/
def Sat (E : Stop → Prop) (m : Exec α) (Q : α → Prop) : Prop :=
  match m with
  | .ok a => Q a
  | .error e => E e

section Sat

variable {E : Stop → Prop} {m : Exec α} {Q : α → Prop}

@[simp] theorem sat_ok {a : α} : Sat E (.ok a) Q ↔ Q a := Iff.rfl

@[simp] theorem sat_error {e : Stop} : Sat E (.error e : Exec α) Q ↔ E e := Iff.rfl

theorem Sat.bind {f : α → Exec β} {R : β → Prop} (hm : Sat E m Q) (hf : ∀ a, Q a → Sat E (f a) R) :
    Sat E (m >>= f) R := by
  cases m with
  | error e => exact hm
  | ok a => exact hf a hm

theorem Sat.mono {Q' : α → Prop} (hm : Sat E m Q) (h : ∀ a, Q a → Q' a) : Sat E m Q' := by
  cases m with
  | error e => exact hm
  | ok a => exact h a hm

/-- What a judgement says about a computation with a result. -/
theorem Sat.of_ok {a : α} (hm : Sat E m Q) (h : m = .ok a) : Q a := by
  subst h; exact hm

/-- What a judgement says about a computation without one. -/
theorem Sat.of_error {e : Stop} (hm : Sat E m Q) (h : m = .error e) : E e := by
  subst h; exact hm

/-- A judgement about an operation with a known result. -/
theorem Sat.ok_of {a : α} (h : m = .ok a) (ha : Q a) : Sat E m Q := by
  subst h; exact ha

/-- A judgement that admits every failure is about results only. -/
theorem sat_true_iff : Sat (fun _ => True) m Q ↔ ∀ a, m = .ok a → Q a := by
  cases m with
  | error e => simp
  | ok a => simp

end Sat

/-! ### Arrays -/

/-- An array of `n` cells.  The cells from `n` on are never accessed. -/
structure Table (n : Nat) (α : Type) where
  cell : Nat → α

/-- An array whose length is fixed at run time. -/
structure Vec (α : Type) where
  size : Nat
  cell : Nat → α

def Table.get {n : Nat} (t : Table n α) (i : Nat) : Exec α :=
  if i < n then .ok (t.cell i) else .error .outOfRange

def Table.set {n : Nat} (t : Table n α) (i : Nat) (a : α) : Exec (Table n α) :=
  if i < n then .ok ⟨Function.update t.cell i a⟩ else .error .outOfRange

def Vec.get (v : Vec α) (i : Nat) : Exec α :=
  if i < v.size then .ok (v.cell i) else .error .outOfRange

def Vec.set (v : Vec α) (i : Nat) (a : α) : Exec (Vec α) :=
  if i < v.size then .ok ⟨v.size, Function.update v.cell i a⟩ else .error .outOfRange

/-- Updates the cell at `i` in place. -/
def Vec.modify (v : Vec α) (i : Nat) (f : α → α) : Exec (Vec α) :=
  if i < v.size then .ok ⟨v.size, Function.update v.cell i (f (v.cell i))⟩ else .error .outOfRange

/-- Changes the length; cells that are new hold `d`. -/
def Vec.resize (v : Vec α) (n : Nat) (d : α) : Vec α :=
  ⟨n, fun i => if i < n ∧ i < v.size then v.cell i else d⟩

section Arrays

variable {n i : Nat} {t : Table n α} {v : Vec α} {E : Stop → Prop}

theorem Table.get_of_lt (h : i < n) : t.get i = .ok (t.cell i) := if_pos h

theorem Table.set_of_lt {a : α} (h : i < n) : t.set i a = .ok ⟨Function.update t.cell i a⟩ := if_pos h

theorem Vec.get_of_lt (h : i < v.size) : v.get i = .ok (v.cell i) := if_pos h

theorem Vec.set_of_lt {a : α} (h : i < v.size) : v.set i a = .ok ⟨v.size, Function.update v.cell i a⟩ := if_pos h

theorem Vec.modify_of_lt {f : α → α} (h : i < v.size) :
    v.modify i f = .ok ⟨v.size, Function.update v.cell i (f (v.cell i))⟩ := if_pos h

/-! An access fails in one way only. -/

theorem Table.get_sat : Sat (· = .outOfRange) (t.get i) fun _ => True := by
  unfold Table.get
  split
  · trivial
  · rfl

theorem Table.set_sat {a : α} : Sat (· = .outOfRange) (t.set i a) fun _ => True := by
  unfold Table.set
  split
  · trivial
  · rfl

theorem Vec.get_sat : Sat (· = .outOfRange) (v.get i) fun _ => True := by
  unfold Vec.get
  split
  · trivial
  · rfl

theorem Vec.set_sat {a : α} : Sat (· = .outOfRange) (v.set i a) fun _ => True := by
  unfold Vec.set
  split
  · trivial
  · rfl

theorem Vec.modify_sat {f : α → α} : Sat (· = .outOfRange) (v.modify i f) fun _ => True := by
  unfold Vec.modify
  split
  · trivial
  · rfl

end Arrays

end Checked
