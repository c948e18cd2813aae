import Mathlib.Data.List.TakeWhile

/-!
# Decimal numbers in text

What the functions of the C library read as a number in base 10: white space, a sign, and then as many digits as there
are.  `scan` reads exactly the texts that begin with these parts (`scan_eq_some_iff`), and reads back a number that is
written in digits (`scan_toDigits`).
-/

namespace Lobook

namespace Decimal

/-- `isspace` in the C locale. -/
def isSpace (c : Char) : Bool := c = ' ' ∨ 9 ≤ c.toNat ∧ c.toNat ≤ 13

def isSign (c : Char) : Bool := c = '+' ∨ c = '-'

/-- What has been read, and the text behind it. -/
structure Reading where
  negative : Bool
  magnitude : Nat
  rest : List Char
  deriving DecidableEq

/-- Takes a sign off, if there is one. -/
def unsigned : List Char → List Char
  | c :: s => if isSign c then s else c :: s
  | [] => []

def scan (s : List Char) : Option Reading :=
  let text := s.dropWhile isSpace
  let digits := (unsigned text).takeWhile Char.isDigit
  if digits = [] then none
  else some ⟨text.head? = some '-', Nat.ofDigitChars 10 digits 0, (unsigned text).dropWhile Char.isDigit⟩

variable {c : Char} {s : List Char}

theorem isDigit_iff : c.isDigit = true ↔ 48 ≤ c.toNat ∧ c.toNat ≤ 57 := by
  rw [Char.isDigit, Bool.and_eq_true, decide_eq_true_eq, decide_eq_true_eq, ge_iff_le, UInt32.le_iff_toNat_le,
    UInt32.le_iff_toNat_le]
  rfl

theorem not_digit_of_space (h : isSpace c = true) : c.isDigit = false := by
  simp only [isSpace, decide_eq_true_eq] at h
  rw [Bool.eq_false_iff, ne_eq, isDigit_iff]
  rcases h with rfl | h
  · decide
  · omega

theorem not_digit_of_sign (h : isSign c = true) : c.isDigit = false := by
  simp only [isSign, decide_eq_true_eq] at h
  rcases h with rfl | rfl <;> decide

theorem not_space_of_digit (h : c.isDigit = true) : isSpace c = false := by
  rw [Bool.eq_false_iff]
  intro hspace
  rw [not_digit_of_space hspace] at h
  cases h

theorem not_sign_of_digit (h : c.isDigit = true) : isSign c = false := by
  rw [Bool.eq_false_iff]
  intro hsign
  rw [not_digit_of_sign hsign] at h
  cases h

/-- The text behind a number does not go on with a digit. -/
def Ends (s : List Char) : Prop := ∀ c ∈ s.head?, c.isDigit = false

theorem takeWhile_digits {digits rest : List Char} (hdigits : ∀ c ∈ digits, c.isDigit = true) (hrest : Ends rest) :
    (digits ++ rest).takeWhile Char.isDigit = digits ∧ (digits ++ rest).dropWhile Char.isDigit = rest := by
  rw [List.takeWhile_append_of_pos hdigits, List.dropWhile_append_of_pos hdigits]
  cases rest with
  | nil => simp
  | cons c rest =>
    have hc : c.isDigit = false := hrest c rfl
    simp [hc]

/-- A number as it may be written: white space, a sign, and digits. -/
structure Written (s : List Char) (r : Reading) (spaces sign digits : List Char) : Prop where
  text : s = spaces ++ (sign ++ (digits ++ r.rest))
  blank : ∀ c ∈ spaces, isSpace c = true
  one : sign = [] ∨ sign = ['+'] ∨ sign = ['-']
  negative : r.negative = decide (sign = ['-'])
  decimal : ∀ c ∈ digits, c.isDigit = true
  nonempty : digits ≠ []
  magnitude : r.magnitude = Nat.ofDigitChars 10 digits 0
  ends : Ends r.rest

theorem scan_of_written {r : Reading} {spaces sign digits : List Char} (h : Written s r spaces sign digits) :
    scan s = some r := by
  obtain ⟨c, l, hcons⟩ := List.exists_cons_of_ne_nil h.nonempty
  have hc : c.isDigit = true := h.decimal c (by rw [hcons]; exact List.mem_cons_self)
  obtain ⟨htake, hdrop⟩ := takeWhile_digits h.decimal h.ends
  -- the white space ends at the sign or at the first digit
  have hspaces : s.dropWhile isSpace = sign ++ (digits ++ r.rest) := by
    rw [h.text, List.dropWhile_append_of_pos h.blank]
    rcases h.one with hs | hs | hs
    · rw [hs, List.nil_append, hcons, List.cons_append, List.dropWhile_cons_of_neg]
      simp [not_space_of_digit hc]
    · rw [hs]
      rfl
    · rw [hs]
      rfl
  have hunsigned : unsigned (sign ++ (digits ++ r.rest)) = digits ++ r.rest := by
    rcases h.one with hs | hs | hs
    · rw [hs, List.nil_append, hcons]
      simp [unsigned, not_sign_of_digit hc]
    · rw [hs]
      rfl
    · rw [hs]
      rfl
  have hnegative : decide ((sign ++ (digits ++ r.rest)).head? = some '-') = r.negative := by
    rw [h.negative]
    rcases h.one with hs | hs | hs
    · rw [hs, List.nil_append, hcons, List.cons_append, List.head?_cons]
      have hne : c ≠ '-' := by
        rintro rfl
        exact absurd hc (by decide)
      simp [hne]
    · rw [hs]
      rfl
    · rw [hs]
      rfl
  simp only [scan, hspaces, hunsigned, htake, hdrop, if_neg h.nonempty, hnegative, ← h.magnitude]

theorem written_of_scan {r : Reading} (h : scan s = some r) : ∃ spaces sign digits, Written s r spaces sign digits := by
  unfold scan at h
  simp only at h
  split at h
  · cases h
  · rename_i hne
    cases h
    generalize htext : s.dropWhile isSpace = text at hne ⊢
    have hsplit : s = s.takeWhile isSpace ++ text := by rw [← htext, List.takeWhile_append_dropWhile]
    have hspaces : ∀ c ∈ s.takeWhile isSpace, isSpace c = true := fun c hc => List.mem_takeWhile_imp hc
    have hdigits : ∀ c ∈ (unsigned text).takeWhile Char.isDigit, c.isDigit = true :=
      fun c hc => List.mem_takeWhile_imp hc
    have hends : Ends ((unsigned text).dropWhile Char.isDigit) := by
      intro c hc
      have hnot := List.head?_dropWhile_not Char.isDigit (unsigned text)
      rwa [Option.mem_def.1 hc] at hnot
    have hparts : (unsigned text).takeWhile Char.isDigit ++ (unsigned text).dropWhile Char.isDigit = unsigned text :=
      List.takeWhile_append_dropWhile
    cases text with
    | nil => exact absurd rfl hne
    | cons c text =>
      by_cases hsign : isSign c = true
      · refine ⟨s.takeWhile isSpace, [c], _, ⟨?_, hspaces, ?_, ?_, hdigits, hne, rfl, hends⟩⟩
        · rw [hparts, unsigned, if_pos hsign]
          exact hsplit
        · simp only [isSign, decide_eq_true_eq] at hsign
          rcases hsign with rfl | rfl <;> simp
        · simp
      · refine ⟨s.takeWhile isSpace, [], _, ⟨?_, hspaces, Or.inl rfl, ?_, hdigits, hne, rfl, hends⟩⟩
        · rw [hparts, unsigned, if_neg hsign]
          exact hsplit
        · have hc : c ≠ '-' := by
            rintro rfl
            exact hsign (by decide)
          simp [hc]

/-- `scan` reads exactly the numbers that are written. -/
theorem scan_eq_some_iff {r : Reading} : scan s = some r ↔ ∃ spaces sign digits, Written s r spaces sign digits :=
  ⟨written_of_scan, fun ⟨_, _, _, h⟩ => scan_of_written h⟩

/-- A number written in digits is read back. -/
theorem scan_toDigits (n : Nat) {rest : List Char} (hrest : Ends rest) :
    scan (Nat.toDigits 10 n ++ rest) = some ⟨false, n, rest⟩ := by
  refine scan_of_written (?_ : Written _ _ [] [] (Nat.toDigits 10 n))
  constructor
  · rfl
  · simp
  · exact Or.inl rfl
  · rfl
  · exact fun c hc => Nat.isDigit_of_mem_toDigits (by decide) (by decide) hc
  · exact List.ne_nil_of_length_pos Nat.length_toDigits_pos
  · exact Nat.ofDigitChars_ten_toDigits.symm
  · exact hrest

end Decimal

end Lobook
