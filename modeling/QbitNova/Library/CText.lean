import Mathlib.Algebra.Order.Ring.Int

/-! # C character strings

A string is the list of its bytes before the terminating NUL. Character classes
are those of the "C" locale; `atoi` is the library's conversion through a
saturating `long`, narrowed to 32 bits.
-/
namespace CText

abbrev Bytes := List UInt8

/-- The bytes of an ASCII literal. -/
def str (s : String) : Bytes := s.toList.map Char.toUInt8

/-- A text as C reads it, up to its NUL. -/
def cText (text : Bytes) : Bytes := text.takeWhile (· != 0)

def isspace (c : UInt8) : Bool := c == 32 || (9 ≤ c && c ≤ 13)
def isdigit (c : UInt8) : Bool := 48 ≤ c && c ≤ 57
def isalpha (c : UInt8) : Bool := (65 ≤ c && c ≤ 90) || (97 ≤ c && c ≤ 122)
def isalnum (c : UInt8) : Bool := isalpha c || isdigit c

theorem isspace_bounds {c : UInt8} (h : isspace c = true) : c.toNat ≤ 32 := by
  unfold isspace at h
  simp only [Bool.or_eq_true,beq_iff_eq,Bool.and_eq_true,decide_eq_true_eq,UInt8.le_iff_toNat_le] at h
  rcases h with rfl | h
  · decide
  · have hle : c.toNat ≤ 13 := h.2
    omega

theorem isalpha_bounds {c : UInt8} (h : isalpha c = true) : 65 ≤ c.toNat := by
  unfold isalpha at h
  simp only [Bool.or_eq_true,Bool.and_eq_true,decide_eq_true_eq,UInt8.le_iff_toNat_le] at h
  rcases h with h | h
  · exact h.1
  · have hle : 97 ≤ c.toNat := h.1
    omega

theorem isdigit_bounds {c : UInt8} (h : isdigit c = true) : 48 ≤ c.toNat ∧ c.toNat ≤ 57 := by
  unfold isdigit at h
  simp only [Bool.and_eq_true,decide_eq_true_eq,UInt8.le_iff_toNat_le] at h
  exact h

theorem isdigit_of_isspace {c : UInt8} (h : isspace c = true) : isdigit c = false := by
  have hs := isspace_bounds h
  by_contra hd
  have hd := isdigit_bounds (by simpa using hd)
  omega

theorem isalpha_of_isspace {c : UInt8} (h : isspace c = true) : isalpha c = false := by
  have hs := isspace_bounds h
  by_contra ha
  have ha := isalpha_bounds (by simpa using ha)
  omega

theorem ne_of_isspace {c d : UInt8} (h : isspace c = true) (hd : 32 < d.toNat) : c ≠ d := by
  have hs := isspace_bounds h
  rintro rfl
  omega

/-- The value of the leading decimal digits. -/
def digitsValue (s : Bytes) : ℕ := (s.takeWhile isdigit).foldl (fun n c => 10 * n + (c.toNat - 48)) 0

/-- An optional sign and what follows it. -/
def sign : Bytes → Bool × Bytes
  | 45 :: rest => (true, rest)
  | 43 :: rest => (false, rest)
  | s => (false, s)

def strtol (s : Bytes) : ℤ :=
  let signed := sign (s.dropWhile isspace)
  if signed.1 then max (-2^63) (-(digitsValue signed.2 : ℤ)) else min (2^63 - 1) (digitsValue signed.2)

def atoi (s : Bytes) : ℤ := (strtol s).bmod (2^32)

example : atoi (str " -12x") = -12 := by decide
example : atoi (str "99999999999999999999") = -1 := by decide

end CText
