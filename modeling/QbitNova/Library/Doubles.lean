import QbitNova.Library.CText

/-! # Double precision as a parameter

The operations on `double` that programs use, with the conversions from and to text.
Nothing is assumed of them, so that a statement over every instance covers binary64
with any rounding as well as exact arithmetic.
-/
open CText

/-- The arithmetic of `double`. -/
class Scalars (D : Type) where
  ofInt : ℤ → D
  add : D → D → D
  sub : D → D → D
  mul : D → D → D
  div : D → D → D
  sqrt : D → D
  fabs : D → D
  lt : D → D → Bool
  le : D → D → Bool
  eq : D → D → Bool
  isFinite : D → Bool

/-- `RAND_MAX`, by which a draw is divided. -/
def Scalars.randMax : ℤ := 2147483647

/-- The arithmetic together with reading and printing. -/
class Doubles (D : Type) extends Scalars D where
  atof : Bytes → D
  formatG : D → Bytes
  formatFixed3 : D → Bytes
