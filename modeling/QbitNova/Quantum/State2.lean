import QbitNova.Library.Doubles
import Mathlib.Data.Fin.VecNotation

/-! # The two-qubit engine

Four amplitudes and the two gates the engine has: H on the first qubit and CNOT from
the first to the second.
-/
namespace QbitNova.State2
open Scalars Doubles CText

/-- The entries belong to |00>, |01>, |10> and |11>. -/
structure QState2 (D : Type) where
  amp : Fin 4 → D
  measured : Bool
  result : ℕ

section
variable {D : Type} [Scalars D]

def qstate2Init00 : QState2 D := ⟨![ofInt 1, ofInt 0, ofInt 0, ofInt 0], false, 0⟩

def qstate2HFirst (s : QState2 D) : QState2 D :=
  { s with
    amp := ![div (add (s.amp 0) (s.amp 2)) (sqrt (ofInt 2)), div (add (s.amp 1) (s.amp 3)) (sqrt (ofInt 2)),
      div (sub (s.amp 0) (s.amp 2)) (sqrt (ofInt 2)), div (sub (s.amp 1) (s.amp 3)) (sqrt (ofInt 2))]
    measured := false }

def qstate2CnotFirstToSecond (s : QState2 D) : QState2 D :=
  { s with
    amp := ![s.amp 0, s.amp 1, s.amp 3, s.amp 2]
    measured := false }

/-- The entry at which the running sum reaches a number; the last one if none does. -/
def pickLoop (amp : Fin 4 → D) (r : D) : List (Fin 4) → D → Fin 4
  | [], _ => 3
  | i :: rest, acc =>
    let acc := add acc (mul (amp i) (amp i))
    if le r acc then i else pickLoop amp r rest acc

def qstate2Measure (draw : ℤ) (s : QState2 D) : ℕ × QState2 D :=
  let picked := pickLoop s.amp (div (ofInt draw) (ofInt randMax)) [0, 1, 2, 3] (ofInt 0)
  (picked, ⟨fun i => if i = picked then ofInt 1 else ofInt 0, true, picked⟩)

end

variable {D : Type} [Doubles D]

/-- What printing a state writes. -/
def qstate2Print (s : QState2 D) : Bytes :=
  if s.measured then
    ([str "|00>", str "|01>", str "|10>", str "|11>"][s.result]?).getD [] ++ str "\n"
  else
    str "|00>=" ++ formatFixed3 (s.amp 0) ++ str " |01>=" ++ formatFixed3 (s.amp 1) ++
      str " |10>=" ++ formatFixed3 (s.amp 2) ++ str " |11>=" ++ formatFixed3 (s.amp 3) ++ str "\n"

end QbitNova.State2
