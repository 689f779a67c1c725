import QbitNova.Language.CompilerCorrect
import QbitNova.Language.RoundTrip

/-! # The interpreter that runs the tree

The second runner of the language walks the tree itself. It has the tables of the
byte VM under the same names, but neither tests whether they are full nor whether a
name fits its field: writing outside of them is a fault. A qbit that is declared again
is entered again, behind the first. Variables are records of a name and a value, as in
the byte VM.
-/
namespace QbitNova.Interpreter
open CText
open QbitNova.Language hiding execute step

def maxVars : ℕ := 64
def maxQbits : ℕ := 32
def nameBytes : ℕ := 64

structure Qbit (D : Type) where
  name : Bytes
  a : D
  b : D
  measured : Bool
  result : ℤ

structure Interp (D : Type) where
  vars : List (VMVar D)
  qbits : List (Qbit D)
  draws : ℕ
  output : Bytes

inductive RunFault where
  | varsFull
  | qbitsFull
  | nameTooLong
  | nullPointer
  deriving DecidableEq, Repr

def Node.type? : Node → Option NodeType
  | .null => none
  | .node type _ _ _ _ _ => some type

/-- Read the value of a node that must not be null. -/
def valueOf (n : Node) : Except RunFault Bytes :=
  match n.value? with
  | some value => .ok value
  | none => .error .nullPointer

namespace Interp
variable {D : Type}

def print (s : Interp D) (text : Bytes) : Interp D := { s with output := s.output ++ text }

def findVar (s : Interp D) (name : Bytes) : Option ℕ := s.vars.findIdx? (fun v => v.name == name)

/-- The index of the first qbit of a name. -/
def getQbit (s : Interp D) (name : Bytes) : Option ℕ := s.qbits.findIdx? (fun q => q.name == name)

def setVar (s : Interp D) (name : Bytes) (value : D) : Except RunFault (Interp D) :=
  match s.findVar name with
  | some v => .ok { s with vars := s.vars.modify v (fun entry => { entry with value := value }) }
  | none =>
    if s.vars.length ≥ maxVars then .error .varsFull
    else if name.length ≥ nameBytes then .error .nameTooLong
    else .ok { s with vars := s.vars ++ [⟨name, value⟩] }

variable [Doubles D]
open Doubles Scalars

/-- A variable that was never set reads as zero. -/
def getVar (s : Interp D) (name : Bytes) : D :=
  match (s.findVar name).bind (s.vars[·]?) with
  | some v => v.value
  | none => ofInt 0

/-- A state that is none of the four literals leaves the cleared amplitudes. -/
def createQbit (s : Interp D) (name state : Bytes) : Except RunFault (Interp D) :=
  if name.length ≥ nameBytes then .error .nameTooLong
  else if s.qbits.length ≥ maxQbits then .error .qbitsFull
  else
    let amplitudes := (VM.stateOf state).getD (ofInt 0, ofInt 0)
    .ok { s with qbits := s.qbits ++ [⟨name, amplitudes.1, amplitudes.2, false, 0⟩] }

def hadamard (entry : Qbit D) : Qbit D :=
  { entry with
    a := div (add entry.a entry.b) (sqrt (ofInt 2))
    b := div (sub entry.a entry.b) (sqrt (ofInt 2))
    measured := false }

def measure (draw : ℤ) (entry : Qbit D) : Qbit D :=
  let result := if lt (mul entry.a entry.a) (div (ofInt draw) (ofInt randMax)) then 1 else 0
  { entry with
    result := result
    measured := true
    a := if result = 0 then ofInt 1 else ofInt 0
    b := if result = 0 then ofInt 0 else ofInt 1 }

def printQbit (s : Interp D) (q : Qbit D) : Interp D :=
  if q.measured then s.print (str "|" ++ decimal q.result ++ str ">\n")
  else s.print (str "|0>=" ++ formatFixed3 q.a ++ str " |1>=" ++ formatFixed3 q.b ++ str "\n")

/-- A qbit is printed before anything else is considered. -/
def say (s : Interp D) (left : Node) : Except RunFault (Interp D) := do
  let text ← valueOf left
  match (s.getQbit text).bind (s.qbits[·]?) with
  | some q => .ok (s.printQbit q)
  | none =>
    if Node.type? left = some .string then .ok (s.print (text ++ str "\n"))
    else .ok (s.print (formatG (s.getVar text) ++ str "\n"))

def evalExpr (s : Interp D) : Node → Except RunFault Bool
  | .null => .error .nullPointer
  | .node type operator left right _ _ =>
    if type = .binop then do
      let name ← valueOf left
      let number ← valueOf right
      .ok ((VM.compare operator (s.getVar name) (atof number)).getD false)
    else .ok false

/-- A gate on a named qbit; without one nothing happens. -/
def onQbit (s : Interp D) (name : Bytes) (gate : Interp D → ℕ → Interp D) : Interp D :=
  match s.getQbit name with
  | some q => gate s q
  | none => s

end Interp

/-- The same run again and again, until one of them faults. -/
def rounds {σ ε : Type} (run : σ → Except ε σ) : ℕ → σ → Except ε σ
  | 0, s => .ok s
  | n + 1, s => run s >>= rounds run n

section
variable {D : Type} [Doubles D] (rand : ℕ → ℤ)
open Doubles

/-- One statement, with the run of its body. -/
def statement (body : Interp D → Except RunFault (Interp D)) (type : NodeType) (value : Bytes) (left : Node)
    (s : Interp D) : Except RunFault (Interp D) :=
  match type with
  | .say => s.say left
  | .letBinding => do s.setVar value (atof (← valueOf left))
  | .qbit => do s.createQbit value (← valueOf left)
  | .hadamard => .ok (s.onQbit value fun s q => { s with qbits := s.qbits.modify q Interp.hadamard })
  | .measure => .ok (s.onQbit value fun s q =>
      { s with draws := s.draws + 1, qbits := s.qbits.modify q (Interp.measure (rand s.draws)) })
  | .check => do if ← s.evalExpr left then body s else .ok s
  | .repeatLoop => rounds body (atoi value).toNat s
  | .block => body s
  | _ => .ok s

def execute : Node → Interp D → Except RunFault (Interp D)
  | .null, s => .ok s
  | .node type value left _ body next, s => do
    let s ← statement rand (execute body) type value left s
    execute next s

/-- A property of every statement in the state in which it is executed. -/
def Along (P : NodeType → Bytes → Node → Interp D → Prop) : Node → Interp D → Prop
  | .null, _ => True
  | .node type value left _ body next, s =>
    (P type value left s ∧ match type with
      | .check => s.evalExpr left = .ok true → Along P body s
      | .repeatLoop => ∀ i < (atoi value).toNat, ∀ t, rounds (execute rand body) i s = .ok t → Along P body t
      | .block => Along P body s
      | _ => True) ∧
    ∀ t, statement rand (execute rand body) type value left s = .ok t → Along P next t

/-- The same along the structured run of the byte VM. -/
def AlongVM (P : NodeType → Bytes → Node → VM D → Prop) : Node → Session D → Prop
  | .null, _ => True
  | .node type value left right body next, s =>
    (P type value left s.vm ∧ match type with
      | .check =>
        let condition := conditionOf left
        (s.vm.evalCheck condition.1 condition.2.1 condition.2.2).1 = true →
          AlongVM P body (s.perform rand (.check condition.1 condition.2.1 condition.2.2))
      | .repeatLoop => ∀ i < (atoi value).toNat, AlongVM P body ((exec rand body)^[i] s)
      | .block => AlongVM P body s
      | _ => True) ∧
    AlongVM P next (exec rand (.node type value left right body .null) s)

end

/-- The interpreter starts with empty tables. -/
def start (D : Type) : Interp D := ⟨[], [], 0, []⟩

end QbitNova.Interpreter
