import QbitNova.Quantum.Kernel
import QbitNova.Language.VM

/-! # The circuit VM

A circuit file is read line by line into a table of operations, which is then either
run on an array of amplitudes or printed as OpenQASM. Counts and operands are the
`int`s of the source. A shift by a negative amount and an access outside of the array
have no meaning in C: they stop the model with an outcome of their own, while `fail` is
the orderly exit with a message.
-/
namespace QbitNova.CircuitVM
open CText Sweep Scalars Quantum QbitNova.Language

def maxQubits : ℤ := 16
def maxOps : ℕ := 4096

inductive OpName where
  | h | x | y | z | s | t | cx | swap
  deriving DecidableEq, Repr

structure Op where
  op : OpName
  a : ℤ
  b : ℤ
  deriving DecidableEq, Repr

/-- The globals a circuit file fills in. -/
structure Circuit where
  nq : ℤ := 0
  hasMeasure : Bool := false
  ops : List Op := []
  deriving DecidableEq, Repr

inductive Stop where
  | openFailed
  | fail (message : Bytes)
  | undefinedShift
  | outOfBounds
  deriving DecidableEq, Repr

def fail {α : Type} (message : String) : Except Stop α := .error (.fail (str message))

def addOp (c : Circuit) (op : OpName) (a b : ℤ) : Except Stop Circuit :=
  if c.ops.length ≥ maxOps then fail "too many circuit operations"
  else .ok { c with ops := c.ops ++ [⟨op, a, b⟩] }

def requireQubit (c : Circuit) (q : ℤ) : Except Stop Unit :=
  if q < 0 ∨ q ≥ c.nq then fail "qubit index out of range" else .ok ()

/-- The loop over q, from a given one on. -/
def addGhzLoop (c : Circuit) (q : ℤ) : ℕ → Except Stop Circuit
  | 0 => .ok c
  | remaining + 1 => do
    let c ← addOp c .cx q (q + 1)
    addGhzLoop c (q + 1) remaining

def addGhz (c : Circuit) : Except Stop Circuit :=
  if c.nq < 2 then fail "ghz requires qubits N before ghz, with N >= 2"
  else do
    let c ← addOp c .h 0 0
    addGhzLoop c 0 (c.nq - 1).toNat

/-- The operations the loop records. -/
def chainOps (q : ℤ) : ℕ → List Op
  | 0 => []
  | remaining + 1 => ⟨.cx, q, q + 1⟩ :: chainOps (q + 1) remaining

theorem addOp_eq {c c' : Circuit} {op : OpName} {a b : ℤ} (h : addOp c op a b = .ok c') :
    c' = { c with ops := c.ops ++ [⟨op, a, b⟩] } := by
  unfold addOp fail at h
  split_ifs at h
  cases h
  rfl

theorem addGhzLoop_eq {c c' : Circuit} {q : ℤ} {remaining : ℕ} (h : addGhzLoop c q remaining = .ok c') :
    c' = { c with ops := c.ops ++ chainOps q remaining } := by
  induction remaining generalizing c q with
  | zero =>
    cases h
    rw [chainOps,List.append_nil]
  | succ remaining ih =>
    rw [addGhzLoop] at h
    cases hadd : addOp c .cx q (q + 1) with
    | error stop => rw [hadd] at h; cases h
    | ok next =>
      rw [hadd] at h
      rw [ih h,addOp_eq hadd,chainOps,List.append_assoc]
      rfl

/-- What the macro records. -/
theorem addGhz_eq {c c' : Circuit} (h : addGhz c = .ok c') :
    2 ≤ c.nq ∧ c' = { c with ops := c.ops ++ ⟨.h, 0, 0⟩ :: chainOps 0 (c.nq - 1).toNat } := by
  unfold addGhz fail at h
  split_ifs at h with hn
  refine ⟨by omega,?_⟩
  cases hadd : addOp c .h 0 0 with
  | error stop => rw [hadd] at h; cases h
  | ok next =>
    rw [hadd] at h
    have hloop := addGhzLoop_eq h
    rw [hloop,addOp_eq hadd,List.append_assoc]
    rfl

theorem addGhzLoop_ok {c : Circuit} (q : ℤ) {remaining : ℕ} (h : c.ops.length + remaining ≤ maxOps) :
    ∃ c', addGhzLoop c q remaining = .ok c' := by
  induction remaining generalizing c q with
  | zero => exact ⟨c,rfl⟩
  | succ remaining ih =>
    have hadd : addOp c .cx q (q + 1) = .ok { c with ops := c.ops ++ [⟨.cx, q, q + 1⟩] } := by
      rw [addOp,if_neg (by omega)]
    obtain ⟨c',hloop⟩ := ih (c := { c with ops := c.ops ++ [⟨.cx, q, q + 1⟩] }) (q + 1)
      (by simp only [List.length_append,List.length_cons,List.length_nil]; omega)
    refine ⟨c',?_⟩
    rw [addGhzLoop,hadd]
    exact hloop

theorem addGhz_ok {c : Circuit} {n : ℕ} (hn : c.nq = n) (htwo : 2 ≤ n) (h : c.ops.length + n ≤ maxOps) :
    ∃ c', addGhz c = .ok c' := by
  have hadd : addOp c .h 0 0 = .ok { c with ops := c.ops ++ [⟨.h, 0, 0⟩] } := by
    rw [addOp,if_neg (by omega)]
  obtain ⟨c',hloop⟩ := addGhzLoop_ok (c := { c with ops := c.ops ++ [⟨.h, 0, 0⟩] }) 0
    (show List.length _ + (c.nq - 1).toNat ≤ maxOps by
      simp only [List.length_append,List.length_cons,List.length_nil]
      omega)
  refine ⟨c',?_⟩
  rw [addGhz,if_neg (by omega),hadd]
  exact hloop

section Gates
variable {D : Type} [Scalars D]

def Amplitude.mul (x y : Amplitude D) : Amplitude D :=
  ⟨Scalars.sub (Scalars.mul x.re y.re) (Scalars.mul x.im y.im),
    Scalars.add (Scalars.mul x.re y.im) (Scalars.mul x.im y.re)⟩

/-- A `double` where a `double complex` is expected. -/
def Amplitude.real (x : D) : Amplitude D := ⟨x, ofInt 0⟩

def iUnit : Amplitude D := ⟨ofInt 0, ofInt 1⟩
def minusIUnit : Amplitude D := ⟨ofInt 0, ofInt (-1)⟩

/-- The indices a loop works on, with their partners, must lie in the array. -/
def inBounds (size dim : ℕ) (selected : ℕ → Bool) (partner : ℕ → ℕ) : Bool :=
  (List.range dim).all (fun i => !selected i || (i < size && partner i < size))

/-- Run a loop over pairs of amplitudes whose bit position is `p`. -/
def pairLoop (amp : List (Amplitude D)) (n p : ℤ) (selected : ℕ → Bool)
    (pair : Amplitude D → Amplitude D → Amplitude D × Amplitude D) : Except Stop (List (Amplitude D)) :=
  let dim := 1 <<< n.toNat
  let partner := (· ||| 1 <<< p.toNat)
  if !inBounds amp.length dim selected partner then .error .outOfBounds
  else .ok (pairSweep selected partner pair amp dim)

/-- Below the bit of the highest qubit no partner leaves the array. -/
theorem inBounds_of_lt {n p : ℕ} (hp : p < n) (selected : ℕ → Bool) :
    inBounds (2 ^ n) (1 <<< n) selected (· ||| 1 <<< p) = true := by
  rw [inBounds,List.all_eq_true]
  intro i hi
  rw [List.mem_range,Nat.one_shiftLeft] at hi
  have hpartner : i ||| 1 <<< p < 2 ^ n := by
    rw [Nat.one_shiftLeft]
    exact Nat.or_lt_two_pow hi (Nat.pow_lt_pow_right (by decide) hp)
  simp [hi,hpartner]

theorem pairLoop_ok {amp : List (Amplitude D)} {n p : ℤ} (hlen : amp.length = 2 ^ n.toNat)
    (hp : p.toNat < n.toNat) (selected : ℕ → Bool)
    (pair : Amplitude D → Amplitude D → Amplitude D × Amplitude D) :
    pairLoop amp n p selected pair =
      .ok (pairSweep selected (· ||| 1 <<< p.toNat) pair amp amp.length) := by
  have hbounds := inBounds_of_lt hp selected
  rw [← hlen] at hbounds
  rw [pairLoop]
  simp only [hbounds,Bool.not_true,Bool.false_eq_true,↓reduceIte]
  rw [Nat.one_shiftLeft n.toNat,← hlen]

/-- `(i >> p) & 1` -/
def bitAt (p : ℤ) (i : ℕ) : Bool := (i >>> p.toNat) &&& 1 == 1

def gSingle (amp : List (Amplitude D)) (n q : ℤ) (m00 m01 m10 m11 : Amplitude D) :
    Except Stop (List (Amplitude D)) :=
  let p := n - 1 - q
  if n < 0 ∨ p < 0 then .error .undefinedShift
  else pairLoop amp n p (fun i => !bitAt p i)
    (fun x y => ((Amplitude.mul m00 x).add (Amplitude.mul m01 y), (Amplitude.mul m10 x).add (Amplitude.mul m11 y)))

def gH (amp : List (Amplitude D)) (n q : ℤ) : Except Stop (List (Amplitude D)) :=
  let s : D := div (ofInt 1) (sqrt (ofInt 2))
  gSingle amp n q (Amplitude.real s) (Amplitude.real s) (Amplitude.real s)
    (Amplitude.real (Scalars.mul (ofInt (-1)) s))

def gX (amp : List (Amplitude D)) (n q : ℤ) : Except Stop (List (Amplitude D)) :=
  gSingle amp n q .zero .one .one .zero

def gY (amp : List (Amplitude D)) (n q : ℤ) : Except Stop (List (Amplitude D)) :=
  gSingle amp n q .zero minusIUnit iUnit .zero

def gZ (amp : List (Amplitude D)) (n q : ℤ) : Except Stop (List (Amplitude D)) :=
  gSingle amp n q .one .zero .zero (Amplitude.real (ofInt (-1)))

def gS (amp : List (Amplitude D)) (n q : ℤ) : Except Stop (List (Amplitude D)) :=
  gSingle amp n q .one .zero .zero iUnit

/-- `phase` is what the library computes for `cexp(I * QPI / 4.0)`. -/
def gT (phase : Amplitude D) (amp : List (Amplitude D)) (n q : ℤ) : Except Stop (List (Amplitude D)) :=
  gSingle amp n q .one .zero .zero phase

def gCx (amp : List (Amplitude D)) (n c t : ℤ) : Except Stop (List (Amplitude D)) :=
  if c = t then fail "cx control and target cannot be same"
  else
    let pc := n - 1 - c
    let pt := n - 1 - t
    if n < 0 ∨ pc < 0 ∨ pt < 0 then .error .undefinedShift
    else pairLoop amp n pt (fun i => bitAt pc i && !bitAt pt i) (fun first second => (second, first))

def gSwap (amp : List (Amplitude D)) (n a b : ℤ) : Except Stop (List (Amplitude D)) :=
  if a = b then .ok amp
  else do
    let amp ← gCx amp n a b
    let amp ← gCx amp n b a
    gCx amp n a b

/-- One pass of the loop over the recorded operations. -/
def applyOp (phase : Amplitude D) (n : ℤ) (amp : List (Amplitude D)) (o : Op) : Except Stop (List (Amplitude D)) :=
  match o.op with
  | .h => gH amp n o.a
  | .x => gX amp n o.a
  | .y => gY amp n o.a
  | .z => gZ amp n o.a
  | .s => gS amp n o.a
  | .t => gT phase amp n o.a
  | .cx => gCx amp n o.a o.b
  | .swap => gSwap amp n o.a o.b

/-- The final amplitudes of a circuit; `allocated` says whether there was memory for them. -/
def simulate (phase : Amplitude D) (allocated : Bool) (c : Circuit) : Except Stop (List (Amplitude D)) :=
  if c.nq < 0 then .error .undefinedShift
  else if !allocated then fail "state allocation failed"
  else c.ops.foldlM (applyOp phase c.nq) (basisVector (1 <<< c.nq.toNat) 0)

end Gates

section Loading

/-- What `fgets` stores of a text in 256 bytes, and what it leaves. -/
def fgets (text : Bytes) : Bytes × Bytes :=
  let line := text.takeWhile (· != 10)
  let taken := if line.length < 255 then line.length + 1 else 255
  (text.take taken, text.drop taken)

/-- The lines of a text; as many as it has bytes are enough. -/
def lines : ℕ → Bytes → List Bytes
  | fuel + 1, c :: rest =>
    let read := fgets (c :: rest)
    read.1 :: lines fuel read.2
  | _, _ => []

/-- What `sscanf(line, "%63s %d %d", ...)` stores and how many items it converts. -/
structure Scanned where
  got : ℕ
  kw : Bytes
  q1 : ℤ
  q2 : ℤ
  deriving DecidableEq, Repr

/-- A `%d` conversion; what becomes of a number outside of `int` is left to the library. -/
def scanInt (narrow : ℤ → ℤ) (text : Bytes) : Option (ℤ × Bytes) :=
  let signed := sign (text.dropWhile isspace)
  let value : ℤ := if signed.1 then -(digitsValue signed.2 : ℤ) else digitsValue signed.2
  if (signed.2.takeWhile isdigit).isEmpty then none
  else some (if -2^31 ≤ value ∧ value < 2^31 then value else narrow value, signed.2.dropWhile isdigit)

def scanLine (narrow : ℤ → ℤ) (line : Bytes) : Scanned :=
  let text := (cText line).dropWhile isspace
  let kw := (text.takeWhile (fun c => !isspace c)).take 63
  if kw.isEmpty then ⟨0, [], 0, 0⟩
  else match scanInt narrow (text.drop kw.length) with
  | none => ⟨1, kw, 0, 0⟩
  | some (q1, rest) => match scanInt narrow rest with
    | none => ⟨2, kw, q1, 0⟩
    | some (q2, _) => ⟨3, kw, q1, q2⟩

def singleGates : List (Bytes × OpName) :=
  [(str "h", .h), (str "x", .x), (str "y", .y), (str "z", .z), (str "s", .s), (str "t", .t)]

def doubleGates : List (Bytes × OpName) := [(str "cx", .cx), (str "swap", .swap)]

/-- What a line that is neither empty nor a comment does. -/
def loadScanned (c : Circuit) (s : Scanned) : Except Stop Circuit :=
  if s.got < 1 then .ok c
  else if s.kw = str "qubits" then
    if s.got ≠ 2 then fail "qubits requires exactly one integer operand"
    else if s.q1 < 1 ∨ s.q1 > maxQubits then fail "qubits must be 1..16"
    else .ok { c with nq := s.q1 }
  else if s.kw = str "ghz" then
    if s.got ≠ 1 then fail "ghz does not accept operands" else addGhz c
  else match singleGates.lookup s.kw with
  | some op =>
    if s.got ≠ 2 then fail "single-qubit gate requires exactly one integer operand"
    else do
      requireQubit c s.q1
      addOp c op s.q1 0
  | none => match doubleGates.lookup s.kw with
    | some op =>
      if s.got ≠ 3 then fail "two-qubit gate requires exactly two integer operands"
      else do
        requireQubit c s.q1
        requireQubit c s.q2
        addOp c op s.q1 s.q2
    | none =>
      if s.kw = str "measure" then
        if s.got ≠ 1 then fail "measure does not accept operands" else .ok { c with hasMeasure := true }
      else .error (.fail (str "unknown circuit op: " ++ s.kw))

/-- Lines that start with a hash or a newline are skipped before they are scanned. -/
def skipped (line : Bytes) : Bool := line.head? == some 35 || line.head? == some 10

/-- The scanned lines of a file. -/
def statements (narrow : ℤ → ℤ) (text : Bytes) : List Scanned :=
  ((lines text.length text).filter (fun line => !skipped line)).map (scanLine narrow)

def loadCircuit (narrow : ℤ → ℤ) (file : Option Bytes) : Except Stop Circuit :=
  match file with
  | none => .error .openFailed
  | some text => (statements narrow text).foldlM loadScanned {}

/-- The circuit `main` goes on with when it is given a file. -/
def mainCircuit (narrow : ℤ → ℤ) (file : Option Bytes) : Except Stop Circuit := do
  let c ← loadCircuit narrow file
  if c.nq < 1 then fail "circuit missing qubits N" else .ok c

end Loading

/-- The OpenQASM line of an operation. -/
def qasmLine (o : Op) : Bytes :=
  let one (name : String) := str name ++ str " q[" ++ decimal o.a ++ str "];\n"
  let two (name : String) := str name ++ str " q[" ++ decimal o.a ++ str "], q[" ++ decimal o.b ++ str "];\n"
  match o.op with
  | .h => one "h"
  | .x => one "x"
  | .y => one "y"
  | .z => one "z"
  | .s => one "s"
  | .t => one "t"
  | .cx => two "cx"
  | .swap => two "swap"

def emitQasm (c : Circuit) : Bytes :=
  str "OPENQASM 3.0;\ninclude \"stdgates.inc\";\n\n" ++
    str "qubit[" ++ decimal c.nq ++ str "] q;\nbit[" ++ decimal c.nq ++ str "] c;\n\n" ++
    c.ops.flatMap qasmLine ++
    if c.hasMeasure then
      str "\n" ++ (List.range c.nq.toNat).flatMap (fun q =>
        str "c[" ++ decimal q ++ str "] = measure q[" ++ decimal q ++ str "];\n")
    else []

end QbitNova.CircuitVM
