import QbitNova.Library.OpenQasm
import QbitNova.Quantum.CircuitLoad

/-! # The OpenQASM of a circuit

What is printed for a circuit is read back as a program with the same gates, from which
the circuit can be recovered. The program is valid OpenQASM for the circuits that are
safe to simulate, unless a swap names one qubit twice.
-/
namespace QbitNova.CircuitVM
open CText OpenQasm Checks QbitNova.Language

/-- The gates on two qubits. -/
def OpName.double : OpName → Bool
  | .cx | .swap => true
  | _ => false

def OpName.text : OpName → Bytes
  | .h => str "h"
  | .x => str "x"
  | .y => str "y"
  | .z => str "z"
  | .s => str "s"
  | .t => str "t"
  | .cx => str "cx"
  | .swap => str "swap"

/-- The gate an operation is printed as. -/
def Op.gate (o : Op) : OpenQasm.Statement := .gate o.op.text (o.operands.map Int.toNat)

/-- The program that is printed for a circuit. -/
def Circuit.program (c : Circuit) : Program :=
  { qubits := c.nq.toNat
    bits := c.nq.toNat
    body := c.ops.map Op.gate ++ if c.hasMeasure then (List.range c.nq.toNat).map (fun q => .measure q q) else [] }

/-- The operation a gate stands for. -/
def opOf : OpenQasm.Statement → Option Op
  | .gate name [a] => (singleGates.lookup name).map (⟨·, a, 0⟩)
  | .gate name [a, b] => (doubleGates.lookup name).map (⟨·, a, b⟩)
  | _ => none

def isMeasure : OpenQasm.Statement → Bool
  | .measure _ _ => true
  | .gate _ _ => false

/-- The circuit of a program. -/
def circuitOf (p : Program) : Circuit := ⟨p.qubits, p.body.any isMeasure, p.body.filterMap opOf⟩

/-- The number of qubits for a number as the argument. -/
def argumentCount (arg : Bytes) : ℤ :=
  let nq := if atoi arg < 2 then 2 else atoi arg
  if nq > maxQubits then maxQubits else nq

/-- The circuit for the argument of the tool: a chain of that many qubits for a number, and
what the file holds for anything else. -/
def argumentCircuit (narrow : ℤ → ℤ) (arg : Bytes) (file : Option Bytes) : Except Stop Circuit :=
  if arg.all isdigit then do
    let c ← addGhz { nq := argumentCount arg }
    return { c with hasMeasure := true }
  else mainCircuit narrow file

/-- Operands are not negative, and the second one is zero where there is only one. -/
structure Op.Proper (o : Op) : Prop where
  nonneg : ∀ q ∈ o.operands, 0 ≤ q
  single : ¬ o.op.double → o.b = 0

/-- What the loader has recorded. -/
structure Circuit.Proper (c : Circuit) : Prop where
  count : 0 ≤ c.nq
  ops : ∀ o ∈ c.ops, o.Proper

section Loaded

theorem addOp_proper {c c' : Circuit} {op : OpName} {a b : ℤ} (hc : c.Proper) (ho : (⟨op, a, b⟩ : Op).Proper)
    (h : addOp c op a b = .ok c') : c'.Proper := by
  rw [addOp_eq h]
  refine ⟨hc.count,List.forall_mem_append.mpr ⟨hc.ops,?_⟩⟩
  intro o hmem
  rw [List.mem_singleton.mp hmem]
  exact ho

theorem Op.operands_eq (op : OpName) (a b : ℤ) :
    (⟨op, a, b⟩ : Op).operands = if op.double then [a, b] else [a] := by
  cases op <;> rfl

theorem proper_of_single {op : OpName} {a : ℤ} (hop : op.double = false) (ha : 0 ≤ a) :
    (⟨op, a, 0⟩ : Op).Proper := by
  refine ⟨?_,fun _ => rfl⟩
  rw [Op.operands_eq,hop]
  simpa using ha

theorem proper_of_double {op : OpName} {a b : ℤ} (hop : op.double = true) (ha : 0 ≤ a) (hb : 0 ≤ b) :
    (⟨op, a, b⟩ : Op).Proper := by
  refine ⟨?_,fun hnot => absurd hop hnot⟩
  rw [Op.operands_eq,hop]
  simp [ha,hb]

theorem chainOps_proper {q : ℤ} {remaining : ℕ} (hq : 0 ≤ q) : ∀ o ∈ chainOps q remaining, o.Proper := by
  induction remaining generalizing q with
  | zero => simp [chainOps]
  | succ remaining ih =>
    intro o hmem
    rcases List.mem_cons.mp hmem with rfl | hmem
    · exact proper_of_double rfl hq (by omega)
    · exact ih (by omega) o hmem

theorem addGhz_proper {c c' : Circuit} (hc : c.Proper) (h : addGhz c = .ok c') : c'.Proper := by
  obtain ⟨-,rfl⟩ := addGhz_eq h
  refine ⟨hc.count,List.forall_mem_append.mpr ⟨hc.ops,List.forall_mem_cons.mpr ⟨?_,chainOps_proper (le_refl 0)⟩⟩⟩
  exact proper_of_single rfl (le_refl 0)

theorem single_of_lookup {kw : Bytes} {op : OpName} (h : singleGates.lookup kw = some op) : op.double = false := by
  have hmem := mem_of_lookup h
  simp only [singleGates,List.mem_cons,Prod.mk.injEq,List.not_mem_nil,or_false] at hmem
  rcases hmem with ⟨-,rfl⟩ | ⟨-,rfl⟩ | ⟨-,rfl⟩ | ⟨-,rfl⟩ | ⟨-,rfl⟩ | ⟨-,rfl⟩ <;> rfl

theorem double_of_lookup {kw : Bytes} {op : OpName} (h : doubleGates.lookup kw = some op) : op.double = true := by
  have hmem := mem_of_lookup h
  simp only [doubleGates,List.mem_cons,Prod.mk.injEq,List.not_mem_nil,or_false] at hmem
  rcases hmem with ⟨-,rfl⟩ | ⟨-,rfl⟩ <;> rfl

/-- A line records operations on qubits only. -/
theorem loadScanned_proper {c c' : Circuit} {s : Scanned} (hc : c.Proper) (h : loadScanned c s = .ok c') :
    c'.Proper := by
  unfold loadScanned fail at h
  by_cases hgot : s.got < 1
  · rw [if_pos hgot] at h
    cases h
    exact hc
  rw [if_neg hgot] at h
  by_cases hqubits : s.kw = str "qubits"
  · rw [if_pos hqubits] at h
    obtain ⟨-,h⟩ := passed h
    obtain ⟨hcount,h⟩ := passed h
    cases h
    exact ⟨show 0 ≤ s.q1 by omega,hc.ops⟩
  rw [if_neg hqubits] at h
  by_cases hghz : s.kw = str "ghz"
  · rw [if_pos hghz] at h
    exact addGhz_proper hc (passed h).2
  rw [if_neg hghz] at h
  cases hsingle : singleGates.lookup s.kw with
  | some op =>
    simp only [hsingle] at h
    obtain ⟨-,h⟩ := passed h
    cases hrange : requireQubit c s.q1 with
    | error stop => rw [hrange] at h; cases h
    | ok u =>
      rw [hrange] at h
      exact addOp_proper hc (proper_of_single (single_of_lookup hsingle) (requireQubit_ok hrange).1) h
  | none =>
    simp only [hsingle] at h
    cases hdouble : doubleGates.lookup s.kw with
    | some op =>
      simp only [hdouble] at h
      obtain ⟨-,h⟩ := passed h
      cases hfirst : requireQubit c s.q1 with
      | error stop => rw [hfirst] at h; cases h
      | ok u =>
        rw [hfirst] at h
        cases hsecond : requireQubit c s.q2 with
        | error stop => simp only [bind,Except.bind,hsecond] at h; cases h
        | ok u =>
          simp only [bind,Except.bind,hsecond] at h
          exact addOp_proper hc (proper_of_double (double_of_lookup hdouble) (requireQubit_ok hfirst).1
            (requireQubit_ok hsecond).1) h
    | none =>
      simp only [hdouble] at h
      by_cases hmeasure : s.kw = str "measure"
      · rw [if_pos hmeasure] at h
        obtain ⟨-,h⟩ := passed h
        cases h
        exact ⟨hc.count,hc.ops⟩
      · rw [if_neg hmeasure] at h
        cases h

theorem loadLines_proper {c c' : Circuit} {file : List Scanned} (hc : c.Proper)
    (h : file.foldlM loadScanned c = .ok c') : c'.Proper := by
  induction file generalizing c with
  | nil =>
    cases h
    exact hc
  | cons s file ih =>
    rw [List.foldlM_cons] at h
    cases hline : loadScanned c s with
    | error stop => rw [hline] at h; cases h
    | ok next =>
      rw [hline] at h
      exact ih (loadScanned_proper hc hline) h

theorem mainCircuit_proper {narrow : ℤ → ℤ} {text : Bytes} {c : Circuit} (h : mainCircuit narrow (some text) = .ok c) :
    c.Proper ∧ 1 ≤ c.nq := by
  unfold mainCircuit fail at h
  cases hload : loadCircuit narrow (some text) with
  | error stop => rw [hload] at h; cases h
  | ok loaded =>
    rw [hload] at h
    simp only [bind,Except.bind] at h
    split_ifs at h with hn
    cases h
    exact ⟨loadLines_proper ⟨le_refl 0,by simp⟩ hload,by omega⟩

theorem argumentCount_bounds (arg : Bytes) : 2 ≤ argumentCount arg ∧ argumentCount arg ≤ 16 := by
  unfold argumentCount maxQubits
  simp only
  split_ifs <;> omega

/-- The chain for a number is recorded in full. -/
theorem argumentCircuit_number {narrow : ℤ → ℤ} {arg : Bytes} {file : Option Bytes} (hnumber : arg.all isdigit = true) :
    argumentCircuit narrow arg file =
      .ok ⟨argumentCount arg, true, ⟨.h, 0, 0⟩ :: chainOps 0 (argumentCount arg - 1).toNat⟩ := by
  obtain ⟨hlow,hhigh⟩ := argumentCount_bounds arg
  obtain ⟨n,hn⟩ := Int.eq_ofNat_of_zero_le (show 0 ≤ argumentCount arg by omega)
  obtain ⟨c,hghz⟩ := addGhz_ok (c := { nq := argumentCount arg }) hn (by omega)
    (show 0 + n ≤ maxOps by rw [show maxOps = 4096 from rfl]; omega)
  rw [argumentCircuit,if_pos hnumber,hghz,(addGhz_eq hghz).2]
  rfl

theorem argumentCircuit_proper {narrow : ℤ → ℤ} {arg : Bytes} {file : Option Bytes} {c : Circuit}
    (h : argumentCircuit narrow arg file = .ok c) : c.Proper ∧ 1 ≤ c.nq := by
  by_cases hnumber : arg.all isdigit = true
  · rw [argumentCircuit_number hnumber] at h
    cases h
    have hlow := (argumentCount_bounds arg).1
    refine ⟨⟨show 0 ≤ argumentCount arg by omega,?_⟩,show 1 ≤ argumentCount arg by omega⟩
    exact List.forall_mem_cons.mpr ⟨proper_of_single rfl (le_refl 0),chainOps_proper (le_refl 0)⟩
  · rw [argumentCircuit,if_neg hnumber] at h
    cases file with
    | none => simp [mainCircuit,loadCircuit,bind,Except.bind] at h
    | some text => exact mainCircuit_proper h

end Loaded

section Printing
variable {c : Circuit} {o : Op}

theorem OpName.text_named (op : OpName) :
    op.text ≠ [] ∧ op.text.all isalnum = true ∧ op.text ≠ str "OPENQASM" ∧ op.text ≠ str "include" := by
  cases op <;> decide

theorem Op.operands_ne_nil (o : Op) : o.operands ≠ [] := by
  unfold Op.operands
  split <;> simp

theorem Op.gate_named (o : Op) : o.gate.Named := by
  obtain ⟨hne,halnum,hversion,hinclude⟩ := o.op.text_named
  exact ⟨hne,halnum,hversion,hinclude,fun hnil => o.operands_ne_nil (List.map_eq_nil_iff.mp hnil)⟩

theorem decimal_toNat {q : ℤ} (hq : 0 ≤ q) : decimal q = str (toString q.toNat) := by
  obtain ⟨n,rfl⟩ := Int.eq_ofNat_of_zero_le hq
  rfl

/-- The line of an operation is the line of its gate. -/
theorem qasmLine_gate (ho : o.Proper) : qasmLine o = joined o.gate.words ++ [10] := by
  obtain ⟨op,a,b⟩ := o
  have hnonneg := ho.nonneg
  cases op with
  | cx | swap =>
    have ha := decimal_toNat (hnonneg a (by simp [Op.operands]))
    have hb := decimal_toNat (hnonneg b (by simp [Op.operands]))
    simp only [qasmLine,ha,hb,joined_gate_two]
    rfl
  | _ =>
    have ha := decimal_toNat (hnonneg a (by simp [Op.operands]))
    simp only [qasmLine,ha,joined_gate_one]
    rfl

/-- The lines that are printed for a circuit. -/
def Circuit.lines (c : Circuit) : List Line :=
  [.version, .standard, .empty] ++ ([.qubits c.nq.toNat, .bits c.nq.toNat, .empty] ++
    (c.ops.flatMap (fun o => [.statement o.gate]) ++ if c.hasMeasure then
      [.empty] ++ (List.range c.nq.toNat).flatMap (fun q => [.statement (.measure q q)]) else []))

theorem prints_emitQasm (hc : c.Proper) : Prints (emitQasm c) c.lines := by
  have hn := decimal_toNat hc.count
  have hops : Prints (c.ops.flatMap qasmLine) (c.ops.flatMap fun o => [.statement o.gate]) := by
    refine .flatMap fun o ho => ?_
    rw [qasmLine_gate (hc.ops o ho)]
    exact prints_statement o.gate_named
  have hmeasures : Prints ((List.range c.nq.toNat).flatMap fun q =>
      str "c[" ++ decimal q ++ str "] = measure q[" ++ decimal q ++ str "];\n")
      ((List.range c.nq.toNat).flatMap fun q => [.statement (.measure q q)]) := by
    rw [show (do let q ← List.range c.nq.toNat; pure (q : ℤ)) = (List.range c.nq.toNat).map (fun q : ℕ => (q : ℤ)) from
      List.flatMap_pure_eq_map _ _,List.flatMap_map]
    refine .flatMap fun q _ => ?_
    have hline := joined_measure q q
    rw [show decimal (q : ℤ) = str (toString q) from rfl,hline]
    exact prints_statement trivial
  have hlast : Prints (if c.hasMeasure then str "\n" ++ (List.range c.nq.toNat).flatMap (fun q =>
      str "c[" ++ decimal q ++ str "] = measure q[" ++ decimal q ++ str "];\n") else [])
      (if c.hasMeasure then [.empty] ++ (List.range c.nq.toNat).flatMap (fun q => [.statement (.measure q q)]) else []) := by
    cases c.hasMeasure with
    | false => exact .nil
    | true => exact prints_blank.append hmeasures
  have hall := prints_header.append ((prints_declarations c.nq.toNat c.nq.toNat).append (hops.append hlast))
  unfold emitQasm Circuit.lines
  rw [hn]
  simpa only [List.append_assoc] using hall

theorem flatMap_statement {α : Type} (xs : List α) (f : α → OpenQasm.Statement) :
    xs.flatMap (fun x => [Line.statement (f x)]) = (xs.map f).map .statement := by
  rw [List.map_map]
  exact List.flatMap_pure_eq_map _ _

/-- What is printed for a circuit is read back as its program. -/
theorem read_emitQasm (hc : c.Proper) : OpenQasm.read (emitQasm c) = some c.program := by
  rw [(prints_emitQasm hc).read]
  have hfilter : c.lines.filter (· ≠ .empty) = .version :: .standard :: .qubits c.nq.toNat :: .bits c.nq.toNat ::
      c.program.body.map .statement := by
    rw [Circuit.lines,flatMap_statement,flatMap_statement,Circuit.program]
    cases c.hasMeasure <;> simp [List.filter_append,List.filter_map,Function.comp_def]
  rw [hfilter,assemble,statementsOf_map]
  rfl

theorem lookup_text (op : OpName) : (if op.double then doubleGates else singleGates).lookup op.text = some op := by
  cases op <;> decide

theorem opOf_gate (ho : o.Proper) : opOf o.gate = some o := by
  have hcast : ∀ q ∈ o.operands, ((q.toNat : ℕ) : ℤ) = q := fun q hq => Int.toNat_of_nonneg (ho.nonneg q hq)
  have hsingle := ho.single
  have hlookup := lookup_text o.op
  obtain ⟨op,a,b⟩ := o
  rw [Op.operands_eq] at hcast
  cases hop : op.double with
  | true =>
    rw [hop,if_pos rfl] at hcast hlookup
    rw [Op.gate,Op.operands_eq,hop,if_pos rfl]
    simp [opOf,hlookup,hcast a (by simp),hcast b (by simp)]
  | false =>
    rw [hop,if_neg (by simp)] at hcast hlookup
    obtain rfl : b = 0 := hsingle (by simp [hop])
    rw [Op.gate,Op.operands_eq,hop,if_neg (by simp)]
    simp [opOf,hlookup,hcast a (by simp)]

theorem circuitOf_program (hc : c.Proper) (hn : 1 ≤ c.nq) : circuitOf c.program = c := by
  have hops : (c.ops.map Op.gate).filterMap opOf = c.ops := by
    rw [List.filterMap_map]
    exact (List.filterMap_congr fun o ho => opOf_gate (hc.ops o ho)).trans List.filterMap_some
  have hgates : (c.ops.map Op.gate).any isMeasure = false := by
    rw [List.any_map,List.any_eq_false]
    intro o _
    exact Bool.false_ne_true
  have hmeasures : ((List.range c.nq.toNat).map fun q => OpenQasm.Statement.measure q q).any isMeasure = true := by
    rw [List.any_map,List.any_eq_true]
    exact ⟨0,List.mem_range.mpr (by omega),rfl⟩
  have hnone : ((List.range c.nq.toNat).map fun q => OpenQasm.Statement.measure q q).filterMap opOf = [] := by
    rw [List.filterMap_map,List.filterMap_eq_nil_iff]
    intro q _
    rfl
  obtain ⟨nq,hasMeasure,ops⟩ := c
  have hcount : ((nq.toNat : ℕ) : ℤ) = nq := Int.toNat_of_nonneg hc.count
  simp only [circuitOf,Circuit.program,hcount] at *
  cases hasMeasure with
  | false => simp [hgates,hops]
  | true => simp [hgates,hops,hmeasures,hnone]

theorem arity_text (op : OpName) : standardGates.lookup op.text = some (if op.double then 2 else 1) := by
  cases op <;> decide

theorem double_iff (op : OpName) : op.double = true ↔ op = .cx ∨ op = .swap := by
  cases op <;> simp [OpName.double]

/-- A gate can stand in a program of n qubits if its operation fits, and a swap has two operands. -/
theorem gate_valid_iff (ho : o.Proper) {n m : ℕ} : o.gate.Valid n m ↔ o.Fits n ∧ (o.op = .swap → o.a ≠ o.b) := by
  have hnonneg := ho.nonneg
  have harity := arity_text o.op
  have hrange : (∀ q ∈ o.operands.map Int.toNat, q < n) ↔ ∀ q ∈ o.operands, 0 ≤ q ∧ q < n := by
    rw [List.forall_mem_map]
    refine forall₂_congr fun q hq => ?_
    have := hnonneg q hq
    omega
  have hdistinct : standardGates.lookup o.op.text = some (o.operands.map Int.toNat).length ∧
      (o.operands.map Int.toNat).Nodup ↔ (o.op = .cx → o.a ≠ o.b) ∧ (o.op = .swap → o.a ≠ o.b) := by
    obtain ⟨op,a,b⟩ := o
    rw [Op.operands_eq] at hnonneg ⊢
    rw [harity]
    cases hop : op.double with
    | true =>
      rw [hop,if_pos rfl] at hnonneg
      have ha := hnonneg a (by simp)
      have hb := hnonneg b (by simp)
      have hne : a.toNat ≠ b.toNat ↔ a ≠ b := by omega
      rcases (double_iff op).mp hop with rfl | rfl <;> simp [hne]
    | false =>
      have hnot := mt (double_iff op).mpr (by simp [hop])
      rw [not_or] at hnot
      simp [hnot.1,hnot.2]
  rw [Op.gate,OpenQasm.Statement.Valid,hrange,← and_assoc,hdistinct]
  constructor
  · rintro ⟨⟨hcx,hswap⟩,hin⟩
    exact ⟨⟨hin,hcx⟩,hswap⟩
  · rintro ⟨⟨hin,hcx⟩,hswap⟩
    exact ⟨⟨hcx,hswap⟩,hin⟩

theorem program_valid_iff (hc : c.Proper) (hn : 1 ≤ c.nq) :
    c.program.Valid ↔ Safe c ∧ ∀ o ∈ c.ops, o.op = .swap → o.a ≠ o.b := by
  have hcount : ((c.nq.toNat : ℕ) : ℤ) = c.nq := Int.toNat_of_nonneg hc.count
  have hpos : 0 < c.nq.toNat := by omega
  have hmeasures : ∀ s ∈ (if c.hasMeasure then (List.range c.nq.toNat).map (fun q => .measure q q) else []),
      OpenQasm.Statement.Valid c.nq.toNat c.nq.toNat s := by
    intro s hs
    cases hmeasure : c.hasMeasure with
    | false => simp [hmeasure] at hs
    | true =>
      rw [hmeasure,if_pos rfl,List.mem_map] at hs
      obtain ⟨q,hq,rfl⟩ := hs
      exact ⟨List.mem_range.mp hq,List.mem_range.mp hq⟩
  have hgates : (∀ s ∈ c.ops.map Op.gate, s.Valid c.nq.toNat c.nq.toNat) ↔
      ∀ o ∈ c.ops, o.Fits c.nq ∧ (o.op = .swap → o.a ≠ o.b) := by
    rw [List.forall_mem_map]
    refine forall₂_congr fun o ho => ?_
    rw [gate_valid_iff (hc.ops o ho),hcount]
  rw [Program.Valid,Circuit.program]
  simp only [hpos,true_and]
  rw [List.forall_mem_append,hgates,and_iff_left hmeasures,forall₂_and,safe_iff hc.count]

/-- What the tool prints as OpenQASM is read back as the program of its circuit, from which
the circuit is recovered in full. It is a valid program exactly if the circuit is safe to
simulate and no swap names one qubit twice. -/
theorem qasm_read_back {narrow : ℤ → ℤ} {arg : Bytes} {file : Option Bytes} {c : Circuit}
    (h : argumentCircuit narrow arg file = .ok c) : OpenQasm.read (emitQasm c) = some c.program ∧
      circuitOf c.program = c ∧ (c.program.Valid ↔ Safe c ∧ ∀ o ∈ c.ops, o.op = .swap → o.a ≠ o.b) := by
  obtain ⟨hc,hn⟩ := argumentCircuit_proper h
  exact ⟨read_emitQasm hc,circuitOf_program hc hn,program_valid_iff hc hn⟩

def swapFile : Bytes := str "qubits 2\nh 1\nswap 0 0\nmeasure\n"

theorem qasm_read_back_swap : ∃ c, argumentCircuit id (str "a.qc") (some swapFile) = .ok c ∧
    OpenQasm.read (emitQasm c) = some ⟨2, 2, [.gate (str "h") [1], .gate (str "swap") [0, 0], .measure 0 0, .measure 1 1]⟩ ∧
    ¬ c.program.Valid := by
  have hload : argumentCircuit id (str "a.qc") (some swapFile) =
      .ok ⟨2, true, [⟨.h, 1, 0⟩, ⟨.swap, 0, 0⟩]⟩ := by decide
  obtain ⟨hread,-,hvalid⟩ := qasm_read_back hload
  refine ⟨_,hload,hread,fun h => ?_⟩
  exact (hvalid.mp h).2 ⟨.swap, 0, 0⟩ (by simp) rfl rfl

end Printing

end QbitNova.CircuitVM
