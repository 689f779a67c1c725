import QbitNova.Quantum.CircuitExport
import QbitNova.Quantum.Unitary

/-! # What an OpenQASM program computes

A program means the state that its gates leave, each a matrix on the register by the
definition of the standard gates, before its measurements. The file that is printed for a
circuit means the state that the simulator computes for it.
-/
namespace QbitNova.CircuitVM
open Matrix Registers Sweep CText OpenQasm Quantum

section Meaning
variable {n : ℕ}

/-- The standard gates on one qubit. -/
noncomputable def singleMatrices : List (Bytes × Matrix Bool Bool ℂ) :=
  [(str "x", pauliX), (str "y", pauliY), (str "z", pauliZ), (str "h", hadamardGate), (str "s", phaseS),
    (str "sdg", star phaseS), (str "t", phaseT), (str "tdg", star phaseT),
    -- the square root of x is s, seen in the basis of the Hadamard gate
    (str "sx", hadamardGate * phaseS * hadamardGate), (str "id", 1)]

/-- The standard gates on one qubit under the control of another. -/
noncomputable def controlledMatrices : List (Bytes × Matrix Bool Bool ℂ) :=
  [(str "cx", pauliX), (str "cy", pauliY), (str "cz", pauliZ), (str "ch", hadamardGate)]

/-- A matrix where the control is set. -/
def controlled (control : Fin n) (m : Matrix (Fin n → Bool) (Fin n → Bool) ℂ) :
    Matrix (Fin n → Bool) (Fin n → Bool) ℂ :=
  Matrix.of fun x y => if x control then m x y else (1 : Matrix (Fin n → Bool) (Fin n → Bool) ℂ) x y

/-- The matrix of a gate on the register. -/
noncomputable def gateMatrix (name : Bytes) : List (Fin n) → Option (Matrix (Fin n → Bool) (Fin n → Bool) ℂ)
  | [q] => (singleMatrices.lookup name).map (onPlace q)
  | [a, b] =>
    if name = str "swap" then some ((exchange a b).permMatrix ℂ)
    else (controlledMatrices.lookup name).map fun m => controlled a (onPlace b m)
  | [a, b, c] =>
    if name = str "ccx" then some (controlled a (controlled b (onPlace c pauliX)))
    else if name = str "cswap" then some (controlled a ((exchange b c).permMatrix ℂ))
    else none
  | _ => none

/-- A number as a qubit of the register. -/
def qubitOf (n q : ℕ) : Option (Fin n) := if h : q < n then some ⟨q, h⟩ else none

/-- The state that a body leaves; only measurements may follow a measurement. -/
noncomputable def leaves (n : ℕ) : List OpenQasm.Statement → ((Fin n → Bool) → ℂ) → Option ((Fin n → Bool) → ℂ)
  | [], v => some v
  | .gate name operands :: rest, v =>
    ((operands.mapM (qubitOf n)).bind (gateMatrix name)).bind fun m => leaves n rest (m *ᵥ v)
  | .measure _ _ :: rest, v => if rest.all isMeasure then some v else none

/-- What a program means: all qubits start in zero. -/
noncomputable def meaning (p : Program) : Option ((Fin p.qubits → Bool) → ℂ) := leaves p.qubits p.body (ketZero p.qubits)

end Meaning

section Standard
variable {n : ℕ}

theorem mapM_qubitOf (qs : List (Fin n)) : (qs.map Fin.val).mapM (qubitOf n) = some qs := by
  induction qs with
  | nil => rfl
  | cons q qs ih =>
    have hq : qubitOf n q = some q := dif_pos q.isLt
    rw [List.map_cons,List.mapM_cons,hq,ih]
    rfl

/-- Measurements at the end leave the state they are made in. -/
theorem leaves_measures {measures : List OpenQasm.Statement} (h : measures.all isMeasure = true) (v : (Fin n → Bool) → ℂ) :
    leaves n measures v = some v := by
  cases measures with
  | nil => rfl
  | cons s rest =>
    rw [List.all_cons,Bool.and_eq_true] at h
    cases s with
    | gate name operands => exact absurd h.1 Bool.false_ne_true
    | measure bit qubit => rw [leaves,if_pos h.2]

end Standard

section Gates
variable {n : ℕ} {o : Op}

theorem controlled_mulVec (control : Fin n) (m : Matrix (Fin n → Bool) (Fin n → Bool) ℂ) (v : (Fin n → Bool) → ℂ)
    (x : Fin n → Bool) : (controlled control m *ᵥ v) x = if x control then (m *ᵥ v) x else v x := by
  rw [mulVec,dotProduct]
  by_cases hx : x control = true
  · rw [if_pos hx,mulVec,dotProduct]
    apply Finset.sum_congr rfl
    intro y _
    rw [controlled,Matrix.of_apply,if_pos hx]
  · rw [if_neg hx]
    refine Eq.trans ?_ (congrFun (one_mulVec v) x)
    rw [mulVec,dotProduct]
    apply Finset.sum_congr rfl
    intro y _
    rw [controlled,Matrix.of_apply,if_neg hx]

theorem controlled_pauliX {c t : Fin n} (hne : c ≠ t) :
    controlled c (onPlace t pauliX.val) = (controlledFlip hne).permMatrix ℂ := by
  suffices h : ∀ v, controlled c (onPlace t pauliX.val) *ᵥ v = (controlledFlip hne).permMatrix ℂ *ᵥ v from
    Matrix.ext_of_mulVec_single fun y => h _
  intro v
  funext x
  have hflip : controlledFlip hne x = Function.update x t (x t ^^ x c) := rfl
  rw [controlled_mulVec,permMatrix_mulVec,Function.comp_apply,hflip]
  cases hc : x c with
  | false => rw [if_neg Bool.false_ne_true,Bool.xor_false,Function.update_eq_self]
  | true =>
    rw [if_pos rfl,Bool.xor_true,onPlace_mulVec,Fintype.sum_bool]
    cases x t <;> simp [pauliX,bitMatrix]

theorem toNat_of_cast {q : Fin n} {a : ℤ} (h : ((q : ℕ) : ℤ) = a) : a.toNat = q := by
  rw [← h,Int.toNat_natCast]

theorem gate_matrix (ho : o.Fits n) :
    ((o.operands.map Int.toNat).mapM (qubitOf n)).bind (gateMatrix o.op.text) = some (o.unitary ho).val := by
  have hfirst := toNat_of_cast ho.first_eq
  have single : ∀ {m : Matrix Bool Bool ℂ}, singleMatrices.lookup o.op.text = some m → o.operands = [o.a] →
      ((o.operands.map Int.toNat).mapM (qubitOf n)).bind (gateMatrix o.op.text) = some (onPlace ho.first m) := by
    intro m hm hoperands
    have hqubits := mapM_qubitOf [ho.first]
    rw [hoperands,List.map_singleton,hfirst]
    rw [List.map_singleton] at hqubits
    rw [hqubits,Option.bind_some,gateMatrix,hm]
    rfl
  have double : (hmem : o.b ∈ o.operands) → o.operands = [o.a, o.b] →
      ((o.operands.map Int.toNat).mapM (qubitOf n)).bind (gateMatrix o.op.text) =
        gateMatrix o.op.text [ho.first, ho.second hmem] := by
    intro hmem hoperands
    have hqubits := mapM_qubitOf [ho.first, ho.second hmem]
    rw [hoperands,List.map_cons,List.map_singleton,hfirst,toNat_of_cast (ho.second_eq hmem)]
    rw [List.map_cons,List.map_singleton] at hqubits
    rw [hqubits,Option.bind_some]
  obtain ⟨op,a,b⟩ := o
  cases op with
  | h | x | y | z | s | t => exact single rfl rfl
  | cx =>
    have hmem : b ∈ Op.operands ⟨.cx, a, b⟩ := by simp [Op.operands]
    have hother : OpName.text .cx ≠ str "swap" := by decide
    have hlookup : controlledMatrices.lookup (OpName.text .cx) = some pauliX.val := rfl
    rw [double hmem rfl]
    show gateMatrix (OpName.text .cx) _ = _
    rw [gateMatrix,if_neg hother,hlookup]
    exact congrArg some (controlled_pauliX (ho.first_ne_second hmem rfl))
  | swap =>
    have hmem : b ∈ Op.operands ⟨.swap, a, b⟩ := by simp [Op.operands]
    have hname : OpName.text .swap = str "swap" := rfl
    rw [double hmem rfl]
    show gateMatrix (OpName.text .swap) _ = _
    rw [gateMatrix,if_pos hname]
    rfl

theorem leaves_ops {ops : List Op} (hops : ∀ o ∈ ops, o.Fits n) {rest : List OpenQasm.Statement}
    (hrest : ∀ v, leaves n rest v = some v) (v : (Fin n → Bool) → ℂ) :
    leaves n (ops.map Op.gate ++ rest) v = some ((unitaryOf ops hops).val *ᵥ v) := by
  induction ops generalizing v with
  | nil =>
    rw [List.map_nil,List.nil_append,hrest,unitaryOf,UnitaryGroup.one_val,one_mulVec]
  | cons o ops ih =>
    have hgate := gate_matrix (hops o List.mem_cons_self)
    have hlater := ih fun o ho => hops o (List.mem_cons_of_mem _ ho)
    rw [List.map_cons,List.cons_append,Op.gate,leaves,hgate,Option.bind_some,hlater,mulVec_mulVec,unitaryOf,
      UnitaryGroup.mul_val]

end Gates

section Circuits
variable {narrow : ℤ → ℤ} {arg : Bytes} {file : Option Bytes} {c : Circuit}

theorem leaves_program {n : ℕ} (hops : ∀ o ∈ c.ops, o.Fits n) :
    leaves n c.program.body (ketZero n) = some ((unitaryOf c.ops hops).val *ᵥ ketZero n) := by
  apply leaves_ops hops
  intro v
  cases c.hasMeasure with
  | false => rfl
  | true =>
    refine leaves_measures ?_ v
    rw [if_pos rfl,List.all_map,List.all_eq_true]
    intro q _
    rfl

/-- Two ways to run a circuit whose file is valid: the simulator computes the state that the
file means, so the outcomes of its measurement have the probabilities the file gives them. -/
theorem exported_state (h : argumentCircuit narrow arg file = .ok c) (hvalid : c.program.Valid) :
    ∃ p ψ amp, OpenQasm.read (emitQasm c) = some p ∧ p.Valid ∧ meaning p = some ψ ∧
      simulate eighthTurn true c = .ok amp ∧ amp.length = 2 ^ p.qubits ∧ stateOf p.qubits amp = ψ ∧
      ∀ x : Fin p.qubits → Bool, (entry amp (bigEndian x)).weight = ‖ψ x‖ ^ 2 := by
  obtain ⟨hc,hn⟩ := argumentCircuit_proper h
  have hcount : c.nq = (c.nq.toNat : ℕ) := (Int.toNat_of_nonneg hc.count).symm
  have hsafe := ((program_valid_iff hc hn).mp hvalid).1
  have hops : ∀ o ∈ c.ops, o.Fits (c.nq.toNat : ℕ) := by
    rw [← hcount]
    exact (safe_iff hc.count).mp hsafe
  obtain ⟨amp,hrun,hlength,hstate,hweight⟩ := simulate_unitary hcount hops
  exact ⟨c.program,_,amp,read_emitQasm hc,hvalid,leaves_program hops,hrun,hlength,hstate,hweight⟩

def bellFile : Bytes := str "qubits 2\nh 0\ncx 0 1\nswap 0 1\nmeasure\n"

theorem exported_state_bell : ∃ p ψ amp,
    OpenQasm.read (emitQasm ⟨2, true, [⟨.h, 0, 0⟩, ⟨.cx, 0, 1⟩, ⟨.swap, 0, 1⟩]⟩) = some p ∧ meaning p = some ψ ∧
      simulate eighthTurn true ⟨2, true, [⟨.h, 0, 0⟩, ⟨.cx, 0, 1⟩, ⟨.swap, 0, 1⟩]⟩ = .ok amp ∧
      stateOf p.qubits amp = ψ := by
  have hload : argumentCircuit id (str "a.qc") (some bellFile) =
      .ok ⟨2, true, [⟨.h, 0, 0⟩, ⟨.cx, 0, 1⟩, ⟨.swap, 0, 1⟩]⟩ := by decide
  obtain ⟨p,ψ,amp,hread,-,hmeaning,hrun,-,hstate,-⟩ := exported_state hload (by decide)
  exact ⟨p,ψ,amp,hread,hmeaning,hrun,hstate⟩

end Circuits

end QbitNova.CircuitVM
