import QbitNova.Language.Parser
import QbitNova.Language.VM
import QbitNova.Library.Transition

/-! # Bytecode: the compiler and the machine that runs it

The compiler appends to one instruction array with 64-byte argument fields; writing
outside of either is a fault. Control flow is not compiled to jumps: the machine looks
for the END that matches a CHECK or REPEAT when it gets there, and keeps the repeats
it is in on a stack of 64 entries.
-/
namespace QbitNova.Language
open CText

def maxInstr : ℕ := 1024
def argumentBytes : ℕ := 64
def maxRepeats : ℕ := 64

inductive OpCode where
  | say | letVar | qbit | hadamard | measure | entangle | cnot | check | repeatLoop | block | endBlock
  | safeAction | qmsg | encodeQmsg | decodeQmsg
  | unknown (code : ℤ)
  deriving DecidableEq, Repr

structure Instruction where
  op : OpCode
  arg1 : Bytes := []
  arg2 : Bytes := []
  value : ℤ := 0
  deriving DecidableEq, Repr

inductive CompileFault where
  | codeFull
  | argumentTooLong
  | nullPointer
  deriving DecidableEq, Repr

/-- Append one instruction; a null argument is stored as the empty text. -/
def emit (op : OpCode) (arg1 arg2 : Option Bytes) (value : ℤ) (code : List Instruction) :
    Except CompileFault (List Instruction) :=
  if code.length ≥ maxInstr then .error .codeFull
  else if (arg1.getD []).length ≥ argumentBytes ∨ (arg2.getD []).length ≥ argumentBytes then
    .error .argumentTooLong
  else .ok (code ++ [⟨op, arg1.getD [], arg2.getD [], value⟩])

def Node.value? : Node → Option Bytes
  | .null => none
  | .node _ value _ _ _ _ => some value

/-- Read the value of a node that must not be null. -/
def Node.deref (n : Node) : Except CompileFault Bytes :=
  match n.value? with
  | some value => .ok value
  | none => .error .nullPointer

/-- The variable, operator and number of a complete condition. -/
def condition? : Node → Option (Bytes × Bytes × ℤ)
  | .node _ operator (.node _ name _ _ _ _) (.node _ number _ _ _ _) _ _ => some (name, operator, atoi number)
  | _ => none

/-- The CHECK instruction of a condition; an incomplete one is emitted without arguments. -/
def emitCheck (left : Node) (code : List Instruction) : Except CompileFault (List Instruction) :=
  match condition? left with
  | some (name, operator, number) => emit .check (some name) (some operator) number code
  | none => emit .check none none 0 code

def compile : Node → List Instruction → Except CompileFault (List Instruction)
  | .null, code => .ok code
  | .node type value left _ body next, code => do
    let code ← match type with
      | .say => do emit .say (some (← left.deref)) none 0 code
      | .letBinding => do emit .letVar (some value) (some (← left.deref)) 0 code
      | .qbit => do emit .qbit (some value) (some (← left.deref)) 0 code
      | .hadamard => emit .hadamard (some value) none 0 code
      | .measure => emit .measure (some value) none 0 code
      | .entangle => emit .entangle (some value) left.value? 0 code
      | .cnot => emit .cnot (some value) left.value? 0 code
      | .qmsg => emit .qmsg left.value? none 0 code
      | .encodeQmsg => emit .encodeQmsg (some value) none 0 code
      | .decodeQmsg => emit .decodeQmsg (some value) none 0 code
      | .check => do
        let code ← emitCheck left code
        let code ← compile body code
        emit .endBlock none none 0 code
      | .repeatLoop => do
        let code ← emit .repeatLoop none none (atoi value) code
        let code ← compile body code
        emit .endBlock none none 0 code
      | .action => emit .safeAction (some value) none 0 code
      | .block => compile body code
      | _ => .ok code
    compile next code

/-- The VM together with the actions it has performed, oldest first. -/
structure Session (D : Type) where
  vm : VM D
  actions : List Action

def Session.perform {D : Type} [Doubles D] (rand : ℕ → ℤ) (s : Session D) (action : Action) : Session D :=
  ⟨s.vm.act rand action, s.actions ++ [action]⟩

/-- One entry of the repeat stack. -/
structure Frame where
  start : ℕ
  stop : ℕ
  left : ℤ
  deriving DecidableEq, Repr

structure Machine (D : Type) where
  pc : ℕ
  repeats : List Frame
  session : Session D
  returned : Bool := false

def OpCode.opensBlock : OpCode → Bool
  | .check => true
  | .repeatLoop => true
  | _ => false

/-- The index of the END that closes the block the scan starts in; `index` is that of
the first instruction given. -/
def findEnd : List Instruction → ℕ → ℕ → Option ℕ
  | [], _, _ => none
  | ins :: rest, index, depth =>
    let depth := if ins.op.opensBlock then depth + 1 else depth
    if ins.op = .endBlock then
      if depth = 0 then some index else findEnd rest (index + 1) (depth - 1)
    else findEnd rest (index + 1) depth

/-- The action of an instruction that does not concern control flow; BLOCK has none. -/
def actionOf (ins : Instruction) : Option Action :=
  match ins.op with
  | .say => some (.say ins.arg1)
  | .letVar => some (.setVar ins.arg1 ins.arg2)
  | .qbit => some (.createQbit ins.arg1 ins.arg2)
  | .hadamard => some (.hadamard ins.arg1)
  | .cnot => some (.cnot ins.arg1 ins.arg2)
  | .entangle => some (.entangle ins.arg1 ins.arg2)
  | .measure => some (.measure ins.arg1)
  | .qmsg => some (.qmsg ins.arg1)
  | .encodeQmsg => some (.encode ins.arg1)
  | .decodeQmsg => some (.decode ins.arg1)
  | .safeAction => some (.safeAction ins.arg1)
  | _ => none

section
variable {D : Type} [Doubles D] (rand : ℕ → ℤ) (code : List Instruction)

/-- Stop with a message; the session keeps what was done. -/
def Machine.fail (m : Machine D) (text : Bytes) : Machine D :=
  { m with session := { m.session with vm := m.session.vm.print text }, returned := true }

/-- One iteration of the loop over pc, its final increment included. -/
def execute (m : Machine D) (ins : Instruction) : Machine D :=
  match ins.op with
  | .check =>
    let session := m.session.perform rand (.check ins.arg1 ins.arg2 ins.value)
    if (m.session.vm.evalCheck ins.arg1 ins.arg2 ins.value).1 then { m with pc := m.pc + 1, session := session }
    else
      { m with
        pc := (findEnd (code.drop (m.pc + 1)) (m.pc + 1) 0).getD (code.length - 1) + 1
        session := session }
  | .repeatLoop =>
    match findEnd (code.drop (m.pc + 1)) (m.pc + 1) 0 with
    | none => m.fail (str "[VM ERROR] repeat block missing END\n")
    | some stop =>
      if ins.value ≤ 0 then { m with pc := stop + 1 }
      else if m.repeats.length ≥ maxRepeats then m.fail (str "[VM ERROR] repeat stack overflow\n")
      else { m with pc := m.pc + 1, repeats := ⟨m.pc, stop, ins.value⟩ :: m.repeats }
  | .endBlock =>
    match m.repeats with
    | [] => { m with pc := m.pc + 1 }
    | frame :: outer =>
      if m.pc = frame.stop then
        if frame.left - 1 > 0 then
          { m with pc := frame.start + 1, repeats := { frame with left := frame.left - 1 } :: outer }
        else { m with pc := m.pc + 1, repeats := outer }
      else { m with pc := m.pc + 1 }
  | .unknown number => m.fail (str "[VM ERROR] unknown opcode: " ++ decimal number ++ str "\n")
  | _ => { m with pc := m.pc + 1, session := (actionOf ins).elim m.session (m.session.perform rand) }

def step (m : Machine D) : Option (Machine D) :=
  if m.returned then none
  else match code[m.pc]? with
  | none => none
  | some ins => some (execute rand code m ins)

def banner : Bytes := str "=== QBIT NOVA BYTECODE VM ===\n"

/-- The run of a program from a VM state; `none` when the fuel does not suffice. -/
def runBytecode (fuel : ℕ) (vm : VM D) : Option (Session D) :=
  (Transition.halt (step rand code) fuel ⟨0, [], ⟨vm.print banner, []⟩, false⟩).map Machine.session

end

section
variable {D : Type} [Doubles D] (rand : ℕ → ℤ) {code : List Instruction}

theorem step_at {pc : ℕ} {repeats : List Frame} {s : Session D} {ins : Instruction} (h : code[pc]? = some ins) :
    step rand code ⟨pc, repeats, s, false⟩ = some (execute rand code ⟨pc, repeats, s, false⟩ ins) := by
  simp only [step,h,Bool.false_eq_true,↓reduceIte]

/-- The innermost repeat ends no earlier than the segment at hand. -/
def EndsBefore (stop : ℕ) (repeats : List Frame) : Prop := ∀ f ∈ repeats.head?, stop ≤ f.stop

theorem EndsBefore.mono {stop stop' : ℕ} {repeats : List Frame} (h : EndsBefore stop repeats)
    (hle : stop' ≤ stop) : EndsBefore stop' repeats := fun f hf => hle.trans (h f hf)

theorem EndsBefore.head {stop start : ℕ} {left : ℤ} {outer : List Frame} {bound : ℕ} (h : bound ≤ stop) :
    EndsBefore bound (⟨start, stop, left⟩ :: outer) := by
  rintro f ⟨rfl⟩
  exact h

/-- An END that closes a check leaves the repeats alone. -/
theorem step_endOfCheck {pc : ℕ} {repeats : List Frame} {s : Session D} {ins : Instruction}
    (h : code[pc]? = some ins) (hend : ins.op = .endBlock) (hstop : EndsBefore (pc + 1) repeats) :
    step rand code ⟨pc, repeats, s, false⟩ = some ⟨pc + 1, repeats, s, false⟩ := by
  rw [step_at rand h]
  unfold execute
  rw [hend]
  cases repeats with
  | nil => rfl
  | cons frame outer =>
    have hle : pc + 1 ≤ frame.stop := hstop frame rfl
    simp only [if_neg (show ¬ pc = frame.stop by omega)]

theorem step_endAgain {start stop : ℕ} {left : ℤ} {outer : List Frame} {s : Session D} {ins : Instruction}
    (h : code[stop]? = some ins) (hend : ins.op = .endBlock) (hleft : 0 < left - 1) :
    step rand code ⟨stop, ⟨start, stop, left⟩ :: outer, s, false⟩ =
      some ⟨start + 1, ⟨start, stop, left - 1⟩ :: outer, s, false⟩ := by
  rw [step_at rand h]
  unfold execute
  rw [hend]
  simp only [↓reduceIte,if_pos (show left - 1 > 0 from hleft)]

theorem step_endLast {start stop : ℕ} {left : ℤ} {outer : List Frame} {s : Session D} {ins : Instruction}
    (h : code[stop]? = some ins) (hend : ins.op = .endBlock) (hleft : left - 1 ≤ 0) :
    step rand code ⟨stop, ⟨start, stop, left⟩ :: outer, s, false⟩ = some ⟨stop + 1, outer, s, false⟩ := by
  rw [step_at rand h]
  unfold execute
  rw [hend]
  simp only [↓reduceIte,if_neg (show ¬ left - 1 > 0 by omega)]

end

end QbitNova.Language
