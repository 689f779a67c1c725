import QbitNova.Language.CompilerCorrect
import QbitNova.Quantum.State2

/-! # The other two readers of bytecode

The STATE2 runner and the OpenQASM exporter go through the instruction array once, from
front to back. CHECK, REPEAT and END are not in their switches and the declared state
of a qbit is not read. What they apply or print is compared with what the byte VM
does for the same array.
-/
namespace QbitNova.Language
open CText State2

/-- A quantum operation that took effect. -/
inductive QuantumOp where
  | prepare (name state : Bytes)
  | hadamard (name : Bytes)
  | cnot (control target : Bytes)
  deriving DecidableEq, Repr

def zeroState : Bytes := str "|0>"

/-- The four states a qbit can be declared in. -/
def qbitStates : List Bytes := [str "|0>", str "|1>", str "|+>", str "|->"]

section Byte
variable {D : Type} [Doubles D]

/-- The operation an action performs in a VM; a gate on a qbit that does not exist and
a qbit the table has no room for are only reported. -/
def VM.applied (vm : VM D) : Action → List QuantumOp
  | .createQbit name state =>
    if (vm.findQbit name).isSome ∨ vm.qbits.length < maxVmQbits then
      [.prepare name (if state ∈ qbitStates then state else zeroState)]
    else []
  | .hadamard name => if (vm.findQbit name).isSome then [.hadamard name] else []
  | .cnot control target =>
    if (vm.findQbit control).isSome ∧ (vm.findQbit target).isSome then [.cnot control target] else []
  | _ => []

/-- The operations that take effect when actions are run one after the other. -/
def appliedBy (rand : ℕ → ℤ) (vm : VM D) : List Action → List QuantumOp
  | [] => []
  | action :: rest => vm.applied action ++ appliedBy rand (vm.act rand action) rest

end Byte

section State2
variable {D : Type} [Doubles D]

/-- The locals of the STATE2 runner, with the random numbers it drew, what it printed and
the operations it applied. -/
structure State2VM (D : Type) where
  state : QState2 D
  q0 : Bytes
  q1 : Bytes
  qcount : ℕ
  measured : Bool
  bit0 : ℕ
  bit1 : ℕ
  draws : ℕ
  output : Bytes
  applied : List QuantumOp

def State2VM.print (s : State2VM D) (text : Bytes) : State2VM D := { s with output := s.output ++ text }

/-- `say` of a qbit: its bit once measured, the whole state before. -/
def State2VM.sayQbit (s : State2VM D) (bit : ℕ) : State2VM D :=
  if s.measured then s.print (str "|" ++ decimal bit ++ str ">\n") else s.print (qstate2Print s.state)

/-- One iteration of the runner. Both qbits are in |0> from the start, so mapping a name
to one of them is what prepares it. -/
def state2Step (rand : ℕ → ℤ) (s : State2VM D) (ins : Instruction) : State2VM D :=
  match ins.op with
  | .say =>
    if ins.arg1 = s.q0 then s.sayQbit s.bit0
    else if ins.arg1 = s.q1 then s.sayQbit s.bit1
    else s.print (ins.arg1 ++ str "\n")
  | .qbit =>
    if s.qcount = 0 then
      { s with q0 := ins.arg1, qcount := 1, applied := s.applied ++ [QuantumOp.prepare ins.arg1 zeroState] }.print
        (str "[STATE2] qbit " ++ ins.arg1 ++ str " mapped as first qbit\n")
    else if s.qcount = 1 then
      { s with q1 := ins.arg1, qcount := 2, applied := s.applied ++ [QuantumOp.prepare ins.arg1 zeroState] }.print
        (str "[STATE2] qbit " ++ ins.arg1 ++ str " mapped as second qbit\n")
    else s.print (str "[STATE2 WARN] only 2 qbits supported: " ++ ins.arg1 ++ str "\n")
  | .hadamard =>
    if ins.arg1 = s.q0 then
      let state := qstate2HFirst s.state
      { s with state := state, applied := s.applied ++ [QuantumOp.hadamard ins.arg1] }.print
        (str "[STATE2] H(" ++ ins.arg1 ++ str ") " ++ qstate2Print state)
    else s.print (str "[STATE2 TODO] H currently supports first qbit only: " ++ ins.arg1 ++ str "\n")
  | .cnot =>
    if ins.arg1 = s.q0 ∧ ins.arg2 = s.q1 then
      let state := qstate2CnotFirstToSecond s.state
      { s with state := state, applied := s.applied ++ [QuantumOp.cnot ins.arg1 ins.arg2] }.print
        (str "[STATE2] CNOT " ++ ins.arg1 ++ str "," ++ ins.arg2 ++ str " " ++ qstate2Print state)
    else
      s.print (str "[STATE2 TODO] CNOT currently supports first -> second only: " ++ ins.arg1 ++ str " " ++
        ins.arg2 ++ str "\n")
  | .measure =>
    let (result, state) := qstate2Measure (rand s.draws) s.state
    { s with
      state := state
      measured := true
      bit0 := (result >>> 1) &&& 1
      bit1 := result &&& 1
      draws := s.draws + 1 }.print (str "[STATE2] MEASURE pair " ++ qstate2Print state)
  | _ => s

def runState2Bytecode (rand : ℕ → ℤ) (code : List Instruction) : State2VM D :=
  code.foldl (state2Step rand)
    ⟨qstate2Init00, [], [], 0, false, 0, 0, 0, str "\n=== QBIT NOVA STATE2 VM ===\n", []⟩

end State2

section Qasm

def maxQasmQbits : ℕ := 32

/-- The lines of the body of a QASM file; everything else is a comment. -/
inductive QasmLine where
  | h (q : ℕ)
  | cx (control target : ℕ)
  | measure (q : ℕ)
  | comment (text : Bytes)
  deriving DecidableEq, Repr

def QasmLine.text : QasmLine → Bytes
  | .h q => str "h q[" ++ decimal q ++ str "];\n"
  | .cx control target => str "cx q[" ++ decimal control ++ str "], q[" ++ decimal target ++ str "];\n"
  | .measure q => str "c[" ++ decimal q ++ str "] = measure q[" ++ decimal q ++ str "];\n"
  | .comment text => str "// " ++ text ++ str "\n"

/-- A QASM file: the names behind its qubits and the lines of its body. -/
structure QasmFile where
  qnames : List Bytes
  body : List QasmLine
  deriving DecidableEq, Repr

/-- The text that is printed for a file. -/
def QasmFile.text (file : QasmFile) : Bytes :=
  str "OPENQASM 3.0;\ninclude \"stdgates.inc\";\n\n" ++
    str "qubit[" ++ decimal file.qnames.length ++ str "] q;\n" ++
    str "bit[" ++ decimal file.qnames.length ++ str "] c;\n\n" ++
    str "// QBIT NOVA name map\n" ++
    file.qnames.zipIdx.flatMap (fun (name, i) => str "// " ++ name ++ str " -> q[" ++ decimal i ++ str "]\n") ++
    str "\n" ++ file.body.flatMap QasmLine.text

def qbitIndex (qnames : List Bytes) (name : Bytes) : Option ℕ := qnames.findIdx? (· == name)

/-- The first pass: the declared names, each once, or the message that there are too many. -/
def collectQbits : List Instruction → List Bytes → Except Bytes (List Bytes)
  | [], qnames => .ok qnames
  | ins :: rest, qnames =>
    if ins.op = .qbit then
      if qnames.length ≥ maxQasmQbits then
        .error (str "Error: QASM exporter supports max " ++ decimal maxQasmQbits ++ str " qbits\n")
      else match qbitIndex qnames ins.arg1 with
      | none => collectQbits rest (qnames ++ [ins.arg1.take 63])
      | some _ => collectQbits rest qnames
    else collectQbits rest qnames

/-- The second pass: the line of one instruction, if it has one. -/
def qasmLine (qnames : List Bytes) (ins : Instruction) : Option QasmLine :=
  match ins.op with
  | .hadamard =>
    match qbitIndex qnames ins.arg1 with
    | some q => some (.h q)
    | none => some (.comment (str "WARN: unknown qbit for h: " ++ ins.arg1))
  | .cnot =>
    match qbitIndex qnames ins.arg1, qbitIndex qnames ins.arg2 with
    | some control, some target => some (.cx control target)
    | _, _ => some (.comment (str "WARN: unknown qbit for cx: " ++ ins.arg1 ++ str " " ++ ins.arg2))
  | .measure =>
    match qbitIndex qnames ins.arg1 with
    | some q => some (.measure q)
    | none => some (.comment (str "WARN: unknown qbit for measure: " ++ ins.arg1))
  | .entangle =>
    some (.comment (str "NOTE: entangle " ++ ins.arg1 ++ str " " ++ ins.arg2 ++
      str " is simulator-level; use h + cx for hardware QASM."))
  | _ => none

/-- The exported file, or the message on stderr. -/
def exportOpenqasm (code : List Instruction) : Except Bytes QasmFile := do
  let qnames ← collectQbits code []
  if qnames.length = 0 then .error (str "Error: no qbits found for QASM export\n")
  else return ⟨qnames, code.filterMap (qasmLine qnames)⟩

/-- The operation a line stands for. -/
def QasmLine.op (qnames : List Bytes) : QasmLine → Option QuantumOp
  | .h q => (qnames[q]?).map .hadamard
  | .cx control target =>
    match qnames[control]?, qnames[target]? with
    | some c, some t => some (.cnot c t)
    | _, _ => none
  | _ => none

/-- What the file says: the qubits it declares are in |0>, then come the gates. -/
def QasmFile.ops (file : QasmFile) : List QuantumOp :=
  file.qnames.map (.prepare · zeroState) ++ file.body.filterMap (QasmLine.op file.qnames)

end Qasm

def Action.isQuantum : Action → Bool
  | .createQbit _ _ => true
  | .hadamard _ => true
  | .cnot _ _ => true
  | _ => false

/-- The quantum statements of an array, in the order they are written. -/
def written (code : List Instruction) : List Action := (code.filterMap actionOf).filter Action.isQuantum

/-- The names in the qbit instructions of an array, with repetitions. -/
def declaredNames (code : List Instruction) : List Bytes := (code.filter (·.op = .qbit)).map Instruction.arg1

section
variable {D : Type} [Doubles D] (rand : ℕ → ℤ)

/-- Every quantum statement of a tree is run exactly once: a check around one passes,
and a repeat around one has a single round. -/
def RunsOnce : Node → Session D → Prop
  | .null, _ => True
  | .node type value left right body next, s =>
    (match type with
      | .check =>
        let condition := conditionOf left
        written (codeOf body) = [] ∨ (s.vm.evalCheck condition.1 condition.2.1 condition.2.2).1 = true ∧
          RunsOnce body (s.perform rand (.check condition.1 condition.2.1 condition.2.2))
      | .repeatLoop => written (codeOf body) = [] ∨ atoi value = 1 ∧ RunsOnce body s
      | .block => RunsOnce body s
      | _ => True) ∧ RunsOnce next (exec rand (.node type value left right body .null) s)

/-- A session goes on to another one by actions of which the quantum ones are given. -/
def Continues (s t : Session D) (quantum : List Action) : Prop :=
  ∃ actions, t.actions = s.actions ++ actions ∧ t.vm = actions.foldl (VM.act rand) s.vm ∧
    actions.filter Action.isQuantum = quantum

variable {rand}

theorem Continues.refl (s : Session D) : Continues rand s s [] := ⟨[],(List.append_nil _).symm,rfl,rfl⟩

theorem Continues.trans {s t u : Session D} {first second : List Action} (h : Continues rand s t first)
    (h' : Continues rand t u second) : Continues rand s u (first ++ second) := by
  obtain ⟨a,ha,hvm,hfilter⟩ := h
  obtain ⟨b,hb,hvm',hfilter'⟩ := h'
  refine ⟨a ++ b,?_,?_,?_⟩
  · rw [hb,ha,List.append_assoc]
  · rw [hvm',hvm,List.foldl_append]
  · rw [List.filter_append,hfilter,hfilter']

theorem Continues.perform (s : Session D) (action : Action) :
    Continues rand s (s.perform rand action) ([action].filter Action.isQuantum) := ⟨[action],rfl,rfl,rfl⟩

theorem written_append (a b : List Instruction) : written (a ++ b) = written a ++ written b := by
  rw [written,List.filterMap_append,List.filter_append]
  rfl

theorem written_block (ins : Instruction) (body : List Instruction) (h : actionOf ins = none) :
    written (ins :: (body ++ [{ op := .endBlock }])) = written body := by
  rw [written,List.filterMap_cons_none h,List.filterMap_append,List.filter_append]
  exact List.append_nil _

theorem written_append_nil {a b : List Instruction} (h : written (a ++ b) = []) : written a = [] ∧ written b = [] := by
  rw [written_append] at h
  exact List.append_eq_nil_iff.mp h

theorem Continues.iterate {f : Session D → Session D} (h : ∀ s, Continues rand s (f s) []) (k : ℕ) (s : Session D) :
    Continues rand s (f^[k] s) [] := by
  induction k generalizing s with
  | zero => exact Continues.refl s
  | succ k ih => exact (h s).trans (ih (f s))

/-- A tree that runs each of its quantum statements once, or has none, runs them as they
are written. -/
theorem exec_continues (n : Node) (s : Session D) (h : written (codeOf n) = [] ∨ RunsOnce rand n s) :
    Continues rand s (exec rand n s) (written (codeOf n)) := by
  induction n generalizing s with
  | null => exact Continues.refl s
  | node type value left right body next ihleft ihright ihbody ihnext =>
    have hthen : ∀ {own : List Instruction} {t : Session D}, Continues rand s t (written own) →
        written (own ++ codeOf next) = [] ∨ RunsOnce rand next t →
        Continues rand s (exec rand next t) (written (own ++ codeOf next)) := by
      intro own t hown hnext
      rw [written_append]
      exact hown.trans (ihnext t (hnext.imp_left fun hnil => (written_append_nil hnil).2))
    have hsimple : ∀ {ins : Instruction} {action : Action}, actionOf ins = some action →
        written ([ins] ++ codeOf next) = [] ∨ RunsOnce rand next (s.perform rand action) →
        Continues rand s (exec rand next (s.perform rand action)) (written ([ins] ++ codeOf next)) := by
      intro ins action hins hnext
      refine hthen ?_ hnext
      rw [written,List.filterMap_cons_some hins]
      exact Continues.perform s action
    have hafter : (written (codeOf (.node type value left right body next)) = [] ∨
        RunsOnce rand next (exec rand (.node type value left right body .null) s)) := h.imp_right And.right
    cases type with
    | check =>
      have hbody : written (codeOf body) = [] ∨
          (s.vm.evalCheck (conditionOf left).1 (conditionOf left).2.1 (conditionOf left).2.2).1 = true ∧
          RunsOnce rand body (s.perform rand (.check (conditionOf left).1 (conditionOf left).2.1 (conditionOf left).2.2)) := by
        rcases h with hnil | honce
        · left
          have hown := (written_append_nil hnil).1
          rwa [written_block _ _ rfl] at hown
        · exact honce.1
      refine hthen ?_ hafter
      rw [written_block _ _ rfl]
      have htested : Continues rand s _ [] := Continues.perform s
        (.check (conditionOf left).1 (conditionOf left).2.1 (conditionOf left).2.2)
      simp only []
      split_ifs with hpass
      · exact htested.trans (ihbody _ (hbody.imp_right And.right))
      · rw [hbody.resolve_right fun hb => hpass hb.1]
        exact htested
    | repeatLoop =>
      have hbody : written (codeOf body) = [] ∨ atoi value = 1 ∧ RunsOnce rand body s := by
        rcases h with hnil | honce
        · left
          have hown := (written_append_nil hnil).1
          rwa [written_block _ _ rfl] at hown
        · exact honce.1
      refine hthen ?_ hafter
      rw [written_block _ _ rfl]
      rcases hbody with hnil | ⟨hcount,honce⟩
      · rw [hnil]
        refine Continues.iterate (fun s => ?_) _ s
        have := ihbody s (Or.inl hnil)
        rwa [hnil] at this
      · simp only [hcount]
        exact ihbody s (Or.inr honce)
    | block =>
      refine hthen (ihbody s ?_) hafter
      rcases h with hnil | honce
      · exact Or.inl (written_append_nil hnil).1
      · exact Or.inr honce.1
    | program | binop | string | number | ident | state => exact hthen (Continues.refl s) hafter
    | _ => exact hsimple rfl hafter

end

section Names
variable {D : Type} {vm : VM D}

def VM.names (vm : VM D) : List Bytes := vm.qbits.map VMQbit.name

/-- The names of the table after an action. -/
def namesAfter (names : List Bytes) : Action → List Bytes
  | .createQbit name _ => if name ∈ names ∨ ¬ names.length < maxVmQbits then names else names ++ [name]
  | _ => names

/-- The operation of an action, by the names that exist when it is run. -/
def opOf (names : List Bytes) : Action → List QuantumOp
  | .createQbit name state =>
    if name ∈ names ∨ names.length < maxVmQbits then
      [.prepare name (if state ∈ qbitStates then state else zeroState)]
    else []
  | .hadamard name => if name ∈ names then [.hadamard name] else []
  | .cnot control target => if control ∈ names ∧ target ∈ names then [.cnot control target] else []
  | _ => []

def opsFrom (names : List Bytes) : List Action → List QuantumOp
  | [] => []
  | action :: rest => opOf names action ++ opsFrom (namesAfter names action) rest

theorem findQbit_isSome (vm : VM D) (name : Bytes) : (vm.findQbit name).isSome ↔ name ∈ vm.names := by
  rw [VM.findQbit,List.findIdx?_isSome,VM.names]
  simp

theorem modifyQbit_names (vm : VM D) (q : ℕ) {f : VMQbit D → VMQbit D} (hf : ∀ entry, (f entry).name = entry.name) :
    (vm.modifyQbit q f).names = vm.names := by
  apply List.ext_getElem?
  intro i
  simp only [VM.names,VM.modifyQbit,List.getElem?_map,List.getElem?_modify]
  cases vm.qbits[i]? with
  | none => rfl
  | some entry =>
    apply congrArg some
    split_ifs
    · exact hf entry
    · rfl

theorem link_names (vm : VM D) (source target : ℕ) (a b : Bytes) :
    (vm.link source target a b).names = vm.names := by
  unfold VM.link
  have hlinked : ((vm.modifyQbit source fun entry => { entry with entangledWith := b }).modifyQbit target
      fun entry => { entry with entangledWith := a }).names = vm.names := by
    rw [modifyQbit_names _ target (by intro; rfl),modifyQbit_names _ source (by intro; rfl)]
  simp only []
  split
  · exact hlinked
  · rw [modifyQbit_names _ target (by intro; rfl)]
    exact hlinked

theorem applied_eq (vm : VM D) (action : Action) : vm.applied action = opOf vm.names action := by
  have hlength : vm.names.length = vm.qbits.length := List.length_map _
  cases action with
  | createQbit name state => simp only [VM.applied,opOf,findQbit_isSome,hlength]
  | hadamard name => simp only [VM.applied,opOf,findQbit_isSome]
  | cnot control target => simp only [VM.applied,opOf,findQbit_isSome]
  | _ => rfl

variable [Doubles D]

theorem prepare_names (vm : VM D) (q : ℕ) (state : Bytes) : (vm.prepare q state).names = vm.names := by
  unfold VM.prepare
  split
  · exact modifyQbit_names vm q fun _ => rfl
  · exact modifyQbit_names _ q fun _ => rfl

theorem createQbit_names (vm : VM D) (name state : Bytes) :
    (vm.createQbit name state).names = namesAfter vm.names (.createQbit name state) := by
  have hlength : vm.names.length = vm.qbits.length := List.length_map _
  have hfound := findQbit_isSome vm name
  unfold VM.createQbit
  rw [namesAfter,hlength]
  cases hfind : vm.findQbit name with
  | some q =>
    rw [hfind] at hfound
    rw [if_pos (Or.inl (hfound.mp rfl))]
    exact prepare_names vm q state
  | none =>
    rw [hfind] at hfound
    have hnew : name ∉ vm.names := fun hmem => by cases hfound.mpr hmem
    simp only []
    by_cases hfull : vm.qbits.length ≥ maxVmQbits
    · rw [if_pos hfull,if_pos (Or.inr (by omega))]
      rfl
    · rw [if_neg hfull,if_neg (by rintro (h | h); exacts [hnew h,h (by omega)]),prepare_names]
      exact List.map_append

theorem measureLinked_names (rand : ℕ → ℤ) (vm : VM D) (q : ℕ) : (vm.measureLinked rand q).names = vm.names := by
  unfold VM.measureLinked
  split
  · rfl
  · have hcollapse : ∀ (vm : VM D) q result, (vm.modifyQbit q (VM.collapse result)).names = vm.names :=
      fun vm q result => modifyQbit_names vm q fun _ => rfl
    simp only []
    split_ifs
    · exact hcollapse _ _ _
    · split
      · exact hcollapse _ _ _
      · exact (hcollapse _ _ _).trans (hcollapse _ _ _)

/-- The tables after an action that neither assigns nor declares: those before it, or
those after a gate, a link or a measurement. -/
inductive TablesAfter (rand : ℕ → ℤ) (vm : VM D) : VM D → Prop
  | kept : TablesAfter rand vm vm
  | hadamard (q : ℕ) : TablesAfter rand vm (vm.hadamard q)
  | link (source target : ℕ) (a b : Bytes) : TablesAfter rand vm (vm.link source target a b)
  | measure (q : ℕ) : TablesAfter rand vm (vm.measureLinked rand q)

/-- What an action does to the tables, for all actions at once. -/
theorem act_tables (rand : ℕ → ℤ) (vm : VM D) {action : Action} (hset : ∀ name text, action ≠ .setVar name text)
    (hcreate : ∀ name state, action ≠ .createQbit name state) :
    ∃ after, TablesAfter rand vm after ∧ (vm.act rand action).vars = after.vars ∧
      (vm.act rand action).qbits = after.qbits := by
  have hgate : ∀ name (gate : VM D → ℕ → VM D), (∀ q, TablesAfter rand vm (gate vm q)) →
      ∃ after, TablesAfter rand vm after ∧ (vm.onQbit name gate).vars = after.vars ∧
        (vm.onQbit name gate).qbits = after.qbits := by
    intro name gate h
    unfold VM.onQbit
    split
    · exact ⟨_,h _,rfl,rfl⟩
    · exact ⟨vm,.kept,rfl,rfl⟩
  cases action with
  | setVar name text => exact absurd rfl (hset name text)
  | createQbit name state => exact absurd rfl (hcreate name state)
  | hadamard name => exact hgate name _ fun q => .hadamard q
  | cnot control target =>
    simp only [VM.act,VM.cnotQbits]
    split
    · exact ⟨_,.link _ _ _ _,rfl,rfl⟩
    · exact ⟨vm,.kept,rfl,rfl⟩
  | entangle left right =>
    simp only [VM.act,VM.entangleQbits]
    split
    · exact ⟨_,.link _ _ _ _,rfl,rfl⟩
    · exact ⟨vm,.kept,rfl,rfl⟩
  | measure name =>
    simp only [VM.act,VM.qmsgMeasure]
    split_ifs
    · exact ⟨vm,.kept,rfl,rfl⟩
    · exact ⟨vm,.kept,rfl,rfl⟩
    · exact hgate name _ fun q => .measure q
  | say value =>
    refine ⟨vm,.kept,?_⟩
    simp only [VM.act,VM.vmSay,VM.qmsgPrintRegister,VM.printQbit]
    repeat' split
    all_goals exact ⟨rfl,rfl⟩
  | check name operator value =>
    refine ⟨vm,.kept,?_⟩
    simp only [VM.act,VM.evalCheck]
    repeat' split
    all_goals exact ⟨rfl,rfl⟩
  | qmsg message =>
    refine ⟨vm,.kept,?_⟩
    simp only [VM.act,VM.qmsgSet]
    split_ifs <;> exact ⟨rfl,rfl⟩
  | encode target =>
    refine ⟨vm,.kept,?_⟩
    simp only [VM.act,VM.qmsgEncode]
    split_ifs <;> exact ⟨rfl,rfl⟩
  | decode target =>
    refine ⟨vm,.kept,?_⟩
    simp only [VM.act,VM.qmsgDecode]
    split_ifs <;> exact ⟨rfl,rfl⟩
  | safeAction name =>
    refine ⟨vm,.kept,?_⟩
    simp only [VM.act,VM.runSafeAction]
    split <;> exact ⟨rfl,rfl⟩

theorem TablesAfter.names {rand : ℕ → ℤ} {vm after : VM D} (h : TablesAfter rand vm after) :
    after.names = vm.names := by
  cases h with
  | kept => rfl
  | hadamard q => exact modifyQbit_names vm q fun _ => rfl
  | link source target a b => exact link_names vm source target a b
  | measure q => exact measureLinked_names rand vm q

theorem act_names (rand : ℕ → ℤ) (vm : VM D) (action : Action) :
    (vm.act rand action).names = namesAfter vm.names action := by
  have hother : (∀ name text, action ≠ .setVar name text) → (∀ name state, action ≠ .createQbit name state) →
      (vm.act rand action).names = vm.names := by
    intro hset hcreate
    obtain ⟨after,hafter,-,hqbits⟩ := act_tables rand vm hset hcreate
    rw [VM.names,hqbits]
    exact hafter.names
  cases action with
  | createQbit name state => exact createQbit_names vm name state
  | setVar name text =>
    simp only [VM.act,VM.setVar]
    repeat' split
    all_goals rfl
  | _ => exact hother (fun _ _ h => by cases h) (fun _ _ h => by cases h)

theorem appliedBy_eq (rand : ℕ → ℤ) (vm : VM D) (actions : List Action) :
    appliedBy rand vm actions = opsFrom vm.names (actions.filter Action.isQuantum) := by
  induction actions generalizing vm with
  | nil => rfl
  | cons action rest ih =>
    rw [appliedBy,ih,act_names,applied_eq]
    cases hq : action.isQuantum with
    | true => rw [List.filter_cons_of_pos hq,opsFrom]
    | false =>
      have hnone : opOf vm.names action = [] ∧ namesAfter vm.names action = vm.names := by
        cases action with
        | createQbit => cases hq
        | hadamard => cases hq
        | cnot => cases hq
        | _ => exact ⟨rfl,rfl⟩
      rw [List.filter_cons_of_neg (by rw [hq]; simp),hnone.1,hnone.2]
      rfl

end Names

def Action.declares : Action → Bool
  | .createQbit _ _ => true
  | _ => false

/-- The gate of an action. -/
def Action.gate : Action → Option QuantumOp
  | .hadamard name => some (.hadamard name)
  | .cnot control target => some (.cnot control target)
  | _ => none

/-- The quantum statements are those the STATE2 runner knows: two qbits declared once
each, H on the first, CNOT from the first to the second, and measurements. -/
structure Supported (q s p t : Bytes) (code : List Instruction) : Prop where
  declared : (written code).filter Action.declares = [.createQbit q s, .createQbit p t]
  distinct : q ≠ p
  states : s ∈ qbitStates ∧ t ∈ qbitStates
  gates : ∀ action ∈ written code, action.declares = true ∨ action = .hadamard q ∨ action = .cnot q p
  separate : ∀ ins ∈ code, ins.op ≠ .entangle

/-- No gate is written before a declaration. -/
def DeclarationsFirst (actions : List Action) : Prop :=
  actions = actions.filter Action.declares ++ actions.filter (fun action => !action.declares)

section
variable {D : Type} [Doubles D] {q s p t : Bytes} {code : List Instruction} {gates : List Action}

/-- The part of the STATE2 runner that decides which operations it applies. -/
def State2VM.view (s : State2VM D) : Bytes × Bytes × ℕ × List QuantumOp := (s.q0, s.q1, s.qcount, s.applied)

/-- How one quantum statement changes that part. -/
def viewStep (view : Bytes × Bytes × ℕ × List QuantumOp) (action : Action) : Bytes × Bytes × ℕ × List QuantumOp :=
  let (q0, q1, qcount, applied) := view
  match action with
  | .createQbit name _ =>
    if qcount = 0 then (name, q1, 1, applied ++ [.prepare name zeroState])
    else if qcount = 1 then (q0, name, 2, applied ++ [.prepare name zeroState])
    else view
  | .hadamard name => if name = q0 then (q0, q1, qcount, applied ++ [.hadamard name]) else view
  | .cnot control target =>
    if control = q0 ∧ target = q1 then (q0, q1, qcount, applied ++ [.cnot control target]) else view
  | _ => view

theorem state2Step_view (rand : ℕ → ℤ) (s : State2VM D) (ins : Instruction) :
    (state2Step rand s ins).view = (written [ins]).foldl viewStep s.view := by
  unfold state2Step written actionOf
  cases hop : ins.op with
  | qbit =>
    simp only [List.filterMap,hop,List.filter,Action.isQuantum,List.foldl,viewStep,State2VM.view]
    split_ifs <;> rfl
  | hadamard =>
    simp only [List.filterMap,hop,List.filter,Action.isQuantum,List.foldl,viewStep,State2VM.view]
    split_ifs <;> rfl
  | cnot =>
    simp only [List.filterMap,hop,List.filter,Action.isQuantum,List.foldl,viewStep,State2VM.view]
    split_ifs <;> rfl
  | say =>
    simp only [List.filterMap,hop,List.filter,Action.isQuantum,List.foldl,State2VM.sayQbit]
    split_ifs <;> rfl
  | _ => simp only [List.filterMap,hop,List.filter,Action.isQuantum,List.foldl] <;> rfl

theorem state2_view (rand : ℕ → ℤ) (s : State2VM D) (code : List Instruction) :
    (code.foldl (state2Step rand) s).view = (written code).foldl viewStep s.view := by
  induction code generalizing s with
  | nil => rfl
  | cons ins rest ih =>
    rw [List.foldl_cons,ih,state2Step_view,← List.foldl_append,← written_append,List.singleton_append]

theorem viewStep_gates (applied : List QuantumOp) (hgates : ∀ g ∈ gates, g = .hadamard q ∨ g = .cnot q p) :
    gates.foldl viewStep (q, p, 2, applied) = (q, p, 2, applied ++ gates.filterMap Action.gate) := by
  induction gates generalizing applied with
  | nil => rw [List.filterMap_nil,List.append_nil]; rfl
  | cons g rest ih =>
    have hrest := fun applied => ih applied fun g hg => hgates g (List.mem_cons_of_mem _ hg)
    rcases hgates g List.mem_cons_self with rfl | rfl
    · rw [List.foldl_cons,viewStep,if_pos rfl,hrest,List.append_assoc]
      rfl
    · rw [List.foldl_cons,viewStep,if_pos ⟨rfl,rfl⟩,hrest,List.append_assoc]
      rfl

/-- Behind its two declarations the byte VM applies every gate. -/
theorem opsFrom_gates (hgates : ∀ g ∈ gates, g = .hadamard q ∨ g = .cnot q p) :
    opsFrom [q, p] gates = gates.filterMap Action.gate := by
  induction gates with
  | nil => rfl
  | cons g rest ih =>
    have hrest := ih fun g hg => hgates g (List.mem_cons_of_mem _ hg)
    rcases hgates g List.mem_cons_self with rfl | rfl
    · rw [opsFrom,opOf,if_pos List.mem_cons_self]
      exact congrArg (_ :: ·) hrest
    · rw [opsFrom,opOf,if_pos ⟨List.mem_cons_self,by simp⟩]
      exact congrArg (_ :: ·) hrest

theorem collectQbits_filter (code : List Instruction) (qnames : List Bytes) :
    collectQbits code qnames = collectQbits (code.filter (·.op = .qbit)) qnames := by
  induction code generalizing qnames with
  | nil => rfl
  | cons ins rest ih =>
    by_cases hop : ins.op = .qbit
    · rw [List.filter_cons_of_pos (by simpa using hop),collectQbits,collectQbits,if_pos hop,if_pos hop]
      split_ifs
      · rfl
      · split
        · exact ih _
        · exact ih _
    · rw [List.filter_cons_of_neg (by simpa using hop),collectQbits,if_neg hop]
      exact ih qnames

theorem declared_eq (code : List Instruction) : (written code).filter Action.declares =
    (code.filter (·.op = .qbit)).map (fun ins => .createQbit ins.arg1 ins.arg2) := by
  induction code with
  | nil => rfl
  | cons ins rest ih =>
    have hone : (written [ins]).filter Action.declares =
        ([ins].filter (·.op = .qbit)).map (fun ins => .createQbit ins.arg1 ins.arg2) := by
      unfold written actionOf
      cases hop : ins.op <;> simp [hop,Action.isQuantum,Action.declares]
    rw [show ins :: rest = [ins] ++ rest from rfl,written_append,List.filter_append,hone,ih,List.filter_append,
      List.map_append]

theorem collectQbits_supported (hcode : Supported q s p t code) (hfit : ∀ ins ∈ code, ins.arg1.length < argumentBytes) :
    collectQbits code [] = .ok [q, p] := by
  have hdeclared := hcode.declared
  rw [declared_eq] at hdeclared
  obtain ⟨first,rest,hfilter,hfirst,hrest⟩ := List.map_eq_cons_iff.mp hdeclared
  obtain ⟨second,rest,rfl,hsecond,hrest⟩ := List.map_eq_cons_iff.mp hrest
  obtain rfl := List.map_eq_nil_iff.mp hrest
  have hmem : ∀ ins ∈ [first, second], ins.op = .qbit ∧ ins.arg1.take 63 = ins.arg1 := by
    intro ins hins
    rw [← hfilter,List.mem_filter] at hins
    have := hfit ins hins.1
    exact ⟨by simpa using hins.2,List.take_of_length_le (by unfold argumentBytes at this; omega)⟩
  obtain ⟨hop,htake⟩ := hmem first (by simp)
  obtain ⟨hop',htake'⟩ := hmem second (by simp)
  cases hfirst
  cases hsecond
  have hne : (first.arg1 == second.arg1) = false := by simpa using hcode.distinct
  rw [collectQbits_filter,hfilter]
  simp [collectQbits,hop,hop',htake,htake',qbitIndex,maxQasmQbits,hne]

theorem qasmLine_op (hcode : Supported q s p t code) {ins : Instruction} (hins : ins ∈ code) :
    (qasmLine [q, p] ins).bind (QasmLine.op [q, p]) = (actionOf ins).bind Action.gate := by
  have hfirst : qbitIndex [q, p] q = some 0 := by simp [qbitIndex,List.findIdx?_cons]
  have hsecond : qbitIndex [q, p] p = some 1 := by simp [qbitIndex,List.findIdx?_cons,hcode.distinct]
  have hgate : ∀ action, actionOf ins = some action → action.isQuantum = true →
      action.declares = true ∨ action = .hadamard q ∨ action = .cnot q p := by
    intro action haction hquantum
    exact hcode.gates action (List.mem_filter.mpr ⟨List.mem_filterMap.mpr ⟨ins,hins,haction⟩,hquantum⟩)
  unfold qasmLine
  cases hop : ins.op with
  | hadamard =>
    have := hgate (.hadamard ins.arg1) (by rw [actionOf,hop]) rfl
    simp only [Action.declares,Bool.false_eq_true,Action.hadamard.injEq,false_or,reduceCtorEq,or_false] at this
    simp [actionOf,hop,this,hfirst,QasmLine.op,Action.gate]
  | cnot =>
    have := hgate (.cnot ins.arg1 ins.arg2) (by rw [actionOf,hop]) rfl
    simp only [Action.declares,Bool.false_eq_true,Action.cnot.injEq,false_or,reduceCtorEq] at this
    simp [actionOf,hop,this,hfirst,hsecond,QasmLine.op,Action.gate]
  | measure =>
    simp only [actionOf,hop]
    split <;> rfl
  | _ => simp [actionOf,hop,QasmLine.op,Action.gate]

theorem written_gates (code : List Instruction) :
    (written code).filterMap Action.gate = (code.filterMap actionOf).filterMap Action.gate := by
  rw [written,List.filterMap_filter]
  refine List.filterMap_congr fun action _ => ?_
  cases action <;> rfl

theorem export_supported (hcode : Supported q s p t code) (hfit : ∀ ins ∈ code, ins.arg1.length < argumentBytes) :
    ∃ file, exportOpenqasm code = .ok file ∧
      file.ops = [.prepare q zeroState, .prepare p zeroState] ++ (written code).filterMap Action.gate := by
  refine ⟨⟨[q, p], code.filterMap (qasmLine [q, p])⟩,?_,?_⟩
  · rw [exportOpenqasm,collectQbits_supported hcode hfit]
    rfl
  · rw [QasmFile.ops,List.filterMap_filterMap,List.filterMap_congr fun ins hins => qasmLine_op hcode hins,
      written_gates,List.filterMap_filterMap]
    rfl

theorem opsFrom_length (names : List Bytes) (actions : List Action) :
    (opsFrom names actions).length ≤ actions.length := by
  induction actions generalizing names with
  | nil => exact le_refl _
  | cons action rest ih =>
    have hone : (opOf names action).length ≤ 1 := by
      unfold opOf
      split
      all_goals first | split_ifs <;> simp | simp
    rw [opsFrom,List.length_append,List.length_cons]
    have := ih (namesAfter names action)
    omega

variable {actions : List Action}

theorem gates_length (hgates : ∀ a ∈ actions, a.declares = true ∨ a = .hadamard q ∨ a = .cnot q p) :
    actions.length = (actions.filter Action.declares).length + (actions.filterMap Action.gate).length := by
  induction actions with
  | nil => rfl
  | cons action rest ih =>
    have hrest := ih fun a ha => hgates a (List.mem_cons_of_mem _ ha)
    rw [List.length_cons,hrest]
    rcases hgates action List.mem_cons_self with hyes | rfl | rfl
    · have hgate : action.gate = none := by cases action <;> first | rfl | cases hyes
      rw [List.filter_cons_of_pos hyes,List.filterMap_cons_none hgate,List.length_cons]
      omega
    · exact Nat.add_assoc _ _ _
    · exact Nat.add_assoc _ _ _

theorem opsFrom_lost {names : List Bytes} {action : Action} (rest : List Action) (hlost : opOf names action = []) :
    (opsFrom names (action :: rest)).length < (action :: rest).length := by
  rw [opsFrom,hlost,List.nil_append,List.length_cons]
  exact Nat.lt_succ_of_le (opsFrom_length _ rest)

theorem opsFrom_first (hs : s ∈ qbitStates) (rest : List Action) :
    opsFrom [] (.createQbit q s :: rest) = .prepare q s :: opsFrom [q] rest := by
  rw [opsFrom,opOf,if_pos (Or.inr (by decide)),if_pos hs,namesAfter,if_neg (by simp [maxVmQbits])]
  rfl

theorem opsFrom_second (ht : t ∈ qbitStates) (hne : q ≠ p) (rest : List Action) :
    opsFrom [q] (.createQbit p t :: rest) = .prepare p t :: opsFrom [q, p] rest := by
  rw [opsFrom,opOf,if_pos (Or.inr (by simp [maxVmQbits])),if_pos ht,namesAfter,
    if_neg (by simp [maxVmQbits,hne.symm])]
  rfl

theorem filter_declares_cons {action : Action} {rest : List Action} {name state : Bytes} {others : List Action}
    (hyes : action.declares = true) (h : (action :: rest).filter Action.declares = .createQbit name state :: others) :
    action = .createQbit name state ∧ rest.filter Action.declares = others := by
  rw [List.filter_cons_of_pos hyes] at h
  cases h
  exact ⟨rfl,rfl⟩

theorem gates_of_rest (hgates : ∀ a ∈ actions, a.declares = true ∨ a = .hadamard q ∨ a = .cnot q p) :
    ∀ g ∈ actions.filter (fun action => !action.declares), g = .hadamard q ∨ g = .cnot q p := by
  intro g hg
  obtain ⟨hmem,hno⟩ := List.mem_filter.mp hg
  rcases hgates g hmem with hyes | hgate
  · rw [hyes] at hno
    cases hno
  · exact hgate

theorem ops_eq_iff (hdeclared : actions.filter Action.declares = [.createQbit q s, .createQbit p t])
    (hgates : ∀ a ∈ actions, a.declares = true ∨ a = .hadamard q ∨ a = .cnot q p) (hne : q ≠ p)
    (hstates : s ∈ qbitStates ∧ t ∈ qbitStates) :
    opsFrom [] actions = [.prepare q zeroState, .prepare p zeroState] ++ actions.filterMap Action.gate ↔
      s = zeroState ∧ t = zeroState ∧ DeclarationsFirst actions := by
  constructor
  · intro h
    have hlength := gates_length hgates
    rw [hdeclared] at hlength
    have hall := congrArg List.length h
    rw [List.length_append,List.length_cons,List.length_singleton] at hall
    have hkept : ¬ (opsFrom [] actions).length < actions.length := by
      rw [hlength,hall]
      exact Nat.lt_irrefl _
    cases actions with
    | nil => cases hdeclared
    | cons first rest =>
      rcases hgates first List.mem_cons_self with hyes | rfl | rfl
      · obtain ⟨rfl,hrest⟩ := filter_declares_cons hyes hdeclared
        rw [opsFrom_first hstates.1] at h hkept
        cases rest with
        | nil => cases hrest
        | cons second rest =>
          rcases hgates second (by simp) with hyes | rfl | rfl
          · obtain ⟨rfl,hnone⟩ := filter_declares_cons hyes hrest
            rw [opsFrom_second hstates.2 hne] at h
            have hs := (List.cons.inj h).1
            have ht := (List.cons.inj (List.cons.inj h).2).1
            refine ⟨(QuantumOp.prepare.inj hs).2,(QuantumOp.prepare.inj ht).2,?_⟩
            have hothers : rest.filter (fun action => !action.declares) = rest := by
              rw [List.filter_eq_self]
              intro a ha
              simpa using List.filter_eq_nil_iff.mp hnone a ha
            rw [DeclarationsFirst,hdeclared]
            exact congrArg (_ :: _ :: ·) hothers.symm
          · rw [opsFrom,opOf,if_pos List.mem_cons_self] at h
            cases (List.cons.inj (List.cons.inj h).2).1
          · have hlost : opOf [q] (.cnot q p) = [] := if_neg (by simp [hne.symm])
            have := opsFrom_lost rest hlost
            exact absurd (Nat.succ_lt_succ this) hkept
      · exact absurd (opsFrom_lost rest rfl) hkept
      · exact absurd (opsFrom_lost rest rfl) hkept
  · rintro ⟨rfl,rfl,hfirst⟩
    rw [DeclarationsFirst,hdeclared] at hfirst
    rw [hfirst]
    refine (opsFrom_first hstates.1 _).trans (congrArg _ ((opsFrom_second hstates.2 hne _).trans (congrArg _ ?_)))
    exact opsFrom_gates (gates_of_rest hgates)

/-- The STATE2 runner, the exporter and the byte VM agree on an array that the byte VM
ran from a state. -/
def SameOps (rand : ℕ → ℤ) (vm : VM D) (code : List Instruction) (run : Session D) : Prop :=
  (runState2Bytecode rand code : State2VM D).applied = appliedBy rand vm run.actions ∧
    ∃ file, exportOpenqasm code = .ok file ∧ file.ops = appliedBy rand vm run.actions

theorem state2_written (rand : ℕ → ℤ) (hgates : ∀ g ∈ gates, g = .hadamard q ∨ g = .cnot q p)
    (hcode : written code = .createQbit q s :: .createQbit p t :: gates) :
    (runState2Bytecode rand code : State2VM D).applied =
      [.prepare q zeroState, .prepare p zeroState] ++ gates.filterMap Action.gate := by
  have hview : (runState2Bytecode rand code : State2VM D).view = _ := state2_view rand _ code
  rw [hcode] at hview
  exact congrArg (fun view => view.2.2.2) (hview.trans (viewStep_gates _ hgates))

/-- For a compiled program that runs each of its quantum statements once, the three agree
exactly when both qbits are declared in |0> and before the first gate. -/
theorem consumers_agree_iff {root : Node} (rand : ℕ → ℤ) (vm : VM D) (hcompile : compile root [] = .ok code)
    (hcode : Supported q s p t code) (hfresh : vm.qbits = [])
    (hfits : Fits rand root maxRepeats ⟨vm.print banner, []⟩) (honce : RunsOnce rand root ⟨vm.print banner, []⟩) :
    ∃ run, (∃ fuel, ∀ extra, runBytecode rand code (fuel + extra) vm = some run) ∧
      (SameOps rand vm code run ↔ s = zeroState ∧ t = zeroState ∧ DeclarationsFirst (written code)) := by
  obtain ⟨rfl,hfit⟩ := code_of_compile hcompile
  rw [List.nil_append] at hcode ⊢
  obtain ⟨fuel,hrun⟩ := run_codeOf rand root vm hfits
  refine ⟨_,⟨fuel,hrun⟩,?_⟩
  obtain ⟨actions,hactions,-,hwritten⟩ := exec_continues root _ (Or.inr honce)
  rw [List.nil_append] at hactions
  have hops : appliedBy rand vm (exec rand root ⟨vm.print banner, []⟩).actions =
      opsFrom [] (written (codeOf root)) := by
    rw [hactions,appliedBy_eq,hwritten,VM.names,hfresh]
    rfl
  obtain ⟨file,hfile,hfileOps⟩ := export_supported hcode hfit
  have hiff := ops_eq_iff hcode.declared hcode.gates hcode.distinct hcode.states
  rw [SameOps,hops]
  constructor
  · rintro ⟨-,file',hfile',hsame⟩
    rw [hfile] at hfile'
    cases hfile'
    exact hiff.mp (hsame.symm.trans hfileOps)
  · intro hcondition
    have hsame := hiff.mpr hcondition
    refine ⟨?_,file,hfile,hfileOps.trans hsame.symm⟩
    have hfirst := hcondition.2.2
    rw [DeclarationsFirst,hcode.declared] at hfirst
    have hwrittenGates := congrArg (List.filterMap Action.gate) hfirst
    rw [hsame,state2_written rand (gates_of_rest hcode.gates) hfirst,hwrittenGates]
    rfl

end

/-- `qbit q = |0>`, `qbit p = |0>` and a statement around `hadamard q`. -/
def bellProgram (around : Node → Node) : Node :=
  let gate := .node .hadamard (str "q") .null .null .null .null
  let second := .node .qbit (str "p") (newNode .state zeroState) .null .null (around gate)
  .node .qbit (str "q") (newNode .state zeroState) .null .null second

/-- A repeat with its block. -/
def repeated (count : Bytes) (body : Node) : Node :=
  .node .repeatLoop count .null .null (.node .block (str "block") .null .null body .null) .null

/-- In one round of a repeat the three agree. -/
theorem consumers_agree_once :
    let root := bellProgram (repeated (str "1"))
    ∃ run, (∃ fuel, ∀ extra, @runBytecode ℤ wholeDoubles (fun _ => 0) (codeOf root) (fuel + extra) (emptyVM ℤ) =
      some run) ∧ @SameOps ℤ wholeDoubles (fun _ => 0) (emptyVM ℤ) (codeOf root) run := by
  intro root
  let _ : Doubles ℤ := wholeDoubles
  have hcompile : compile root [] = .ok (codeOf root) := by decide
  have hcode : Supported (str "q") zeroState (str "p") zeroState (codeOf root) :=
    ⟨by decide,by decide,by decide,by decide,by decide⟩
  obtain ⟨run,hrun,hiff⟩ := consumers_agree_iff (fun _ => 0) (emptyVM ℤ) hcompile hcode rfl
    (fits_of_repeatDepth _ root _ (by decide)) ⟨trivial,trivial,Or.inr ⟨by decide,⟨trivial,trivial⟩,trivial⟩,trivial⟩
  exact ⟨run,hrun,hiff.mpr ⟨rfl,rfl,by unfold DeclarationsFirst; decide⟩⟩

/-- With two rounds the byte VM applies H twice, the other two once. -/
theorem consumers_differ : ¬ ∀ (root : Node) (code : List Instruction) (q s p t : Bytes) (vm : VM ℤ) (run : Session ℤ)
    (fuel : ℕ), compile root [] = .ok code → Supported q s p t code → vm.qbits = [] →
      @runBytecode ℤ wholeDoubles (fun _ => 0) code fuel vm = some run →
      @SameOps ℤ wholeDoubles (fun _ => 0) vm code run := by
  intro h
  let root := bellProgram (repeated (str "2"))
  have hcode : Supported (str "q") zeroState (str "p") zeroState (codeOf root) :=
    ⟨by decide,by decide,by decide,by decide,by decide⟩
  have hsame := h root (codeOf root) _ _ _ _ (emptyVM ℤ) _ 20 (by decide) hcode rfl rfl
  exact absurd hsame.1 (by decide)

end QbitNova.Language
