import QbitNova.Language.Bell
import QbitNova.Language.QasmExport
import QbitNova.Library.OpenQasm

/-! # What the exported OpenQASM says

The file that is exported for a program is read back. Its comments repeat names of the
program and stay comments, because no name breaks a line; its statements are the gates of the
code in order. It is valid OpenQASM as long as no cnot has one qbit in both places.
-/
namespace QbitNova.Language
open CText OpenQasm Numbering

def QasmLine.statement? : QasmLine → Option OpenQasm.Statement
  | .h q => some (.gate (str "h") [q])
  | .cx control target => some (.gate (str "cx") [control, target])
  | .measure q => some (.measure q q)
  | .comment _ => none

/-- The gate of an instruction whose names stand in the table. -/
def Instruction.gate? (names : List Bytes) (ins : Instruction) : Option OpenQasm.Statement :=
  (mappedGate names (fun name => names.idxOf name) ins).bind QasmLine.statement?

/-- The OpenQASM program of an array whose qbits are numbered by a table. -/
def programOf (names : List Bytes) (code : List Instruction) : Program :=
  ⟨names.length, names.length, code.filterMap (Instruction.gate? names)⟩

/-- What a file owes the array it is made from: it numbers the declared names, says what the
array says, and is valid exactly if no cnot of a declared name is one of the name with itself. -/
structure Tells (code : List Instruction) (names : List Bytes) (text : Bytes) : Prop where
  numbers : Numbers (declaredNames code) names
  read : OpenQasm.read text = some (programOf names code)
  valid : (programOf names code).Valid ↔
    ∀ ins ∈ code, ins.op = .cnot → ins.arg1 ∈ declaredNames code → ins.arg1 ≠ ins.arg2

/-- The instructions whose names are printed. -/
def OpCode.printed : OpCode → Bool
  | .qbit | .hadamard | .cnot | .measure | .entangle => true
  | _ => false

/-- No name that is printed breaks its line. -/
def Instruction.OneLine (ins : Instruction) : Prop := ins.op.printed = true → 10 ∉ ins.arg1 ∧ 10 ∉ ins.arg2

section Names

theorem Word.one_line (w : Word) : 10 ∉ w.text := fun hmem => absurd (w.bytes 10 hmem) (by decide)

theorem QuantumState.one_line (s : QuantumState) : 10 ∉ s.spelling.2 := by
  cases s <;> decide

theorem one_line_of_silent {ins : Instruction} (h : ins.op.printed = false) : ins.OneLine := by
  intro hprinted
  rw [h] at hprinted
  cases hprinted

/-- A statement with a block: its first instruction, its body, its end and what follows. -/
theorem block_one_line {head : Instruction} {body next : Node} (hhead : head.op.printed = false)
    (hbody : ∀ ins ∈ codeOf body, ins.OneLine) (hnext : ∀ ins ∈ codeOf next, ins.OneLine) :
    ∀ ins ∈ head :: (codeOf (.node .block (str "block") .null .null body .null) ++ [{ op := .endBlock }]) ++ codeOf next,
      ins.OneLine := by
  have hinside : ∀ ins ∈ codeOf (.node .block (str "block") .null .null body .null), ins.OneLine := by
    rw [codeOf,codeOf,List.append_nil]
    exact hbody
  refine List.forall_mem_append.mpr ⟨List.forall_mem_cons.mpr ⟨one_line_of_silent hhead,?_⟩,hnext⟩
  exact List.forall_mem_append.mpr ⟨hinside,List.forall_mem_singleton.mpr (one_line_of_silent rfl)⟩

mutual

theorem tree_one_line : ∀ (s : Statement) {next : Node}, (∀ ins ∈ codeOf next, ins.OneLine) →
    ∀ ins ∈ codeOf (s.tree next), ins.OneLine
  | .say operand, next, hnext => by
    rw [Statement.tree,codeOf]
    exact List.forall_mem_cons.mpr ⟨one_line_of_silent rfl,hnext⟩
  | .letBinding name value, next, hnext => by
    rw [Statement.tree,codeOf]
    exact List.forall_mem_cons.mpr ⟨one_line_of_silent rfl,hnext⟩
  | .check name comparison value body, next, hnext => by
    rw [Statement.tree,codeOf]
    exact block_one_line rfl (treeOf_one_line body) hnext
  | .repeatLoop count body, next, hnext => by
    rw [Statement.tree,codeOf]
    exact block_one_line rfl (treeOf_one_line body) hnext
  | .qmsg operand, next, hnext => by
    rw [Statement.tree,codeOf]
    exact List.forall_mem_cons.mpr ⟨one_line_of_silent rfl,hnext⟩
  | .encode name, next, hnext => by
    rw [Statement.tree,codeOf]
    exact List.forall_mem_cons.mpr ⟨one_line_of_silent rfl,hnext⟩
  | .decode name, next, hnext => by
    rw [Statement.tree,codeOf]
    exact List.forall_mem_cons.mpr ⟨one_line_of_silent rfl,hnext⟩
  | .qbit name state, next, hnext => by
    rw [Statement.tree,codeOf]
    exact List.forall_mem_cons.mpr ⟨fun _ => ⟨name.one_line,state.one_line⟩,hnext⟩
  | .hadamard name, next, hnext => by
    rw [Statement.tree,codeOf]
    exact List.forall_mem_cons.mpr ⟨fun _ => ⟨name.one_line,List.not_mem_nil⟩,hnext⟩
  | .measure name, next, hnext => by
    rw [Statement.tree,codeOf]
    exact List.forall_mem_cons.mpr ⟨fun _ => ⟨name.one_line,List.not_mem_nil⟩,hnext⟩
  | .entangle first second, next, hnext => by
    rw [Statement.tree,codeOf]
    exact List.forall_mem_cons.mpr ⟨fun _ => ⟨first.one_line,second.one_line⟩,hnext⟩
  | .cnot control target, next, hnext => by
    rw [Statement.tree,codeOf]
    exact List.forall_mem_cons.mpr ⟨fun _ => ⟨control.one_line,target.one_line⟩,hnext⟩
  | .action name, next, hnext => by
    rw [Statement.tree,codeOf]
    exact List.forall_mem_cons.mpr ⟨one_line_of_silent rfl,hnext⟩
  | .bare name _, next, hnext => by
    rw [Statement.tree]
    exact hnext

theorem treeOf_one_line : ∀ program : List Statement, ∀ ins ∈ codeOf (treeOf program), ins.OneLine
  | [] => by
    rw [treeOf,codeOf]
    simp
  | s :: rest => by
    rw [treeOf]
    exact tree_one_line s (treeOf_one_line rest)

end

end Names

section Printing
variable {code : List Instruction} {names : List Bytes} {line : QasmLine} {ins : Instruction}

/-- The line as it is read. -/
def QasmLine.read (line : QasmLine) : Line := (line.statement?.map Line.statement).getD .empty

theorem prints_comment {text : Bytes} (h : 10 ∉ text) : Prints (str "// " ++ text ++ [10]) [.empty] := by
  refine .single ?_ (readLine_comment text)
  rw [List.mem_append,not_or]
  exact ⟨by decide,h⟩

theorem named_gate {name : Bytes} {operands : List ℕ} (hname : name = str "h" ∨ name = str "cx") (hne : operands ≠ []) :
    (OpenQasm.Statement.gate name operands).Named := by
  rcases hname with rfl | rfl
  · exact ⟨by decide,by decide,by decide,by decide,hne⟩
  · exact ⟨by decide,by decide,by decide,by decide,hne⟩

theorem prints_qasmLine (h : ∀ text, line = .comment text → 10 ∉ text) : Prints line.text [line.read] := by
  cases line with
  | h q =>
    have hline := joined_gate_one (str "h") q
    have htext : QasmLine.text (.h q) = str "h" ++ str " q[" ++ str (toString q) ++ str "];\n" := rfl
    rw [htext,hline]
    exact prints_statement (named_gate (.inl rfl) (List.cons_ne_nil q []))
  | cx control target =>
    have hline := joined_gate_two (str "cx") control target
    have htext : QasmLine.text (.cx control target) = str "cx" ++ str " q[" ++ str (toString control) ++ str "], q[" ++
      str (toString target) ++ str "];\n" := rfl
    rw [htext,hline]
    exact prints_statement (named_gate (.inr rfl) (List.cons_ne_nil control [target]))
  | measure q =>
    have hline := joined_measure q q
    have htext : QasmLine.text (.measure q) = str "c[" ++ str (toString q) ++ str "] = measure q[" ++ str (toString q) ++
      str "];\n" := rfl
    rw [htext,hline]
    exact prints_statement trivial
  | comment text => exact prints_comment (h text rfl)

/-- A comment repeats the names of its instruction. -/
theorem comment_one_line (hins : ins.OneLine) {text : Bytes} (h : qasmLine names ins = some (.comment text)) :
    10 ∉ text := by
  unfold qasmLine at h
  split at h
  next hop =>
    obtain ⟨hfirst,-⟩ := hins (by rw [hop]; rfl)
    split at h
    · cases h
    · cases h
      exact List.not_mem_append (by decide) hfirst
  next hop =>
    obtain ⟨hfirst,hsecond⟩ := hins (by rw [hop]; rfl)
    split at h
    · cases h
    · cases h
      exact List.not_mem_append (List.not_mem_append (List.not_mem_append (by decide) hfirst) (by decide)) hsecond
  next hop =>
    obtain ⟨hfirst,-⟩ := hins (by rw [hop]; rfl)
    split at h
    · cases h
    · cases h
      exact List.not_mem_append (by decide) hfirst
  next hop =>
    obtain ⟨hfirst,hsecond⟩ := hins (by rw [hop]; rfl)
    cases h
    refine List.not_mem_append (List.not_mem_append ?_ hsecond) (by decide)
    exact List.not_mem_append (List.not_mem_append (by decide) hfirst) (by decide)
  · cases h

theorem qasmLine_statement (names : List Bytes) (ins : Instruction) :
    (qasmLine names ins).bind QasmLine.statement? = ins.gate? names := by
  have hindex : ∀ name, qbitIndex names name = if name ∈ names then some (names.idxOf name) else none := by
    intro name
    by_cases hmem : name ∈ names
    · rw [if_pos hmem,qbitIndex_mem hmem]
    · rw [if_neg hmem,qbitIndex_notMem hmem]
  unfold qasmLine Instruction.gate? mappedGate
  cases ins.op with
  | hadamard | measure =>
    simp only [hindex]
    by_cases hmem : ins.arg1 ∈ names
    · simp [hmem,QasmLine.statement?]
    · simp [hmem,QasmLine.statement?]
  | cnot =>
    simp only [hindex]
    by_cases hcontrol : ins.arg1 ∈ names
    · by_cases htarget : ins.arg2 ∈ names
      · simp [hcontrol,htarget,QasmLine.statement?]
      · simp [hcontrol,htarget,QasmLine.statement?]
    · simp [hcontrol,QasmLine.statement?]
  | _ => rfl

theorem prints_names (h : ∀ name ∈ names, 10 ∉ name) :
    Prints (names.zipIdx.flatMap fun (name, i) => str "// " ++ name ++ str " -> q[" ++ decimal i ++ str "]\n")
      (names.zipIdx.flatMap fun _ => [.empty]) := by
  refine .flatMap fun (name, i) hmem => ?_
  have hname := h name (List.fst_mem_of_mem_zipIdx hmem)
  have hnumber : 10 ∉ decimal (i : ℤ) := fun hdigit => by
    have := (digits_toString i).2.1 10 hdigit
    cases this
  have hcomment : 10 ∉ name ++ str " -> q[" ++ decimal i ++ str "]" :=
    List.not_mem_append (List.not_mem_append (List.not_mem_append hname (by decide)) hnumber) (by decide)
  have htext : str "// " ++ name ++ str " -> q[" ++ decimal i ++ str "]\n" =
      str "// " ++ (name ++ str " -> q[" ++ decimal i ++ str "]") ++ [10] := by
    rw [show str "]\n" = str "]" ++ [10] from rfl]
    simp only [List.append_assoc]
  simp only [htext]
  exact prints_comment hcomment

/-- The lines of a file. -/
def QasmFile.lines (file : QasmFile) : List Line :=
  [.version, .standard, .empty] ++ ([.qubits file.qnames.length, .bits file.qnames.length, .empty] ++ ([.empty] ++
    (file.qnames.zipIdx.flatMap (fun _ => [.empty]) ++ ([.empty] ++ file.body.flatMap fun line => [line.read]))))

theorem prints_file {file : QasmFile} (hnames : ∀ name ∈ file.qnames, 10 ∉ name)
    (hbody : ∀ text, QasmLine.comment text ∈ file.body → 10 ∉ text) : Prints file.text file.lines := by
  have hmap : Prints (str "// " ++ str "QBIT NOVA name map" ++ [10]) [.empty] := prints_comment (by decide)
  have hlines : Prints (file.body.flatMap QasmLine.text) (file.body.flatMap fun line => [line.read]) := by
    refine .flatMap fun line hline => prints_qasmLine ?_
    rintro text rfl
    exact hbody text hline
  have hall := prints_header.append ((prints_declarations file.qnames.length file.qnames.length).append
    (hmap.append ((prints_names hnames).append (prints_blank.append hlines))))
  rw [show str "] q;\nbit[" = str "] q;\n" ++ str "bit[" from rfl] at hall
  unfold QasmFile.text QasmFile.lines
  rw [show str "// QBIT NOVA name map\n" = str "// " ++ str "QBIT NOVA name map" ++ [10] from rfl,
    show str "\n" = [] ++ [10] from rfl,
    show decimal (file.qnames.length : ℤ) = str (toString file.qnames.length) from rfl]
  simpa only [List.append_assoc] using hall

theorem statements_of_lines (body : List QasmLine) : (body.flatMap fun line => [line.read]).filter (· ≠ .empty) =
    (body.filterMap QasmLine.statement?).map .statement := by
  induction body with
  | nil => rfl
  | cons line body ih =>
    rw [List.flatMap_cons,List.filter_append,ih]
    cases line <;> rfl

/-- A file that is made from an array is read back as the program of the array. -/
theorem read_text (hnames : ∀ name ∈ names, 10 ∉ name) (hcode : ∀ ins ∈ code, ins.OneLine) :
    OpenQasm.read (QasmFile.text ⟨names, code.filterMap (qasmLine names)⟩) = some (programOf names code) := by
  have hbody : ∀ text, QasmLine.comment text ∈ code.filterMap (qasmLine names) → 10 ∉ text := by
    intro text hmem
    obtain ⟨ins,hins,hline⟩ := List.mem_filterMap.mp hmem
    exact comment_one_line (hcode ins hins) hline
  have hsilent : (names.zipIdx.flatMap fun _ => [Line.empty]).filter (· ≠ .empty) = [] := by
    rw [List.filter_eq_nil_iff]
    simp
  have hgates : (code.filterMap (qasmLine names)).filterMap QasmLine.statement? =
      code.filterMap (Instruction.gate? names) := by
    rw [List.filterMap_filterMap]
    exact List.filterMap_congr fun ins _ => qasmLine_statement names ins
  have hlines : (QasmFile.lines ⟨names, code.filterMap (qasmLine names)⟩).filter (· ≠ .empty) =
      .version :: .standard :: .qubits names.length :: .bits names.length :: (programOf names code).body.map .statement := by
    rw [QasmFile.lines,programOf,← hgates,← statements_of_lines]
    simp only [List.filter_append,hsilent]
    rfl
  rw [(prints_file hnames hbody).read,hlines,assemble,statementsOf_map]
  rfl

end Printing

section Exporting
variable {code : List Instruction} {names : List Bytes} {ins : Instruction}

theorem collectQbits_message {message : Bytes} (h : collectQbits code names = .error message) : message ≠ [] := by
  induction code generalizing names with
  | nil => cases h
  | cons ins rest ih =>
    rw [collectQbits] at h
    split at h
    · split at h
      · cases h
        exact List.append_ne_nil_of_left_ne_nil (List.append_ne_nil_of_left_ne_nil (by decide) _) _
      · split at h
        · exact ih h
        · exact ih h
    · exact ih h

theorem exportOpenqasm_cases (code : List Instruction) :
    (∃ names, names ≠ [] ∧ exportOpenqasm code = .ok ⟨names, code.filterMap (qasmLine names)⟩) ∨
      ∃ message, message ≠ [] ∧ exportOpenqasm code = .error message := by
  cases hall : collectQbits code [] with
  | error message =>
    refine .inr ⟨message,collectQbits_message hall,?_⟩
    rw [exportOpenqasm,hall]
    rfl
  | ok names =>
    have hexport : exportOpenqasm code = if names.length = 0 then .error (str "Error: no qbits found for QASM export\n")
        else .ok ⟨names, code.filterMap (qasmLine names)⟩ := by
      rw [exportOpenqasm,hall]
      rfl
    by_cases hnone : names.length = 0
    · rw [if_pos hnone] at hexport
      exact .inr ⟨_,by decide,hexport⟩
    · rw [if_neg hnone] at hexport
      exact .inl ⟨names,fun hnil => hnone (List.length_eq_zero_iff.mpr hnil),hexport⟩

theorem gate_valid_iff : (∀ s, ins.gate? names = some s → s.Valid names.length names.length) ↔
    (ins.op = .cnot → ins.arg1 ∈ names → ins.arg1 ≠ ins.arg2) := by
  have hlt : ∀ {name}, name ∈ names → names.idxOf name < names.length := List.idxOf_lt_length_of_mem
  have hh : standardGates.lookup (str "h") = some 1 := by decide
  have hcx : standardGates.lookup (str "cx") = some 2 := by decide
  unfold Instruction.gate? mappedGate
  cases hop : ins.op with
  | hadamard =>
    by_cases hmem : ins.arg1 ∈ names
    · simp [hmem,QasmLine.statement?,OpenQasm.Statement.Valid,hh,hlt hmem]
    · simp [hmem]
  | measure =>
    by_cases hmem : ins.arg1 ∈ names
    · simp [hmem,QasmLine.statement?,OpenQasm.Statement.Valid,hlt hmem]
    · simp [hmem]
  | cnot =>
    by_cases hcontrol : ins.arg1 ∈ names
    · by_cases htarget : ins.arg2 ∈ names
      · have hsame : names.idxOf ins.arg1 = names.idxOf ins.arg2 ↔ ins.arg1 = ins.arg2 := List.idxOf_inj hcontrol
        simp [hcontrol,htarget,QasmLine.statement?,OpenQasm.Statement.Valid,hcx,hlt hcontrol,hlt htarget,hsame]
      · have hne : ins.arg1 ≠ ins.arg2 := fun heq => htarget (heq ▸ hcontrol)
        simp [htarget,hne]
    · simp [hcontrol]
  | _ => simp

theorem program_valid_iff (hne : names ≠ []) : (programOf names code).Valid ↔
    ∀ ins ∈ code, ins.op = .cnot → ins.arg1 ∈ names → ins.arg1 ≠ ins.arg2 := by
  have hpos : 0 < names.length := List.length_pos_iff.mpr hne
  have hbody : (∀ s ∈ code.filterMap (Instruction.gate? names), s.Valid names.length names.length) ↔
      ∀ ins ∈ code, ∀ s, ins.gate? names = some s → s.Valid names.length names.length := by
    simp only [List.mem_filterMap]
    constructor
    · intro h ins hins s hs
      exact h s ⟨ins,hins,hs⟩
    · rintro h s ⟨ins,hins,hs⟩
      exact h ins hins s hs
  rw [Program.Valid,programOf]
  simp only [hpos,true_and]
  rw [hbody]
  exact forall₂_congr fun ins _ => gate_valid_iff

theorem export_tells (hfit : ∀ ins ∈ code, ins.arg1.length < argumentBytes) (hcode : ∀ ins ∈ code, ins.OneLine)
    (hne : names ≠ []) (h : exportOpenqasm code = .ok ⟨names, code.filterMap (qasmLine names)⟩) :
    Tells code names (QasmFile.text ⟨names, code.filterMap (qasmLine names)⟩) := by
  have hnumbers : Numbers (declaredNames code) names := ((exportOpenqasm_spec hfit).1 _ h).numbers
  have hnames : ∀ name ∈ names, 10 ∉ name := by
    intro name hname
    obtain ⟨ins,hins,rfl⟩ := List.mem_map.mp (hnumbers.mem.mp hname)
    obtain ⟨hins,hop⟩ := List.mem_filter.mp hins
    exact (hcode ins hins (by rw [of_decide_eq_true hop]; rfl)).1
  refine ⟨hnumbers,read_text hnames hcode,?_⟩
  rw [program_valid_iff hne]
  simp only [hnumbers.mem]

variable {program : List Item} (h : Fitting program)
include h

/-- The exporter on the text of a program that fits, however it is laid out: if at each
declaration fewer than 32 different names stand before it, and there is one, it prints a file
that says what the code says; otherwise it has a message and prints nothing. -/
theorem source_read_back (layout : Layout) (path : Bytes) (args : List Bytes) :
    (Room maxQasmQbits [] (declaredNames (codeOf (bodyOf program))) ∧
        1 ≤ (declaredNames (codeOf (bodyOf program))).toFinset.card →
      ∃ names text, qasmMain (path :: args) (.content (layout.print (lexemesOf program))) = .ok ⟨0, text, []⟩ ∧
        Tells (codeOf (bodyOf program)) names text) ∧
    (¬ (Room maxQasmQbits [] (declaredNames (codeOf (bodyOf program))) ∧
        1 ≤ (declaredNames (codeOf (bodyOf program))).toFinset.card) →
      ∃ message, message ≠ [] ∧
        qasmMain (path :: args) (.content (layout.print (lexemesOf program))) = .ok ⟨0, [], message⟩) := by
  have hfit := (code_of_compile (compile_body h)).2
  have hcode := treeOf_one_line (program.filterMap Item.statement?)
  have hemits := (exportOpenqasm_spec hfit).2
  have hmain := qasmMain_print h layout path args
  rcases exportOpenqasm_cases (codeOf (bodyOf program)) with ⟨names,hne,hexport⟩ | ⟨message,hne,hexport⟩
  · rw [hexport] at hmain
    refine ⟨fun _ => ⟨names,_,hmain,export_tells hfit hcode hne hexport⟩,fun hnot => ?_⟩
    exact absurd (hemits.mp ⟨_,hexport⟩) hnot
  · rw [hexport] at hmain
    refine ⟨fun hroom => ?_,fun _ => ⟨message,hne,hmain⟩⟩
    obtain ⟨file,hfile⟩ := hemits.mpr hroom
    rw [hexport] at hfile
    cases hfile

end Exporting

theorem source_read_back_pair : ∃ names text,
    qasmMain [str "bell.qn"] (.content (plainLayout.print (lexemesOf (pairProgram three wordQ wordP)))) = .ok ⟨0, text, []⟩ ∧
      OpenQasm.read text = some (programOf names (codeOf (bodyOf (pairProgram three wordQ wordP)))) ∧
      (programOf names (codeOf (bodyOf (pairProgram three wordQ wordP)))).Valid := by
  have hfit := pairProgram_fitting three (show wordQ.text.length < argumentBytes by decide)
    (show wordP.text.length < argumentBytes by decide)
  have hdeclared : declaredNames (codeOf (bodyOf (pairProgram three wordQ wordP))) = [str "q", str "p"] := rfl
  have hroom : Room maxQasmQbits [] [str "q", str "p"] := by
    rw [room_cons,room_cons]
    exact ⟨by decide,by decide,room_nil _ _⟩
  have htells := (source_read_back hfit plainLayout (str "bell.qn") []).1
  rw [hdeclared] at htells
  obtain ⟨names,text,hmain,htells⟩ := htells ⟨hroom,by decide⟩
  refine ⟨names,text,hmain,htells.read,htells.valid.mpr ?_⟩
  decide

end QbitNova.Language
