import QbitNova.Language.Consumers
import QbitNova.Language.CompilerStorage
import QbitNova.Language.Interpreter

/-! # The programs that take a source file

The runner chooses its machine by looking for a mark anywhere in the source text, prints the
bytecode and runs it; the exporter prints the QASM file; the interpreter walks the tree. All
of them read the file in the same way. Standard output and standard error are kept apart.
-/
namespace QbitNova.Language
open CText

/-- What is at the path: nothing that can be opened, a file too large to be read into memory,
or a file and its bytes. -/
inductive SourceFile where
  | missing
  | tooLarge
  | content (bytes : Bytes)

/-- Writing or reading outside of an array or through a null pointer. -/
inductive Crash where
  | memory
  | lexer
  | parser (fault : Fault)
  | compiler (fault : CompileFault)
  | interpreter (fault : Interpreter.RunFault)

structure Exit where
  code : ℕ
  stdout : Bytes
  stderr : Bytes := []

/-- The tree of a source, which ends at its first NUL. -/
def readTree (source : Bytes) : Except Crash Node :=
  match tokenizeStored (cText source) with
  | none => .error .lexer
  | some toks => (parse toks).mapError .parser

def readCode (source : Bytes) : Except Crash (List Instruction) := do
  let tree ← readTree source
  (compile tree.body []).mapError .compiler

/-- The instruction as one line of the listing. -/
def OpCode.name : OpCode → Bytes
  | .say => str "SAY"
  | .letVar => str "LET"
  | .qbit => str "QBIT"
  | .hadamard => str "HADAMARD"
  | .measure => str "MEASURE"
  | .entangle => str "ENTANGLE"
  | .cnot => str "CNOT"
  | .check => str "CHECK"
  | .repeatLoop => str "REPEAT"
  | .block => str "BLOCK"
  | .endBlock => str "END"
  | .safeAction => str "SAFE_ACTION"
  | .qmsg => str "QMSG"
  | .encodeQmsg => str "ENCODE_QMSG"
  | .decodeQmsg => str "DECODE_QMSG"
  | .unknown _ => str "UNKNOWN"

/-- A number with at least four digits, as `%04d` prints it. -/
def fourDigits (n : ℕ) : Bytes := List.replicate (4 - (decimal n).length) 48 ++ decimal n

def listingLine (ins : Instruction) (i : ℕ) : Bytes :=
  fourDigits i ++ str ": " ++ ins.op.name ++
    (if ins.arg1 = [] then [] else str " " ++ ins.arg1) ++
    (if ins.arg2 = [] then [] else str " " ++ ins.arg2) ++
    (if ins.value = 0 then [] else str " " ++ decimal ins.value) ++ str "\n"

def printBytecode (code : List Instruction) : Bytes := code.zipIdx.flatMap fun (ins, i) => listingLine ins i

def state2Mark : Bytes := str "@quantum.state2"

def wantsState2 (source : Bytes) : Bool := (strstr state2Mark source).isSome

section
variable (D : Type) [Doubles D] (rand : ℕ → ℤ)

def runnerTitle (useState2 : Bool) : Bytes :=
  str "=== QBIT NOVA UNIFIED RUNNER ===\n[RUNNER] mode: " ++ (if useState2 then str "STATE2" else str "BYTE_VM") ++
    str "\n\n=== QBIT NOVA BYTECODE ===\n"

/-- The main function of qnova; `none` when the fuel of the byte VM does not suffice. -/
def qnovaMain (fuel : ℕ) (args : List Bytes) (file : SourceFile) : Option (Except Crash Exit) :=
  match args, file with
  | [], _ => some (.ok { code := 0, stdout := str "Usage: qnova <file.qn>\n" })
  | path :: _, .missing => some (.ok { code := 1, stdout := str "Error: file not found: " ++ path ++ str "\n" })
  | _ :: _, .tooLarge => some (.ok { code := 1, stdout := str "Error: memory allocation failed\n" })
  | _ :: _, .content source =>
    let useState2 := wantsState2 (cText source)
    match readCode source with
    | .error crash => some (.error crash)
    | .ok code =>
      let shown := runnerTitle useState2 ++ printBytecode code
      if useState2 then
        some (.ok { code := 0, stdout := shown ++ (runState2Bytecode (D := D) rand code).output })
      else
        (runBytecode rand code fuel (emptyVM D)).map fun session =>
          .ok { code := 0, stdout := shown ++ str "\n" ++ session.vm.output }

/-- The main function of qnova-qasm. -/
def qasmMain (args : List Bytes) (file : SourceFile) : Except Crash Exit :=
  match args, file with
  | [], _ => .ok { code := 0, stdout := str "Usage: qnova-qasm <file.qn>\n" }
  | path :: _, .missing =>
    .ok { code := 1, stdout := [], stderr := str "Error: file not found: " ++ path ++ str "\n" }
  | _ :: _, .tooLarge => .ok { code := 1, stdout := [], stderr := str "Error: memory allocation failed\n" }
  | _ :: _, .content source => do
    let code ← readCode source
    match exportOpenqasm code with
    | .ok exported => return { code := 0, stdout := exported.text }
    | .error message => return { code := 0, stdout := [], stderr := message }

/-- The main function of the interpreter, which allocates without looking at the answer. -/
def astMain (args : List Bytes) (file : SourceFile) : Except Crash Exit :=
  match args, file with
  | [], _ => .ok { code := 0, stdout := str "QBIT NOVA AST Interpreter v0.3\nUsage: qnova-ast <file.qn>\n" }
  | _ :: _, .missing => .ok { code := 1, stdout := str "Error: file not found\n" }
  | _ :: _, .tooLarge => .error .memory
  | _ :: _, .content source => do
    let tree ← readTree source
    let s ← (Interpreter.execute rand tree.body (Interpreter.start D)).mapError .interpreter
    return { code := 0, stdout := str "=== QBIT NOVA EXECUTION ===\n" ++ s.output }

end

/-- The statements of a program without its directives. -/
def bodyOf (program : List Item) : Node := treeOf (program.filterMap Item.statement?)

/-- A program that fits the token array, the buffers of its lexemes, the instruction array,
its argument fields and the repeat stack. -/
structure Fitting (program : List Item) : Prop where
  tokens : (lexemesOf program).length + 1 ≤ maxTokens
  directives : ∀ d, Item.directive d ∈ program → d.text.length ≤ 255
  lexemes : (bodyOf program).LexemesFit
  code : (codeOf (bodyOf program)).length ≤ maxInstr
  depth : (bodyOf program).repeatDepth ≤ maxRepeats

/-- A lexeme in which the mark of STATE2 stands: a directive or a literal. -/
def Lexeme.marked : Lexeme → Bool
  | .directive d => wantsState2 (64 :: d.text)
  | .string l => wantsState2 l.text
  | _ => false

theorem state2Mark_plain : ∀ c ∈ state2Mark, isspace c = false := by
  have hall : state2Mark.all (fun c => isspace c == false) = true := by decide
  simpa using hall

theorem wordByte_plain {c : UInt8} (h : isWordByte c = true) : c ≠ 64 ∧ c ≠ 0 := by
  constructor <;> rintro rfl <;> exact absurd h (by decide)

theorem digit_wordByte {c : UInt8} (h : isdigit c = true) : isWordByte c = true := by
  rw [isWordByte,isalnum,h,Bool.or_true,Bool.true_or]

theorem Word.bytes (w : Word) : ∀ c ∈ w.text, isWordByte c = true := by
  obtain ⟨text,hvalid⟩ := w
  cases text with
  | nil => simp
  | cons c rest =>
    simp only [wordText,Bool.and_eq_true,List.all_eq_true,Bool.or_eq_true] at hvalid
    have hfirst : isWordByte c = true := by
      rcases hvalid.1.1 with halpha | hmark
      · simp [isWordByte,isalnum,halpha]
      · simp [isWordByte,hmark]
    exact List.forall_mem_cons.mpr ⟨hfirst,hvalid.1.2⟩

theorem Numeral.bytes (n : Numeral) : ∀ c ∈ n.text, isWordByte c = true := by
  obtain ⟨text,hvalid⟩ := n
  cases text with
  | nil => simp
  | cons c rest =>
    simp only [numeralText,Bool.and_eq_true,List.all_eq_true] at hvalid
    exact List.forall_mem_cons.mpr ⟨digit_wordByte hvalid.1.1,fun d hd => digit_wordByte (hvalid.1.2 d hd)⟩

theorem Symbol.bytes (s : Symbol) : ∀ c ∈ s.spelling.2, c ≠ 64 ∧ c ≠ 0 := by
  have hall : s.spelling.2.all (fun c => c != 64 && c != 0) = true := by
    rcases s with (_ | _ | _ | _) | (_ | _ | _ | _ | _) | _ | _ | _ <;> decide
  simpa using hall

/-- The mark starts with an at sign. -/
theorem not_marked {text : Bytes} (h : ∀ c ∈ text, isWordByte c = true) : ¬ state2Mark <:+: text := by
  intro hinfix
  have hmem : 64 ∈ text := hinfix.subset (by decide)
  exact (wordByte_plain (h 64 hmem)).1 rfl

theorem Lexeme.marked_iff (l : Lexeme) : l.marked = true ↔ state2Mark <:+: l.text := by
  cases l with
  | word w => simpa [Lexeme.marked,Lexeme.text] using not_marked w.bytes
  | number n => simpa [Lexeme.marked,Lexeme.text] using not_marked n.bytes
  | directive d => exact strstr_isSome state2Mark (64 :: d.text)
  | symbol s =>
    have hnot : ¬ state2Mark <:+: s.spelling.2 := fun h => (s.bytes 64 (h.subset (by decide))).1 rfl
    simpa [Lexeme.marked,Lexeme.text] using hnot
  | string l =>
    have hquote : 34 ∉ state2Mark := by decide
    have hopening := infix_across hquote [] (l.text ++ [34])
    rw [List.nil_append,infix_across hquote l.text []] at hopening
    have hnil : ¬ state2Mark <:+: [] := by decide
    rw [Lexeme.text,hopening,Lexeme.marked,wantsState2,strstr_isSome]
    simp [hnil]

theorem Lexeme.no_nul (l : Lexeme) : ∀ c ∈ l.text, c ≠ 0 := by
  cases l with
  | word w => exact fun c hc => (wordByte_plain (w.bytes c hc)).2
  | number n => exact fun c hc => (wordByte_plain (n.bytes c hc)).2
  | directive d =>
    have hvalid := d.valid
    simp only [List.all_eq_true,Bool.and_eq_true,bne_iff_ne] at hvalid
    exact List.forall_mem_cons.mpr ⟨by decide,fun c hc => (hvalid c hc).2⟩
  | symbol s => exact fun c hc => (s.bytes c hc).2
  | string l =>
    have hvalid := l.valid
    simp only [Bool.and_eq_true,List.all_eq_true,bne_iff_ne] at hvalid
    have hinside : ∀ c ∈ l.text ++ [34], c ≠ 0 :=
      List.forall_mem_append.mpr ⟨fun c hc => (hvalid.1 c hc).2,by simp⟩
    exact List.forall_mem_cons.mpr ⟨by decide,hinside⟩

theorem infix_rest (layout : Layout) (lexemes : List Lexeme) (i : ℕ) (text : Bytes) :
    state2Mark <:+: text ++ layout.rest i lexemes ↔ state2Mark <:+: text ∨ lexemes.any Lexeme.marked = true := by
  induction lexemes generalizing i text with
  | nil =>
    rw [Layout.rest,List.any_nil]
    by_cases hafter : layout.after = []
    · simp [hafter]
    · have hacross := infix_across_blank state2Mark_plain layout.after_blank hafter text []
      have hnil : ¬ state2Mark <:+: [] := by decide
      simpa [hnil] using hacross
  | cons l lexemes ih =>
    rw [Layout.rest,infix_across_blank state2Mark_plain (layout.between_blank i) (layout.between_ne i),ih,
      ← Lexeme.marked_iff,List.any_cons,Bool.or_eq_true]

theorem wantsState2_print (layout : Layout) (lexemes : List Lexeme) :
    wantsState2 (layout.print lexemes) = lexemes.any Lexeme.marked := by
  rw [Bool.eq_iff_iff,wantsState2,strstr_isSome]
  cases lexemes with
  | nil =>
    have hnil := infix_rest layout [] 0 []
    rw [List.nil_append,Layout.rest] at hnil
    rw [Layout.print,infix_blank_append state2Mark_plain layout.before_blank,hnil,or_iff_right_iff_imp]
    exact fun h => absurd h (by decide)
  | cons l lexemes =>
    rw [Layout.print,infix_blank_append state2Mark_plain layout.before_blank,infix_rest,← Lexeme.marked_iff,
      List.any_cons,Bool.or_eq_true]

theorem blank_no_nul {text : Bytes} (h : ∀ c ∈ text, isspace c = true) : ∀ c ∈ text, c ≠ 0 := by
  rintro c hc rfl
  exact absurd (h 0 hc) (by decide)

theorem rest_no_nul (layout : Layout) (lexemes : List Lexeme) (i : ℕ) : ∀ c ∈ layout.rest i lexemes, c ≠ 0 := by
  induction lexemes generalizing i with
  | nil => exact blank_no_nul layout.after_blank
  | cons l lexemes ih =>
    rw [Layout.rest,List.forall_mem_append,List.forall_mem_append]
    exact ⟨blank_no_nul (layout.between_blank i),l.no_nul,ih (i + 1)⟩

theorem cText_print (layout : Layout) (lexemes : List Lexeme) : cText (layout.print lexemes) = layout.print lexemes := by
  have hnul : ∀ c ∈ layout.print lexemes, c ≠ 0 := by
    cases lexemes with
    | nil =>
      rw [Layout.print,List.forall_mem_append]
      exact ⟨blank_no_nul layout.before_blank,blank_no_nul layout.after_blank⟩
    | cons l lexemes =>
      rw [Layout.print,List.forall_mem_append,List.forall_mem_append]
      exact ⟨blank_no_nul layout.before_blank,l.no_nul,rest_no_nul layout lexemes 0⟩
  exact List.takeWhile_eq_self_iff.mpr fun c hc => bne_iff_ne.mpr (hnul c hc)

theorem parse_items {toks : List Token} {program : List Item}
    (h : toks.map Token.content = contents (lexemesOf program)) : parse toks = .ok (programTree program) := by
  have hlength : toks.length = (lexemesOf program).length + 1 := by
    have hmap := congrArg List.length h
    simpa [contents] using hmap
  have hitems := length_le_program program
  have hread : ∀ s, Item.statement s ∈ program → ReadsStatement toks (parseStmt toks toks.length) s := by
    intro s hs
    have hle := length_le_lexemesOf hs
    exact parseStmt_follows toks.length s (by omega)
  have hremains : Remains toks 0 program := by
    rw [Remains,List.drop_zero]
    exact h
  have hloop := programLoop_follows (toks.length + 1) (by omega) hread hremains
  simp only [parse,hloop,bind,Except.bind,pure,Except.pure]
  rw [chain_tree]
  rfl

section
variable {program : List Item} (h : Fitting program) (layout : Layout)
include h

theorem readTree_print : readTree (layout.print (lexemesOf program)) = .ok (programTree program) := by
  have hstored : tokenizeStored (layout.print (lexemesOf program)) =
      some (tokenize (layout.print (lexemesOf program))) := by
    apply tokenizeStored_print layout h.tokens
    intro l hl
    obtain ⟨item,hitem,hl⟩ := List.mem_flatMap.mp hl
    cases item with
    | directive d =>
      rcases List.mem_singleton.mp hl with rfl
      exact h.directives d hitem
    | statement s => exact s.stored l hl
  rw [readTree,cText_print,hstored]
  simp only [parse_items (tokenize_print layout (lexemesOf program)),Except.mapError]

omit layout in
theorem compile_body : compile (bodyOf program) [] = .ok (codeOf (bodyOf program)) := by
  have hwf : (bodyOf program).WellFormed := by
    have hparse := parse_items (tokenize_print plainLayout (lexemesOf program))
    exact (parse_wellFormed hparse).2.1
  exact compile_eq (bodyOf program) [] hwf h.lexemes (by simpa using h.code)

theorem readCode_print : readCode (layout.print (lexemesOf program)) = .ok (codeOf (bodyOf program)) := by
  rw [readCode,readTree_print h]
  show (compile (bodyOf program) []).mapError Crash.compiler = _
  rw [compile_body h]
  rfl

variable {D : Type} [Doubles D] (rand : ℕ → ℤ)

/-- What the byte VM has printed when it is done with a program. -/
def printedBy (D : Type) [Doubles D] (rand : ℕ → ℤ) (program : List Item) : Bytes :=
  (exec rand (bodyOf program) ⟨(emptyVM D).print banner, []⟩).vm.output

/-- A program without the mark runs on the byte VM. -/
theorem qnova_runs_bytes (hmark : (lexemesOf program).any Lexeme.marked = false) (path : Bytes) (args : List Bytes) :
    ∃ fuel, ∀ extra,
      qnovaMain D rand (fuel + extra) (path :: args) (.content (layout.print (lexemesOf program))) =
        some (.ok ⟨0, runnerTitle false ++ printBytecode (codeOf (bodyOf program)) ++ str "\n" ++
          printedBy D rand program, []⟩) := by
  obtain ⟨fuel,hfuel⟩ := run_codeOf rand (bodyOf program) (emptyVM D) (fits_of_repeatDepth rand _ _ h.depth)
  refine ⟨fuel,fun extra => ?_⟩
  simp only [qnovaMain,cText_print,wantsState2_print,hmark,readCode_print h,hfuel]
  rfl

theorem qnova_runs_state2 (hmark : (lexemesOf program).any Lexeme.marked = true) (path : Bytes) (args : List Bytes)
    (fuel : ℕ) : qnovaMain D rand fuel (path :: args) (.content (layout.print (lexemesOf program))) =
      some (.ok ⟨0, runnerTitle true ++ printBytecode (codeOf (bodyOf program)) ++
        (runState2Bytecode (D := D) rand (codeOf (bodyOf program))).output, []⟩) := by
  simp only [qnovaMain,cText_print,wantsState2_print,hmark,readCode_print h]
  rfl

theorem qasmMain_print (path : Bytes) (args : List Bytes) :
    qasmMain (path :: args) (.content (layout.print (lexemesOf program))) =
      .ok (match exportOpenqasm (codeOf (bodyOf program)) with
        | .ok exported => ⟨0, exported.text, []⟩
        | .error message => ⟨0, [], message⟩) := by
  rw [qasmMain,readCode_print h]
  simp only [bind,Except.bind]
  split <;> rfl

/-- What the three programs do with the text of a program that fits. -/
theorem drivers_run (path : Bytes) (args : List Bytes) :
    (∃ fuel, ∀ extra,
      qnovaMain D rand (fuel + extra) (path :: args) (.content (layout.print (lexemesOf program))) =
        some (.ok ⟨0, runnerTitle ((lexemesOf program).any Lexeme.marked) ++ printBytecode (codeOf (bodyOf program)) ++
          if (lexemesOf program).any Lexeme.marked then
            (runState2Bytecode (D := D) rand (codeOf (bodyOf program))).output
          else str "\n" ++ printedBy D rand program, []⟩)) ∧
    qasmMain (path :: args) (.content (layout.print (lexemesOf program))) =
      .ok (match exportOpenqasm (codeOf (bodyOf program)) with
        | .ok exported => ⟨0, exported.text, []⟩
        | .error message => ⟨0, [], message⟩) ∧
    astMain D rand (path :: args) (.content (layout.print (lexemesOf program))) =
      match Interpreter.execute rand (bodyOf program) (Interpreter.start D) with
      | .ok s => .ok ⟨0, str "=== QBIT NOVA EXECUTION ===\n" ++ s.output, []⟩
      | .error fault => .error (.interpreter fault) := by
  refine ⟨?_,?_,?_⟩
  · cases hmark : (lexemesOf program).any Lexeme.marked with
    | true =>
      refine ⟨0,fun extra => ?_⟩
      rw [qnova_runs_state2 h layout rand hmark]
      rfl
    | false =>
      obtain ⟨fuel,hfuel⟩ := qnova_runs_bytes (D := D) h layout rand hmark path args
      refine ⟨fuel,fun extra => ?_⟩
      rw [hfuel extra,List.append_assoc]
      rfl
  · exact qasmMain_print h layout path args
  · rw [astMain,readTree_print h]
    simp only [bind,Except.bind,programTree,Node.body,bodyOf]
    cases Interpreter.execute rand (treeOf (program.filterMap Item.statement?)) (Interpreter.start D) <;> rfl

end

theorem nova_plain : (str "nova.v1").all (fun c => !isspace c && c != 0) = true := by decide

/-- A comment in a literal is enough to leave the byte VM. -/
def markedSay : List Item :=
  [.directive ⟨str "nova.v1", nova_plain⟩, .statement (.say (.text ⟨str "no @quantum.state2 here", by decide⟩))]

theorem drivers_run_markedSay : Fitting markedSay ∧
    (∃ fuel, ∀ extra, @qnovaMain ℤ wholeDoubles (fun _ => 0) (fuel + extra) [str "a.qn"]
        (.content (plainLayout.print (lexemesOf markedSay))) =
      some (.ok ⟨0, runnerTitle true ++ printBytecode (codeOf (bodyOf markedSay)) ++
        (@runState2Bytecode ℤ wholeDoubles (fun _ => 0) (codeOf (bodyOf markedSay))).output, []⟩)) := by
  have hfit : Fitting markedSay := by
    refine ⟨by decide,?_,?_,by decide,by decide⟩
    · intro d hd
      simp only [markedSay,List.mem_cons,Item.directive.injEq,reduceCtorEq,List.not_mem_nil,or_false] at hd
      rw [hd]
      decide
    · simp only [markedSay,bodyOf,List.filterMap_cons,Item.statement?,List.filterMap_nil,treeOf,Statement.tree,
        Operand.tree,leaf,Node.LexemesFit]
      decide
  have hmark : (lexemesOf markedSay).any Lexeme.marked = true := by decide
  have hruns := (@drivers_run _ hfit plainLayout ℤ wholeDoubles (fun _ => 0) (str "a.qn") []).1
  rw [hmark,if_pos rfl] at hruns
  exact ⟨hfit,hruns⟩

end QbitNova.Language
