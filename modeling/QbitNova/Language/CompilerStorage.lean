import QbitNova.Language.CompilerCorrect
import QbitNova.Library.Storage

/-! # The storage of the compiler

The compiler once more, with the array it writes to: the fields of each instruction are filled
in place, the arguments byte by byte. Whether all of it stays inside is read off the tree: off
its number of instructions and the texts that become arguments.
-/
namespace QbitNova.Language
open CText Storage

/-- An instruction as it lies in the bytecode array. -/
structure StoredInstruction where
  op : OpCode
  arg1 : Vector UInt8 argumentBytes
  arg2 : Vector UInt8 argumentBytes
  value : ℤ

def StoredInstruction.read (stored : StoredInstruction) : Instruction :=
  ⟨stored.op, cString stored.arg1, cString stored.arg2, stored.value⟩

abbrev CodeArray := Table StoredInstruction maxInstr

def strlen (text : Bytes) : ℕ := (cText text).length

def strcpy (field : Vector UInt8 argumentBytes) (text : Bytes) : Except CompileFault (Vector UInt8 argumentBytes) := do
  let copied ← copyString .argumentTooLong (· != 0) text field
  return copied.1

/-- A null argument is not copied. -/
def copyArgument (field : Vector UInt8 argumentBytes) : Option Bytes → Except CompileFault (Vector UInt8 argumentBytes)
  | none => .ok field
  | some text => strcpy field text

/-- The fields of an instruction, in the order they are written. -/
def storeInstruction (op : OpCode) (arg1 arg2 : Option Bytes) (value : ℤ) (slot : StoredInstruction) :
    Except CompileFault StoredInstruction := do
  let field1 ← write .argumentTooLong slot.arg1 0 0
  let field2 ← write .argumentTooLong slot.arg2 0 0
  let field1 ← copyArgument field1 arg1
  let field2 ← copyArgument field2 arg2
  return ⟨op, field1, field2, value⟩

def storeEmit (op : OpCode) (arg1 arg2 : Option Bytes) (value : ℤ) (code : CodeArray) : Except CompileFault CodeArray :=
  code.append .codeFull (storeInstruction op arg1 arg2 value)

def storeCheck (left : Node) (code : CodeArray) : Except CompileFault CodeArray :=
  match condition? left with
  | some (name, operator, number) => storeEmit .check (some name) (some operator) number code
  | none => storeEmit .check none none 0 code

/-- The statement of a node; `body` compiles what is nested in it. -/
def storeStatement (type : NodeType) (value : Bytes) (left : Node) (body : CodeArray → Except CompileFault CodeArray)
    (code : CodeArray) : Except CompileFault CodeArray :=
  match type with
  | .say => do storeEmit .say (some (← left.deref)) none 0 code
  | .letBinding => do storeEmit .letVar (some value) (some (← left.deref)) 0 code
  | .qbit => do storeEmit .qbit (some value) (some (← left.deref)) 0 code
  | .hadamard => storeEmit .hadamard (some value) none 0 code
  | .measure => storeEmit .measure (some value) none 0 code
  | .entangle => storeEmit .entangle (some value) left.value? 0 code
  | .cnot => storeEmit .cnot (some value) left.value? 0 code
  | .qmsg => storeEmit .qmsg left.value? none 0 code
  | .encodeQmsg => storeEmit .encodeQmsg (some value) none 0 code
  | .decodeQmsg => storeEmit .decodeQmsg (some value) none 0 code
  | .check => do
    let code ← storeCheck left code
    let code ← body code
    storeEmit .endBlock none none 0 code
  | .repeatLoop => do
    let code ← storeEmit .repeatLoop none none (atoi value) code
    let code ← body code
    storeEmit .endBlock none none 0 code
  | .action => storeEmit .safeAction (some value) none 0 code
  | .block => body code
  | _ => .ok code

def storeCompile : Node → CodeArray → Except CompileFault CodeArray
  | .null, code => .ok code
  | .node type value left _ body next, code => do
    let code ← storeStatement type value left (storeCompile body) code
    storeCompile next code

/-- The texts of a tree that become arguments of instructions. -/
def Node.arguments : Node → List Bytes
  | .null => []
  | .node type value left _ body next =>
    (match type with
      | .say | .qmsg => [left.text]
      | .letBinding | .qbit | .entangle | .cnot => [value, left.text]
      | .hadamard | .measure | .encodeQmsg | .decodeQmsg | .action => [value]
      | .check => [(conditionOf left).1, (conditionOf left).2.1] ++ body.arguments
      | .repeatLoop | .block => body.arguments
      | _ => []) ++ next.arguments

/-- The number of instructions a tree takes: a block has one more for its end. -/
def Node.instructions : Node → ℕ
  | .null => 0
  | .node type _ _ _ body next =>
    (match type with
      | .check | .repeatLoop => body.instructions + 2
      | .block => body.instructions
      | .program | .binop | .string | .number | .ident | .state => 0
      | _ => 1) + next.instructions

def Node.body : Node → Node
  | .null => .null
  | .node _ _ _ _ body _ => body

/-- An instruction with its arguments as C reads them. -/
def Instruction.asText (ins : Instruction) : Instruction := { ins with arg1 := cText ins.arg1, arg2 := cText ins.arg2 }

/-- Both arguments leave room for their NUL. -/
def Instruction.Short (ins : Instruction) : Prop := ins.arg1.length < argumentBytes ∧ ins.arg2.length < argumentBytes

/-- A field is cleared, then it takes an argument that leaves room for the NUL. -/
theorem storeField (field : Vector UInt8 argumentBytes) (arg : Option Bytes) :
    ∃ cleared, write CompileFault.argumentTooLong field 0 0 = .ok cleared ∧
      (strlen (arg.getD []) < argumentBytes →
        ∃ filled, copyArgument cleared arg = .ok filled ∧ cString filled = cText (arg.getD [])) ∧
      (¬strlen (arg.getD []) < argumentBytes → ∃ fault, copyArgument cleared arg = .error fault) := by
  obtain ⟨cleared,hclear,hfirst⟩ := write_inside CompileFault.argumentTooLong field (show 0 < argumentBytes by decide) 0
  refine ⟨cleared,hclear,?_,?_⟩
  · intro hshort
    cases arg with
    | none => exact ⟨cleared,rfl,cString_closed hfirst List.not_mem_nil⟩
    | some text =>
      have hnul : 0 ∉ cText text := fun h => absurd (List.mem_takeWhile_imp h) (by decide)
      obtain ⟨filled,hcopy,hfilled⟩ := copyString_inside CompileFault.argumentTooLong cleared
        (show (cText text).length < argumentBytes from hshort) hnul
      refine ⟨filled,?_,hfilled⟩
      simp only [copyArgument,strcpy,hcopy]
      rfl
  · intro hlong
    cases arg with
    | none => exact absurd (by decide) hlong
    | some text =>
      have hcopy : copyString CompileFault.argumentTooLong (· != 0) text cleared = .error .argumentTooLong :=
        copyString_outside cleared (Nat.le_of_not_lt hlong)
      refine ⟨.argumentTooLong,?_⟩
      simp only [copyArgument,strcpy,hcopy]
      rfl

theorem storeEmit_adds (op : OpCode) (arg1 arg2 : Option Bytes) (value : ℤ) :
    Adds StoredInstruction.read Instruction.Short (storeEmit op arg1 arg2 value)
      [(⟨op, arg1.getD [], arg2.getD [], value⟩ : Instruction).asText] := by
  apply Adds.append
  · rintro ⟨h1,h2⟩ slot
    obtain ⟨cleared1,hclear1,hok1,-⟩ := storeField slot.arg1 arg1
    obtain ⟨cleared2,hclear2,hok2,-⟩ := storeField slot.arg2 arg2
    obtain ⟨filled1,hfill1,hread1⟩ := hok1 h1
    obtain ⟨filled2,hfill2,hread2⟩ := hok2 h2
    refine ⟨⟨op, filled1, filled2, value⟩,?_,?_⟩
    · simp only [storeInstruction,hclear1,hclear2,hfill1,hfill2,bind,Except.bind]
      rfl
    · simp only [StoredInstruction.read,hread1,hread2]
      rfl
  · intro hlong slot
    obtain ⟨cleared1,hclear1,hok1,herror1⟩ := storeField slot.arg1 arg1
    obtain ⟨cleared2,hclear2,-,herror2⟩ := storeField slot.arg2 arg2
    by_cases h1 : strlen (arg1.getD []) < argumentBytes
    · obtain ⟨filled1,hfill1,-⟩ := hok1 h1
      obtain ⟨fault,hfault⟩ := herror2 (fun h2 => hlong ⟨h1,h2⟩)
      exact ⟨fault,by simp only [storeInstruction,hclear1,hclear2,hfill1,hfault,bind,Except.bind]⟩
    · obtain ⟨fault,hfault⟩ := herror1 h1
      exact ⟨fault,by simp only [storeInstruction,hclear1,hclear2,hfault,bind,Except.bind]⟩

theorem storeCheck_adds (left : Node) :
    Adds StoredInstruction.read Instruction.Short (storeCheck left)
      [(⟨.check, (conditionOf left).1, (conditionOf left).2.1, (conditionOf left).2.2⟩ : Instruction).asText] := by
  unfold storeCheck conditionOf
  cases condition? left with
  | none => exact storeEmit_adds .check none none 0
  | some found => exact storeEmit_adds .check (some found.1) (some found.2.1) found.2.2

theorem storeStatement_adds {type : NodeType} (value : Bytes) {left : Node} (right : Node) {body : Node}
    (hleft : type = .say ∨ type = .letBinding ∨ type = .qbit → left ≠ .null)
    {nested : CodeArray → Except CompileFault CodeArray}
    (hbody : Adds StoredInstruction.read Instruction.Short nested ((codeOf body).map Instruction.asText)) :
    Adds StoredInstruction.read Instruction.Short (storeStatement type value left nested)
      ((codeOf (.node type value left right body .null)).map Instruction.asText) := by
  have hblock : ∀ {opening : Instruction} {first : CodeArray → Except CompileFault CodeArray},
      Adds StoredInstruction.read Instruction.Short first [opening.asText] →
      Adds StoredInstruction.read Instruction.Short
        (fun code => first code >>= fun code => nested code >>= storeEmit .endBlock none none 0)
        ((opening :: (codeOf body ++ [({ op := .endBlock } : Instruction)]) ++ codeOf .null).map Instruction.asText) := by
    intro opening first hfirst
    have hboth := hfirst.bind (hbody.bind (storeEmit_adds .endBlock none none 0))
    simpa [codeOf] using hboth
  cases type with
  | say =>
    have hread := Node.deref_eq (hleft (Or.inl rfl))
    have hrun : storeStatement .say value left nested = storeEmit .say (some left.text) none 0 := by
      funext code
      simp only [storeStatement,hread]
      rfl
    rw [hrun]
    exact storeEmit_adds _ _ _ _
  | letBinding =>
    have hread := Node.deref_eq (hleft (Or.inr (Or.inl rfl)))
    have hrun : storeStatement .letBinding value left nested = storeEmit .letVar (some value) (some left.text) 0 := by
      funext code
      simp only [storeStatement,hread]
      rfl
    rw [hrun]
    exact storeEmit_adds _ _ _ _
  | qbit =>
    have hread := Node.deref_eq (hleft (Or.inr (Or.inr rfl)))
    have hrun : storeStatement .qbit value left nested = storeEmit .qbit (some value) (some left.text) 0 := by
      funext code
      simp only [storeStatement,hread]
      rfl
    rw [hrun]
    exact storeEmit_adds _ _ _ _
  | check => exact hblock (storeCheck_adds left)
  | repeatLoop => exact hblock (storeEmit_adds .repeatLoop none none (atoi value))
  | block =>
    have hcode : codeOf (.node .block value left right body .null) = codeOf body := List.append_nil _
    rw [hcode]
    exact hbody
  | hadamard | measure | entangle | cnot | qmsg | encodeQmsg | decodeQmsg | action => exact storeEmit_adds _ _ _ _
  | program | binop | string | number | ident | state => exact Adds.nil

theorem storeCompile_adds {n : Node} (h : n.WellFormed) :
    Adds StoredInstruction.read Instruction.Short (storeCompile n) ((codeOf n).map Instruction.asText) := by
  induction n with
  | null => exact Adds.nil
  | node type value left right body next ihleft ihright ihbody ihnext =>
    obtain ⟨hleft,hbody,hnext⟩ := h
    have hboth := (storeStatement_adds value right hleft (ihbody hbody)).bind (ihnext hnext)
    have hcode : codeOf (.node type value left right body next) =
        codeOf (.node type value left right body .null) ++ codeOf next := by
      simp [codeOf]
    rw [hcode,List.map_append]
    exact hboth

theorem asText_short (op : OpCode) (arg1 arg2 : Bytes) (value : ℤ) :
    (⟨op, arg1, arg2, value⟩ : Instruction).asText.Short ↔ strlen arg1 < argumentBytes ∧ strlen arg2 < argumentBytes :=
  Iff.rfl

theorem strlen_nil : strlen [] < argumentBytes := by decide

theorem codeOf_length (n : Node) : (codeOf n).length = n.instructions := by
  induction n with
  | null => rfl
  | node type value left right body next ihleft ihright ihbody ihnext =>
    cases type <;> simp [codeOf,Node.instructions,ihbody,ihnext] <;> omega

theorem codeOf_short (n : Node) :
    (∀ ins ∈ codeOf n, ins.asText.Short) ↔ ∀ text ∈ n.arguments, strlen text < argumentBytes := by
  induction n with
  | null => exact ⟨fun _ => nofun,fun _ => nofun⟩
  | node type value left right body next ihleft ihright ihbody ihnext =>
    cases type <;>
      simp only [codeOf,Node.arguments,List.forall_mem_append,List.forall_mem_cons,List.not_mem_nil,false_implies,
        implies_true,asText_short,strlen_nil,ihbody,ihnext,and_true,true_and,and_assoc]

/-- The tree of a program fits: each text that becomes an argument leaves room for its NUL in a
field, and there are no more instructions than entries in the array. -/
structure Node.FitsCode (n : Node) : Prop where
  arguments : ∀ text ∈ n.arguments, strlen text < argumentBytes
  count : n.instructions ≤ maxInstr

/-- What the parser returns is compiled inside of the bytecode array, into the instructions of
the tree with their arguments whole, exactly if the tree fits. -/
theorem storeCompile_within_iff {toks : List Token} {root : Node} (h : parse toks = .ok root)
    (slots : Vector StoredInstruction maxInstr) :
    (∃ final, storeCompile root.body ⟨slots, 0⟩ = .ok final ∧
      final.stored.map StoredInstruction.read = (codeOf root.body).map Instruction.asText) ↔ root.body.FitsCode := by
  have hwf : root.body.WellFormed := by
    have hroot := parse_wellFormed h
    cases root with
    | null => trivial
    | node type value left right body next => exact hroot.2.1
  obtain ⟨hok,herror⟩ := storeCompile_adds hwf ⟨slots,0⟩ (Nat.zero_le _)
  rw [List.length_map,List.forall_mem_map,codeOf_length,codeOf_short,Nat.zero_add] at hok herror
  constructor
  · rintro ⟨final,hfinal,-⟩
    by_contra hnot
    obtain ⟨fault,hfault⟩ := herror (fun hfits => hnot ⟨hfits.2,hfits.1⟩)
    rw [hfault] at hfinal
    cases hfinal
  · intro hfits
    obtain ⟨final,hfinal,-,hstored⟩ := hok ⟨hfits.count,hfits.arguments⟩
    exact ⟨final,hfinal,hstored⟩

/-- Slots as the loader leaves them. -/
def blankSlots : Vector StoredInstruction maxInstr :=
  Vector.replicate maxInstr ⟨.say, Vector.replicate argumentBytes 0, Vector.replicate argumentBytes 0, 0⟩

/-- The tokens of `say` with a literal. -/
def sayTokens (literal : Bytes) : List Token := [⟨.say, str "say", 1⟩, ⟨.string, literal, 1⟩, ⟨.eof, str "EOF", 1⟩]

def sayTree (literal : Bytes) : Node :=
  (newNode .program (str "program")).withBody ((newNode .say (str "say")).withLeft (newNode .string literal))

theorem storeCompile_within_say : parse (sayTokens (str "Dragon")) = .ok (sayTree (str "Dragon")) ∧
    ∃ final, storeCompile (sayTree (str "Dragon")).body ⟨blankSlots, 0⟩ = .ok final ∧
      final.stored.map StoredInstruction.read = [⟨.say, str "Dragon", [], 0⟩] := by
  have hparse : parse (sayTokens (str "Dragon")) = .ok (sayTree (str "Dragon")) := rfl
  have hfits : (sayTree (str "Dragon")).body.FitsCode := ⟨by decide,by decide⟩
  exact ⟨hparse,(storeCompile_within_iff hparse blankSlots).mpr hfits⟩

/-- A literal of a hundred bytes runs over its field into the next one. -/
theorem longLiteral_outside :
    parse (sayTokens (List.replicate 100 97)) = .ok (sayTree (List.replicate 100 97)) ∧
      storeCompile (sayTree (List.replicate 100 97)).body ⟨blankSlots, 0⟩ = .error .argumentTooLong := by
  constructor
  · rfl
  · rfl

end QbitNova.Language
