import QbitNova.Language.Lexemes
import QbitNova.Language.ParserBounds

/-! # Printing and parsing back

The statements of the implemented grammar, the lexemes they are printed with and the
tree nodes they stand for. Tokens that spell a program are parsed into exactly its
tree, and the parser stops at the final EOF.
-/
namespace QbitNova.Language
open CText

/-- What say and qmsg are given. -/
inductive Operand where
  | text (l : Literal)
  | name (w : Word)
  deriving DecidableEq

/-- The fourteen statement forms of the parser; any word may stand in an operand place,
and a word that is no keyword is a statement by itself. -/
inductive Statement where
  | say (operand : Operand)
  | letBinding (name : Word) (value : Numeral)
  | check (name : Word) (comparison : Comparison) (value : Numeral) (body : List Statement)
  | repeatLoop (count : Numeral) (body : List Statement)
  | qmsg (operand : Operand)
  | encode (name : Word)
  | decode (name : Word)
  | qbit (name : Word) (state : QuantumState)
  | hadamard (name : Word)
  | measure (name : Word)
  | entangle (first second : Word)
  | cnot (control target : Word)
  | action (name : Word)
  | bare (name : Word) (h : wordType name.text = .ident)

/-- Directives stand between the statements of a program, not inside blocks. -/
inductive Item where
  | directive (d : Directive)
  | statement (s : Statement)

def Operand.lexeme : Operand → Lexeme
  | .text l => .string l
  | .name w => .word w

/-- A keyword as a lexeme. -/
def keyword (text : String) (h : wordText (str text) = true) : Lexeme := .word ⟨str text, h⟩

mutual

def Statement.lexemes : Statement → List Lexeme
  | .say operand => [keyword "say" (by decide), operand.lexeme]
  | .letBinding name value => [keyword "let" (by decide), .word name, .symbol .eq, .number value]
  | .check name comparison value body =>
    keyword "check" (by decide) :: .word name :: .symbol (.compare comparison) :: .number value ::
      .symbol .lbrace :: (bodyLexemes body ++ [.symbol .rbrace])
  | .repeatLoop count body =>
    keyword "repeat" (by decide) :: .number count :: .symbol .lbrace :: (bodyLexemes body ++ [.symbol .rbrace])
  | .qmsg operand => [keyword "qmsg" (by decide), operand.lexeme]
  | .encode name => [keyword "encode" (by decide), .word name]
  | .decode name => [keyword "decode" (by decide), .word name]
  | .qbit name state => [keyword "qbit" (by decide), .word name, .symbol .eq, .symbol (.state state)]
  | .hadamard name => [keyword "hadamard" (by decide), .word name]
  | .measure name => [keyword "measure" (by decide), .word name]
  | .entangle first second => [keyword "entangle" (by decide), .word first, .word second]
  | .cnot control target => [keyword "cnot" (by decide), .word control, .word target]
  | .action name => [keyword "action" (by decide), .word name]
  | .bare name _ => [.word name]

def bodyLexemes : List Statement → List Lexeme
  | [] => []
  | s :: rest => s.lexemes ++ bodyLexemes rest

end

def leaf (type : NodeType) (value : Bytes) : Node := .node type value .null .null .null .null

def Operand.tree : Operand → Node
  | .text l => leaf .string l.text
  | .name w => leaf .ident w.text

mutual

/-- The node of a statement, followed by the statements linked to it. -/
def Statement.tree : Statement → Node → Node
  | .say operand, next => .node .say (str "say") operand.tree .null .null next
  | .letBinding name value, next => .node .letBinding name.text (leaf .number value.text) .null .null next
  | .check name comparison value body, next =>
    .node .check (str "check")
      (.node .binop comparison.spelling.2 (leaf .ident name.text) (leaf .number value.text) .null .null) .null
      (.node .block (str "block") .null .null (treeOf body) .null) next
  | .repeatLoop count body, next =>
    .node .repeatLoop count.text .null .null (.node .block (str "block") .null .null (treeOf body) .null) next
  | .qmsg operand, next => .node .qmsg (str "qmsg") operand.tree .null .null next
  | .encode name, next => .node .encodeQmsg name.text .null .null .null next
  | .decode name, next => .node .decodeQmsg name.text .null .null .null next
  | .qbit name state, next => .node .qbit name.text (leaf .state state.spelling.2) .null .null next
  | .hadamard name, next => .node .hadamard name.text .null .null .null next
  | .measure name, next => .node .measure name.text .null .null .null next
  | .entangle first second, next => .node .entangle first.text (leaf .ident second.text) .null .null next
  | .cnot control target, next => .node .cnot control.text (leaf .ident target.text) .null .null next
  | .action name, next => .node .action name.text .null .null .null next
  | .bare name _, next => .node .ident name.text .null .null .null next

def treeOf : List Statement → Node
  | [] => .null
  | s :: rest => s.tree (treeOf rest)

end

def Item.lexemes : Item → List Lexeme
  | .directive d => [.directive d]
  | .statement s => s.lexemes

def Item.statement? : Item → Option Statement
  | .directive _ => none
  | .statement s => some s

/-- The lexemes of a program, in order. -/
def lexemesOf (program : List Item) : List Lexeme := program.flatMap Item.lexemes

/-- The tree of a program; directives leave no trace in it. -/
def programTree (program : List Item) : Node :=
  .node .program (str "program") .null .null (treeOf (program.filterMap Item.statement?)) .null

/-- The tokens from a position on begin with these lexemes. -/
def Follows (toks : List Token) (pos : ℕ) (lexemes : List Lexeme) : Prop :=
  lexemes.map Lexeme.content <+: (toks.drop pos).map Token.content

section
variable {toks : List Token} {pos : ℕ}

theorem Follows.cons {l : Lexeme} {lexemes : List Lexeme} (h : Follows toks pos (l :: lexemes)) :
    ∃ t, toks[pos]? = some t ∧ t.type = l.content.1 ∧ t.value = l.content.2 ∧ Follows toks (pos + 1) lexemes := by
  obtain ⟨rest,hrest⟩ := h
  cases hdrop : toks.drop pos with
  | nil =>
    rw [hdrop] at hrest
    cases hrest
  | cons t tail =>
    rw [hdrop,List.map_cons,List.map_cons,List.cons_append] at hrest
    obtain ⟨hhead,htail⟩ := List.cons.inj hrest
    have hget : toks[pos]? = some t := by
      rw [← List.head?_drop,hdrop]
      rfl
    refine ⟨t,hget,(congrArg Prod.fst hhead).symm,(congrArg Prod.snd hhead).symm,rest,?_⟩
    have hnext : toks.drop (pos + 1) = tail := by
      rw [← List.tail_drop,hdrop]
      rfl
    rw [hnext]
    exact htail

theorem Follows.append {first second : List Lexeme} (h : Follows toks pos (first ++ second)) :
    Follows toks pos first ∧ Follows toks (pos + first.length) second := by
  obtain ⟨rest,hrest⟩ := h
  rw [List.map_append,List.append_assoc] at hrest
  refine ⟨⟨_,hrest⟩,rest,?_⟩
  have hdrop := congrArg (List.drop first.length) hrest
  rw [List.drop_left' (by simp)] at hdrop
  rw [hdrop,← List.map_drop,List.drop_drop]

theorem advance_token {t : Token} (h : toks[pos]? = some t) : advance toks pos = .ok (t, pos + 1) := by
  simp only [advance,h]

theorem takeNode_token {t : Token} (h : toks[pos]? = some t) (type : NodeType) :
    takeNode toks type pos = .ok (newNode type t.value, pos + 1) := by
  rw [takeNode,bind_ok (peek_ok h),bind_ok (advance_token h)]
  rfl

theorem pure_ok {α : Type} {a b : α} {q : ℕ} (hvalue : a = b) (hpos : pos = q) :
    (pure a : ParseM α) pos = .ok (b, q) := by
  subst hvalue hpos
  rfl

/-- A node made from the token of a lexeme whose value is kept whole. -/
theorem takeNode_follows {l : Lexeme} {lexemes : List Lexeme} (h : Follows toks pos (l :: lexemes))
    (hshort : l.content.2.length ≤ 255) (type : NodeType) :
    takeNode toks type pos = .ok (leaf type l.content.2, pos + 1) ∧ Follows toks (pos + 1) lexemes := by
  obtain ⟨t,ht,-,hvalue,hrest⟩ := h.cons
  refine ⟨?_,hrest⟩
  rw [takeNode_token ht,hvalue]
  simp only [newNode,List.take_of_length_le hshort,leaf]

theorem advance_follows {l : Lexeme} {lexemes : List Lexeme} (h : Follows toks pos (l :: lexemes)) :
    ∃ t, advance toks pos = .ok (t, pos + 1) ∧ t.type = l.content.1 ∧ Follows toks (pos + 1) lexemes := by
  obtain ⟨t,ht,htype,-,hrest⟩ := h.cons
  exact ⟨t,advance_token ht,htype,hrest⟩

end

theorem Word.short (w : Word) : w.text.length ≤ 255 := by
  have h := w.valid
  cases htext : w.text with
  | nil => simp
  | cons c tail =>
    rw [htext] at h
    simp only [wordText,Bool.and_eq_true,decide_eq_true_eq] at h
    simp only [List.length_cons]
    omega

theorem Numeral.short (n : Numeral) : n.text.length ≤ 255 := by
  have h := n.valid
  cases htext : n.text with
  | nil => simp
  | cons c tail =>
    rw [htext] at h
    simp only [numeralText,Bool.and_eq_true,decide_eq_true_eq] at h
    simp only [List.length_cons]
    omega

theorem QuantumState.short (q : QuantumState) : q.spelling.2.length ≤ 255 := by
  cases q <;> decide

theorem Comparison.short (c : Comparison) : c.spelling.2.length ≤ 255 := by
  cases c <;> decide

section
variable {toks : List Token} {pos : ℕ}

theorem parseOperand_follows {operand : Operand} {lexemes : List Lexeme}
    (h : Follows toks pos (operand.lexeme :: lexemes)) :
    parseOperand toks pos = .ok (operand.tree, pos + 1) ∧ Follows toks (pos + 1) lexemes := by
  obtain ⟨t,ht,htype,hvalue,hrest⟩ := h.cons
  refine ⟨?_,hrest⟩
  rw [parseOperand,bind_ok (advance_token ht)]
  cases operand with
  | text l =>
    have hstring : t.type = .string := htype
    have htext : t.value = l.text := hvalue
    simp only [hstring,↓reduceIte,htext,newNode,List.take_of_length_le l.short]
    rfl
  | name w =>
    have hword : t.type ≠ .string := by
      rw [htype]
      exact wordType_ne (by decide) (by decide) w.text
    have htext : t.value = w.text := hvalue
    simp only [hword,↓reduceIte,htext,newNode,List.take_of_length_le w.short]
    rfl

theorem reads_name {k : Lexeme} {name : Word} (h : Follows toks pos [k, .word name]) (type : NodeType) :
    (advance toks >>= fun _ => takeNode toks type) pos = .ok (leaf type name.text, pos + 2) := by
  obtain ⟨t,ht,-,hrest⟩ := advance_follows h
  obtain ⟨hname,-⟩ := takeNode_follows hrest name.short type
  rw [bind_ok ht]
  exact hname

theorem reads_names {k : Lexeme} {first second : Word} (h : Follows toks pos [k, .word first, .word second])
    (type : NodeType) :
    (advance toks >>= fun _ => takeNode toks type >>= fun name => takeNode toks .ident >>= fun other =>
      pure (name.withLeft other)) pos =
      .ok (.node type first.text (leaf .ident second.text) .null .null .null, pos + 3) := by
  obtain ⟨t,ht,-,hrest⟩ := advance_follows h
  obtain ⟨hfirst,hrest⟩ := takeNode_follows hrest first.short type
  obtain ⟨hsecond,-⟩ := takeNode_follows hrest second.short .ident
  rw [bind_ok ht,bind_ok hfirst,bind_ok hsecond]
  rfl

theorem reads_setting {k l : Lexeme} {name : Word} (h : Follows toks pos [k, .word name, .symbol .eq, l])
    (hshort : l.content.2.length ≤ 255) (type valueType : NodeType) :
    (advance toks >>= fun _ => takeNode toks type >>= fun name => advance toks >>= fun _ =>
      takeNode toks valueType >>= fun value => pure (name.withLeft value)) pos =
      .ok (.node type name.text (leaf valueType l.content.2) .null .null .null, pos + 4) := by
  obtain ⟨t,ht,-,hrest⟩ := advance_follows h
  obtain ⟨hname,hrest⟩ := takeNode_follows hrest name.short type
  obtain ⟨u,hu,-,hrest⟩ := advance_follows hrest
  obtain ⟨hvalue,-⟩ := takeNode_follows hrest hshort valueType
  rw [bind_ok ht,bind_ok hname,bind_ok hu,bind_ok hvalue]
  rfl

theorem reads_operand {k : Lexeme} {operand : Operand} (h : Follows toks pos [k, operand.lexeme]) (node : Node) :
    (advance toks >>= fun _ => parseOperand toks >>= fun x => pure (node.withLeft x)) pos =
      .ok (node.withLeft operand.tree, pos + 2) := by
  obtain ⟨t,ht,-,hrest⟩ := advance_follows h
  obtain ⟨hoperand,-⟩ := parseOperand_follows hrest
  rw [bind_ok ht,bind_ok hoperand]
  rfl

theorem parseExpr_follows {name : Word} {comparison : Comparison} {value : Numeral} {lexemes : List Lexeme}
    (h : Follows toks pos (.word name :: .symbol (.compare comparison) :: .number value :: lexemes)) :
    parseExpr toks pos = .ok (.node .binop comparison.spelling.2 (leaf .ident name.text) (leaf .number value.text)
      .null .null, pos + 3) ∧ Follows toks (pos + 3) lexemes := by
  obtain ⟨hname,hrest⟩ := takeNode_follows h name.short .ident
  obtain ⟨hop,hrest⟩ := takeNode_follows hrest comparison.short .binop
  obtain ⟨hvalue,hrest⟩ := takeNode_follows hrest value.short .number
  refine ⟨?_,hrest⟩
  rw [parseExpr,bind_ok hname,bind_ok hop,bind_ok hvalue]
  rfl

theorem Statement.starts (s : Statement) : ∃ w rest, s.lexemes = .word w :: rest := by
  cases s <;> exact ⟨_,_,rfl⟩

theorem Statement.withNext_tree (s : Statement) (next : Node) : (s.tree .null).withNext next = s.tree next := by
  cases s <;> rfl

theorem chain_tree (body : List Statement) : chain (body.map (fun s => s.tree .null)) = treeOf body := by
  induction body with
  | nil => rfl
  | cons s body ih => rw [List.map_cons,chain,ih,Statement.withNext_tree,treeOf]

theorem bodyLexemes_eq (body : List Statement) : bodyLexemes body = body.flatMap Statement.lexemes := by
  induction body with
  | nil => rfl
  | cons s body ih => rw [bodyLexemes,List.flatMap_cons,ih]

/-- The routine reads these lexemes, wherever they follow, into a node. -/
def Reads (toks : List Token) (statement : ParseM Node) (lexemes : List Lexeme) (node : Node) : Prop :=
  ∀ pos, Follows toks pos lexemes → statement pos = .ok (node, pos + lexemes.length)

/-- The first lexeme is none that a loop stops at. -/
def Starts (lexemes : List Lexeme) (stops : List TokenType) : Prop :=
  ∃ l rest, lexemes = l :: rest ∧ l.content.1 ∉ stops

theorem Starts.length_pos {lexemes : List Lexeme} {stops : List TokenType} (h : Starts lexemes stops) :
    1 ≤ lexemes.length := by
  obtain ⟨l,rest,rfl,-⟩ := h
  exact Nat.le_add_left 1 _

/-- The token a loop finds there does not stop it. -/
theorem Starts.token {lexemes : List Lexeme} {stops : List TokenType} (hstart : Starts lexemes stops)
    (h : Follows toks pos lexemes) :
    ∃ t, toks[pos]? = some t ∧ ∀ type ∈ stops, (t.type == type) = false := by
  obtain ⟨l,rest,rfl,hstops⟩ := hstart
  obtain ⟨t,ht,htype,-,-⟩ := h.cons
  refine ⟨t,ht,fun type hmem => beq_eq_false_iff_ne.mpr ?_⟩
  rintro rfl
  rw [htype] at hmem
  exact hstops hmem

/-- No loop around the statements takes the first word of one for its own end. -/
theorem Statement.starts_with (s : Statement) {stops : List TokenType} (hident : .ident ∉ stops)
    (hkeyword : ∀ entry ∈ keywords, entry.2 ∉ stops) : Starts s.lexemes stops := by
  obtain ⟨w,rest,hstart⟩ := s.starts
  refine ⟨.word w,rest,hstart,fun hmem => ?_⟩
  refine wordType_ne (fun h => hident (h ▸ hmem)) (fun entry hentry h => hkeyword entry hentry (h ▸ hmem)) w.text rfl

section Loops
variable {α : Type} {lexemes : α → List Lexeme}

theorem length_le_flatMap {body : List α} {a : α} (h : a ∈ body) :
    (lexemes a).length ≤ (body.flatMap lexemes).length := by
  have hsub := List.sublist_flatten_of_mem (List.mem_map_of_mem (f := lexemes) h)
  rw [← List.flatMap_def] at hsub
  exact hsub.length_le

theorem length_le_lexemes {body : List α} (h : ∀ a ∈ body, 1 ≤ (lexemes a).length) :
    body.length ≤ (body.flatMap lexemes).length := by
  induction body with
  | nil => exact Nat.le_refl 0
  | cons a body ih =>
    have hrest := ih fun b hb => h b (List.mem_cons_of_mem a hb)
    have hfirst := h a List.mem_cons_self
    rw [List.flatMap_cons,List.length_append,List.length_cons]
    omega

/-- The loop of a block reads what stands in it up to the closing brace. -/
theorem blockLoop_follows {node : α → Node} {statement : ParseM Node} {body : List α} (fuel : ℕ)
    (hfuel : body.length < fuel) (hread : ∀ a ∈ body, Reads toks statement (lexemes a) (node a))
    (hstart : ∀ a ∈ body, Starts (lexemes a) [.rbrace, .eof])
    (h : Follows toks pos (body.flatMap lexemes ++ [.symbol .rbrace])) :
    blockLoop toks statement fuel pos = .ok (body.map node, pos + (body.flatMap lexemes).length) := by
  induction body generalizing pos fuel with
  | nil =>
    obtain ⟨t,ht,htype,-,-⟩ := h.cons
    have hbrace : t.type = .rbrace := htype
    cases fuel with
    | zero => cases hfuel
    | succ fuel =>
      rw [blockLoop,bind_ok (checkType_ok ht _)]
      simp only [hbrace,beq_self_eq_true,↓reduceIte]
      rfl
  | cons a body ih =>
    rw [List.flatMap_cons,List.append_assoc] at h
    obtain ⟨ha,hrest⟩ := h.append
    obtain ⟨t,ht,htype⟩ := (hstart a List.mem_cons_self).token ha
    have hbrace := htype .rbrace (by simp)
    have heof := htype .eof (by simp)
    cases fuel with
    | zero => cases hfuel
    | succ fuel =>
      have hloop := ih fuel (Nat.lt_of_succ_lt_succ hfuel) (fun b hb => hread b (List.mem_cons_of_mem a hb))
        (fun b hb => hstart b (List.mem_cons_of_mem a hb)) hrest
      rw [blockLoop,bind_ok (checkType_ok ht _)]
      simp only [hbrace,Bool.false_eq_true,↓reduceIte]
      rw [bind_ok (checkType_ok ht _)]
      simp only [heof,Bool.false_eq_true,↓reduceIte]
      rw [bind_ok (hread a List.mem_cons_self pos ha),bind_ok hloop,List.flatMap_cons,List.length_append,
        Nat.add_assoc]
      rfl

theorem parseBlock_follows {node : α → Node} {statement : ParseM Node} {body : List α} {q : ℕ} (fuel : ℕ)
    (hfuel : (body.flatMap lexemes).length < fuel) (hread : ∀ a ∈ body, Reads toks statement (lexemes a) (node a))
    (hstart : ∀ a ∈ body, Starts (lexemes a) [.rbrace, .eof])
    (h : Follows toks pos (.symbol .lbrace :: (body.flatMap lexemes ++ [.symbol .rbrace])))
    (hend : pos + ((body.flatMap lexemes).length + 2) = q) :
    parseBlock toks statement fuel pos =
      .ok (.node .block (str "block") .null .null (chain (body.map node)) .null, q) := by
  obtain ⟨t,ht,-,hrest⟩ := advance_follows h
  have hlength := length_le_lexemes fun a ha => (hstart a ha).length_pos
  have hloop := blockLoop_follows fuel (hlength.trans_lt hfuel) hread hstart hrest
  obtain ⟨u,hu,-,-⟩ := advance_follows hrest.append.2
  rw [parseBlock,bind_ok ht,bind_ok hloop,bind_ok hu]
  exact pure_ok rfl (by omega)

theorem reads_check {name : Word} {comparison : Comparison} {value : Numeral} {rest : List Lexeme} {q : ℕ}
    {k : Lexeme} {block : ParseM Node} {body : Node}
    (h : Follows toks pos (k :: .word name :: .symbol (.compare comparison) :: .number value :: rest))
    (hblock : block (pos + 4) = .ok (body, q)) :
    (advance toks >>= fun _ => parseExpr toks >>= fun condition => block >>= fun body =>
      pure (((newNode .check (str "check")).withLeft condition).withBody body)) pos =
      .ok (.node .check (str "check")
        (.node .binop comparison.spelling.2 (leaf .ident name.text) (leaf .number value.text) .null .null) .null
        body .null, q) := by
  obtain ⟨t,ht,-,hrest⟩ := advance_follows h
  obtain ⟨hexpr,-⟩ := parseExpr_follows hrest
  rw [bind_ok ht,bind_ok hexpr,bind_ok hblock]
  rfl

theorem reads_repeat {count : Numeral} {rest : List Lexeme} {q : ℕ} {k : Lexeme} {block : ParseM Node} {body : Node}
    (h : Follows toks pos (k :: .number count :: rest)) (hblock : block (pos + 2) = .ok (body, q)) :
    (advance toks >>= fun _ => takeNode toks .repeatLoop >>= fun count => block >>= fun body =>
      pure (count.withBody body)) pos = .ok (.node .repeatLoop count.text .null .null body .null, q) := by
  obtain ⟨t,ht,-,hrest⟩ := advance_follows h
  obtain ⟨hcount,-⟩ := takeNode_follows hrest count.short .repeatLoop
  rw [bind_ok ht,bind_ok hcount,bind_ok hblock]
  rfl

end Loops

/-- The routine reads the statement wherever its lexemes follow. -/
def ReadsStatement (toks : List Token) (statement : ParseM Node) (s : Statement) : Prop :=
  ∀ pos, Follows toks pos s.lexemes → statement pos = .ok (s.tree .null, pos + s.lexemes.length)

/-- The statement at a position is parsed into its node. The induction is on the fuel,
which every nested block needs one less of. -/
theorem parseStmt_follows (fuel : ℕ) (s : Statement) (hfuel : s.lexemes.length ≤ fuel) :
    ReadsStatement toks (parseStmt toks fuel) s := by
  induction fuel generalizing s with
  | zero =>
    obtain ⟨w,rest,hstart⟩ := s.starts
    rw [hstart] at hfuel
    cases hfuel
  | succ fuel ih =>
    intro pos h
    obtain ⟨w,rest,hstart⟩ := s.starts
    obtain ⟨t,ht,htype,hvalue,-⟩ := (hstart ▸ h).cons
    rw [parseStmt,bind_ok (peek_ok ht)]
    unfold statementFrom
    cases s with
    | say operand =>
      cases hstart
      have hkey : t.type = .say := htype
      simp only [hkey]
      exact reads_operand h _
    | letBinding name value =>
      cases hstart
      have hkey : t.type = .letKeyword := htype
      simp only [hkey]
      exact reads_setting h value.short _ _
    | check name comparison value body =>
      cases hstart
      have hkey : t.type = .check := htype
      simp only [hkey]
      have hlength : (Statement.check name comparison value body).lexemes.length =
          (body.flatMap Statement.lexemes).length + 6 := by
        rw [Statement.lexemes,bodyLexemes_eq]
        simp only [List.length_cons,List.length_append,List.length_nil]
      have hsplit : Follows toks pos ([keyword "check" (by decide), .word name, .symbol (.compare comparison),
          .number value] ++ (.symbol .lbrace :: (body.flatMap Statement.lexemes ++ [.symbol .rbrace]))) := by
        rw [← bodyLexemes_eq]
        exact h
      have hblock := parseBlock_follows (q := pos + (body.flatMap Statement.lexemes).length + 6) fuel (by omega)
        (fun r hr => ih r ((length_le_flatMap hr).trans (by omega)))
        (fun r _ => r.starts_with (by decide) (by decide)) hsplit.append.2
        (by simp only [List.length_cons,List.length_nil]; omega)
      rw [chain_tree] at hblock
      rw [reads_check h hblock,hlength]
      rfl
    | repeatLoop count body =>
      cases hstart
      have hkey : t.type = .repeatKeyword := htype
      simp only [hkey]
      have hlength : (Statement.repeatLoop count body).lexemes.length =
          (body.flatMap Statement.lexemes).length + 4 := by
        rw [Statement.lexemes,bodyLexemes_eq]
        simp only [List.length_cons,List.length_append,List.length_nil]
      have hsplit : Follows toks pos ([keyword "repeat" (by decide), .number count] ++
          (.symbol .lbrace :: (body.flatMap Statement.lexemes ++ [.symbol .rbrace]))) := by
        rw [← bodyLexemes_eq]
        exact h
      have hblock := parseBlock_follows (q := pos + (body.flatMap Statement.lexemes).length + 4) fuel (by omega)
        (fun r hr => ih r ((length_le_flatMap hr).trans (by omega)))
        (fun r _ => r.starts_with (by decide) (by decide)) hsplit.append.2
        (by simp only [List.length_cons,List.length_nil]; omega)
      rw [chain_tree] at hblock
      rw [reads_repeat h hblock,hlength]
      rfl
    | qmsg operand =>
      cases hstart
      have hkey : t.type = .qmsg := htype
      simp only [hkey]
      exact reads_operand h _
    | encode name =>
      cases hstart
      have hkey : t.type = .encode := htype
      simp only [hkey]
      exact reads_name h _
    | decode name =>
      cases hstart
      have hkey : t.type = .decode := htype
      simp only [hkey]
      exact reads_name h _
    | qbit name state =>
      cases hstart
      have hkey : t.type = .qbit := htype
      simp only [hkey]
      exact reads_setting h state.short _ _
    | hadamard name =>
      cases hstart
      have hkey : t.type = .hadamard := htype
      simp only [hkey]
      exact reads_name h _
    | measure name =>
      cases hstart
      have hkey : t.type = .measure := htype
      simp only [hkey]
      exact reads_name h _
    | entangle first second =>
      cases hstart
      have hkey : t.type = .entangle := htype
      simp only [hkey]
      exact reads_names h _
    | cnot control target =>
      cases hstart
      have hkey : t.type = .cnot := htype
      simp only [hkey]
      exact reads_names h _
    | action name =>
      cases hstart
      have hkey : t.type = .action := htype
      simp only [hkey]
      exact reads_name h _
    | bare name hident =>
      cases hstart
      have hkey : t.type = .ident := htype.trans hident
      have htext : t.value = w.text := hvalue
      simp only [hkey]
      rw [bind_ok (advance_token ht),htext]
      simp only [newNode,List.take_of_length_le w.short]
      rfl

/-- The tokens from a position on are exactly those of the rest of a program. -/
def Remains (toks : List Token) (pos : ℕ) (program : List Item) : Prop :=
  (toks.drop pos).map Token.content = contents (lexemesOf program)

/-- What the loop of the program makes of an item: a directive is dropped, the lexemes of
anything else are read. -/
def Taken (toks : List Token) (statement : ParseM Node) (lexemes : List Lexeme) : Option Node → Prop
  | none => ∃ d, lexemes = [.directive d]
  | some node => Reads toks statement lexemes node ∧ Starts lexemes [.eof, .directive]

/-- Behind the last lexeme stands EOF. -/
theorem eof_token (h : (toks.drop pos).map Token.content = contents []) : ∃ t, toks[pos]? = some t ∧ t.type = .eof := by
  cases hdrop : toks.drop pos with
  | nil =>
    rw [hdrop] at h
    cases h
  | cons t tail =>
    rw [hdrop] at h
    refine ⟨t,?_,congrArg Prod.fst (List.cons.inj h).1⟩
    rw [← List.head?_drop,hdrop]
    rfl

theorem programLoop_takes {α : Type} {lexemes : α → List Lexeme} {node : α → Option Node} {statement : ParseM Node}
    {program : List α} (fuel : ℕ) (hfuel : program.length < fuel)
    (htake : ∀ a ∈ program, Taken toks statement (lexemes a) (node a))
    (h : (toks.drop pos).map Token.content = contents (program.flatMap lexemes)) :
    programLoop toks statement fuel pos =
      .ok (program.filterMap node, pos + (program.flatMap lexemes).length) := by
  induction program generalizing pos fuel with
  | nil =>
    obtain ⟨t,ht,htype⟩ := eof_token h
    cases fuel with
    | zero => cases hfuel
    | succ fuel =>
      rw [programLoop,bind_ok (checkType_ok ht _)]
      simp only [htype,beq_self_eq_true,↓reduceIte]
      rfl
  | cons a program ih =>
    rw [contents,List.flatMap_cons,List.map_append,List.append_assoc] at h
    have hfirst : Follows toks pos (lexemes a) := ⟨_,h.symm⟩
    have hdrop := congrArg (List.drop (lexemes a).length) h
    rw [List.drop_left' (by simp),← List.map_drop,List.drop_drop] at hdrop
    cases fuel with
    | zero => cases hfuel
    | succ fuel =>
      have hloop := ih fuel (Nat.lt_of_succ_lt_succ hfuel)
        (fun b hb => htake b (List.mem_cons_of_mem a hb)) hdrop
      have ha := htake a List.mem_cons_self
      rw [List.flatMap_cons,List.length_append,← Nat.add_assoc]
      cases hnode : node a with
      | none =>
        rw [hnode] at ha
        obtain ⟨d,hlexemes⟩ := ha
        rw [hlexemes] at hfirst hloop ⊢
        obtain ⟨t,ht,htype,-,-⟩ := hfirst.cons
        have hdirective : t.type = .directive := htype
        rw [programLoop,bind_ok (checkType_ok ht _)]
        simp only [hdirective,show (TokenType.directive == TokenType.eof) = false from rfl,Bool.false_eq_true,
          ↓reduceIte]
        rw [bind_ok (checkType_ok ht _)]
        simp only [hdirective,beq_self_eq_true,↓reduceIte]
        rw [bind_ok (advance_token ht),List.filterMap_cons_none hnode]
        exact hloop
      | some n =>
        rw [hnode] at ha
        obtain ⟨hread,hstart⟩ := ha
        obtain ⟨t,ht,htype⟩ := hstart.token hfirst
        have heof := htype .eof (by simp)
        have hdirective := htype .directive (by simp)
        rw [programLoop,bind_ok (checkType_ok ht _)]
        simp only [heof,Bool.false_eq_true,↓reduceIte]
        rw [bind_ok (checkType_ok ht _)]
        simp only [hdirective,Bool.false_eq_true,↓reduceIte]
        rw [bind_ok (hread pos hfirst),bind_ok hloop,List.filterMap_cons_some hnode]
        rfl

/-- The loop of the program reads its statements, drops its directives and stops at EOF. -/
theorem programLoop_follows {statement : ParseM Node} {program : List Item} (fuel : ℕ)
    (hfuel : program.length < fuel)
    (hread : ∀ s, Item.statement s ∈ program → ReadsStatement toks statement s) (h : Remains toks pos program) :
    programLoop toks statement fuel pos =
      .ok ((program.filterMap Item.statement?).map (fun s => s.tree .null), pos + (lexemesOf program).length) := by
  have htake : ∀ item ∈ program, Taken toks statement item.lexemes (item.statement?.map (fun s => s.tree .null)) := by
    intro item hitem
    cases item with
    | directive d => exact ⟨d,rfl⟩
    | statement s => exact ⟨hread s hitem,s.starts_with (by decide) (by decide)⟩
  rw [programLoop_takes fuel hfuel htake h,List.map_filterMap]
  rfl

end

/-- The position the parser leaves off at. -/
def parseEnd (toks : List Token) : Except Fault ℕ :=
  (programLoop toks (parseStmt toks toks.length) (toks.length + 1) 0).map Prod.snd

theorem length_le_lexemesOf {program : List Item} {s : Statement} (h : Item.statement s ∈ program) :
    s.lexemes.length ≤ (lexemesOf program).length :=
  @length_le_flatMap Item Item.lexemes program _ h

theorem length_le_program (program : List Item) : program.length ≤ (lexemesOf program).length := by
  refine length_le_lexemes fun item _ => ?_
  cases item with
  | directive d => exact Nat.le_refl 1
  | statement s => exact (@Statement.starts_with s [] (by simp) (by simp)).length_pos

mutual

/-- No lexeme of a statement is a directive. -/
theorem Statement.stored : ∀ (s : Statement), ∀ l ∈ s.lexemes, l.stored
  | .check name comparison value body => by
    intro l hl
    have hbody := body_stored body l
    simp only [Statement.lexemes,keyword,List.mem_cons,List.mem_append,List.not_mem_nil,or_false] at hl
    rcases hl with rfl | rfl | rfl | rfl | rfl | hl | rfl
    all_goals first | trivial | exact hbody hl
  | .repeatLoop count body => by
    intro l hl
    have hbody := body_stored body l
    simp only [Statement.lexemes,keyword,List.mem_cons,List.mem_append,List.not_mem_nil,or_false] at hl
    rcases hl with rfl | rfl | rfl | hl | rfl
    all_goals first | trivial | exact hbody hl
  | .say operand | .qmsg operand => by
    intro l hl
    simp only [Statement.lexemes,keyword,List.mem_cons,List.not_mem_nil,or_false] at hl
    rcases hl with rfl | rfl
    · trivial
    · cases operand <;> trivial
  | .letBinding name _ | .qbit name _ => by
    intro l hl
    simp only [Statement.lexemes,keyword,List.mem_cons,List.not_mem_nil,or_false] at hl
    rcases hl with rfl | rfl | rfl | rfl <;> trivial
  | .encode name | .decode name | .hadamard name | .measure name | .action name => by
    intro l hl
    simp only [Statement.lexemes,keyword,List.mem_cons,List.not_mem_nil,or_false] at hl
    rcases hl with rfl | rfl <;> trivial
  | .entangle first second | .cnot first second => by
    intro l hl
    simp only [Statement.lexemes,keyword,List.mem_cons,List.not_mem_nil,or_false] at hl
    rcases hl with rfl | rfl | rfl <;> trivial
  | .bare name _ => by
    intro l hl
    rcases List.mem_singleton.mp hl with rfl
    trivial

theorem body_stored : ∀ (body : List Statement), ∀ l ∈ bodyLexemes body, l.stored
  | [] => by
    intro l hl
    cases hl
  | s :: body => by
    intro l hl
    rw [bodyLexemes,List.mem_append] at hl
    rcases hl with hl | hl
    · exact s.stored l hl
    · exact body_stored body l hl

end

/-- A program printed with any whitespace between its lexemes is tokenized into them,
inside the fixed storage if its directives fit their buffer, and parsed into its own
tree; the parser stops at the last token, which is EOF. -/
theorem parse_print (program : List Item) (layout : Layout) (hcount : (lexemesOf program).length + 1 ≤ maxTokens) :
    parse (tokenize (layout.print (lexemesOf program))) = .ok (programTree program) ∧
    parseEnd (tokenize (layout.print (lexemesOf program))) = .ok (lexemesOf program).length ∧
    (∃ line, tokenize (layout.print (lexemesOf program)) =
      (tokenize (layout.print (lexemesOf program))).take (lexemesOf program).length ++ [⟨.eof, str "EOF", line⟩]) ∧
    ((∀ d, Item.directive d ∈ program → d.text.length ≤ 255) →
      tokenizeStored (layout.print (lexemesOf program)) = some (tokenize (layout.print (lexemesOf program)))) := by
  have htokens := tokenize_print layout (lexemesOf program)
  have hstored := tokenizeStored_print layout hcount
  generalize tokenize (layout.print (lexemesOf program)) = toks at htokens hstored ⊢
  have hlength : toks.length = (lexemesOf program).length + 1 := by
    have hmap := congrArg List.length htokens
    simpa [contents] using hmap
  have hitems := length_le_program program
  have hremains : Remains toks 0 program := by
    rw [Remains,List.drop_zero]
    exact htokens
  have hread : ∀ s, Item.statement s ∈ program → ReadsStatement toks (parseStmt toks toks.length) s := by
    intro s hs
    have hle := length_le_lexemesOf hs
    exact parseStmt_follows toks.length s (by omega)
  have hloop := programLoop_follows (toks.length + 1) (by omega) hread hremains
  rw [Nat.zero_add] at hloop
  refine ⟨?_,?_,?_,?_⟩
  · simp only [parse,hloop,bind,Except.bind,pure,Except.pure]
    rw [chain_tree]
    rfl
  · simp only [parseEnd,hloop,Except.map]
  · obtain ⟨body,last,rfl⟩ : ∃ body last, toks = body ++ [last] := by
      refine ⟨toks.dropLast,toks.getLast ?_,(List.dropLast_concat_getLast _).symm⟩
      rintro rfl
      cases hlength
    have hbody : body.length = (lexemesOf program).length := by simpa using hlength
    rw [List.map_append,contents] at htokens
    obtain ⟨-,hlast⟩ := List.append_inj htokens (by simp [hbody])
    refine ⟨last.line,?_⟩
    rw [← hbody,List.take_left' rfl]
    obtain ⟨type,value,line⟩ := last
    simp only [List.map_cons,List.map_nil,Token.content,List.cons.injEq,Prod.mk.injEq] at hlast
    obtain ⟨⟨rfl,rfl⟩,-⟩ := hlast
    rfl
  · intro hdirectives
    apply hstored
    intro l hl
    obtain ⟨item,hitem,hl⟩ := List.mem_flatMap.mp hl
    cases item with
    | directive d =>
      rcases List.mem_singleton.mp hl with rfl
      exact hdirectives d hitem
    | statement s => exact s.stored l hl

/-- One blank between lexemes and a final newline. -/
def plainLayout : Layout where
  before := []
  between _ := [32]
  after := [10]
  before_blank := by simp
  between_blank _ c hc := by
    rw [List.mem_singleton.mp hc]
    rfl
  between_ne := by simp
  after_blank c hc := by
    rw [List.mem_singleton.mp hc]
    rfl

def printedProgram : List Item :=
  [.directive ⟨str "nova.v1", by decide⟩, .statement (.qbit ⟨str "q", by decide⟩ .zero),
    .statement (.repeatLoop ⟨str "2", by decide⟩ [.hadamard ⟨str "q", by decide⟩])]

theorem parse_print_nested :
    plainLayout.print (lexemesOf printedProgram) = str "@nova.v1 qbit q = |0> repeat 2 \x7b hadamard q \x7d\n" ∧
    parse (tokenize (plainLayout.print (lexemesOf printedProgram))) = .ok (programTree printedProgram) :=
  ⟨by decide,(parse_print printedProgram plainLayout (by decide)).1⟩

end QbitNova.Language
