import QbitNova.Language.RoundTrip
import QbitNova.Language.CompilerCorrect

/-! # Checks with an otherwise block

The documented grammar lets a check be followed by `otherwise` and a second block. The
parser knows no such form: the keyword and the brace after it are read as names, the
statements of the second block as statements of the block around it, and the brace that
closes it as the end of that block, or as one more name outside of all blocks. It treats
the block of an action in the same way. What it reads for every documented program is given
here as a function of the program, and its run is compared with the one the grammar asks
for.
-/
namespace QbitNova.Otherwise
open CText QbitNova.Language

/-- The statements without a block of their own. -/
def isSimple : Statement → Bool
  | .check _ _ _ _ => false
  | .repeatLoop _ _ => false
  | .bare _ _ => false
  | _ => true

/-- A comparison; the grammar says nothing about its value, which is a number here. -/
structure Condition where
  name : Word
  comparison : Comparison
  value : Numeral
  deriving DecidableEq

/-- The statements of the documented grammar, and those the parser has besides them: a let
of a number, an action without a block, cnot and the messages. -/
inductive Documented where
  | simple (s : Statement) (h : isSimple s = true)
  | directive (d : Directive)
  | letExpression (name : Word) (c : Condition)
  | actionBlock (name : Word) (body : List Documented)
  | check (c : Condition) (body : List Documented)
  | checkOtherwise (c : Condition) (body other : List Documented)
  | repeatLoop (count : Numeral) (body : List Documented)

theorem wordText_let : wordText (str "let") = true := by decide
theorem wordText_action : wordText (str "action") = true := by decide
theorem wordText_check : wordText (str "check") = true := by decide
theorem wordText_repeat : wordText (str "repeat") = true := by decide
theorem wordText_otherwise : wordText (str "otherwise") = true := by decide

/-- The lexemes in front of a block. -/
def Condition.lexemes (c : Condition) : List Lexeme :=
  [keyword "check" wordText_check, .word c.name, .symbol (.compare c.comparison), .number c.value]

def countLexemes (count : Numeral) : List Lexeme := [keyword "repeat" wordText_repeat, .number count]

def otherwiseLexeme : Lexeme := keyword "otherwise" wordText_otherwise

/-- The lexemes of a let up to the first word of its value. -/
def letLexemes (name value : Word) : List Lexeme := [keyword "let" wordText_let, .word name, .symbol .eq, .word value]

def actionLexemes (name : Word) : List Lexeme := [keyword "action" wordText_action, .word name]

/-- Lexemes between braces. -/
def braced (lexemes : List Lexeme) : List Lexeme := .symbol .lbrace :: (lexemes ++ [.symbol .rbrace])

mutual

def Documented.lexemes : Documented → List Lexeme
  | .simple s _ => s.lexemes
  | .directive d => [.directive d]
  | .letExpression name c => letLexemes name c.name ++ [.symbol (.compare c.comparison), .number c.value]
  | .actionBlock name body => actionLexemes name ++ braced (blockLexemes body)
  | .check c body => c.lexemes ++ braced (blockLexemes body)
  | .checkOtherwise c body other =>
    c.lexemes ++ braced (blockLexemes body) ++ otherwiseLexeme :: braced (blockLexemes other)
  | .repeatLoop count body => countLexemes count ++ braced (blockLexemes body)

def blockLexemes : List Documented → List Lexeme
  | [] => []
  | d :: rest => d.lexemes ++ blockLexemes rest

end

/-- What the parser reads: statements with the blocks it finds, and lexemes it takes for
names. -/
inductive Piece where
  | simple (s : Statement) (h : isSimple s = true)
  | letWord (name value : Word)
  | check (c : Condition) (body : List Piece)
  | repeatLoop (count : Numeral) (body : List Piece)
  | otherwise
  | lbrace
  | operator (c : Comparison)
  | number (n : Numeral)
  | directive (d : Directive)

mutual

def Piece.lexemes : Piece → List Lexeme
  | .simple s _ => s.lexemes
  | .letWord name value => letLexemes name value
  | .check c body => c.lexemes ++ braced (pieceLexemes body)
  | .repeatLoop count body => countLexemes count ++ braced (pieceLexemes body)
  | .otherwise => [otherwiseLexeme]
  | .lbrace => [.symbol .lbrace]
  | .operator c => [.symbol (.compare c)]
  | .number n => [.number n]
  | .directive d => [.directive d]

def pieceLexemes : List Piece → List Lexeme
  | [] => []
  | p :: rest => p.lexemes ++ pieceLexemes rest

end

/-- The node of a lexeme that is taken for a name. -/
def nameNode (l : Lexeme) : Node := newNode .ident l.content.2

def Condition.tree (c : Condition) : Node :=
  .node .binop c.comparison.spelling.2 (leaf .ident c.name.text) (leaf .number c.value.text) .null .null

mutual

def Piece.tree : Piece → Node
  | .simple s _ => s.tree .null
  | .letWord name value => .node .letBinding name.text (leaf .number value.text) .null .null .null
  | .check c body =>
    .node .check (str "check") c.tree .null (.node .block (str "block") .null .null (chain (pieceTrees body)) .null)
      .null
  | .repeatLoop count body =>
    .node .repeatLoop count.text .null .null (.node .block (str "block") .null .null (chain (pieceTrees body)) .null)
      .null
  | .otherwise => nameNode otherwiseLexeme
  | .lbrace => nameNode (.symbol .lbrace)
  | .operator c => nameNode (.symbol (.compare c))
  | .number n => nameNode (.number n)
  | .directive d => nameNode (.directive d)

def pieceTrees : List Piece → List Node
  | [] => []
  | p :: rest => p.tree :: pieceTrees rest

end

/-- A stretch of a program as the parser reads it: the pieces up to the first brace that
closes none of the blocks in it, and the pieces after each such brace. -/
structure Reading where
  inside : List Piece
  outside : List (List Piece)

/-- All pieces, as they come. -/
def Reading.pieces (r : Reading) : List Piece := r.inside ++ r.outside.flatten

/-- One stretch after the other. -/
def joined (inside : List Piece) (outside : List (List Piece)) (r : Reading) : Reading :=
  match outside with
  | [] => ⟨inside ++ r.inside, r.outside⟩
  | first :: rest => ⟨inside, (joined first rest r).inside :: (joined first rest r).outside⟩

def Reading.then (first second : Reading) : Reading := joined first.inside first.outside second

/-- A stretch between braces: its first closing brace closes the block, and the brace meant
to close it closes one more. -/
def Reading.block (piece : List Piece → Piece) (r : Reading) : Reading :=
  match r.outside with
  | [] => ⟨[piece r.inside], []⟩
  | first :: rest => ⟨piece r.inside :: first, rest ++ [[]]⟩

mutual

/-- What the parser makes of a documented statement. -/
def reading : Documented → Reading
  | .simple s h => ⟨[.simple s h], []⟩
  | .directive d => ⟨[.directive d], []⟩
  | .letExpression name c => ⟨[.letWord name c.name, .operator c.comparison, .number c.value], []⟩
  | .actionBlock name body =>
    ⟨.simple (.action name) rfl :: .lbrace :: (readings body).inside, (readings body).outside ++ [[]]⟩
  | .check c body => (readings body).block (.check c)
  | .checkOtherwise c body other =>
    ((readings body).block (.check c)).then
      ⟨.otherwise :: .lbrace :: (readings other).inside, (readings other).outside ++ [[]]⟩
  | .repeatLoop count body => (readings body).block (.repeatLoop count)

def readings : List Documented → Reading
  | [] => ⟨[], []⟩
  | d :: rest => (reading d).then (readings rest)

end

/-- The lexemes of a stretch. -/
def Reading.lexemes (r : Reading) : List Lexeme :=
  pieceLexemes r.inside ++ r.outside.flatMap (fun pieces => .symbol .rbrace :: pieceLexemes pieces)

theorem pieceLexemes_eq (pieces : List Piece) : pieceLexemes pieces = pieces.flatMap Piece.lexemes := by
  induction pieces with
  | nil => rfl
  | cons p pieces ih => rw [pieceLexemes,List.flatMap_cons,ih]

theorem pieceTrees_eq (pieces : List Piece) : pieceTrees pieces = pieces.map Piece.tree := by
  induction pieces with
  | nil => rfl
  | cons p pieces ih => rw [pieceTrees,List.map_cons,ih]

theorem pieceLexemes_append (first second : List Piece) :
    pieceLexemes (first ++ second) = pieceLexemes first ++ pieceLexemes second := by
  simp only [pieceLexemes_eq,List.flatMap_append]

theorem joined_lexemes (inside : List Piece) (outside : List (List Piece)) (r : Reading) :
    (joined inside outside r).lexemes = (Reading.mk inside outside).lexemes ++ r.lexemes := by
  induction outside generalizing inside with
  | nil => simp only [joined,Reading.lexemes,pieceLexemes_append,List.flatMap_nil,List.append_nil,List.append_assoc]
  | cons first rest ih =>
    have hrest := ih first
    simp only [Reading.lexemes] at hrest
    simp only [joined,Reading.lexemes,List.flatMap_cons,List.cons_append,List.append_assoc,hrest]

theorem joined_pieces (inside : List Piece) (outside : List (List Piece)) (r : Reading) :
    (joined inside outside r).pieces = inside ++ outside.flatten ++ r.pieces := by
  induction outside generalizing inside with
  | nil => simp only [joined,Reading.pieces,List.flatten_nil,List.append_nil,List.append_assoc]
  | cons first rest ih =>
    have hrest := ih first
    simp only [Reading.pieces] at hrest
    simp only [joined,Reading.pieces,List.flatten_cons,List.append_assoc,hrest]

@[simp] theorem then_lexemes (first second : Reading) : (first.then second).lexemes = first.lexemes ++ second.lexemes :=
  joined_lexemes first.inside first.outside second

@[simp] theorem then_pieces (first second : Reading) : (first.then second).pieces = first.pieces ++ second.pieces :=
  joined_pieces first.inside first.outside second

theorem block_lexemes {piece : List Piece → Piece} {front : List Lexeme}
    (h : ∀ body, (piece body).lexemes = front ++ braced (pieceLexemes body)) (r : Reading) :
    (r.block piece).lexemes = front ++ braced r.lexemes := by
  obtain ⟨inside,outside⟩ := r
  cases outside with
  | nil => simp [Reading.block,Reading.lexemes,pieceLexemes,h]
  | cons first rest =>
    simp [Reading.block,Reading.lexemes,pieceLexemes,h,braced]

@[simp] theorem block_pieces (piece : List Piece → Piece) (r : Reading) :
    (r.block piece).pieces = piece r.inside :: r.outside.flatten := by
  obtain ⟨inside,outside⟩ := r
  cases outside with
  | nil => rfl
  | cons first rest => simp [Reading.block,Reading.pieces]

mutual

/-- The pieces and the braces between them are the lexemes of the statement. -/
theorem reading_lexemes : ∀ d : Documented, (reading d).lexemes = d.lexemes
  | .simple s h => by simp [reading,Reading.lexemes,pieceLexemes,Piece.lexemes,Documented.lexemes]
  | .directive d => rfl
  | .letExpression name c => rfl
  | .actionBlock name body => by
    rw [reading,Documented.lexemes,← readings_lexemes body]
    simp [Reading.lexemes,pieceLexemes,Piece.lexemes,Statement.lexemes,actionLexemes,braced]
  | .check c body => by
    rw [reading,block_lexemes (fun _ => rfl),readings_lexemes body]
    rfl
  | .checkOtherwise c body other => by
    rw [reading,then_lexemes,block_lexemes (fun _ => rfl),readings_lexemes body,Documented.lexemes,
      ← readings_lexemes other]
    simp [Reading.lexemes,pieceLexemes,Piece.lexemes,braced]
  | .repeatLoop count body => by
    rw [reading,block_lexemes (fun _ => rfl),readings_lexemes body]
    rfl

theorem readings_lexemes : ∀ body : List Documented, (readings body).lexemes = blockLexemes body
  | [] => rfl
  | d :: rest => by rw [readings,then_lexemes,reading_lexemes d,readings_lexemes rest,blockLexemes]

end

/-- What stands in the loop of the program: a piece, or a closing brace that closes nothing. -/
inductive TopLevel where
  | piece (p : Piece)
  | rbrace

def TopLevel.lexemes : TopLevel → List Lexeme
  | .piece p => p.lexemes
  | .rbrace => [.symbol .rbrace]

/-- The node it leaves in the tree; the loop of the program drops directives. -/
def TopLevel.node : TopLevel → Option Node
  | .piece (.directive _) => none
  | .piece p => some p.tree
  | .rbrace => some (nameNode (.symbol .rbrace))

def topLevel (r : Reading) : List TopLevel :=
  r.inside.map .piece ++ r.outside.flatMap (fun pieces => .rbrace :: pieces.map .piece)

theorem topLevel_lexemes (r : Reading) : (topLevel r).flatMap TopLevel.lexemes = r.lexemes := by
  have hpieces : ∀ pieces : List Piece, (pieces.map TopLevel.piece).flatMap TopLevel.lexemes = pieceLexemes pieces := by
    intro pieces
    rw [List.flatMap_map,pieceLexemes_eq]
    rfl
  simp only [topLevel,Reading.lexemes,List.flatMap_append,hpieces,List.flatMap_assoc,List.flatMap_cons]
  rfl

section Parsing
variable {toks : List Token}

/-- The types of tokens that begin no statement. -/
def strayTypes : List TokenType :=
  [.otherwise, .lbrace, .rbrace, .directive, .number, .gt, .lt, .gte, .lte, .eqeq]

theorem reads_stray {l : Lexeme} (fuel : ℕ) (hstray : l.content.1 ∈ strayTypes) :
    Reads toks (parseStmt toks (fuel + 1)) [l] (nameNode l) := by
  intro pos h
  obtain ⟨t,ht,htype,hvalue,-⟩ := h.cons
  rw [parseStmt,bind_ok (peek_ok ht)]
  unfold statementFrom
  rw [← htype] at hstray
  simp only [strayTypes,List.mem_cons,List.not_mem_nil,or_false] at hstray
  rcases hstray with hkey | hkey | hkey | hkey | hkey | hkey | hkey | hkey | hkey | hkey
  all_goals
    simp only [hkey]
    rw [bind_ok (advance_token ht),hvalue]
    rfl

theorem compare_stray (c : Comparison) : c.spelling.1 ∈ strayTypes := by
  cases c <;> decide

theorem Piece.starts_with (p : Piece) : Starts p.lexemes [.rbrace, .eof] := by
  cases p with
  | simple s h => exact s.starts_with (by decide) (by decide)
  | letWord name value => exact ⟨_,_,rfl,by decide⟩
  | operator c => exact ⟨_,_,rfl,by cases c <;> decide⟩
  | number n =>
    have hstops : TokenType.number ∉ [TokenType.rbrace, .eof] := by decide
    exact ⟨_,_,rfl,hstops⟩
  | check c body => exact ⟨_,_,rfl,by decide⟩
  | repeatLoop count body => exact ⟨_,_,rfl,by decide⟩
  | otherwise => exact ⟨_,_,rfl,by decide⟩
  | lbrace => exact ⟨_,_,rfl,by decide⟩
  | directive d =>
    have hstops : TokenType.directive ∉ [TokenType.rbrace, .eof] := by decide
    exact ⟨_,_,rfl,hstops⟩

/-- The parser reads a piece into its node, at any position. The induction is on the fuel,
as for the statements without an otherwise. -/
theorem parseStmt_reads (fuel : ℕ) (p : Piece) (hfuel : p.lexemes.length ≤ fuel) :
    Reads toks (parseStmt toks fuel) p.lexemes p.tree := by
  induction fuel generalizing p with
  | zero => exact absurd (p.starts_with.length_pos.trans hfuel) (by decide)
  | succ fuel ih =>
    cases p with
    | simple s hsimple => exact parseStmt_follows (fuel + 1) s hfuel
    | otherwise => exact reads_stray fuel (show TokenType.otherwise ∈ strayTypes by decide)
    | lbrace => exact reads_stray fuel (show TokenType.lbrace ∈ strayTypes by decide)
    | operator c => exact reads_stray fuel (compare_stray c)
    | number n => exact reads_stray fuel (show TokenType.number ∈ strayTypes by decide)
    | directive d => exact reads_stray fuel (show TokenType.directive ∈ strayTypes by decide)
    | letWord name value =>
      intro pos h
      obtain ⟨t,ht,htype,-,-⟩ := h.cons
      have hkey : t.type = .letKeyword := htype
      rw [parseStmt,bind_ok (peek_ok ht)]
      unfold statementFrom
      simp only [hkey]
      exact reads_setting h value.short .letBinding .number
    | check c body =>
      intro pos h
      have hlength : (Piece.check c body).lexemes.length = (body.flatMap Piece.lexemes).length + 6 := by
        rw [Piece.lexemes,pieceLexemes_eq]
        simp [Condition.lexemes,braced]
      obtain ⟨-,hrest⟩ := h.append
      rw [pieceLexemes_eq] at hrest
      have hblock := parseBlock_follows (q := pos + (body.flatMap Piece.lexemes).length + 6) fuel (by omega)
        (fun r hr => ih r ((length_le_flatMap hr).trans (by omega))) (fun r _ => r.starts_with) hrest
        (by simp only [Condition.lexemes,List.length_cons,List.length_nil]; omega)
      obtain ⟨t,ht,htype,-,-⟩ := h.cons
      have hkey : t.type = .check := htype
      rw [parseStmt,bind_ok (peek_ok ht)]
      unfold statementFrom
      simp only [hkey]
      rw [reads_check h hblock,hlength,Piece.tree,pieceTrees_eq]
      rfl
    | repeatLoop count body =>
      intro pos h
      have hlength : (Piece.repeatLoop count body).lexemes.length = (body.flatMap Piece.lexemes).length + 4 := by
        rw [Piece.lexemes,pieceLexemes_eq]
        simp [countLexemes,braced]
      obtain ⟨-,hrest⟩ := h.append
      rw [pieceLexemes_eq] at hrest
      have hblock := parseBlock_follows (q := pos + (body.flatMap Piece.lexemes).length + 4) fuel (by omega)
        (fun r hr => ih r ((length_le_flatMap hr).trans (by omega))) (fun r _ => r.starts_with) hrest
        (by simp only [countLexemes,List.length_cons,List.length_nil]; omega)
      obtain ⟨t,ht,htype,-,-⟩ := h.cons
      have hkey : t.type = .repeatKeyword := htype
      rw [parseStmt,bind_ok (peek_ok ht)]
      unfold statementFrom
      simp only [hkey]
      rw [reads_repeat h hblock,hlength,Piece.tree,pieceTrees_eq]
      rfl

/-- The loop of the program takes every piece and every brace. -/
theorem TopLevel.taken (item : TopLevel) {fuel : ℕ} (hfuel : item.lexemes.length ≤ fuel) :
    Taken toks (parseStmt toks fuel) item.lexemes item.node := by
  cases item with
  | rbrace =>
    obtain ⟨fuel,rfl⟩ : ∃ k, fuel = k + 1 := ⟨fuel - 1,(Nat.sub_add_cancel hfuel).symm⟩
    exact ⟨reads_stray fuel (show TokenType.rbrace ∈ strayTypes by decide),_,_,rfl,by decide⟩
  | piece p =>
    have hread : Reads toks (parseStmt toks fuel) p.lexemes p.tree := parseStmt_reads fuel p hfuel
    cases p with
    | simple s h => exact ⟨hread,s.starts_with (by decide) (by decide)⟩
    | letWord name value => exact ⟨hread,_,_,rfl,by decide⟩
    | operator c => exact ⟨hread,_,_,rfl,by cases c <;> decide⟩
    | number n =>
      have hstops : TokenType.number ∉ [TokenType.eof, .directive] := by decide
      exact ⟨hread,_,_,rfl,hstops⟩
    | check c body => exact ⟨hread,_,_,rfl,by decide⟩
    | repeatLoop count body => exact ⟨hread,_,_,rfl,by decide⟩
    | otherwise => exact ⟨hread,_,_,rfl,by decide⟩
    | lbrace => exact ⟨hread,_,_,rfl,by decide⟩
    | directive d => exact ⟨d,rfl⟩

/-- The nodes the parser links to each other outside of all blocks. -/
def topNodes (program : List Documented) : List Node := (topLevel (readings program)).filterMap TopLevel.node

/-- Every documented program is parsed, into what its reading says. -/
theorem parse_reading {program : List Documented} (h : toks.map Token.content = contents (blockLexemes program)) :
    parse toks = .ok (.node .program (str "program") .null .null (chain (topNodes program)) .null) := by
  rw [← readings_lexemes,← topLevel_lexemes] at h
  have hlength : toks.length = ((topLevel (readings program)).flatMap TopLevel.lexemes).length + 1 := by
    have hmap := congrArg List.length h
    simpa [contents] using hmap
  have htake : ∀ item ∈ topLevel (readings program),
      Taken toks (parseStmt toks toks.length) item.lexemes item.node := by
    intro item hitem
    have hle := @length_le_flatMap _ TopLevel.lexemes _ _ hitem
    exact item.taken (by omega)
  have hitems : (topLevel (readings program)).length ≤
      ((topLevel (readings program)).flatMap TopLevel.lexemes).length := by
    refine length_le_lexemes fun item _ => ?_
    cases item with
    | rbrace => exact Nat.le_refl 1
    | piece p => exact p.starts_with.length_pos
  have hloop := programLoop_takes (toks.length + 1) (by omega) htake (by rw [List.drop_zero]; exact h)
  simp only [parse,hloop,bind,Except.bind,pure,Except.pure]
  rfl

end Parsing

/-- A node to which nothing is linked yet. -/
def Unlinked (n : Node) : Prop := ∃ type value left right body, n = .node type value left right body .null

theorem Piece.unlinked (p : Piece) : Unlinked p.tree := by
  cases p with
  | simple s h => cases s <;> exact ⟨_,_,_,_,_,rfl⟩
  | _ => exact ⟨_,_,_,_,_,rfl⟩

theorem TopLevel.unlinked {item : TopLevel} {n : Node} (h : item.node = some n) : Unlinked n := by
  cases item with
  | rbrace =>
    cases h
    exact ⟨_,_,_,_,_,rfl⟩
  | piece p =>
    have hp := p.unlinked
    cases p <;> cases h <;> exact hp

theorem codeOf_withNext {n : Node} (h : Unlinked n) (next : Node) : codeOf (n.withNext next) = codeOf n ++ codeOf next := by
  obtain ⟨type,value,left,right,body,rfl⟩ := h
  simp only [Node.withNext,codeOf,List.append_nil]

theorem repeatDepth_withNext {n : Node} (h : Unlinked n) (next : Node) :
    (n.withNext next).repeatDepth = max n.repeatDepth next.repeatDepth := by
  obtain ⟨type,value,left,right,body,rfl⟩ := h
  simp only [Node.withNext,Node.repeatDepth,Nat.max_zero]

theorem lexemesFit_withNext {n : Node} (h : Unlinked n) (next : Node) :
    (n.withNext next).LexemesFit ↔ n.LexemesFit ∧ next.LexemesFit := by
  obtain ⟨type,value,left,right,body,rfl⟩ := h
  simp only [Node.withNext,Node.LexemesFit,and_true,and_assoc]

theorem chain_repeatDepth {nodes : List Node} {bound : ℕ} (hlink : ∀ n ∈ nodes, Unlinked n)
    (h : ∀ n ∈ nodes, n.repeatDepth ≤ bound) : (chain nodes).repeatDepth ≤ bound := by
  induction nodes with
  | nil => exact Nat.zero_le bound
  | cons n nodes ih =>
    rw [chain,repeatDepth_withNext (hlink n List.mem_cons_self)]
    exact max_le (h n List.mem_cons_self)
      (ih (fun m hm => hlink m (List.mem_cons_of_mem n hm)) (fun m hm => h m (List.mem_cons_of_mem n hm)))

theorem chain_lexemesFit {nodes : List Node} (hlink : ∀ n ∈ nodes, Unlinked n) (h : ∀ n ∈ nodes, n.LexemesFit) :
    (chain nodes).LexemesFit := by
  induction nodes with
  | nil => trivial
  | cons n nodes ih =>
    rw [chain,lexemesFit_withNext (hlink n List.mem_cons_self)]
    exact ⟨h n List.mem_cons_self,
      ih (fun m hm => hlink m (List.mem_cons_of_mem n hm)) (fun m hm => h m (List.mem_cons_of_mem n hm))⟩

theorem pieceTrees_unlinked (pieces : List Piece) : ∀ n ∈ pieceTrees pieces, Unlinked n := by
  intro n hn
  rw [pieceTrees_eq] at hn
  obtain ⟨p,-,rfl⟩ := List.mem_map.mp hn
  exact p.unlinked

mutual

/-- How deep repeats are nested in the documented program. -/
def Documented.depth : Documented → ℕ
  | .simple _ _ => 0
  | .directive _ => 0
  | .letExpression _ _ => 0
  | .actionBlock _ body => blockDepth body
  | .check _ body => blockDepth body
  | .checkOtherwise _ body other => max (blockDepth body) (blockDepth other)
  | .repeatLoop _ body => blockDepth body + 1

def blockDepth : List Documented → ℕ
  | [] => 0
  | d :: rest => max d.depth (blockDepth rest)

end

/-- Every text of the lexemes fits an argument field. -/
def ShortTexts (lexemes : List Lexeme) : Prop := ∀ l ∈ lexemes, l.content.2.length < argumentBytes

instance (lexemes : List Lexeme) : Decidable (ShortTexts lexemes) :=
  inferInstanceAs (Decidable (∀ l ∈ lexemes, l.content.2.length < argumentBytes))

/-- The program fits the token array, the argument fields and the repeat stack. -/
structure Fitting (program : List Documented) : Prop where
  tokens : (blockLexemes program).length + 1 ≤ maxTokens
  texts : ShortTexts (blockLexemes program)
  depth : blockDepth program ≤ maxRepeats

theorem block_depth {r : Reading} {bound : ℕ} (h : ∀ p ∈ r.pieces, p.tree.repeatDepth ≤ bound) :
    (chain (pieceTrees r.inside)).repeatDepth ≤ bound ∧ ∀ p ∈ r.outside.flatten, p.tree.repeatDepth ≤ bound := by
  refine ⟨chain_repeatDepth (pieceTrees_unlinked _) ?_,fun p hp => h p (List.mem_append_right _ hp)⟩
  intro n hn
  rw [pieceTrees_eq] at hn
  obtain ⟨p,hp,rfl⟩ := List.mem_map.mp hn
  exact h p (List.mem_append_left _ hp)

theorem simple_depth {s : Statement} (h : isSimple s = true) : (s.tree .null).repeatDepth = 0 := by
  cases s <;> first | rfl | cases h

mutual

/-- Reading a program moves statements out of repeats, never into them. -/
theorem reading_depth : ∀ d : Documented, ∀ p ∈ (reading d).pieces, p.tree.repeatDepth ≤ d.depth
  | .simple s h => by
    intro p hp
    rcases List.mem_singleton.mp hp with rfl
    exact (simple_depth h).le
  | .directive d => by
    intro p hp
    rcases List.mem_singleton.mp hp with rfl
    exact Nat.le_refl 0
  | .letExpression name c => by
    intro p hp
    simp only [reading,Reading.pieces,List.flatten_nil,List.append_nil,List.mem_cons,List.not_mem_nil,or_false] at hp
    rcases hp with rfl | rfl | rfl <;> exact Nat.le_refl 0
  | .actionBlock name body => by
    have hbody := readings_depth body
    intro p hp
    simp only [reading,Reading.pieces,List.flatten_append,List.cons_append,List.mem_cons] at hp
    rcases hp with rfl | rfl | hp
    · exact Nat.zero_le _
    · exact Nat.zero_le _
    · exact hbody p (by simpa [Reading.pieces] using hp)
  | .check c body => by
    obtain ⟨hin,hout⟩ := block_depth (readings_depth body)
    intro p hp
    rw [reading,block_pieces] at hp
    rcases List.mem_cons.mp hp with rfl | hp
    · simpa [Piece.tree,Node.repeatDepth,Documented.depth] using hin
    · exact hout p hp
  | .checkOtherwise c body other => by
    obtain ⟨hin,hout⟩ := block_depth (readings_depth body)
    have hother := readings_depth other
    intro p hp
    rw [reading,then_pieces,block_pieces] at hp
    rw [Documented.depth]
    rcases List.mem_append.mp hp with hp | hp
    · apply le_max_of_le_left
      rcases List.mem_cons.mp hp with rfl | hp
      · simpa [Piece.tree,Node.repeatDepth] using hin
      · exact hout p hp
    · apply le_max_of_le_right
      simp only [Reading.pieces,List.flatten_append,List.cons_append,List.mem_cons] at hp
      rcases hp with rfl | rfl | hp
      · exact Nat.zero_le _
      · exact Nat.zero_le _
      · exact hother p (by simpa [Reading.pieces] using hp)
  | .repeatLoop count body => by
    obtain ⟨hin,hout⟩ := block_depth (readings_depth body)
    intro p hp
    rw [reading,block_pieces] at hp
    rcases List.mem_cons.mp hp with rfl | hp
    · simpa [Piece.tree,Node.repeatDepth,Documented.depth] using hin
    · exact (hout p hp).trans (Nat.le_succ _)

theorem readings_depth : ∀ body : List Documented, ∀ p ∈ (readings body).pieces, p.tree.repeatDepth ≤ blockDepth body
  | [] => by
    intro p hp
    cases hp
  | d :: rest => by
    intro p hp
    rw [readings,then_pieces] at hp
    rcases List.mem_append.mp hp with hp | hp
    · exact le_max_of_le_left (reading_depth d p hp)
    · exact le_max_of_le_right (readings_depth rest p hp)

end

theorem ShortTexts.append {first second : List Lexeme} (h : ShortTexts (first ++ second)) :
    ShortTexts first ∧ ShortTexts second :=
  ⟨fun l hl => h l (List.mem_append_left _ hl),fun l hl => h l (List.mem_append_right _ hl)⟩

theorem ShortTexts.braced {lexemes : List Lexeme} (h : ShortTexts (braced lexemes)) : ShortTexts lexemes :=
  fun l hl => h l (List.mem_cons_of_mem _ (List.mem_append_left _ hl))

theorem leaf_fits (type : NodeType) {value : Bytes} (h : value.length < argumentBytes) :
    (leaf type value).LexemesFit := ⟨h,trivial,trivial,trivial,trivial⟩

theorem simple_fits {s : Statement} (hsimple : isSimple s = true) (h : ShortTexts s.lexemes) :
    (s.tree .null).LexemesFit := by
  have hword : ∀ {w : Word}, Lexeme.word w ∈ s.lexemes → w.text.length < argumentBytes := fun hmem => h _ hmem
  have hoperand : ∀ {o : Operand}, o.lexeme ∈ s.lexemes → o.tree.LexemesFit := by
    intro o hmem
    cases o with
    | text l => exact leaf_fits _ (h _ hmem)
    | name w => exact leaf_fits _ (h _ hmem)
  cases s with
  | say o => exact ⟨by decide,hoperand (by simp [Statement.lexemes]),trivial,trivial,trivial⟩
  | qmsg o => exact ⟨by decide,hoperand (by simp [Statement.lexemes]),trivial,trivial,trivial⟩
  | letBinding name value =>
    have hvalue := h (.number value) (by simp [Statement.lexemes])
    exact ⟨hword (by simp [Statement.lexemes]),leaf_fits _ hvalue,trivial,trivial,trivial⟩
  | qbit name state =>
    have hvalue := h (.symbol (.state state)) (by simp [Statement.lexemes])
    exact ⟨hword (by simp [Statement.lexemes]),leaf_fits _ hvalue,trivial,trivial,trivial⟩
  | encode name => exact leaf_fits _ (hword (by simp [Statement.lexemes]))
  | decode name => exact leaf_fits _ (hword (by simp [Statement.lexemes]))
  | hadamard name => exact leaf_fits _ (hword (by simp [Statement.lexemes]))
  | measure name => exact leaf_fits _ (hword (by simp [Statement.lexemes]))
  | action name => exact leaf_fits _ (hword (by simp [Statement.lexemes]))
  | entangle first second =>
    exact ⟨hword (by simp [Statement.lexemes]),leaf_fits _ (hword (by simp [Statement.lexemes])),trivial,trivial,
      trivial⟩
  | cnot control target =>
    exact ⟨hword (by simp [Statement.lexemes]),leaf_fits _ (hword (by simp [Statement.lexemes])),trivial,trivial,
      trivial⟩
  | check name comparison value body => cases hsimple
  | repeatLoop count body => cases hsimple
  | bare name hident => cases hsimple

theorem Condition.fits {c : Condition} (h : ShortTexts c.lexemes) : c.tree.LexemesFit := by
  have hname := h (.word c.name) (by simp [Condition.lexemes])
  have hoperator := h (.symbol (.compare c.comparison)) (by simp [Condition.lexemes])
  have hvalue := h (.number c.value) (by simp [Condition.lexemes])
  exact ⟨hoperator,leaf_fits _ hname,leaf_fits _ hvalue,trivial,trivial⟩

theorem nameNode_fits {l : Lexeme} (h : l.content.2.length < argumentBytes) : (nameNode l).LexemesFit :=
  leaf_fits _ ((List.length_take_le' _ _).trans_lt h)

mutual

theorem Piece.fits : ∀ p : Piece, ShortTexts p.lexemes → p.tree.LexemesFit
  | .simple s hsimple, h => simple_fits hsimple h
  | .letWord name value, h =>
    ⟨h (.word name) (by simp [Piece.lexemes,letLexemes]),
      leaf_fits _ (h (.word value) (by simp [Piece.lexemes,letLexemes])),trivial,trivial,trivial⟩
  | .operator c, h => nameNode_fits (h _ (by simp [Piece.lexemes]))
  | .number n, h => nameNode_fits (h _ (by simp [Piece.lexemes]))
  | .check c body, h =>
    ⟨(by decide),Condition.fits h.append.1,trivial,
      ⟨(by decide),trivial,trivial,pieces_fit body h.append.2.braced,trivial⟩,trivial⟩
  | .repeatLoop count body, h =>
    ⟨h.append.1 (.number count) (by simp [countLexemes]),trivial,trivial,
      ⟨(by decide),trivial,trivial,pieces_fit body h.append.2.braced,trivial⟩,trivial⟩
  | .otherwise, h => nameNode_fits (h _ (by simp [Piece.lexemes]))
  | .lbrace, h => nameNode_fits (h _ (by simp [Piece.lexemes]))
  | .directive d, h => nameNode_fits (h _ (by simp [Piece.lexemes]))

theorem pieces_fit : ∀ pieces : List Piece, ShortTexts (pieceLexemes pieces) → (chain (pieceTrees pieces)).LexemesFit
  | [], _ => trivial
  | p :: rest, h => (lexemesFit_withNext p.unlinked _).mpr ⟨p.fits h.append.1,pieces_fit rest h.append.2⟩

end

theorem simple_code {s : Statement} (h : isSimple s = true) : (codeOf (s.tree .null)).length ≤ s.lexemes.length := by
  cases s with
  | check name comparison value body => cases h
  | repeatLoop count body => cases h
  | bare name hident => cases h
  | _ => exact Nat.le_add_left 1 _

mutual

/-- No piece has more instructions than lexemes. -/
theorem Piece.code_le : ∀ p : Piece, (codeOf p.tree).length ≤ p.lexemes.length
  | .simple s hsimple => simple_code hsimple
  | .letWord name value => Nat.le_add_left 1 _
  | .operator c => Nat.zero_le _
  | .number n => Nat.zero_le _
  | .check c body => by
    have hbody := pieces_code_le body
    simp only [Piece.tree,codeOf,Piece.lexemes,Condition.lexemes,braced,List.length_append,List.length_cons,
      List.length_nil]
    omega
  | .repeatLoop count body => by
    have hbody := pieces_code_le body
    simp only [Piece.tree,codeOf,Piece.lexemes,countLexemes,braced,List.length_append,List.length_cons,List.length_nil]
    omega
  | .otherwise => Nat.zero_le _
  | .lbrace => Nat.zero_le _
  | .directive d => Nat.zero_le _

theorem pieces_code_le : ∀ pieces : List Piece, (codeOf (chain (pieceTrees pieces))).length ≤ (pieceLexemes pieces).length
  | [] => Nat.zero_le _
  | p :: rest => by
    have hp := p.code_le
    have hrest := pieces_code_le rest
    rw [pieceTrees,chain,codeOf_withNext p.unlinked,pieceLexemes,List.length_append,List.length_append]
    omega

end

/-- The same for everything outside of the blocks. -/
theorem topLevel_code_le (items : List TopLevel) :
    (codeOf (chain (items.filterMap TopLevel.node))).length ≤ (items.flatMap TopLevel.lexemes).length := by
  induction items with
  | nil => exact Nat.zero_le _
  | cons item items ih =>
    rw [List.flatMap_cons,List.length_append]
    cases hnode : item.node with
    | none =>
      rw [List.filterMap_cons_none hnode]
      omega
    | some n =>
      rw [List.filterMap_cons_some hnode,chain,codeOf_withNext (TopLevel.unlinked hnode),List.length_append]
      have hitem : (codeOf n).length ≤ item.lexemes.length := by
        cases item with
        | rbrace =>
          cases hnode
          exact Nat.zero_le _
        | piece p =>
          have hp := p.code_le
          cases p <;> cases hnode <;> exact hp
      omega

theorem TopLevel.node_fits {item : TopLevel} {n : Node} (hnode : item.node = some n) (h : ShortTexts item.lexemes) :
    n.LexemesFit := by
  cases item with
  | rbrace =>
    cases hnode
    exact nameNode_fits (by decide)
  | piece p =>
    have hp := p.fits h
    cases p <;> cases hnode <;> exact hp

theorem TopLevel.node_depth {item : TopLevel} {n : Node} {bound : ℕ} (hnode : item.node = some n)
    (h : ∀ p, item = .piece p → p.tree.repeatDepth ≤ bound) : n.repeatDepth ≤ bound := by
  cases item with
  | rbrace =>
    cases hnode
    exact Nat.zero_le bound
  | piece p =>
    have hp := h p rfl
    cases p <;> cases hnode <;> exact hp

/-- A piece outside of the blocks is one of the pieces. -/
theorem mem_topLevel {r : Reading} {p : Piece} (h : TopLevel.piece p ∈ topLevel r) : p ∈ r.pieces := by
  rw [topLevel] at h
  rcases List.mem_append.mp h with h | h
  · obtain ⟨q,hq,heq⟩ := List.mem_map.mp h
    cases heq
    exact List.mem_append_left _ hq
  · obtain ⟨pieces,hpieces,h⟩ := List.mem_flatMap.mp h
    obtain ⟨q,hq,heq⟩ := List.mem_map.mp ((List.mem_cons.mp h).resolve_left (fun heq => by cases heq))
    cases heq
    exact List.mem_append_right _ (List.mem_flatten_of_mem hpieces hq)

section Limits
variable {program : List Documented}

theorem topNodes_unlinked : ∀ n ∈ topNodes program, Unlinked n := by
  intro n hn
  obtain ⟨item,-,hnode⟩ := List.mem_filterMap.mp hn
  exact TopLevel.unlinked hnode

theorem Fitting.code (h : Fitting program) : (codeOf (chain (topNodes program))).length ≤ maxInstr := by
  have hle := topLevel_code_le (topLevel (readings program))
  rw [topLevel_lexemes,readings_lexemes] at hle
  have htokens := h.tokens
  have hsame : maxTokens = maxInstr := rfl
  rw [topNodes]
  omega

theorem Fitting.lexemesFit (h : Fitting program) : (chain (topNodes program)).LexemesFit := by
  refine chain_lexemesFit topNodes_unlinked fun n hn => ?_
  obtain ⟨item,hitem,hnode⟩ := List.mem_filterMap.mp hn
  refine TopLevel.node_fits hnode fun l hl => h.texts l ?_
  rw [← readings_lexemes,← topLevel_lexemes]
  exact List.mem_flatMap.mpr ⟨item,hitem,hl⟩

theorem Fitting.repeatDepth (h : Fitting program) : (chain (topNodes program)).repeatDepth ≤ maxRepeats := by
  refine (chain_repeatDepth topNodes_unlinked fun n hn => ?_).trans h.depth
  obtain ⟨item,hitem,hnode⟩ := List.mem_filterMap.mp hn
  apply TopLevel.node_depth hnode
  rintro p rfl
  exact readings_depth program p (mem_topLevel hitem)

theorem Fitting.stored (h : Fitting program) : ∀ l ∈ blockLexemes program, l.stored := by
  intro l hl
  have hshort := h.texts l hl
  cases l with
  | directive d =>
    have htake : (d.text.take 255).length < 64 := hshort
    rw [List.length_take] at htake
    have hlength : d.text.length ≤ 255 := by omega
    exact hlength
  | _ => trivial

end Limits

end QbitNova.Otherwise
