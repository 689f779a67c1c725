import QbitNova.Language.Lexer

/-! # The parser

The token array and its count are fixed, the position is passed along. Reading a
token at or past the count is a fault that carries the position. The statement and
block parsers call each other; their recursion is bounded by a fuel that the number
of tokens always covers.
-/
namespace QbitNova.Language
open CText

inductive NodeType where
  | program | say | letBinding | check | block | qbit | hadamard | measure | entangle | cnot
  | qmsg | encodeQmsg | decodeQmsg | repeatLoop | action | binop | string | number | ident | state
  deriving DecidableEq, Repr

/-- A tree node or the null pointer. -/
inductive Node where
  | null
  | node (type : NodeType) (value : Bytes) (left right body next : Node)
  deriving DecidableEq, Repr

/-- A cleared node with a value of at most 255 bytes. -/
def newNode (type : NodeType) (value : Bytes) : Node := .node type (value.take 255) .null .null .null .null

def Node.withLeft : Node → Node → Node
  | .null, _ => .null
  | .node type value _ right body next, left => .node type value left right body next

def Node.withRight : Node → Node → Node
  | .null, _ => .null
  | .node type value left _ body next, right => .node type value left right body next

def Node.withBody : Node → Node → Node
  | .null, _ => .null
  | .node type value left right _ next, body => .node type value left right body next

def Node.withNext : Node → Node → Node
  | .null, _ => .null
  | .node type value left right body _, next => .node type value left right body next

/-- The statements of a list, each linked to the next one. -/
def chain : List Node → Node
  | [] => .null
  | statement :: rest => statement.withNext (chain rest)

inductive Fault where
  | pastEnd (position : ℕ)
  | outOfFuel
  deriving DecidableEq, Repr

/-- A routine of the parser: from a position to a result and the next position. -/
abbrev ParseM := StateT ℕ (Except Fault)

section
variable (toks : List Token)

def peek : ParseM Token := fun pos =>
  match toks[pos]? with
  | some token => .ok (token, pos)
  | none => .error (.pastEnd pos)

def advance : ParseM Token := fun pos =>
  match toks[pos]? with
  | some token => .ok (token, pos + 1)
  | none => .error (.pastEnd pos)

def checkType (type : TokenType) : ParseM Bool := do
  return (← peek toks).type == type

/-- A name node from the token at hand, which is then skipped. -/
def takeNode (type : NodeType) : ParseM Node := do
  let token ← peek toks
  let _ ← advance toks
  return newNode type token.value

def parseExpr : ParseM Node := do
  let left ← takeNode toks .ident
  let op ← takeNode toks .binop
  let right ← takeNode toks .number
  return (op.withLeft left).withRight right

/-- The operand of say and qmsg: a string or anything else. -/
def parseOperand : ParseM Node := do
  let token ← advance toks
  if token.type = .string then return newNode .string token.value
  else return newNode .ident token.value

/-- Statements up to a closing brace or the end of the tokens. -/
def blockLoop (statement : ParseM Node) : ℕ → ParseM (List Node)
  | 0 => fun _ => .error .outOfFuel
  | fuel + 1 => do
    if ← checkType toks .rbrace then return []
    else if ← checkType toks .eof then return []
    else
      let s ← statement
      let rest ← blockLoop statement fuel
      return s :: rest

def parseBlock (statement : ParseM Node) (fuel : ℕ) : ParseM Node := do
  let _ ← advance toks
  let body ← blockLoop toks statement fuel
  let _ ← advance toks
  return (newNode .block (str "block")).withBody (chain body)

/-- The statement that starts with a token; `block` parses the body of check and repeat. -/
def statementFrom (block : ParseM Node) (t : Token) : ParseM Node :=
  match t.type with
  | .say => do
    let _ ← advance toks
    return (newNode .say (str "say")).withLeft (← parseOperand toks)
  | .letKeyword => do
    let _ ← advance toks
    let name ← takeNode toks .letBinding
    let _ ← advance toks
    return name.withLeft (← takeNode toks .number)
  | .check => do
    let _ ← advance toks
    let condition ← parseExpr toks
    let body ← block
    return ((newNode .check (str "check")).withLeft condition).withBody body
  | .repeatKeyword => do
    let _ ← advance toks
    let count ← takeNode toks .repeatLoop
    return count.withBody (← block)
  | .qmsg => do
    let _ ← advance toks
    return (newNode .qmsg (str "qmsg")).withLeft (← parseOperand toks)
  | .encode => do
    let _ ← advance toks
    takeNode toks .encodeQmsg
  | .decode => do
    let _ ← advance toks
    takeNode toks .decodeQmsg
  | .qbit => do
    let _ ← advance toks
    let name ← takeNode toks .qbit
    let _ ← advance toks
    return name.withLeft (← takeNode toks .state)
  | .hadamard => do
    let _ ← advance toks
    takeNode toks .hadamard
  | .measure => do
    let _ ← advance toks
    takeNode toks .measure
  | .entangle => do
    let _ ← advance toks
    let name ← takeNode toks .entangle
    return name.withLeft (← takeNode toks .ident)
  | .cnot => do
    let _ ← advance toks
    let name ← takeNode toks .cnot
    return name.withLeft (← takeNode toks .ident)
  | .action => do
    let _ ← advance toks
    takeNode toks .action
  | _ => do
    let _ ← advance toks
    return newNode .ident t.value

def parseStmt : ℕ → ParseM Node
  | 0 => fun _ => .error .outOfFuel
  | fuel + 1 => do
    let t ← peek toks
    statementFrom toks (parseBlock toks (parseStmt fuel) fuel) t

/-- The statements of the program; directives between them are dropped. -/
def programLoop (statement : ParseM Node) : ℕ → ParseM (List Node)
  | 0 => fun _ => .error .outOfFuel
  | fuel + 1 => do
    if ← checkType toks .eof then return []
    else if ← checkType toks .directive then do
      let _ ← advance toks
      programLoop statement fuel
    else
      let s ← statement
      let rest ← programLoop statement fuel
      return s :: rest

/-- The whole parser, with the position it starts at and enough fuel. -/
def parse : Except Fault Node := do
  let (statements, _) ← programLoop toks (parseStmt toks toks.length) (toks.length + 1) 0
  return (newNode .program (str "program")).withBody (chain statements)

end

end QbitNova.Language
