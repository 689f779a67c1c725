import QbitNova.Library.CText
import Mathlib.Data.List.TakeWhile

/-! # The lexer

One pass through the scanning loop reads the bytes from the current position on and
yields at most one token. The byte after the last one is the terminating NUL, which
no test of the loop accepts. Every pass consumes at least one byte, so as many
passes as there are bytes are enough.
-/
namespace QbitNova.Language
open CText

inductive TokenType where
  | say | letKeyword | check | otherwise | repeatKeyword | action | qbit | hadamard | measure | entangle | cnot
  | qmsg | encode | decode
  | state0 | state1 | statePlus | stateMinus
  | eq | gt | lt | gte | lte | eqeq
  | ident | number | string
  | lbrace | rbrace | directive | eof | unknown
  deriving DecidableEq, Repr

structure Token where
  type : TokenType
  value : Bytes
  line : ℕ
  deriving DecidableEq, Repr

/-- A stored token keeps the first 255 bytes of its text. -/
def addToken (type : TokenType) (value : Bytes) (line : ℕ) : Token := ⟨type, value.take 255, line⟩

def keywords : List (Bytes × TokenType) :=
  [(str "say", .say), (str "let", .letKeyword), (str "check", .check), (str "otherwise", .otherwise),
    (str "repeat", .repeatKeyword), (str "action", .action), (str "qbit", .qbit), (str "hadamard", .hadamard),
    (str "measure", .measure), (str "entangle", .entangle), (str "cnot", .cnot), (str "qmsg", .qmsg),
    (str "encode", .encode), (str "decode", .decode)]

def wordType (word : Bytes) : TokenType := (keywords.lookup word).getD .ident

/-- The quantum state literals are recognised by their second byte alone. -/
def stateToken? (next : Option UInt8) : Option (TokenType × Bytes) :=
  if next = some 48 then some (.state0, str "|0>")
  else if next = some 49 then some (.state1, str "|1>")
  else if next = some 43 then some (.statePlus, str "|+>")
  else if next = some 45 then some (.stateMinus, str "|->")
  else none

/-- Operators and braces with the number of bytes they take. -/
def operator? (c : UInt8) (next : Option UInt8) : Option (TokenType × Bytes) :=
  if c = 61 ∧ next = some 61 then some (.eqeq, str "==")
  else if c = 62 ∧ next = some 61 then some (.gte, str ">=")
  else if c = 60 ∧ next = some 61 then some (.lte, str "<=")
  else if c = 61 then some (.eq, str "=")
  else if c = 62 then some (.gt, str ">")
  else if c = 60 then some (.lt, str "<")
  else if c = 123 then some (.lbrace, str "\x7b")
  else if c = 125 then some (.rbrace, str "\x7d")
  else none

def isWordByte (c : UInt8) : Bool := isalnum c || c == 95

/-- What one pass of the loop leaves behind. -/
structure Pass where
  token? : Option Token
  rest : Bytes
  line : ℕ
  deriving DecidableEq, Repr

/-- One pass of the loop on a non-empty rest of the text. -/
def scanPass (c : UInt8) (rest : Bytes) (line : ℕ) : Pass :=
  if c = 10 then ⟨none, rest, line + 1⟩
  else if isspace c then ⟨none, rest, line⟩
  else if c = 64 then
    ⟨some (addToken .directive (rest.takeWhile (fun d => !isspace d)) line),
      rest.dropWhile (fun d => !isspace d), line⟩
  else if c = 34 then
    ⟨some (addToken .string (rest.takeWhile (· != 34)) line), (rest.dropWhile (· != 34)).drop 1, line⟩
  else match (if c = 124 then stateToken? rest.head? else none) with
  | some (type, value) => ⟨some (addToken type value line), rest.drop 2, line⟩
  | none => match operator? c rest.head? with
    | some (type, value) => ⟨some (addToken type value line), rest.drop (value.length - 1), line⟩
    | none =>
      if isdigit c then
        ⟨some (addToken .number (c :: rest.takeWhile isdigit) line), rest.dropWhile isdigit, line⟩
      else if isalpha c || c == 95 then
        let word := c :: rest.takeWhile isWordByte
        ⟨some (addToken (wordType word) word line), rest.dropWhile isWordByte, line⟩
      else ⟨none, rest, line⟩

/-- The scanning loop, then the final EOF token. -/
def scan : ℕ → Bytes → ℕ → List Token
  | fuel + 1, c :: rest, line =>
    let pass := scanPass c rest line
    pass.token?.toList ++ scan fuel pass.rest pass.line
  | _, _, line => [addToken .eof (str "EOF") line]

def tokenize (src : Bytes) : List Token := scan src.length src 1

theorem state_ne_eof {c : UInt8} {next : Option UInt8} {lexeme : TokenType × Bytes}
    (h : (if c = 124 then stateToken? next else none) = some lexeme) : lexeme.1 ≠ .eof := by
  unfold stateToken? at h
  split_ifs at h <;> cases h <;> decide

theorem operator_ne_eof {c : UInt8} {next : Option UInt8} {lexeme : TokenType × Bytes}
    (h : operator? c next = some lexeme) : lexeme.1 ≠ .eof := by
  have hsome : ∀ found : TokenType × Bytes, found.1 ≠ .eof → some found = some lexeme → lexeme.1 ≠ .eof := by
    rintro found hne ⟨⟩
    exact hne
  revert h
  unfold operator?
  repeat
    refine iteInduction (motive := fun o => o = some lexeme → lexeme.1 ≠ .eof)
      (fun _ => hsome _ (by decide)) fun _ => ?_
  exact nofun

/-- A word gets no type but identifier and those of the keywords. -/
theorem wordType_ne {type : TokenType} (hident : type ≠ .ident) (hkeyword : ∀ entry ∈ keywords, entry.2 ≠ type)
    (word : Bytes) : wordType word ≠ type := by
  unfold wordType
  cases h : keywords.lookup word with
  | none => exact hident.symm
  | some found =>
    obtain ⟨before,after,he,-⟩ := List.lookup_eq_some_iff.mp h
    exact hkeyword (word,found) (by rw [he]; simp)

theorem wordType_ne_eof (word : Bytes) : wordType word ≠ .eof := wordType_ne (by decide) (by decide) word

theorem scanPass_induction {P : Pass → Prop} (c : UInt8) (rest : Bytes) (line : ℕ)
    (hskip : ∀ next, P ⟨none, rest, next⟩)
    (htake : ∀ type value k, type ≠ .eof → P ⟨some (addToken type value line), rest.drop k, line⟩)
    (hword : ∀ type value p, type ≠ .eof → P ⟨some (addToken type value line), rest.dropWhile p, line⟩)
    (hquote : ∀ value p, P ⟨some (addToken .string value line), (rest.dropWhile p).drop 1, line⟩) :
    P (scanPass c rest line) := by
  unfold scanPass
  refine iteInduction (fun _ => hskip _) fun _ => ?_
  refine iteInduction (fun _ => hskip _) fun _ => ?_
  refine iteInduction (fun _ => hword _ _ _ (by decide)) fun _ => ?_
  refine iteInduction (fun _ => hquote _ _) fun _ => ?_
  cases hstate : (if c = 124 then stateToken? rest.head? else none) with
  | some lexeme => exact htake _ _ _ (state_ne_eof hstate)
  | none =>
    cases hop : operator? c rest.head? with
    | some lexeme => exact htake _ _ _ (operator_ne_eof hop)
    | none =>
      refine iteInduction (fun _ => hword _ _ _ (by decide)) fun _ => ?_
      exact iteInduction (fun _ => hword _ _ _ (wordType_ne_eof _)) fun _ => hskip _

theorem scanPass_ne_eof (c : UInt8) (rest : Bytes) (line : ℕ) :
    ∀ t ∈ (scanPass c rest line).token?, t.type ≠ .eof := by
  refine scanPass_induction (P := fun pass => ∀ t ∈ pass.token?, t.type ≠ .eof) c rest line ?_ ?_ ?_ ?_
  · rintro next t ⟨⟩
  · rintro type value k hne t ⟨⟩
    exact hne
  · rintro type value p hne t ⟨⟩
    exact hne
  · rintro value p t ⟨⟩
    exact nofun

theorem scanPass_rest_le (c : UInt8) (rest : Bytes) (line : ℕ) :
    (scanPass c rest line).rest.length ≤ rest.length := by
  refine scanPass_induction (P := fun pass => pass.rest.length ≤ rest.length) c rest line
    (fun _ => Nat.le_refl _) ?_ ?_ ?_
  · intro type value k _
    rw [List.length_drop]
    exact Nat.sub_le _ _
  · intro type value p _
    exact (List.dropWhile_suffix p).length_le
  · intro value p
    rw [List.length_drop]
    exact (Nat.sub_le _ _).trans (List.dropWhile_suffix p).length_le

theorem scanPass_suffix (c : UInt8) (rest : Bytes) (line : ℕ) : (scanPass c rest line).rest <:+ rest := by
  refine scanPass_induction (P := fun pass => pass.rest <:+ rest) c rest line (fun _ => List.suffix_refl rest) ?_ ?_ ?_
  · intro type value k _
    exact List.drop_suffix k rest
  · intro type value p _
    exact List.dropWhile_suffix p
  · intro value p
    exact (List.drop_suffix 1 _).trans (List.dropWhile_suffix p)

theorem scan_fuel {fuel fuel' : ℕ} {src : Bytes} (line : ℕ) (h : src.length ≤ fuel) (h' : src.length ≤ fuel') :
    scan fuel src line = scan fuel' src line := by
  induction fuel generalizing fuel' src line with
  | zero =>
    obtain rfl : src = [] := List.length_eq_zero_iff.mp (Nat.le_zero.mp h)
    cases fuel' <;> rfl
  | succ fuel ih =>
    cases src with
    | nil => cases fuel' <;> rfl
    | cons c rest =>
      cases fuel' with
      | zero => cases h'
      | succ fuel' =>
        have hle := scanPass_rest_le c rest line
        simp only [List.length_cons] at h h'
        simp only [scan]
        rw [ih _ (show (scanPass c rest line).rest.length ≤ fuel by omega)
          (show (scanPass c rest line).rest.length ≤ fuel' by omega)]

/-- The tokens are those of the text, none of them EOF, and one final EOF. -/
theorem scan_eof (fuel : ℕ) (src : Bytes) (line : ℕ) :
    ∃ body last, scan fuel src line = body ++ [addToken .eof (str "EOF") last] ∧ ∀ t ∈ body, t.type ≠ .eof := by
  induction fuel generalizing src line with
  | zero => exact ⟨[],line,rfl,nofun⟩
  | succ fuel ih =>
    cases src with
    | nil => exact ⟨[],line,rfl,nofun⟩
    | cons c rest =>
      obtain ⟨body,last,he,hb⟩ := ih (scanPass c rest line).rest (scanPass c rest line).line
      refine ⟨(scanPass c rest line).token?.toList ++ body,last,?_,?_⟩
      · simp only [scan,he,List.append_assoc]
      · intro t ht
        rcases List.mem_append.mp ht with ht | ht
        · exact scanPass_ne_eof c rest line t (Option.mem_toList.mp ht)
        · exact hb t ht

theorem tokenize_eof (src : Bytes) :
    ∃ body last, tokenize src = body ++ [addToken .eof (str "EOF") last] ∧ ∀ t ∈ body, t.type ≠ .eof :=
  scan_eof src.length src 1

end QbitNova.Language
