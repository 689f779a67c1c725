import QbitNova.Language.Lexer
import QbitNova.Library.Words

/-! # Lexemes and the texts that spell them

A lexeme carries the proof that it can be spelled: its bytes, its length and the
absence of the bytes that would end it. A text made of lexemes with whitespace between
them is read back lexeme by lexeme, and no pass of the loop leaves its buffer.
-/
namespace QbitNova.Language
open CText

def wordText : Bytes → Bool
  | [] => false
  | c :: rest => (isalpha c || c == 95) && rest.all isWordByte && rest.length < 255

/-- An identifier or a keyword. -/
structure Word where
  text : Bytes
  valid : wordText text = true
  deriving DecidableEq

def numeralText : Bytes → Bool
  | [] => false
  | c :: rest => isdigit c && rest.all isdigit && rest.length < 63

structure Numeral where
  text : Bytes
  valid : numeralText text = true
  deriving DecidableEq

/-- The inside of a string literal. -/
structure Literal where
  text : Bytes
  valid : (text.all (fun c => c != 34 && c != 0) && text.length ≤ 255) = true
  deriving DecidableEq

/-- What follows the at sign of a directive. -/
structure Directive where
  text : Bytes
  valid : text.all (fun c => !isspace c && c != 0) = true
  deriving DecidableEq

inductive QuantumState where
  | zero | one | plus | minus
  deriving DecidableEq, Repr

inductive Comparison where
  | gt | lt | gte | lte | eqeq
  deriving DecidableEq, Repr

inductive Symbol where
  | state (s : QuantumState)
  | compare (c : Comparison)
  | eq
  | lbrace
  | rbrace
  deriving DecidableEq, Repr

def QuantumState.spelling : QuantumState → TokenType × Bytes
  | .zero => (.state0, str "|0>")
  | .one => (.state1, str "|1>")
  | .plus => (.statePlus, str "|+>")
  | .minus => (.stateMinus, str "|->")

def Comparison.spelling : Comparison → TokenType × Bytes
  | .gt => (.gt, str ">")
  | .lt => (.lt, str "<")
  | .gte => (.gte, str ">=")
  | .lte => (.lte, str "<=")
  | .eqeq => (.eqeq, str "==")

def Symbol.spelling : Symbol → TokenType × Bytes
  | .state s => s.spelling
  | .compare c => c.spelling
  | .eq => (.eq, str "=")
  | .lbrace => (.lbrace, str "\x7b")
  | .rbrace => (.rbrace, str "\x7d")

inductive Lexeme where
  | word (w : Word)
  | number (n : Numeral)
  | string (l : Literal)
  | directive (d : Directive)
  | symbol (s : Symbol)
  deriving DecidableEq

def Lexeme.text : Lexeme → Bytes
  | .word w => w.text
  | .number n => n.text
  | .string l => 34 :: (l.text ++ [34])
  | .directive d => 64 :: d.text
  | .symbol s => s.spelling.2

/-- The type and the value of the token a lexeme is read as. -/
def Lexeme.content : Lexeme → TokenType × Bytes
  | .word w => (wordType w.text, w.text)
  | .number n => (.number, n.text)
  | .string l => (.string, l.text)
  | .directive d => (.directive, d.text.take 255)
  | .symbol s => s.spelling

def Token.content (t : Token) : TokenType × Bytes := (t.type, t.value)

/-- Whitespace before, between and after the lexemes of a text. -/
structure Layout where
  before : Bytes
  between : ℕ → Bytes
  after : Bytes
  before_blank : ∀ c ∈ before, isspace c = true
  between_blank : ∀ i, ∀ c ∈ between i, isspace c = true
  between_ne : ∀ i, between i ≠ []
  after_blank : ∀ c ∈ after, isspace c = true

def Layout.rest (layout : Layout) : ℕ → List Lexeme → Bytes
  | _, [] => layout.after
  | i, l :: lexemes => layout.between i ++ (l.text ++ layout.rest (i + 1) lexemes)

/-- The lexemes as a source text. -/
def Layout.print (layout : Layout) : List Lexeme → Bytes
  | [] => layout.before ++ layout.after
  | l :: lexemes => layout.before ++ (l.text ++ layout.rest 0 lexemes)

/-- What may follow a lexeme: nothing, or whitespace. -/
def Apart (rest : Bytes) : Prop := ∀ c ∈ rest.head?, isspace c = true

theorem apart_append {blank rest : Bytes} (hblank : ∀ c ∈ blank, isspace c = true) (h : blank ≠ [] ∨ Apart rest) :
    Apart (blank ++ rest) := by
  cases blank with
  | nil => exact h.resolve_left (by simp)
  | cons c blank =>
    intro d hd
    cases hd
    exact hblank c List.mem_cons_self

theorem Layout.apart_rest (layout : Layout) (i : ℕ) (lexemes : List Lexeme) : Apart (layout.rest i lexemes) := by
  cases lexemes with
  | nil =>
    intro c hc
    exact layout.after_blank c (List.mem_of_mem_head? hc)
  | cons l lexemes => exact apart_append (layout.between_blank i) (Or.inl (layout.between_ne i))

/-- Whitespace is none of the bytes a lexeme may start or go on with. -/
theorem isWordByte_of_isspace {c : UInt8} (h : isspace c = true) : isWordByte c = false := by
  have hd := isdigit_of_isspace h
  have ha := isalpha_of_isspace h
  have hne : c ≠ 95 := ne_of_isspace h (by decide)
  simp [isWordByte,isalnum,ha,hd,hne]

theorem span_apart {p : UInt8 → Bool} {run rest : Bytes} (hrun : ∀ c ∈ run, p c = true) (hrest : Apart rest)
    (hp : ∀ c, isspace c = true → p c = false) :
    (run ++ rest).takeWhile p = run ∧ (run ++ rest).dropWhile p = rest := by
  obtain ⟨htake,hdrop⟩ := takeWhile_append_ends hp run hrest
  rw [htake,hdrop,List.takeWhile_eq_self_iff.mpr hrun,List.dropWhile_eq_nil_iff.mpr hrun]
  exact ⟨rfl,rfl⟩

theorem scanPass_blank {c : UInt8} (h : isspace c = true) (rest : Bytes) (line : ℕ) :
    ∃ next, scanPass c rest line = ⟨none, rest, next⟩ := by
  unfold scanPass
  by_cases hc : c = 10
  · exact ⟨line + 1,by rw [if_pos hc]⟩
  · exact ⟨line,by rw [if_neg hc,if_pos h]⟩

/-- The bytes that start something other than a number or a word. -/
def marks : List UInt8 := [10, 64, 34, 124, 61, 62, 60, 123, 125]

/-- A pass at any other byte takes a number or a word. -/
theorem scanPass_other {c : UInt8} (hspace : isspace c = false) (hmark : c ∉ marks) (rest : Bytes) (line : ℕ) :
    scanPass c rest line =
      if isdigit c then ⟨some (addToken .number (c :: rest.takeWhile isdigit) line), rest.dropWhile isdigit, line⟩
      else if isalpha c || c == 95 then
        ⟨some (addToken (wordType (c :: rest.takeWhile isWordByte)) (c :: rest.takeWhile isWordByte) line),
          rest.dropWhile isWordByte, line⟩
      else ⟨none, rest, line⟩ := by
  simp only [marks,List.mem_cons,List.not_mem_nil,or_false,not_or] at hmark
  obtain ⟨h10,h64,h34,h124,h61,h62,h60,h123,h125⟩ := hmark
  unfold scanPass operator?
  simp only [h10,hspace,h64,h34,h124,h61,h62,h60,h123,h125,false_and,Bool.false_eq_true,↓reduceIte]

theorem digit_plain {c : UInt8} (h : isdigit c = true) : isspace c = false ∧ c ∉ marks := by
  have hd := isdigit_bounds h
  refine ⟨?_,?_⟩
  · by_contra hs
    have hs := isspace_bounds (by simpa using hs)
    omega
  · intro hm
    have hall : marks.all (fun m => m.toNat < 48 || 57 < m.toNat) = true := by decide
    have hout := List.all_eq_true.mp hall c hm
    simp only [Bool.or_eq_true,decide_eq_true_eq] at hout
    omega

theorem letter_plain {c : UInt8} (h : (isalpha c || c == 95) = true) :
    isspace c = false ∧ c ∉ marks ∧ isdigit c = false := by
  have hword : (65 ≤ c.toNat ∧ c.toNat ≤ 90) ∨ (97 ≤ c.toNat ∧ c.toNat ≤ 122) ∨ c.toNat = 95 := by
    simp only [isalpha,Bool.or_eq_true,Bool.and_eq_true,decide_eq_true_eq,UInt8.le_iff_toNat_le,beq_iff_eq,
      ← UInt8.toNat_inj] at h
    rcases h with (h | h) | h
    · exact Or.inl h
    · exact Or.inr (Or.inl h)
    · exact Or.inr (Or.inr h)
  refine ⟨?_,?_,?_⟩
  · by_contra hs
    have hs := isspace_bounds (by simpa using hs)
    omega
  · intro hm
    have hall : marks.all (fun m => m.toNat < 65 || 122 < m.toNat) = true := by decide
    have hout := List.all_eq_true.mp hall c hm
    simp only [Bool.or_eq_true,decide_eq_true_eq] at hout
    omega
  · by_contra hd
    have hd := isdigit_bounds (by simpa using hd)
    omega

/-- A mark or whitespace starts neither a number nor a word. -/
theorem mark_plain {c : UInt8} (h : c ∈ marks ∨ isspace c = true) :
    isdigit c = false ∧ (isalpha c || c == 95) = false := by
  constructor
  · by_contra hdigit
    obtain ⟨hspace,hmark⟩ := digit_plain (by simpa using hdigit)
    simp [hspace,hmark] at h
  · by_contra hletter
    obtain ⟨hspace,hmark,-⟩ := letter_plain (Bool.not_eq_false _ ▸ hletter)
    simp [hspace,hmark] at h

/-- The lexeme is read in one pass that ends right after it. -/
def ReadInOnePass (l : Lexeme) (rest : Bytes) : Prop :=
  ∃ c tail, l.text = c :: tail ∧
    ∀ line, scanPass c (tail ++ rest) line = ⟨some ⟨l.content.1, l.content.2, line⟩, rest, line⟩

/-- A word is a first byte and the run of word bytes after it. -/
theorem Word.spans (w : Word) {c : UInt8} {tail rest : Bytes} (htext : w.text = c :: tail) (h : Apart rest) :
    (isalpha c || c == 95) = true ∧ tail.length < 255 ∧ (tail ++ rest).takeWhile isWordByte = tail ∧
      (tail ++ rest).dropWhile isWordByte = rest := by
  have hvalid := w.valid
  rw [htext] at hvalid
  simp only [wordText,Bool.and_eq_true,List.all_eq_true,decide_eq_true_eq] at hvalid
  obtain ⟨⟨hfirst,htail⟩,hshort⟩ := hvalid
  exact ⟨hfirst,hshort,span_apart htail h (fun d hd => isWordByte_of_isspace hd)⟩

theorem Numeral.spans (n : Numeral) {c : UInt8} {tail rest : Bytes} (htext : n.text = c :: tail) (h : Apart rest) :
    isdigit c = true ∧ tail.length < 63 ∧ (tail ++ rest).takeWhile isdigit = tail ∧
      (tail ++ rest).dropWhile isdigit = rest := by
  have hvalid := n.valid
  rw [htext] at hvalid
  simp only [numeralText,Bool.and_eq_true,List.all_eq_true,decide_eq_true_eq] at hvalid
  obtain ⟨⟨hfirst,htail⟩,hshort⟩ := hvalid
  exact ⟨hfirst,hshort,span_apart htail h (fun d hd => isdigit_of_isspace hd)⟩

theorem Literal.short (l : Literal) : l.text.length ≤ 255 := by
  have h := l.valid
  simp only [Bool.and_eq_true,decide_eq_true_eq] at h
  exact h.2

theorem Literal.spans (l : Literal) (rest : Bytes) :
    (l.text ++ [34] ++ rest).takeWhile (· != 34) = l.text ∧
      (l.text ++ [34] ++ rest).dropWhile (· != 34) = 34 :: rest := by
  have hvalid := l.valid
  simp only [Bool.and_eq_true,List.all_eq_true,bne_iff_ne] at hvalid
  have hrun : ∀ c ∈ l.text, (c != 34) = true := fun c hc => bne_iff_ne.mpr (hvalid.1 c hc).1
  rw [List.append_assoc,List.takeWhile_append_of_pos hrun,List.dropWhile_append_of_pos hrun]
  simp

theorem Directive.spans (d : Directive) {rest : Bytes} (h : Apart rest) :
    (d.text ++ rest).takeWhile (fun c => !isspace c) = d.text ∧
      (d.text ++ rest).dropWhile (fun c => !isspace c) = rest := by
  have hrun : ∀ c ∈ d.text, (!isspace c) = true := by
    intro c hc
    have hbyte := List.all_eq_true.mp d.valid c hc
    exact (Bool.and_eq_true_iff.mp hbyte).1
  exact span_apart hrun h (fun c hc => by simp [hc])

theorem read_word (w : Word) {rest : Bytes} (h : Apart rest) : ReadInOnePass (.word w) rest := by
  cases htext : w.text with
  | nil =>
    have hvalid := w.valid
    rw [htext] at hvalid
    cases hvalid
  | cons c tail =>
    obtain ⟨hfirst,hshort,htake,hdrop⟩ := w.spans htext h
    obtain ⟨hspace,hmark,hdigit⟩ := letter_plain hfirst
    have hfits : (c :: tail).take 255 = c :: tail := List.take_of_length_le (by simp only [List.length_cons]; omega)
    refine ⟨c,tail,htext,fun line => ?_⟩
    rw [scanPass_other hspace hmark,if_neg (by simp [hdigit]),if_pos hfirst,htake,hdrop]
    simp only [addToken,hfits,Lexeme.content,htext]

theorem read_number (n : Numeral) {rest : Bytes} (h : Apart rest) : ReadInOnePass (.number n) rest := by
  cases htext : n.text with
  | nil =>
    have hvalid := n.valid
    rw [htext] at hvalid
    cases hvalid
  | cons c tail =>
    obtain ⟨hfirst,hshort,htake,hdrop⟩ := n.spans htext h
    obtain ⟨hspace,hmark⟩ := digit_plain hfirst
    have hfits : (c :: tail).take 255 = c :: tail := List.take_of_length_le (by simp only [List.length_cons]; omega)
    refine ⟨c,tail,htext,fun line => ?_⟩
    rw [scanPass_other hspace hmark,if_pos hfirst,htake,hdrop]
    simp only [addToken,hfits,Lexeme.content,htext]

theorem read_string (l : Literal) (rest : Bytes) : ReadInOnePass (.string l) rest := by
  obtain ⟨htake,hdrop⟩ := l.spans rest
  refine ⟨34,l.text ++ [34],rfl,fun line => ?_⟩
  unfold scanPass
  rw [if_neg (by decide),if_neg (by decide),if_neg (by decide),if_pos rfl,htake,hdrop]
  simp only [addToken,List.take_of_length_le l.short,Lexeme.content,List.drop_succ_cons,List.drop_zero]

theorem read_directive (d : Directive) {rest : Bytes} (h : Apart rest) : ReadInOnePass (.directive d) rest := by
  obtain ⟨htake,hdrop⟩ := d.spans h
  refine ⟨64,d.text,rfl,fun line => ?_⟩
  unfold scanPass
  rw [if_neg (by decide),if_neg (by decide),if_pos rfl,htake,hdrop]
  rfl

/-- A symbol of one byte is not taken for a longer one when whitespace follows. -/
theorem head_ne_equals {rest : Bytes} (h : Apart rest) : rest.head? ≠ some 61 := by
  intro he
  have hs := h 61 he
  revert hs
  decide

/-- The operators that a following equals sign would extend. -/
theorem operator_single {next : Option UInt8} (h : next ≠ some 61) :
    operator? 62 next = some (.gt, str ">") ∧ operator? 60 next = some (.lt, str "<") ∧
      operator? 61 next = some (.eq, str "=") := by
  unfold operator?
  refine ⟨?_,?_,?_⟩
  · rw [if_neg (by simp),if_neg (by simp [h]),if_neg (by simp),if_neg (by decide),if_pos rfl]
  · rw [if_neg (by simp),if_neg (by simp),if_neg (by simp [h]),if_neg (by decide),if_neg (by decide),if_pos rfl]
  · rw [if_neg (by simp [h]),if_neg (by simp),if_neg (by simp),if_pos rfl]

theorem scanPass_operator {c : UInt8} (hc : c = 62 ∨ c = 60 ∨ c = 61) {rest : Bytes} {type : TokenType}
    (h : operator? c rest.head? = some (type, [c])) (line : ℕ) :
    scanPass c rest line = ⟨some ⟨type, [c], line⟩, rest, line⟩ := by
  unfold scanPass
  rcases hc with rfl | rfl | rfl <;>
  · rw [if_neg (by decide),if_neg (by decide),if_neg (by decide),if_neg (by decide),if_neg (by decide)]
    simp only [h]
    rfl

theorem read_symbol (s : Symbol) {rest : Bytes} (h : Apart rest) : ReadInOnePass (.symbol s) rest := by
  obtain ⟨hgt,hlt,heq⟩ := operator_single (head_ne_equals h)
  cases s with
  | state q => cases q <;> exact ⟨_,_,rfl,fun line => rfl⟩
  | compare c =>
    cases c with
    | gt => exact ⟨62,[],rfl,scanPass_operator (Or.inl rfl) hgt⟩
    | lt => exact ⟨60,[],rfl,scanPass_operator (Or.inr (Or.inl rfl)) hlt⟩
    | gte | lte | eqeq => exact ⟨_,_,rfl,fun line => rfl⟩
  | eq => exact ⟨61,[],rfl,scanPass_operator (Or.inr (Or.inr rfl)) heq⟩
  | lbrace => exact ⟨_,_,rfl,fun line => rfl⟩
  | rbrace => exact ⟨_,_,rfl,fun line => rfl⟩

theorem read_lexeme (l : Lexeme) {rest : Bytes} (h : Apart rest) : ReadInOnePass l rest := by
  cases l with
  | word w => exact read_word w h
  | number n => exact read_number n h
  | string l => exact read_string l rest
  | directive d => exact read_directive d h
  | symbol s => exact read_symbol s h

/-- The loop unrolled once, with one pass for each byte that is left. -/
theorem scan_cons (c : UInt8) (rest : Bytes) (line : ℕ) :
    scan (c :: rest).length (c :: rest) line = (scanPass c rest line).token?.toList ++
      scan (scanPass c rest line).rest.length (scanPass c rest line).rest (scanPass c rest line).line := by
  simp only [List.length_cons,scan]
  rw [scan_fuel _ (scanPass_rest_le c rest line) (Nat.le_refl _)]

theorem scan_blank {blank : Bytes} (h : ∀ c ∈ blank, isspace c = true) (rest : Bytes) (line : ℕ) :
    ∃ next, scan (blank ++ rest).length (blank ++ rest) line = scan rest.length rest next := by
  induction blank generalizing line with
  | nil => exact ⟨line,rfl⟩
  | cons c blank ih =>
    obtain ⟨next,hpass⟩ := scanPass_blank (h c List.mem_cons_self) (blank ++ rest) line
    obtain ⟨last,hrest⟩ := ih (fun d hd => h d (List.mem_cons_of_mem c hd)) next
    refine ⟨last,?_⟩
    rw [List.cons_append,scan_cons,hpass]
    exact hrest

theorem scan_lexeme {l : Lexeme} {rest : Bytes} (h : ReadInOnePass l rest) (line : ℕ) :
    scan (l.text ++ rest).length (l.text ++ rest) line =
      ⟨l.content.1, l.content.2, line⟩ :: scan rest.length rest line := by
  obtain ⟨c,tail,htext,hpass⟩ := h
  rw [htext,List.cons_append,scan_cons,hpass]
  rfl

/-- The types and values of the tokens, with the final EOF. -/
def contents (lexemes : List Lexeme) : List (TokenType × Bytes) :=
  lexemes.map Lexeme.content ++ [(.eof, str "EOF")]

/-- One lexeme is read, then whitespace up to the next one. -/
theorem scan_rest (layout : Layout) (lexemes : List Lexeme) (i line : ℕ) :
    (scan (layout.rest i lexemes).length (layout.rest i lexemes) line).map Token.content = contents lexemes := by
  induction lexemes generalizing i line with
  | nil =>
    obtain ⟨last,hscan⟩ := scan_blank layout.after_blank [] line
    rw [List.append_nil] at hscan
    simp only [Layout.rest,hscan]
    rfl
  | cons l lexemes ih =>
    obtain ⟨next,hscan⟩ := scan_blank (layout.between_blank i) (l.text ++ layout.rest (i + 1) lexemes) line
    simp only [Layout.rest,hscan]
    rw [scan_lexeme (read_lexeme l (layout.apart_rest (i + 1) lexemes)),List.map_cons,ih]
    rfl

/-- A printed text is read back lexeme by lexeme. -/
theorem tokenize_print (layout : Layout) (lexemes : List Lexeme) :
    (tokenize (layout.print lexemes)).map Token.content = contents lexemes := by
  unfold tokenize
  cases lexemes with
  | nil =>
    obtain ⟨next,hscan⟩ := scan_blank layout.before_blank layout.after 1
    simp only [Layout.print,hscan]
    exact scan_rest layout [] 0 next
  | cons l lexemes =>
    obtain ⟨next,hscan⟩ := scan_blank layout.before_blank (l.text ++ layout.rest 0 lexemes) 1
    simp only [Layout.print,hscan]
    rw [scan_lexeme (read_lexeme l (layout.apart_rest 0 lexemes)),List.map_cons,scan_rest]
    rfl

def maxTokens : ℕ := 1024

/-- The pass copies its lexeme and a NUL into a buffer of its own; it has room for them. -/
def bufferFits (c : UInt8) (rest : Bytes) : Bool :=
  if c = 64 then (rest.takeWhile (fun d => !isspace d)).length < 256
  else if c = 34 then (rest.takeWhile (· != 34)).length < 256
  else if isdigit c then (c :: rest.takeWhile isdigit).length < 64
  else if isalpha c || c == 95 then (c :: rest.takeWhile isWordByte).length < 256
  else true

def buffersFit : ℕ → Bytes → Bool
  | fuel + 1, c :: rest => bufferFits c rest && buffersFit fuel (scanPass c rest 1).rest
  | _, _ => true

/-- The tokens, if every lexeme fits its buffer and they fit the token array. -/
def tokenizeStored (src : Bytes) : Option (List Token) :=
  if buffersFit src.length src && (tokenize src).length ≤ maxTokens then some (tokenize src) else none

/-- Only a directive may be longer than the buffer it is copied into. -/
def Lexeme.stored : Lexeme → Prop
  | .directive d => d.text.length ≤ 255
  | _ => True

/-- No symbol starts like a directive, a literal, a number or a word. -/
theorem Symbol.start (s : Symbol) {c : UInt8} {tail : Bytes} (h : s.spelling.2 = c :: tail) :
    c ≠ 64 ∧ c ≠ 34 ∧ isdigit c = false ∧ (isalpha c || c == 95) = false := by
  cases s with
  | state q =>
    cases q <;>
    · cases h
      decide
  | compare k =>
    cases k <;>
    · cases h
      decide
  | eq | lbrace | rbrace =>
    cases h
    decide

theorem bufferFits_lexeme {l : Lexeme} (hl : l.stored) {rest : Bytes} (h : Apart rest) {c : UInt8} {tail : Bytes}
    (htext : l.text = c :: tail) : bufferFits c (tail ++ rest) = true := by
  unfold bufferFits
  cases l with
  | word w =>
    obtain ⟨hfirst,hshort,htake,-⟩ := w.spans htext h
    obtain ⟨-,hmark,hdigit⟩ := letter_plain hfirst
    have hne : ∀ m ∈ marks, c ≠ m := fun m hm hc => hmark (hc ▸ hm)
    rw [if_neg (hne 64 (by decide)),if_neg (hne 34 (by decide)),if_neg (by simp [hdigit]),if_pos hfirst,htake]
    simp only [List.length_cons,decide_eq_true_eq]
    omega
  | number n =>
    obtain ⟨hfirst,hshort,htake,-⟩ := n.spans htext h
    obtain ⟨-,hmark⟩ := digit_plain hfirst
    have hne : ∀ m ∈ marks, c ≠ m := fun m hm hc => hmark (hc ▸ hm)
    rw [if_neg (hne 64 (by decide)),if_neg (hne 34 (by decide)),if_pos hfirst,htake]
    simp only [List.length_cons,decide_eq_true_eq]
    omega
  | string literal =>
    obtain ⟨rfl,rfl⟩ := List.cons.inj htext
    have hshort := literal.short
    rw [if_neg (by decide),if_pos rfl,(literal.spans rest).1]
    simp only [decide_eq_true_eq]
    omega
  | directive d =>
    obtain ⟨rfl,rfl⟩ := List.cons.inj htext
    have hshort : d.text.length ≤ 255 := hl
    rw [if_pos rfl,(d.spans h).1]
    simp only [decide_eq_true_eq]
    omega
  | symbol s =>
    obtain ⟨h64,h34,hdigit,hletter⟩ := s.start htext
    rw [if_neg h64,if_neg h34,if_neg (by simp [hdigit]),if_neg (by simp [hletter])]

theorem buffersFit_blank {blank rest : Bytes} (h : ∀ c ∈ blank, isspace c = true)
    (hrest : ∀ fuel, buffersFit fuel rest = true) (fuel : ℕ) : buffersFit fuel (blank ++ rest) = true := by
  induction blank generalizing fuel with
  | nil => exact hrest fuel
  | cons c blank ih =>
    cases fuel with
    | zero => rfl
    | succ fuel =>
      have hc := h c List.mem_cons_self
      obtain ⟨next,hpass⟩ := scanPass_blank hc (blank ++ rest) 1
      have hfits : bufferFits c (blank ++ rest) = true := by
        have h64 : c ≠ 64 := ne_of_isspace hc (by decide)
        have h34 : c ≠ 34 := ne_of_isspace hc (by decide)
        obtain ⟨hdigit,hletter⟩ := mark_plain (Or.inr hc)
        unfold bufferFits
        rw [if_neg h64,if_neg h34,if_neg (by simp [hdigit]),if_neg (by simp [hletter])]
      simp only [List.cons_append,buffersFit,hfits,hpass,Bool.true_and]
      exact ih (fun d hd => h d (List.mem_cons_of_mem c hd)) fuel

theorem buffersFit_lexeme {l : Lexeme} (hl : l.stored) {rest : Bytes} (h : Apart rest)
    (hrest : ∀ fuel, buffersFit fuel rest = true) (fuel : ℕ) : buffersFit fuel (l.text ++ rest) = true := by
  obtain ⟨c,tail,htext,hpass⟩ := read_lexeme l h
  cases fuel with
  | zero => rfl
  | succ fuel =>
    simp only [htext,List.cons_append,buffersFit,bufferFits_lexeme hl h htext,hpass,Bool.true_and]
    exact hrest fuel

theorem buffersFit_rest (layout : Layout) {lexemes : List Lexeme} (h : ∀ l ∈ lexemes, l.stored) (i fuel : ℕ) :
    buffersFit fuel (layout.rest i lexemes) = true := by
  induction lexemes generalizing i fuel with
  | nil =>
    have hnil : ∀ fuel, buffersFit fuel [] = true := by
      intro fuel
      cases fuel <;> rfl
    have hfits := buffersFit_blank layout.after_blank hnil fuel
    rwa [List.append_nil] at hfits
  | cons l lexemes ih =>
    refine buffersFit_blank (layout.between_blank i) ?_ fuel
    exact buffersFit_lexeme (h l List.mem_cons_self) (layout.apart_rest (i + 1) lexemes)
      (ih (fun m hm => h m (List.mem_cons_of_mem l hm)) (i + 1))

/-- A printed text whose lexemes fit is tokenized inside the fixed storage. -/
theorem tokenizeStored_print (layout : Layout) {lexemes : List Lexeme} (hcount : lexemes.length + 1 ≤ maxTokens)
    (h : ∀ l ∈ lexemes, l.stored) :
    tokenizeStored (layout.print lexemes) = some (tokenize (layout.print lexemes)) := by
  have hlength : (tokenize (layout.print lexemes)).length = lexemes.length + 1 := by
    have hmap := congrArg List.length (tokenize_print layout lexemes)
    simpa [contents] using hmap
  have hfits : ∀ fuel, buffersFit fuel (layout.print lexemes) = true := by
    cases lexemes with
    | nil => exact buffersFit_blank layout.before_blank (buffersFit_rest layout h 0)
    | cons l lexemes =>
      refine buffersFit_blank layout.before_blank ?_
      exact buffersFit_lexeme (h l List.mem_cons_self) (layout.apart_rest 0 lexemes)
        (buffersFit_rest layout (fun m hm => h m (List.mem_cons_of_mem l hm)) 0)
  unfold tokenizeStored
  rw [if_pos]
  simp only [hfits,hlength,hcount,decide_true,Bool.and_self]

theorem wordText_x : wordText (str "x") = true := by decide
theorem numeralText_five : numeralText (str "5") = true := by decide

end QbitNova.Language
