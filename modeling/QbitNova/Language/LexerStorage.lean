import QbitNova.Language.Lexical
import QbitNova.Library.Storage

/-! # The storage of the lexer

The scanning loop once more, with the arrays it writes to: a local buffer for each lexeme that
is copied, and the token array. Every write is checked, so a run that leaves its storage ends
with a fault. Whether it does is read off the text: off the sizes and the number of its pieces.
-/
namespace QbitNova.Language
open CText Storage

inductive StorageFault where
  | buffer | tokenArray
  deriving DecidableEq, Repr

abbrev TokenArray := Table Token maxTokens

structure Progress where
  rest : Bytes
  line : ℕ
  tokens : TokenArray

/-- `add_token`, and the loop goes on behind the lexeme. -/
def storeToken (type : TokenType) (value rest : Bytes) (line : ℕ) (tokens : TokenArray) : Except StorageFault Progress := do
  let tokens ← tokens.append .tokenArray (fun _ => .ok (addToken type value line))
  return ⟨rest, line, tokens⟩

/-- One pass of the loop with its writes; `fresh` is what the local buffers hold at first. -/
def storePass (fresh : ∀ n, Vector UInt8 n) (c : UInt8) (rest : Bytes) (line : ℕ) (tokens : TokenArray) :
    Except StorageFault Progress :=
  if c = 10 then .ok ⟨rest, line + 1, tokens⟩
  else if isspace c then .ok ⟨rest, line, tokens⟩
  else if c = 64 then do
    let copied ← copyString .buffer (fun d => !isspace d) rest (fresh 256)
    storeToken .directive (cString copied.1) copied.2 line tokens
  else if c = 34 then do
    let copied ← copyString .buffer (· != 34) rest (fresh 256)
    storeToken .string (cString copied.1) (copied.2.drop 1) line tokens
  else match (if c = 124 then stateToken? rest.head? else none) with
  | some (type, value) => storeToken type value (rest.drop 2) line tokens
  | none => match operator? c rest.head? with
    | some (type, value) => storeToken type value (rest.drop (value.length - 1)) line tokens
    | none =>
      if isdigit c then do
        let copied ← copyString .buffer isdigit (c :: rest) (fresh 64)
        storeToken .number (cString copied.1) copied.2 line tokens
      else if isalpha c || c == 95 then do
        let copied ← copyString .buffer isWordByte (c :: rest) (fresh 256)
        storeToken (wordType (cString copied.1)) (cString copied.1) copied.2 line tokens
      else .ok ⟨rest, line, tokens⟩

/-- The scanning loop and the final EOF token. The buffers of a pass may hold anything at first. -/
def storeScan (fresh : Bytes → ∀ n, Vector UInt8 n) : ℕ → Bytes → ℕ → TokenArray → Except StorageFault TokenArray
  | fuel + 1, c :: rest, line, tokens => do
    let next ← storePass (fresh (c :: rest)) c rest line tokens
    storeScan fresh fuel next.rest next.line next.tokens
  | _, _, line, tokens => tokens.append .tokenArray (fun _ => .ok (addToken .eof (str "EOF") line))

/-- `tokenize` on a text, with whatever an earlier call has left in the token array. -/
def storeTokens (fresh : Bytes → ∀ n, Vector UInt8 n) (slots : Vector Token maxTokens) (src : Bytes) :
    Except StorageFault TokenArray :=
  storeScan fresh src.length src 1 ⟨slots, 0⟩

/-- What a pass leaves behind, put into the token array. -/
def Pass.store (pass : Pass) (tokens : TokenArray) : Except StorageFault Progress :=
  match pass.token? with
  | none => .ok ⟨pass.rest, pass.line, tokens⟩
  | some token => do
    let tokens ← tokens.append .tokenArray (fun _ => .ok token)
    return ⟨pass.rest, pass.line, tokens⟩

theorem operator_none {c : UInt8} (h : ¬(c = 61 ∨ c = 62 ∨ c = 60 ∨ c = 123 ∨ c = 125)) (next : Option UInt8) :
    operator? c next = none := by
  simp only [not_or] at h
  obtain ⟨h61,h62,h60,h123,h125⟩ := h
  simp only [operator?,h61,h62,h60,h123,h125,false_and,↓reduceIte]

theorem operator_length {c : UInt8} {next : Option UInt8} {found : TokenType × Bytes} (h : operator? c next = some found) :
    ∃ k, found.2.length = k + 1 := by
  by_cases hc : c = 61 ∨ c = 62 ∨ c = 60 ∨ c = 123 ∨ c = 125
  · obtain ⟨other,k,hother,hk⟩ := operator_found hc next
    obtain rfl : other = found := Option.some.inj (hother.symm.trans h)
    exact ⟨k,hk⟩
  · rw [operator_none hc] at h
    cases h

theorem operator_unmarked {c : UInt8} (h : c ∉ marks) (next : Option UInt8) : operator? c next = none := by
  apply operator_none
  rintro (rfl | rfl | rfl | rfl | rfl) <;> exact h (by decide)

theorem copied_token {n : ℕ} {p : UInt8 → Bool} {text : Bytes} (hnul : 0 ∉ text) (buf : Vector UInt8 n)
    (next : Bytes × Bytes → Except StorageFault Progress) :
    (do
      let copied ← copyString .buffer p text buf
      next (cString copied.1, copied.2)) =
      if (text.takeWhile p).length < n then next (text.takeWhile p, text.dropWhile p) else .error .buffer := by
  split_ifs with h
  · have hrun : 0 ∉ text.takeWhile p := fun hz => hnul (List.takeWhile_subset p hz)
    obtain ⟨closed,hcopy,hclosed⟩ := copyString_inside StorageFault.buffer buf h hrun
    rw [hcopy]
    simp only [bind,Except.bind,hclosed]
  · rw [copyString_outside buf (Nat.le_of_not_lt h)]
    rfl

theorem storePass_mark (fresh : ∀ n, Vector UInt8 n) {c : UInt8} (h64 : c ≠ 64) (h34 : c ≠ 34)
    (h : c ∈ marks ∨ isspace c = true) (rest : Bytes) (line : ℕ) (tokens : TokenArray) :
    storePass fresh c rest line tokens = (scanPass c rest line).store tokens := by
  obtain ⟨hdigit,hletter⟩ := mark_plain h
  unfold storePass scanPass
  simp only [h64,h34,hdigit,hletter,Bool.false_eq_true,↓reduceIte]
  by_cases h10 : c = 10
  · rw [if_pos h10,if_pos h10]
    rfl
  by_cases hspace : isspace c = true
  · rw [if_neg h10,if_neg h10,if_pos hspace,if_pos hspace]
    rfl
  rw [if_neg h10,if_neg h10,if_neg hspace,if_neg hspace]
  cases if c = 124 then stateToken? rest.head? else none with
  | some found => rfl
  | none => cases operator? c rest.head? <;> rfl

theorem storePass_eq (fresh : ∀ n, Vector UInt8 n) {c : UInt8} {rest : Bytes} (hnul : 0 ∉ c :: rest) (line : ℕ)
    (tokens : TokenArray) :
    storePass fresh c rest line tokens =
      if bufferFits c rest then (scanPass c rest line).store tokens else .error .buffer := by
  have hrest : 0 ∉ rest := fun h => hnul (List.mem_cons_of_mem c h)
  by_cases h64 : c = 64
  · subst h64
    have hcopied := copied_token hrest (p := fun d => !isspace d) (fresh 256)
      (fun copied => storeToken .directive copied.1 copied.2 line tokens)
    have hfits : bufferFits 64 rest = decide ((rest.takeWhile (fun d => !isspace d)).length < 256) := rfl
    simp only [hfits,decide_eq_true_eq]
    exact hcopied
  by_cases h34 : c = 34
  · subst h34
    have hcopied := copied_token hrest (p := (· != 34)) (fresh 256)
      (fun copied => storeToken .string copied.1 (copied.2.drop 1) line tokens)
    have hfits : bufferFits 34 rest = decide ((rest.takeWhile (· != 34)).length < 256) := rfl
    simp only [hfits,decide_eq_true_eq]
    exact hcopied
  by_cases hmark : c ∈ marks ∨ isspace c = true
  · obtain ⟨hdigit,hletter⟩ := mark_plain hmark
    have hfits : bufferFits c rest = true := by
      simp only [bufferFits,h64,h34,hdigit,hletter,Bool.false_eq_true,↓reduceIte]
    rw [if_pos hfits]
    exact storePass_mark fresh h64 h34 hmark rest line tokens
  · rw [not_or] at hmark
    have hspace : isspace c = false := by simpa using hmark.2
    rw [scanPass_other hspace hmark.1]
    have h10 : c ≠ 10 := fun h => hmark.1 (h ▸ by decide)
    have h124 : c ≠ 124 := fun h => hmark.1 (h ▸ by decide)
    simp only [storePass,bufferFits,h10,hspace,h64,h34,h124,operator_unmarked hmark.1,Bool.false_eq_true,↓reduceIte]
    cases hdigit : isdigit c with
    | true =>
      have hcopied := copied_token hnul (p := isdigit) (fresh 64)
        (fun copied => storeToken .number copied.1 copied.2 line tokens)
      simp only [List.takeWhile_cons,List.dropWhile_cons,hdigit,↓reduceIte] at hcopied
      simp only [↓reduceIte,decide_eq_true_eq]
      exact hcopied
    | false =>
      cases hletter : (isalpha c || c == 95) with
      | true =>
        have hword : isWordByte c = true := by
          simp only [isWordByte,isalnum,Bool.or_eq_true] at hletter ⊢
          tauto
        have hcopied := copied_token hnul (p := isWordByte) (fresh 256)
          (fun copied => storeToken (wordType copied.1) copied.1 copied.2 line tokens)
        simp only [List.takeWhile_cons,List.dropWhile_cons,hword,↓reduceIte] at hcopied
        simp only [Bool.false_eq_true,↓reduceIte,decide_eq_true_eq]
        exact hcopied
      | false => rfl

inductive PieceKind where
  | directive | string | number | word | symbol
  deriving DecidableEq, Repr

/-- A piece of the text that gives a token, with the number of bytes of its value. -/
structure Piece where
  kind : PieceKind
  size : ℕ
  deriving DecidableEq, Repr

/-- The piece at the head of a text, if one starts there. A bar and the character of a state
stand for a literal of three bytes. -/
def pieceAt? (c : UInt8) (rest : Bytes) : Option Piece :=
  if isspace c then none
  else if c = 64 then some ⟨.directive, (rest.takeWhile (fun d => !isspace d)).length⟩
  else if c = 34 then some ⟨.string, (rest.takeWhile (· != 34)).length⟩
  else match (if c = 124 then stateToken? rest.head? else none) with
  | some (_, value) => some ⟨.symbol, value.length⟩
  | none => match operator? c rest.head? with
    | some (_, value) => some ⟨.symbol, value.length⟩
    | none =>
      if isdigit c then some ⟨.number, (c :: rest.takeWhile isdigit).length⟩
      else if isalpha c || c == 95 then some ⟨.word, (c :: rest.takeWhile isWordByte).length⟩
      else none

/-- The bytes of the text that a piece takes, its at sign or its quotes included. -/
def Piece.covers (piece : Piece) : ℕ :=
  match piece.kind with
  | .directive => piece.size + 1
  | .string => piece.size + 2
  | _ => piece.size

/-- There is room for the value and a NUL in the buffer it is copied to; symbols are not copied. -/
def Piece.fits (piece : Piece) : Bool :=
  match piece.kind with
  | .number => piece.size < 64
  | .symbol => true
  | _ => piece.size < 256

def piecesFrom : ℕ → Bytes → List Piece
  | fuel + 1, c :: rest =>
    (pieceAt? c rest).toList ++ piecesFrom fuel ((c :: rest).drop ((pieceAt? c rest).elim 1 Piece.covers))
  | _, _ => []

def pieces (src : Bytes) : List Piece := piecesFrom src.length src

/-- Each piece fits its buffer, and with EOF they fit the token array. -/
structure Within (src : Bytes) : Prop where
  sizes : ∀ piece ∈ pieces src, piece.fits = true
  count : (pieces src).length < maxTokens

/-- What a pass has to do with the piece it stands at. -/
structure PassTakes (c : UInt8) (rest : Bytes) (pass : Pass) : Prop where
  left : pass.rest = (c :: rest).drop ((pieceAt? c rest).elim 1 Piece.covers)
  token : pass.token?.isSome = (pieceAt? c rest).isSome
  fits : bufferFits c rest = (pieceAt? c rest).all Piece.fits

theorem PassTakes.skip {c : UInt8} {rest : Bytes} (hpiece : pieceAt? c rest = none) (hfits : bufferFits c rest = true)
    (line : ℕ) : PassTakes c rest ⟨none, rest, line⟩ := by
  constructor <;> rw [hpiece]
  · rfl
  · rfl
  · exact hfits

theorem PassTakes.take {c : UInt8} {rest : Bytes} {piece : Piece} (hpiece : pieceAt? c rest = some piece)
    (hfits : bufferFits c rest = piece.fits) (token : Token) {left : Bytes} (hleft : left = (c :: rest).drop piece.covers)
    (line : ℕ) : PassTakes c rest ⟨some token, left, line⟩ := by
  constructor <;> rw [hpiece]
  · exact hleft
  · rfl
  · exact hfits

theorem stateToken_length {next : Option UInt8} {found : TokenType × Bytes} (h : stateToken? next = some found) :
    found.2.length = 3 := by
  unfold stateToken? at h
  split_ifs at h <;> cases h <;> rfl

theorem scanPass_takes_mark {c : UInt8} (h64 : c ≠ 64) (h34 : c ≠ 34) (h : c ∈ marks ∨ isspace c = true) (rest : Bytes)
    (line : ℕ) : PassTakes c rest (scanPass c rest line) := by
  obtain ⟨hdigit,hletter⟩ := mark_plain h
  have hfits : bufferFits c rest = true := by
    simp only [bufferFits,h64,h34,hdigit,hletter,Bool.false_eq_true,↓reduceIte]
  by_cases hspace : isspace c = true
  · obtain ⟨next,hpass⟩ := scanPass_blank hspace rest line
    rw [hpass]
    exact PassTakes.skip (if_pos hspace) hfits next
  have h10 : c ≠ 10 := by
    rintro rfl
    exact hspace rfl
  cases hstate : (if c = 124 then stateToken? rest.head? else none) with
  | some found =>
    have hpiece : pieceAt? c rest = some ⟨.symbol, found.2.length⟩ := by
      simp only [pieceAt?,hspace,h64,h34,hstate,Bool.false_eq_true,↓reduceIte]
    have hlength : found.2.length = 3 := by
      split_ifs at hstate
      exact stateToken_length hstate
    simp only [scanPass,h10,hspace,h64,h34,hstate,Bool.false_eq_true,↓reduceIte]
    refine PassTakes.take hpiece hfits _ ?_ line
    simp only [Piece.covers,hlength]
    rfl
  | none =>
    cases hop : operator? c rest.head? with
    | some found =>
      have hpiece : pieceAt? c rest = some ⟨.symbol, found.2.length⟩ := by
        simp only [pieceAt?,hspace,h64,h34,hstate,hop,Bool.false_eq_true,↓reduceIte]
      simp only [scanPass,h10,hspace,h64,h34,hstate,hop,Bool.false_eq_true,↓reduceIte]
      refine PassTakes.take hpiece hfits _ ?_ line
      obtain ⟨k,hk⟩ := operator_length hop
      simp only [Piece.covers,hk]
      rfl
    | none =>
      have hpiece : pieceAt? c rest = none := by
        simp only [pieceAt?,hspace,h64,h34,hstate,hop,hdigit,hletter,Bool.false_eq_true,↓reduceIte]
      simp only [scanPass,h10,hspace,h64,h34,hstate,hop,hdigit,hletter,Bool.false_eq_true,↓reduceIte]
      exact PassTakes.skip hpiece hfits line

theorem scanPass_takes (c : UInt8) (rest : Bytes) (line : ℕ) : PassTakes c rest (scanPass c rest line) := by
  by_cases h64 : c = 64
  · subst h64
    exact ⟨(drop_takeWhile _ rest).symm,rfl,rfl⟩
  by_cases h34 : c = 34
  · subst h34
    refine ⟨?_,rfl,rfl⟩
    have hquoted : (rest.dropWhile (· != 34)).drop 1 = rest.drop ((rest.takeWhile (· != 34)).length + 1) := by
      rw [← drop_takeWhile,List.drop_drop]
    exact hquoted
  by_cases hmark : c ∈ marks ∨ isspace c = true
  · exact scanPass_takes_mark h64 h34 hmark rest line
  · rw [not_or] at hmark
    have hspace : isspace c = false := by simpa using hmark.2
    have h124 : c ≠ 124 := fun h => hmark.1 (h ▸ by decide)
    have hop := operator_unmarked hmark.1 rest.head?
    rw [scanPass_other hspace hmark.1]
    cases hdigit : isdigit c with
    | true =>
      have hpiece : pieceAt? c rest = some ⟨.number, (c :: rest.takeWhile isdigit).length⟩ := by
        simp only [pieceAt?,hspace,h64,h34,h124,hop,hdigit,Bool.false_eq_true,↓reduceIte]
      have hfits : bufferFits c rest = decide ((c :: rest.takeWhile isdigit).length < 64) := by
        simp only [bufferFits,h64,h34,hdigit,↓reduceIte]
      exact PassTakes.take hpiece hfits _ (drop_takeWhile isdigit rest).symm line
    | false =>
      cases hletter : (isalpha c || c == 95) with
      | true =>
        have hpiece : pieceAt? c rest = some ⟨.word, (c :: rest.takeWhile isWordByte).length⟩ := by
          simp only [pieceAt?,hspace,h64,h34,h124,hop,hdigit,hletter,Bool.false_eq_true,↓reduceIte]
        have hfits : bufferFits c rest = decide ((c :: rest.takeWhile isWordByte).length < 256) := by
          simp only [bufferFits,h64,h34,hdigit,hletter,Bool.false_eq_true,↓reduceIte]
        exact PassTakes.take hpiece hfits _ (drop_takeWhile isWordByte rest).symm line
      | false =>
        have hpiece : pieceAt? c rest = none := by
          simp only [pieceAt?,hspace,h64,h34,h124,hop,hdigit,hletter,Bool.false_eq_true,↓reduceIte]
        have hfits : bufferFits c rest = true := by
          simp only [bufferFits,h64,h34,hdigit,hletter,Bool.false_eq_true,↓reduceIte]
        exact PassTakes.skip hpiece hfits line

theorem piecesFrom_spec (fuel : ℕ) (text : Bytes) (line : ℕ) :
    (buffersFit fuel text = true ↔ ∀ piece ∈ piecesFrom fuel text, piece.fits = true) ∧
      (scan fuel text line).length = (piecesFrom fuel text).length + 1 := by
  induction fuel generalizing text line with
  | zero => exact ⟨⟨fun _ => nofun,fun _ => rfl⟩,rfl⟩
  | succ fuel ih =>
    cases text with
    | nil => exact ⟨⟨fun _ => nofun,fun _ => rfl⟩,rfl⟩
    | cons c rest =>
      obtain ⟨hleft,htoken,hfits⟩ := scanPass_takes c rest line
      have hother := (scanPass_takes c rest 1).left
      obtain ⟨hbuffers,hlength⟩ := ih (scanPass c rest line).rest (scanPass c rest line).line
      rw [hleft] at hbuffers
      simp only [buffersFit,scan,piecesFrom]
      rw [hother,hfits,Bool.and_eq_true,hbuffers,List.length_append,List.length_append,hlength,hleft]
      cases hpiece : pieceAt? c rest with
      | none =>
        rw [hpiece] at htoken
        have htoken : (scanPass c rest line).token? = none := by simpa using htoken
        simp [htoken]
      | some piece =>
        rw [hpiece] at htoken
        obtain ⟨token,htoken⟩ := Option.isSome_iff_exists.mp htoken
        simp [htoken]
        omega

theorem storeScan_spec (fresh : Bytes → ∀ n, Vector UInt8 n) (fuel : ℕ) {text : Bytes} (hnul : 0 ∉ text) (line : ℕ)
    (tokens : TokenArray) :
    ((buffersFit fuel text = true ∧ tokens.count + (scan fuel text line).length ≤ maxTokens) ∧
      ∃ final, storeScan fresh fuel text line tokens = .ok final ∧ final.stored = tokens.stored ++ scan fuel text line) ∨
    (¬(buffersFit fuel text = true ∧ tokens.count + (scan fuel text line).length ≤ maxTokens) ∧
      ∃ fault, storeScan fresh fuel text line tokens = .error fault) := by
  have hlast : ∀ (tokens : TokenArray) (line : ℕ),
      (tokens.count + 1 ≤ maxTokens ∧ ∃ final, tokens.append StorageFault.tokenArray
        (fun _ => .ok (addToken .eof (str "EOF") line)) = .ok final ∧
          final.stored = tokens.stored ++ [addToken .eof (str "EOF") line]) ∨
      (¬tokens.count + 1 ≤ maxTokens ∧ ∃ fault, tokens.append StorageFault.tokenArray
        (fun _ => .ok (addToken .eof (str "EOF") line)) = .error fault) := by
    intro tokens line
    rcases tokens.append_entry StorageFault.tokenArray (addToken .eof (str "EOF") line) with
      ⟨hroom,final,hok,-,hstored⟩ | ⟨hfull,herror⟩
    · exact Or.inl ⟨hroom,final,hok,hstored⟩
    · exact Or.inr ⟨by omega,_,herror⟩
  induction fuel generalizing text line tokens with
  | zero => simpa [buffersFit,scan,storeScan] using hlast tokens line
  | succ fuel ih =>
    cases text with
    | nil => simpa [buffersFit,scan,storeScan] using hlast tokens line
    | cons c rest =>
      have hpass := storePass_eq (fresh (c :: rest)) hnul line tokens
      have hsame : (scanPass c rest 1).rest = (scanPass c rest line).rest :=
        (scanPass_takes c rest 1).left.trans (scanPass_takes c rest line).left.symm
      have hrest : 0 ∉ (scanPass c rest line).rest :=
        fun h => hnul (List.mem_cons_of_mem c ((scanPass_suffix c rest line).subset h))
      simp only [buffersFit,scan,storeScan,hsame,hpass]
      cases hfits : bufferFits c rest with
      | false => exact Or.inr ⟨by simp,_,rfl⟩
      | true =>
        simp only [Bool.true_and,↓reduceIte]
        unfold Pass.store
        cases (scanPass c rest line).token? with
        | none => simpa [bind,Except.bind] using ih hrest (scanPass c rest line).line tokens
        | some token =>
          rcases tokens.append_entry StorageFault.tokenArray token with ⟨hroom,next,hok,hcount,hstored⟩ | ⟨hfull,herror⟩
          · have hnext := ih hrest (scanPass c rest line).line next
            rw [hcount,hstored,Nat.add_assoc,Nat.add_comm 1] at hnext
            simpa [hok,bind,Except.bind,pure,Except.pure] using hnext
          · refine Or.inr ⟨?_,.tokenArray,?_⟩
            · simp only [Option.toList_some,List.length_append,List.length_singleton,not_and]
              intro _
              omega
            · simp only [herror]
              rfl

structure SourceText where
  text : Bytes
  no_nul : 0 ∉ text

/-- The lexer stays inside of its storage, whatever that held before, exactly if the pieces of
the text fit; then the token array holds the tokens of the text. -/
theorem storeTokens_within_iff (fresh : Bytes → ∀ n, Vector UInt8 n) (slots : Vector Token maxTokens) (src : SourceText) :
    ((∃ final, storeTokens fresh slots src.text = .ok final) ↔ Within src.text) ∧
      ∀ final, storeTokens fresh slots src.text = .ok final → final.stored = tokenize src.text := by
  obtain ⟨hbuffers,hlength⟩ := piecesFrom_spec src.text.length src.text 1
  have hfits : (buffersFit src.text.length src.text = true ∧ 0 + (scan src.text.length src.text 1).length ≤ maxTokens) ↔
      Within src.text := by
    rw [hbuffers,hlength,Nat.zero_add]
    exact ⟨fun h => ⟨h.1,h.2⟩,fun h => ⟨h.sizes,h.count⟩⟩
  rcases storeScan_spec fresh src.text.length src.no_nul 1 ⟨slots,0⟩ with ⟨hok,final,hrun,hstored⟩ | ⟨hnot,fault,hrun⟩
  · refine ⟨iff_of_true ⟨final,hrun⟩ (hfits.mp hok),?_⟩
    rintro other hother
    obtain rfl : final = other := Except.ok.inj (hrun.symm.trans hother)
    exact hstored
  · have herror : ∀ final, storeTokens fresh slots src.text ≠ .ok final := by
      intro final hfinal
      have hboth : Except.error fault = .ok final := hrun.symm.trans hfinal
      cases hboth
    refine ⟨iff_of_false (fun ⟨final,hfinal⟩ => herror final hfinal) (mt hfits.mpr hnot),?_⟩
    exact fun final hfinal => absurd hfinal (herror final)

/-- A number of 64 digits: its terminator is written behind the buffer. -/
theorem longNumber_outside :
    storeTokens (fun _ n => Vector.replicate n 0) (Vector.replicate maxTokens ⟨.unknown, [], 0⟩) (List.replicate 64 48) =
      .error .buffer := by
  rfl

end QbitNova.Language
