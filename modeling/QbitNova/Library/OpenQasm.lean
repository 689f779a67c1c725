import QbitNova.Library.Words
import Mathlib.Data.List.Basic

/-! # OpenQASM files

A reader for the part of OpenQASM 3 that has one register of qubits, one of bits and the
standard gates without parameters. There is one statement on a line; blank lines and
comments stand anywhere. A printer whose lines are read one by one is read as a whole.
-/
namespace OpenQasm
open CText

inductive Statement where
  | gate (name : Bytes) (operands : List ℕ)
  | measure (bit qubit : ℕ)
  deriving DecidableEq, Repr

structure Program where
  qubits : ℕ
  bits : ℕ
  body : List Statement
  deriving DecidableEq, Repr

/-- The standard gates without parameters and the number of their operands. -/
def standardGates : List (Bytes × ℕ) :=
  [(str "x", 1), (str "y", 1), (str "z", 1), (str "h", 1), (str "s", 1), (str "sdg", 1), (str "t", 1), (str "tdg", 1),
    (str "sx", 1), (str "id", 1), (str "cx", 2), (str "cy", 2), (str "cz", 2), (str "ch", 2), (str "swap", 2),
    (str "ccx", 3), (str "cswap", 3)]

/-- A gate takes as many different qubits of the register as it has operands, and a
measurement goes from a qubit to a bit. -/
def Statement.Valid (qubits bits : ℕ) : Statement → Prop
  | .gate name operands =>
    standardGates.lookup name = some operands.length ∧ operands.Nodup ∧ ∀ q ∈ operands, q < qubits
  | .measure bit qubit => bit < bits ∧ qubit < qubits

instance (qubits bits : ℕ) (s : Statement) : Decidable (s.Valid qubits bits) := by
  cases s <;> unfold Statement.Valid <;> infer_instance

def Program.Valid (p : Program) : Prop := 0 < p.qubits ∧ 0 < p.bits ∧ ∀ s ∈ p.body, s.Valid p.qubits p.bits

instance (p : Program) : Decidable p.Valid := by unfold Program.Valid; infer_instance

/-- What one line holds. -/
inductive Line where
  | empty
  | version
  | standard
  | qubits (n : ℕ)
  | bits (n : ℕ)
  | statement (s : Statement)
  deriving DecidableEq, Repr

/-- What follows a prefix. -/
def after : Bytes → Bytes → Option Bytes
  | [], text => some text
  | c :: cs, d :: text => if c = d then after cs text else none
  | _ :: _, [] => none

/-- The number in `name[number]tail`. -/
def subscript (name tail word : Bytes) : Option ℕ :=
  (after (name ++ [91]) word).bind fun rest =>
    if rest.takeWhile isdigit ≠ [] ∧ rest.dropWhile isdigit = 93 :: tail then some (digitsValue rest) else none

def readOperands : List Bytes → Option (List ℕ)
  | [] => none
  | [word] => (subscript (str "q") (str ";") word).map ([·])
  | word :: rest => (subscript (str "q") (str ",") word).bind fun q => (readOperands rest).map (q :: ·)

/-- A line that starts with a subscripted name is a declaration or a measurement. -/
def readSubscripted (first : Bytes) (rest : List Bytes) : Option Line :=
  match subscript (str "qubit") [] first, subscript (str "bit") [] first, subscript (str "c") [] first with
  | some n, _, _ => if rest = [str "q;"] then some (.qubits n) else none
  | none, some n, _ => if rest = [str "c;"] then some (.bits n) else none
  | none, none, some bit =>
    match rest with
    | [equals, measure, qubit] =>
      if equals = str "=" ∧ measure = str "measure" then
        (subscript (str "q") (str ";") qubit).map fun q => .statement (.measure bit q)
      else none
    | _ => none
  | none, none, none => (readOperands rest).map fun qs => .statement (.gate first qs)

def readLine (line : Bytes) : Option Line :=
  match words line with
  | [] => some .empty
  | first :: rest =>
    if str "//" <+: first then some .empty
    else if first = str "OPENQASM" then if rest = [str "3.0;"] then some .version else none
    else if first = str "include" then if rest = [str "\"stdgates.inc\";"] then some .standard else none
    else readSubscripted first rest

/-- The statements of a body. -/
def statementsOf : List Line → Option (List Statement)
  | [] => some []
  | .statement s :: rest => (statementsOf rest).map (s :: ·)
  | _ :: _ => none

/-- The version comes first, then the standard gates and the two declarations. -/
def assemble : List Line → Option Program
  | .version :: .standard :: .qubits n :: .bits m :: rest => (statementsOf rest).map fun body => ⟨n, m, body⟩
  | _ => none

/-- The lines of a text; what stands behind the last newline is not a line unless there is something. -/
def readLines (text : Bytes) : Option (List Line) := (text.splitOn 10).mapM readLine

def read (text : Bytes) : Option Program :=
  (readLines text).bind fun lines => assemble (lines.filter (· ≠ .empty))

section Reading
variable {line rest text name tail w : Bytes} {n : ℕ}

theorem after_append (s t : Bytes) : after s (s ++ t) = some t := by
  induction s with
  | nil => rfl
  | cons c s ih => rw [List.cons_append,after,if_pos rfl,ih]

/-- A prefix that is not there is not found. -/
theorem after_none (h : ¬ name <+: w) : after name w = none := by
  induction name generalizing w with
  | nil => exact absurd List.nil_prefix h
  | cons c name ih =>
    cases w with
    | nil => rfl
    | cons d w =>
      rw [after]
      split_ifs with hcd
      · apply ih
        rw [hcd,List.cons_prefix_cons] at h
        exact fun hstart => h ⟨rfl,hstart⟩
      · rfl

theorem toUInt8_toNat {c : Char} (hc : c.isDigit = true) : c.toUInt8.toNat = c.toNat := by
  simp only [Char.isDigit,Bool.and_eq_true,decide_eq_true_eq,ge_iff_le,UInt32.le_iff_toNat_le] at hc
  have hmax : c.val.toNat ≤ 57 := hc.2
  exact Nat.mod_eq_of_lt (show c.val.toNat < 256 by omega)

theorem isdigit_toUInt8 {c : Char} (hc : c.isDigit = true) : isdigit c.toUInt8 = true := by
  have hvalue := toUInt8_toNat hc
  simp only [Char.isDigit,Bool.and_eq_true,decide_eq_true_eq,ge_iff_le,UInt32.le_iff_toNat_le] at hc
  have hmin : 48 ≤ c.val.toNat := hc.1
  have hmax : c.val.toNat ≤ 57 := hc.2
  have hnat : c.toNat = c.val.toNat := rfl
  simp only [isdigit,Bool.and_eq_true,decide_eq_true_eq,UInt8.le_iff_toNat_le,hvalue,hnat]
  exact ⟨hmin,hmax⟩

/-- A printed number: digits only, and its value. -/
theorem digits_toString (n : ℕ) : str (toString n) ≠ [] ∧ (∀ c ∈ str (toString n), isdigit c = true) ∧
    digitsValue (str (toString n)) = n := by
  have hstr : str (toString n) = (Nat.toDigits 10 n).map Char.toUInt8 := by
    rw [str,Nat.toString_eq_repr,Nat.toList_repr]
  have hdigit : ∀ c ∈ Nat.toDigits 10 n, c.isDigit = true := fun c hc =>
    Nat.isDigit_of_mem_toDigits (by decide) (by decide) hc
  have hall : ∀ c ∈ str (toString n), isdigit c = true := by
    rw [hstr,List.forall_mem_map]
    exact fun c hc => isdigit_toUInt8 (hdigit c hc)
  have htake : (str (toString n)).takeWhile isdigit = str (toString n) :=
    List.takeWhile_eq_self_iff.mpr hall
  refine ⟨?_,hall,?_⟩
  · rw [hstr,ne_eq,List.map_eq_nil_iff]
    exact Nat.toDigits_ne_nil
  · rw [digitsValue,htake,hstr,List.foldl_map]
    refine Eq.trans ?_ (Nat.ofDigitChars_ten_toDigits (n := n))
    rw [Nat.ofDigitChars_eq_foldl]
    apply List.foldl_ext
    intro a c hc
    rw [toUInt8_toNat (hdigit c hc)]
    rfl

theorem readLines_line (hline : 10 ∉ line) (rest : Bytes) : readLines (line ++ 10 :: rest) =
    (readLine line).bind fun l => (readLines rest).map (l :: ·) := by
  have hsplit : (line ++ 10 :: rest).splitOn 10 = line :: rest.splitOn 10 := by
    refine List.splitOnP_append_cons_of_forall_mem (fun c hc => ?_) 10 rfl rest
    rw [beq_eq_false_iff_ne]
    rintro rfl
    exact hline hc
  rw [readLines,hsplit,List.mapM_cons]
  cases readLine line with
  | none => rfl
  | some l => cases hrest : (rest.splitOn 10).mapM readLine <;> simp [readLines,hrest]

theorem readLines_nil : readLines [] = some [.empty] := by
  simp [readLines,readLine]

/-- A text that is read as the given lines, whatever stands behind it. -/
def Prints (text : Bytes) (lines : List Line) : Prop :=
  ∀ rest, readLines (text ++ rest) = (readLines rest).map (lines ++ ·)

theorem Prints.nil : Prints [] [] := by
  intro rest
  rw [List.nil_append]
  exact Option.map_id'.symm

theorem Prints.append {s t : Bytes} {ks ls : List Line} (hs : Prints s ks) (ht : Prints t ls) : Prints (s ++ t) (ks ++ ls) := by
  intro rest
  rw [List.append_assoc,hs,ht,Option.map_map]
  congr 1
  funext lines
  exact (List.append_assoc ks ls lines).symm

theorem Prints.single {l : Line} (hline : 10 ∉ line) (hread : readLine line = some l) : Prints (line ++ [10]) [l] := by
  intro rest
  rw [List.append_assoc,List.singleton_append,readLines_line hline,hread]
  rfl

theorem Prints.flatMap {α : Type} {xs : List α} {f : α → Bytes} {g : α → List Line} (h : ∀ x ∈ xs, Prints (f x) (g x)) :
    Prints (xs.flatMap f) (xs.flatMap g) := by
  induction xs with
  | nil => exact .nil
  | cons x xs ih =>
    rw [List.flatMap_cons,List.flatMap_cons]
    exact (h x List.mem_cons_self).append (ih fun y hy => h y (List.mem_cons_of_mem x hy))

theorem Prints.read {lines : List Line} (h : Prints text lines) : read text = assemble (lines.filter (· ≠ .empty)) := by
  have hall := h []
  rw [List.append_nil,readLines_nil] at hall
  rw [OpenQasm.read,hall]
  simp

/-- The printed form of a subscripted name. -/
def subscripted (name : Bytes) (n : ℕ) : Bytes := name ++ 91 :: (str (toString n) ++ [93])

theorem subscript_subscripted (name tail : Bytes) (n : ℕ) : subscript name tail (subscripted name n ++ tail) = some n := by
  obtain ⟨hne,hdigits,hvalue⟩ := digits_toString n
  have hshape : subscripted name n ++ tail = (name ++ [91]) ++ (str (toString n) ++ 93 :: tail) := by
    simp [subscripted]
  have htake : (str (toString n) ++ 93 :: tail).takeWhile isdigit = str (toString n) := by
    rw [List.takeWhile_append_of_pos hdigits,List.takeWhile_cons_of_neg (by decide),List.append_nil]
  have hdrop : (str (toString n) ++ 93 :: tail).dropWhile isdigit = 93 :: tail := by
    rw [List.dropWhile_append_of_pos hdigits,List.dropWhile_cons_of_neg (by decide)]
  have hsame : digitsValue (str (toString n) ++ 93 :: tail) = digitsValue (str (toString n)) := by
    rw [digitsValue,digitsValue,htake,List.takeWhile_eq_self_iff.mpr hdigits]
  rw [hshape,subscript,after_append]
  simp only [Option.bind_some,htake,hdrop,hsame,hvalue]
  rw [if_pos ⟨hne,trivial⟩]

/-- A word without brackets is not subscripted. -/
theorem subscript_none (tail : Bytes) (h : 91 ∉ w) : subscript name tail w = none := by
  rw [subscript,after_none]
  · rfl
  · intro hstart
    exact h (hstart.subset (by simp))

/-- A word: something without white space. -/
structure Solid (w : Bytes) : Prop where
  nonempty : w ≠ []
  plain : w.all (fun c => !isspace c) = true

theorem Solid.not_space {w : Bytes} (h : Solid w) {c : UInt8} (hc : c ∈ w) : isspace c = false := by
  simpa using List.all_eq_true.mp h.plain c hc

theorem solid_subscripted (name tail : Bytes) (hname : name.all (fun c => !isspace c) = true)
    (htail : tail.all (fun c => !isspace c) = true) (n : ℕ) : Solid (subscripted name n ++ tail) := by
  obtain ⟨-,hdigits,-⟩ := digits_toString n
  have hnumber : (str (toString n)).all (fun c => !isspace c) = true := by
    rw [List.all_eq_true]
    intro c hc
    by_contra hspace
    simp only [Bool.not_eq_true,Bool.not_eq_false'] at hspace
    have hdigit := hdigits c hc
    rw [isdigit_of_isspace hspace] at hdigit
    cases hdigit
  refine ⟨by simp [subscripted],?_⟩
  rw [subscripted,List.all_append,List.all_append,List.all_cons,List.all_append,hname,hnumber,htail]
  decide

theorem words_cons_word (hw : Solid w) (rest : Bytes) : words (w ++ 32 :: rest) = w :: words rest := by
  rw [words_append_space (by decide),words_of_letters hw.nonempty fun c hc => hw.not_space hc]
  rfl

/-- The words of a list of operands. -/
def operandWords : List ℕ → List Bytes
  | [] => []
  | [q] => [subscripted (str "q") q ++ str ";"]
  | q :: qs => (subscripted (str "q") q ++ str ",") :: operandWords qs

theorem readOperands_words {operands : List ℕ} (hne : operands ≠ []) :
    readOperands (operandWords operands) = some operands := by
  induction operands with
  | nil => exact absurd rfl hne
  | cons q qs ih =>
    cases qs with
    | nil =>
      rw [operandWords,readOperands,subscript_subscripted]
      rfl
    | cons q' qs =>
      have hrest := ih (List.cons_ne_nil q' qs)
      have hshape : ∃ word rest, operandWords (q' :: qs) = word :: rest := by
        cases qs with
        | nil => exact ⟨_,_,rfl⟩
        | cons _ _ => exact ⟨_,_,rfl⟩
      obtain ⟨word,rest,hwords⟩ := hshape
      have hcons : operandWords (q :: q' :: qs) = (subscripted (str "q") q ++ str ",") :: word :: rest := by
        rw [← hwords]
        rfl
      rw [hwords] at hrest
      rw [hcons,readOperands,subscript_subscripted,hrest]
      · rfl
      · exact List.cons_ne_nil word rest

theorem mem_operandWords {operands : List ℕ} (h : w ∈ operandWords operands) :
    ∃ q tail, (tail = str ";" ∨ tail = str ",") ∧ w = subscripted (str "q") q ++ tail := by
  induction operands with
  | nil => cases h
  | cons q qs ih =>
    cases qs with
    | nil => exact ⟨q,_,.inl rfl,List.mem_singleton.mp h⟩
    | cons q' qs =>
      rcases List.mem_cons.mp h with rfl | h
      · exact ⟨q,_,.inr rfl,rfl⟩
      · exact ih h

/-- Words with a blank between any two of them. -/
def joined : List Bytes → Bytes
  | [] => []
  | [word] => word
  | word :: rest => word ++ 32 :: joined rest

theorem words_joined {ws : List Bytes} (h : ∀ w ∈ ws, Solid w) : words (joined ws) = ws := by
  induction ws with
  | nil => exact words_nil
  | cons word ws ih =>
    have hword := h word List.mem_cons_self
    cases ws with
    | nil => exact words_of_letters hword.nonempty fun c hc => hword.not_space hc
    | cons next ws =>
      have hrest := ih fun w hw => h w (List.mem_cons_of_mem word hw)
      rw [joined,words_cons_word hword,hrest]
      exact List.cons_ne_nil next ws

theorem newline_joined {ws : List Bytes} (h : ∀ w ∈ ws, Solid w) : 10 ∉ joined ws := by
  induction ws with
  | nil => exact List.not_mem_nil
  | cons word ws ih =>
    have hword : 10 ∉ word := fun hmem => absurd ((h word List.mem_cons_self).not_space hmem) (by decide)
    cases ws with
    | nil => exact hword
    | cons next ws =>
      have hrest := ih fun w hw => h w (List.mem_cons_of_mem word hw)
      rw [joined,List.mem_append,List.mem_cons]
      · rintro (hmem | hmem | hmem)
        · exact hword hmem
        · exact absurd hmem (by decide)
        · exact hrest hmem
      · exact List.cons_ne_nil next ws

/-- The words of a statement on its line. -/
def Statement.words : Statement → List Bytes
  | .gate name operands => name :: operandWords operands
  | .measure bit qubit => [subscripted (str "c") bit, str "=", str "measure", subscripted (str "q") qubit ++ str ";"]

/-- A gate has a name of its own and at least one operand. -/
def Statement.Named : Statement → Prop
  | .gate name operands => name ≠ [] ∧ name.all isalnum = true ∧ name ≠ str "OPENQASM" ∧ name ≠ str "include" ∧
    operands ≠ []
  | .measure _ _ => True

theorem solid_of_alnum {name : Bytes} (hne : name ≠ []) (h : name.all isalnum = true) : Solid name := by
  refine ⟨hne,List.all_eq_true.mpr fun c hc => ?_⟩
  have halnum := List.all_eq_true.mp h c hc
  by_contra hspace
  simp only [Bool.not_eq_true,Bool.not_eq_false'] at hspace
  rw [isalnum,isalpha_of_isspace hspace,isdigit_of_isspace hspace] at halnum
  cases halnum

theorem Statement.solid_words {s : Statement} (h : s.Named) : ∀ w ∈ s.words, Solid w := by
  cases s with
  | gate name operands =>
    obtain ⟨hne,halnum,-⟩ := h
    intro w hw
    rcases List.mem_cons.mp hw with rfl | hw
    · exact solid_of_alnum hne halnum
    · obtain ⟨q,tail,htail,rfl⟩ := mem_operandWords hw
      apply solid_subscripted _ _ (by decide)
      rcases htail with rfl | rfl <;> decide
  | measure bit qubit =>
    intro w hw
    simp only [Statement.words,List.mem_cons,List.not_mem_nil,or_false] at hw
    rcases hw with rfl | rfl | rfl | rfl
    · have hsolid := solid_subscripted (str "c") [] (by decide) (by decide) bit
      rwa [List.append_nil] at hsolid
    · exact ⟨by decide,by decide⟩
    · exact ⟨by decide,by decide⟩
    · exact solid_subscripted _ _ (by decide) (by decide) qubit

/-- A letter or digit starts neither a comment nor a subscripted name. -/
theorem alnum_notMem {name : Bytes} (h : name.all isalnum = true) : 47 ∉ name ∧ 91 ∉ name := by
  constructor
  all_goals
    intro hmem
    have halnum := List.all_eq_true.mp h _ hmem
    exact absurd halnum (by decide)

theorem readLine_words {first : Bytes} {rest : List Bytes} (hwords : words line = first :: rest)
    (hslash : first.head? ≠ some 47) (hversion : first ≠ str "OPENQASM") (hinclude : first ≠ str "include") :
    readLine line = readSubscripted first rest := by
  have hcomment : ¬ str "//" <+: first := by
    rintro ⟨tail,rfl⟩
    exact hslash rfl
  rw [readLine,hwords]
  simp only
  rw [if_neg hcomment,if_neg hversion,if_neg hinclude]

/-- A line whose first word is subscripted. -/
theorem readLine_subscripted {rest : List Bytes} (hwords : words line = subscripted name n :: rest)
    (hslash : (name ++ [91]).head? ≠ some 47) : readLine line = readSubscripted (subscripted name n) rest := by
  have hhead : (subscripted name n).head? = (name ++ [91]).head? := by cases name <;> rfl
  have hbracket : 91 ∈ subscripted name n := by simp [subscripted]
  apply readLine_words hwords (hhead ▸ hslash)
  · intro heq
    rw [heq] at hbracket
    exact absurd hbracket (by decide)
  · intro heq
    rw [heq] at hbracket
    exact absurd hbracket (by decide)

theorem subscript_whole (name : Bytes) (n : ℕ) : subscript name [] (subscripted name n) = some n := by
  have h := subscript_subscripted name [] n
  rwa [List.append_nil] at h

/-- A statement is read from its line. -/
theorem readLine_statement {s : Statement} (h : s.Named) : readLine (joined s.words) = some (.statement s) := by
  have hwords := words_joined (Statement.solid_words h)
  cases s with
  | gate name operands =>
    obtain ⟨hne,halnum,hversion,hinclude,hoperands⟩ := h
    obtain ⟨hslash,hbracket⟩ := alnum_notMem halnum
    have hhead : name.head? ≠ some 47 := fun hhead => hslash (List.mem_of_mem_head? hhead)
    rw [readLine_words hwords hhead hversion hinclude,readSubscripted,subscript_none _ hbracket,
      subscript_none _ hbracket,subscript_none _ hbracket]
    simp only [readOperands_words hoperands]
    rfl
  | measure bit qubit =>
    have hqubit : subscript (str "qubit") [] (subscripted (str "c") bit) = none := rfl
    have hbit : subscript (str "bit") [] (subscripted (str "c") bit) = none := rfl
    rw [readLine_subscripted hwords (by decide),readSubscripted,hqubit,hbit,subscript_whole]
    simp only [subscript_subscripted]
    rfl

theorem readLine_qubits (n : ℕ) : readLine (subscripted (str "qubit") n ++ str " q;") = some (.qubits n) := by
  have hsolid := solid_subscripted (str "qubit") [] (by decide) (by decide) n
  rw [List.append_nil] at hsolid
  have hwords : words (subscripted (str "qubit") n ++ 32 :: str "q;") = [subscripted (str "qubit") n, str "q;"] := by
    rw [words_cons_word hsolid]
    rfl
  have hline : readLine (subscripted (str "qubit") n ++ 32 :: str "q;") = some (.qubits n) := by
    rw [readLine_subscripted hwords (by decide),readSubscripted,subscript_whole]
    rfl
  exact hline

theorem readLine_bits (n : ℕ) : readLine (subscripted (str "bit") n ++ str " c;") = some (.bits n) := by
  have hsolid := solid_subscripted (str "bit") [] (by decide) (by decide) n
  rw [List.append_nil] at hsolid
  have hqubit : subscript (str "qubit") [] (subscripted (str "bit") n) = none := rfl
  have hwords : words (subscripted (str "bit") n ++ 32 :: str "c;") = [subscripted (str "bit") n, str "c;"] := by
    rw [words_cons_word hsolid]
    rfl
  have hline : readLine (subscripted (str "bit") n ++ 32 :: str "c;") = some (.bits n) := by
    rw [readLine_subscripted hwords (by decide),readSubscripted,hqubit,subscript_whole]
    rfl
  exact hline

theorem readLine_comment (text : Bytes) : readLine (str "// " ++ text) = some .empty := by
  have hwords : words (str "//" ++ 32 :: text) = str "//" :: words text := words_cons_word ⟨by decide,by decide⟩ text
  have hline : readLine (str "//" ++ 32 :: text) = some .empty := by
    rw [readLine,hwords]
    simp only
    rw [if_pos List.prefix_rfl]
  exact hline

/-- The statements of a body that is read, without the lines between them. -/
theorem statementsOf_map (body : List Statement) : statementsOf (body.map .statement) = some body := by
  induction body with
  | nil => rfl
  | cons s body ih =>
    rw [List.map_cons,statementsOf,ih]
    rfl

theorem prints_statement {s : Statement} (h : s.Named) : Prints (joined s.words ++ [10]) [.statement s] :=
  .single (newline_joined (Statement.solid_words h)) (readLine_statement h)

theorem prints_blank : Prints ([] ++ [10]) [.empty] := .single (by decide) (by decide)

/-- The head of a file. -/
theorem prints_header : Prints (str "OPENQASM 3.0;\ninclude \"stdgates.inc\";\n\n") [.version, .standard, .empty] := by
  have hversion : Prints (str "OPENQASM 3.0;" ++ [10]) [.version] := .single (by decide) (by decide)
  have hstandard : Prints (str "include \"stdgates.inc\";" ++ [10]) [.standard] := .single (by decide) (by decide)
  exact hversion.append (hstandard.append prints_blank)

theorem solid_newline (hw : Solid w) : 10 ∉ w := fun hmem => absurd (hw.not_space hmem) (by decide)

/-- The declarations of the two registers. -/
theorem prints_declarations (n m : ℕ) : Prints (str "qubit[" ++ str (toString n) ++ str "] q;\nbit[" ++
    str (toString m) ++ str "] c;\n\n") [.qubits n, .bits m, .empty] := by
  have hqubit : 10 ∉ subscripted (str "qubit") n ++ str " q;" := by
    have hsolid := solid_subscripted (str "qubit") [] (by decide) (by decide) n
    rw [List.append_nil] at hsolid
    simp [solid_newline hsolid]
    decide
  have hbit : 10 ∉ subscripted (str "bit") m ++ str " c;" := by
    have hsolid := solid_subscripted (str "bit") [] (by decide) (by decide) m
    rw [List.append_nil] at hsolid
    simp [solid_newline hsolid]
    decide
  have hall := (Prints.single hqubit (readLine_qubits n)).append ((Prints.single hbit (readLine_bits m)).append prints_blank)
  have htext : str "qubit[" ++ str (toString n) ++ str "] q;\nbit[" ++ str (toString m) ++ str "] c;\n\n" =
      subscripted (str "qubit") n ++ str " q;" ++ [10] ++ (subscripted (str "bit") m ++ str " c;" ++ [10] ++ ([] ++ [10])) := by
    rw [show str "qubit[" = str "qubit" ++ [91] from rfl,
      show str "] q;\nbit[" = 93 :: (str " q;" ++ 10 :: (str "bit" ++ [91])) from rfl,
      show str "] c;\n\n" = 93 :: (str " c;" ++ [10, 10]) from rfl]
    simp [subscripted]
  rw [htext]
  exact hall

theorem joined_gate_one (name : Bytes) (q : ℕ) : name ++ str " q[" ++ str (toString q) ++ str "];\n" =
    joined (Statement.words (.gate name [q])) ++ [10] := by
  rw [show str " q[" = 32 :: (str "q" ++ [91]) from rfl,show str "];\n" = 93 :: (str ";" ++ [10]) from rfl]
  simp [joined,Statement.words,operandWords,subscripted]

theorem joined_gate_two (name : Bytes) (a b : ℕ) : name ++ str " q[" ++ str (toString a) ++ str "], q[" ++
    str (toString b) ++ str "];\n" = joined (Statement.words (.gate name [a, b])) ++ [10] := by
  rw [show str " q[" = 32 :: (str "q" ++ [91]) from rfl,show str "];\n" = 93 :: (str ";" ++ [10]) from rfl,
    show str "], q[" = 93 :: (str "," ++ 32 :: (str "q" ++ [91])) from rfl]
  simp [joined,Statement.words,operandWords,subscripted]

theorem joined_measure (bit qubit : ℕ) : str "c[" ++ str (toString bit) ++ str "] = measure q[" ++ str (toString qubit) ++
    str "];\n" = joined (Statement.words (.measure bit qubit)) ++ [10] := by
  rw [show str "c[" = str "c" ++ [91] from rfl,show str "];\n" = 93 :: (str ";" ++ [10]) from rfl,
    show str "] = measure q[" = 93 :: 32 :: (str "=" ++ 32 :: (str "measure" ++ 32 :: (str "q" ++ [91]))) from rfl]
  simp [joined,Statement.words,subscripted]

end Reading

end OpenQasm
