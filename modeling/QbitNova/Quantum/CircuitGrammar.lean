import QbitNova.Quantum.CircuitReading

/-! # The grammar of circuit files

A line is blank, a comment, or a keyword with as many integers as it takes. What the loader takes
from a file is compared with this grammar line by line, for lines of any length and up to the line
at which both stop.
-/
namespace QbitNova.CircuitVM
open CText

section Grammar
variable (narrow : ℤ → ℤ)

/-- A word is an integer if `%d` converts all of it. -/
def intWord (word : Bytes) : Option ℤ :=
  match scanInt narrow word with
  | some (value, []) => some value
  | _ => none

/-- The grammar of a line. -/
def lineGrammar (line : Bytes) : Option (List Statement) :=
  if line.head? = some 35 then some []
  else match words line with
  | [] => some []
  | kw :: operands => ((operands.mapM (intWord narrow)).bind (statementOf kw)).map ([·])

def fileGrammar (text : Bytes) : Option (List Statement) := readAll (lineGrammar narrow) (physicalLines text)

/-- The lines that the loader reads as the grammar has them: a line outside of the grammar has
a piece that does not even begin with a statement, a comment has no piece that is not passed
over, and a statement is not spread over several pieces. -/
structure ReadWhole (line : Bytes) : Prop where
  refused : lineGrammar narrow line = none →
    ∃ piece ∈ pieces line, ¬ Quiet piece ∧ leadingStatement narrow piece = none
  comment : line.head? = some 35 → ∀ piece ∈ pieces line, Quiet piece
  together : ∀ statement, lineGrammar narrow line = some [statement] →
    ((pieces line).filter (fun piece => !blank piece)).length ≤ 1

/-- The statements that the pieces of a line begin with, without the pieces that are passed over. -/
def leadingStatements (line : Bytes) : Option (List Statement) :=
  ((pieces line).filter (fun piece => !decide (Quiet piece))).mapM (leadingStatement narrow)

/-- The statements of a line performed after a circuit; nothing if there are none to perform or
an operand is out of range. -/
def performed (c : Circuit) (statements : Option (List Statement)) : Option (List Statement × Circuit) :=
  statements.bind fun found => (found.foldlM Statement.run c).toOption.map (found, ·)

/-- What loading takes from each line, up to the first line at which it stops. -/
def taken (read : Bytes → Option (List Statement)) : Circuit → List Bytes → List (List Statement)
  | _, [] => []
  | c, line :: rest => match performed c (read line) with
    | none => []
    | some (found, next) => found :: taken read next rest

/-- The lines are read whole up to the first one at which the loader and the grammar both stop. -/
def WholeUpToStop : Circuit → List Bytes → Prop
  | _, [] => True
  | c, line :: rest =>
    (performed c (leadingStatements narrow line) = none ∧ performed c (lineGrammar narrow line) = none) ∨
    (ReadWhole narrow line ∧
      ∀ found next, performed c (lineGrammar narrow line) = some (found, next) → WholeUpToStop next rest)

end Grammar

variable {narrow : ℤ → ℤ}

section Statements

theorem mapM_cons_eq_some {words : List Bytes} {word : Bytes} {values : List ℤ}
    (h : (word :: words).mapM (intWord narrow) = some values) :
    ∃ value others, intWord narrow word = some value ∧ words.mapM (intWord narrow) = some others ∧
      values = value :: others := by
  rw [List.mapM_cons] at h
  cases hvalue : intWord narrow word with
  | none => rw [hvalue] at h; cases h
  | some value =>
    rw [hvalue] at h
    cases hothers : words.mapM (intWord narrow) with
    | none => rw [hothers] at h; cases h
    | some others =>
      rw [hothers] at h
      cases h
      exact ⟨value,others,rfl,rfl,rfl⟩

theorem scanInt_of_intWord {word : Bytes} {value : ℤ} (h : intWord narrow word = some value) :
    scanInt narrow word = some (value, []) := by
  unfold intWord at h
  split at h
  · cases h
    assumption
  · cases h

theorem scanInt_dropWhile (text : Bytes) : scanInt narrow (text.dropWhile isspace) = scanInt narrow text := by
  have htwice : (text.dropWhile isspace).dropWhile isspace = text.dropWhile isspace := by
    cases hd : text.dropWhile isspace with
    | nil => rfl
    | cons c rest => rw [List.dropWhile_cons_of_neg (by rw [not_of_dropWhile_eq_cons hd]; exact Bool.false_ne_true)]
  unfold scanInt
  rw [htwice]

/-- `%d` converts a first word that is an integer and leaves the others. -/
theorem scanInt_word {text word : Bytes} {others : List Bytes} {value : ℤ} (h : words text = word :: others)
    (hvalue : intWord narrow word = some value) :
    ∃ tail, scanInt narrow text = some (value, tail) ∧ words tail = others := by
  obtain ⟨tail,hsplit,-,hword,hothers,hends⟩ := words_cons h
  refine ⟨tail,?_,hothers⟩
  rw [← scanInt_dropWhile,hsplit,scanInt_append hword hends,scanInt_of_intWord hvalue]
  rfl

theorem scanInt_of_no_words {text : Bytes} (h : words text = []) : scanInt narrow text = none :=
  scanInt_of_blank ((words_eq_nil_iff text).mp h)

theorem leadingInts_words {text : Bytes} {values : List ℤ} (h : (words text).mapM (intWord narrow) = some values)
    (htwo : values.length ≤ 2) : leadingInts narrow text = values := by
  unfold leadingInts
  cases hwords : words text with
  | nil =>
    rw [hwords] at h
    cases h
    rw [scanInt_of_no_words hwords]
    rfl
  | cons word others =>
    rw [hwords] at h
    obtain ⟨q1,rest,hq1,hrest,rfl⟩ := mapM_cons_eq_some h
    obtain ⟨tail,hscan,htail⟩ := scanInt_word hwords hq1
    simp only [hscan]
    cases others with
    | nil =>
      cases hrest
      rw [scanInt_of_no_words htail]
      rfl
    | cons word others =>
      obtain ⟨q2,rest,hq2,hrest,rfl⟩ := mapM_cons_eq_some hrest
      obtain ⟨tail,hscan,-⟩ := scanInt_word htail hq2
      have hnil : rest = [] := List.length_eq_zero_iff.mp (by simp only [List.length_cons] at htwo; omega)
      simp only [hscan,hnil]

/-- A line of the grammar that is not passed over: a keyword and its operands. -/
theorem lineGrammar_eq {line : Bytes} {statement : Statement} (h : lineGrammar narrow line = some [statement]) :
    ∃ kw operands values, words line = kw :: operands ∧ operands.mapM (intWord narrow) = some values ∧
      statementOf kw values = some statement := by
  unfold lineGrammar at h
  split_ifs at h
  · cases h
  · split at h
    · cases h
    · obtain ⟨found,hfound,heq⟩ := Option.map_eq_some_iff.mp h
      obtain ⟨values,hvalues,hstatement⟩ := Option.bind_eq_some_iff.mp hfound
      cases heq
      exact ⟨_,_,values,by assumption,hvalues,hstatement⟩

theorem intWord_byte {word : Bytes} {value : ℤ} {c : UInt8} (h : intWord narrow word = some value) (hc : c ∈ word) :
    isspace c = true ∨ c = 45 ∨ c = 43 ∨ isdigit c = true := by
  have hscan := scanInt_of_intWord h
  unfold scanInt at hscan
  simp only at hscan
  split_ifs at hscan
  all_goals
    have hdigits := List.dropWhile_eq_nil_iff.mp (congrArg Prod.snd (Option.some.inj hscan))
    rw [← List.takeWhile_append_dropWhile (p := isspace) (l := word)] at hc
    rcases List.mem_append.mp hc with hfront | hback
    · exact Or.inl (List.mem_takeWhile_imp hfront)
    · exact Or.inr ((mem_sign hback).imp_right (Or.imp_right fun hin => hdigits c hin))

theorem intWord_bytes {word : Bytes} {value : ℤ} (h : intWord narrow word = some value) : 0 ∉ word ∧ 35 ∉ word := by
  constructor
  · intro hc
    exact absurd (intWord_byte h hc) (by decide)
  · intro hc
    exact absurd (intWord_byte h hc) (by decide)

theorem operands_bytes {operands : List Bytes} {values : List ℤ} (h : operands.mapM (intWord narrow) = some values) :
    ∀ word ∈ operands, 0 ∉ word ∧ 35 ∉ word := by
  induction operands generalizing values with
  | nil =>
    intro word hword
    cases hword
  | cons first rest ih =>
    obtain ⟨value,others,hvalue,hothers,-⟩ := mapM_cons_eq_some h
    exact List.forall_mem_cons.mpr ⟨intWord_bytes hvalue,ih hothers⟩

theorem statement_bytes {line : Bytes} {statement : Statement} (h : lineGrammar narrow line = some [statement]) :
    0 ∉ line ∧ 35 ∉ line := by
  obtain ⟨kw,operands,values,hwords,hvalues,hstatement⟩ := lineGrammar_eq h
  have hkeywords : ∀ kw ∈ keywords, 0 ∉ kw ∧ 35 ∉ kw := by decide
  have hall : ∀ word ∈ words line, 0 ∉ word ∧ 35 ∉ word := by
    rw [hwords]
    exact List.forall_mem_cons.mpr ⟨hkeywords kw (statementOf_mem hstatement).1,operands_bytes hvalues⟩
  constructor
  · intro hmem
    obtain ⟨word,hword,hin⟩ := mem_words_of_mem hmem rfl
    exact (hall word hword).1 hin
  · intro hmem
    obtain ⟨word,hword,hin⟩ := mem_words_of_mem hmem rfl
    exact (hall word hword).2 hin

theorem cText_of_notMem {piece : Bytes} (h : 0 ∉ piece) : cText piece = piece := by
  refine List.takeWhile_eq_self_iff.mpr fun c hc => ?_
  rw [bne_iff_ne]
  rintro rfl
  exact h hc

theorem leadingStatement_of_grammar {piece : Bytes} {statement : Statement}
    (h : lineGrammar narrow piece = some [statement]) : leadingStatement narrow piece = some statement := by
  obtain ⟨kw,operands,values,hwords,hvalues,hstatement⟩ := lineGrammar_eq h
  obtain ⟨tail,hsplit,hkw,-,htail,-⟩ := words_cons hwords
  rw [leadingStatement,cText_of_notMem (statement_bytes h).1]
  simp only [hkw]
  rw [hsplit,List.drop_left,leadingInts_words (by rw [htail]; exact hvalues) (statementOf_mem hstatement).2]
  exact hstatement

end Statements

section Agreement

theorem readAll_eq_nil_iff {read : Bytes → Option (List Statement)} {texts : List Bytes} :
    readAll read texts = some [] ↔ ∀ text ∈ texts, read text = some [] := by
  induction texts with
  | nil => simp [readAll]
  | cons text rest ih =>
    rw [readAll_cons,List.forall_mem_cons,← ih]
    cases read text with
    | none => simp
    | some first => simp [and_comm]

theorem readAll_eq_none_iff {read : Bytes → Option (List Statement)} {texts : List Bytes} :
    readAll read texts = none ↔ ∃ text ∈ texts, read text = none := by
  induction texts with
  | nil => simp [readAll]
  | cons text rest ih =>
    rw [readAll_cons,List.exists_mem_cons_iff,← ih]
    cases read text with
    | none => simp
    | some first => simp

theorem pieceReading_eq_nil_iff {piece : Bytes} (hline : piece.head? ≠ some 10) :
    pieceReading narrow piece = some [] ↔ Quiet piece := by
  constructor
  · intro h
    by_contra hloud
    rw [pieceReading_loud hloud hline] at h
    cases hs : leadingStatement narrow piece <;> rw [hs] at h <;> cases h
  · exact pieceReading_quiet

theorem pieceReading_eq_none_iff {piece : Bytes} (hline : piece.head? ≠ some 10) :
    pieceReading narrow piece = none ↔ ¬ Quiet piece ∧ leadingStatement narrow piece = none := by
  by_cases hquiet : Quiet piece
  · rw [pieceReading_quiet hquiet]
    simp [hquiet]
  · rw [pieceReading_loud hquiet hline,Option.map_eq_none_iff]
    simp [hquiet]

/-- Where only blank pieces are passed over, each other piece counts for one statement. -/
theorem readAll_length {read : List Bytes} {statements : List Statement}
    (hline : ∀ piece ∈ read, piece.head? ≠ some 10) (hquiet : ∀ piece ∈ read, Quiet piece ↔ blank piece = true)
    (h : readAll (pieceReading narrow) read = some statements) :
    statements.length = (read.filter (fun piece => !blank piece)).length := by
  induction read generalizing statements with
  | nil =>
    cases h
    rfl
  | cons piece rest ih =>
    rw [readAll_cons] at h
    obtain ⟨first,hfirst,h⟩ := Option.bind_eq_some_iff.mp h
    obtain ⟨others,hothers,rfl⟩ := Option.map_eq_some_iff.mp h
    have hrest := ih (fun p hp => hline p (List.mem_cons_of_mem _ hp))
      (fun p hp => hquiet p (List.mem_cons_of_mem _ hp)) hothers
    cases hblank : blank piece with
    | true =>
      rw [pieceReading_quiet ((hquiet piece List.mem_cons_self).mpr hblank)] at hfirst
      cases hfirst
      rw [List.filter_cons_of_neg (by simp [hblank])]
      exact hrest
    | false =>
      have hloud : ¬ Quiet piece := by
        rw [hquiet piece List.mem_cons_self,hblank]
        exact Bool.false_ne_true
      rw [pieceReading_loud hloud (hline piece List.mem_cons_self)] at hfirst
      obtain ⟨statement,-,rfl⟩ := Option.map_eq_some_iff.mp hfirst
      rw [List.filter_cons_of_pos (by simp [hblank]),List.length_append,hrest,List.length_singleton,List.length_cons]
      omega

variable {line : Bytes}

theorem piece_head (hline : 10 ∉ line) {piece : Bytes} (hpiece : piece ∈ pieces line) : piece.head? ≠ some 10 :=
  fun h => hline (mem_of_mem_piece hline hpiece (List.mem_of_mem_head? h))

theorem lineReading_comment (hline : 10 ∉ line) :
    lineReading narrow line = some [] ↔ ∀ piece ∈ pieces line, Quiet piece := by
  rw [lineReading,readAll_eq_nil_iff]
  exact forall₂_congr fun piece hpiece => pieceReading_eq_nil_iff (piece_head hline hpiece)

theorem lineReading_refused (hline : 10 ∉ line) : lineReading narrow line = none ↔
    ∃ piece ∈ pieces line, ¬ Quiet piece ∧ leadingStatement narrow piece = none := by
  rw [lineReading,readAll_eq_none_iff]
  refine exists_congr fun piece => and_congr_right fun hpiece => ?_
  exact pieceReading_eq_none_iff (piece_head hline hpiece)

theorem quiet_of_blank {piece : Bytes} (h : blank piece = true) : Quiet piece := by
  right
  rw [blank,List.all_eq_true] at h ⊢
  exact fun c hc => h c ((List.takeWhile_prefix _).subset hc)

theorem blank_pieces (hline : 10 ∉ line) (h : blank line = true) : ∀ piece ∈ pieces line, Quiet piece := by
  intro piece hpiece
  refine quiet_of_blank (List.all_eq_true.mpr fun c hc => ?_)
  exact List.all_eq_true.mp h c (mem_of_mem_piece hline hpiece hc)

theorem blank_flatten {read : List Bytes} (h : ∀ piece ∈ read, blank piece = true) : blank read.flatten = true := by
  rw [blank,List.all_eq_true]
  intro c hc
  obtain ⟨piece,hpiece,hin⟩ := List.mem_flatten.mp hc
  exact List.all_eq_true.mp (h piece hpiece) c hin

theorem readAll_blank {read : List Bytes} (h : ∀ piece ∈ read, blank piece = true) :
    readAll (pieceReading narrow) read = some [] :=
  readAll_eq_nil_iff.mpr fun piece hpiece => pieceReading_quiet (quiet_of_blank (h piece hpiece))

theorem lineGrammar_congr {piece : Bytes} (hline : 35 ∉ line) (hpiece : 35 ∉ piece)
    (hwords : words piece = words line) :
    lineGrammar narrow piece = lineGrammar narrow line := by
  have hhead : ∀ {text : Bytes}, 35 ∉ text → text.head? ≠ some 35 := fun h heq => h (List.mem_of_mem_head? heq)
  unfold lineGrammar
  rw [if_neg (hhead hline),if_neg (hhead hpiece),hwords]

theorem single_piece (hline : 10 ∉ line) (hwords : words line ≠ [])
    (hone : ((pieces line).filter (fun piece => !blank piece)).length ≤ 1) :
    ∃ before piece after, pieces line = before ++ piece :: after ∧ (∀ p ∈ before, blank p = true) ∧
      (∀ p ∈ after, blank p = true) ∧ blank piece = false ∧ words piece = words line := by
  cases hfilter : (pieces line).filter (fun piece => !blank piece) with
  | nil =>
    refine absurd (words_of_blank ?_) hwords
    rw [← flatten_pieces hline]
    refine blank_flatten fun piece hpiece => ?_
    simpa using List.filter_eq_nil_iff.mp hfilter piece hpiece
  | cons piece others =>
    rw [hfilter,List.length_cons] at hone
    have hothers : others = [] := List.length_eq_zero_iff.mp (by omega)
    obtain ⟨before,after,hsplit,hbefore,hpiece,hafter⟩ := List.filter_eq_cons_iff.mp hfilter
    rw [hothers,List.filter_eq_nil_iff] at hafter
    have hblankBefore : ∀ p ∈ before, blank p = true := fun p hp => by simpa using hbefore p hp
    have hblankAfter : ∀ p ∈ after, blank p = true := fun p hp => by simpa using hafter p hp
    refine ⟨before,piece,after,hsplit,hblankBefore,hblankAfter,by simpa using hpiece,?_⟩
    rw [← flatten_pieces hline,hsplit,List.flatten_append,List.flatten_cons,
      words_blank_append (blank_flatten hblankBefore),words_append_blank _ (blank_flatten hblankAfter)]

/-- A statement is read if and only if it stands in one piece. -/
theorem lineReading_statement (hline : 10 ∉ line) {statement : Statement}
    (h : lineGrammar narrow line = some [statement]) :
    lineReading narrow line = some [statement] ↔ ((pieces line).filter (fun piece => !blank piece)).length ≤ 1 := by
  obtain ⟨hnul,hhash⟩ := statement_bytes h
  have hquiet : ∀ piece ∈ pieces line, Quiet piece ↔ blank piece = true := by
    intro piece hpiece
    have hseen : cText piece = piece := cText_of_notMem fun hmem => hnul (mem_of_mem_piece hline hpiece hmem)
    rw [Quiet,hseen,or_iff_right]
    exact fun hhead => hhash (mem_of_mem_piece hline hpiece (List.mem_of_mem_head? hhead))
  constructor
  · intro hread
    exact (readAll_length (fun _ => piece_head hline) hquiet hread).ge
  · intro hone
    obtain ⟨kw,operands,values,hkw,-⟩ := lineGrammar_eq h
    obtain ⟨before,piece,after,hsplit,hbefore,hafter,hloud,hwords⟩ := single_piece hline (by rw [hkw]; simp) hone
    have hpiece : piece ∈ pieces line := by rw [hsplit]; simp
    have hgrammar : lineGrammar narrow piece = lineGrammar narrow line :=
      lineGrammar_congr hhash (fun hmem => hhash (mem_of_mem_piece hline hpiece hmem)) hwords
    have hnot : ¬ Quiet piece := by
      rw [hquiet piece hpiece,hloud]
      exact Bool.false_ne_true
    rw [lineReading,hsplit,readAll_append,readAll_cons,readAll_blank hbefore,readAll_blank hafter,
      pieceReading_loud hnot (piece_head hline hpiece),leadingStatement_of_grammar (hgrammar.trans h)]
    rfl

theorem lineGrammar_cases (narrow : ℤ → ℤ) (line : Bytes) : lineGrammar narrow line = none ∨
    (lineGrammar narrow line = some [] ∧ (line.head? = some 35 ∨ blank line = true)) ∨
    ∃ statement, lineGrammar narrow line = some [statement] := by
  unfold lineGrammar
  by_cases hhash : line.head? = some 35
  · rw [if_pos hhash]
    exact Or.inr (Or.inl ⟨rfl,Or.inl hhash⟩)
  · rw [if_neg hhash]
    cases hwords : words line with
    | nil => exact Or.inr (Or.inl ⟨rfl,Or.inr ((words_eq_nil_iff line).mp hwords)⟩)
    | cons kw operands =>
      simp only
      cases (operands.mapM (intWord narrow)).bind (statementOf kw) with
      | none => exact Or.inl rfl
      | some statement => exact Or.inr (Or.inr ⟨statement,rfl⟩)

/-- For a line of any length: the loader makes of it what the grammar does exactly if it is
read whole. -/
theorem lineReading_iff (hline : 10 ∉ line) :
    lineReading narrow line = lineGrammar narrow line ↔ ReadWhole narrow line := by
  have hcomment : line.head? = some 35 → lineGrammar narrow line = some [] := fun h => if_pos h
  rcases lineGrammar_cases narrow line with hnone | ⟨hnil,hform⟩ | ⟨statement,hsome⟩
  · rw [hnone,lineReading_refused hline]
    constructor
    · intro h
      refine ⟨fun _ => h,fun hhash => ?_,fun statement hsome => ?_⟩
      · rw [hcomment hhash] at hnone
        cases hnone
      · rw [hnone] at hsome
        cases hsome
    · exact fun h => h.refused hnone
  · rw [hnil,lineReading_comment hline]
    constructor
    · intro h
      refine ⟨fun hnone => ?_,fun _ => h,fun statement hsome => ?_⟩
      · rw [hnil] at hnone
        cases hnone
      · rw [hnil] at hsome
        cases hsome
    · intro h
      rcases hform with hhash | hblank
      · exact h.comment hhash
      · exact blank_pieces hline hblank
  · rw [hsome,lineReading_statement hline hsome]
    constructor
    · intro h
      refine ⟨fun hnone => ?_,fun hhash => ?_,fun _ _ => h⟩
      · rw [hsome] at hnone
        cases hnone
      · rw [hcomment hhash] at hsome
        cases hsome
    · exact fun h => h.together statement hsome

/-- A line of at most 255 bytes is one piece, and only text behind a statement matters. -/
theorem readWhole_short (hline : 10 ∉ line) (hlength : line.length ≤ 255) : ReadWhole narrow line ↔
    (lineGrammar narrow line = none → ¬ Quiet line ∧ leadingStatement narrow line = none) := by
  by_cases hne : line = []
  · subst hne
    refine iff_of_true ⟨fun h => ?_,fun h => ?_,fun statement h => ?_⟩ fun h => ?_
    all_goals cases h
  have hpieces : pieces line = [line] := by
    rw [pieces_cons hline hne,List.take_of_length_le hlength,List.drop_eq_nil_of_le hlength]
    rfl
  constructor
  · intro h hnone
    obtain ⟨piece,hpiece,hform⟩ := h.refused hnone
    rw [hpieces,List.mem_singleton] at hpiece
    rwa [hpiece] at hform
  · intro h
    refine ⟨fun hnone => ⟨line,by simp [hpieces],h hnone⟩,fun hhash => ?_,fun _ _ => ?_⟩
    · rw [hpieces,List.forall_mem_singleton]
      exact Or.inl hhash
    · rw [hpieces]
      exact List.length_filter_le _ _

end Agreement

section Files

theorem readAll_pieces {read : List Bytes} (hline : ∀ piece ∈ read, piece.head? ≠ some 10) :
    readAll (pieceReading narrow) read =
      (read.filter (fun piece => !decide (Quiet piece))).mapM (leadingStatement narrow) := by
  induction read with
  | nil => rfl
  | cons piece rest ih =>
    rw [readAll_cons,ih fun p hp => hline p (List.mem_cons_of_mem _ hp)]
    by_cases hquiet : Quiet piece
    · rw [pieceReading_quiet hquiet,List.filter_cons_of_neg (by simp [hquiet])]
      simp
    · rw [pieceReading_loud hquiet (hline piece List.mem_cons_self),List.filter_cons_of_pos (by simp [hquiet]),
        List.mapM_cons]
      cases leadingStatement narrow piece with
      | none => rfl
      | some statement =>
        simp only [Option.map_some,Option.bind_some,List.singleton_append,Option.bind_eq_bind,Option.pure_def]
        cases (rest.filter (fun piece => !decide (Quiet piece))).mapM (leadingStatement narrow) <;> rfl

theorem lineReading_eq {line : Bytes} (hline : 10 ∉ line) : lineReading narrow line = leadingStatements narrow line :=
  readAll_pieces fun _ => piece_head hline

theorem performed_some {c : Circuit} {found : List Statement} {statements : Option (List Statement)}
    {performs : List Statement × Circuit} (h : performed c statements = some performs) (hfound : statements = some found) :
    performs.1 = found ∧ found.foldlM Statement.run c = .ok performs.2 := by
  rw [hfound,performed,Option.bind_some] at h
  cases hrun : found.foldlM Statement.run c with
  | error stop => rw [hrun] at h; cases h
  | ok next =>
    rw [hrun] at h
    cases h
    exact ⟨rfl,rfl⟩

theorem performed_none {c : Circuit} {found : List Statement} (h : performed c (some found) = none) (c' : Circuit) :
    found.foldlM Statement.run c ≠ .ok c' := by
  intro hrun
  rw [performed,Option.bind_some,hrun] at h
  cases h

theorem taken_cons (read : Bytes → Option (List Statement)) (c : Circuit) (line : Bytes) (rest : List Bytes) :
    taken read c (line :: rest) = match performed c (read line) with
      | none => []
      | some (found, next) => found :: taken read next rest := rfl

theorem taken_all_iff (read : Bytes → Option (List Statement)) (c c' : Circuit) (texts : List Bytes) :
    ((taken read c texts).length = texts.length ∧ (taken read c texts).flatten.foldlM Statement.run c = .ok c') ↔
      ∃ statements, readAll read texts = some statements ∧ statements.foldlM Statement.run c = .ok c' := by
  induction texts generalizing c with
  | nil => simp [taken,readAll]
  | cons line rest ih =>
    rw [taken_cons,readAll_cons]
    cases hread : read line with
    | none => simp [performed]
    | some first =>
      cases hperform : performed c (some first) with
      | none =>
        refine iff_of_false (by simp) ?_
        rintro ⟨statements,hall,hrun⟩
        obtain ⟨others,-,rfl⟩ := Option.map_eq_some_iff.mp hall
        rw [List.foldlM_append] at hrun
        cases hfirst : first.foldlM Statement.run c with
        | error stop => rw [hfirst] at hrun; cases hrun
        | ok next => exact performed_none hperform next hfirst
      | some performs =>
        obtain ⟨hfound,hfirst⟩ := performed_some hperform rfl
        have hthrough : ∀ others : List Statement,
            (first ++ others).foldlM Statement.run c = others.foldlM Statement.run performs.2 := by
          intro others
          rw [List.foldlM_append,hfirst]
          rfl
        simp only [hfound,List.length_cons,List.flatten_cons,add_left_inj,hthrough,Option.bind_some]
        rw [ih performs.2]
        constructor
        · rintro ⟨others,hothers,hrun⟩
          exact ⟨first ++ others,by rw [hothers]; rfl,(hthrough others).trans hrun⟩
        · rintro ⟨statements,hall,hrun⟩
          obtain ⟨others,hothers,rfl⟩ := Option.map_eq_some_iff.mp hall
          exact ⟨others,hothers,(hthrough others).symm.trans hrun⟩

/-- The loader and the grammar take the same, line by line, and stop at the same line, exactly
if the lines are read whole up to there. -/
theorem taken_eq_iff {texts : List Bytes} (htexts : ∀ line ∈ texts, 10 ∉ line) (c : Circuit) :
    taken (lineReading narrow) c texts = taken (lineGrammar narrow) c texts ↔ WholeUpToStop narrow c texts := by
  induction texts generalizing c with
  | nil => exact iff_of_true rfl trivial
  | cons line rest ih =>
    obtain ⟨hline,hrest⟩ := List.forall_mem_cons.mp htexts
    rw [taken_cons,taken_cons,WholeUpToStop,← lineReading_eq hline,← lineReading_iff hline]
    cases hread : performed c (lineReading narrow line) with
    | none =>
      cases hgrammar : performed c (lineGrammar narrow line) with
      | none => simp
      | some performs =>
        refine iff_of_false (by simp) ?_
        rintro (⟨-,h⟩ | ⟨heq,-⟩)
        · cases h
        · rw [heq,hgrammar] at hread
          cases hread
    | some reads =>
      cases hgrammar : performed c (lineGrammar narrow line) with
      | none =>
        refine iff_of_false (by simp) ?_
        rintro (⟨h,-⟩ | ⟨heq,-⟩)
        · cases h
        · rw [heq,hgrammar] at hread
          cases hread
      | some performs =>
        obtain ⟨first,hfirst,-⟩ := Option.bind_eq_some_iff.mp hread
        obtain ⟨first',hfirst',-⟩ := Option.bind_eq_some_iff.mp hgrammar
        obtain ⟨hreads,hrun⟩ := performed_some hread hfirst
        obtain ⟨hperforms,hrun'⟩ := performed_some hgrammar hfirst'
        simp only [hreads,hperforms,List.cons.injEq,reduceCtorEq,false_and,false_or]
        rw [hfirst,hfirst',Option.some.injEq]
        refine and_congr_right fun hsame => ?_
        have hnext : reads.2 = performs.2 := by
          rw [hsame,hrun'] at hrun
          exact (Except.ok.inj hrun).symm
        rw [hnext,ih hrest]
        constructor
        · intro h found next hpair
          cases hpair
          exact h
        · exact fun h => h _ _ rfl

theorem wholeUpToStop_of_forall {texts : List Bytes} (h : ∀ line ∈ texts, ReadWhole narrow line) (c : Circuit) :
    WholeUpToStop narrow c texts := by
  induction texts generalizing c with
  | nil => trivial
  | cons line rest ih =>
    obtain ⟨hline,hrest⟩ := List.forall_mem_cons.mp h
    exact Or.inr ⟨hline,fun _ next _ => ih hrest next⟩

end Files

/-- For every file: it is loaded if something is taken from each of its lines; line by line the
loader takes what the grammar has and stops where the grammar stops, exactly if the lines are
read whole up to there; and then the file is accepted exactly if it follows the grammar and its
statements can be run. -/
theorem loadCircuit_grammar (narrow : ℤ → ℤ) (text : Bytes) :
    (∀ c, loadCircuit narrow (some text) = .ok c ↔
      (taken (lineReading narrow) {} (physicalLines text)).length = (physicalLines text).length ∧
        (taken (lineReading narrow) {} (physicalLines text)).flatten.foldlM Statement.run {} = .ok c) ∧
    (taken (lineReading narrow) {} (physicalLines text) = taken (lineGrammar narrow) {} (physicalLines text) ↔
      WholeUpToStop narrow {} (physicalLines text)) ∧
    (WholeUpToStop narrow {} (physicalLines text) →
      ∀ c, loadCircuit narrow (some text) = .ok c ↔
        ∃ statements, fileGrammar narrow text = some statements ∧ statements.foldlM Statement.run {} = .ok c) := by
  have hload : ∀ c, loadCircuit narrow (some text) = .ok c ↔
      (taken (lineReading narrow) {} (physicalLines text)).length = (physicalLines text).length ∧
        (taken (lineReading narrow) {} (physicalLines text)).flatten.foldlM Statement.run {} = .ok c :=
    fun c => (loadCircuit_iff text c).trans (taken_all_iff _ {} c _).symm
  have hlines : ∀ line ∈ physicalLines text, 10 ∉ line := fun _ => newline_notMem
  have htaken : taken (lineReading narrow) {} (physicalLines text) = taken (lineGrammar narrow) {} (physicalLines text) ↔
      WholeUpToStop narrow {} (physicalLines text) := taken_eq_iff hlines {}
  refine ⟨hload,htaken,fun hwhole c => ?_⟩
  rw [hload c,htaken.mpr hwhole,fileGrammar]
  exact taken_all_iff (lineGrammar narrow) {} c (physicalLines text)

/-- Every kind of line, one of them indented. -/
def plainFile : Bytes := str "# bell\nqubits 2\n\n  h 0\ncx 0 1\nmeasure\n"

/-- The line that would not be read whole stands behind one at which loading stops. -/
def stoppedFile : Bytes := str "bogus\nh 0 junk\n"

theorem loadCircuit_grammar_plain : WholeUpToStop id {} (physicalLines plainFile) ∧
    fileGrammar id plainFile = some [.qubits 2, .single .h 0, .double .cx 0 1, .measure] ∧
    loadCircuit id (some plainFile) = .ok ⟨2, true, [⟨.h, 0, 0⟩, ⟨.cx, 0, 1⟩]⟩ ∧
    WholeUpToStop id {} (physicalLines stoppedFile) ∧ ∀ c, loadCircuit id (some stoppedFile) ≠ .ok c := by
  have hwhole : WholeUpToStop id {} (physicalLines plainFile) := by
    have hform : ∀ line ∈ physicalLines plainFile, 10 ∉ line ∧ line.length ≤ 255 ∧ lineGrammar id line ≠ none := by
      decide
    refine wholeUpToStop_of_forall (fun line hline => ?_) {}
    obtain ⟨hnewline,hlength,hgrammar⟩ := hform line hline
    exact (readWhole_short hnewline hlength).mpr fun hnone => absurd hnone hgrammar
  have hgrammar : fileGrammar id plainFile = some [.qubits 2, .single .h 0, .double .cx 0 1, .measure] := by decide
  have hstopped : WholeUpToStop id {} (physicalLines stoppedFile) := by
    rw [show physicalLines stoppedFile = [str "bogus", str "h 0 junk", []] by decide]
    exact Or.inl ⟨by decide,by decide⟩
  refine ⟨hwhole,hgrammar,?_,hstopped,fun c hload => ?_⟩
  · exact ((loadCircuit_grammar id plainFile).2.2 hwhole _).mpr ⟨_,hgrammar,by decide⟩
  · obtain ⟨statements,hnone,-⟩ := ((loadCircuit_grammar id stoppedFile).2.2 hstopped c).mp hload
    rw [show fileGrammar id stoppedFile = none by decide] at hnone
    cases hnone

/-- A word behind the operand of a gate. -/
def trailingFile : Bytes := str "qubits 2\nh 0 junk\n"

/-- A comment whose 256th byte starts a word. -/
def longComment : Bytes := 35 :: List.replicate 254 32 ++ str "qubits 1\n"

/-- The loader accepts a gate with text behind it, and takes the end of a long comment for
a statement. -/
theorem accepted_outside_grammar :
    (loadCircuit id (some trailingFile) = .ok ⟨2, false, [⟨.h, 0, 0⟩]⟩ ∧ fileGrammar id trailingFile = none) ∧
    loadCircuit id (some longComment) = .ok ⟨1, false, []⟩ ∧ fileGrammar id longComment = some [] := by
  refine ⟨⟨by decide,by decide⟩,by decide +kernel,by decide +kernel⟩

end QbitNova.CircuitVM
