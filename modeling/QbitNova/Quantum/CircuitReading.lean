import QbitNova.Quantum.CircuitLoad
import QbitNova.Library.Words

/-! # What the loader reads from a line

The loader of circuit files gets pieces of at most 255 bytes and looks at the beginning of each
of them. Cut into the form of a line and what its statement does, loading a file is running
the statements that are read from its lines, one line after the other.
-/
namespace QbitNova.CircuitVM
open CText

inductive Statement where
  | qubits (n : ℤ)
  | ghz
  | single (op : OpName) (q : ℤ)
  | double (op : OpName) (q1 q2 : ℤ)
  | measure
  deriving DecidableEq, Repr

/-- What a statement does; its operands may still be out of range. -/
def Statement.run (c : Circuit) : Statement → Except Stop Circuit
  | .qubits n => if n < 1 ∨ n > maxQubits then fail "qubits must be 1..16" else .ok { c with nq := n }
  | .ghz => addGhz c
  | .single op q => do
    requireQubit c q
    addOp c op q 0
  | .double op q1 q2 => do
    requireQubit c q1
    requireQubit c q2
    addOp c op q1 q2
  | .measure => .ok { c with hasMeasure := true }

/-- The statement of a keyword with its operands. -/
def statementOf (kw : Bytes) : List ℤ → Option Statement
  | [] => if kw = str "ghz" then some .ghz else if kw = str "measure" then some .measure else none
  | [q] => if kw = str "qubits" then some (.qubits q) else (singleGates.lookup kw).map (.single · q)
  | [q1, q2] => (doubleGates.lookup kw).map (.double · q1 q2)
  | _ => none

/-- What is read from several texts, one after the other; nothing if one of them is refused. -/
def readAll (read : Bytes → Option (List Statement)) : List Bytes → Option (List Statement)
  | [] => some []
  | text :: rest => (read text).bind fun first => (readAll read rest).map (first ++ ·)

/-- The lines of a text, of any length; the last one has no newline behind it. -/
def physicalLines (text : Bytes) : List Bytes := text.splitOn 10

section Reading
variable (narrow : ℤ → ℤ)

def Scanned.operands (s : Scanned) : List ℤ := [s.q1, s.q2].take (s.got - 1)

/-- The statement the loader takes a scanned text for, if it does not refuse its form. -/
def Scanned.reading (s : Scanned) : Option (List Statement) :=
  if s.got < 1 then some [] else (statementOf s.kw s.operands).map ([·])

/-- What the loader makes of one piece that `fgets` returns. -/
def pieceReading (piece : Bytes) : Option (List Statement) :=
  if skipped piece then some [] else (scanLine narrow piece).reading

/-- The pieces in which a line is read. -/
def pieces (line : Bytes) : List Bytes := lines line.length line

def lineReading (line : Bytes) : Option (List Statement) := readAll (pieceReading narrow) (pieces line)

end Reading

section Forms

/-- The piece is passed over. -/
def Quiet (piece : Bytes) : Prop := piece.head? = some 35 ∨ blank (cText piece) = true

instance (piece : Bytes) : Decidable (Quiet piece) := inferInstanceAs (Decidable (_ ∨ _))

/-- The integers that stand one after the other, up to the second. -/
def leadingInts (narrow : ℤ → ℤ) (text : Bytes) : List ℤ :=
  match scanInt narrow text with
  | none => []
  | some (q1, rest) => match scanInt narrow rest with
    | none => [q1]
    | some (q2, _) => [q1, q2]

/-- The keyword and the integers a piece begins with, whatever stands behind them. -/
def leadingStatement (narrow : ℤ → ℤ) (piece : Bytes) : Option Statement :=
  let text := (cText piece).dropWhile isspace
  let kw := text.takeWhile (fun c => !isspace c)
  statementOf kw (leadingInts narrow (text.drop kw.length))

end Forms

variable {narrow : ℤ → ℤ}

theorem readAll_cons (read : Bytes → Option (List Statement)) (text : Bytes) (rest : List Bytes) :
    readAll read (text :: rest) = (read text).bind fun first => (readAll read rest).map (first ++ ·) := rfl

theorem readAll_append (read : Bytes → Option (List Statement)) (a b : List Bytes) :
    readAll read (a ++ b) = (readAll read a).bind fun first => (readAll read b).map (first ++ ·) := by
  induction a with
  | nil => simp [readAll]
  | cons text rest ih =>
    rw [List.cons_append,readAll_cons,readAll_cons,ih]
    cases read text with
    | none => rfl
    | some first =>
      cases readAll read rest with
      | none => rfl
      | some others => cases readAll read b <;> simp

theorem foldlM_singleton (c : Circuit) (statement : Statement) :
    [statement].foldlM Statement.run c = statement.run c := by
  rw [List.foldlM_cons]
  cases statement.run c <;> rfl

theorem single_apart {kw : Bytes} {op : OpName} (h : singleGates.lookup kw = some op) : kw ≠ str "qubits" ∧
    kw ≠ str "ghz" ∧ kw ≠ str "measure" ∧ doubleGates.lookup kw = none := by
  have hall : ∀ entry ∈ singleGates, entry.1 ≠ str "qubits" ∧ entry.1 ≠ str "ghz" ∧ entry.1 ≠ str "measure" ∧
      doubleGates.lookup entry.1 = none := by decide
  exact hall _ (mem_of_lookup h)

theorem double_apart {kw : Bytes} {op : OpName} (h : doubleGates.lookup kw = some op) : kw ≠ str "qubits" ∧
    kw ≠ str "ghz" ∧ kw ≠ str "measure" ∧ singleGates.lookup kw = none := by
  have hall : ∀ entry ∈ doubleGates, entry.1 ≠ str "qubits" ∧ entry.1 ≠ str "ghz" ∧ entry.1 ≠ str "measure" ∧
      singleGates.lookup entry.1 = none := by decide
  exact hall _ (mem_of_lookup h)

/-- A scanned text does what its statement does; one without a statement stops the loader. -/
theorem loadScanned_reading (c : Circuit) {s : Scanned} (hgot : s.got ≤ 3) :
    (∃ statements, s.reading = some statements ∧ loadScanned c s = statements.foldlM Statement.run c) ∨
    (s.reading = none ∧ ∃ stop, loadScanned c s = .error stop) := by
  obtain ⟨got,kw,q1,q2⟩ := s
  unfold loadScanned Scanned.reading Scanned.operands fail
  simp only at hgot ⊢
  by_cases hnone : got < 1
  · rw [if_pos hnone,if_pos hnone]
    exact Or.inl ⟨[],rfl,rfl⟩
  have hcases : got = 1 ∨ got = 2 ∨ got = 3 := by omega
  by_cases hqubits : kw = str "qubits"
  · subst hqubits
    rcases hcases with rfl | rfl | rfl
    · exact Or.inr ⟨rfl,_,rfl⟩
    · exact Or.inl ⟨[.qubits q1],rfl,by rw [foldlM_singleton]; rfl⟩
    · exact Or.inr ⟨rfl,_,rfl⟩
  by_cases hghz : kw = str "ghz"
  · subst hghz
    rcases hcases with rfl | rfl | rfl
    · exact Or.inl ⟨[.ghz],rfl,by rw [foldlM_singleton]; rfl⟩
    · exact Or.inr ⟨rfl,_,rfl⟩
    · exact Or.inr ⟨rfl,_,rfl⟩
  rw [if_neg hnone,if_neg hnone,if_neg hqubits,if_neg hghz]
  cases hsingle : singleGates.lookup kw with
  | some op =>
    obtain ⟨-,-,hmeasure,hdouble⟩ := single_apart hsingle
    rcases hcases with rfl | rfl | rfl
    · exact Or.inr ⟨by simp [statementOf,hghz,hmeasure],_,rfl⟩
    · exact Or.inl ⟨[.single op q1],by simp [statementOf,hqubits,hsingle],by rw [foldlM_singleton]; rfl⟩
    · exact Or.inr ⟨by simp [statementOf,hdouble],_,rfl⟩
  | none =>
    cases hdouble : doubleGates.lookup kw with
    | some op =>
      obtain ⟨-,-,hmeasure,-⟩ := double_apart hdouble
      rcases hcases with rfl | rfl | rfl
      · exact Or.inr ⟨by simp [statementOf,hghz,hmeasure],_,rfl⟩
      · exact Or.inr ⟨by simp [statementOf,hqubits,hsingle],_,rfl⟩
      · exact Or.inl ⟨[.double op q1 q2],by simp [statementOf,hdouble],by rw [foldlM_singleton]; rfl⟩
    | none =>
      by_cases hmeasure : kw = str "measure"
      · subst hmeasure
        rcases hcases with rfl | rfl | rfl
        · exact Or.inl ⟨[.measure],rfl,by rw [foldlM_singleton]; rfl⟩
        · exact Or.inr ⟨rfl,_,rfl⟩
        · exact Or.inr ⟨rfl,_,rfl⟩
      · rw [if_neg hmeasure]
        refine Or.inr ⟨?_,_,rfl⟩
        rcases hcases with rfl | rfl | rfl
        · simp [statementOf,hghz,hmeasure]
        · simp [statementOf,hqubits,hsingle]
        · simp [statementOf,hdouble]

theorem scanLine_got (narrow : ℤ → ℤ) (piece : Bytes) : (scanLine narrow piece).got ≤ 3 := by
  unfold scanLine
  simp only
  split_ifs
  · exact Nat.zero_le _
  · split
    · exact (by decide : 1 ≤ 3)
    · split
      · exact (by decide : 2 ≤ 3)
      · exact le_refl 3

theorem loadPieces_iff (c c' : Circuit) (read : List Bytes) :
    ((read.filter (fun piece => !skipped piece)).map (scanLine narrow)).foldlM loadScanned c = .ok c' ↔
      ∃ statements, readAll (pieceReading narrow) read = some statements ∧
        statements.foldlM Statement.run c = .ok c' := by
  induction read generalizing c with
  | nil => simp [readAll]
  | cons piece rest ih =>
    rw [readAll_cons,pieceReading]
    cases hskip : skipped piece with
    | true =>
      rw [List.filter_cons_of_neg (by simp [hskip]),ih c]
      simp
    | false =>
      rw [List.filter_cons_of_pos (by simp [hskip]),List.map_cons,List.foldlM_cons,if_neg Bool.false_ne_true]
      rcases loadScanned_reading c (scanLine_got narrow piece) with ⟨first,hread,hload⟩ | ⟨hread,stop,hload⟩
      · rw [hread,hload,Option.bind_some]
        cases hfirst : first.foldlM Statement.run c with
        | error stop =>
          refine iff_of_false (fun h => by cases h) ?_
          rintro ⟨statements,hall,hrun⟩
          obtain ⟨others,-,rfl⟩ := Option.map_eq_some_iff.mp hall
          rw [List.foldlM_append,hfirst] at hrun
          cases hrun
        | ok next =>
          refine (ih next).trans ?_
          constructor
          · rintro ⟨others,hothers,hrun⟩
            exact ⟨first ++ others,by rw [hothers]; rfl,by rw [List.foldlM_append,hfirst]; exact hrun⟩
          · rintro ⟨statements,hall,hrun⟩
            obtain ⟨others,hothers,rfl⟩ := Option.map_eq_some_iff.mp hall
            rw [List.foldlM_append,hfirst] at hrun
            exact ⟨others,hothers,hrun⟩
      · rw [hread,hload]
        refine iff_of_false (fun h => by cases h) ?_
        rintro ⟨statements,hall,-⟩
        cases hall

section Pieces

def keywords : List Bytes :=
  [str "qubits", str "ghz", str "measure"] ++ singleGates.map Prod.fst ++ doubleGates.map Prod.fst

theorem statementOf_mem {kw : Bytes} {operands : List ℤ} {statement : Statement}
    (h : statementOf kw operands = some statement) : kw ∈ keywords ∧ operands.length ≤ 2 := by
  unfold statementOf at h
  split at h
  · refine ⟨?_,Nat.zero_le _⟩
    split_ifs at h with hghz hmeasure
    · rw [hghz]
      decide
    · rw [hmeasure]
      decide
  · refine ⟨?_,(by decide : 1 ≤ 2)⟩
    split_ifs at h with hqubits
    · rw [hqubits]
      decide
    · obtain ⟨op,hop,-⟩ := Option.map_eq_some_iff.mp h
      exact List.mem_append_left _ (List.mem_append_right _ (List.mem_map_of_mem (mem_of_lookup hop)))
  · refine ⟨?_,le_refl 2⟩
    obtain ⟨op,hop,-⟩ := Option.map_eq_some_iff.mp h
    exact List.mem_append_right _ (List.mem_map_of_mem (mem_of_lookup hop))
  · cases h

theorem statementOf_long {kw : Bytes} (h : 63 ≤ kw.length) (operands : List ℤ) : statementOf kw operands = none := by
  have hshort : ∀ kw ∈ keywords, kw.length < 63 := by decide
  cases hs : statementOf kw operands with
  | none => rfl
  | some statement => exact absurd (hshort kw (statementOf_mem hs).1) (Nat.not_lt.mpr h)

theorem pieceReading_quiet {piece : Bytes} (h : Quiet piece) : pieceReading narrow piece = some [] := by
  rcases h with hhash | hblank
  · rw [pieceReading,if_pos (by simp [skipped,hhash])]
  · have hscan : scanLine narrow piece = ⟨0, [], 0, 0⟩ := by
      unfold scanLine
      rw [dropWhile_of_blank hblank]
      rfl
    rw [pieceReading,hscan]
    split_ifs
    · rfl
    · rfl

/-- A keyword with the integers behind it, as they are scanned. -/
theorem reading_operands (kw text : Bytes) :
    Scanned.reading (match scanInt narrow text with
      | none => ⟨1, kw, 0, 0⟩
      | some (q1, rest) => match scanInt narrow rest with
        | none => ⟨2, kw, q1, 0⟩
        | some (q2, _) => ⟨3, kw, q1, q2⟩) = (statementOf kw (leadingInts narrow text)).map ([·]) := by
  unfold leadingInts
  cases scanInt narrow text with
  | none => rfl
  | some first =>
    cases hsecond : scanInt narrow first.2 with
    | none => simp only [hsecond]; rfl
    | some second => simp only [hsecond]; rfl

theorem pieceReading_loud {piece : Bytes} (h : ¬ Quiet piece) (hline : piece.head? ≠ some 10) :
    pieceReading narrow piece = (leadingStatement narrow piece).map ([·]) := by
  rw [Quiet,not_or] at h
  rw [pieceReading,if_neg (by simp [skipped,h.1,hline]),leadingStatement,scanLine]
  cases htext : (cText piece).dropWhile isspace with
  | nil => exact absurd (List.all_eq_true.mpr (List.dropWhile_eq_nil_iff.mp htext)) h.2
  | cons c t =>
    have hc := not_of_dropWhile_eq_cons htext
    have hne : ((c :: t).takeWhile (fun c => !isspace c)).take 63 ≠ [] := by simp [hc]
    rw [if_neg (by simpa using hne)]
    by_cases hlong : 63 ≤ ((c :: t).takeWhile (fun c => !isspace c)).length
    · refine (reading_operands _ _).trans ?_
      rw [statementOf_long (by rw [List.length_take]; omega),statementOf_long hlong]
    · rw [List.take_of_length_le (by omega)]
      exact reading_operands _ _

/-- Behind a text that is not blank `%d` is not continued over the end of a word. -/
theorem scanInt_append {text tail : Bytes} (htext : blank text = false) (htail : EndsWord tail) :
    scanInt narrow (text ++ tail) = (scanInt narrow text).map fun read => (read.1, read.2 ++ tail) := by
  obtain ⟨hdrop,hne⟩ := dropWhile_append_of_not_blank htext tail
  have hdigits := takeWhile_append_ends (fun c hc => isdigit_of_isspace hc)
    (sign (text.dropWhile isspace)).2 htail
  unfold scanInt digitsValue
  simp only [hdrop,sign_append hne,hdigits.1,hdigits.2]
  split_ifs <;> rfl

theorem scanInt_of_blank {text : Bytes} (h : blank text = true) : scanInt narrow text = none := by
  rw [scanInt,dropWhile_of_blank h]
  rfl

theorem scanInt_append_blank (text : Bytes) {tail : Bytes} (htail : blank tail = true) :
    scanInt narrow (text ++ tail) = (scanInt narrow text).map fun read => (read.1, read.2 ++ tail) := by
  cases htext : blank text with
  | true =>
    rw [scanInt_of_blank htext,scanInt_of_blank (by rw [blank_append,htext,htail]; rfl)]
    rfl
  | false => exact scanInt_append htext (EndsWord.of_blank htail)

theorem leadingInts_append_blank (text : Bytes) {tail : Bytes} (htail : blank tail = true) :
    leadingInts narrow (text ++ tail) = leadingInts narrow text := by
  unfold leadingInts
  rw [scanInt_append_blank text htail]
  cases scanInt narrow text with
  | none => rfl
  | some first =>
    simp only [Option.map_some,scanInt_append_blank first.2 htail]
    cases scanInt narrow first.2 <;> rfl

end Pieces

section Lines

theorem fgets_rest_length (c : UInt8) (rest : Bytes) : (fgets (c :: rest)).2.length ≤ rest.length := by
  unfold fgets
  simp only [List.length_drop,List.length_cons]
  split_ifs <;> omega

theorem lines_fuel {text : Bytes} {fuel fuel' : ℕ} (h : text.length ≤ fuel) (h' : text.length ≤ fuel') :
    lines fuel text = lines fuel' text := by
  induction fuel generalizing fuel' text with
  | zero =>
    rw [List.length_eq_zero_iff.mp (Nat.le_zero.mp h)]
    cases fuel' <;> rfl
  | succ fuel ih =>
    cases text with
    | nil => cases fuel' <;> rfl
    | cons c rest =>
      rw [List.length_cons] at h h'
      have hrest := fgets_rest_length c rest
      cases fuel' with
      | zero => omega
      | succ fuel' => exact congrArg (_ :: ·) (ih (by omega) (by omega))

theorem lines_cons (c : UInt8) (rest : Bytes) : lines (c :: rest).length (c :: rest) =
    (fgets (c :: rest)).1 :: lines (fgets (c :: rest)).2.length (fgets (c :: rest)).2 :=
  congrArg (_ :: ·) (lines_fuel (fgets_rest_length c rest) (le_refl _))

theorem takeWhile_newline {line : Bytes} (hline : 10 ∉ line) (rest : Bytes) :
    (line ++ 10 :: rest).takeWhile (· != 10) = line ∧ line.takeWhile (· != 10) = line := by
  have hall : ∀ c ∈ line, (c != 10) = true := by
    intro c hc
    rw [bne_iff_ne]
    rintro rfl
    exact hline hc
  exact ⟨by rw [List.takeWhile_append_of_pos hall]; simp,List.takeWhile_eq_self_iff.mpr hall⟩

/-- The pieces of a line that is not at the end of the file, and of the same line at the end. -/
theorem lines_line {line : Bytes} (hline : 10 ∉ line) (rest : Bytes) :
    lines (line ++ 10 :: rest).length (line ++ 10 :: rest) =
      if line.length < 255 then (line ++ [10]) :: lines rest.length rest
      else line.take 255 :: lines (line.drop 255 ++ 10 :: rest).length (line.drop 255 ++ 10 :: rest) := by
  have hcons : ∃ c others, line ++ 10 :: rest = c :: others := List.exists_cons_of_ne_nil (by simp)
  obtain ⟨c,others,heq⟩ := hcons
  rw [heq,lines_cons,← heq,fgets]
  simp only [(takeWhile_newline hline rest).1]
  split_ifs with hshort
  · rw [show line.length + 1 = (line ++ [10]).length by simp]
    rw [show line ++ 10 :: rest = (line ++ [10]) ++ rest by simp,List.take_left,List.drop_left]
  · rw [List.take_append_of_le_length (by omega),List.drop_append_of_le_length (by omega)]

theorem pieces_cons {line : Bytes} (hline : 10 ∉ line) (hne : line ≠ []) :
    pieces line = line.take 255 :: pieces (line.drop 255) := by
  obtain ⟨c,others,rfl⟩ := List.exists_cons_of_ne_nil hne
  rw [pieces,lines_cons,fgets]
  simp only [(takeWhile_newline hline []).2]
  split_ifs with hshort
  · rw [List.take_of_length_le (Nat.le_succ _),List.drop_eq_nil_of_le (Nat.le_succ _),
      List.take_of_length_le (by omega),List.drop_eq_nil_of_le (by omega)]
    rfl
  · rfl

theorem cText_newline (piece : Bytes) :
    cText (piece ++ [10]) = cText piece ++ [10] ∨ cText (piece ++ [10]) = cText piece := by
  unfold cText
  rw [List.takeWhile_append]
  split_ifs with h
  · left
    rw [(List.takeWhile_prefix _).eq_of_length h]
    rfl
  · exact Or.inr rfl

/-- The newline at the end of a piece is not seen. -/
theorem leadingStatement_newline {piece : Bytes} (hpiece : blank (cText piece) = false) :
    leadingStatement narrow (piece ++ [10]) = leadingStatement narrow piece := by
  rcases cText_newline piece with hseen | hseen
  · have hnewline : blank [10] = true := rfl
    have hwords := takeWhile_append_ends (p := fun c => !isspace c) (fun c hc => by simp [hc])
      ((cText piece).dropWhile isspace) (EndsWord.of_blank hnewline)
    unfold leadingStatement
    simp only [hseen,(dropWhile_append_of_not_blank hpiece [10]).1,hwords.1]
    rw [List.drop_append_of_le_length (List.takeWhile_prefix _).length_le,leadingInts_append_blank _ hnewline]
  · unfold leadingStatement
    rw [hseen]

theorem pieceReading_newline {piece : Bytes} (hne : piece ≠ []) (hline : 10 ∉ piece) :
    pieceReading narrow (piece ++ [10]) = pieceReading narrow piece := by
  have hhead : (piece ++ [10]).head? = piece.head? := List.head?_append_of_ne_nil _ hne
  have hnewline : piece.head? ≠ some 10 := fun h => hline (List.mem_of_mem_head? h)
  have hblank : blank (cText (piece ++ [10])) = blank (cText piece) := by
    rcases cText_newline piece with h | h
    · rw [h,blank_append]
      exact Bool.and_true _
    · rw [h]
  by_cases hquiet : Quiet piece
  · have hquiet' : Quiet (piece ++ [10]) := by rwa [Quiet,hhead,hblank]
    rw [pieceReading_quiet hquiet,pieceReading_quiet hquiet']
  · have hquiet' : ¬ Quiet (piece ++ [10]) := by rwa [Quiet,hhead,hblank]
    rw [pieceReading_loud hquiet hnewline,pieceReading_loud hquiet' (by rwa [hhead]),leadingStatement_newline]
    rw [Quiet,not_or] at hquiet
    simpa using hquiet.2

/-- A line is read by itself, whatever follows it. -/
theorem reading_line {line : Bytes} (hline : 10 ∉ line) (rest : Bytes) :
    readAll (pieceReading narrow) (lines (line ++ 10 :: rest).length (line ++ 10 :: rest)) =
      (lineReading narrow line).bind fun first =>
        (readAll (pieceReading narrow) (lines rest.length rest)).map (first ++ ·) := by
  induction hlength : line.length using Nat.strong_induction_on generalizing line with
  | _ n ih =>
    rw [lines_line hline,lineReading]
    by_cases hne : line = []
    · subst hne
      rfl
    rw [pieces_cons hline hne]
    split_ifs with hshort
    · rw [List.take_of_length_le (by omega),List.drop_eq_nil_of_le (by omega),readAll_cons,readAll_cons,
        pieceReading_newline hne hline]
      cases pieceReading narrow line with
      | none => rfl
      | some first => simp [pieces,lines,readAll]
    · have hpos := List.length_pos_iff.mpr hne
      have hrest := ih (line.drop 255).length (by rw [List.length_drop]; omega)
        (fun hmem => hline (List.mem_of_mem_drop hmem)) rfl
      rw [readAll_cons,readAll_cons,hrest,← lineReading]
      cases pieceReading narrow (line.take 255) with
      | none => rfl
      | some first =>
        cases lineReading narrow (line.drop 255) with
        | none => rfl
        | some others => cases readAll (pieceReading narrow) (lines rest.length rest) <;> simp

theorem physicalLines_line {line : Bytes} (hline : 10 ∉ line) (rest : Bytes) :
    physicalLines (line ++ 10 :: rest) = line :: physicalLines rest := by
  refine List.splitOnP_append_cons_of_forall_mem (fun c hc => ?_) 10 rfl rest
  rw [beq_eq_false_iff_ne]
  rintro rfl
  exact hline hc

theorem physicalLines_last {line : Bytes} (hline : 10 ∉ line) : physicalLines line = [line] := by
  refine List.splitOnP_eq_singleton fun c hc => ?_
  rw [beq_eq_false_iff_ne]
  rintro rfl
  exact hline hc

/-- A text is one line, or a line with a newline and more text behind it. -/
theorem lineInduction {motive : Bytes → Prop} (last : ∀ line, 10 ∉ line → motive line)
    (next : ∀ line rest, 10 ∉ line → motive rest → motive (line ++ 10 :: rest)) (text : Bytes) : motive text := by
  induction hlength : text.length using Nat.strong_induction_on generalizing text with
  | _ n ih =>
    by_cases hmem : 10 ∈ text
    · obtain ⟨line,rest,rfl,hline⟩ := List.eq_append_cons_of_mem hmem
      refine next line rest hline (ih rest.length ?_ rest rfl)
      rw [← hlength,List.length_append,List.length_cons]
      omega
    · exact last text hmem

theorem newline_notMem {text line : Bytes} (h : line ∈ physicalLines text) : 10 ∉ line := by
  induction text using lineInduction with
  | last only honly =>
    rw [physicalLines_last honly,List.mem_singleton] at h
    rwa [h]
  | next first rest hfirst ih =>
    rw [physicalLines_line hfirst] at h
    rcases List.mem_cons.mp h with rfl | hrest
    · exact hfirst
    · exact ih hrest

/-- The pieces of a file are read line by line. -/
theorem reading_text (text : Bytes) : readAll (pieceReading narrow) (lines text.length text) =
    readAll (lineReading narrow) (physicalLines text) := by
  induction text using lineInduction with
  | last line hline =>
    rw [physicalLines_last hline,readAll_cons,← pieces,← lineReading]
    cases lineReading narrow line <;> simp [readAll]
  | next line rest hline ih => rw [reading_line hline,physicalLines_line hline,readAll_cons,ih]

/-- Loading a file is running the statements that are read from its lines. -/
theorem loadCircuit_iff (text : Bytes) (c : Circuit) : loadCircuit narrow (some text) = .ok c ↔
    ∃ statements, readAll (lineReading narrow) (physicalLines text) = some statements ∧
      statements.foldlM Statement.run {} = .ok c := by
  rw [← reading_text]
  exact loadPieces_iff {} c _

theorem flatten_pieces {line : Bytes} (hline : 10 ∉ line) : (pieces line).flatten = line := by
  induction hlength : line.length using Nat.strong_induction_on generalizing line with
  | _ n ih =>
    by_cases hne : line = []
    · subst hne
      rfl
    have hpos := List.length_pos_iff.mpr hne
    have hrest := ih (line.drop 255).length (by rw [List.length_drop]; omega)
      (fun hmem => hline (List.mem_of_mem_drop hmem)) rfl
    rw [pieces_cons hline hne,List.flatten_cons,hrest,List.take_append_drop]

theorem mem_of_mem_piece {line piece : Bytes} {c : UInt8} (hline : 10 ∉ line) (hpiece : piece ∈ pieces line)
    (hc : c ∈ piece) : c ∈ line := by
  rw [← flatten_pieces hline]
  exact List.mem_flatten.mpr ⟨piece,hpiece,hc⟩

end Lines

end QbitNova.CircuitVM
