import QbitNova.Language.Lexemes

/-! # What the lexer reads, against the lexemes of the text

The lexemes of a text are read off it by the lexical rules alone, each with the place where
it starts and the text it covers. The scanning loop is put beside them with the same data.
The two agree until a bar and a state character stand without their bracket, or a newline
inside of a string has been left uncounted.
-/
namespace QbitNova.Language
open CText

/-- The lexemes with one spelling; a longer one stands before those it starts with. -/
def fixedLexemes : List (Bytes × TokenType) :=
  [(str "|0>", .state0), (str "|1>", .state1), (str "|+>", .statePlus), (str "|->", .stateMinus),
    (str "==", .eqeq), (str ">=", .gte), (str "<=", .lte), (str "=", .eq), (str ">", .gt), (str "<", .lt),
    (str "\x7b", .lbrace), (str "\x7d", .rbrace)]

def fixedAt? (text : Bytes) : Option (Bytes × TokenType) := fixedLexemes.find? (fun fixed => fixed.1.isPrefixOf text)

/-- A lexeme at the head of a text: its type, its value and the text it covers. -/
structure Reading where
  type : TokenType
  value : Bytes
  covered : Bytes
  deriving DecidableEq, Repr

/-- The lexical rules. A directive runs to the next whitespace, a string to the next quote or
to the end of the text; numbers and words are as long as they can be. -/
def readLexeme : Bytes → Option Reading
  | [] => none
  | c :: rest =>
    if c = 64 then
      some ⟨.directive, rest.takeWhile (fun d => !isspace d), c :: rest.takeWhile (fun d => !isspace d)⟩
    else if c = 34 then
      some ⟨.string, rest.takeWhile (· != 34), c :: (rest.takeWhile (· != 34) ++ (rest.dropWhile (· != 34)).take 1)⟩
    else match fixedAt? (c :: rest) with
    | some (spelling, type) => some ⟨type, spelling, spelling⟩
    | none =>
      if isdigit c then some ⟨.number, c :: rest.takeWhile isdigit, c :: rest.takeWhile isdigit⟩
      else if isalpha c || c == 95 then
        some ⟨wordType (c :: rest.takeWhile isWordByte), c :: rest.takeWhile isWordByte, c :: rest.takeWhile isWordByte⟩
      else none

/-- The bytes one step of reading takes: those of a lexeme, or one that starts none. -/
def taken (text : Bytes) : ℕ := (readLexeme text).elim 1 (fun r => r.covered.length)

theorem taken_skip {text : Bytes} (h : readLexeme text = none) : taken text = 1 := by
  unfold taken
  rw [h]
  rfl

theorem taken_read {text : Bytes} {r : Reading} (h : readLexeme text = some r) : taken text = r.covered.length := by
  unfold taken
  rw [h]
  rfl

/-- The lexemes of a text, each with its place. -/
def lexemesFrom : ℕ → ℕ → Bytes → List (ℕ × Reading)
  | fuel + 1, start, c :: rest =>
    (readLexeme (c :: rest)).toList.map (fun r => (start, r)) ++
      lexemesFrom fuel (start + taken (c :: rest)) ((c :: rest).drop (taken (c :: rest)))
  | _, _, _ => []

def lexemesIn (src : Bytes) : List (ℕ × Reading) := lexemesFrom src.length 0 src

/-- The texts that reading comes to. -/
def standsAt : ℕ → Bytes → List Bytes
  | fuel + 1, c :: rest => (c :: rest) :: standsAt fuel ((c :: rest).drop (taken (c :: rest)))
  | _, _ => []

/-- A bar with the character of a state, but without the bracket behind it. -/
def brokenState : Bytes → Bool
  | c :: rest => c == 124 && (stateToken? rest.head?).isSome && (rest.drop 1).head? != some 62
  | [] => false

def lineAt (src : Bytes) (start : ℕ) : ℕ := 1 + (src.take start).count 10

/-- A token with the place where its pass started and the text the pass took. -/
structure Placed where
  token : Token
  start : ℕ
  covered : Bytes
  deriving DecidableEq, Repr

/-- The scanning loop with the places of its tokens. -/
def placedFrom : ℕ → ℕ → Bytes → ℕ → List Placed
  | fuel + 1, start, c :: rest, line =>
    (scanPass c rest line).token?.toList.map (fun token =>
      ⟨token, start, (c :: rest).take ((c :: rest).length - (scanPass c rest line).rest.length)⟩) ++
      placedFrom fuel (start + ((c :: rest).length - (scanPass c rest line).rest.length)) (scanPass c rest line).rest
        (scanPass c rest line).line
  | _, _, _, _ => []

def placedTokens (src : Bytes) : List Placed := placedFrom src.length 0 src 1

/-- The token a lexeme should give. -/
def placedIn (src : Bytes) (lexeme : ℕ × Reading) : Placed :=
  ⟨⟨lexeme.2.type, lexeme.2.value, lineAt src lexeme.1⟩, lexeme.1, lexeme.2.covered⟩

/-- The tokens are the lexemes of the text, each with its value, its place, its line and the
text it covers. -/
def Exact (src : Bytes) : Prop := placedTokens src = (lexemesIn src).map (placedIn src)

instance (src : Bytes) : Decidable (Exact src) := inferInstanceAs (Decidable (_ = _))

/-- No state literal is left open, and no lexeme but the last one has a newline in it. -/
structure Plain (src : Bytes) : Prop where
  closed : ∀ text ∈ standsAt src.length src, brokenState text = false
  lines : ∀ lexeme ∈ (lexemesIn src).dropLast, 10 ∉ lexeme.2.covered

/-- The fixed lexemes in numbers. -/
theorem fixedLexemes_eq : fixedLexemes =
    [([124, 48, 62], .state0), ([124, 49, 62], .state1), ([124, 43, 62], .statePlus), ([124, 45, 62], .stateMinus),
      ([61, 61], .eqeq), ([62, 61], .gte), ([60, 61], .lte), ([61], .eq), ([62], .gt), ([60], .lt),
      ([123], .lbrace), ([125], .rbrace)] := rfl

theorem fixedAt_other {c : UInt8} (h : c ∉ [124, 61, 62, 60, 123, 125]) (rest : Bytes) : fixedAt? (c :: rest) = none := by
  simp only [List.mem_cons,List.not_mem_nil,or_false,not_or] at h
  obtain ⟨h124,h61,h62,h60,h123,h125⟩ := h
  have hne : ∀ d : UInt8, c ≠ d → (d == c) = false := fun d hd => beq_false_of_ne (Ne.symm hd)
  simp only [fixedAt?,fixedLexemes_eq,List.find?,List.isPrefixOf,hne _ h124,hne _ h61,hne _ h62,hne _ h60,hne _ h123,
    hne _ h125,Bool.false_and]

theorem fixedAt_operator {c : UInt8} (hc : c ∈ [61, 62, 60, 123, 125]) (rest : Bytes) :
    fixedAt? (c :: rest) = (operator? c rest.head?).map fun found => (found.2, found.1) := by
  simp only [List.mem_cons,List.not_mem_nil,or_false] at hc
  cases rest with
  | nil => rcases hc with rfl | rfl | rfl | rfl | rfl <;> rfl
  | cons d tail =>
    by_cases hd : d = 61
    · subst hd
      rcases hc with rfl | rfl | rfl | rfl | rfl <;> rfl
    · have hne : (61 == d) = false := beq_false_of_ne (Ne.symm hd)
      have hnext : some d ≠ some 61 := fun h => hd (Option.some.inj h)
      rcases hc with rfl | rfl | rfl | rfl | rfl <;>
      · simp only [fixedAt?,fixedLexemes_eq,List.find?,List.isPrefixOf,hne,List.head?_cons,operator?,hnext,
          and_false,if_false]
        rfl

theorem fixedAt_bar (rest : Bytes) :
    fixedAt? (124 :: rest) = if (rest.drop 1).head? = some 62 then
      (stateToken? rest.head?).map fun found => (found.2, found.1) else none := by
  rcases rest with _ | ⟨d,_ | ⟨e,tail⟩⟩
  · rfl
  · simp only [fixedAt?,fixedLexemes_eq,List.find?,List.isPrefixOf,Bool.and_false]
    rfl
  · by_cases he : e = 62
    · subst he
      by_cases hd : d ∈ [48, 49, 43, 45]
      · simp only [List.mem_cons,List.not_mem_nil,or_false] at hd
        rcases hd with rfl | rfl | rfl | rfl <;> rfl
      · simp only [List.mem_cons,List.not_mem_nil,or_false,not_or] at hd
        obtain ⟨h48,h49,h43,h45⟩ := hd
        have hne : ∀ k : UInt8, d ≠ k → (k == d) = false := fun k hk => beq_false_of_ne (Ne.symm hk)
        simp only [fixedAt?,fixedLexemes_eq,List.find?,List.isPrefixOf,stateToken?,List.head?_cons,Option.some.injEq,
          h48,h49,h43,h45,hne _ h48,hne _ h49,hne _ h43,hne _ h45,if_false]
        rfl
    · have hne : (62 == e) = false := beq_false_of_ne (Ne.symm he)
      have hnext : ((d :: e :: tail).drop 1).head? ≠ some 62 := fun h => he (Option.some.inj h)
      rw [if_neg hnext]
      simp only [fixedAt?,fixedLexemes_eq,List.find?,List.isPrefixOf,hne,Bool.false_and,Bool.and_false]
      rfl

theorem readLexeme_fixed {c : UInt8} (h64 : c ≠ 64) (h34 : c ≠ 34) {rest : Bytes} {fixed : Bytes × TokenType}
    (h : fixedAt? (c :: rest) = some fixed) : readLexeme (c :: rest) = some ⟨fixed.2, fixed.1, fixed.1⟩ := by
  simp only [readLexeme,h]
  rw [if_neg h64,if_neg h34]

theorem readLexeme_run {c : UInt8} (h64 : c ≠ 64) (h34 : c ≠ 34) {rest : Bytes} (h : fixedAt? (c :: rest) = none) :
    readLexeme (c :: rest) =
      if isdigit c then some ⟨.number, c :: rest.takeWhile isdigit, c :: rest.takeWhile isdigit⟩
      else if isalpha c || c == 95 then
        some ⟨wordType (c :: rest.takeWhile isWordByte), c :: rest.takeWhile isWordByte, c :: rest.takeWhile isWordByte⟩
      else none := by
  simp only [readLexeme,h]
  rw [if_neg h64,if_neg h34]

theorem readLexeme_none {c : UInt8} (h64 : c ≠ 64) (h34 : c ≠ 34) (hdigit : isdigit c = false)
    (hletter : (isalpha c || c == 95) = false) {rest : Bytes} (h : fixedAt? (c :: rest) = none) :
    readLexeme (c :: rest) = none := by
  rw [readLexeme_run h64 h34 h,if_neg (by simp [hdigit]),if_neg (by simp [hletter])]

theorem readLexeme_broken {c : UInt8} {rest : Bytes} (h : brokenState (c :: rest) = true) :
    readLexeme (c :: rest) = none := by
  simp only [brokenState,Bool.and_eq_true,beq_iff_eq,bne_iff_ne] at h
  obtain ⟨⟨rfl,-⟩,hopen⟩ := h
  have hfixed : fixedAt? (124 :: rest) = none := by rw [fixedAt_bar,if_neg hopen]
  exact readLexeme_none (by decide) (by decide) rfl rfl hfixed

/-- The pass that the lexical rules ask for. -/
def readPass (text : Bytes) (line : ℕ) : Pass :=
  match readLexeme text with
  | some r => ⟨some (addToken r.type r.value line), text.drop r.covered.length, line⟩
  | none => ⟨none, text.drop 1, line + (text.take 1).count 10⟩

/-- A string ends behind its quote, or with the text. -/
theorem drop_quoted (p : UInt8 → Bool) (text : Bytes) :
    text.drop (text.takeWhile p ++ (text.dropWhile p).take 1).length = (text.dropWhile p).drop 1 := by
  rw [List.length_append,← List.drop_drop,drop_takeWhile]
  cases text.dropWhile p <;> rfl

theorem scanPass_reads_blank {c : UInt8} (hc : isspace c = true) (rest : Bytes) (line : ℕ) :
    scanPass c rest line = readPass (c :: rest) line := by
  have hne : ∀ d : UInt8, 32 < d.toNat → c ≠ d := fun d hd => ne_of_isspace hc hd
  obtain ⟨hdigit,hletter⟩ := mark_plain (Or.inr hc)
  have hfixed : fixedAt? (c :: rest) = none := by
    apply fixedAt_other
    simp only [List.mem_cons,List.not_mem_nil,or_false,not_or]
    exact ⟨hne _ (by decide),hne _ (by decide),hne _ (by decide),hne _ (by decide),hne _ (by decide),hne _ (by decide)⟩
  unfold scanPass readPass
  rw [readLexeme_none (hne 64 (by decide)) (hne 34 (by decide)) hdigit hletter hfixed]
  by_cases h10 : c = 10
  · rw [if_pos h10,h10]
    rfl
  · rw [if_neg h10,if_pos hc]
    simp [List.count_cons_of_ne h10]

theorem scanPass_reads_bar {rest : Bytes} (h : brokenState (124 :: rest) = false) (line : ℕ) :
    scanPass 124 rest line = readPass (124 :: rest) line := by
  have hfixed := fixedAt_bar rest
  unfold scanPass readPass
  rw [if_neg (by decide),if_neg (by decide),if_neg (by decide),if_neg (by decide),if_pos rfl]
  cases hstate : stateToken? rest.head? with
  | none =>
    have hnone : fixedAt? (124 :: rest) = none := by
      rw [hfixed,hstate]
      exact ite_self _
    rw [readLexeme_none (by decide) (by decide) rfl rfl hnone]
    rfl
  | some found =>
    have hclosed : (rest.drop 1).head? = some 62 := by
      simpa [brokenState,hstate] using h
    rw [if_pos hclosed,hstate] at hfixed
    have hlength : found.2.length = 3 := by
      unfold stateToken? at hstate
      split_ifs at hstate <;> cases hstate <;> rfl
    rw [readLexeme_fixed (by decide) (by decide) hfixed]
    simp only [hlength]
    rfl

theorem operator_found {c : UInt8} (hc : c = 61 ∨ c = 62 ∨ c = 60 ∨ c = 123 ∨ c = 125) (next : Option UInt8) :
    ∃ found k, operator? c next = some found ∧ found.2.length = k + 1 := by
  by_cases hnext : next = some 61
  · subst hnext
    rcases hc with rfl | rfl | rfl | rfl | rfl <;> exact ⟨_,_,rfl,rfl⟩
  · obtain ⟨hgt,hlt,heq⟩ := operator_single hnext
    rcases hc with rfl | rfl | rfl | rfl | rfl
    · exact ⟨_,_,heq,rfl⟩
    · exact ⟨_,_,hgt,rfl⟩
    · exact ⟨_,_,hlt,rfl⟩
    · exact ⟨_,_,rfl,rfl⟩
    · exact ⟨_,_,rfl,rfl⟩

theorem scanPass_reads_operator {c : UInt8} (hc : c ∈ [61, 62, 60, 123, 125]) (rest : Bytes) (line : ℕ) :
    scanPass c rest line = readPass (c :: rest) line := by
  have hfixed := fixedAt_operator hc rest
  simp only [List.mem_cons,List.not_mem_nil,or_false] at hc
  obtain ⟨found,k,hfound,hk⟩ := operator_found hc rest.head?
  rw [hfound] at hfixed
  unfold scanPass readPass
  rcases hc with rfl | rfl | rfl | rfl | rfl <;>
  · rw [if_neg (by decide),if_neg (by decide),if_neg (by decide),if_neg (by decide),if_neg (by decide),
      readLexeme_fixed (by decide) (by decide) hfixed]
    simp only [hfound,hk]
    rfl

theorem scanPass_reads {c : UInt8} {rest : Bytes} (h : brokenState (c :: rest) = false) (line : ℕ) :
    scanPass c rest line = readPass (c :: rest) line := by
  by_cases hspace : isspace c = true
  · exact scanPass_reads_blank hspace rest line
  have hspace : isspace c = false := by simpa using hspace
  have h10 : c ≠ 10 := by
    rintro rfl
    cases hspace
  by_cases h64 : c = 64
  · subst h64
    have hdrop := drop_takeWhile (fun d => !isspace d) rest
    unfold scanPass readPass
    rw [if_neg (by decide),if_neg (by decide),if_pos rfl,← hdrop]
    rfl
  by_cases h34 : c = 34
  · subst h34
    have hdrop := drop_quoted (· != 34) rest
    unfold scanPass readPass
    rw [if_neg (by decide),if_neg (by decide),if_neg (by decide),if_pos rfl,← hdrop]
    rfl
  by_cases h124 : c = 124
  · subst h124
    exact scanPass_reads_bar h line
  by_cases hop : c ∈ [61, 62, 60, 123, 125]
  · exact scanPass_reads_operator hop rest line
  · simp only [List.mem_cons,List.not_mem_nil,or_false,not_or] at hop
    have hmark : c ∉ marks := by simp [marks,h10,h64,h34,h124,hop]
    have hfixed : fixedAt? (c :: rest) = none := fixedAt_other (by simp [h124,hop]) rest
    rw [scanPass_other hspace hmark]
    unfold readPass
    rw [readLexeme_run h64 h34 hfixed]
    split_ifs
    · rw [← drop_takeWhile]
      rfl
    · rw [← drop_takeWhile]
      rfl
    · simp [List.count_cons_of_ne h10]

theorem readLexeme_cases {c : UInt8} {rest : Bytes} {r : Reading} (h : readLexeme (c :: rest) = some r) :
    (c = 64 ∧ r = ⟨.directive, rest.takeWhile (fun d => !isspace d), c :: rest.takeWhile (fun d => !isspace d)⟩) ∨
    (c = 34 ∧ r = ⟨.string, rest.takeWhile (· != 34),
      c :: (rest.takeWhile (· != 34) ++ (rest.dropWhile (· != 34)).take 1)⟩) ∨
    (c ≠ 64 ∧ c ≠ 34 ∧ ∃ fixed ∈ fixedLexemes, fixed.1 <+: c :: rest ∧ r = ⟨fixed.2, fixed.1, fixed.1⟩) ∨
    (c ≠ 64 ∧ c ≠ 34 ∧ isdigit c = true ∧
      r = ⟨.number, c :: rest.takeWhile isdigit, c :: rest.takeWhile isdigit⟩) ∨
    (c ≠ 64 ∧ c ≠ 34 ∧ isdigit c = false ∧ (isalpha c || c == 95) = true ∧
      r = ⟨wordType (c :: rest.takeWhile isWordByte), c :: rest.takeWhile isWordByte, c :: rest.takeWhile isWordByte⟩) := by
  by_cases h64 : c = 64
  · subst h64
    exact Or.inl ⟨rfl,(Option.some.inj h).symm⟩
  by_cases h34 : c = 34
  · subst h34
    exact Or.inr (Or.inl ⟨rfl,(Option.some.inj h).symm⟩)
  cases hfixed : fixedAt? (c :: rest) with
  | some fixed =>
    rw [readLexeme_fixed h64 h34 hfixed] at h
    have hmem := List.mem_of_find?_eq_some hfixed
    have hstarts := List.find?_some hfixed
    exact Or.inr (Or.inr (Or.inl ⟨h64,h34,fixed,hmem,List.isPrefixOf_iff_prefix.mp hstarts,(Option.some.inj h).symm⟩))
  | none =>
    rw [readLexeme_run h64 h34 hfixed] at h
    split_ifs at h with hdigit hletter
    · exact Or.inr (Or.inr (Or.inr (Or.inl ⟨h64,h34,hdigit,(Option.some.inj h).symm⟩)))
    · exact Or.inr (Or.inr (Or.inr (Or.inr ⟨h64,h34,by simpa using hdigit,hletter,(Option.some.inj h).symm⟩)))

theorem readLexeme_covers {c : UInt8} {rest : Bytes} {r : Reading} (h : readLexeme (c :: rest) = some r) :
    ∃ first more, r.covered = first :: more ∧ r.covered ++ (c :: rest).drop r.covered.length = c :: rest := by
  have hhead : ∀ {covered : Bytes}, covered <+: c :: rest →
      covered ++ (c :: rest).drop covered.length = c :: rest :=
    fun hc => List.prefix_iff_eq_append.mp hc
  rcases readLexeme_cases h with
    ⟨-,rfl⟩ | ⟨-,rfl⟩ | ⟨-,-,fixed,hmem,hstarts,rfl⟩ | ⟨-,-,-,rfl⟩ | ⟨-,-,-,-,rfl⟩
  · refine ⟨_,_,rfl,hhead ?_⟩
    exact (List.prefix_cons_inj c).mpr (List.takeWhile_prefix _)
  · refine ⟨_,_,rfl,hhead ?_⟩
    apply (List.prefix_cons_inj c).mpr
    conv_rhs => rw [← List.takeWhile_append_dropWhile (p := (· != 34)) (l := rest)]
    exact (List.prefix_append_right_inj _).mpr (List.take_prefix 1 _)
  · have hall : fixedLexemes.all (fun fixed => fixed.1 != []) = true := rfl
    have hne := List.all_eq_true.mp hall fixed hmem
    obtain ⟨first,more,he⟩ := List.exists_cons_of_ne_nil (bne_iff_ne.mp hne)
    exact ⟨first,more,he,hhead hstarts⟩
  · refine ⟨_,_,rfl,hhead ?_⟩
    exact (List.prefix_cons_inj c).mpr (List.takeWhile_prefix _)
  · refine ⟨_,_,rfl,hhead ?_⟩
    exact (List.prefix_cons_inj c).mpr (List.takeWhile_prefix _)

theorem readLexeme_stored {c : UInt8} {rest : Bytes} {r : Reading} (h : readLexeme (c :: rest) = some r)
    (hfits : bufferFits c rest = true) : r.value.take 255 = r.value := by
  apply List.take_of_length_le
  unfold bufferFits at hfits
  rcases readLexeme_cases h with
    ⟨rfl,rfl⟩ | ⟨rfl,rfl⟩ | ⟨-,-,fixed,hmem,-,rfl⟩ | ⟨h64,h34,hdigit,rfl⟩ | ⟨h64,h34,hdigit,hletter,rfl⟩
  · rw [if_pos rfl] at hfits
    simp only [decide_eq_true_eq] at hfits
    exact Nat.le_of_lt_succ hfits
  · rw [if_neg (by decide),if_pos rfl] at hfits
    simp only [decide_eq_true_eq] at hfits
    exact Nat.le_of_lt_succ hfits
  · have hall : fixedLexemes.all (fun fixed => fixed.1.length ≤ 255) = true := rfl
    exact of_decide_eq_true (List.all_eq_true.mp hall fixed hmem)
  · rw [if_neg h64,if_neg h34,if_pos hdigit] at hfits
    simp only [decide_eq_true_eq] at hfits
    exact (Nat.le_of_lt hfits).trans (by decide)
  · rw [if_neg h64,if_neg h34,if_neg (by simp [hdigit]),if_pos hletter] at hfits
    simp only [decide_eq_true_eq] at hfits
    exact Nat.le_of_lt_succ hfits

theorem lineAt_append (done text : Bytes) : lineAt (done ++ text) done.length = 1 + done.count 10 := by
  unfold lineAt
  rw [List.take_left]

theorem placedFrom_read {c : UInt8} {rest : Bytes} (hclosed : brokenState (c :: rest) = false) {r : Reading}
    (hread : readLexeme (c :: rest) = some r) (hfits : bufferFits c rest = true) (fuel start line : ℕ) :
    placedFrom (fuel + 1) start (c :: rest) line = ⟨⟨r.type, r.value, line⟩, start, r.covered⟩ ::
      placedFrom fuel (start + r.covered.length) ((c :: rest).drop r.covered.length) line := by
  obtain ⟨-,-,-,hcovers⟩ := readLexeme_covers hread
  have hpass : scanPass c rest line = ⟨some ⟨r.type, r.value, line⟩, (c :: rest).drop r.covered.length, line⟩ := by
    rw [scanPass_reads hclosed]
    unfold readPass
    rw [hread]
    simp only [addToken,readLexeme_stored hread hfits]
  have hlength : (c :: rest).length - ((c :: rest).drop r.covered.length).length = r.covered.length := by
    have h := congrArg List.length hcovers
    rw [List.length_append] at h
    omega
  have htake : (c :: rest).take r.covered.length = r.covered := by
    conv_lhs => rw [← hcovers]
    exact List.take_left
  simp only [placedFrom,hpass,hlength,htake,Option.toList_some,List.map_cons,List.map_nil,List.singleton_append]

theorem placedFrom_skip {c : UInt8} {rest : Bytes} (hclosed : brokenState (c :: rest) = false)
    (hread : readLexeme (c :: rest) = none) (fuel start line : ℕ) :
    placedFrom (fuel + 1) start (c :: rest) line = placedFrom fuel (start + 1) rest (line + [c].count 10) := by
  have hpass : scanPass c rest line = ⟨none, rest, line + [c].count 10⟩ := by
    rw [scanPass_reads hclosed]
    unfold readPass
    rw [hread]
    rfl
  have hlength : (c :: rest).length - rest.length = 1 := by
    rw [List.length_cons]
    omega
  simp only [placedFrom,hpass,hlength,Option.toList_none,List.map_nil,List.nil_append]

theorem lexemesFrom_start (fuel start : ℕ) (text : Bytes) : ∀ lexeme ∈ lexemesFrom fuel start text, start ≤ lexeme.1 := by
  induction fuel generalizing start text with
  | zero => exact nofun
  | succ fuel ih =>
    cases text with
    | nil => exact nofun
    | cons c rest =>
      intro lexeme hl
      rcases List.mem_append.mp hl with hl | hl
      · obtain ⟨r,-,rfl⟩ := List.mem_map.mp hl
        exact Nat.le_refl _
      · exact (Nat.le_add_right _ _).trans (ih _ _ lexeme hl)

theorem placedFrom_broken {c : UInt8} {rest : Bytes} (h : brokenState (c :: rest) = true) (fuel start line : ℕ)
    (src : Bytes) :
    placedFrom (fuel + 1) start (c :: rest) line ≠ (lexemesFrom (fuel + 1) start (c :: rest)).map (placedIn src) := by
  have hread := readLexeme_broken h
  have htaken := taken_skip hread
  simp only [brokenState,Bool.and_eq_true,beq_iff_eq] at h
  obtain ⟨⟨rfl,hsome⟩,-⟩ := h
  obtain ⟨found,hfound⟩ := Option.isSome_iff_exists.mp hsome
  have hpass : scanPass 124 rest line = ⟨some (addToken found.1 found.2 line), rest.drop 2, line⟩ := by
    unfold scanPass
    rw [if_neg (by decide),if_neg (by decide),if_neg (by decide),if_neg (by decide),if_pos rfl]
    simp only [hfound]
  intro he
  have hmem : start ∈ (placedFrom (fuel + 1) start (124 :: rest) line).map Placed.start := by
    simp only [placedFrom,hpass,Option.toList_some,List.map_cons,List.map_nil,List.singleton_append,
      List.mem_cons,true_or]
  rw [he,List.map_map] at hmem
  obtain ⟨lexeme,hlexeme,hstart⟩ := List.mem_map.mp hmem
  simp only [lexemesFrom,hread,htaken,Option.toList_none,List.map_nil,List.nil_append] at hlexeme
  have hlater := lexemesFrom_start _ _ _ lexeme hlexeme
  have hstart : lexeme.1 = start := hstart
  omega

theorem inStep_cons (lexeme : ℕ × Reading) {later : List (ℕ × Reading)} {line before : ℕ} {closed : Prop} :
    (line = before ∧ closed ∧ (¬later = [] → line = before + lexeme.2.covered.count 10) ∧
      ∀ other ∈ later.dropLast, 10 ∉ other.2.covered) ↔
      closed ∧ line = before ∧ ∀ other ∈ (lexeme :: later).dropLast, 10 ∉ other.2.covered := by
  cases later with
  | nil =>
    simp
    tauto
  | cons other later =>
    rw [List.dropLast_cons_of_ne_nil (List.cons_ne_nil other later),List.forall_mem_cons]
    constructor
    · rintro ⟨rfl,hclosed,hline,hrest⟩
      have hcount := hline (List.cons_ne_nil other later)
      exact ⟨hclosed,rfl,List.count_eq_zero.mp (by omega),hrest⟩
    · rintro ⟨hclosed,rfl,hlexeme,hrest⟩
      refine ⟨rfl,hclosed,fun _ => ?_,hrest⟩
      rw [List.count_eq_zero.mpr hlexeme]
      rfl

theorem placedFrom_iff (fuel : ℕ) (done text : Bytes) (line : ℕ) (hfits : buffersFit fuel text = true) :
    placedFrom fuel done.length text line = (lexemesFrom fuel done.length text).map (placedIn (done ++ text)) ↔
      (∀ stand ∈ standsAt fuel text, brokenState stand = false) ∧
      (lexemesFrom fuel done.length text ≠ [] → line = 1 + done.count 10) ∧
      ∀ lexeme ∈ (lexemesFrom fuel done.length text).dropLast, 10 ∉ lexeme.2.covered := by
  induction fuel generalizing done text line with
  | zero => simp [placedFrom,lexemesFrom,standsAt]
  | succ fuel ih =>
    cases text with
    | nil => simp [placedFrom,lexemesFrom,standsAt]
    | cons c rest =>
      simp only [buffersFit,Bool.and_eq_true] at hfits
      obtain ⟨hfit,hfits⟩ := hfits
      cases hbroken : brokenState (c :: rest) with
      | true =>
        refine iff_of_false (placedFrom_broken hbroken _ _ _ _) fun h => ?_
        have hfalse := h.1 (c :: rest) List.mem_cons_self
        rw [hbroken] at hfalse
        cases hfalse
      | false =>
        rw [scanPass_reads hbroken] at hfits
        cases hread : readLexeme (c :: rest) with
        | none =>
          have htaken := taken_skip hread
          have hfits : buffersFit fuel rest = true := by
            simpa [readPass,hread] using hfits
          have hnext := ih (done ++ [c]) rest (line + [c].count 10) hfits
          rw [List.append_assoc,List.singleton_append,List.length_append,List.length_singleton,List.count_append] at hnext
          rw [placedFrom_skip hbroken hread]
          simp only [lexemesFrom,standsAt,hread,htaken,Option.toList_none,List.map_nil,List.nil_append,List.drop_succ_cons,
            List.drop_zero,List.forall_mem_cons,hbroken,true_and]
          rw [hnext,← Nat.add_assoc,Nat.add_right_cancel_iff]
        | some r =>
          have htaken := taken_read hread
          obtain ⟨-,-,-,hcovers⟩ := readLexeme_covers hread
          have hfits : buffersFit fuel ((c :: rest).drop r.covered.length) = true := by
            simpa [readPass,hread] using hfits
          have hnext := ih (done ++ r.covered) ((c :: rest).drop r.covered.length) line hfits
          rw [List.append_assoc,hcovers,List.length_append,List.count_append,← Nat.add_assoc] at hnext
          rw [placedFrom_read hbroken hread hfit]
          simp only [lexemesFrom,standsAt,hread,htaken,Option.toList_some,List.map_cons,List.map_nil,List.singleton_append,
            List.forall_mem_cons,hbroken,true_and,List.cons.injEq,placedIn,lineAt_append,Placed.mk.injEq,Token.mk.injEq,
            and_true,ne_eq,reduceCtorEq,not_false_eq_true,forall_const]
          rw [hnext]
          generalize lexemesFrom fuel (done.length + r.covered.length) ((c :: rest).drop r.covered.length) = later
          exact inStep_cons (done.length, r)

theorem scan_placed (fuel start : ℕ) (text : Bytes) (line : ℕ) :
    ∃ last, scan fuel text line = (placedFrom fuel start text line).map Placed.token ++
      [addToken .eof (str "EOF") last] := by
  induction fuel generalizing start text line with
  | zero => exact ⟨line,rfl⟩
  | succ fuel ih =>
    cases text with
    | nil => exact ⟨line,rfl⟩
    | cons c rest =>
      obtain ⟨last,hlast⟩ := ih (start + ((c :: rest).length - (scanPass c rest line).rest.length))
        (scanPass c rest line).rest (scanPass c rest line).line
      refine ⟨last,?_⟩
      simp only [scan,placedFrom,hlast,List.map_append,List.map_map,List.append_assoc]
      cases (scanPass c rest line).token? <;> rfl

theorem placedFrom_covered (fuel : ℕ) (done text : Bytes) (line : ℕ) :
    ∀ placed ∈ placedFrom fuel done.length text line, placed.covered <+: (done ++ text).drop placed.start := by
  induction fuel generalizing done text line with
  | zero => exact nofun
  | succ fuel ih =>
    cases text with
    | nil => exact nofun
    | cons c rest =>
      intro placed hp
      rcases List.mem_append.mp hp with hp | hp
      · obtain ⟨token,-,rfl⟩ := List.mem_map.mp hp
        rw [List.drop_left]
        exact List.take_prefix _ _
      · obtain ⟨before,hbefore⟩ := scanPass_suffix c rest line
        have hsplit : done ++ c :: rest = (done ++ c :: before) ++ (scanPass c rest line).rest := by
          conv_lhs => rw [← hbefore]
          simp
        have hlength : done.length + ((c :: rest).length - (scanPass c rest line).rest.length) =
            (done ++ c :: before).length := by
          have h := congrArg List.length hbefore
          simp only [List.length_append,List.length_cons] at h ⊢
          omega
        rw [hlength] at hp
        rw [hsplit]
        exact ih _ _ _ placed hp

/-- Within the storage of the lexer, the tokens before EOF are the lexemes of the text, with
their places, lines and values, exactly if the text is plain. -/
theorem tokenize_exact_iff {src : Bytes} {tokens : List Token} (h : tokenizeStored src = some tokens) :
    (∃ last, tokens = (placedTokens src).map Placed.token ++ [addToken .eof (str "EOF") last]) ∧
      (∀ placed ∈ placedTokens src, placed.covered <+: src.drop placed.start) ∧
      (Exact src ↔ Plain src) := by
  unfold tokenizeStored at h
  split_ifs at h with hfits
  obtain rfl := Option.some.inj h
  simp only [Bool.and_eq_true] at hfits
  refine ⟨scan_placed _ _ _ _,placedFrom_covered _ [] src 1,?_⟩
  have hiff := placedFrom_iff src.length [] src 1 hfits.1
  rw [List.nil_append,List.length_nil] at hiff
  constructor
  · intro hexact
    obtain ⟨hclosed,-,hlines⟩ := hiff.mp hexact
    exact ⟨hclosed,hlines⟩
  · rintro ⟨hclosed,hlines⟩
    exact hiff.mpr ⟨hclosed,fun _ => rfl,hlines⟩

/-- A text with a state literal, an operator and a newline in its last lexeme. -/
def plainText : Bytes := str "qbit q = |0>\ncheck q >= \"a\nb\""

theorem tokenize_exact_plain : Plain plainText ∧ Exact plainText := by
  have hplain : Plain plainText := ⟨by decide,by decide⟩
  have hstored : tokenizeStored plainText = some (tokenize plainText) := rfl
  exact ⟨hplain,(tokenize_exact_iff hstored).2.2.mpr hplain⟩

/-- Two texts that are not read as they stand: the letter behind an open state literal is
swallowed with it, and the word behind a string of two lines is put on the first one. -/
theorem tokenize_inexact :
    tokenizeStored (str "|0x") = some [⟨.state0, str "|0>", 1⟩, ⟨.eof, str "EOF", 1⟩] ∧ ¬Exact (str "|0x") ∧
    tokenizeStored (str "\"a\nb\" x") =
      some [⟨.string, str "a\nb", 1⟩, ⟨.ident, str "x", 1⟩, ⟨.eof, str "EOF", 1⟩] ∧ ¬Exact (str "\"a\nb\" x") := by
  decide

end QbitNova.Language
