import QbitNova.Language.Otherwise

/-! # Runs of checks with an otherwise block

The run the documented grammar asks for takes exactly one of the two blocks of a check,
and a block as often as the check or repeat around it says. The compiled program takes
the second block always, once it gets there, and what follows the block of an otherwise or
of an action inside a block as if it stood behind that block. The two runs are the same as
long as neither makes a difference.
-/
namespace QbitNova.Otherwise
open CText QbitNova.Language

section Meaning
variable {D : Type} [Doubles D] (rand : ℕ → ℤ)

def Condition.holds (c : Condition) (s : Session D) : Bool :=
  (s.vm.evalCheck c.name.text c.comparison.spelling.2 (atoi c.value.text)).1

/-- The session after the condition has been looked at. -/
def Condition.tested (c : Condition) (s : Session D) : Session D :=
  s.perform rand (.check c.name.text c.comparison.spelling.2 (atoi c.value.text))

def rounds (count : Numeral) : ℕ := (atoi count.text).toNat

mutual

/-- The run of a statement that the documented grammar asks for. The documents do not say
what the value of a comparison is, nor when the block of an action runs: here the variable
gets what the first word of the value stands for, and the block follows its action. -/
def Documented.run : Documented → Session D → Session D
  | .simple statement _, s => exec rand (statement.tree .null) s
  | .directive _, s => s
  | .letExpression name c, s => s.perform rand (.setVar name.text c.name.text)
  | .actionBlock name body, s => runBlock body (s.perform rand (.safeAction name.text))
  | .check c body, s => if c.holds s then runBlock body (c.tested rand s) else c.tested rand s
  | .checkOtherwise c body other, s =>
    if c.holds s then runBlock body (c.tested rand s) else runBlock other (c.tested rand s)
  | .repeatLoop count body, s => (runBlock body)^[rounds count] s

def runBlock : List Documented → Session D → Session D
  | [], s => s
  | d :: rest, s => runBlock rest (d.run s)

end

/-- The run of what the parser reads. -/
def runPieces (pieces : List Piece) (s : Session D) : Session D := exec rand (chain (pieceTrees pieces)) s

end Meaning

mutual

/-- Nothing is performed, whatever the state: names, and repeats of nothing or of no rounds. -/
def Piece.idle : Piece → Bool
  | .simple _ _ => false
  | .letWord _ _ => false
  | .check _ _ => false
  | .repeatLoop count body => rounds count == 0 || allIdle body
  | .otherwise => true
  | .lbrace => true
  | .operator _ => true
  | .number _ => true
  | .directive _ => true

def allIdle : List Piece → Bool
  | [] => true
  | p :: rest => p.idle && allIdle rest

end

/-- What stands in a block behind the first closing brace without a partner, where the brace
after an otherwise or after the name of an action is no partner for any. -/
def spilled (body : List Documented) : List Piece := (readings body).outside.flatten

section Meaning
variable {D : Type} [Doubles D] (rand : ℕ → ℤ)

mutual

/-- As the documented run goes along, no check that holds has an otherwise block that
would perform something, and a block behind which something to perform is spilled is run
exactly once. -/
def Obeys : Documented → Session D → Prop
  | .simple _ _, _ => True
  | .directive _, _ => True
  | .letExpression _ _, _ => True
  | .actionBlock name body, s => ObeysBlock body (s.perform rand (.safeAction name.text))
  | .check c body, s =>
    (c.holds s = true → ObeysBlock body (c.tested rand s)) ∧ (c.holds s = false → allIdle (spilled body) = true)
  | .checkOtherwise c body other, s =>
    (c.holds s = true → ObeysBlock body (c.tested rand s) ∧ allIdle (readings other).pieces = true) ∧
    (c.holds s = false → ObeysBlock other (c.tested rand s) ∧ allIdle (spilled body) = true)
  | .repeatLoop count body, s =>
    (∀ i < rounds count, ObeysBlock body ((runBlock rand body)^[i] s)) ∧
    (rounds count = 1 ∨ allIdle (spilled body) = true)

def ObeysBlock : List Documented → Session D → Prop
  | [], _ => True
  | d :: rest, s => Obeys d s ∧ ObeysBlock rest (d.run rand s)

end

theorem exec_withNext {n : Node} (h : Unlinked n) (next : Node) (s : Session D) :
    exec rand (n.withNext next) s = exec rand next (exec rand n s) := by
  obtain ⟨type,value,left,right,body,rfl⟩ := h
  rfl

theorem runPieces_cons (p : Piece) (rest : List Piece) (s : Session D) :
    runPieces rand (p :: rest) s = runPieces rand rest (exec rand p.tree s) :=
  exec_withNext rand p.unlinked _ s

theorem runPieces_append (first second : List Piece) (s : Session D) :
    runPieces rand (first ++ second) s = runPieces rand second (runPieces rand first s) := by
  induction first generalizing s with
  | nil => rfl
  | cons p first ih => rw [List.cons_append,runPieces_cons,runPieces_cons,ih]

theorem exec_check (c : Condition) (body : List Piece) (s : Session D) :
    exec rand (Piece.check c body).tree s =
      if c.holds s then runPieces rand body (c.tested rand s) else c.tested rand s := rfl

theorem exec_repeat (count : Numeral) (body : List Piece) (s : Session D) :
    exec rand (Piece.repeatLoop count body).tree s = (runPieces rand body)^[rounds count] s := rfl

mutual

theorem Piece.exec_idle : ∀ (p : Piece) (s : Session D), p.idle = true → exec rand p.tree s = s
  | .repeatLoop count body, s, h => by
    rw [exec_repeat]
    rcases Bool.or_eq_true_iff.mp h with h | h
    · rw [beq_iff_eq.mp h]
      rfl
    · exact Function.iterate_fixed (runPieces_idle body s h) _
  | .otherwise, s, _ => rfl
  | .lbrace, s, _ => rfl
  | .operator c, s, _ => rfl
  | .number n, s, _ => rfl
  | .directive d, s, _ => rfl

theorem runPieces_idle : ∀ (pieces : List Piece) (s : Session D), allIdle pieces = true → runPieces rand pieces s = s
  | [], s, _ => rfl
  | p :: rest, s, h => by
    obtain ⟨hp,hrest⟩ := Bool.and_eq_true_iff.mp h
    rw [runPieces_cons,p.exec_idle s hp,runPieces_idle rest s hrest]

end

/-- A stretch runs as what stays in its block, then what is spilled. -/
theorem run_inside (body : List Documented) (s : Session D) :
    runPieces rand (spilled body) (runPieces rand (readings body).inside s) =
      runPieces rand (readings body).pieces s :=
  (runPieces_append rand _ _ s).symm

theorem run_otherwise (c : Condition) (body other : List Documented) (s : Session D) :
    runPieces rand (reading (.checkOtherwise c body other)).pieces s =
      runPieces rand (readings other).pieces (runPieces rand (spilled body)
        (if c.holds s then runPieces rand (readings body).inside (c.tested rand s) else c.tested rand s)) := by
  have hother : Reading.pieces ⟨.otherwise :: .lbrace :: (readings other).inside, (readings other).outside ++ [[]]⟩ =
      [.otherwise, .lbrace] ++ (readings other).pieces := by
    simp [Reading.pieces]
  rw [reading,then_pieces,block_pieces,hother,runPieces_append,runPieces_append,
    runPieces_idle rand [.otherwise, .lbrace] _ rfl,runPieces_cons,exec_check]
  rfl

theorem run_actionBlock (name : Word) (body : List Documented) (s : Session D) :
    runPieces rand (reading (.actionBlock name body)).pieces s =
      runPieces rand (readings body).pieces (s.perform rand (.safeAction name.text)) := by
  have hpieces : (reading (.actionBlock name body)).pieces =
      [.simple (.action name) rfl, .lbrace] ++ (readings body).pieces := by
    simp [reading,Reading.pieces]
  rw [hpieces,runPieces_append]
  rfl

/-- Two functions that agree along the rounds of one have the same rounds. -/
theorem iterate_eq {σ : Type} {f g : σ → σ} {s : σ} {n : ℕ} (h : ∀ i < n, f (g^[i] s) = g (g^[i] s)) :
    f^[n] s = g^[n] s := by
  induction n with
  | zero => rfl
  | succ n ih =>
    rw [Function.iterate_succ_apply',Function.iterate_succ_apply',ih fun i hi => h i (Nat.lt_succ_of_lt hi)]
    exact h n (Nat.lt_succ_self n)

mutual

/-- What is read runs as documented. One case for each form; a block that is run once
takes what is spilled from it along, and in the other cases that is idle. -/
theorem run_reading : ∀ (d : Documented) (s : Session D), Obeys rand d s →
    runPieces rand (reading d).pieces s = d.run rand s
  | .simple statement h, s, _ => runPieces_cons rand (.simple statement h) [] s
  | .directive d, s, _ => rfl
  | .letExpression name c, s, _ => rfl
  | .actionBlock name body, s, h => by
    rw [run_actionBlock,run_readings body _ h,Documented.run]
  | .check c body, s, h => by
    rw [reading,block_pieces,runPieces_cons,exec_check,Documented.run]
    cases hc : c.holds s with
    | true =>
      simp only [↓reduceIte]
      exact (run_inside rand body _).trans (run_readings body _ (h.1 hc))
    | false =>
      simp only [Bool.false_eq_true,↓reduceIte]
      exact runPieces_idle rand _ _ (h.2 hc)
  | .checkOtherwise c body other, s, h => by
    rw [run_otherwise,Documented.run]
    cases hc : c.holds s with
    | true =>
      obtain ⟨hbody,hother⟩ := h.1 hc
      simp only [↓reduceIte]
      rw [run_inside,runPieces_idle rand _ _ hother,run_readings body _ hbody]
    | false =>
      obtain ⟨hother,hidle⟩ := h.2 hc
      simp only [Bool.false_eq_true,↓reduceIte]
      rw [runPieces_idle rand _ _ hidle,run_readings other _ hother]
  | .repeatLoop count body, s, h => by
    obtain ⟨hrounds,hspilled⟩ := h
    have hround : ∀ i < rounds count, runPieces rand (readings body).pieces ((runBlock rand body)^[i] s) =
        runBlock rand body ((runBlock rand body)^[i] s) := fun i hi => run_readings body _ (hrounds i hi)
    rw [reading,block_pieces,runPieces_cons,exec_repeat,Documented.run]
    rcases hspilled with hone | hidle
    · rw [hone] at hround ⊢
      exact (run_inside rand body s).trans (hround 0 Nat.one_pos)
    · rw [← iterate_eq hround]
      refine (runPieces_idle rand _ _ hidle).trans (congrFun (congrArg (fun f => f^[rounds count]) ?_) s)
      funext t
      rw [← run_inside,runPieces_idle rand _ _ hidle]

theorem run_readings : ∀ (body : List Documented) (s : Session D), ObeysBlock rand body s →
    runPieces rand (readings body).pieces s = runBlock rand body s
  | [], s, _ => rfl
  | d :: rest, s, h => by
    rw [readings,then_pieces,runPieces_append,run_reading d s h.1,run_readings rest _ h.2,runBlock]

end

omit [Doubles D] in
theorem rounds_actions {f : Session D → Session D} (h : ∀ s, s.actions.length ≤ (f s).actions.length) (k : ℕ)
    (s : Session D) : s.actions.length ≤ (f^[k] s).actions.length := by
  induction k generalizing s with
  | zero => exact Nat.le_refl _
  | succ k ih => exact (h s).trans (ih _)

theorem exec_actions (n : Node) (s : Session D) : s.actions.length ≤ (exec rand n s).actions.length := by
  induction n generalizing s with
  | null => exact Nat.le_refl _
  | node type value left right body next ihleft ihright ihbody ihnext =>
    have hperform : ∀ (t : Session D) (action : Action),
        t.actions.length ≤ (t.perform rand action).actions.length := by
      intro t action
      simp [Session.perform]
    refine le_trans ?_ (ihnext _)
    cases type with
    | check =>
      dsimp only
      split
      · exact (hperform s _).trans (ihbody _)
      · exact hperform s _
    | repeatLoop => exact rounds_actions ihbody _ s
    | block => exact ihbody s
    | program => exact Nat.le_refl _
    | binop => exact Nat.le_refl _
    | string => exact Nat.le_refl _
    | number => exact Nat.le_refl _
    | ident => exact Nat.le_refl _
    | state => exact Nat.le_refl _
    | _ => exact hperform s _

theorem simple_performs {statement : Statement} (h : isSimple statement = true) (s : Session D) :
    s.actions.length < (exec rand (statement.tree .null) s).actions.length := by
  have hperform : ∀ action : Action, s.actions.length < (s.perform rand action).actions.length := by
    intro action
    simp [Session.perform]
  cases statement with
  | check name comparison value body => cases h
  | repeatLoop count body => cases h
  | bare name hident => cases h
  | _ => exact hperform _

mutual

theorem Piece.performs : ∀ (p : Piece) (s : Session D), p.idle = false →
    s.actions.length < (exec rand p.tree s).actions.length
  | .simple statement hsimple, s, _ => simple_performs rand hsimple s
  | .letWord name value, s, _ => by
    show s.actions.length < (s.perform rand (.setVar name.text value.text)).actions.length
    simp [Session.perform]
  | .check c body, s, _ => by
    have htested : s.actions.length < (c.tested rand s).actions.length := by
      simp [Condition.tested,Session.perform]
    rw [exec_check]
    split
    · exact htested.trans_le (exec_actions rand _ _)
    · exact htested
  | .repeatLoop count body, s, h => by
    obtain ⟨hcount,hbody⟩ := Bool.or_eq_false_iff.mp h
    obtain ⟨k,hk⟩ := Nat.exists_eq_succ_of_ne_zero (beq_eq_false_iff_ne.mp hcount)
    rw [exec_repeat,hk]
    exact (pieces_perform body s hbody).trans_le (rounds_actions (exec_actions rand _) k _)

theorem pieces_perform : ∀ (pieces : List Piece) (s : Session D), allIdle pieces = false →
    s.actions.length < (runPieces rand pieces s).actions.length
  | p :: rest, s, h => by
    rw [runPieces_cons]
    rcases Bool.and_eq_false_iff.mp h with h | h
    · exact (p.performs s h).trans_le (exec_actions rand _ _)
    · exact (exec_actions rand p.tree s).trans_lt (pieces_perform rest _ h)

end

end Meaning

mutual

/-- No otherwise and no action with a block in it. -/
def Documented.plain : Documented → Bool
  | .simple _ _ => true
  | .directive _ => true
  | .letExpression _ _ => true
  | .actionBlock _ _ => false
  | .check _ body => allPlain body
  | .checkOtherwise _ _ _ => false
  | .repeatLoop _ body => allPlain body

def allPlain : List Documented → Bool
  | [] => true
  | d :: rest => d.plain && allPlain rest

end

/-- No otherwise and no action with a block inside of a block. -/
def Documented.atTop : Documented → Bool
  | .actionBlock _ body => allPlain body
  | .checkOtherwise _ body other => allPlain body && allPlain other
  | d => d.plain

mutual

theorem reading_plain : ∀ d : Documented, d.plain = true → (reading d).outside = []
  | .simple _ _, _ => rfl
  | .directive _, _ => rfl
  | .letExpression _ _, _ => rfl
  | .check c body, h => by rw [reading,Reading.block,readings_plain body h]
  | .repeatLoop count body, h => by rw [reading,Reading.block,readings_plain body h]

theorem readings_plain : ∀ body : List Documented, allPlain body = true → (readings body).outside = []
  | [], _ => rfl
  | d :: rest, h => by
    obtain ⟨hd,hrest⟩ := Bool.and_eq_true_iff.mp h
    rw [readings,Reading.then,reading_plain d hd,joined,readings_plain rest hrest]

end

/-- Nothing is spilled from a plain block. -/
theorem spilled_plain {body : List Documented} (h : allPlain body = true) : allIdle (spilled body) = true := by
  rw [spilled,readings_plain body h]
  rfl

section Exactness
variable {D : Type} [Doubles D] (rand : ℕ → ℤ)

mutual

theorem plain_obeys : ∀ (d : Documented) (s : Session D), d.plain = true → Obeys rand d s
  | .simple _ _, _, _ => trivial
  | .directive _, _, _ => trivial
  | .letExpression _ _, _, _ => trivial
  | .check _ body, _, h => ⟨fun _ => allPlain_obeys body _ h,fun _ => spilled_plain h⟩
  | .repeatLoop _ body, _, h => ⟨fun _ _ => allPlain_obeys body _ h,Or.inr (spilled_plain h)⟩

theorem allPlain_obeys : ∀ (body : List Documented) (s : Session D), allPlain body = true → ObeysBlock rand body s
  | [], _, _ => trivial
  | d :: rest, s, h =>
    ⟨plain_obeys d s (Bool.and_eq_true_iff.mp h).1,allPlain_obeys rest _ (Bool.and_eq_true_iff.mp h).2⟩

end

/-- Outside of blocks a check with an otherwise runs as documented only if it obeys: an
otherwise block that performs something lengthens the actions. -/
theorem obeys_of_run {d : Documented} (htop : d.atTop = true) {s : Session D}
    (h : runPieces rand (reading d).pieces s = d.run rand s) : Obeys rand d s := by
  cases d with
  | checkOtherwise c body other =>
    obtain ⟨hbody,hother⟩ := Bool.and_eq_true_iff.mp htop
    refine ⟨fun hc => ⟨allPlain_obeys rand body _ hbody,?_⟩,
      fun _ => ⟨allPlain_obeys rand other _ hother,spilled_plain hbody⟩⟩
    rw [run_otherwise,Documented.run,if_pos hc,if_pos hc,run_inside,
      run_readings rand body _ (allPlain_obeys rand body _ hbody)] at h
    by_contra hidle
    have hlonger := pieces_perform rand _ (runBlock rand body (c.tested rand s)) (Bool.eq_false_iff.mpr hidle)
    rw [h] at hlonger
    exact lt_irrefl _ hlonger
  | simple statement hsimple => exact plain_obeys rand _ s htop
  | directive d => exact plain_obeys rand _ s htop
  | letExpression name c => exact plain_obeys rand _ s htop
  | actionBlock name body => exact allPlain_obeys rand body _ htop
  | check c body => exact plain_obeys rand _ s htop
  | repeatLoop count body => exact plain_obeys rand _ s htop

theorem run_cons (d : Documented) (rest : List Documented) (s : Session D) :
    runPieces rand (readings (d :: rest)).pieces s =
      runPieces rand (readings rest).pieces (runPieces rand (reading d).pieces s) := by
  rw [readings,then_pieces,runPieces_append]

/-- Where every beginning of a program runs as documented, its statements obey one after
the other. -/
theorem obeys_of_prefixes (program : List Documented) (htop : program.all Documented.atTop = true) (s : Session D)
    (h : ∀ q, q <+: program → runPieces rand (readings q).pieces s = runBlock rand q s) :
    ObeysBlock rand program s := by
  induction program generalizing s with
  | nil => trivial
  | cons d rest ih =>
    rw [List.all_cons,Bool.and_eq_true] at htop
    have hfirst : runPieces rand (reading d).pieces s = d.run rand s := by
      have hone := h [d] ⟨rest,rfl⟩
      rw [run_cons] at hone
      exact hone
    refine ⟨obeys_of_run rand htop.1 hfirst,ih htop.2 _ fun q hq => ?_⟩
    have hmore := h (d :: q) ((List.prefix_cons_inj d).mpr hq)
    rw [run_cons,hfirst] at hmore
    exact hmore

theorem ObeysBlock.of_prefix {q program : List Documented} (hq : q <+: program) {s : Session D}
    (h : ObeysBlock rand program s) : ObeysBlock rand q s := by
  induction q generalizing program s with
  | nil => trivial
  | cons d q ih =>
    obtain ⟨rest,rfl⟩ := hq
    exact ⟨h.1,ih ⟨rest,rfl⟩ h.2⟩

end Exactness

section Programs
variable {D : Type} [Doubles D] (rand : ℕ → ℤ)

/-- The piece of an item outside of the blocks. -/
def TopLevel.piece? : TopLevel → Option Piece
  | .piece p => some p
  | .rbrace => none

theorem topLevel_pieces (r : Reading) : (topLevel r).filterMap TopLevel.piece? = r.pieces := by
  have hpieces : ∀ pieces : List Piece, (pieces.map TopLevel.piece).filterMap TopLevel.piece? = pieces := by
    intro pieces
    rw [List.filterMap_map]
    exact List.filterMap_some
  rw [topLevel,List.filterMap_append,hpieces,List.filterMap_flatMap,Reading.pieces,← List.flatMap_id]
  exact congrArg (r.inside ++ ·) (congrArg (r.outside.flatMap ·) (funext fun pieces => hpieces pieces))

/-- Braces and directives leave nothing to run. -/
theorem exec_topLevel (items : List TopLevel) (s : Session D) :
    exec rand (chain (items.filterMap TopLevel.node)) s = runPieces rand (items.filterMap TopLevel.piece?) s := by
  induction items generalizing s with
  | nil => rfl
  | cons item items ih =>
    cases item with
    | rbrace => exact ih s
    | piece p =>
      rw [List.filterMap_cons_some (rfl : (TopLevel.piece p).piece? = some p),runPieces_cons,← ih]
      have hp := p.unlinked
      cases p with
      | directive d => rfl
      | _ => exact exec_withNext rand hp _ s

/-- The printed program is tokenized, parsed and compiled inside the fixed storage, and the
machine ends in the session. -/
def Runs (program : List Documented) (layout : Layout) (vm : VM D) (session : Session D) : Prop :=
  ∃ toks body code, tokenizeStored (layout.print (blockLexemes program)) = some toks ∧
    parse toks = .ok (.node .program (str "program") .null .null body .null) ∧ compile body [] = .ok code ∧
    ∃ fuel, ∀ extra, runBytecode rand code (fuel + extra) vm = some session

theorem Runs.unique {program : List Documented} {layout : Layout} {vm : VM D} {s t : Session D}
    (hs : Runs rand program layout vm s) (ht : Runs rand program layout vm t) : s = t := by
  obtain ⟨toks,body,code,htoks,hparse,hcode,fuel,hrun⟩ := hs
  obtain ⟨toks',body',code',htoks',hparse',hcode',fuel',hrun'⟩ := ht
  cases htoks.symm.trans htoks'
  cases hparse.symm.trans hparse'
  cases hcode.symm.trans hcode'
  have hsame := hrun' fuel
  rw [Nat.add_comm,hrun fuel'] at hsame
  exact Option.some.inj hsame

/-- Every documented program that fits runs as it is read. -/
theorem runs_reading {program : List Documented} (h : Fitting program) (layout : Layout) (vm : VM D) :
    Runs rand program layout vm (runPieces rand (readings program).pieces ⟨vm.print banner, []⟩) := by
  have htokens := tokenizeStored_print layout h.tokens h.stored
  have hparse := parse_reading (tokenize_print layout (blockLexemes program))
  have hwf := (parse_wellFormed hparse).2.1
  have hcode := compile_eq (chain (topNodes program)) [] hwf h.lexemesFit (by simpa using h.code)
  rw [List.nil_append] at hcode
  obtain ⟨fuel,hrun⟩ := run_codeOf rand (chain (topNodes program)) vm (fits_of_repeatDepth rand _ _ h.repeatDepth)
  refine ⟨_,_,_,htokens,hparse,hcode,fuel,fun extra => ?_⟩
  rw [hrun extra,topNodes,exec_topLevel,topLevel_pieces]

theorem blockLexemes_append (q rest : List Documented) :
    blockLexemes (q ++ rest) = blockLexemes q ++ blockLexemes rest := by
  induction q with
  | nil => rfl
  | cons d q ih => rw [List.cons_append,blockLexemes,blockLexemes,ih,List.append_assoc]

theorem blockDepth_append (q rest : List Documented) : blockDepth q ≤ blockDepth (q ++ rest) := by
  induction q with
  | nil => exact Nat.zero_le _
  | cons d q ih => exact max_le_max_left _ ih

theorem Fitting.of_prefix {q program : List Documented} (hq : q <+: program) (h : Fitting program) : Fitting q := by
  obtain ⟨rest,rfl⟩ := hq
  have htokens := h.tokens
  have htexts := h.texts
  rw [blockLexemes_append] at htokens htexts
  rw [List.length_append] at htokens
  exact ⟨by omega,htexts.append.1,(blockDepth_append q rest).trans h.depth⟩

/-- A documented program that fits is run to an end, and to the end the grammar asks for if
it obeys along the way: no check that holds has an otherwise block that performs something,
and a block from which something to perform is spilled is run exactly once. Where no
otherwise and no action with a block stands inside a block, this is also needed for the
program and its beginnings to run as documented. -/
theorem otherwise_runs (program : List Documented) (hfit : Fitting program) (layout : Layout) (vm : VM D) :
    (∃ session, Runs rand program layout vm session) ∧
    (ObeysBlock rand program ⟨vm.print banner, []⟩ →
      Runs rand program layout vm (runBlock rand program ⟨vm.print banner, []⟩)) ∧
    (program.all Documented.atTop = true →
      ((∀ q, q <+: program → Runs rand q layout vm (runBlock rand q ⟨vm.print banner, []⟩)) ↔
        ObeysBlock rand program ⟨vm.print banner, []⟩)) := by
  have hobeys : ∀ {q : List Documented}, Fitting q → ObeysBlock rand q ⟨vm.print banner, []⟩ →
      Runs rand q layout vm (runBlock rand q ⟨vm.print banner, []⟩) := by
    intro q hq h
    have hruns := runs_reading rand hq layout vm
    rw [run_readings rand q _ h] at hruns
    exact hruns
  refine ⟨⟨_,runs_reading rand hfit layout vm⟩,hobeys hfit,fun htop => ⟨fun h => ?_,fun h q hq => ?_⟩⟩
  · refine obeys_of_prefixes rand program htop _ fun q hq => ?_
    exact (runs_reading rand (hfit.of_prefix hq) layout vm).unique rand (h q hq)
  · exact hobeys (hfit.of_prefix hq) (h.of_prefix rand hq)

end Programs

theorem numeralText_one : numeralText (str "1") = true := by decide
theorem numeralText_two : numeralText (str "2") = true := by decide
theorem numeralText_three : numeralText (str "3") = true := by decide
theorem wordText_led_on : wordText (str "led_on") = true := by decide

def letX (value : Numeral) : Documented := .simple (.letBinding ⟨str "x", wordText_x⟩ value) rfl

/-- `say` of a text of one byte. -/
def sayText (c : UInt8) (h : (c != 34 && c != 0) = true) : Documented := .simple (.say (.text ⟨[c], by simpa using h⟩)) rfl

def largeX : Condition := ⟨⟨str "x", wordText_x⟩, .gt, ⟨str "3", numeralText_three⟩⟩

/-- A check of `x > 3` between `say "a"` and `say "b"`. -/
def eitherOr : Documented := .checkOtherwise largeX [sayText 97 rfl] [sayText 98 rfl]

/-- `x` is small in each of the two rounds, and nothing follows the otherwise block. -/
def smallTwice : List Documented :=
  [letX ⟨str "1", numeralText_one⟩, .repeatLoop ⟨str "2", numeralText_two⟩ [eitherOr], sayText 99 rfl]

/-- The session a program starts in. -/
def freshSession : Session ℤ := ⟨(emptyVM ℤ).print banner, []⟩

theorem smallTwice_obeys : @ObeysBlock ℤ wholeDoubles (fun _ => 0) smallTwice freshSession := by
  refine ⟨trivial,⟨fun i hi => ?_,Or.inr rfl⟩,trivial,trivial⟩
  have hcases : i = 0 ∨ i = 1 := by
    have htwo : i < 2 := hi
    omega
  rcases hcases with rfl | rfl
  · exact ⟨⟨fun hc => (by cases hc),fun _ => ⟨⟨trivial,trivial⟩,rfl⟩⟩,trivial⟩
  · exact ⟨⟨fun hc => (by cases hc),fun _ => ⟨⟨trivial,trivial⟩,rfl⟩⟩,trivial⟩

theorem otherwise_runs_smallTwice :
    Fitting smallTwice ∧ @ObeysBlock ℤ wholeDoubles (fun _ => 0) smallTwice freshSession ∧
    @Runs ℤ wholeDoubles (fun _ => 0) smallTwice plainLayout (emptyVM ℤ)
      (@runBlock ℤ wholeDoubles (fun _ => 0) smallTwice freshSession) := by
  have hfit : Fitting smallTwice := ⟨by decide,by decide,by decide⟩
  exact ⟨hfit,smallTwice_obeys,(@otherwise_runs ℤ wholeDoubles (fun _ => 0) smallTwice hfit plainLayout
    (emptyVM ℤ)).2.1 smallTwice_obeys⟩

def largeOnce : List Documented := [letX ⟨str "5", numeralText_five⟩, eitherOr]

def followedTwice : List Documented :=
  [letX ⟨str "1", numeralText_one⟩, .repeatLoop ⟨str "2", numeralText_two⟩ [eitherOr, sayText 121 rfl]]

/-- The block of the action is the end of the first block of the check. -/
def actionInside : List Documented :=
  [letX ⟨str "1", numeralText_one⟩, .checkOtherwise largeX
    [.actionBlock ⟨str "led_on", wordText_led_on⟩ [sayText 97 rfl], sayText 99 rfl] [sayText 98 rfl]]

/-- Both blocks of a check that holds are run, what follows an otherwise block in a repeat of
two rounds is run once, and what follows the block of an action in a check that fails is
run. -/
theorem both_blocks_run :
    plainLayout.print (blockLexemes largeOnce) =
      str "let x = 5 check x > 3 \x7b say \"a\" \x7d otherwise \x7b say \"b\" \x7d\n" ∧
    (∃ session, @Runs ℤ wholeDoubles (fun _ => 0) largeOnce plainLayout (emptyVM ℤ) session ∧
      session ≠ @runBlock ℤ wholeDoubles (fun _ => 0) largeOnce freshSession ∧
      session.vm.output = banner ++ str "a\nb\n" ∧
      (@runBlock ℤ wholeDoubles (fun _ => 0) largeOnce freshSession).vm.output = banner ++ str "a\n") ∧
    plainLayout.print (blockLexemes followedTwice) = str "let x = 1 repeat 2 \x7b check x > 3 \x7b say \"a\" \x7d " ++
      str "otherwise \x7b say \"b\" \x7d say \"y\" \x7d\n" ∧
    (∃ session, @Runs ℤ wholeDoubles (fun _ => 0) followedTwice plainLayout (emptyVM ℤ) session ∧
      session ≠ @runBlock ℤ wholeDoubles (fun _ => 0) followedTwice freshSession ∧
      session.vm.output = banner ++ str "b\nb\ny\n" ∧
      (@runBlock ℤ wholeDoubles (fun _ => 0) followedTwice freshSession).vm.output =
        banner ++ str "b\ny\nb\ny\n") ∧
    plainLayout.print (blockLexemes actionInside) = str "let x = 1 check x > 3 \x7b action led_on " ++
      str "\x7b say \"a\" \x7d say \"c\" \x7d otherwise \x7b say \"b\" \x7d\n" ∧
    ∃ session, @Runs ℤ wholeDoubles (fun _ => 0) actionInside plainLayout (emptyVM ℤ) session ∧
      session ≠ @runBlock ℤ wholeDoubles (fun _ => 0) actionInside freshSession ∧
      session.vm.output = banner ++ str "c\nb\n" ∧
      (@runBlock ℤ wholeDoubles (fun _ => 0) actionInside freshSession).vm.output = banner ++ str "b\n" := by
  have haction : Fitting actionInside := ⟨by decide,by decide,by decide⟩
  have hlarge : Fitting largeOnce := ⟨by decide,by decide,by decide⟩
  have htwice : Fitting followedTwice := ⟨by decide,by decide,by decide⟩
  have hdiffer : ∀ {s t : Session ℤ}, s.vm.output ≠ t.vm.output → s ≠ t := fun hne heq => hne (by rw [heq])
  refine ⟨by decide,⟨_,@runs_reading ℤ wholeDoubles (fun _ => 0) _ hlarge plainLayout (emptyVM ℤ),?_,?_,?_⟩,
    by decide,⟨_,@runs_reading ℤ wholeDoubles (fun _ => 0) _ htwice plainLayout (emptyVM ℤ),?_,?_,?_⟩,
    by decide,_,@runs_reading ℤ wholeDoubles (fun _ => 0) _ haction plainLayout (emptyVM ℤ),?_,?_,?_⟩
  · exact hdiffer (by decide)
  · decide
  · decide
  · exact hdiffer (by decide)
  · decide
  · decide
  · exact hdiffer (by decide)
  · decide
  · decide

end QbitNova.Otherwise
