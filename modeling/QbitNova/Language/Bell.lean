import QbitNova.Language.Drivers
import QbitNova.Language.ProgramLogic
import QbitNova.Language.Lookup

/-! # Pairs made and measured in a loop

The program of cnot_test.qn, which makes an entangled pair, measures one half and prints both,
inside a repeat. The rules for commands carry it through the loop: every round prints one bit
twice, whatever the arithmetic, the random numbers and the number of rounds.
-/
namespace QbitNova.Language
open CText Triples

/-- One round of the program. -/
def pairBody (x y : Word) : List Statement :=
  [.qbit x .zero, .qbit y .zero, .hadamard x, .cnot x y, .measure x, .say (.name x), .say (.name y)]

def pairProgram (count : Numeral) (x y : Word) : List Item := [.statement (.repeatLoop count (pairBody x y))]

section
variable {D : Type} [Doubles D] (rand : ℕ → ℤ)
open Doubles Scalars

/-- The amplitude of |0> after a Hadamard gate on |0>. -/
def halfAmplitude (D : Type) [Doubles D] : D := div (add (ofInt 1) (ofInt 0)) (sqrt (ofInt 2))

/-- The bit that a draw gives. -/
def pairBit (D : Type) [Doubles D] (draw : ℤ) : ℤ :=
  if lt (mul (halfAmplitude D) (halfAmplitude D)) (div (ofInt draw) (ofInt randMax)) then 1 else 0

def linkText (x y : Bytes) : Bytes := str "[QCORE] CNOT " ++ x ++ str " -> " ++ y ++ str "\n"

def collapseText (x y : Bytes) (bit : ℤ) : Bytes :=
  str "[QCORE] entangled collapse " ++ x ++ str " -> " ++ y ++ str " = |" ++ decimal bit ++ str ">\n"

def bitText (bit : ℤ) : Bytes := str "|" ++ decimal bit ++ str ">\n"

/-- What one round prints. -/
def roundText (x y : Bytes) (bit : ℤ) : Bytes := linkText x y ++ collapseText x y bit ++ bitText bit ++ bitText bit

variable (x y : Bytes)

/-- Both names are known, with what is known of their qbits; the output and the draws so far. -/
structure PairAt (first second : VMQbit D → Prop) (text : Bytes) (draws : ℕ) (s : Session D) : Prop where
  first : ∃ e, s.vm.qbit? x = some e ∧ first e
  second : ∃ e, s.vm.qbit? y = some e ∧ second e
  output : s.vm.output = text
  draws : s.vm.draws = draws

/-- A name can be declared. -/
def Roomy (vm : VM D) (name : Bytes) : Prop := vm.findQbit name = none → vm.qbits.length < maxVmQbits

/-- Before a round: either nothing is declared yet or both names are. -/
structure Ready (text : Bytes) (draws : ℕ) (s : Session D) : Prop where
  room : s.vm.qbits = [] ∨ (s.vm.qbit? x).isSome ∧ (s.vm.qbit? y).isSome
  output : s.vm.output = text
  draws : s.vm.draws = draws

/-- After the first declaration. -/
structure HalfReady (text : Bytes) (draws : ℕ) (s : Session D) : Prop where
  first : ∃ e, s.vm.qbit? x = some e ∧ e.a = ofInt 1 ∧ e.b = ofInt 0
  room : Roomy s.vm y
  output : s.vm.output = text
  draws : s.vm.draws = draws

/-- What is written for |0>. -/
def zeroQbit (e : VMQbit D) : Prop := e.a = ofInt 1 ∧ e.b = ofInt 0

/-- The two ends of a link in a known state. -/
def sourceQbit (y : Bytes) (e : VMQbit D) : Prop := e.a = halfAmplitude D ∧ e.entangledWith = y

def measuredQbit (bit : ℤ) (e : VMQbit D) : Prop := e.measured = true ∧ e.result = bit

variable {x y}

theorem createQbit_zero {vm : VM D} {name : Bytes} (hroom : Roomy vm name) :
    (∃ e, (vm.createQbit name zeroState).qbit? name = some e ∧ zeroQbit e) ∧
    (∀ m, m ≠ name → (vm.createQbit name zeroState).qbit? m = vm.qbit? m) ∧
    (vm.createQbit name zeroState).output = vm.output ∧ (vm.createQbit name zeroState).draws = vm.draws := by
  have hstate : VM.stateOf (D := D) zeroState = some (ofInt 1, ofInt 0) := by
    simp only [VM.stateOf,zeroState,↓reduceIte]
  refine ⟨⟨_,(qbit?_createQbit vm name zeroState name).trans (if_pos ⟨rfl,hroom⟩),?_⟩,fun m hm => ?_,?_⟩
  · rw [zeroQbit,declaredAs,hstate]
    exact ⟨rfl,rfl⟩
  · rw [qbit?_createQbit,if_neg fun h => hm h.1]
  · unfold VM.createQbit VM.prepare
    rw [hstate]
    split
    · exact ⟨rfl,rfl⟩
    · next hnone =>
      rw [if_neg (Nat.not_le.mpr (hroom hnone))]
      exact ⟨rfl,rfl⟩

omit [Doubles D] in
theorem roomy_of_isSome {vm : VM D} {name : Bytes} (h : (vm.qbit? name).isSome = true) : Roomy vm name := by
  intro hnone
  rw [qbit?_eq_none.mpr hnone] at h
  cases h

/-- The first declaration of a round. -/
theorem declare_first (hne : x ≠ y) {text : Bytes} {draws : ℕ} {s : Session D} (h : Ready x y text draws s) :
    HalfReady x y text draws (s.perform rand (.createQbit x zeroState)) := by
  have hroomy : Roomy s.vm x := by
    rcases h.room with hempty | ⟨hx,-⟩
    · intro _
      rw [hempty]
      exact (by decide : 0 < maxVmQbits)
    · exact roomy_of_isSome hx
  obtain ⟨hfound,hother,houtput,hdraws⟩ := createQbit_zero hroomy
  refine ⟨hfound,?_,houtput.trans h.output,hdraws.trans h.draws⟩
  rcases h.room with hempty | ⟨-,hy⟩
  · intro _
    have hnone : s.vm.findQbit x = none := by
      rw [VM.findQbit,hempty]
      rfl
    have hlength : (s.vm.createQbit x zeroState).qbits.length = 1 := by
      rw [VM.createQbit,hnone]
      simp only [hempty,List.length_nil,ge_iff_le,if_neg (by decide : ¬ maxVmQbits ≤ 0)]
      rw [prepare_qbits,VM.modifyQbit,List.length_modify]
      rfl
    show (s.vm.createQbit x zeroState).qbits.length < maxVmQbits
    rw [hlength]
    decide
  · apply roomy_of_isSome
    show ((s.vm.createQbit x zeroState).qbit? y).isSome = true
    rwa [hother y hne.symm]

theorem declare_second (hne : x ≠ y) {text : Bytes} {draws : ℕ} {s : Session D} (h : HalfReady x y text draws s) :
    PairAt x y zeroQbit (fun _ => True) text draws (s.perform rand (.createQbit y zeroState)) := by
  obtain ⟨⟨e,he,-⟩,hother,houtput,hdraws⟩ := createQbit_zero h.room
  obtain ⟨e',he',hzero⟩ := h.first
  exact ⟨⟨e',(hother x hne).trans he',hzero⟩,⟨e,he,trivial⟩,houtput.trans h.output,hdraws.trans h.draws⟩

theorem turn_first (hne : x ≠ y) {text : Bytes} {draws : ℕ} {s : Session D}
    (h : PairAt x y zeroQbit (fun _ => True) text draws s) :
    PairAt x y (fun e => e.a = halfAmplitude D) (fun _ => True) text draws (s.perform rand (.hadamard x)) := by
  obtain ⟨e,he,ha,hb⟩ := h.first
  obtain ⟨e',he',-⟩ := h.second
  have hquiet : (s.vm.act rand (.hadamard x)).output = s.vm.output ∧
      (s.vm.act rand (.hadamard x)).draws = s.vm.draws := by
    obtain ⟨i,hi,-⟩ := findQbit_of_qbit? he
    rw [VM.act,VM.onQbit,hi]
    exact ⟨rfl,rfl⟩
  refine ⟨⟨_,(qbit?_hadamard rand he x).trans (if_pos rfl),?_⟩,
    ⟨e',(qbit?_hadamard rand he y).trans ((if_neg hne.symm).trans he'),trivial⟩,
    hquiet.1.trans h.output,hquiet.2.trans h.draws⟩
  rw [turned,ha,hb]
  rfl

theorem link_pair (hne : x ≠ y) {text : Bytes} {draws : ℕ} {s : Session D}
    (h : PairAt x y (fun e => e.a = halfAmplitude D) (fun _ => True) text draws s) :
    PairAt x y (sourceQbit y) (fun _ => True) (text ++ linkText x y) draws (s.perform rand (.cnot x y)) := by
  obtain ⟨e,he,ha⟩ := h.first
  obtain ⟨e',he',-⟩ := h.second
  obtain ⟨i,hi,-⟩ := findQbit_of_qbit? he
  obtain ⟨j,hj,-⟩ := findQbit_of_qbit? he'
  have hact : s.vm.act rand (.cnot x y) = (s.vm.link i j x y).print (linkText x y) := by
    rw [VM.act,VM.cnotQbits,hi,hj]
    rfl
  have hqbits : ∀ m, (s.vm.act rand (.cnot x y)).qbit? m = (s.vm.link i j x y).qbit? m := by
    intro m
    rw [hact]
    exact qbit?_congr rfl m
  have hquiet : (s.vm.link i j x y).output = s.vm.output ∧ (s.vm.link i j x y).draws = s.vm.draws := by
    unfold VM.link
    dsimp only
    split <;> exact ⟨rfl,rfl⟩
  refine ⟨⟨_,(hqbits x).trans ((qbit?_link hi hj he he' x).trans ((if_neg hne).trans (if_pos rfl))),ha,rfl⟩,
    ⟨_,(hqbits y).trans ((qbit?_link hi hj he he' y).trans (if_pos rfl)),trivial⟩,?_,?_⟩
  · show (s.vm.act rand (.cnot x y)).output = _
    rw [hact,VM.print,hquiet.1,h.output]
  · show (s.vm.act rand (.cnot x y)).draws = _
    rw [hact,VM.print,hquiet.2,h.draws]

theorem measure_pair (hx : x ≠ str "qmsg") (hy : y ≠ []) {text : Bytes} {draws : ℕ} {s : Session D}
    (h : PairAt x y (sourceQbit y) (fun _ => True) text draws s) :
    PairAt x y (measuredQbit (pairBit D (rand draws))) (measuredQbit (pairBit D (rand draws)))
      (text ++ collapseText x y (pairBit D (rand draws))) (draws + 1) (s.perform rand (.measure x)) := by
  obtain ⟨e,he,ha,hlink⟩ := h.first
  obtain ⟨e',he',-⟩ := h.second
  have hbit : VM.outcome (rand s.vm.draws) e = pairBit D (rand draws) := by
    rw [VM.outcome,ha,h.draws]
    rfl
  have hlinked : e.entangledWith ≠ [] := by rwa [hlink]
  have hx' := (qbit?_measure rand hx he x).trans (if_pos (Or.inl rfl))
  have hy' := (qbit?_measure rand hx he y).trans (if_pos (Or.inr ⟨hlinked,hlink.symm⟩))
  rw [he,hbit] at hx'
  rw [he',hbit] at hy'
  obtain ⟨i,hi,hentry,hname⟩ := findQbit_of_qbit? he
  obtain ⟨j,hj,-⟩ := findQbit_of_qbit? he'
  let drawn : VM D := { s.vm with draws := s.vm.draws + 1 }
  have hfound : (drawn.modifyQbit i (VM.collapse (pairBit D (rand draws)))).findQbit y = some j :=
    (findQbit_modifyQbit (by intro; rfl) y).trans hj
  have hact : (s.vm.act rand (.measure x)).output = s.vm.output ++ collapseText x y (pairBit D (rand draws)) ∧
      (s.vm.act rand (.measure x)).draws = s.vm.draws + 1 := by
    rw [VM.act,if_neg hx,VM.onQbit,hi]
    simp only [drawn] at hfound
    simp only [VM.measureLinked,hentry,hlink,if_neg hy,hname,hbit,hfound]
    exact ⟨rfl,rfl⟩
  exact ⟨⟨_,hx',rfl,rfl⟩,⟨_,hy',rfl,rfl⟩,hact.1.trans (by rw [h.output]),hact.2.trans (by rw [h.draws])⟩

theorem say_qbit {s : Session D} {name : Bytes} (hname : name ≠ str "qmsg") {bit : ℤ}
    (h : ∃ e, s.vm.qbit? name = some e ∧ measuredQbit bit e) :
    s.vm.act rand (.say name) = s.vm.print (bitText bit) := by
  obtain ⟨e,he,hmeasured,hresult⟩ := h
  have hfound : (s.vm.findQbit name).bind (s.vm.qbits[·]?) = some e := he
  rw [VM.act,VM.vmSay,if_neg hname,hfound]
  simp only [VM.printQbit,hmeasured,hresult,↓reduceIte]
  rfl

theorem say_pair {name : Bytes} (hname : name = x ∨ name = y) (hq : name ≠ str "qmsg") {bit : ℤ} {text : Bytes} {draws : ℕ}
    {s : Session D} (h : PairAt x y (measuredQbit bit) (measuredQbit bit) text draws s) :
    PairAt x y (measuredQbit bit) (measuredQbit bit) (text ++ bitText bit) draws (s.perform rand (.say name)) := by
  have hact : s.vm.act rand (.say name) = s.vm.print (bitText bit) := by
    rcases hname with rfl | rfl
    · exact say_qbit rand hq h.first
    · exact say_qbit rand hq h.second
  have hqbits : ∀ m, (s.vm.act rand (.say name)).qbit? m = s.vm.qbit? m := by
    intro m
    rw [hact]
    exact qbit?_congr rfl m
  obtain ⟨e,he,hbit⟩ := h.first
  obtain ⟨e',he',hbit'⟩ := h.second
  refine ⟨⟨e,(hqbits x).trans he,hbit⟩,⟨e',(hqbits y).trans he',hbit'⟩,?_,?_⟩
  · show (s.vm.act rand (.say name)).output = _
    rw [hact,VM.print,h.output]
  · show (s.vm.act rand (.say name)).draws = _
    rw [hact]
    exact h.draws

end

section
variable {D : Type} [Doubles D] (rand : ℕ → ℤ) {x y : Word}

theorem Word.text_ne (w : Word) : w.text ≠ [] := by
  intro h
  have hvalid := w.valid
  rw [h] at hvalid
  cases hvalid

/-- The names of a pair: different, and not the name of the message register. -/
structure PairNames (x y : Word) : Prop where
  ne : x.text ≠ y.text
  first : x.text ≠ str "qmsg"
  second : y.text ≠ str "qmsg"

/-- One round, by the rule of its statements. -/
theorem round_derives (h : PairNames x y) (text : Bytes) (draws : ℕ) :
    DerivesFor (D := D) rand (Ready x.text y.text text draws) (commandOf (treeOf (pairBody x y)))
      (Ready x.text y.text (text ++ roundText x.text y.text (pairBit D (rand draws))) (draws + 1)) := by
  have perform : ∀ {P Q : Session D → Prop} (action : Action), (∀ s, P s → Q (s.perform rand action)) →
      DerivesFor rand P (.perform action) Q := fun action hstep => (Derives.perform action _).strengthen hstep
  apply Derives.sequence (perform (.createQbit x.text zeroState) fun _ => declare_first rand h.ne)
  apply Derives.sequence (perform (.createQbit y.text zeroState) fun _ => declare_second rand h.ne)
  apply Derives.sequence (perform (.hadamard x.text) fun _ => turn_first rand h.ne)
  apply Derives.sequence (perform (.cnot x.text y.text) fun _ => link_pair rand h.ne)
  apply Derives.sequence (perform (.measure x.text) fun _ => measure_pair rand h.first y.text_ne)
  apply Derives.sequence (perform (.say x.text) fun _ => say_pair rand (Or.inl rfl) h.first)
  apply Derives.sequence (perform (.say y.text) fun _ => say_pair rand (Or.inr rfl) h.second)
  apply Derives.strengthen (Derives.skip _)
  intro s hs
  obtain ⟨e,he,-⟩ := hs.first
  obtain ⟨e',he',-⟩ := hs.second
  refine ⟨Or.inr ⟨by rw [he]; rfl,by rw [he']; rfl⟩,?_,hs.draws⟩
  rw [hs.output,roundText]
  simp only [List.append_assoc]

/-- What a number of rounds prints. -/
def roundsText (D : Type) [Doubles D] (rand : ℕ → ℤ) (x y : Bytes) (rounds : ℕ) : Bytes :=
  (List.range rounds).flatMap fun i => roundText x y (pairBit D (rand i))

/-- The loop, by the rule of rounds: the output grows by one round. -/
theorem loop_derives (h : PairNames x y) (count : Numeral) :
    DerivesFor (D := D) rand (Ready x.text y.text banner 0) (commandOf (bodyOf (pairProgram count x y)))
      (fun s => s.vm.output = banner ++ roundsText D rand x.text y.text (atoi count.text).toNat) := by
  let sofar : ℕ → Session D → Prop := fun i => Ready x.text y.text (banner ++ roundsText D rand x.text y.text i) i
  have hbody : ∀ i, DerivesFor rand (sofar i) (.sequence (commandOf (treeOf (pairBody x y))) .skip) (sofar (i + 1)) := by
    intro i
    have hround := round_derives (D := D) rand h (banner ++ roundsText D rand x.text y.text i) i
    apply Derives.sequence hround
    apply Derives.strengthen (Derives.skip _)
    intro s hs
    have htext : roundsText D rand x.text y.text (i + 1) =
        roundsText D rand x.text y.text i ++ roundText x.text y.text (pairBit D (rand i)) := by
      simp [roundsText,List.range_succ]
    rw [List.append_assoc,← htext] at hs
    exact hs
  have hloop : DerivesFor rand (sofar 0)
      (.rounds (atoi count.text).toNat (.sequence (commandOf (treeOf (pairBody x y))) .skip))
      (sofar (atoi count.text).toNat) := Derives.rounds sofar fun i _ => hbody i
  apply Derives.sequence (hloop.strengthen fun s hs => ?_)
  · apply Derives.strengthen (Derives.skip _)
    exact fun s hs => hs.output
  · simpa only [sofar,roundsText,List.range_zero,List.flatMap_nil,List.append_nil] using hs

theorem pairProgram_fitting (count : Numeral) (hx : x.text.length < argumentBytes) (hy : y.text.length < argumentBytes) :
    Fitting (pairProgram count x y) := by
  have hcount : count.text.length < argumentBytes := by
    obtain ⟨text,hvalid⟩ := count
    cases text with
    | nil => cases hvalid
    | cons c rest =>
      simp only [numeralText,Bool.and_eq_true,decide_eq_true_eq] at hvalid
      exact Nat.succ_lt_succ hvalid.2
  refine ⟨Nat.le_of_ble_eq_true rfl,?_,?_,Nat.le_of_ble_eq_true rfl,Nat.le_of_ble_eq_true rfl⟩
  · intro d hd
    cases List.mem_singleton.mp hd
  · have hzero : (str "|0>").length < argumentBytes := by decide
    have hsay : (str "say").length < argumentBytes := by decide
    have hblock : (str "block").length < argumentBytes := by decide
    simp only [pairProgram,pairBody,bodyOf,List.filterMap_cons,List.filterMap_nil,Item.statement?,treeOf,Statement.tree,
      Operand.tree,leaf,Node.LexemesFit,QuantumState.spelling,hx,hy,hcount,hzero,hsay,hblock,and_true]

/-- Whatever the arithmetic, the layout of the text and the random numbers: the runner prints
the rounds, and both halves of every pair show the bit that its draw gives. -/
theorem pairs_agree (h : PairNames x y) (count : Numeral) (hx : x.text.length < argumentBytes)
    (hy : y.text.length < argumentBytes) (layout : Layout) (path : Bytes) (args : List Bytes) :
    ∃ fuel, ∀ extra,
      qnovaMain D rand (fuel + extra) (path :: args) (.content (layout.print (lexemesOf (pairProgram count x y)))) =
        some (.ok ⟨0, runnerTitle false ++ printBytecode (codeOf (bodyOf (pairProgram count x y))) ++ str "\n" ++
          (banner ++ roundsText D rand x.text y.text (atoi count.text).toNat), []⟩) := by
  obtain ⟨fuel,hfuel⟩ := qnova_runs_bytes (D := D) (pairProgram_fitting count hx hy) layout rand rfl path args
  have hready : Ready x.text y.text banner 0 (⟨(emptyVM D).print banner, []⟩ : Session D) := ⟨Or.inl rfl,rfl,rfl⟩
  have hprints : printedBy D rand (pairProgram count x y) =
      banner ++ roundsText D rand x.text y.text (atoi count.text).toNat :=
    Derives.exec rand (loop_derives rand h count) hready
  rw [hprints] at hfuel
  exact ⟨fuel,hfuel⟩

end

theorem wordText_q : wordText (str "q") = true := by decide

def wordQ : Word := ⟨str "q", wordText_q⟩
def wordP : Word := ⟨str "p", by decide⟩
def three : Numeral := ⟨str "3", by decide⟩

theorem pairs_agree_thrice : PairNames wordQ wordP ∧ wordQ.text.length < argumentBytes ∧ wordP.text.length < argumentBytes ∧
    ∃ fuel, ∀ extra, @qnovaMain ℤ wholeDoubles (fun i => i) (fuel + extra) [str "bell.qn"]
        (.content (plainLayout.print (lexemesOf (pairProgram three wordQ wordP)))) =
      some (.ok ⟨0, runnerTitle false ++ printBytecode (codeOf (bodyOf (pairProgram three wordQ wordP))) ++ str "\n" ++
        (banner ++ @roundsText ℤ wholeDoubles (fun i => i) wordQ.text wordP.text 3), []⟩) := by
  have hnames : PairNames wordQ wordP := ⟨by decide,by decide,by decide⟩
  have hq : wordQ.text.length < argumentBytes := by decide
  have hp : wordP.text.length < argumentBytes := by decide
  have hcount : (atoi three.text).toNat = 3 := by decide
  have hruns := @pairs_agree ℤ wholeDoubles (fun i => i) wordQ wordP hnames three hq hp plainLayout (str "bell.qn") []
  rw [hcount] at hruns
  exact ⟨hnames,hq,hp,hruns⟩

end QbitNova.Language
