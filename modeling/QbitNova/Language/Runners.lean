import QbitNova.Language.Interpreter
import Mathlib.Data.List.Forall2

/-! # The two runners of one program

Programs of the seven statements that both runners know are run by the interpreter on
the tree and by the byte VM on the compiled code. Both keep the same tables as long as
names are declared before they are used and no qbit is declared twice; what they print
then agrees, and literals are printed as they stand, unless a literal that is said is
the name of something.
-/
namespace QbitNova.Interpreter
open CText
open QbitNova.Language hiding execute step

/-- The text begins like a word. -/
def startsWord : Bytes → Bool
  | [] => false
  | c :: _ => isalpha c || c == 95

/-- The seven statements and the block, with what the parser puts to their left. -/
def Shape (type : NodeType) (value : Bytes) (left : Node) : Prop :=
  match type with
  | .say => ∃ kind text, (kind = .string ∨ kind = .ident) ∧ left = leaf kind text
  | .letBinding => startsWord value = true ∧ ∃ n : Numeral, left = leaf .number n.text
  | .qbit => startsWord value = true ∧ ∃ q : QuantumState, left = leaf .state q.spelling.2
  | .hadamard => True
  | .measure => True
  | .check => ∃ (name : Bytes) (c : Comparison) (n : Numeral),
      left = .node .binop c.spelling.2 (leaf .ident name) (leaf .number n.text) .null .null
  | .repeatLoop => True
  | .block => True
  | _ => False

def Basic : Node → Prop
  | .null => True
  | .node type value left _ body next => Shape type value left ∧ Basic body ∧ Basic next

/-- The text to the right of an operator. -/
def rightText : Node → Bytes
  | .null => []
  | .node _ _ _ right _ _ => right.text

section
variable {D : Type} [Doubles D]
open Doubles Scalars

/-- The statement finds what it uses declared, a declaration finds room and no qbit of its
name, a name that the byte VM reserves is not used, and the constant of a check is one
that is read alike as a double and as an int. -/
def Orderly (type : NodeType) (value : Bytes) (left : Node) (s : Interp D) : Prop :=
  match type with
  | .say => Node.type? left = some .ident → left.text ≠ str "qmsg" ∧
      ((s.getQbit left.text).isSome = true ∨ (s.findVar left.text).isSome = true)
  | .letBinding => (s.findVar value).isSome = true ∨ s.vars.length < maxVars
  | .qbit => s.getQbit value = none ∧ s.qbits.length < maxQbits
  | .hadamard => (s.getQbit value).isSome = true
  | .measure => value ≠ str "qmsg" ∧ (s.getQbit value).isSome = true
  | .check => (s.findVar (conditionOf left).1).isSome = true ∧
      (atof (rightText left) : D) = ofInt (conditionOf left).2.2
  | _ => True

/-- A literal that is said is the name of nothing. -/
def NamesNothing (type : NodeType) (_ : Bytes) (left : Node) (s : Interp D) : Prop :=
  type = .say → Node.type? left = some .string →
    left.text ≠ str "qmsg" ∧ s.getQbit left.text = none ∧ s.findVar left.text = none

/-- The interpreter prints a literal as it stands. -/
def PrintsLiteral (type : NodeType) (_ : Bytes) (left : Node) (s : Interp D) : Prop :=
  type = .say → Node.type? left = some .string → s.say left = .ok (s.print (left.text ++ str "\n"))

/-- The byte VM prints a literal as it stands. -/
def PrintsLiteralVM (type : NodeType) (_ : Bytes) (left : Node) (vm : VM D) : Prop :=
  type = .say → Node.type? left = some .string → (vm.vmSay left.text).output = vm.output ++ (left.text ++ str "\n")

/-- The two records of one qbit. -/
structure SameQbit (q : Qbit D) (v : VMQbit D) : Prop where
  name : v.name = q.name
  a : v.a = q.a
  b : v.b = q.b
  measured : v.measured = q.measured
  result : q.measured = true → v.result = q.result
  alone : v.entangledWith = []

/-- A variable has the name of a word and a value that does not print like one. -/
def Tellable (v : VMVar D) : Prop := startsWord v.name = true ∧ startsWord (formatG v.value) = false

/-- The tables of the two runners agree, and no name in them looks like a printed value. -/
structure Tables (s : Interp D) (vm : VM D) : Prop where
  vars : vm.vars = s.vars
  qbits : List.Forall₂ SameQbit s.qbits vm.qbits
  draws : vm.draws = s.draws
  encoded : vm.qmsgEncoded = false
  named : ∀ v ∈ s.vars, Tellable v
  qnamed : ∀ q ∈ s.qbits, startsWord q.name = true

end

section Lists
variable {α β : Type} {R : α → β → Prop}

theorem forall₂_findIdx? {xs : List α} {ys : List β} (h : List.Forall₂ R xs ys) {p : α → Bool} {q : β → Bool}
    (hpq : ∀ a b, R a b → q b = p a) : ys.findIdx? q = xs.findIdx? p := by
  induction h with
  | nil => rfl
  | cons hab _ ih => simp only [List.findIdx?_cons,hpq _ _ hab,ih]

/-- Entries change together at one index. -/
theorem forall₂_modify {xs : List α} {ys : List β} (h : List.Forall₂ R xs ys) {f : α → α} {g : β → β} {i : ℕ}
    (hfg : ∀ a b, xs[i]? = some a → ys[i]? = some b → R a b → R (f a) (g b)) :
    List.Forall₂ R (xs.modify i f) (ys.modify i g) := by
  induction h generalizing i with
  | nil =>
    simp only [List.modify_nil]
    exact List.Forall₂.nil
  | cons hab hrest ih =>
    cases i with
    | zero =>
      simp only [List.modify_zero_cons]
      exact List.Forall₂.cons (hfg _ _ rfl rfl hab) hrest
    | succ i =>
      simp only [List.modify_succ_cons]
      exact List.Forall₂.cons hab (ih fun a b ha hb => hfg a b ha hb)

theorem forall₂_getElem? {xs : List α} {ys : List β} (h : List.Forall₂ R xs ys) {i : ℕ} {a : α}
    (ha : xs[i]? = some a) : ∃ b, ys[i]? = some b ∧ R a b := by
  induction h generalizing i with
  | nil => cases ha
  | cons hab _ ih =>
    cases i with
    | zero =>
      cases ha
      exact ⟨_,rfl,hab⟩
    | succ i => exact ih ha

theorem forall_mem_modify {P : α → Prop} {xs : List α} (h : ∀ a ∈ xs, P a) {f : α → α} (hf : ∀ a, P a → P (f a))
    (i : ℕ) : ∀ a ∈ xs.modify i f, P a := by
  induction xs generalizing i with
  | nil => simp
  | cons a xs ih =>
    obtain ⟨ha,hxs⟩ := List.forall_mem_cons.mp h
    cases i with
    | zero =>
      simp only [List.modify_zero_cons,List.forall_mem_cons]
      exact ⟨hf a ha,hxs⟩
    | succ i =>
      simp only [List.modify_succ_cons,List.forall_mem_cons]
      exact ⟨ha,ih hxs i⟩

theorem getElem?_of_findIdx? {xs : List α} {p : α → Bool} {i : ℕ} (h : xs.findIdx? p = some i) :
    ∃ a, xs[i]? = some a ∧ p a = true := by
  obtain ⟨hi,hp,-⟩ := List.findIdx?_eq_some_iff_getElem.mp h
  exact ⟨xs[i],List.getElem?_eq_getElem hi,hp⟩

end Lists

section Tables
variable {D : Type} [Doubles D] {s : Interp D} {vm : VM D}
open Doubles Scalars

theorem Tables.findVar (h : Tables s vm) (name : Bytes) : vm.findVar name = s.findVar name := by
  rw [VM.findVar,Interp.findVar,h.vars]

theorem Tables.findQbit (h : Tables s vm) (name : Bytes) : vm.findQbit name = s.getQbit name := by
  apply forall₂_findIdx? h.qbits
  intro q v hqv
  rw [hqv.name]

omit [Doubles D] in
theorem Interp.var_of_isSome {s : Interp D} {name : Bytes} (h : (s.findVar name).isSome = true) :
    ∃ v ∈ s.vars, v.name = name ∧ (s.findVar name).bind (s.vars[·]?) = some v := by
  obtain ⟨i,hi⟩ := Option.isSome_iff_exists.mp h
  obtain ⟨v,hv,hname⟩ := getElem?_of_findIdx? hi
  refine ⟨v,List.mem_of_getElem? hv,eq_of_beq hname,?_⟩
  rw [hi,Option.bind_some,hv]

omit [Doubles D] in
theorem Interp.qbit_of_isSome {s : Interp D} {name : Bytes} (h : (s.getQbit name).isSome = true) :
    ∃ q ∈ s.qbits, q.name = name ∧ (s.getQbit name).bind (s.qbits[·]?) = some q := by
  obtain ⟨i,hi⟩ := Option.isSome_iff_exists.mp h
  obtain ⟨q,hq,hname⟩ := getElem?_of_findIdx? hi
  refine ⟨q,List.mem_of_getElem? hq,eq_of_beq hname,?_⟩
  rw [hi,Option.bind_some,hq]

theorem Tables.qbit (h : Tables s vm) {name : Bytes} {q : Qbit D}
    (hq : (s.getQbit name).bind (s.qbits[·]?) = some q) :
    ∃ v, (vm.findQbit name).bind (vm.qbits[·]?) = some v ∧ SameQbit q v := by
  obtain ⟨i,hi,hentry⟩ := Option.bind_eq_some_iff.mp hq
  obtain ⟨v,hv,hsame⟩ := forall₂_getElem? h.qbits hentry
  exact ⟨v,by rw [h.findQbit,hi,Option.bind_some,hv],hsame⟩

theorem Tables.var (h : Tables s vm) (name : Bytes) :
    (vm.findVar name).bind (vm.vars[·]?) = (s.findVar name).bind (s.vars[·]?) := by
  rw [h.findVar,h.vars]

/-- What the two runners print for one qbit. -/
def qbitText (q : Qbit D) : Bytes :=
  if q.measured then str "|" ++ decimal q.result ++ str ">\n"
  else str "|0>=" ++ formatFixed3 q.a ++ str " |1>=" ++ formatFixed3 q.b ++ str "\n"

theorem printQbit_eq (s : Interp D) (q : Qbit D) : s.printQbit q = s.print (qbitText q) := by
  unfold Interp.printQbit qbitText
  split_ifs <;> rfl

theorem printQbitVM_eq (vm : VM D) {q : Qbit D} {v : VMQbit D} (h : SameQbit q v) :
    vm.printQbit v = vm.print (qbitText q) := by
  unfold VM.printQbit qbitText
  rw [h.measured,h.a,h.b]
  split_ifs with hm
  · rw [h.result hm]
  · rfl

theorem qbitText_head (q : Qbit D) : startsWord (qbitText q) = false := by
  unfold qbitText
  split_ifs <;> rfl

/-- Printing leaves the tables alone. -/
theorem Tables.print (h : Tables s vm) (text text' : Bytes) : Tables (s.print text) (vm.print text') :=
  ⟨h.vars,h.qbits,h.draws,h.encoded,h.named,h.qnamed⟩

theorem Tables.gate (h : Tables s vm) {i : ℕ} {f : Qbit D → Qbit D} {g : VMQbit D → VMQbit D}
    (hfg : ∀ a b, s.qbits[i]? = some a → vm.qbits[i]? = some b → SameQbit a b → SameQbit (f a) (g b))
    (hname : ∀ a, (f a).name = a.name) :
    Tables { s with qbits := s.qbits.modify i f } (vm.modifyQbit i g) :=
  ⟨h.vars,forall₂_modify h.qbits hfg,h.draws,h.encoded,h.named,
    forall_mem_modify h.qnamed (fun a ha => by rw [hname]; exact ha) i⟩

theorem Tables.setVar (h : Tables s vm) {name : Bytes} {value : D}
    (hroom : (s.findVar name).isSome = true ∨ s.vars.length < maxVars) (hfit : name.length < nameBytes)
    (hname : startsWord name = true) (hvalue : startsWord (formatG value) = false) :
    ∃ t, s.setVar name value = .ok t ∧ Tables t (vm.setVar name value) ∧ t.output = s.output ∧
      (vm.setVar name value).output = vm.output := by
  unfold Interp.setVar VM.setVar
  rw [h.findVar]
  cases hv : s.findVar name with
  | some v =>
    refine ⟨_,rfl,⟨by simp only [h.vars],h.qbits,h.draws,h.encoded,?_,h.qnamed⟩,rfl,rfl⟩
    refine forall_mem_modify (P := Tellable) h.named ?_ v
    intro entry hentry
    exact ⟨hentry.1,hvalue⟩
  | none =>
    have hlt : s.vars.length < maxVars := by simpa [hv] using hroom
    have hlt' : ¬ vm.vars.length ≥ maxVmVars := by
      rw [h.vars]
      exact Nat.not_le.mpr hlt
    simp only [if_neg (Nat.not_le.mpr hlt),if_neg (Nat.not_le.mpr hfit),if_neg hlt',ge_iff_le,and_true]
    refine ⟨_,rfl,⟨by simp only [h.vars],h.qbits,h.draws,h.encoded,?_,h.qnamed⟩,rfl⟩
    intro v hmem
    rcases List.mem_append.mp hmem with hmem | hmem
    · exact h.named v hmem
    · rw [List.mem_singleton.mp hmem]
      exact ⟨hname,hvalue⟩

theorem stateOf_spelling (q : QuantumState) : ∃ pair : D × D, VM.stateOf q.spelling.2 = some pair := by
  cases q with
  | zero => exact ⟨_,rfl⟩
  | one => exact ⟨_,rfl⟩
  | plus => exact ⟨_,rfl⟩
  | minus => exact ⟨_,rfl⟩

theorem modify_append_last {α : Type} (xs : List α) (a : α) (f : α → α) :
    (xs ++ [a]).modify xs.length f = xs ++ [f a] := by
  induction xs with
  | nil => rfl
  | cons b xs ih => simp only [List.cons_append,List.length_cons,List.modify_succ_cons,ih]

theorem Tables.createQbit (h : Tables s vm) {name : Bytes} (state : QuantumState) (hnew : s.getQbit name = none)
    (hroom : s.qbits.length < maxQbits) (hfit : name.length < nameBytes) (hname : startsWord name = true) :
    ∃ t, s.createQbit name state.spelling.2 = .ok t ∧ Tables t (vm.createQbit name state.spelling.2) ∧
      t.output = s.output ∧ (vm.createQbit name state.spelling.2).output = vm.output := by
  obtain ⟨⟨a,b⟩,hpair⟩ := stateOf_spelling (D := D) state
  have hlength := h.qbits.length_eq
  have hroom' : ¬ vm.qbits.length ≥ maxVmQbits := by
    rw [← hlength]
    exact Nat.not_le.mpr hroom
  unfold Interp.createQbit VM.createQbit
  rw [h.findQbit,hnew]
  simp only [if_neg (Nat.not_le.mpr hfit),if_neg (Nat.not_le.mpr hroom),if_neg hroom',ge_iff_le,VM.prepare,hpair,
    VM.modifyQbit,modify_append_last,Option.getD_some,and_true]
  refine ⟨_,rfl,⟨h.vars,?_,h.draws,h.encoded,h.named,?_⟩,rfl⟩
  · exact List.rel_append h.qbits (List.Forall₂.cons ⟨rfl,rfl,rfl,rfl,nofun,rfl⟩ List.Forall₂.nil)
  · intro q hmem
    rcases List.mem_append.mp hmem with hmem | hmem
    · exact h.qnamed q hmem
    · rw [List.mem_singleton.mp hmem]
      exact hname

theorem sameQbit_hadamard {q : Qbit D} {v : VMQbit D} (h : SameQbit q v) :
    SameQbit (Interp.hadamard q) { v with
      a := div (add v.a v.b) (sqrt (ofInt 2))
      b := div (sub v.a v.b) (sqrt (ofInt 2))
      measured := false
      result := -1 } :=
  ⟨h.name,by simp only [Interp.hadamard,h.a,h.b],by simp only [Interp.hadamard,h.a,h.b],rfl,nofun,h.alone⟩

theorem sameQbit_measure {q : Qbit D} {v : VMQbit D} (h : SameQbit q v) (draw : ℤ) :
    SameQbit (Interp.measure draw q) (VM.collapse (VM.outcome draw v) v) := by
  have hresult : (Interp.measure draw q).result = VM.outcome draw v := by
    simp only [Interp.measure,VM.outcome,h.a]
  refine ⟨h.name,?_,?_,rfl,fun _ => hresult.symm,h.alone⟩
  · rw [← hresult]
    rfl
  · rw [← hresult]
    rfl

theorem Tables.hadamard (h : Tables s vm) {name : Bytes} (hq : (s.getQbit name).isSome = true) :
    Tables (s.onQbit name fun s q => { s with qbits := s.qbits.modify q Interp.hadamard })
      (vm.onQbit name VM.hadamard) ∧
    (s.onQbit name fun s q => { s with qbits := s.qbits.modify q Interp.hadamard }).output = s.output ∧
    (vm.onQbit name VM.hadamard).output = vm.output := by
  obtain ⟨i,hi⟩ := Option.isSome_iff_exists.mp hq
  have hown : vm.onQbit name VM.hadamard = vm.hadamard i := by rw [VM.onQbit,h.findQbit,hi]
  have hown' : (s.onQbit name fun s q => { s with qbits := s.qbits.modify q Interp.hadamard }) =
      { s with qbits := s.qbits.modify i Interp.hadamard } := by rw [Interp.onQbit,hi]
  rw [hown,hown']
  exact ⟨h.gate (fun _ _ _ _ => sameQbit_hadamard) (fun _ => rfl),rfl,rfl⟩

theorem Tables.measure (rand : ℕ → ℤ) (h : Tables s vm) {name : Bytes} (hq : (s.getQbit name).isSome = true) :
    Tables (s.onQbit name fun s q =>
        { s with draws := s.draws + 1, qbits := s.qbits.modify q (Interp.measure (rand s.draws)) })
      (vm.onQbit name (VM.measureLinked rand)) ∧
    (s.onQbit name fun s q =>
        { s with draws := s.draws + 1, qbits := s.qbits.modify q (Interp.measure (rand s.draws)) }).output = s.output ∧
    (vm.onQbit name (VM.measureLinked rand)).output = vm.output := by
  obtain ⟨i,hi⟩ := Option.isSome_iff_exists.mp hq
  obtain ⟨q,hentry,-⟩ := getElem?_of_findIdx? hi
  obtain ⟨v,hv,hsame⟩ := forall₂_getElem? h.qbits hentry
  have hmeasured : VM.measureLinked rand vm i = VM.modifyQbit { vm with draws := vm.draws + 1 } i
      (VM.collapse (VM.outcome (rand vm.draws) v)) := by
    simp only [VM.measureLinked,hv,hsame.alone,↓reduceIte]
  have hown : vm.onQbit name (VM.measureLinked rand) = VM.measureLinked rand vm i := by
    rw [VM.onQbit,h.findQbit,hi]
  have hdrawn : Tables { s with draws := s.draws + 1 } { vm with draws := vm.draws + 1 } :=
    ⟨h.vars,h.qbits,congrArg (· + 1) h.draws,h.encoded,h.named,h.qnamed⟩
  have hown' : (s.onQbit name fun s q =>
      { s with draws := s.draws + 1, qbits := s.qbits.modify q (Interp.measure (rand s.draws)) }) =
      { s with draws := s.draws + 1, qbits := s.qbits.modify i (Interp.measure (rand s.draws)) } := by
    rw [Interp.onQbit,hi]
  rw [hown,hmeasured,hown']
  refine ⟨hdrawn.gate ?_ (fun _ => rfl),rfl,rfl⟩
  intro a b _ hb hab
  cases hv.symm.trans hb
  rw [h.draws]
  exact sameQbit_measure hab _

theorem say_leaf (s : Interp D) (kind : NodeType) (text : Bytes) :
    s.say (leaf kind text) = match (s.getQbit text).bind (s.qbits[·]?) with
      | some q => .ok (s.printQbit q)
      | none =>
        if some kind = some NodeType.string then .ok (s.print (text ++ str "\n"))
        else .ok (s.print (formatG (s.getVar text) ++ str "\n")) := rfl

theorem say_prints (s : Interp D) (kind : NodeType) (text : Bytes) :
    ∃ chunk, s.say (leaf kind text) = .ok (s.print chunk) := by
  rw [say_leaf]
  split
  · rename_i q _
    exact ⟨qbitText q,by rw [printQbit_eq]⟩
  · split_ifs <;> exact ⟨_,rfl⟩

theorem say_vars {s t : Interp D} {kind : NodeType} {text : Bytes} (h : s.say (leaf kind text) = .ok t) :
    t.vars = s.vars := by
  obtain ⟨chunk,hchunk⟩ := say_prints s kind text
  rw [Except.ok.inj (h.symm.trans hchunk)]
  rfl

theorem vmSay_prints (h : Tables s vm) (text : Bytes) : ∃ chunk, vm.vmSay text = vm.print chunk := by
  unfold VM.vmSay
  split_ifs
  · unfold VM.qmsgPrintRegister
    rw [h.encoded]
    exact ⟨_,rfl⟩
  · split
    · unfold VM.printQbit
      split_ifs <;> exact ⟨_,rfl⟩
    · split <;> exact ⟨_,rfl⟩

theorem Tables.say_name (h : Tables s vm) {text : Bytes} (hne : text ≠ str "qmsg")
    (hdeclared : (s.getQbit text).isSome = true ∨ (s.findVar text).isSome = true) :
    ∃ chunk, s.say (leaf .ident text) = .ok (s.print chunk) ∧ vm.vmSay text = vm.print chunk := by
  rw [say_leaf,VM.vmSay,if_neg hne]
  cases hq : s.getQbit text with
  | some i =>
    obtain ⟨q,-,-,hentry⟩ := Interp.qbit_of_isSome (by rw [hq]; rfl : (s.getQbit text).isSome = true)
    obtain ⟨v,hv,hsame⟩ := h.qbit hentry
    rw [← hq,hentry,hv]
    refine ⟨qbitText q,?_,?_⟩
    · simp only [printQbit_eq]
    · simp only [printQbitVM_eq vm hsame]
  | none =>
    have hvar : (s.findVar text).isSome = true := by simpa [hq] using hdeclared
    obtain ⟨v,-,-,hv⟩ := Interp.var_of_isSome hvar
    refine ⟨formatG v.value ++ str "\n",?_,?_⟩
    · simp only [Option.bind_none,Interp.getVar,hv]
      rfl
    · simp only [h.findQbit,hq,Option.bind_none,h.var,hv]

/-- A literal that names nothing is printed as it stands by both. -/
theorem Tables.say_literal (h : Tables s vm) {text : Bytes} (hne : text ≠ str "qmsg") (hq : s.getQbit text = none)
    (hv : s.findVar text = none) :
    s.say (leaf .string text) = .ok (s.print (text ++ str "\n")) ∧ vm.vmSay text = vm.print (text ++ str "\n") := by
  constructor
  · rw [say_leaf]
    simp only [hq,Option.bind_none,↓reduceIte]
  · unfold VM.vmSay
    rw [if_neg hne]
    simp only [h.findQbit,hq,h.findVar,hv,Option.bind_none]

theorem startsWord_append {text rest : Bytes} (h : text ≠ []) : startsWord (text ++ rest) = startsWord text := by
  cases text with
  | nil => exact absurd rfl h
  | cons c tail => rfl

/-- The byte VM prints nothing else for a literal that names something. -/
theorem Tables.names_nothing (h : Tables s vm) {text : Bytes}
    (hprints : (vm.vmSay text).output = vm.output ++ (text ++ str "\n")) :
    text ≠ str "qmsg" ∧ s.getQbit text = none ∧ s.findVar text = none := by
  unfold VM.vmSay at hprints
  by_cases hqmsg : text = str "qmsg"
  · rw [if_pos hqmsg,hqmsg,VM.qmsgPrintRegister,h.encoded] at hprints
    exact absurd (List.append_cancel_left hprints) (by decide)
  rw [if_neg hqmsg] at hprints
  cases hq : s.getQbit text with
  | some i =>
    obtain ⟨q,hmem,hname,hentry⟩ := Interp.qbit_of_isSome (by rw [hq]; rfl : (s.getQbit text).isSome = true)
    obtain ⟨v,hv,hsame⟩ := h.qbit hentry
    rw [hv] at hprints
    simp only [printQbitVM_eq vm hsame] at hprints
    have hword : startsWord text = true := hname ▸ h.qnamed q hmem
    have hchunk : qbitText q = text ++ str "\n" := List.append_cancel_left hprints
    have hhead := qbitText_head q
    rw [hchunk,startsWord_append (by rintro rfl; cases hword),hword] at hhead
    cases hhead
  | none =>
    refine ⟨hqmsg,rfl,?_⟩
    cases hv : s.findVar text with
    | none => rfl
    | some i =>
      obtain ⟨v,hmem,hname,hentry⟩ := Interp.var_of_isSome (by rw [hv]; rfl : (s.findVar text).isSome = true)
      obtain ⟨hword,hvalue⟩ := h.named v hmem
      simp only [h.findQbit,hq,Option.bind_none,h.var,hentry] at hprints
      have hchunk : formatG v.value = text := List.append_cancel_right (List.append_cancel_left hprints)
      rw [hchunk,← hname,hword] at hvalue
      cases hvalue

theorem compare_spelling (c : Comparison) (x y : D) : ∃ b, VM.compare c.spelling.2 x y = some b := by
  cases c with
  | gt => exact ⟨_,rfl⟩
  | lt => exact ⟨_,rfl⟩
  | gte => exact ⟨_,rfl⟩
  | lte => exact ⟨_,rfl⟩
  | eqeq => exact ⟨_,rfl⟩

theorem Tables.check (h : Tables s vm) {value : Bytes} {left : Node} (hshape : Shape .check value left)
    (hown : Orderly .check value left s) :
    ∃ b, s.evalExpr left = .ok b ∧
      vm.evalCheck (conditionOf left).1 (conditionOf left).2.1 (conditionOf left).2.2 = (b, vm) := by
  obtain ⟨name,comparison,number,rfl⟩ := hshape
  have hvar : (s.findVar name).isSome = true := hown.1
  have hconstant : (atof number.text : D) = ofInt (atoi number.text) := hown.2
  obtain ⟨v,-,-,hv⟩ := Interp.var_of_isSome hvar
  obtain ⟨b,hb⟩ := compare_spelling comparison v.value (ofInt (atoi number.text) : D)
  refine ⟨b,?_,?_⟩
  · simp only [Interp.evalExpr,↓reduceIte,leaf,valueOf,Node.value?,bind,Except.bind,Interp.getVar,hv,hconstant,hb,
      Option.getD_some]
  · have hdecided : vm.evalCheck name comparison.spelling.2 (atoi number.text) = (b,vm) := by
      simp only [VM.evalCheck,h.var,hv,hb]
    exact hdecided

end Tables

section Runs
variable {D : Type} [Doubles D] (rand : ℕ → ℤ)
open Doubles Scalars

/-- Two runs that end with the same tables, have printed the same if their literals are
clean, and have printed their literals as they stand exactly then. -/
structure Joint (clean verbatim : Prop) (s t : Interp D) (vm vm' : VM D) : Prop where
  tables : Tables t vm'
  same : clean → ∃ chunk, t.output = s.output ++ chunk ∧ vm'.output = vm.output ++ chunk
  iff : verbatim ↔ clean

theorem Joint.refl {s : Interp D} {vm : VM D} (h : Tables s vm) {clean verbatim : Prop} (hclean : clean)
    (hverbatim : verbatim) : Joint clean verbatim s s vm vm :=
  ⟨h,fun _ => ⟨[],(List.append_nil _).symm,(List.append_nil _).symm⟩,⟨fun _ => hclean,fun _ => hverbatim⟩⟩

theorem Joint.congr {clean clean' verbatim verbatim' : Prop} {s t : Interp D} {vm vm' : VM D}
    (h : Joint clean verbatim s t vm vm') (hclean : clean' ↔ clean) (hverbatim : verbatim' ↔ verbatim) :
    Joint clean' verbatim' s t vm vm' :=
  ⟨h.tables,fun hc => h.same (hclean.mp hc),hverbatim.trans (h.iff.trans hclean.symm)⟩

theorem Joint.trans {clean clean' verbatim verbatim' : Prop} {s t u : Interp D} {vm vm' vm'' : VM D}
    (h : Joint clean verbatim s t vm vm') (h' : Joint clean' verbatim' t u vm' vm'') :
    Joint (clean ∧ clean') (verbatim ∧ verbatim') s u vm vm'' := by
  refine ⟨h'.tables,?_,and_congr h.iff h'.iff⟩
  rintro ⟨hc,hc'⟩
  obtain ⟨chunk,h1,h2⟩ := h.same hc
  obtain ⟨chunk',h1',h2'⟩ := h'.same hc'
  exact ⟨chunk ++ chunk',by rw [h1',h1,List.append_assoc],by rw [h2',h2,List.append_assoc]⟩

/-- A step that prints nothing. -/
theorem Joint.silent {s t : Interp D} {vm vm' : VM D} (h : Tables t vm') (hs : t.output = s.output)
    (hvm : vm'.output = vm.output) : Joint True (True ∧ True) s t vm vm' :=
  ⟨h,fun _ => ⟨[],by rw [hs,List.append_nil],by rw [hvm,List.append_nil]⟩,and_iff_left trivial⟩

/-- A statement that says nothing has no literal of its own. -/
theorem Joint.unsaid {s t : Interp D} {vm vm' : VM D} {clean mine theirs : Prop} {type : NodeType} {value : Bytes}
    {left : Node} (htype : type ≠ .say) (h : Joint clean (mine ∧ theirs) s t vm vm') :
    Joint (NamesNothing type value left s ∧ clean)
      ((PrintsLiteral type value left s ∧ mine) ∧ PrintsLiteralVM type value left vm ∧ theirs) s t vm vm' :=
  h.congr (and_iff_right fun hsay => absurd hsay htype) (and_congr
    (and_iff_right fun hsay => absurd hsay htype) (and_iff_right fun hsay => absurd hsay htype))

@[simp] theorem leaf_text (kind : NodeType) (text : Bytes) : (leaf kind text).text = text := rfl

theorem joint_say {s : Interp D} {vm : VM D} (h : Tables s vm) (value : Bytes) {left : Node}
    (hshape : Shape .say value left) (horder : Orderly .say value left s) :
    ∃ t, s.say left = .ok t ∧ Joint (NamesNothing .say value left s)
      (PrintsLiteral .say value left s ∧ PrintsLiteralVM .say value left vm) s t vm (vm.vmSay left.text) := by
  obtain ⟨kind,text,hkind,rfl⟩ := hshape
  rcases hkind with rfl | rfl
  · obtain ⟨chunk,hchunk⟩ := say_prints s .string text
    obtain ⟨chunk',hchunk'⟩ := vmSay_prints h text
    have htables : Tables (s.print chunk) (vm.vmSay text) := hchunk' ▸ h.print chunk chunk'
    have hliteral : NamesNothing .say value (leaf .string text) s →
        s.say (leaf .string text) = .ok (s.print (text ++ str "\n")) ∧
        vm.vmSay text = vm.print (text ++ str "\n") := by
      intro hclean
      obtain ⟨hne,hq,hv⟩ := hclean rfl rfl
      exact h.say_literal hne hq hv
    refine ⟨_,hchunk,htables,?_,?_⟩
    · intro hclean
      obtain ⟨hs,hvm⟩ := hliteral hclean
      have hsame : s.print chunk = s.print (text ++ str "\n") := Except.ok.inj (hchunk.symm.trans hs)
      rw [leaf_text,hvm,hsame]
      exact ⟨_,rfl,rfl⟩
    · constructor
      · rintro ⟨-,hprints⟩ _ _
        exact h.names_nothing (hprints rfl rfl)
      · intro hclean
        obtain ⟨hs,hvm⟩ := hliteral hclean
        refine ⟨fun _ _ => hs,fun _ _ => ?_⟩
        rw [leaf_text,hvm]
        rfl
  · obtain ⟨hne,hdeclared⟩ := horder rfl
    rw [leaf_text] at hne hdeclared ⊢
    obtain ⟨chunk,hs,hvm⟩ := h.say_name hne hdeclared
    rw [hvm]
    refine ⟨_,hs,h.print chunk chunk,fun _ => ⟨chunk,rfl,rfl⟩,?_⟩
    have hnot : Node.type? (leaf .ident text) ≠ some .string := fun hliteral => by cases hliteral
    exact ⟨fun _ _ hliteral => absurd hliteral hnot,
      fun _ => ⟨fun _ hliteral => absurd hliteral hnot,fun _ hliteral => absurd hliteral hnot⟩⟩

/-- What is clean, and what is verbatim, about the statement at the head of a tree and the
blocks it runs. -/
theorem joint_node {type : NodeType} {value : Bytes} {left right body next : Node} {s t u : Interp D} {σ : Session D}
    {clean mine theirs : Prop} (hstatement : statement rand (execute rand body) type value left s = .ok t)
    (hown : Joint clean (mine ∧ theirs) s t σ.vm (exec rand (.node type value left right body .null) σ).vm)
    (hnext : execute rand next t = .ok u)
    (hrest : Joint (Along rand NamesNothing next t) (Along rand PrintsLiteral next t ∧
        AlongVM rand PrintsLiteralVM next (exec rand (.node type value left right body .null) σ)) t u
      (exec rand (.node type value left right body .null) σ).vm
      (exec rand next (exec rand (.node type value left right body .null) σ)).vm) :
    execute rand (.node type value left right body next) s = .ok u ∧
    Joint (clean ∧ ∀ t, statement rand (execute rand body) type value left s = .ok t → Along rand NamesNothing next t)
      ((mine ∧ ∀ t, statement rand (execute rand body) type value left s = .ok t → Along rand PrintsLiteral next t) ∧
        theirs ∧ AlongVM rand PrintsLiteralVM next (exec rand (.node type value left right body .null) σ))
      s u σ.vm (exec rand (.node type value left right body next) σ).vm := by
  have hthen : ∀ P : Interp D → Prop,
      (∀ t, statement rand (execute rand body) type value left s = .ok t → P t) ↔ P t := by
    intro P
    rw [hstatement]
    exact ⟨fun h => h t rfl,fun h t' ht => Except.ok.inj ht ▸ h⟩
  have hexec : exec rand (.node type value left right body next) σ =
      exec rand next (exec rand (.node type value left right body .null) σ) := by
    cases type <;> rfl
  refine ⟨by rw [execute,hstatement]; exact hnext,?_⟩
  rw [hexec]
  refine (hown.trans hrest).congr (and_congr_right fun _ => hthen _) ?_
  rw [hthen]
  tauto

theorem rounds_succ {σ ε : Type} {run : σ → Except ε σ} {s t : σ} (h : run s = .ok t) (n : ℕ) :
    rounds run (n + 1) s = rounds run n t := by
  rw [rounds,h]
  rfl

/-- One run of a body, whatever it starts from. -/
def BodyJoint (body : Node) : Prop :=
  ∀ (s : Interp D) (σ : Session D), Tables s σ.vm → Along rand Orderly body s →
    ∃ t, execute rand body s = .ok t ∧ Joint (Along rand NamesNothing body s)
      (Along rand PrintsLiteral body s ∧ AlongVM rand PrintsLiteralVM body σ) s t σ.vm (exec rand body σ).vm

/-- A check, given one run of its body. -/
theorem check_joint {body : Node} (hbody : BodyJoint (D := D) rand body) (value : Bytes) {left : Node} (right : Node)
    {s : Interp D} {σ : Session D} (h : Tables s σ.vm) (hshape : Shape .check value left)
    (hown : Orderly .check value left s) (hblock : s.evalExpr left = .ok true → Along rand Orderly body s) :
    ∃ t, statement rand (execute rand body) .check value left s = .ok t ∧
      Joint (s.evalExpr left = .ok true → Along rand NamesNothing body s)
        ((s.evalExpr left = .ok true → Along rand PrintsLiteral body s) ∧
          ((σ.vm.evalCheck (conditionOf left).1 (conditionOf left).2.1 (conditionOf left).2.2).1 = true →
            AlongVM rand PrintsLiteralVM body
              (σ.perform rand (.check (conditionOf left).1 (conditionOf left).2.1 (conditionOf left).2.2))))
        s t σ.vm (exec rand (.node .check value left right body .null) σ).vm := by
  obtain ⟨b,hmine,htheirs⟩ := h.check hshape hown
  have htested : (σ.perform rand (.check (conditionOf left).1 (conditionOf left).2.1 (conditionOf left).2.2)).vm =
      σ.vm := by
    simp only [Session.perform,VM.act,htheirs]
  have hpass : (σ.vm.evalCheck (conditionOf left).1 (conditionOf left).2.1 (conditionOf left).2.2).1 = b := by
    rw [htheirs]
  have hexec : exec rand (.node .check value left right body .null) σ =
      if b = true then
        exec rand body (σ.perform rand (.check (conditionOf left).1 (conditionOf left).2.1 (conditionOf left).2.2))
      else σ.perform rand (.check (conditionOf left).1 (conditionOf left).2.1 (conditionOf left).2.2) := by
    rw [← hpass]
    rfl
  rw [hmine,hpass,hexec]
  cases b with
  | true =>
    obtain ⟨t,ht,hjoint⟩ := hbody s _ (htested ▸ h) (hblock hmine)
    refine ⟨t,?_,?_⟩
    · rw [statement,hmine]
      exact ht
    · rw [htested] at hjoint
      exact hjoint.congr (forall_prop_of_true rfl)
        (and_congr (forall_prop_of_true rfl) (forall_prop_of_true rfl))
  | false =>
    refine ⟨s,?_,?_⟩
    · rw [statement,hmine]
      rfl
    · rw [if_neg Bool.false_ne_true,htested]
      have hstops : (Except.ok false : Except RunFault Bool) ≠ .ok true := fun hok => by cases hok
      exact Joint.refl h (fun hok => absurd hok hstops)
        ⟨fun hok => absurd hok hstops,fun htrue => absurd htrue Bool.false_ne_true⟩

/-- The rounds of a repeat, given one run of its body. -/
theorem rounds_joint {body : Node} (hbody : BodyJoint (D := D) rand body) (k : ℕ) {s : Interp D} {σ : Session D}
    (h : Tables s σ.vm)
    (horder : ∀ i < k, ∀ t, rounds (execute rand body) i s = .ok t → Along rand Orderly body t) :
    ∃ t, rounds (execute rand body) k s = .ok t ∧
      Joint (∀ i < k, ∀ t, rounds (execute rand body) i s = .ok t → Along rand NamesNothing body t)
        ((∀ i < k, ∀ t, rounds (execute rand body) i s = .ok t → Along rand PrintsLiteral body t) ∧
          ∀ i < k, AlongVM rand PrintsLiteralVM body ((exec rand body)^[i] σ))
        s t σ.vm ((exec rand body)^[k] σ).vm := by
  induction k generalizing s σ with
  | zero => exact ⟨s,rfl,Joint.refl h (fun _ hi => absurd hi (Nat.not_lt_zero _))
      ⟨fun _ hi => absurd hi (Nat.not_lt_zero _),fun _ hi => absurd hi (Nat.not_lt_zero _)⟩⟩
  | succ k ih =>
    obtain ⟨t,ht,hjoint⟩ := hbody s σ h (horder 0 (Nat.succ_pos k) s rfl)
    have hsplit : ∀ P : Interp D → Prop, (∀ i < k + 1, ∀ u, rounds (execute rand body) i s = .ok u → P u) ↔
        P s ∧ ∀ i < k, ∀ u, rounds (execute rand body) i t = .ok u → P u := by
      intro P
      rw [Nat.forall_lt_succ_left]
      apply and_congr
      · exact ⟨fun hp => hp s rfl,fun hp u hu => Except.ok.inj hu ▸ hp⟩
      · simp only [rounds_succ ht]
    obtain ⟨u,hu,hrest⟩ := ih hjoint.tables ((hsplit _).mp horder).2
    refine ⟨u,by rw [rounds_succ ht]; exact hu,(hjoint.trans hrest).congr (hsplit _) ?_⟩
    rw [hsplit,Nat.forall_lt_succ_left]
    simp only [Function.iterate_succ,Function.comp_apply,Function.iterate_zero,id]
    tauto

/-- The two runs of a tree of the seven statements, when they are orderly. -/
theorem run_joint (hnumbers : ∀ n : Numeral, startsWord (formatG (atof n.text : D)) = false) (n : Node)
    {s : Interp D} {σ : Session D} (h : Tables s σ.vm) (hbasic : Basic n) (hfit : n.LexemesFit)
    (horder : Along rand Orderly n s) :
    ∃ t, execute rand n s = .ok t ∧ Joint (Along rand NamesNothing n s)
      (Along rand PrintsLiteral n s ∧ AlongVM rand PrintsLiteralVM n σ) s t σ.vm (exec rand n σ).vm := by
  induction n generalizing s σ with
  | null => exact ⟨s,rfl,Joint.refl h trivial ⟨trivial,trivial⟩⟩
  | node type value left right body next ihleft ihright ihbody ihnext =>
    obtain ⟨hshape,hbasicbody,hbasicnext⟩ := hbasic
    obtain ⟨hvalue,-,-,hfitbody,hfitnext⟩ := hfit
    obtain ⟨⟨hown,hblock⟩,hafter⟩ := horder
    have hfinish : ∀ {t : Interp D} {clean mine theirs : Prop},
        statement rand (execute rand body) type value left s = .ok t →
        Joint clean (mine ∧ theirs) s t σ.vm (exec rand (.node type value left right body .null) σ).vm →
        ∃ u, execute rand (.node type value left right body next) s = .ok u ∧
          Joint (clean ∧ ∀ t, statement rand (execute rand body) type value left s = .ok t →
              Along rand NamesNothing next t)
            ((mine ∧ ∀ t, statement rand (execute rand body) type value left s = .ok t →
              Along rand PrintsLiteral next t) ∧
              theirs ∧ AlongVM rand PrintsLiteralVM next (exec rand (.node type value left right body .null) σ))
            s u σ.vm (exec rand (.node type value left right body next) σ).vm := by
      intro t clean mine theirs ht hjoint
      obtain ⟨u,hu,hrest⟩ := ihnext hjoint.tables hbasicnext hfitnext (hafter t ht)
      exact ⟨u,joint_node rand ht hjoint hu hrest⟩
    have hrun : BodyJoint (D := D) rand body := fun s σ hs ho => ihbody hs hbasicbody hfitbody ho
    cases type with
    | say =>
      obtain ⟨t,ht,hjoint⟩ := joint_say h value hshape hown
      refine hfinish ht (hjoint.congr (and_iff_left trivial) ?_)
      exact and_congr (and_iff_left trivial) (and_iff_left trivial)
    | letBinding =>
      obtain ⟨hname,number,rfl⟩ := hshape
      obtain ⟨t,ht,htables,hs,hvm⟩ := h.setVar hown hvalue hname (hnumbers number)
      exact hfinish ht ((Joint.silent htables hs hvm).unsaid (by decide))
    | qbit =>
      obtain ⟨hname,state,rfl⟩ := hshape
      obtain ⟨t,ht,htables,hs,hvm⟩ := h.createQbit state hown.1 hown.2 hvalue hname
      exact hfinish ht ((Joint.silent htables hs hvm).unsaid (by decide))
    | hadamard =>
      obtain ⟨htables,hs,hvm⟩ := h.hadamard hown
      exact hfinish rfl ((Joint.silent htables hs hvm).unsaid (by decide))
    | measure =>
      obtain ⟨hne,hdeclared⟩ := hown
      obtain ⟨htables,hs,hvm⟩ := h.measure rand hdeclared
      have hact : (exec rand (.node .measure value left right body .null) σ).vm =
          σ.vm.onQbit value (VM.measureLinked rand) := by
        simp only [exec,Session.perform,VM.act,if_neg hne]
      exact hfinish rfl (hact ▸ (Joint.silent htables hs hvm).unsaid (by decide))
    | check =>
      obtain ⟨t,ht,hjoint⟩ := check_joint rand hrun value right h hshape hown hblock
      exact hfinish ht (hjoint.unsaid (by decide))
    | repeatLoop =>
      obtain ⟨t,ht,hjoint⟩ := rounds_joint rand hrun _ h hblock
      exact hfinish ht (hjoint.unsaid (by decide))
    | block =>
      obtain ⟨t,ht,hjoint⟩ := ihbody h hbasicbody hfitbody hblock
      exact hfinish ht (hjoint.unsaid (by decide))
    | _ => exact hshape.elim

end Runs

mutual

/-- The statements both runners know. -/
def isBasic : Statement → Bool
  | .say _ => true
  | .letBinding _ _ => true
  | .check _ _ _ body => areBasic body
  | .repeatLoop _ body => areBasic body
  | .qbit _ _ => true
  | .hadamard _ => true
  | .measure _ => true
  | _ => false

def areBasic : List Statement → Bool
  | [] => true
  | s :: rest => isBasic s && areBasic rest

end

theorem startsWord_word (w : Word) : startsWord w.text = true := by
  obtain ⟨text,hvalid⟩ := w
  cases text with
  | nil => cases hvalid
  | cons c rest =>
    simp only [wordText,Bool.and_eq_true] at hvalid
    exact hvalid.1.1

mutual

theorem basic_tree : ∀ (s : Statement) {next : Node}, isBasic s = true → Basic next → Basic (s.tree next)
  | .say (.text l), next, _, hnext => by
    rw [Statement.tree]
    exact ⟨⟨.string,l.text,Or.inl rfl,rfl⟩,trivial,hnext⟩
  | .say (.name w), next, _, hnext => by
    rw [Statement.tree]
    exact ⟨⟨.ident,w.text,Or.inr rfl,rfl⟩,trivial,hnext⟩
  | .letBinding name value, next, _, hnext => by
    rw [Statement.tree]
    exact ⟨⟨startsWord_word name,value,rfl⟩,trivial,hnext⟩
  | .check name comparison value body, next, hbasic, hnext => by
    rw [isBasic] at hbasic
    rw [Statement.tree]
    exact ⟨⟨name.text,comparison,value,rfl⟩,⟨trivial,basic_treeOf body hbasic,trivial⟩,hnext⟩
  | .repeatLoop count body, next, hbasic, hnext => by
    rw [isBasic] at hbasic
    rw [Statement.tree]
    exact ⟨trivial,⟨trivial,basic_treeOf body hbasic,trivial⟩,hnext⟩
  | .qbit name state, next, _, hnext => by
    rw [Statement.tree]
    exact ⟨⟨startsWord_word name,state,rfl⟩,trivial,hnext⟩
  | .hadamard name, next, _, hnext => by
    rw [Statement.tree]
    exact ⟨trivial,trivial,hnext⟩
  | .measure name, next, _, hnext => by
    rw [Statement.tree]
    exact ⟨trivial,trivial,hnext⟩

theorem basic_treeOf : ∀ program : List Statement, areBasic program = true → Basic (treeOf program)
  | [], _ => by
    rw [treeOf]
    trivial
  | s :: rest, hbasic => by
    rw [areBasic,Bool.and_eq_true] at hbasic
    rw [treeOf]
    exact basic_tree s hbasic.1 (basic_treeOf rest hbasic.2)

end

theorem Basic.wellFormed {n : Node} (h : Basic n) : n.WellFormed := by
  induction n with
  | null => trivial
  | node type value left right body next ihleft ihright ihbody ihnext =>
    obtain ⟨hshape,hbody,hnext⟩ := h
    refine ⟨?_,ihbody hbody,ihnext hnext⟩
    rintro (rfl | rfl | rfl)
    · obtain ⟨kind,text,-,rfl⟩ := hshape
      exact fun hnull => by cases hnull
    · obtain ⟨-,number,rfl⟩ := hshape
      exact fun hnull => by cases hnull
    · obtain ⟨-,state,rfl⟩ := hshape
      exact fun hnull => by cases hnull

section Programs
variable {D : Type} [Doubles D] (rand : ℕ → ℤ)
open Doubles Scalars

theorem start_tables : Tables (start D) ((emptyVM D).print banner) where
  vars := rfl
  qbits := List.Forall₂.nil
  draws := rfl
  encoded := rfl
  named _ h := by cases h
  qnamed _ h := by cases h

/-- Both runners finish a program of the seven statements whose run is orderly, whatever
is drawn. They print the same, and every literal that is said as it stands, exactly when
no literal that is said is the name of a variable or a qbit that is there, or of the
message register. -/
theorem runners_agree_iff (hnumbers : ∀ n : Numeral, startsWord (formatG (atof n.text : D)) = false)
    (program : List Statement) (hbasic : areBasic program = true)
    (hdepth : (treeOf program).repeatDepth ≤ maxRepeats) (hfit : (treeOf program).LexemesFit)
    (hroom : (codeOf (treeOf program)).length ≤ maxInstr)
    (horder : Along rand Orderly (treeOf program) (start D)) :
    ∃ s code session, execute rand (treeOf program) (start D) = .ok s ∧ compile (treeOf program) [] = .ok code ∧
      (∃ fuel, ∀ extra, runBytecode rand code (fuel + extra) (emptyVM D) = some session) ∧
      ((session.vm.output = banner ++ s.output ∧ Along rand PrintsLiteral (treeOf program) (start D) ∧
          AlongVM rand PrintsLiteralVM (treeOf program) ⟨(emptyVM D).print banner, []⟩) ↔
        Along rand NamesNothing (treeOf program) (start D)) := by
  have htree := basic_treeOf program hbasic
  have hcode : compile (treeOf program) [] = .ok (codeOf (treeOf program)) := by
    simpa using compile_eq (treeOf program) [] htree.wellFormed hfit (by simpa using hroom)
  have hruns := run_codeOf rand (treeOf program) (emptyVM D) (fits_of_repeatDepth rand _ _ hdepth)
  obtain ⟨s,hs,hjoint⟩ := run_joint rand hnumbers (treeOf program) (σ := ⟨(emptyVM D).print banner,[]⟩)
    start_tables htree hfit horder
  refine ⟨s,_,_,hs,hcode,hruns,?_⟩
  constructor
  · rintro ⟨-,hverbatim⟩
    exact hjoint.iff.mp hverbatim
  · intro hclean
    obtain ⟨chunk,hmine,htheirs⟩ := hjoint.same hclean
    refine ⟨?_,hjoint.iff.mpr hclean⟩
    rw [htheirs,hmine]
    rfl

end Programs

/-- Whole numbers of which the last digit is printed. -/
@[reducible] def digitDoubles : Doubles ℤ := { wholeDoubles with formatG := fun n => [UInt8.ofNat (48 + n.toNat % 10)] }

theorem digit_starts (n : ℤ) : startsWord (digitDoubles.formatG n) = false := by
  have hall : ∀ k < 10, startsWord [UInt8.ofNat (48 + k)] = false := by decide
  exact hall _ (Nat.mod_lt _ (by decide))

def wordX : Word := ⟨str "x", wordText_x⟩

/-- `let x = 5`, `say` a literal, `say x`. -/
def greeting (l : Literal) : List Statement :=
  [.letBinding wordX ⟨str "5", numeralText_five⟩, .say (.text l), .say (.name wordX)]

theorem greeting_orderly (l : Literal) :
    @Along ℤ digitDoubles (fun _ => 0) (@Orderly ℤ digitDoubles) (treeOf (greeting l)) (start ℤ) := by
  simp only [greeting,treeOf,Statement.tree]
  refine ⟨⟨Or.inr (by decide),trivial⟩,fun s hs => ?_⟩
  cases hs
  refine ⟨⟨fun hname => (by cases hname),trivial⟩,fun s hs => ?_⟩
  have hsaid : @Interp.say ℤ digitDoubles ⟨[⟨str "x",5⟩],[],0,[]⟩ (leaf .string l.text) = .ok s := hs
  have hvars := @say_vars ℤ digitDoubles _ s .string l.text hsaid
  refine ⟨⟨fun _ => ⟨by decide,Or.inr ?_⟩,trivial⟩,fun _ _ => trivial⟩
  rw [Interp.findVar,hvars]
  rfl

theorem runners_agree_greeting : ∃ s code session,
    @execute ℤ digitDoubles (fun _ => 0) (treeOf (greeting ⟨str "hi", by decide⟩)) (start ℤ) = .ok s ∧
    compile (treeOf (greeting ⟨str "hi", by decide⟩)) [] = .ok code ∧
    (∃ fuel, ∀ extra, @runBytecode ℤ digitDoubles (fun _ => 0) code (fuel + extra) (emptyVM ℤ) = some session) ∧
    session.vm.output = banner ++ s.output := by
  have hfit : (treeOf (greeting ⟨str "hi",by decide⟩)).LexemesFit := by
    simp only [greeting,treeOf,Statement.tree,Node.LexemesFit,Operand.tree,leaf]
    decide
  obtain ⟨s,code,session,hs,hcode,hruns,hiff⟩ := @runners_agree_iff ℤ digitDoubles (fun _ => 0)
    (fun n => digit_starts _) (greeting ⟨str "hi",by decide⟩) (by decide) (by decide) hfit (by decide)
    (greeting_orderly _)
  refine ⟨s,code,session,hs,hcode,hruns,(hiff.mpr ?_).1⟩
  simp only [greeting,treeOf,Statement.tree]
  refine ⟨⟨fun hsay => (by cases hsay),trivial⟩,fun s hs => ?_⟩
  cases hs
  refine ⟨⟨fun _ _ => ⟨by decide,rfl,by decide⟩,trivial⟩,fun s hs => ?_⟩
  cases hs
  exact ⟨⟨fun _ hliteral => (by cases hliteral),trivial⟩,fun _ _ => trivial⟩

/-- The byte VM prints the value of a variable in the place of a literal of its name. -/
theorem literal_named_x : ∃ s code session,
    @Along ℤ digitDoubles (fun _ => 0) (@Orderly ℤ digitDoubles) (treeOf (greeting ⟨str "x", by decide⟩)) (start ℤ) ∧
    @execute ℤ digitDoubles (fun _ => 0) (treeOf (greeting ⟨str "x", by decide⟩)) (start ℤ) = .ok s ∧
    compile (treeOf (greeting ⟨str "x", by decide⟩)) [] = .ok code ∧
    @runBytecode ℤ digitDoubles (fun _ => 0) code 9 (emptyVM ℤ) = some session ∧
    s.output = str "x\n5\n" ∧ session.vm.output = banner ++ str "5\n5\n" ∧
    session.vm.output ≠ banner ++ s.output := by
  exact ⟨_,_,_,greeting_orderly _,rfl,rfl,rfl,by decide,by decide,by decide⟩

end QbitNova.Interpreter
