import QbitNova.Language.Compiler
import QbitNova.Library.Checks
import Mathlib.Logic.Function.Iterate

/-! # The compiled program does what the tree says

The structured meaning of a tree runs statements in order, the body of a check once
if its condition holds, and the body of a repeat as often as its count says. The
machine, which rediscovers the blocks at run time, is shown to perform the same
actions and to end in the same state, by induction over the tree.
-/
namespace QbitNova.Language
open CText Transition

/-- The text of a node; null has none. -/
def Node.text (n : Node) : Bytes := n.value?.getD []

/-- The condition a check runs with; an incomplete one names no variable. -/
def conditionOf (left : Node) : Bytes × Bytes × ℤ := (condition? left).getD ([], [], 0)

section
variable {D : Type} [Doubles D] (rand : ℕ → ℤ)

/-- The structured meaning of a tree: its own statement, then what follows it. -/
def exec : Node → Session D → Session D
  | .null, s => s
  | .node type value left _ body next, s =>
    exec next (match type with
      | .say => s.perform rand (.say left.text)
      | .letBinding => s.perform rand (.setVar value left.text)
      | .qbit => s.perform rand (.createQbit value left.text)
      | .hadamard => s.perform rand (.hadamard value)
      | .measure => s.perform rand (.measure value)
      | .entangle => s.perform rand (.entangle value left.text)
      | .cnot => s.perform rand (.cnot value left.text)
      | .qmsg => s.perform rand (.qmsg left.text)
      | .encodeQmsg => s.perform rand (.encode value)
      | .decodeQmsg => s.perform rand (.decode value)
      | .check =>
        let condition := conditionOf left
        let tested := s.perform rand (.check condition.1 condition.2.1 condition.2.2)
        if (s.vm.evalCheck condition.1 condition.2.1 condition.2.2).1 then exec body tested else tested
      | .repeatLoop => (exec body)^[(atoi value).toNat] s
      | .action => s.perform rand (.safeAction value)
      | .block => exec body s
      | _ => s)

/-- While a tree runs, no more repeats are open at once than there is room for. -/
def Fits : Node → ℕ → Session D → Prop
  | .null, _, _ => True
  | .node type value left right body next, room, s =>
    (match type with
      | .check =>
        let condition := conditionOf left
        (s.vm.evalCheck condition.1 condition.2.1 condition.2.2).1 = true →
          Fits body room (s.perform rand (.check condition.1 condition.2.1 condition.2.2))
      | .repeatLoop => ∀ i < (atoi value).toNat, 0 < room ∧ Fits body (room - 1) ((exec rand body)^[i] s)
      | .block => Fits body room s
      | _ => True) ∧ Fits next room (exec rand (.node type value left right body .null) s)

end

/-- Statements that read a node to their left have one. -/
def Node.WellFormed : Node → Prop
  | .null => True
  | .node type _ left _ body next =>
    (type = .say ∨ type = .letBinding ∨ type = .qbit → left ≠ .null) ∧ body.WellFormed ∧ next.WellFormed

/-- How deep repeats are nested in each other. -/
def Node.repeatDepth : Node → ℕ
  | .null => 0
  | .node type _ _ _ body next => max (body.repeatDepth + if type = .repeatLoop then 1 else 0) next.repeatDepth

/-- A tree whose repeats are nested no deeper than the room never runs out of it. -/
theorem fits_of_repeatDepth {D : Type} [Doubles D] (rand : ℕ → ℤ) (n : Node) {room : ℕ} (s : Session D)
    (h : n.repeatDepth ≤ room) : Fits rand n room s := by
  induction n generalizing room s with
  | null => trivial
  | node type value left right body next ihleft ihright ihbody ihnext =>
    rw [Node.repeatDepth] at h
    have hown := (Nat.le_max_left _ _).trans h
    refine ⟨?_,ihnext _ ((Nat.le_max_right _ _).trans h)⟩
    cases type with
    | check => exact fun _ => ihbody _ hown
    | repeatLoop =>
      have hbody : body.repeatDepth + 1 ≤ room := hown
      exact fun i _ => ⟨by omega,ihbody _ (by omega)⟩
    | block => exact ihbody s hown
    | _ => trivial

/-- Every lexeme of the tree fits an argument field. -/
def Node.LexemesFit : Node → Prop
  | .null => True
  | .node _ value left right body next =>
    value.length < argumentBytes ∧ left.LexemesFit ∧ right.LexemesFit ∧ body.LexemesFit ∧ next.LexemesFit

section
variable {α β : Type} {toks : List Token}

/-- Whatever a routine returns has a property. -/
def Yields (P : α → Prop) (m : ParseM α) : Prop := ∀ pos a q, m pos = .ok (a, q) → P a

theorem Yields.pure {P : α → Prop} {a : α} (h : P a) : Yields P (pure a : ParseM α) := by
  rintro pos b q ⟨⟩
  exact h

theorem Yields.bind {P : α → Prop} {Q : β → Prop} {m : ParseM α} {f : α → ParseM β} (hm : Yields P m)
    (hf : ∀ a, P a → Yields Q (f a)) : Yields Q (m >>= f) := by
  intro pos b q h
  cases hmp : m pos with
  | error fault => simp only [Bind.bind,StateT.bind,hmp,Except.bind] at h; cases h
  | ok found =>
    obtain ⟨a,p⟩ := found
    simp only [Bind.bind,StateT.bind,hmp,Except.bind] at h
    exact hf a (hm pos a p hmp) p b q h

theorem yields_any (m : ParseM α) : Yields (fun _ => True) m := fun _ _ _ _ => trivial

theorem yields_takeNode (type : NodeType) : Yields (fun n => ∃ v, n = newNode type v) (takeNode toks type) :=
  (yields_any _).bind fun token _ => (yields_any _).bind fun _ _ => Yields.pure ⟨token.value,rfl⟩

theorem yields_parseOperand : Yields (· ≠ .null) (parseOperand toks) := by
  refine (yields_any _).bind fun token _ => ?_
  split
  · exact Yields.pure nofun
  · exact Yields.pure nofun

theorem newNode_wellFormed {type : NodeType} {value : Bytes} {left : Node} (h : left ≠ .null) :
    ((newNode type value).withLeft left).WellFormed := ⟨fun _ => h,trivial,trivial⟩

/-- The nodes of a list that are well formed make up a well-formed chain. -/
theorem chain_wellFormed {statements : List Node} (h : ∀ n ∈ statements, n.WellFormed) :
    (chain statements).WellFormed := by
  induction statements with
  | nil => trivial
  | cons statement rest ih =>
    have hrest := ih fun n hn => h n (List.mem_cons_of_mem _ hn)
    have hown := h statement List.mem_cons_self
    cases statement with
    | null => trivial
    | node type value left right body next => exact ⟨hown.1,hown.2.1,hrest⟩

theorem yields_statementFrom {block : ParseM Node} (hblock : Yields Node.WellFormed block) (t : Token) :
    Yields Node.WellFormed (statementFrom toks block t) := by
  have hplain : ∀ type, ¬ (type = .say ∨ type = .letBinding ∨ type = .qbit) →
      Yields Node.WellFormed (advance toks >>= fun _ => takeNode toks type) := by
    intro type hne
    refine (yields_any _).bind fun _ _ pos n q hn => ?_
    obtain ⟨v,rfl⟩ := yields_takeNode type pos n q hn
    exact ⟨fun h => absurd h hne,trivial,trivial⟩
  have hnamed : ∀ type operand, Yields Node.WellFormed (advance toks >>= fun _ => takeNode toks type >>= fun name =>
      advance toks >>= fun _ => takeNode toks operand >>= fun value => Pure.pure (name.withLeft value)) := by
    intro type operand
    refine (yields_any _).bind fun _ _ => (yields_takeNode type).bind fun name hname =>
      (yields_any _).bind fun _ _ => (yields_takeNode operand).bind fun value hvalue => Yields.pure ?_
    obtain ⟨v,rfl⟩ := hname
    obtain ⟨w,rfl⟩ := hvalue
    exact newNode_wellFormed nofun
  have hpair : ∀ type, Yields Node.WellFormed (advance toks >>= fun _ => takeNode toks type >>= fun name =>
      takeNode toks .ident >>= fun value => Pure.pure (name.withLeft value)) := by
    intro type
    refine (yields_any _).bind fun _ _ => (yields_takeNode type).bind fun name hname =>
      (yields_takeNode .ident).bind fun value hvalue => Yields.pure ?_
    obtain ⟨v,rfl⟩ := hname
    obtain ⟨w,rfl⟩ := hvalue
    exact newNode_wellFormed nofun
  have hoperand : ∀ type value, Yields Node.WellFormed (advance toks >>= fun _ => parseOperand toks >>= fun operand =>
      Pure.pure ((newNode type value).withLeft operand)) := fun type value =>
    (yields_any _).bind fun _ _ => yields_parseOperand.bind fun _ h => Yields.pure (newNode_wellFormed h)
  unfold statementFrom
  split
  · exact hoperand _ _
  · exact hnamed _ _
  · refine (yields_any _).bind fun _ _ => (yields_any _).bind fun _ _ => hblock.bind fun _ hbody => Yields.pure ?_
    exact ⟨nofun,hbody,trivial⟩
  · refine (yields_any _).bind fun _ _ => (yields_takeNode _).bind fun count hcount =>
      hblock.bind fun _ hbody => Yields.pure ?_
    obtain ⟨v,rfl⟩ := hcount
    exact ⟨nofun,hbody,trivial⟩
  · exact hoperand _ _
  · exact hplain _ nofun
  · exact hplain _ nofun
  · exact hnamed _ _
  · exact hplain _ nofun
  · exact hplain _ nofun
  · exact hpair _
  · exact hpair _
  · exact hplain _ nofun
  · exact (yields_any _).bind fun _ _ => Yields.pure ⟨nofun,trivial,trivial⟩

theorem yields_blockLoop {statement : ParseM Node} (hs : Yields Node.WellFormed statement) (fuel : ℕ) :
    Yields (fun body => ∀ n ∈ body, n.WellFormed) (blockLoop toks statement fuel) := by
  induction fuel with
  | zero => exact nofun
  | succ fuel ih =>
    refine (yields_any _).bind fun closing _ => ?_
    split
    · exact Yields.pure nofun
    · refine (yields_any _).bind fun ended _ => ?_
      split
      · exact Yields.pure nofun
      · exact hs.bind fun s h => ih.bind fun rest hrest => Yields.pure (List.forall_mem_cons.mpr ⟨h,hrest⟩)

theorem yields_parseStmt (fuel : ℕ) : Yields Node.WellFormed (parseStmt toks fuel) := by
  induction fuel with
  | zero => exact nofun
  | succ fuel ih =>
    refine (yields_any _).bind fun t _ => yields_statementFrom ?_ t
    refine (yields_any _).bind fun _ _ => (yields_blockLoop ih fuel).bind fun body hbody =>
      (yields_any _).bind fun _ _ => Yields.pure ?_
    exact ⟨nofun,chain_wellFormed hbody,trivial⟩

theorem yields_programLoop {statement : ParseM Node} (hs : Yields Node.WellFormed statement) (fuel : ℕ) :
    Yields (fun body => ∀ n ∈ body, n.WellFormed) (programLoop toks statement fuel) := by
  induction fuel with
  | zero => exact nofun
  | succ fuel ih =>
    refine (yields_any _).bind fun ended _ => ?_
    split
    · exact Yields.pure nofun
    · refine (yields_any _).bind fun directive _ => ?_
      split
      · exact (yields_any _).bind fun _ _ => ih
      · exact hs.bind fun s h => ih.bind fun rest hrest => Yields.pure (List.forall_mem_cons.mpr ⟨h,hrest⟩)

theorem parse_wellFormed {root : Node} (h : parse toks = .ok root) : root.WellFormed := by
  unfold parse at h
  cases hrun : programLoop toks (parseStmt toks toks.length) (toks.length + 1) 0 with
  | error fault => rw [hrun] at h; cases h
  | ok found =>
    rw [hrun] at h
    cases h
    exact ⟨nofun,chain_wellFormed (yields_programLoop (yields_parseStmt _) _ 0 _ _ hrun),trivial⟩

end

/-- The instructions of a tree. -/
def codeOf : Node → List Instruction
  | .null => []
  | .node type value left _ body next =>
    (match type with
      | .say => [{ op := .say, arg1 := left.text }]
      | .letBinding => [{ op := .letVar, arg1 := value, arg2 := left.text }]
      | .qbit => [{ op := .qbit, arg1 := value, arg2 := left.text }]
      | .hadamard => [{ op := .hadamard, arg1 := value }]
      | .measure => [{ op := .measure, arg1 := value }]
      | .entangle => [{ op := .entangle, arg1 := value, arg2 := left.text }]
      | .cnot => [{ op := .cnot, arg1 := value, arg2 := left.text }]
      | .qmsg => [{ op := .qmsg, arg1 := left.text }]
      | .encodeQmsg => [{ op := .encodeQmsg, arg1 := value }]
      | .decodeQmsg => [{ op := .decodeQmsg, arg1 := value }]
      | .check =>
        let condition := conditionOf left
        { op := .check, arg1 := condition.1, arg2 := condition.2.1, value := condition.2.2 } ::
          (codeOf body ++ [{ op := .endBlock }])
      | .repeatLoop => { op := .repeatLoop, value := atoi value } :: (codeOf body ++ [{ op := .endBlock }])
      | .action => [{ op := .safeAction, arg1 := value }]
      | .block => codeOf body
      | _ => []) ++ codeOf next

theorem Node.deref_eq {n : Node} (h : n ≠ .null) : n.deref = .ok n.text := by
  cases n with
  | null => exact absurd rfl h
  | node type value left right body next => rfl

theorem Node.text_fits {n : Node} (h : n.LexemesFit) : n.text.length < argumentBytes := by
  cases n with
  | null => exact (by decide : 0 < argumentBytes)
  | node type value left right body next => exact h.1

theorem conditionOf_fits {left : Node} (h : left.LexemesFit) :
    (conditionOf left).1.length < argumentBytes ∧ (conditionOf left).2.1.length < argumentBytes := by
  unfold conditionOf condition?
  split
  · exact ⟨h.2.1.1,h.1⟩
  · exact ⟨by decide,by decide⟩

/-- An instruction that fits is appended. -/
theorem emit_ok {op : OpCode} {arg1 arg2 : Option Bytes} {value : ℤ} {code : List Instruction}
    (hroom : code.length < maxInstr) (h1 : (arg1.getD []).length < argumentBytes)
    (h2 : (arg2.getD []).length < argumentBytes) :
    emit op arg1 arg2 value code = .ok (code ++ [⟨op, arg1.getD [], arg2.getD [], value⟩]) := by
  unfold emit
  rw [if_neg (by omega),if_neg (by omega)]

theorem emit_then (op : OpCode) (arg1 arg2 : Option Bytes) (value : ℤ) {code : List Instruction}
    (f : List Instruction → Except CompileFault (List Instruction)) (hroom : code.length < maxInstr)
    (h1 : (arg1.getD []).length < argumentBytes) (h2 : (arg2.getD []).length < argumentBytes) :
    (emit op arg1 arg2 value code >>= f) = f (code ++ [⟨op, arg1.getD [], arg2.getD [], value⟩]) := by
  rw [emit_ok hroom h1 h2]
  rfl

theorem emitCheck_ok {left : Node} {code : List Instruction} (hfit : left.LexemesFit)
    (hroom : code.length < maxInstr) :
    emitCheck left code =
      .ok (code ++ [⟨.check, (conditionOf left).1, (conditionOf left).2.1, (conditionOf left).2.2⟩]) := by
  obtain ⟨h1,h2⟩ := conditionOf_fits hfit
  unfold conditionOf at h1 h2 ⊢
  unfold emitCheck
  cases hc : condition? left with
  | none => exact emit_ok hroom (by decide) (by decide)
  | some found =>
    rw [hc] at h1 h2
    exact emit_ok hroom h1 h2

theorem compile_eq (n : Node) (code : List Instruction) (hwf : n.WellFormed) (hfit : n.LexemesFit)
    (hroom : code.length + (codeOf n).length ≤ maxInstr) : compile n code = .ok (code ++ codeOf n) := by
  induction n generalizing code with
  | null => rw [codeOf,List.append_nil]; rfl
  | node type value left right body next ihleft ihright ihbody ihnext =>
    obtain ⟨hleft,hwbody,hwnext⟩ := hwf
    obtain ⟨hvalue,hfleft,-,hfbody,hfnext⟩ := hfit
    have htext := Node.text_fits hfleft
    have hnil : ((none : Option Bytes).getD []).length < argumentBytes := by decide
    have hsimple : ∀ op arg1 arg2, (arg1.getD []).length < argumentBytes →
        (arg2.getD []).length < argumentBytes →
        code.length + ([(⟨op, arg1.getD [], arg2.getD [], 0⟩ : Instruction)] ++ codeOf next).length ≤ maxInstr →
        (emit op arg1 arg2 0 code >>= fun code => compile next code) =
          .ok (code ++ ([⟨op, arg1.getD [], arg2.getD [], 0⟩] ++ codeOf next)) := by
      intro op arg1 arg2 h1 h2 hlen
      simp only [List.length_append,List.length_singleton] at hlen
      rw [emit_then op arg1 arg2 0 _ (by omega) h1 h2,ihnext _ hwnext hfnext
        (by simp only [List.length_append,List.length_singleton]; omega),List.append_assoc]
    have hblock : ∀ ins : Instruction,
        code.length + (ins :: (codeOf body ++ [{ op := .endBlock }]) ++ codeOf next).length ≤ maxInstr →
        (compile body (code ++ [ins]) >>= fun inner => emit .endBlock none none 0 inner >>= fun closed =>
          compile next closed) = .ok (code ++ (ins :: (codeOf body ++ [{ op := .endBlock }]) ++ codeOf next)) := by
      intro ins hlen
      simp only [List.length_append,List.length_cons,List.length_nil] at hlen
      rw [ihbody (code ++ [ins]) hwbody hfbody (by simp only [List.length_append,List.length_singleton]; omega)]
      refine (emit_then .endBlock none none 0 _
        (by simp only [List.length_append,List.length_singleton]; omega) hnil hnil).trans ?_
      rw [ihnext _ hwnext hfnext (by simp only [List.length_append,List.length_singleton]; omega)]
      simp only [List.append_assoc,List.cons_append,List.nil_append,Option.getD_none]
    cases type with
    | say =>
      rw [compile,Node.deref_eq (hleft (by simp))]
      exact hsimple .say (some left.text) none htext hnil hroom
    | letBinding =>
      rw [compile,Node.deref_eq (hleft (by simp))]
      exact hsimple .letVar (some value) (some left.text) hvalue htext hroom
    | qbit =>
      rw [compile,Node.deref_eq (hleft (by simp))]
      exact hsimple .qbit (some value) (some left.text) hvalue htext hroom
    | hadamard => rw [compile]; exact hsimple .hadamard (some value) none hvalue hnil hroom
    | measure => rw [compile]; exact hsimple .measure (some value) none hvalue hnil hroom
    | entangle => rw [compile]; exact hsimple .entangle (some value) left.value? hvalue htext hroom
    | cnot => rw [compile]; exact hsimple .cnot (some value) left.value? hvalue htext hroom
    | qmsg => rw [compile]; exact hsimple .qmsg left.value? none htext hnil hroom
    | encodeQmsg => rw [compile]; exact hsimple .encodeQmsg (some value) none hvalue hnil hroom
    | decodeQmsg => rw [compile]; exact hsimple .decodeQmsg (some value) none hvalue hnil hroom
    | action => rw [compile]; exact hsimple .safeAction (some value) none hvalue hnil hroom
    | check =>
      have hlt : code.length < maxInstr := by
        have := hroom
        simp only [codeOf,List.length_append,List.length_cons] at this
        omega
      rw [compile,emitCheck_ok hfleft hlt]
      exact hblock _ hroom
    | repeatLoop =>
      have hlt : code.length < maxInstr := by
        have := hroom
        simp only [codeOf,List.length_append,List.length_cons] at this
        omega
      rw [compile]
      exact (emit_then .repeatLoop none none (atoi value) _ hlt hnil hnil).trans (hblock _ hroom)
    | block =>
      simp only [codeOf,List.length_append] at hroom
      rw [compile]
      refine (congrArg (· >>= fun code => compile next code) (ihbody code hwbody hfbody (by omega))).trans ?_
      refine (ihnext _ hwnext hfnext (by rw [List.length_append]; omega)).trans ?_
      rw [codeOf,List.append_assoc]
    | _ => exact ihnext code hwnext hfnext hroom

theorem emit_eq {op : OpCode} {arg1 arg2 : Option Bytes} {value : ℤ} {code code' : List Instruction}
    (h : emit op arg1 arg2 value code = .ok code') :
    code' = code ++ [⟨op, arg1.getD [], arg2.getD [], value⟩] ∧ (arg1.getD []).length < argumentBytes := by
  unfold emit at h
  split_ifs at h with hroom hlong
  cases h
  exact ⟨rfl,by omega⟩

theorem bind_eq_ok {ε α β : Type} {x : Except ε α} {f : α → Except ε β} {b : β} (h : (x >>= f) = .ok b) :
    ∃ a, x = .ok a ∧ f a = .ok b := Checks.bind_ok_iff.mp h

theorem deref_eq_ok {n : Node} {value : Bytes} (h : n.deref = .ok value) : value = n.text := by
  cases n with
  | null => cases h
  | node => cases h; rfl

theorem emitCheck_eq {left : Node} {code code' : List Instruction} (h : emitCheck left code = .ok code') :
    code' = code ++ [⟨.check, (conditionOf left).1, (conditionOf left).2.1, (conditionOf left).2.2⟩] ∧
      (conditionOf left).1.length < argumentBytes := by
  unfold emitCheck at h
  unfold conditionOf
  cases hc : condition? left with
  | none =>
    rw [hc] at h
    exact emit_eq h
  | some found =>
    rw [hc] at h
    exact emit_eq h

theorem code_of_compile {n : Node} {code code' : List Instruction} (h : compile n code = .ok code') :
    code' = code ++ codeOf n ∧ ∀ ins ∈ codeOf n, ins.arg1.length < argumentBytes := by
  induction n generalizing code code' with
  | null =>
    cases h
    exact ⟨(List.append_nil _).symm,by simp [codeOf]⟩
  | node type value left right body next ihleft ihright ihbody ihnext =>
    have hthen : ∀ {own : List Instruction} {mid : List Instruction}, mid = code ++ own →
        (∀ ins ∈ own, ins.arg1.length < argumentBytes) → compile next mid = .ok code' →
        code' = code ++ (own ++ codeOf next) ∧
          ∀ ins ∈ own ++ codeOf next, ins.arg1.length < argumentBytes := by
      rintro own mid rfl hown hnext
      obtain ⟨rfl,hrest⟩ := ihnext hnext
      exact ⟨List.append_assoc _ _ _,fun ins hins => (List.mem_append.mp hins).elim (hown ins) (hrest ins)⟩
    have hsimple : ∀ {op arg1 arg2 mid}, emit op arg1 arg2 0 code = .ok mid → compile next mid = .ok code' →
        code' = code ++ ([(⟨op, arg1.getD [], arg2.getD [], 0⟩ : Instruction)] ++ codeOf next) ∧
          ∀ ins ∈ [(⟨op, arg1.getD [], arg2.getD [], 0⟩ : Instruction)] ++ codeOf next,
            ins.arg1.length < argumentBytes := by
      intro op arg1 arg2 mid hemit hnext
      obtain ⟨hmid,hlen⟩ := emit_eq hemit
      refine hthen hmid (fun ins hins => ?_) hnext
      obtain rfl := List.mem_singleton.mp hins
      exact hlen
    have hblock : ∀ {ins : Instruction} {mid inner}, mid = code ++ [ins] → ins.arg1.length < argumentBytes →
        compile body mid = .ok inner → (emit .endBlock none none 0 inner >>= fun closed => compile next closed) = .ok code' →
        code' = code ++ (ins :: (codeOf body ++ [({ op := .endBlock } : Instruction)]) ++ codeOf next) ∧
          ∀ i ∈ ins :: (codeOf body ++ [({ op := .endBlock } : Instruction)]) ++ codeOf next,
            i.arg1.length < argumentBytes := by
      rintro ins mid inner rfl hlen hbody hrest
      obtain ⟨rfl,hinner⟩ := ihbody hbody
      obtain ⟨closed,hemit,hnext⟩ := bind_eq_ok hrest
      obtain ⟨rfl,hend⟩ := emit_eq hemit
      refine hthen (by simp) (fun i hi => ?_) hnext
      rcases List.mem_cons.mp hi with rfl | hi
      · exact hlen
      rcases List.mem_append.mp hi with hi | hi
      · exact hinner i hi
      · obtain rfl := List.mem_singleton.mp hi
        exact hend
    cases type with
    | say =>
      obtain ⟨text,htext,h⟩ := bind_eq_ok h
      obtain ⟨mid,hemit,hnext⟩ := bind_eq_ok h
      obtain rfl := deref_eq_ok htext
      exact hsimple hemit hnext
    | letBinding =>
      obtain ⟨text,htext,h⟩ := bind_eq_ok h
      obtain ⟨mid,hemit,hnext⟩ := bind_eq_ok h
      obtain rfl := deref_eq_ok htext
      exact hsimple hemit hnext
    | qbit =>
      obtain ⟨text,htext,h⟩ := bind_eq_ok h
      obtain ⟨mid,hemit,hnext⟩ := bind_eq_ok h
      obtain rfl := deref_eq_ok htext
      exact hsimple hemit hnext
    | check =>
      obtain ⟨opened,hopened,h⟩ := bind_eq_ok h
      obtain ⟨inner,hinner,h⟩ := bind_eq_ok h
      obtain ⟨hopened,hlen⟩ := emitCheck_eq hopened
      exact hblock hopened hlen hinner h
    | repeatLoop =>
      obtain ⟨opened,hopened,h⟩ := bind_eq_ok h
      obtain ⟨inner,hinner,h⟩ := bind_eq_ok h
      obtain ⟨hopened,hlen⟩ := emit_eq hopened
      exact hblock hopened hlen hinner h
    | block =>
      obtain ⟨mid,hmid,hnext⟩ := bind_eq_ok h
      obtain ⟨hmid,hbody⟩ := ihbody hmid
      exact hthen hmid hbody hnext
    | program | binop | string | number | ident | state => exact ihnext h
    | _ =>
      obtain ⟨mid,hmid,hnext⟩ := bind_eq_ok h
      exact hsimple hmid hnext

/-- The segment stands in the code from an index on. -/
def CodeAt (code : List Instruction) (pc : ℕ) (segment : List Instruction) : Prop := segment <+: code.drop pc

theorem CodeAt.append {code a b : List Instruction} {pc : ℕ} (h : CodeAt code pc (a ++ b)) :
    CodeAt code pc a ∧ CodeAt code (pc + a.length) b := by
  obtain ⟨rest,hrest⟩ := h
  refine ⟨⟨b ++ rest,by rw [← hrest,List.append_assoc]⟩,⟨rest,?_⟩⟩
  rw [← List.drop_drop,← hrest,List.append_assoc,List.drop_left]

theorem CodeAt.head {code segment : List Instruction} {ins : Instruction} {pc : ℕ}
    (h : CodeAt code pc (ins :: segment)) : code[pc]? = some ins ∧ CodeAt code (pc + 1) segment := by
  obtain ⟨rest,hrest⟩ := h
  refine ⟨?_,⟨rest,?_⟩⟩
  · have := congrArg (fun l => l[0]?) hrest
    simpa [List.getElem?_drop] using this.symm
  · rw [← List.drop_drop,← hrest]
    rfl

/-- The scan for an END passes over the whole code of a tree. -/
theorem findEnd_code (n : Node) (rest : List Instruction) (index depth : ℕ) :
    findEnd (codeOf n ++ rest) index depth = findEnd rest (index + (codeOf n).length) depth := by
  induction n generalizing rest index depth with
  | null => rfl
  | node type value left right body next ihleft ihright ihbody ihnext =>
    have hone : ∀ ins : Instruction, ins.op.opensBlock = false → ins.op ≠ .endBlock →
        findEnd ([ins] ++ codeOf next ++ rest) index depth =
          findEnd rest (index + ([ins] ++ codeOf next).length) depth := by
      intro ins hopen hend
      rw [List.append_assoc,List.singleton_append,findEnd]
      simp only [hopen,Bool.false_eq_true,↓reduceIte,if_neg hend]
      rw [ihnext,List.length_append,List.length_singleton,Nat.add_assoc]
    have hblock : ∀ ins : Instruction, ins.op.opensBlock = true → ins.op ≠ .endBlock →
        findEnd (ins :: (codeOf body ++ [({ op := .endBlock } : Instruction)]) ++ codeOf next ++ rest) index depth =
          findEnd rest (index + (ins :: (codeOf body ++ [({ op := .endBlock } : Instruction)]) ++
            codeOf next).length) depth := by
      intro ins hopen hend
      simp only [List.cons_append,List.append_assoc,findEnd,hopen,↓reduceIte,if_neg hend]
      rw [ihbody,List.nil_append,findEnd]
      simp only [OpCode.opensBlock,Bool.false_eq_true,↓reduceIte,Nat.succ_ne_zero,Nat.add_sub_cancel]
      rw [ihnext]
      congr 1
      simp only [List.length_cons,List.length_append,List.length_nil]
      omega
    cases type with
    | check => exact hblock _ rfl nofun
    | repeatLoop => exact hblock _ rfl nofun
    | block =>
      rw [codeOf,List.append_assoc,ihbody,ihnext,List.length_append,Nat.add_assoc]
    | program => exact ihnext rest index depth
    | binop => exact ihnext rest index depth
    | string => exact ihnext rest index depth
    | number => exact ihnext rest index depth
    | ident => exact ihnext rest index depth
    | state => exact ihnext rest index depth
    | _ => exact hone _ rfl nofun

/-- In front of the body of a block the scan finds the END right after it. -/
theorem findEnd_body {code : List Instruction} {n : Node} {pc : ℕ} {ins : Instruction}
    (hat : CodeAt code (pc + 1) (codeOf n ++ [ins])) (hend : ins.op = .endBlock) :
    findEnd (code.drop (pc + 1)) (pc + 1) 0 = some (pc + 1 + (codeOf n).length) := by
  obtain ⟨rest,hrest⟩ := hat
  rw [← hrest,List.append_assoc,findEnd_code,List.singleton_append,findEnd,hend]
  rfl

section
variable {D : Type} [Doubles D] (rand : ℕ → ℤ) {code : List Instruction}

theorem step_checkPassed {pc : ℕ} {repeats : List Frame} {s : Session D} {ins : Instruction}
    (h : code[pc]? = some ins) (hop : ins.op = .check)
    (hpass : (s.vm.evalCheck ins.arg1 ins.arg2 ins.value).1 = true) :
    step rand code ⟨pc, repeats, s, false⟩ =
      some ⟨pc + 1, repeats, s.perform rand (.check ins.arg1 ins.arg2 ins.value), false⟩ := by
  rw [step_at rand h]
  unfold execute
  rw [hop]
  simp only [if_pos hpass]

theorem step_checkFailed {pc stop : ℕ} {repeats : List Frame} {s : Session D} {ins : Instruction}
    (h : code[pc]? = some ins) (hop : ins.op = .check)
    (hfail : ¬ (s.vm.evalCheck ins.arg1 ins.arg2 ins.value).1 = true)
    (hfind : findEnd (code.drop (pc + 1)) (pc + 1) 0 = some stop) :
    step rand code ⟨pc, repeats, s, false⟩ =
      some ⟨stop + 1, repeats, s.perform rand (.check ins.arg1 ins.arg2 ins.value), false⟩ := by
  rw [step_at rand h]
  unfold execute
  rw [hop]
  simp only [if_neg hfail,hfind,Option.getD_some]

theorem step_repeatSkipped {pc stop : ℕ} {repeats : List Frame} {s : Session D} {ins : Instruction}
    (h : code[pc]? = some ins) (hop : ins.op = .repeatLoop) (hcount : ins.value ≤ 0)
    (hfind : findEnd (code.drop (pc + 1)) (pc + 1) 0 = some stop) :
    step rand code ⟨pc, repeats, s, false⟩ = some ⟨stop + 1, repeats, s, false⟩ := by
  rw [step_at rand h]
  unfold execute
  rw [hop]
  simp only [hfind,if_pos hcount]

theorem step_repeatEntered {pc stop : ℕ} {repeats : List Frame} {s : Session D} {ins : Instruction}
    (h : code[pc]? = some ins) (hop : ins.op = .repeatLoop) (hcount : ¬ ins.value ≤ 0)
    (hfind : findEnd (code.drop (pc + 1)) (pc + 1) 0 = some stop) (hroom : repeats.length < maxRepeats) :
    step rand code ⟨pc, repeats, s, false⟩ =
      some ⟨pc + 1, ⟨pc, stop, ins.value⟩ :: repeats, s, false⟩ := by
  rw [step_at rand h]
  unfold execute
  rw [hop]
  simp only [hfind,if_neg hcount,if_neg (Nat.not_le.mpr hroom),ge_iff_le]

theorem repeat_reaches {n : Node} {pc : ℕ} {repeats : List Frame} {ins : Instruction} {k : ℕ} {s : Session D}
    (hbody : ∀ i < k + 1, ∀ left : ℤ, Reaches (step rand code)
      ⟨pc + 1, ⟨pc, pc + 1 + (codeOf n).length, left⟩ :: repeats, (exec rand n)^[i] s, false⟩
      ⟨pc + 1 + (codeOf n).length, ⟨pc, pc + 1 + (codeOf n).length, left⟩ :: repeats,
        exec rand n ((exec rand n)^[i] s), false⟩)
    (hins : code[pc + 1 + (codeOf n).length]? = some ins) (hend : ins.op = .endBlock) :
    Reaches (step rand code)
      ⟨pc + 1, ⟨pc, pc + 1 + (codeOf n).length, (k : ℤ) + 1⟩ :: repeats, s, false⟩
      ⟨pc + 1 + (codeOf n).length + 1, repeats, (exec rand n)^[k + 1] s, false⟩ := by
  induction k generalizing s with
  | zero =>
    exact (hbody 0 Nat.one_pos _).trans (Reaches.single (step_endLast rand hins hend (by simp)))
  | succ k ih =>
    have hrest := ih (s := exec rand n s) fun i hi => hbody (i + 1) (Nat.succ_lt_succ hi)
    refine (hbody 0 (Nat.succ_pos _) _).trans (Reaches.head ?_ hrest)
    have hleft : ((k + 1 : ℕ) : ℤ) + 1 - 1 = (k : ℤ) + 1 := by omega
    rw [step_endAgain rand hins hend (by omega),hleft]
    rfl

theorem exec_reaches (n : Node) {pc : ℕ} {repeats : List Frame} (s : Session D)
    (hat : CodeAt code pc (codeOf n)) (hfits : Fits rand n (maxRepeats - repeats.length) s)
    (hstop : EndsBefore (pc + (codeOf n).length) repeats) :
    Reaches (step rand code) ⟨pc, repeats, s, false⟩
      ⟨pc + (codeOf n).length, repeats, exec rand n s, false⟩ := by
  induction n generalizing pc repeats s with
  | null => exact Reaches.refl _
  | node type value left right body next ihleft ihright ihbody ihnext =>
    obtain ⟨hown,hnext⟩ := hfits
    have hthen : ∀ (own : List Instruction) (t : Session D), CodeAt code pc (own ++ codeOf next) →
        EndsBefore (pc + (own ++ codeOf next).length) repeats → Fits rand next (maxRepeats - repeats.length) t →
        Reaches (step rand code) ⟨pc, repeats, s, false⟩ ⟨pc + own.length, repeats, t, false⟩ →
        Reaches (step rand code) ⟨pc, repeats, s, false⟩
          ⟨pc + (own ++ codeOf next).length, repeats, exec rand next t, false⟩ := by
      intro own t hat hstop hnext hown
      rw [List.length_append,← Nat.add_assoc] at hstop ⊢
      exact hown.trans (ihnext t hat.append.2 hnext hstop)
    have hsimple : ∀ (ins : Instruction) (action : Action), CodeAt code pc ([ins] ++ codeOf next) →
        EndsBefore (pc + ([ins] ++ codeOf next).length) repeats →
        Fits rand next (maxRepeats - repeats.length) (s.perform rand action) →
        execute rand code ⟨pc, repeats, s, false⟩ ins = ⟨pc + 1, repeats, s.perform rand action, false⟩ →
        Reaches (step rand code) ⟨pc, repeats, s, false⟩
          ⟨pc + ([ins] ++ codeOf next).length, repeats, exec rand next (s.perform rand action), false⟩ := by
      intro ins action hat hstop hnext hexec
      refine hthen [ins] _ hat hstop hnext (Reaches.single ?_)
      rw [step_at rand hat.head.1,hexec]
      rfl
    have hblock : ∀ (ins : Instruction) (t : Session D),
        CodeAt code pc (ins :: (codeOf body ++ [({ op := .endBlock } : Instruction)]) ++ codeOf next) →
        EndsBefore (pc + (ins :: (codeOf body ++ [({ op := .endBlock } : Instruction)]) ++ codeOf next).length)
          repeats →
        Fits rand next (maxRepeats - repeats.length) t →
        Reaches (step rand code) ⟨pc, repeats, s, false⟩
          ⟨pc + 1 + (codeOf body).length + 1, repeats, t, false⟩ →
        Reaches (step rand code) ⟨pc, repeats, s, false⟩
          ⟨pc + (ins :: (codeOf body ++ [({ op := .endBlock } : Instruction)]) ++ codeOf next).length, repeats,
            exec rand next t, false⟩ := by
      intro ins t hat hstop hnext hown
      refine hthen (ins :: (codeOf body ++ [({ op := .endBlock } : Instruction)])) t hat hstop hnext ?_
      have hlen : pc + (ins :: (codeOf body ++ [({ op := .endBlock } : Instruction)])).length =
          pc + 1 + (codeOf body).length + 1 := by
        simp only [List.length_append,List.length_cons,List.length_nil]
        omega
      rw [hlen]
      exact hown
    cases type with
    | say => exact hsimple _ _ hat hstop hnext rfl
    | letBinding => exact hsimple _ _ hat hstop hnext rfl
    | qbit => exact hsimple _ _ hat hstop hnext rfl
    | hadamard => exact hsimple _ _ hat hstop hnext rfl
    | measure => exact hsimple _ _ hat hstop hnext rfl
    | entangle => exact hsimple _ _ hat hstop hnext rfl
    | cnot => exact hsimple _ _ hat hstop hnext rfl
    | qmsg => exact hsimple _ _ hat hstop hnext rfl
    | encodeQmsg => exact hsimple _ _ hat hstop hnext rfl
    | decodeQmsg => exact hsimple _ _ hat hstop hnext rfl
    | action => exact hsimple _ _ hat hstop hnext rfl
    | check =>
      refine hblock _ _ hat hstop hnext ?_
      obtain ⟨hins,hrest⟩ := hat.append.1.head
      have hlast := hrest.append.2.head.1
      have hfind := findEnd_body hrest rfl
      have hbefore : EndsBefore (pc + 1 + (codeOf body).length + 1) repeats :=
        hstop.mono (by simp only [codeOf,List.length_append,List.length_cons,List.length_nil]; omega)
      by_cases hpass : (s.vm.evalCheck (conditionOf left).1 (conditionOf left).2.1 (conditionOf left).2.2).1 = true
      · simp only [if_pos hpass]
        refine Reaches.head (step_checkPassed rand hins rfl hpass) ?_
        refine (ihbody _ hrest.append.1 (hown hpass) (hbefore.mono (Nat.le_succ _))).trans (Reaches.single ?_)
        exact step_endOfCheck rand hlast rfl hbefore
      · simp only [if_neg hpass]
        exact Reaches.single (step_checkFailed rand hins rfl hpass hfind)
    | repeatLoop =>
      refine hblock _ _ hat hstop hnext ?_
      obtain ⟨hins,hrest⟩ := hat.append.1.head
      have hlast := hrest.append.2.head.1
      have hfind := findEnd_body hrest rfl
      by_cases hcount : atoi value ≤ 0
      · have hnone : (atoi value).toNat = 0 := Int.toNat_of_nonpos hcount
        simp only [hnone,Function.iterate_zero,id]
        exact Reaches.single (step_repeatSkipped rand hins rfl hcount hfind)
      · obtain ⟨k,hk⟩ : ∃ k : ℕ, atoi value = (k : ℤ) + 1 := ⟨(atoi value).toNat - 1,by omega⟩
        have hrounds : (atoi value).toNat = k + 1 := by omega
        simp only [hrounds] at hown ⊢
        have hroom : repeats.length < maxRepeats := Nat.lt_of_sub_pos (hown 0 (Nat.succ_pos k)).1
        refine Reaches.head (step_repeatEntered rand hins rfl hcount hfind hroom) ?_
        simp only [hk]
        refine repeat_reaches rand (fun i hi left => ?_) hlast rfl
        have hbody := (hown i hi).2
        rw [Nat.sub_sub] at hbody
        exact ihbody _ hrest.append.1 hbody (EndsBefore.head (le_refl _))
    | block =>
      refine hthen (codeOf body) _ hat hstop hnext (ihbody s hat.append.1 hown (hstop.mono ?_))
      rw [codeOf,List.length_append]
      omega
    | _ => exact ihnext s hat hnext hstop

/-- The code of a tree runs to the end the tree describes, if its repeats fit the stack. -/
theorem run_codeOf (root : Node) (vm : VM D) (hfits : Fits rand root maxRepeats ⟨vm.print banner, []⟩) :
    ∃ fuel, ∀ extra, runBytecode rand (codeOf root) (fuel + extra) vm =
      some (exec rand root ⟨vm.print banner, []⟩) := by
  have hreach : Reaches (step rand (codeOf root)) ⟨0, [], ⟨vm.print banner, []⟩, false⟩
      ⟨0 + (codeOf root).length, [], exec rand root ⟨vm.print banner, []⟩, false⟩ :=
    exec_reaches rand root _ ⟨[],by simp⟩ hfits (fun _ h => nomatch h)
  obtain ⟨fuel,hfuel⟩ := halt_of_reaches hreach (by simp [step])
  exact ⟨fuel,fun extra => by rw [runBytecode,hfuel]; rfl⟩

/-- What the compiler emits runs, from every VM state and with every stream of random
numbers, to the end the tree describes, performing the same actions. -/
theorem run_compile (root : Node) (vm : VM D) (hwf : root.WellFormed) (hdepth : root.repeatDepth ≤ maxRepeats)
    (hfit : root.LexemesFit) (hroom : (codeOf root).length ≤ maxInstr) :
    ∃ code, compile root [] = .ok code ∧ ∃ fuel, ∀ extra,
      runBytecode rand code (fuel + extra) vm = some (exec rand root ⟨vm.print banner, []⟩) := by
  refine ⟨codeOf root,by simpa using compile_eq root [] hwf hfit (by simpa using hroom),?_⟩
  exact run_codeOf rand root vm (fits_of_repeatDepth rand root _ hdepth)

end

/-- Whole numbers as doubles, for programs that use no other ones. -/
@[reducible] def wholeDoubles : Doubles ℤ where
  ofInt n := n
  atof := atoi
  add := (· + ·)
  sub := (· - ·)
  mul := (· * ·)
  div := (· / ·)
  sqrt n := n.toNat.sqrt
  fabs n := n.natAbs
  lt x y := decide (x < y)
  le x y := decide (x ≤ y)
  eq x y := decide (x = y)
  isFinite _ := true
  formatG := decimal
  formatFixed3 n := decimal n ++ str ".000"

/-- `let x = 2`, then three times a check of `x > 1` around a `say x`. -/
def nestedProgram : Node :=
  let sayX := .node .say (str "say") (newNode .ident (str "x")) .null .null .null
  let aboveOne := .node .binop (str ">") (newNode .ident (str "x")) (newNode .number (str "1")) .null .null
  let check := .node .check (str "check") aboveOne .null (.node .block (str "block") .null .null sayX .null) .null
  let rounds := .node .repeatLoop (str "3") .null .null (.node .block (str "block") .null .null check .null) .null
  .node .letBinding (str "x") (newNode .number (str "2")) .null .null rounds

def emptyVM (D : Type) : VM D := ⟨[], [], [], [], false, false, false, 0, []⟩

theorem run_compile_nested : nestedProgram.WellFormed ∧ nestedProgram.repeatDepth ≤ maxRepeats ∧
    nestedProgram.LexemesFit ∧ (codeOf nestedProgram).length ≤ maxInstr ∧
    ∃ code, compile nestedProgram [] = .ok code ∧ ∃ fuel, ∀ extra,
      @runBytecode ℤ wholeDoubles (fun _ => 0) code (fuel + extra) (emptyVM ℤ) =
        some (@exec ℤ wholeDoubles (fun _ => 0) nestedProgram ⟨(emptyVM ℤ).print banner, []⟩) := by
  have hwf : nestedProgram.WellFormed := by simp [nestedProgram,Node.WellFormed,newNode]
  have hdepth : nestedProgram.repeatDepth ≤ maxRepeats := by decide
  have hfit : nestedProgram.LexemesFit := by
    simp only [nestedProgram,Node.LexemesFit,newNode]
    decide
  have hroom : (codeOf nestedProgram).length ≤ maxInstr := by decide
  exact ⟨hwf,hdepth,hfit,hroom,
    @run_compile ℤ wholeDoubles (fun _ => 0) nestedProgram (emptyVM ℤ) hwf hdepth hfit hroom⟩

end QbitNova.Language
