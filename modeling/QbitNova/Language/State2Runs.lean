import QbitNova.Language.Consumers
import QbitNova.Library.ExactReals
import Mathlib.Data.List.GetD

/-! # When the STATE2 runner's flag tells the truth

That the state is collapsed is kept twice: by the engine, whose gates clear its flag, and in
the locals of the runner, which only a measurement sets. The two part at the first gate that
takes effect behind a measurement.
-/
namespace QbitNova.Language
open CText State2 Scalars

section
variable {D : Type} [Doubles D]

/-- The state is the basis state of its result, and the two bits are those of the result. -/
structure State2VM.Collapsed (s : State2VM D) : Prop where
  measured : s.state.measured = true
  result : s.state.result < 4
  amp : ∀ i : Fin 4, s.state.amp i = if (i : ℕ) = s.state.result then ofInt 1 else ofInt 0
  bits : s.bit0 = (s.state.result >>> 1) &&& 1 ∧ s.bit1 = s.state.result &&& 1

/-- The flag is set only where the state is collapsed; elsewhere a say of a qbit prints the state
and no bit. -/
structure State2VM.Honest (s : State2VM D) : Prop where
  collapsed : s.measured = true → s.Collapsed
  printsState : ∀ rand ins, ins.op = .say → ins.arg1 = s.q0 ∨ ins.arg1 = s.q1 → ¬ s.Collapsed →
    (state2Step rand s ins).output = s.output ++ qstate2Print s.state

/-- The gates the runner carries out: H on the first name that was declared, CNOT from the first
to the second. -/
def GateOn (names : List Bytes) (ins : Instruction) : Prop :=
  ins.op = .hadamard ∧ ins.arg1 = names.getD 0 [] ∨
    ins.op = .cnot ∧ ins.arg1 = names.getD 0 [] ∧ ins.arg2 = names.getD 1 []

def HasMeasure (code : List Instruction) : Prop := ∃ ins ∈ code, ins.op = .measure

/-- Somewhere behind a measurement a gate is carried out. -/
def GateAfterMeasure (code : List Instruction) : Prop := ∃ before ins after, code = before ++ ins :: after ∧
  HasMeasure before ∧ GateOn (declaredNames before) ins

theorem GateOn.ne_measure {names : List Bytes} {ins : Instruction} (h : GateOn names ins) : ins.op ≠ .measure := by
  rcases h with ⟨hop,-⟩ | ⟨hop,-⟩
  · rw [hop]
    decide
  · rw [hop]
    decide

variable (rand : ℕ → ℤ) {s : State2VM D} {ins : Instruction} {code : List Instruction}

theorem runState2_concat (code : List Instruction) (ins : Instruction) :
    (runState2Bytecode rand (code ++ [ins]) : State2VM D) = state2Step rand (runState2Bytecode rand code) ins := by
  rw [runState2Bytecode,List.foldl_append]
  rfl

theorem declaredNames_concat (code : List Instruction) (ins : Instruction) :
    declaredNames (code ++ [ins]) = declaredNames code ++ if ins.op = .qbit then [ins.arg1] else [] := by
  rw [declaredNames,List.filter_append,List.map_append]
  congr 1
  by_cases h : ins.op = .qbit
  · simp [h]
  · simp [h]

theorem hasMeasure_concat (code : List Instruction) (ins : Instruction) :
    HasMeasure (code ++ [ins]) ↔ HasMeasure code ∨ ins.op = .measure := by
  simp only [HasMeasure,List.mem_append,List.mem_singleton,or_and_right,exists_or,exists_eq_left]

/-- What one iteration does to the flags, by the kind of the instruction. -/
theorem state2Step_flags (s : State2VM D) (ins : Instruction) :
    (ins.op = .measure ∧ (state2Step rand s ins).measured = true ∧ (state2Step rand s ins).Collapsed) ∨
    (GateOn [s.q0, s.q1] ins ∧ (state2Step rand s ins).measured = s.measured ∧
      (state2Step rand s ins).state.measured = false) ∨
    (ins.op ≠ .measure ∧ ¬ GateOn [s.q0, s.q1] ins ∧ (state2Step rand s ins).measured = s.measured ∧
      (state2Step rand s ins).state = s.state ∧ (state2Step rand s ins).bit0 = s.bit0 ∧
      (state2Step rand s ins).bit1 = s.bit1) := by
  cases hop : ins.op with
  | measure =>
    left
    simp only [state2Step,hop,qstate2Measure,State2VM.print,true_and]
    refine ⟨rfl,Fin.isLt _,fun i => ?_,rfl,rfl⟩
    simp only [Fin.ext_iff]
  | hadamard =>
    right
    by_cases hname : ins.arg1 = s.q0
    · refine Or.inl ⟨Or.inl ⟨hop,hname⟩,?_⟩
      simp only [state2Step,hop,if_pos hname,State2VM.print,qstate2HFirst,and_self]
    · refine Or.inr ⟨fun h => (by cases h),?_,?_⟩
      · rintro (⟨-,h⟩ | ⟨h,-⟩)
        · exact hname h
        · rw [hop] at h
          cases h
      · simp only [state2Step,hop,if_neg hname,State2VM.print,and_self]
  | cnot =>
    right
    by_cases hnames : ins.arg1 = s.q0 ∧ ins.arg2 = s.q1
    · refine Or.inl ⟨Or.inr ⟨hop,hnames⟩,?_⟩
      simp only [state2Step,hop,if_pos hnames,State2VM.print,qstate2CnotFirstToSecond,and_self]
    · refine Or.inr ⟨fun h => (by cases h),?_,?_⟩
      · rintro (⟨h,-⟩ | ⟨-,h⟩)
        · rw [hop] at h
          cases h
        · exact hnames h
      · simp only [state2Step,hop,if_neg hnames,State2VM.print,and_self]
  | _ =>
    refine Or.inr (Or.inr ⟨fun h => (by cases h),?_,?_⟩)
    · rintro (⟨h,-⟩ | ⟨h,-⟩) <;> rw [hop] at h <;> cases h
    · simp only [state2Step,hop,State2VM.sayQbit,State2VM.print]
      repeat' split
      all_goals simp only [and_self]

theorem state2Step_measured (s : State2VM D) (ins : Instruction) :
    (state2Step rand s ins).measured = true ↔ s.measured = true ∨ ins.op = .measure := by
  rcases state2Step_flags rand s ins with ⟨hop,hset,-⟩ | ⟨hgate,hkept,-⟩ | ⟨hop,-,hkept,-⟩
  · exact iff_of_true hset (Or.inr hop)
  · rw [hkept,or_iff_left hgate.ne_measure]
  · rw [hkept,or_iff_left hop]

theorem state2Step_declares (s : State2VM D) (hop : ins.op = .qbit) :
    (state2Step rand s ins).q0 = (if s.qcount = 0 then ins.arg1 else s.q0) ∧
      (state2Step rand s ins).q1 = (if s.qcount = 1 then ins.arg1 else s.q1) ∧
      (state2Step rand s ins).qcount = if s.qcount < 2 then s.qcount + 1 else s.qcount := by
  by_cases hnone : s.qcount = 0
  · simp [state2Step,hop,hnone,State2VM.print]
  by_cases hone : s.qcount = 1
  · simp [state2Step,hop,hone,State2VM.print]
  · have hfull : ¬ s.qcount < 2 := by omega
    simp [state2Step,hop,hnone,hone,hfull,State2VM.print]

theorem state2Step_names (s : State2VM D) (hop : ins.op ≠ .qbit) :
    (state2Step rand s ins).q0 = s.q0 ∧ (state2Step rand s ins).q1 = s.q1 ∧
      (state2Step rand s ins).qcount = s.qcount := by
  cases h : ins.op with
  | qbit => exact absurd h hop
  | _ =>
    simp only [state2Step,h,State2VM.sayQbit,State2VM.print]
    repeat' split
    all_goals simp only [and_self]

theorem getD_concat (names : List Bytes) (name : Bytes) (i : ℕ) :
    (names ++ [name]).getD i [] = if i = names.length then name else names.getD i [] := by
  rcases lt_trichotomy i names.length with hlt | rfl | hgt
  · rw [List.getD_append _ _ _ _ hlt,if_neg hlt.ne]
  · simp
  · rw [if_neg hgt.ne',List.getD_eq_default _ _ (by simpa using hgt),List.getD_eq_default _ _ hgt.le]

/-- What the runner holds after some instructions: the names it maps and its flag. -/
structure State2VM.Follows (s : State2VM D) (code : List Instruction) : Prop where
  first : s.q0 = (declaredNames code).getD 0 []
  second : s.q1 = (declaredNames code).getD 1 []
  count : s.qcount = min 2 (declaredNames code).length
  flag : s.measured = true ↔ HasMeasure code

theorem State2VM.Follows.step (h : s.Follows code) (ins : Instruction) :
    (state2Step rand s ins).Follows (code ++ [ins]) := by
  have hflag := state2Step_measured rand s ins
  rw [h.flag,← hasMeasure_concat] at hflag
  by_cases hop : ins.op = .qbit
  · obtain ⟨h0,h1,hcount⟩ := state2Step_declares rand s hop
    have hnames : declaredNames (code ++ [ins]) = declaredNames code ++ [ins.arg1] := by
      rw [declaredNames_concat,if_pos hop]
    have hlength := h.count
    refine ⟨?_,?_,?_,hflag⟩
    · rw [h0,hnames,getD_concat,h.first]
      exact if_congr (by omega) rfl rfl
    · rw [h1,hnames,getD_concat,h.second]
      exact if_congr (by omega) rfl rfl
    · rw [hcount,hnames,List.length_append,List.length_singleton]
      split <;> omega
  · obtain ⟨h0,h1,hcount⟩ := state2Step_names rand s hop
    have hnames : declaredNames (code ++ [ins]) = declaredNames code := by
      rw [declaredNames_concat,if_neg hop,List.append_nil]
    exact ⟨by rw [h0,hnames,h.first],by rw [h1,hnames,h.second],by rw [hcount,hnames,h.count],hflag⟩

theorem runState2_follows (code : List Instruction) : (runState2Bytecode rand code : State2VM D).Follows code := by
  induction code using List.reverseRecOn with
  | nil =>
    refine ⟨rfl,rfl,rfl,iff_of_false Bool.false_ne_true ?_⟩
    rintro ⟨ins,h,-⟩
    cases h
  | append_singleton code ins ih =>
    rw [runState2_concat]
    exact ih.step rand ins

omit [Doubles D] in
theorem State2VM.Follows.gateOn (h : s.Follows code) (ins : Instruction) :
    GateOn [s.q0, s.q1] ins ↔ GateOn (declaredNames code) ins := by
  simp only [GateOn,List.getD_cons_zero,List.getD_cons_succ,h.first,h.second]

/-- The flag alone decides: where it stands for a collapsed state the runner is honest. -/
theorem State2VM.honest_iff (s : State2VM D) : s.Honest ↔ (s.measured = true → s.Collapsed) := by
  constructor
  · exact Honest.collapsed
  · intro h
    refine ⟨h,fun rand ins hop hname hnot => ?_⟩
    have hflag : s.measured = false := by
      cases hm : s.measured with
      | false => rfl
      | true => exact absurd (h hm) hnot
    have hsay : ∀ bit, s.sayQbit bit = s.print (qstate2Print s.state) := by
      intro bit
      rw [State2VM.sayQbit,hflag]
      rfl
    simp only [state2Step,hop,hsay]
    by_cases hfirst : ins.arg1 = s.q0
    · rw [if_pos hfirst]
      rfl
    · rw [if_neg hfirst,if_pos (hname.resolve_left hfirst)]
      rfl

theorem State2VM.Honest.step (h : s.Honest) (hgate : ¬ (s.measured = true ∧ GateOn [s.q0, s.q1] ins)) :
    (state2Step rand s ins).Honest := by
  rw [honest_iff]
  rcases state2Step_flags rand s ins with ⟨-,-,hcollapsed⟩ | ⟨hon,hkept,-⟩ | ⟨-,-,hkept,hstate,hbit0,hbit1⟩
  · exact fun _ => hcollapsed
  · intro hflag
    exact absurd ⟨hkept ▸ hflag,hon⟩ hgate
  · intro hflag
    obtain ⟨hmeasured,hresult,hamp,hbits⟩ := h.collapsed (hkept ▸ hflag)
    exact ⟨by rw [hstate,hmeasured],by rwa [hstate],by rwa [hstate],by rwa [hstate,hbit0,hbit1]⟩

theorem gateAfterMeasure_of_append {rest : List Instruction} (h : GateAfterMeasure code) :
    GateAfterMeasure (code ++ rest) := by
  obtain ⟨before,ins,after,rfl,hgate⟩ := h
  exact ⟨before,ins,after ++ rest,by rw [List.append_assoc,List.cons_append],hgate⟩

theorem runState2_honest (h : ¬ GateAfterMeasure code) : (runState2Bytecode rand code : State2VM D).Honest := by
  induction code using List.reverseRecOn with
  | nil =>
    rw [State2VM.honest_iff]
    intro hflag
    cases hflag
  | append_singleton code ins ih =>
    rw [runState2_concat]
    have hfollows : (runState2Bytecode rand code : State2VM D).Follows code := runState2_follows rand code
    apply (ih fun hcode => h (gateAfterMeasure_of_append hcode)).step
    rintro ⟨hflag,hgate⟩
    exact h ⟨code,ins,[],rfl,hfollows.flag.mp hflag,(hfollows.gateOn ins).mp hgate⟩

/-- For every array, every measurement and every moment of the run: the runner's flag stands for
a collapsed state, with its bits, exactly as long as no gate was carried out behind a measurement. -/
theorem state2_honest_iff (code : List Instruction) :
    (∀ done rest, code = done ++ rest → (runState2Bytecode rand done : State2VM D).Honest) ↔
      ¬ GateAfterMeasure code := by
  constructor
  · rintro h ⟨before,ins,after,rfl,hmeasure,hgate⟩
    have hfollows : (runState2Bytecode rand before : State2VM D).Follows before := runState2_follows rand before
    have hhonest := h (before ++ [ins]) after (by rw [List.append_assoc,List.singleton_append])
    rw [runState2_concat] at hhonest
    have hon := (hfollows.gateOn ins).mpr hgate
    have hflag := (state2Step_measured rand (runState2Bytecode rand before : State2VM D) ins).mpr
      (Or.inl (hfollows.flag.mpr hmeasure))
    have hcollapsed := (hhonest.collapsed hflag).measured
    rcases state2Step_flags rand (runState2Bytecode rand before : State2VM D) ins with
      ⟨hop,-⟩ | ⟨-,-,hcleared⟩ | ⟨-,hnot,-⟩
    · exact hon.ne_measure hop
    · rw [hcleared] at hcollapsed
      cases hcollapsed
    · exact hnot hon
  · rintro h done rest rfl
    exact runState2_honest rand fun hdone => h (gateAfterMeasure_of_append hdone)

end

/-- H on a measured qbit: two qbits, a measurement and a gate behind it. -/
def gateBehindMeasure : List Instruction :=
  [{ op := .qbit, arg1 := str "q" }, { op := .qbit, arg1 := str "p" }, { op := .measure, arg1 := str "q" },
    { op := .hadamard, arg1 := str "q" }]

open ExactReals

/-- Drawing 0 in |00> gives |00>. -/
theorem qstate2Measure_init00 : qstate2Measure 0 (qstate2Init00 : QState2 ℝ) =
    (0, ⟨fun i => if i = 0 then ofInt 1 else ofInt 0, true, 0⟩) := by
  have hpicked : pickLoop (qstate2Init00 : QState2 ℝ).amp (div (ofInt 0) (ofInt randMax)) [0, 1, 2, 3]
      (ofInt 0) = 0 := by
    rw [pickLoop,if_pos]
    simp [qstate2Init00]
  rw [qstate2Measure,hpicked]
  rfl

/-- The superposed qbit is still printed as the bit of the old measurement. -/
theorem gateBehindMeasure_not_honest : letI := noNumbers
    let s : State2VM ℝ := runState2Bytecode (fun _ => 0) gateBehindMeasure
    s.measured = true ∧ s.state.measured = false ∧ s.state.amp 0 ≠ 0 ∧ s.state.amp 2 ≠ 0 ∧
      (state2Step (fun _ => 0) s { op := .say, arg1 := str "q" }).output = s.output ++ str "|0>\n" ∧ ¬ s.Honest := by
  let _ := noNumbers
  intro s
  have hstate : s.state = qstate2HFirst (qstate2Measure 0 (qstate2Init00 : QState2 ℝ)).2 := rfl
  have hbit : s.bit0 = ((qstate2Measure 0 (qstate2Init00 : QState2 ℝ)).1 >>> 1) &&& 1 := rfl
  rw [qstate2Measure_init00] at hstate hbit
  have hcleared : s.state.measured = false := by
    rw [hstate]
    rfl
  refine ⟨rfl,hcleared,?_,?_,?_,?_⟩
  · rw [hstate]
    simp [qstate2HFirst]
  · rw [hstate]
    simp [qstate2HFirst]
  · change s.output ++ (str "|" ++ decimal s.bit0 ++ str ">\n") = s.output ++ str "|0>\n"
    rw [hbit]
    rfl
  · intro h
    have hcollapsed := (h.collapsed rfl).measured
    rw [hcleared] at hcollapsed
    cases hcollapsed

end QbitNova.Language
