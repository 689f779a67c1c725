import QbitNova.Language.Compiler

/-! # Every instruction array is run to an end

Bytecode may come from a file, so nothing is assumed of it. What keeps the machine from
looping forever is the scan for END: a repeat is entered only when its END exists, and
whatever lies between the two is balanced, so that no jump leaves it. The repeats on
the stack are therefore nested intervals around pc.
-/
namespace QbitNova.Language
open CText Transition

/-- What one iteration does to pc and the stack, with the reason for it. -/
inductive Move {D : Type} (code : List Instruction) : Machine D → Machine D → Prop where
  | fail {pc repeats s} (s' : Session D) : Move code ⟨pc, repeats, s, false⟩ ⟨pc, repeats, s', true⟩
  | plain {pc repeats s ins} (s' : Session D) (hins : code[pc]? = some ins) (hopen : ins.op.opensBlock = false)
      (hend : ins.op ≠ .endBlock) : Move code ⟨pc, repeats, s, false⟩ ⟨pc + 1, repeats, s', false⟩
  | enter {pc repeats s ins} (s' : Session D) (hins : code[pc]? = some ins) (hopen : ins.op.opensBlock = true) :
      Move code ⟨pc, repeats, s, false⟩ ⟨pc + 1, repeats, s', false⟩
  | skip {pc repeats s ins stop} (s' : Session D) (hins : code[pc]? = some ins) (hopen : ins.op.opensBlock = true)
      (hfind : findEnd (code.drop (pc + 1)) (pc + 1) 0 = some stop) :
      Move code ⟨pc, repeats, s, false⟩ ⟨stop + 1, repeats, s', false⟩
  | leave {pc repeats s ins} (s' : Session D) (hins : code[pc]? = some ins) (hopen : ins.op.opensBlock = true)
      (hfind : findEnd (code.drop (pc + 1)) (pc + 1) 0 = none) :
      Move code ⟨pc, repeats, s, false⟩ ⟨code.length, repeats, s', false⟩
  | push {pc repeats s ins stop left} (hins : code[pc]? = some ins) (hopen : ins.op.opensBlock = true)
      (hfind : findEnd (code.drop (pc + 1)) (pc + 1) 0 = some stop) (hleft : 0 < left)
      (hroom : repeats.length < maxRepeats) :
      Move code ⟨pc, repeats, s, false⟩ ⟨pc + 1, ⟨pc, stop, left⟩ :: repeats, s, false⟩
  | again {ins start stop left outer s} (hins : code[stop]? = some ins) (hend : ins.op = .endBlock)
      (hleft : 0 < left - 1) :
      Move code ⟨stop, ⟨start, stop, left⟩ :: outer, s, false⟩
        ⟨start + 1, ⟨start, stop, left - 1⟩ :: outer, s, false⟩
  | pop {ins start stop left outer s} (hins : code[stop]? = some ins) (hend : ins.op = .endBlock)
      (hleft : left ≤ 1) :
      Move code ⟨stop, ⟨start, stop, left⟩ :: outer, s, false⟩ ⟨stop + 1, outer, s, false⟩
  | pass {pc repeats s ins} (hins : code[pc]? = some ins) (hend : ins.op = .endBlock)
      (hother : ∀ f ∈ repeats.head?, pc ≠ f.stop) :
      Move code ⟨pc, repeats, s, false⟩ ⟨pc + 1, repeats, s, false⟩

section
variable {D : Type} [Doubles D] {rand : ℕ → ℤ} {code : List Instruction}

theorem execute_move {pc : ℕ} {repeats : List Frame} {s : Session D} {ins : Instruction}
    (hins : code[pc]? = some ins) :
    Move code ⟨pc, repeats, s, false⟩ (execute rand code ⟨pc, repeats, s, false⟩ ins) := by
  unfold execute
  cases hop : ins.op with
  | check =>
    have hopen : ins.op.opensBlock = true := by rw [hop]; rfl
    simp only []
    split_ifs
    · exact .enter _ hins hopen
    · cases hfind : findEnd (code.drop (pc + 1)) (pc + 1) 0 with
      | some stop => exact .skip _ hins hopen hfind
      | none =>
        have hpos : code.length - 1 + 1 = code.length := by
          have := (List.getElem?_eq_some_iff.mp hins).1
          omega
        rw [Option.getD_none,hpos]
        exact .leave _ hins hopen hfind
  | repeatLoop =>
    have hopen : ins.op.opensBlock = true := by rw [hop]; rfl
    simp only []
    cases hfind : findEnd (code.drop (pc + 1)) (pc + 1) 0 with
    | none => exact .fail _
    | some stop =>
      simp only []
      split_ifs with hcount hroom
      · exact .skip _ hins hopen hfind
      · exact .fail _
      · exact .push hins hopen hfind (by omega) (by omega)
  | endBlock =>
    cases repeats with
    | nil => exact .pass hins hop (by simp)
    | cons frame outer =>
      obtain ⟨start,stop,left⟩ := frame
      simp only []
      split_ifs with hstop hleft
      · subst hstop
        exact .again hins hop (by omega)
      · subst hstop
        exact .pop hins hop (by omega)
      · exact .pass hins hop (by simpa using hstop)
  | unknown number => exact .fail _
  | _ => exact .plain _ hins (by rw [hop]; rfl) (by rw [hop]; simp)

theorem step_move {m m' : Machine D} (h : step rand code m = some m') : Move code m m' := by
  obtain ⟨pc,repeats,s,returned⟩ := m
  unfold step at h
  cases returned with
  | true => cases h
  | false =>
    simp only [Bool.false_eq_true,↓reduceIte] at h
    cases hins : code[pc]? with
    | none => rw [hins] at h; cases h
    | some ins =>
      rw [hins] at h
      cases h
      exact execute_move hins

end

section Scan
variable {code : List Instruction} {pc depth stop : ℕ}

/-- The END that closes a block of the given depth, looked for from a position on. -/
def closing (code : List Instruction) (pc depth : ℕ) : Option ℕ := findEnd (code.drop pc) pc depth

theorem findEnd_end {ins : Instruction} (hend : ins.op = .endBlock) (rest : List Instruction) (index depth : ℕ) :
    findEnd (ins :: rest) index depth =
      if depth = 0 then some index else findEnd rest (index + 1) (depth - 1) := by
  rw [findEnd,hend]
  rfl

theorem findEnd_other {ins : Instruction} (hend : ins.op ≠ .endBlock) (rest : List Instruction) (index depth : ℕ) :
    findEnd (ins :: rest) index depth =
      findEnd rest (index + 1) (if ins.op.opensBlock then depth + 1 else depth) := by
  rw [findEnd]
  exact if_neg hend

theorem findEnd_bounds {code : List Instruction} {index : ℕ} (h : findEnd code index depth = some stop) :
    index ≤ stop ∧ stop < index + code.length := by
  induction code generalizing index depth with
  | nil => cases h
  | cons ins rest ih =>
    rw [List.length_cons]
    by_cases hend : ins.op = .endBlock
    · rw [findEnd_end hend] at h
      split_ifs at h
      · cases h
        omega
      · have := ih h
        omega
    · rw [findEnd_other hend] at h
      have := ih h
      omega

theorem closing_bounds (h : closing code pc depth = some stop) : pc ≤ stop ∧ stop < code.length := by
  have hb := findEnd_bounds h
  rw [List.length_drop] at hb
  omega

/-- One position of the scan. -/
theorem closing_step {ins : Instruction} (hins : code[pc]? = some ins) : closing code pc depth =
    if ins.op = .endBlock then if depth = 0 then some pc else closing code (pc + 1) (depth - 1)
    else closing code (pc + 1) (if ins.op.opensBlock then depth + 1 else depth) := by
  obtain ⟨hlt,rfl⟩ := List.getElem?_eq_some_iff.mp hins
  rw [closing,List.drop_eq_getElem_cons hlt]
  by_cases hend : code[pc].op = .endBlock
  · rw [findEnd_end hend,if_pos hend]
    rfl
  · rw [findEnd_other hend,if_neg hend]
    rfl

theorem closing_end (h : closing code pc depth = some stop) :
    ∃ ins, code[stop]? = some ins ∧ ins.op = .endBlock := by
  have hb := closing_bounds h
  obtain ⟨n,hn⟩ : ∃ n, stop - pc = n := ⟨_,rfl⟩
  induction n generalizing pc depth with
  | zero =>
    obtain rfl : pc = stop := by omega
    have hins : code[pc]? = some code[pc] := List.getElem?_eq_getElem hb.2
    refine ⟨_,hins,?_⟩
    by_contra hend
    rw [closing_step hins,if_neg hend] at h
    have := closing_bounds h
    omega
  | succ n ih =>
    have hins : code[pc]? = some code[pc] := List.getElem?_eq_getElem (by omega)
    by_cases hend : code[pc].op = .endBlock
    · rw [closing_step hins,if_pos hend] at h
      split_ifs at h
      · cases h
        omega
      · exact ih h (closing_bounds h) (by omega)
    · rw [closing_step hins,if_neg hend] at h
      exact ih h (closing_bounds h) (by omega)

theorem closing_plain {ins : Instruction} (hins : code[pc]? = some ins) (hopen : ins.op.opensBlock = false)
    (hend : ins.op ≠ .endBlock) : closing code pc depth = closing code (pc + 1) depth := by
  rw [closing_step hins,if_neg hend,hopen]
  rfl

theorem closing_open {ins : Instruction} (hins : code[pc]? = some ins) (hopen : ins.op.opensBlock = true) :
    closing code pc depth = closing code (pc + 1) (depth + 1) := by
  have hend : ins.op ≠ .endBlock := by
    intro he
    rw [he] at hopen
    cases hopen
  rw [closing_step hins,if_neg hend,hopen]
  rfl

theorem findEnd_split {code : List Instruction} {index inner outer : ℕ}
    (h : findEnd code index (inner + 1 + outer) = some stop) : ∃ mid < stop, findEnd code index inner = some mid ∧
      findEnd (code.drop (mid + 1 - index)) (mid + 1) outer = some stop := by
  induction code generalizing index inner with
  | nil => cases h
  | cons ins rest ih =>
    by_cases hend : ins.op = .endBlock
    · rw [findEnd_end hend,if_neg (by omega),show inner + 1 + outer - 1 = inner + outer by omega] at h
      cases inner with
      | zero =>
        rw [Nat.zero_add] at h
        refine ⟨index,by have := findEnd_bounds h; omega,?_,?_⟩
        · rw [findEnd_end hend,if_pos rfl]
        · rw [Nat.add_sub_cancel_left]
          exact h
      | succ inner =>
        obtain ⟨mid,hlt,hmid,hstop⟩ := ih h
        have hle := (findEnd_bounds hmid).1
        refine ⟨mid,hlt,?_,?_⟩
        · rw [findEnd_end hend,if_neg (Nat.succ_ne_zero inner),Nat.add_sub_cancel]
          exact hmid
        · rw [show mid + 1 - index = (mid + 1 - (index + 1)) + 1 by omega,List.drop_succ_cons]
          exact hstop
    · have hdepth : (if ins.op.opensBlock then inner + 1 + outer + 1 else inner + 1 + outer) =
          (if ins.op.opensBlock then inner + 1 else inner) + 1 + outer := by
        split_ifs <;> omega
      rw [findEnd_other hend,hdepth] at h
      obtain ⟨mid,hlt,hmid,hstop⟩ := ih h
      have hle := (findEnd_bounds hmid).1
      refine ⟨mid,hlt,?_,?_⟩
      · rw [findEnd_other hend]
        exact hmid
      · rw [show mid + 1 - index = (mid + 1 - (index + 1)) + 1 by omega,List.drop_succ_cons]
        exact hstop

theorem closing_split {inner outer : ℕ} (h : closing code pc (inner + 1 + outer) = some stop) :
    ∃ mid < stop, closing code pc inner = some mid ∧ closing code (mid + 1) outer = some stop := by
  obtain ⟨mid,hlt,hmid,hstop⟩ := findEnd_split h
  refine ⟨mid,hlt,hmid,?_⟩
  have hle := (findEnd_bounds hmid).1
  rw [List.drop_drop,show pc + (mid + 1 - pc) = mid + 1 by omega] at hstop
  exact hstop

/-- Behind the block that opens at a position, the scan goes on as if it was not there. -/
theorem closing_skip {ins : Instruction} (hins : code[pc]? = some ins) (hopen : ins.op.opensBlock = true)
    (h : closing code pc depth = some stop) :
    ∃ mid < stop, closing code (pc + 1) 0 = some mid ∧ closing code (mid + 1) depth = some stop := by
  rw [closing_open hins hopen,show depth + 1 = 0 + 1 + depth by omega] at h
  exact closing_split h

end Scan

section Nesting
variable {D : Type} {code : List Instruction}

/-- The repeats on the stack, innermost first: each lies inside the next one, and the
scan from the position behind what is inside of it still leads to its END. -/
def Nested (code : List Instruction) : ℕ → ℕ → List Frame → Prop
  | _, _, [] => True
  | low, pc, f :: outer =>
    f.start < low ∧ 0 < f.left ∧ closing code (f.start + 1) 0 = some f.stop ∧
      (∃ depth, closing code pc depth = some f.stop) ∧ Nested code f.start (f.stop + 1) outer

/-- A move that stays inside of the innermost repeat. -/
theorem Nested.move {low low' pc pc' : ℕ} {repeats : List Frame} (h : Nested code low pc repeats) (hlow : low ≤ low')
    (hpc : ∀ depth stop, closing code pc depth = some stop → ∃ depth', closing code pc' depth' = some stop) :
    Nested code low' pc' repeats := by
  cases repeats with
  | nil => trivial
  | cons f outer =>
    obtain ⟨hstart,hleft,hbody,⟨depth,hdepth⟩,houter⟩ := h
    exact ⟨hstart.trans_le hlow,hleft,hbody,hpc depth f.stop hdepth,houter⟩

theorem move_nested {m m' : Machine D} (hmove : Move code m m') (h : Nested code m.pc m.pc m.repeats) :
    Nested code m'.pc m'.pc m'.repeats := by
  cases hmove with
  | fail => exact h
  | plain s' hins hopen hend =>
    refine h.move (Nat.le_succ _) fun depth stop hstop => ⟨depth,?_⟩
    rwa [← closing_plain hins hopen hend]
  | enter s' hins hopen =>
    refine h.move (Nat.le_succ _) fun depth stop hstop => ⟨depth + 1,?_⟩
    rwa [← closing_open hins hopen]
  | @skip pc repeats s ins stop s' hins hopen hfind =>
    have hle := (closing_bounds hfind).1
    refine h.move (show pc ≤ stop + 1 by omega) fun depth outer houter => ⟨depth,?_⟩
    obtain ⟨mid,-,hmid,hrest⟩ := closing_skip hins hopen houter
    rw [closing,hfind] at hmid
    cases hmid
    exact hrest
  | @leave pc repeats s ins s' hins hopen hfind =>
    refine h.move (List.getElem?_eq_some_iff.mp hins).1.le fun depth outer houter => ?_
    obtain ⟨mid,-,hmid,-⟩ := closing_skip hins hopen houter
    rw [closing,hfind] at hmid
    cases hmid
  | @push pc repeats s ins stop left hins hopen hfind hleft hroom =>
    refine ⟨Nat.lt_succ_self _,hleft,hfind,⟨0,hfind⟩,h.move (le_refl _) fun depth outer houter => ⟨depth,?_⟩⟩
    obtain ⟨mid,-,hmid,hrest⟩ := closing_skip hins hopen houter
    rw [closing,hfind] at hmid
    cases hmid
    exact hrest
  | again hins hend hleft =>
    obtain ⟨-,-,hbody,-,houter⟩ := h
    exact ⟨Nat.lt_succ_self _,hleft,hbody,⟨0,hbody⟩,houter⟩
  | @pop ins start stop left outer s hins hend hleft =>
    obtain ⟨hstart,-,-,-,houter⟩ := h
    have hstart : start < stop := hstart
    exact houter.move (show start ≤ stop + 1 by omega) fun depth stop hstop => ⟨depth,hstop⟩
  | @pass pc repeats s ins hins hend hother =>
    cases repeats with
    | nil => trivial
    | cons f outer =>
      obtain ⟨hstart,hleft,hbody,⟨depth,hdepth⟩,houter⟩ := h
      have hne : pc ≠ f.stop := hother f rfl
      rw [closing_step hins,if_pos hend] at hdepth
      split_ifs at hdepth with hzero
      · cases hdepth
        exact absurd rfl hne
      · exact ⟨Nat.lt_succ_of_lt hstart,hleft,hbody,⟨_,hdepth⟩,houter⟩

/-- What the stack looks like throughout a run. -/
structure RepeatsNested (m : Machine D) : Prop where
  around : ∀ f ∈ m.repeats, f.start < m.pc ∧ m.pc ≤ f.stop
  nested : m.repeats.Pairwise (fun inner outer => outer.start < inner.start ∧ inner.stop < outer.stop)
  positive : ∀ f ∈ m.repeats, 0 < f.left
  bounded : m.repeats.length ≤ maxRepeats

theorem Nested.mem {low pc : ℕ} {repeats : List Frame} (h : Nested code low pc repeats) :
    ∀ f ∈ repeats, f.start < low ∧ pc ≤ f.stop ∧ 0 < f.left := by
  induction repeats generalizing low pc with
  | nil => simp
  | cons f outer ih =>
    obtain ⟨hstart,hleft,hbody,⟨depth,hdepth⟩,houter⟩ := h
    have hpc := (closing_bounds hdepth).1
    intro g hg
    rcases List.mem_cons.mp hg with rfl | hg
    · exact ⟨hstart,hpc,hleft⟩
    · have := ih houter g hg
      exact ⟨by omega,by omega,this.2.2⟩

theorem Nested.pairwise {low pc : ℕ} {repeats : List Frame} (h : Nested code low pc repeats) :
    repeats.Pairwise (fun inner outer => outer.start < inner.start ∧ inner.stop < outer.stop) := by
  induction repeats generalizing low pc with
  | nil => exact List.Pairwise.nil
  | cons f outer ih =>
    obtain ⟨-,-,-,-,houter⟩ := h
    refine List.Pairwise.cons (fun g hg => ?_) (ih houter)
    have := houter.mem g hg
    exact ⟨this.1,by omega⟩

theorem move_length {m m' : Machine D} (hmove : Move code m m') (h : m.repeats.length ≤ maxRepeats) :
    m'.repeats.length ≤ maxRepeats := by
  cases hmove with
  | push hins hopen hfind hleft hroom => exact hroom
  | pop hins hend hleft => exact (Nat.le_succ _).trans h
  | _ => exact h

end Nesting

section Running
variable {D : Type} [Doubles D] {rand : ℕ → ℤ} {code : List Instruction}

theorem reaches_repeatsNested {m m' : Machine D} (hreach : Reaches (step rand code) m m') (hrepeats : m.repeats = []) :
    RepeatsNested m' := by
  have hinv : Nested code m'.pc m'.pc m'.repeats ∧ m'.repeats.length ≤ maxRepeats := by
    induction hreach with
    | refl =>
      rw [hrepeats]
      exact ⟨trivial,Nat.zero_le _⟩
    | tail _ hstep ih => exact ⟨move_nested (step_move hstep) ih.1,move_length (step_move hstep) ih.2⟩
  obtain ⟨hnested,hlength⟩ := hinv
  exact ⟨fun f hf => ⟨(hnested.mem f hf).1,(hnested.mem f hf).2.1⟩,hnested.pairwise,
    fun f hf => (hnested.mem f hf).2.2,hlength⟩

/-- The machine returns, or it gets to a position with a given stack. -/
def Crosses (rand : ℕ → ℤ) (code : List Instruction) (m : Machine D) (pc : ℕ) (repeats : List Frame) : Prop :=
  ∃ t, Reaches (step rand code) m t ∧ (t.returned = true ∨ ∃ s, t = ⟨pc, repeats, s, false⟩)

theorem Crosses.refl (pc : ℕ) (repeats : List Frame) (s : Session D) :
    Crosses rand code ⟨pc, repeats, s, false⟩ pc repeats := ⟨_,Reaches.refl _,Or.inr ⟨s,rfl⟩⟩

theorem Crosses.head {m m' : Machine D} {pc : ℕ} {repeats : List Frame} (hstep : step rand code m = some m')
    (h : Crosses rand code m' pc repeats) : Crosses rand code m pc repeats := by
  obtain ⟨t,hreach,ht⟩ := h
  exact ⟨t,hreach.head hstep,ht⟩

theorem Crosses.trans {m : Machine D} {pc pc' : ℕ} {repeats repeats' : List Frame}
    (h : Crosses rand code m pc repeats)
    (h' : ∀ s : Session D, Crosses rand code ⟨pc, repeats, s, false⟩ pc' repeats') :
    Crosses rand code m pc' repeats' := by
  obtain ⟨t,hreach,hreturned | ⟨s,rfl⟩⟩ := h
  · exact ⟨t,hreach,Or.inl hreturned⟩
  · obtain ⟨t',hreach',ht'⟩ := h' s
    exact ⟨t',hreach.trans hreach',ht'⟩

/-- The rounds of a repeat whose body can be crossed. -/
theorem rounds_cross {start stop : ℕ} {repeats : List Frame} {ins : Instruction} (hins : code[stop]? = some ins)
    (hend : ins.op = .endBlock) (hbody : ∀ left (s : Session D), Crosses rand code
      ⟨start + 1, ⟨start, stop, left⟩ :: repeats, s, false⟩ stop (⟨start, stop, left⟩ :: repeats))
    {left : ℤ} (s : Session D) :
    Crosses rand code ⟨start + 1, ⟨start, stop, left⟩ :: repeats, s, false⟩ (stop + 1) repeats := by
  obtain ⟨n,hn⟩ : ∃ n, (left - 1).toNat = n := ⟨_,rfl⟩
  induction n generalizing left s with
  | zero =>
    refine Crosses.trans (hbody left s) fun s => ?_
    exact Crosses.head (step_endLast rand hins hend (by omega)) (Crosses.refl _ _ s)
  | succ n ih =>
    refine Crosses.trans (hbody left s) fun s => ?_
    exact Crosses.head (step_endAgain rand hins hend (by omega)) (ih s (by omega))

/-- A balanced stretch of code is crossed, with the stack as before, as long as the
innermost repeat does not end in it. -/
theorem segment_crosses {pc stop : ℕ} {repeats : List Frame} (s : Session D) (h : closing code pc 0 = some stop)
    (hstop : EndsBefore stop repeats) : Crosses rand code ⟨pc, repeats, s, false⟩ stop repeats := by
  obtain ⟨n,hn⟩ : ∃ n, stop - pc = n := ⟨_,rfl⟩
  induction n using Nat.strong_induction_on generalizing pc stop repeats s with
  | _ n ih =>
    have hb := closing_bounds h
    obtain ⟨ins,hins⟩ : ∃ ins, code[pc]? = some ins := ⟨_,List.getElem?_eq_getElem (by omega)⟩
    have hsame : ∀ {i}, code[pc]? = some i → i = ins := fun hi => Option.some.inj (hi.symm.trans hins)
    by_cases hend : ins.op = .endBlock
    · rw [closing_step hins,if_pos hend,if_pos rfl] at h
      cases h
      exact Crosses.refl _ _ s
    have hblock : ins.op.opensBlock = true → ∃ mid < stop, closing code (pc + 1) 0 = some mid ∧
        (∀ repeats' (s : Session D), EndsBefore mid repeats' →
          Crosses rand code ⟨pc + 1, repeats', s, false⟩ mid repeats') ∧
        ∀ s : Session D, Crosses rand code ⟨mid + 1, repeats, s, false⟩ stop repeats := by
      intro hopen
      obtain ⟨mid,hlt,hmid,hrest⟩ := closing_skip hins hopen h
      have hle := (closing_bounds hmid).1
      refine ⟨mid,hlt,hmid,fun repeats' s hbefore => ?_,fun s => ?_⟩
      · exact ih (mid - (pc + 1)) (by omega) s hmid hbefore rfl
      · exact ih (stop - (mid + 1)) (by omega) s hrest hstop rfl
    obtain ⟨m,hstep⟩ : ∃ m, step rand code ⟨pc, repeats, s, false⟩ = some m := ⟨_,step_at rand hins⟩
    refine Crosses.head hstep ?_
    cases step_move hstep with
    | fail s' => exact ⟨_,Reaches.refl _,Or.inl rfl⟩
    | plain s' hi hopen _ =>
      obtain rfl := hsame hi
      rw [closing_plain hins hopen hend] at h
      have := (closing_bounds h).1
      exact ih (stop - (pc + 1)) (by omega) s' h hstop rfl
    | enter s' hi hopen =>
      obtain rfl := hsame hi
      obtain ⟨mid,hlt,hmid,hbody,hrest⟩ := hblock hopen
      obtain ⟨last,hlast,hlastEnd⟩ := closing_end hmid
      refine Crosses.trans (hbody repeats s' (hstop.mono hlt.le)) fun s => ?_
      exact Crosses.head (step_endOfCheck rand hlast hlastEnd (hstop.mono hlt)) (hrest s)
    | skip s' hi hopen hfind =>
      obtain rfl := hsame hi
      obtain ⟨mid,hlt,hmid,hbody,hrest⟩ := hblock hopen
      rw [closing,hfind] at hmid
      cases hmid
      exact hrest s'
    | leave s' hi hopen hfind =>
      obtain rfl := hsame hi
      obtain ⟨mid,hlt,hmid,hbody,hrest⟩ := hblock hopen
      rw [closing,hfind] at hmid
      cases hmid
    | push hi hopen hfind hleft hroom =>
      obtain rfl := hsame hi
      obtain ⟨mid,hlt,hmid,hbody,hrest⟩ := hblock hopen
      rw [closing,hfind] at hmid
      cases hmid
      obtain ⟨last,hlast,hlastEnd⟩ := closing_end hfind
      exact Crosses.trans (rounds_cross hlast hlastEnd (fun left s => hbody _ s (EndsBefore.head (le_refl _))) s) hrest
    | again hi hend' _ => exact absurd (hsame hi ▸ hend') hend
    | pop hi hend' _ => exact absurd (hsame hi ▸ hend') hend
    | pass hi hend' _ => exact absurd (hsame hi ▸ hend') hend

theorem outermost_halts (rand : ℕ → ℤ) (code : List Instruction) (pc : ℕ) (s : Session D) :
    ∃ t, Reaches (step rand code) ⟨pc, [], s, false⟩ t ∧ step rand code t = none := by
  obtain ⟨n,hn⟩ : ∃ n, code.length - pc = n := ⟨_,rfl⟩
  induction n using Nat.strong_induction_on generalizing pc s with
  | _ n ih =>
    cases hins : code[pc]? with
    | none => exact ⟨_,Reaches.refl _,by simp only [step,hins,Bool.false_eq_true,↓reduceIte]⟩
    | some ins =>
      have hlt := (List.getElem?_eq_some_iff.mp hins).1
      have hforward : ∀ pc' (s : Session D), pc < pc' →
          ∃ t, Reaches (step rand code) ⟨pc', [], s, false⟩ t ∧ step rand code t = none :=
        fun pc' s hpc => ih (code.length - pc') (by omega) pc' s rfl
      have hstopped : ∀ m : Machine D, m.returned = true → step rand code m = none := by
        intro m hm
        rw [step,if_pos hm]
      obtain ⟨m,hstep⟩ : ∃ m, step rand code ⟨pc, [], s, false⟩ = some m := ⟨_,step_at rand hins⟩
      have hcontinue : (∃ t, Reaches (step rand code) m t ∧ step rand code t = none) →
          ∃ t, Reaches (step rand code) ⟨pc, [], s, false⟩ t ∧ step rand code t = none := by
        rintro ⟨t,hreach,ht⟩
        exact ⟨t,hreach.head hstep,ht⟩
      apply hcontinue
      cases step_move hstep with
      | fail s' => exact ⟨_,Reaches.refl _,hstopped _ rfl⟩
      | plain s' => exact hforward _ s' (Nat.lt_succ_self pc)
      | enter s' => exact hforward _ s' (Nat.lt_succ_self pc)
      | skip s' _ _ hfind =>
        have := (closing_bounds hfind).1
        exact hforward _ s' (by omega)
      | leave s' => exact hforward _ s' hlt
      | @push _ _ _ _ stop left _ _ hfind =>
        have hle := (closing_bounds hfind).1
        obtain ⟨last,hlast,hlastEnd⟩ := closing_end hfind
        have hrounds : Crosses rand code ⟨pc + 1, [⟨pc, stop, left⟩], s, false⟩ (stop + 1) [] :=
          rounds_cross hlast hlastEnd (fun left s => segment_crosses s hfind (EndsBefore.head (le_refl _))) s
        obtain ⟨t,hreach,hreturned | ⟨s',rfl⟩⟩ := hrounds
        · exact ⟨t,hreach,hstopped t hreturned⟩
        · obtain ⟨t,hreach',ht⟩ := hforward (stop + 1) s' (by omega)
          exact ⟨t,hreach.trans hreach',ht⟩
      | pass => exact hforward _ s (Nat.lt_succ_self pc)

/-- Whatever instructions a file holds, from any VM state and for any random numbers:
the run ends, and all along it the repeats are nested around pc. -/
theorem run_bytecode_terminates (rand : ℕ → ℤ) (code : List Instruction) (vm : VM D) :
    (∃ fuel result, ∀ extra, runBytecode rand code (fuel + extra) vm = some result) ∧
      ∀ m, Reaches (step rand code) ⟨0, [], ⟨vm.print banner, []⟩, false⟩ m → RepeatsNested m := by
  constructor
  · obtain ⟨t,hreach,ht⟩ := outermost_halts rand code 0 ⟨vm.print banner, []⟩
    obtain ⟨fuel,hfuel⟩ := halt_of_reaches hreach ht
    refine ⟨fuel,t.session,fun extra => ?_⟩
    rw [runBytecode,hfuel extra]
    rfl
  · intro m hreach
    exact reaches_repeatsNested hreach rfl

end Running

end QbitNova.Language
