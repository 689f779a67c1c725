import QbitNova.Language.Consumers
import QbitNova.Library.ExactReals

/-! # What holds in every state of the byte VM

The operations write amplitudes, the measured flag and the result by hand, some of them
on two qbits at once. In exact arithmetic every qbit stays normalised all the same, a
measured one is in the basis state of its result, and the tables keep within their limits
with no name entered twice. The tables outlive a run, so that programs are run one after
the other on the same VM.
-/
namespace QbitNova.Language
open CText Transition ExactReals

/-- A qbit has norm one, and once measured it is in the basis state of its result. -/
structure VMQbit.Valid (q : VMQbit ℝ) : Prop where
  norm : q.a * q.a + q.b * q.b = 1
  basis : q.measured = true → q.result = 0 ∧ q.a = 1 ∧ q.b = 0 ∨ q.result = 1 ∧ q.a = 0 ∧ q.b = 1

structure VM.Valid (vm : VM ℝ) : Prop where
  varNames : (vm.vars.map VMVar.name).Nodup
  varCount : vm.vars.length ≤ maxVmVars
  qbitNames : vm.names.Nodup
  qbitCount : vm.qbits.length ≤ maxVmQbits
  qbits : ∀ q ∈ vm.qbits, q.Valid

section Vars
variable {D : Type}

theorem findVar_isSome (vm : VM D) (name : Bytes) : (vm.findVar name).isSome ↔ name ∈ vm.vars.map VMVar.name := by
  rw [VM.findVar,List.findIdx?_isSome]
  simp

/-- An assignment to a new variable enters its name while there is room. -/
theorem setVar_names (vm : VM D) (name : Bytes) (value : D) :
    (vm.setVar name value).vars.map VMVar.name =
      let names := vm.vars.map VMVar.name
      if name ∈ names ∨ ¬ names.length < maxVmVars then names else names ++ [name] := by
  have hfound := findVar_isSome vm name
  unfold VM.setVar
  simp only [List.length_map]
  cases hfind : vm.findVar name with
  | some v =>
    rw [hfind] at hfound
    rw [if_pos (Or.inl (hfound.mp rfl))]
    apply List.ext_getElem?
    intro i
    simp only [List.getElem?_map,List.getElem?_modify]
    cases vm.vars[i]? with
    | none => rfl
    | some entry => split_ifs <;> rfl
  | none =>
    rw [hfind] at hfound
    have hnew : name ∉ vm.vars.map VMVar.name := fun hmem => by cases hfound.mpr hmem
    simp only []
    by_cases hfull : vm.vars.length ≥ maxVmVars
    · rw [if_pos hfull,if_pos (Or.inr (by omega))]
      rfl
    · rw [if_neg hfull,if_neg (by rintro (h | h); exacts [hnew h,h (by omega)])]
      exact List.map_append

/-- A table of names that grows by a new name while there is room keeps its two limits. -/
theorem nodup_entered {names : List Bytes} {name : Bytes} {limit : ℕ} (hn : names.Nodup) (hl : names.length ≤ limit) :
    let after := if name ∈ names ∨ ¬ names.length < limit then names else names ++ [name]
    after.Nodup ∧ after.length ≤ limit := by
  by_cases h : name ∈ names ∨ ¬ names.length < limit
  · simp only [if_pos h]
    exact ⟨hn,hl⟩
  · simp only [if_neg h]
    push Not at h
    refine ⟨List.nodup_append.mpr ⟨hn,List.nodup_singleton _,?_⟩,?_⟩
    · rintro a ha b hb rfl
      exact h.1 (List.mem_singleton.mp hb ▸ ha)
    · rw [List.length_append,List.length_singleton]
      exact h.2

end Vars

section Qbits
variable {vm : VM ℝ}

/-- Rewriting one entry: it is enough that the others are valid before and it is after. -/
theorem modifyQbit_valid {q : ℕ} {f : VMQbit ℝ → VMQbit ℝ}
    (hother : ∀ i entry, vm.qbits[i]? = some entry → i ≠ q → entry.Valid)
    (hf : ∀ entry, vm.qbits[q]? = some entry → (f entry).Valid) :
    ∀ entry ∈ (vm.modifyQbit q f).qbits, entry.Valid := by
  intro entry hmem
  obtain ⟨i,hi⟩ := List.mem_iff_getElem?.mp hmem
  rw [VM.modifyQbit,List.getElem?_modify] at hi
  cases hv : vm.qbits[i]? with
  | none => rw [hv] at hi; cases hi
  | some old =>
    rw [hv] at hi
    by_cases hq : q = i
    · subst hq
      simp only [↓reduceIte] at hi
      cases hi
      exact hf old hv
    · simp only [if_neg hq] at hi
      cases hi
      exact hother i old hv (Ne.symm hq)

/-- The same when every entry is valid to begin with. -/
theorem modifyQbit_kept {q : ℕ} {f : VMQbit ℝ → VMQbit ℝ} (h : ∀ entry ∈ vm.qbits, entry.Valid)
    (hf : ∀ entry, entry.Valid → (f entry).Valid) : ∀ entry ∈ (vm.modifyQbit q f).qbits, entry.Valid :=
  modifyQbit_valid (fun _ entry hi _ => h entry (List.mem_of_getElem? hi))
    fun entry hq => hf entry (h entry (List.mem_of_getElem? hq))

theorem invSqrtTwo_sq : (1 / Real.sqrt 2) * (1 / Real.sqrt 2) = (1 / 2 : ℝ) := by
  rw [div_mul_div_comm,one_mul,Real.mul_self_sqrt (by norm_num)]

variable [NumberText]

theorem stateOf_norm {state : Bytes} {a b : ℝ} (h : VM.stateOf state = some (a, b)) : a * a + b * b = 1 := by
  unfold VM.stateOf at h
  have hneg : (-1 / Real.sqrt 2) * (-1 / Real.sqrt 2) = (1 / 2 : ℝ) := by rw [← invSqrtTwo_sq]; ring
  simp only [ofInt_eq,div_eq,sqrt_eq,Int.cast_one,Int.cast_zero,Int.cast_ofNat,Int.cast_neg] at h
  split_ifs at h <;> cases h
  · norm_num
  · norm_num
  · rw [invSqrtTwo_sq]; norm_num
  · rw [invSqrtTwo_sq,hneg]; norm_num

/-- A declared state is valid whatever the entry held before. -/
theorem prepare_valid {q : ℕ} (state : Bytes)
    (hother : ∀ i entry, vm.qbits[i]? = some entry → i ≠ q → entry.Valid) :
    ∀ entry ∈ (vm.prepare q state).qbits, entry.Valid := by
  unfold VM.prepare
  cases hs : VM.stateOf (D := ℝ) state with
  | some pair =>
    obtain ⟨a,b⟩ := pair
    exact modifyQbit_valid hother fun entry _ => ⟨stateOf_norm hs,nofun⟩
  | none =>
    refine modifyQbit_valid hother fun entry _ => ⟨?_,nofun⟩
    simp

theorem createQbit_valid (name state : Bytes) (h : ∀ entry ∈ vm.qbits, entry.Valid) :
    ∀ entry ∈ (vm.createQbit name state).qbits, entry.Valid := by
  unfold VM.createQbit
  split
  · exact prepare_valid state fun i entry hi _ => h entry (List.mem_of_getElem? hi)
  · split_ifs with hfull
    · exact h
    · refine prepare_valid state fun i entry hi hne => ?_
      have hlt : i < vm.qbits.length := by
        have hbound := (List.getElem?_eq_some_iff.mp hi).1
        rw [List.length_append,List.length_singleton] at hbound
        omega
      rw [List.getElem?_append_left hlt] at hi
      exact h entry (List.mem_of_getElem? hi)

theorem hadamard_valid (q : ℕ) (h : ∀ entry ∈ vm.qbits, entry.Valid) :
    ∀ entry ∈ (vm.hadamard q).qbits, entry.Valid := by
  refine modifyQbit_kept h fun entry he => ⟨?_,nofun⟩
  simp only [ofInt_eq,add_eq,sub_eq,div_eq,sqrt_eq,Int.cast_ofNat]
  rw [div_mul_div_comm,div_mul_div_comm,Real.mul_self_sqrt (by norm_num),← add_div]
  have hn := he.norm
  linarith

theorem collapse_valid {result : ℤ} (hr : result = 0 ∨ result = 1) (entry : VMQbit ℝ) :
    (VM.collapse result entry).Valid := by
  rcases hr with rfl | rfl
  · exact ⟨by simp [VM.collapse],fun _ => Or.inl (by simp [VM.collapse])⟩
  · exact ⟨by simp [VM.collapse],fun _ => Or.inr (by simp [VM.collapse])⟩

theorem outcome_bit (draw : ℤ) (q : VMQbit ℝ) : VM.outcome draw q = 0 ∨ VM.outcome draw q = 1 := by
  unfold VM.outcome
  split_ifs
  · exact Or.inr rfl
  · exact Or.inl rfl

theorem measureLinked_valid (rand : ℕ → ℤ) (q : ℕ) (h : ∀ entry ∈ vm.qbits, entry.Valid) :
    ∀ entry ∈ (vm.measureLinked rand q).qbits, entry.Valid := by
  unfold VM.measureLinked
  cases hq : vm.qbits[q]? with
  | none => exact h
  | some measured =>
    have hbit := outcome_bit (rand vm.draws) measured
    let drawn : VM ℝ := { vm with draws := vm.draws + 1 }
    have hown : ∀ entry ∈ (drawn.modifyQbit q (VM.collapse (VM.outcome (rand vm.draws) measured))).qbits, entry.Valid :=
      modifyQbit_kept h fun entry _ => collapse_valid hbit entry
    simp only []
    split_ifs
    · exact hown
    · split
      · exact hown
      · exact modifyQbit_kept hown fun entry _ => collapse_valid hbit entry

omit [NumberText] in
theorem link_valid (source target : ℕ) (a b : Bytes) (h : ∀ entry ∈ vm.qbits, entry.Valid) :
    ∀ entry ∈ (vm.link source target a b).qbits, entry.Valid := by
  unfold VM.link
  have hlinked := modifyQbit_kept (q := target)
    (f := fun entry : VMQbit ℝ => { entry with entangledWith := a })
    (modifyQbit_kept (q := source) (f := fun entry : VMQbit ℝ => { entry with entangledWith := b }) h
      fun entry he => ⟨he.norm,he.basis⟩) fun entry he => ⟨he.norm,he.basis⟩
  simp only []
  split
  · exact hlinked
  · next origin horigin =>
    exact modifyQbit_kept hlinked fun entry _ => ⟨(hlinked origin (List.mem_of_getElem? horigin)).norm,nofun⟩

end Qbits

section Vars
variable {D : Type} [Doubles D] (rand : ℕ → ℤ) (vm : VM D)

theorem prepare_vars (q : ℕ) (state : Bytes) : (vm.prepare q state).vars = vm.vars := by
  unfold VM.prepare
  split <;> rfl

theorem measureLinked_vars (q : ℕ) : (vm.measureLinked rand q).vars = vm.vars := by
  unfold VM.measureLinked
  split
  · rfl
  · simp only []
    split_ifs
    · rfl
    · split <;> rfl

omit [Doubles D] in
theorem link_vars (source target : ℕ) (a b : Bytes) : (vm.link source target a b).vars = vm.vars := by
  unfold VM.link
  simp only []
  split <;> rfl

theorem act_vars (action : Action) (h : ∀ name text, action ≠ .setVar name text) :
    (vm.act rand action).vars = vm.vars := by
  by_cases hcreate : ∃ name state, action = .createQbit name state
  · obtain ⟨name,state,rfl⟩ := hcreate
    simp only [VM.act,VM.createQbit]
    split
    · exact prepare_vars vm _ state
    · split_ifs
      · rfl
      · exact prepare_vars _ _ state
  · obtain ⟨after,hafter,hvars,-⟩ := act_tables rand vm h fun name state he => hcreate ⟨name,state,he⟩
    rw [hvars]
    cases hafter with
    | kept => rfl
    | hadamard q => rfl
    | link source target a b => exact link_vars vm source target a b
    | measure q => exact measureLinked_vars rand vm q

end Vars

section Act
variable [NumberText] {vm : VM ℝ}

theorem act_qbits (rand : ℕ → ℤ) (action : Action) (h : ∀ entry ∈ vm.qbits, entry.Valid) :
    ∀ entry ∈ (vm.act rand action).qbits, entry.Valid := by
  have hother : (∀ name text, action ≠ .setVar name text) → (∀ name state, action ≠ .createQbit name state) →
      ∀ entry ∈ (vm.act rand action).qbits, entry.Valid := by
    intro hset hcreate
    obtain ⟨after,hafter,-,hqbits⟩ := act_tables rand vm hset hcreate
    rw [hqbits]
    cases hafter with
    | kept => exact h
    | hadamard q => exact hadamard_valid q h
    | link source target a b => exact link_valid source target a b h
    | measure q => exact measureLinked_valid rand q h
  cases action with
  | createQbit name state => exact createQbit_valid name state h
  | setVar name text =>
    simp only [VM.act,VM.setVar]
    repeat' split
    all_goals exact h
  | _ => exact hother (fun _ _ h => by cases h) (fun _ _ h => by cases h)

theorem VM.Valid.act (hv : vm.Valid) (rand : ℕ → ℤ) (action : Action) : (vm.act rand action).Valid := by
  have hvars : ((vm.act rand action).vars.map VMVar.name).Nodup ∧
      ((vm.act rand action).vars.map VMVar.name).length ≤ maxVmVars := by
    by_cases hset : ∃ name text, action = .setVar name text
    · obtain ⟨name,text,rfl⟩ := hset
      rw [VM.act,setVar_names]
      exact nodup_entered hv.varNames ((List.length_map _).trans_le hv.varCount)
    · rw [act_vars rand vm action fun name text he => hset ⟨name,text,he⟩]
      exact ⟨hv.varNames,(List.length_map _).trans_le hv.varCount⟩
  have hqbits : (vm.act rand action).names.Nodup ∧ (vm.act rand action).names.length ≤ maxVmQbits := by
    have hcount : vm.names.length ≤ maxVmQbits := (List.length_map _).trans_le hv.qbitCount
    rw [act_names]
    cases action with
    | createQbit name state => exact nodup_entered hv.qbitNames hcount
    | _ => exact ⟨hv.qbitNames,hcount⟩
  exact ⟨hvars.1,(List.length_map _).symm.trans_le hvars.2,hqbits.1,(List.length_map _).symm.trans_le hqbits.2,
    act_qbits rand action hv.qbits⟩

omit [NumberText] in
theorem VM.Valid.print (hv : vm.Valid) (text : Bytes) : (vm.print text).Valid :=
  ⟨hv.varNames,hv.varCount,hv.qbitNames,hv.qbitCount,hv.qbits⟩

omit [NumberText] in
theorem emptyVM_valid : (emptyVM ℝ).Valid :=
  ⟨List.nodup_nil,Nat.zero_le _,List.nodup_nil,Nat.zero_le _,nofun⟩

end Act

section Measure
variable {D : Type}

/-- The entry a name finds. -/
def VM.qbit? (vm : VM D) (name : Bytes) : Option (VMQbit D) := (vm.findQbit name).bind (vm.qbits[·]?)

theorem findQbit_congr {vm vm' : VM D} (h : vm.names = vm'.names) (name : Bytes) :
    vm.findQbit name = vm'.findQbit name := by
  have hnames : ∀ vm : VM D, vm.findQbit name = vm.names.findIdx? (· == name) := by
    intro vm
    rw [VM.names,List.findIdx?_map]
    rfl
  rw [hnames vm,hnames vm',h]

theorem getElem?_modifyQbit (vm : VM D) (q i : ℕ) (f : VMQbit D → VMQbit D) :
    (vm.modifyQbit q f).qbits[i]? = (vm.qbits[i]?).map fun entry => if q = i then f entry else entry :=
  List.getElem?_modify ..

variable [Doubles D]

/-- Collapsing again with the same result changes nothing. -/
theorem collapse_collapse (result : ℤ) (entry : VMQbit D) :
    VM.collapse result (VM.collapse result entry) = VM.collapse result entry := rfl

/-- What a measurement leaves at the index of the qbit and at that of its partner. -/
theorem measureLinked_entries (rand : ℕ → ℤ) {vm : VM D} {q : ℕ} {entry : VMQbit D} (hq : vm.qbits[q]? = some entry) :
    ∃ result, (vm.measureLinked rand q).qbits[q]? = some (VM.collapse result entry) ∧
      ∀ p other, entry.entangledWith ≠ [] → vm.findQbit entry.entangledWith = some p → vm.qbits[p]? = some other →
        (vm.measureLinked rand q).qbits[p]? = some (VM.collapse result other) := by
  let result := VM.outcome (rand vm.draws) entry
  let drawn : VM D := { vm with draws := vm.draws + 1 }
  have hown : (drawn.modifyQbit q (VM.collapse result)).qbits[q]? = some (VM.collapse result entry) := by
    rw [getElem?_modifyQbit,show drawn.qbits[q]? = some entry from hq]
    simp
  have hnames : (drawn.modifyQbit q (VM.collapse result)).names = vm.names := modifyQbit_names drawn q fun _ => rfl
  have hfind := findQbit_congr hnames entry.entangledWith
  refine ⟨result,?_⟩
  unfold VM.measureLinked
  simp only [hq]
  by_cases hlink : entry.entangledWith = []
  · rw [if_pos hlink]
    exact ⟨hown,fun _ _ hne => absurd hlink hne⟩
  · rw [if_neg hlink]
    cases hp : vm.findQbit entry.entangledWith with
    | none =>
      rw [hp] at hfind
      simp only [drawn,result] at hfind hown
      simp only [hfind]
      exact ⟨hown,nofun⟩
    | some p =>
      rw [hp] at hfind
      simp only [drawn,result] at hfind hown
      simp only [hfind]
      constructor
      · refine (getElem?_modifyQbit ..).trans ?_
        rw [hown]
        simp only [Option.map_some,collapse_collapse,ite_self]
        rfl
      · rintro _ other - ⟨rfl⟩ hother
        refine (getElem?_modifyQbit ..).trans ?_
        rw [getElem?_modifyQbit]
        simp only [hother,Option.map_some,↓reduceIte]
        split_ifs
        · rw [collapse_collapse]
        · rfl

/-- After a measurement the qbit is measured, and the qbit it is linked to with the same result. -/
theorem measure_linked (rand : ℕ → ℤ) {vm : VM D} {name : Bytes} (hn : name ≠ str "qmsg") {q : VMQbit D}
    (hq : (vm.act rand (.measure name)).qbit? name = some q) :
    q.measured = true ∧ ∀ p, q.entangledWith ≠ [] → (vm.act rand (.measure name)).qbit? q.entangledWith = some p →
      p.measured = true ∧ p.result = q.result := by
  have hnames : (vm.act rand (.measure name)).names = vm.names := act_names rand vm (.measure name)
  obtain ⟨index,hindex,hq⟩ := Option.bind_eq_some_iff.mp hq
  rw [findQbit_congr hnames] at hindex
  have hact : vm.act rand (.measure name) = vm.measureLinked rand index := by
    rw [VM.act,if_neg hn,VM.onQbit,hindex]
  rw [hact] at hq ⊢
  obtain ⟨entry,hentry⟩ : ∃ entry, vm.qbits[index]? = some entry := by
    obtain ⟨hlt,-⟩ := List.findIdx?_eq_some_iff_getElem.mp hindex
    exact ⟨_,List.getElem?_eq_getElem hlt⟩
  obtain ⟨result,hown,hpartner⟩ := measureLinked_entries rand hentry
  obtain rfl : VM.collapse result entry = q := Option.some.inj (hown.symm.trans hq)
  refine ⟨rfl,fun p hlink hp => ?_⟩
  obtain ⟨partner,hfound,hp⟩ := Option.bind_eq_some_iff.mp hp
  rw [← hact,findQbit_congr hnames] at hfound
  obtain ⟨hlt,-⟩ := List.findIdx?_eq_some_iff_getElem.mp hfound
  obtain rfl := Option.some.inj ((hpartner partner _ hlink hfound (List.getElem?_eq_getElem hlt)).symm.trans hp)
  exact ⟨rfl,rfl⟩

end Measure

/-- The action an instruction stands for, the test of a check included. -/
def Instruction.performs (ins : Instruction) : Option Action :=
  if ins.op = .check then some (.check ins.arg1 ins.arg2 ins.value) else actionOf ins

/-- What one step of the machine does to the session. -/
theorem step_session {D : Type} [Doubles D] {rand : ℕ → ℤ} {code : List Instruction} {m m' : Machine D}
    (h : step rand code m = some m') :
    m'.session = m.session ∨
      (∃ ins action, code[m.pc]? = some ins ∧ ins.performs = some action ∧
        m'.session = m.session.perform rand action) ∨
      ∃ text, m'.session = { m.session with vm := m.session.vm.print text } := by
  unfold step at h
  split_ifs at h
  cases hins : code[m.pc]? with
  | none => simp only [hins] at h; cases h
  | some ins =>
    simp only [hins] at h
    cases h
    unfold execute
    split
    · next hop =>
      have hperforms : ins.performs = some (.check ins.arg1 ins.arg2 ins.value) := if_pos hop
      simp only []
      split_ifs <;> exact Or.inr (Or.inl ⟨ins,_,rfl,hperforms,rfl⟩)
    · split
      · exact Or.inr (Or.inr ⟨_,rfl⟩)
      · split_ifs
        · exact Or.inl rfl
        · exact Or.inr (Or.inr ⟨_,rfl⟩)
        · exact Or.inl rfl
    · split
      · exact Or.inl rfl
      · split_ifs <;> exact Or.inl rfl
    · exact Or.inr (Or.inr ⟨_,rfl⟩)
    · next hcheck _ _ _ =>
      have hperforms : ins.performs = actionOf ins := if_neg hcheck
      cases haction : actionOf ins with
      | none => exact Or.inl rfl
      | some action => exact Or.inr (Or.inl ⟨ins,action,rfl,hperforms.trans haction,rfl⟩)

/-- What one step of the machine does to the VM. -/
theorem step_vm {D : Type} [Doubles D] {rand : ℕ → ℤ} {code : List Instruction} {m m' : Machine D}
    (h : step rand code m = some m') :
    m'.session.vm = m.session.vm ∨
      (∃ ins action, code[m.pc]? = some ins ∧ ins.performs = some action ∧
        m'.session.vm = m.session.vm.act rand action) ∨
      ∃ text, m'.session.vm = m.session.vm.print text := by
  rcases step_session h with hs | ⟨ins,action,hins,hperforms,hs⟩ | ⟨text,hs⟩
  · exact Or.inl (by rw [hs])
  · exact Or.inr (Or.inl ⟨ins,action,hins,hperforms,by rw [hs]; rfl⟩)
  · exact Or.inr (Or.inr ⟨text,by rw [hs]⟩)

section Runs
variable [NumberText] {rand : ℕ → ℤ} {code : List Instruction} {m m' : Machine ℝ}

theorem step_valid (hv : m.session.vm.Valid) (h : step rand code m = some m') : m'.session.vm.Valid := by
  rcases step_vm h with hvm | ⟨-,action,-,-,hvm⟩ | ⟨text,hvm⟩
  · exact hvm ▸ hv
  · exact hvm ▸ hv.act rand action
  · exact hvm ▸ hv.print text

theorem reaches_valid (hr : Reaches (step rand code) m m') (hv : m.session.vm.Valid) : m'.session.vm.Valid := by
  induction hr with
  | refl => exact hv
  | tail _ hstep ih => exact step_valid ih hstep

/-- The states the tables can be in: those of a new process, and those in the midst or at
the end of a program that was started on such a state. -/
inductive VM.Reachable : VM ℝ → Prop
  | boot : VM.Reachable (emptyVM ℝ)
  | run {vm : VM ℝ} {rand : ℕ → ℤ} {code : List Instruction} {m : Machine ℝ} (h : VM.Reachable vm)
      (hr : Reaches (step rand code) ⟨0, [], ⟨vm.print banner, []⟩, false⟩ m) : VM.Reachable m.session.vm

theorem VM.Reachable.valid {vm : VM ℝ} (h : vm.Reachable) : vm.Valid := by
  induction h with
  | boot => exact emptyVM_valid
  | run _ hr ih => exact reaches_valid hr (ih.print banner)

/-- In every reachable state the tables are valid, and a measurement carried out next leaves
the qbit and the one it is linked to measured alike. -/
theorem reachable_tables {vm : VM ℝ} (h : vm.Reachable) :
    vm.Valid ∧ ∀ (rand : ℕ → ℤ) (name : Bytes), name ≠ str "qmsg" →
      ∀ q, (vm.act rand (.measure name)).qbit? name = some q →
        q.measured = true ∧ ∀ p, q.entangledWith ≠ [] →
          (vm.act rand (.measure name)).qbit? q.entangledWith = some p → p.measured = true ∧ p.result = q.result :=
  ⟨h.valid,fun rand _ hn _ hq => measure_linked rand hn hq⟩

end Runs

def linkedPair : List Instruction :=
  [⟨.qbit, str "q", str "|+>", 0⟩, ⟨.qbit, str "p", str "|0>", 0⟩, ⟨.cnot, str "q", str "p", 0⟩]

theorem reachable_tables_linkedPair : letI := noNumbers
    ∃ vm : VM ℝ, vm.Reachable ∧ vm.names = [str "q", str "p"] ∧ vm.Valid ∧
      ∀ q, (vm.act (fun _ => 7) (.measure (str "q"))).qbit? (str "q") = some q → q.measured = true ∧
        ∀ p, q.entangledWith ≠ [] → (vm.act (fun _ => 7) (.measure (str "q"))).qbit? q.entangledWith = some p →
          p.measured = true ∧ p.result = q.result := by
  let _ := noNumbers
  let start : Session ℝ := ⟨(emptyVM ℝ).print banner, []⟩
  let rand : ℕ → ℤ := fun _ => 7
  let first := start.perform rand (.createQbit (str "q") (str "|+>"))
  let second := first.perform rand (.createQbit (str "p") (str "|0>"))
  have hrun : Reaches (step rand linkedPair) ⟨0, [], start, false⟩
      ⟨3, [], second.perform rand (.cnot (str "q") (str "p")), false⟩ :=
    .head (t := ⟨1, [], first, false⟩) rfl (.head (t := ⟨2, [], second, false⟩) rfl (.single rfl))
  have hreach := VM.Reachable.run .boot hrun
  refine ⟨_,hreach,?_,(reachable_tables hreach).1,(reachable_tables hreach).2 _ _ (by decide)⟩
  simp only [second,first,Session.perform,act_names]
  decide

end QbitNova.Language
