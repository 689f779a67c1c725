import QbitNova.Language.Consumers
import QbitNova.Library.Numbering

/-! # What the OpenQASM exporter writes

The first pass fills a table of names, the second looks the names of the gates up in it. The
first pass asks whether the table is full before it asks whether the name is in it already.
-/
namespace QbitNova.Language
open CText Numbering

def QasmLine.isGate : QasmLine → Bool
  | .comment _ => false
  | _ => true

/-- The indices a line prints. -/
def QasmLine.operands : QasmLine → List ℕ
  | .h q => [q]
  | .cx control target => [control, target]
  | .measure q => [q]
  | .comment _ => []

/-- The gate line that belongs to an instruction whose names are all declared. -/
def mappedGate (names : List Bytes) (index : Bytes → ℕ) (ins : Instruction) : Option QasmLine :=
  match ins.op with
  | .hadamard => if names.contains ins.arg1 then some (.h (index ins.arg1)) else none
  | .cnot =>
    if names.contains ins.arg1 && names.contains ins.arg2 then some (.cx (index ins.arg1) (index ins.arg2)) else none
  | .measure => if names.contains ins.arg1 then some (.measure (index ins.arg1)) else none
  | _ => none

/-- The file numbers the declared names by first declaration and has the gates of the array, each
once, in order and with the numbers of its names. -/
structure QasmFile.Renders (file : QasmFile) (code : List Instruction) : Prop where
  numbers : Numbers (declaredNames code) file.qnames
  bounded : ∀ line ∈ file.body, ∀ q ∈ line.operands, q < file.qnames.length
  gates : file.body.filter QasmLine.isGate =
    code.filterMap (mappedGate (declaredNames code) fun name => file.qnames.idxOf name)

/-- A file is written exactly for 1 to 32 different names, and it renders the array. -/
structure Exports (code : List Instruction) : Prop where
  emits : (∃ file, exportOpenqasm code = .ok file) ↔
    1 ≤ (declaredNames code).toFinset.card ∧ (declaredNames code).toFinset.card ≤ maxQasmQbits
  renders : ∀ file, exportOpenqasm code = .ok file → file.Renders code

/-- There are as many different names as the table has places, and behind the one that takes the
last place stands another declaration, which repeats a name. -/
def RepeatsWhenFull (names : List Bytes) : Prop := names.toFinset.card = maxQasmQbits ∧
  ∃ before name after, names = before ++ name :: after ∧ before.toFinset.card = maxQasmQbits

variable {code : List Instruction} {names qnames : List Bytes}

theorem qbitIndex_mem {name : Bytes} (h : name ∈ qnames) : qbitIndex qnames name = some (qnames.idxOf name) := by
  rw [qbitIndex,List.findIdx?_eq_some_iff_findIdx_eq]
  exact ⟨List.idxOf_lt_length_of_mem h,rfl⟩

theorem qbitIndex_notMem {name : Bytes} (h : name ∉ qnames) : qbitIndex qnames name = none := by
  rw [qbitIndex,List.findIdx?_eq_none_iff]
  intro other hother
  rw [beq_eq_false_iff_ne]
  rintro rfl
  exact h hother

theorem declaredNames_cons (ins : Instruction) (rest : List Instruction) :
    declaredNames (ins :: rest) = if ins.op = .qbit then ins.arg1 :: declaredNames rest else declaredNames rest := by
  by_cases h : ins.op = .qbit
  · simp [declaredNames,h]
  · simp [declaredNames,h]

/-- The first pass from a table that holds the names so far: it runs through if there is room at
every declaration, and stops with the message otherwise. -/
theorem collectQbits_spec (hfit : ∀ ins ∈ code, ins.arg1.length < argumentBytes) (h : Filled names qnames) :
    (Room maxQasmQbits names (declaredNames code) ∧
      ∃ all, collectQbits code qnames = .ok all ∧ Filled (names ++ declaredNames code) all) ∨
    (¬ Room maxQasmQbits names (declaredNames code) ∧ ∃ message, collectQbits code qnames = .error message) := by
  induction code generalizing names qnames with
  | nil => exact Or.inl ⟨room_nil _ _,qnames,rfl,by rwa [declaredNames,List.filter_nil,List.map_nil,List.append_nil]⟩
  | cons ins rest ih =>
    have hrest : ∀ ins ∈ rest, ins.arg1.length < argumentBytes := fun i hi => hfit i (List.mem_cons_of_mem _ hi)
    rw [declaredNames_cons,collectQbits]
    by_cases hop : ins.op = .qbit
    · rw [if_pos hop,if_pos hop,room_cons,← h.length_eq]
      by_cases hfull : qnames.length ≥ maxQasmQbits
      · rw [if_pos hfull]
        exact Or.inr ⟨fun hroom => absurd hroom.1 (Nat.not_lt.mpr hfull),_,rfl⟩
      have hnow : qnames.length < maxQasmQbits := Nat.lt_of_not_ge hfull
      rw [if_neg hfull,and_iff_right hnow,List.append_cons names ins.arg1 (declaredNames rest)]
      by_cases hknown : ins.arg1 ∈ names
      · rw [qbitIndex_mem ((h.mem _).mpr hknown)]
        exact ih hrest (h.known hknown)
      · have htake : ins.arg1.take 63 = ins.arg1 := by
          apply List.take_of_length_le
          have := hfit ins List.mem_cons_self
          unfold argumentBytes at this
          omega
        rw [qbitIndex_notMem fun hmem => hknown ((h.mem _).mp hmem),htake]
        exact ih hrest (h.fresh hknown)
    · rw [if_neg hop,if_neg hop]
      exact ih hrest h

theorem qasmLine_gate (h : Filled names qnames) (ins : Instruction) :
    (qasmLine qnames ins).filter QasmLine.isGate = mappedGate names (fun name => qnames.idxOf name) ins := by
  have hindex : ∀ name, qbitIndex qnames name = if name ∈ names then some (qnames.idxOf name) else none := by
    intro name
    by_cases hmem : name ∈ names
    · rw [if_pos hmem,qbitIndex_mem ((h.mem name).mpr hmem)]
    · rw [if_neg hmem,qbitIndex_notMem fun hin => hmem ((h.mem name).mp hin)]
  unfold qasmLine mappedGate
  cases ins.op with
  | hadamard | measure =>
    simp only [hindex]
    by_cases hmem : ins.arg1 ∈ names
    · simp [hmem,QasmLine.isGate]
    · simp [hmem,QasmLine.isGate]
  | cnot =>
    simp only [hindex]
    by_cases hcontrol : ins.arg1 ∈ names
    · by_cases htarget : ins.arg2 ∈ names
      · simp [hcontrol,htarget,QasmLine.isGate]
      · simp [hcontrol,htarget,QasmLine.isGate]
    · simp [hcontrol,QasmLine.isGate]
  | _ => rfl

theorem qbitIndex_lt {name : Bytes} {q : ℕ} (h : qbitIndex qnames name = some q) : q < qnames.length := by
  rw [qbitIndex,List.findIdx?_eq_some_iff_findIdx_eq] at h
  exact h.1

theorem qasmLine_bounded {ins : Instruction} {line : QasmLine} (h : qasmLine qnames ins = some line) :
    ∀ q ∈ line.operands, q < qnames.length := by
  unfold qasmLine at h
  split at h
  · split at h
    · cases h
      simpa [QasmLine.operands] using qbitIndex_lt ‹_›
    · cases h
      simp [QasmLine.operands]
  · split at h
    · cases h
      simpa [QasmLine.operands] using ⟨qbitIndex_lt ‹_›,qbitIndex_lt ‹_›⟩
    · cases h
      simp [QasmLine.operands]
  · split at h
    · cases h
      simpa [QasmLine.operands] using qbitIndex_lt ‹_›
    · cases h
      simp [QasmLine.operands]
  · cases h
    simp [QasmLine.operands]
  · cases h

theorem renders_of_filled (h : Filled (declaredNames code) qnames) :
    QasmFile.Renders ⟨qnames, code.filterMap (qasmLine qnames)⟩ code := by
  refine ⟨h.numbers,fun line hline => ?_,?_⟩
  · obtain ⟨ins,-,hins⟩ := List.mem_filterMap.mp hline
    exact qasmLine_bounded hins
  · rw [List.filter_filterMap]
    exact List.filterMap_congr fun ins _ => qasmLine_gate h ins

theorem exportOpenqasm_spec (hfit : ∀ ins ∈ code, ins.arg1.length < argumentBytes) :
    (∀ file, exportOpenqasm code = .ok file → file.Renders code) ∧
    ((∃ file, exportOpenqasm code = .ok file) ↔
      Room maxQasmQbits [] (declaredNames code) ∧ 1 ≤ (declaredNames code).toFinset.card) := by
  rcases collectQbits_spec hfit Filled.nil with ⟨hroom,all,hall,hfilled⟩ | ⟨hroom,message,hall⟩
  · rw [List.nil_append] at hfilled
    have hexport : exportOpenqasm code = if all.length = 0 then .error (str "Error: no qbits found for QASM export\n")
        else .ok ⟨all, code.filterMap (qasmLine all)⟩ := by
      rw [exportOpenqasm,hall]
      rfl
    rw [hexport,← hfilled.length_eq,and_iff_right hroom]
    by_cases hnone : all.length = 0
    · rw [if_pos hnone]
      constructor
      · intro file hfile
        cases hfile
      · refine iff_of_false ?_ (by omega)
        rintro ⟨file,hfile⟩
        cases hfile
    · rw [if_neg hnone]
      constructor
      · intro file hfile
        cases hfile
        exact renders_of_filled hfilled
      · exact iff_of_true ⟨_,rfl⟩ (by omega)
  · have hexport : exportOpenqasm code = .error message := by
      rw [exportOpenqasm,hall]
      rfl
    rw [hexport]
    constructor
    · intro file hfile
      cases hfile
    · refine iff_of_false ?_ fun h => hroom h.1
      rintro ⟨file,hfile⟩
      cases hfile

/-- The exporter does what it is for on exactly those arrays that do not repeat a name once the
table is full. -/
theorem exports_iff (hfit : ∀ ins ∈ code, ins.arg1.length < argumentBytes) :
    Exports code ↔ ¬ RepeatsWhenFull (declaredNames code) := by
  obtain ⟨hrenders,hemits⟩ := exportOpenqasm_spec hfit
  have hroom : Room maxQasmQbits [] (declaredNames code) ↔
      (declaredNames code).toFinset.card ≤ maxQasmQbits ∧ ¬ RepeatsWhenFull (declaredNames code) := by
    constructor
    · intro h
      refine ⟨h.card_le,fun hfull => ?_⟩
      exact (not_room_iff h.card_le).mpr hfull.2 h
    · rintro ⟨hcard,hfull⟩
      by_contra hno
      obtain ⟨before,name,after,heq,hbefore⟩ := (not_room_iff hcard).mp hno
      refine hfull ⟨le_antisymm hcard ?_,before,name,after,heq,hbefore⟩
      have hle := card_le_append before (name :: after)
      rwa [← heq,hbefore] at hle
  constructor
  · intro h hfull
    have hcard : 1 ≤ (declaredNames code).toFinset.card := by
      rw [hfull.1]
      decide
    have hfile := hemits.mp (h.emits.mpr ⟨hcard,hfull.1.le⟩)
    exact (hroom.mp hfile.1).2 hfull
  · intro hfull
    refine ⟨?_,hrenders⟩
    rw [hemits,hroom,and_iff_left hfull,and_comm]

/-- Two names, one of them declared twice, and a gate on each. -/
def twiceDeclared : List Instruction :=
  [{ op := .qbit, arg1 := str "q" }, { op := .qbit, arg1 := str "p" }, { op := .qbit, arg1 := str "q" },
    { op := .hadamard, arg1 := str "q" }, { op := .cnot, arg1 := str "q", arg2 := str "p" }]

theorem exports_iff_twiceDeclared : (∀ ins ∈ twiceDeclared, ins.arg1.length < argumentBytes) ∧
    ¬ RepeatsWhenFull (declaredNames twiceDeclared) ∧ Exports twiceDeclared := by
  have hfit : ∀ ins ∈ twiceDeclared, ins.arg1.length < argumentBytes := by decide
  have hfull : ¬ RepeatsWhenFull (declaredNames twiceDeclared) := by
    rintro ⟨hcard,-⟩
    revert hcard
    decide
  exact ⟨hfit,hfull,(exports_iff hfit).mpr hfull⟩

/-- The names q0 to q31, and q0 once more. -/
def crowded : List Instruction := (List.range 32 ++ [0]).map fun i => { op := .qbit, arg1 := str "q" ++ decimal i }

/-- Only 32 different names are declared, but nothing is exported. -/
theorem crowded_not_exported : (declaredNames crowded).toFinset.card = 32 ∧
    exportOpenqasm crowded = .error (str "Error: QASM exporter supports max 32 qbits\n") ∧ ¬ Exports crowded := by
  have hcard : (declaredNames crowded).toFinset.card = 32 := by decide +kernel
  have hexport : exportOpenqasm crowded = .error (str "Error: QASM exporter supports max 32 qbits\n") := by
    decide +kernel
  refine ⟨hcard,hexport,fun h => ?_⟩
  obtain ⟨file,hfile⟩ := h.emits.mpr (by rw [hcard]; decide)
  rw [hexport] at hfile
  cases hfile

end QbitNova.Language
