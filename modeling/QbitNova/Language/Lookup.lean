import QbitNova.Language.VMInvariant

/-! # The qbits of the byte VM by name

Statements name qbits, the table is searched from the front. What a statement does is said
once for all of them: which names find which entry afterwards.
-/
namespace QbitNova.Language
open CText

section Lookup
variable {D : Type} {vm vm' : VM D} {n m : Bytes} {i : ℕ}

theorem findQbit_name (h : vm.findQbit n = some i) : ∃ e, vm.qbits[i]? = some e ∧ e.name = n := by
  obtain ⟨hlt,hname,-⟩ := List.findIdx?_eq_some_iff_getElem.mp h
  exact ⟨_,List.getElem?_eq_getElem hlt,beq_iff_eq.mp hname⟩

theorem qbit?_of_findQbit (h : vm.findQbit n = some i) : ∃ e, vm.qbit? n = some e ∧ vm.qbits[i]? = some e ∧ e.name = n := by
  obtain ⟨e,he,hname⟩ := findQbit_name h
  exact ⟨e,by rw [VM.qbit?,h,Option.bind_some,he],he,hname⟩

theorem findQbit_of_qbit? {e : VMQbit D} (h : vm.qbit? n = some e) :
    ∃ i, vm.findQbit n = some i ∧ vm.qbits[i]? = some e ∧ e.name = n := by
  obtain ⟨i,hi,he⟩ := Option.bind_eq_some_iff.mp h
  obtain ⟨e',he',hname⟩ := findQbit_name hi
  obtain rfl := Option.some.inj (he.symm.trans he')
  exact ⟨i,hi,he,hname⟩

theorem qbit?_eq_none : vm.qbit? n = none ↔ vm.findQbit n = none := by
  constructor
  · intro h
    cases hi : vm.findQbit n with
    | none => rfl
    | some i =>
      obtain ⟨e,he,-⟩ := qbit?_of_findQbit hi
      rw [h] at he
      cases he
  · intro h
    rw [VM.qbit?,h]
    rfl

theorem qbit?_congr (h : vm'.qbits = vm.qbits) (m : Bytes) : vm'.qbit? m = vm.qbit? m := by
  rw [VM.qbit?,VM.qbit?,VM.findQbit,VM.findQbit,h]

theorem qbit?_modifyQbit (h : vm.findQbit n = some i) {g : VMQbit D → VMQbit D}
    (hg : ∀ e, (g e).name = e.name) (m : Bytes) :
    (vm.modifyQbit i g).qbit? m = if m = n then (vm.qbit? m).map g else vm.qbit? m := by
  unfold VM.qbit?
  rw [findQbit_congr (modifyQbit_names vm i hg)]
  cases hm : vm.findQbit m with
  | none => split_ifs <;> rfl
  | some j =>
    obtain ⟨e,he,hname⟩ := findQbit_name hm
    obtain ⟨e',he',hname'⟩ := findQbit_name h
    simp only [Option.bind_some,getElem?_modifyQbit,he,Option.map_some]
    by_cases hmn : m = n
    · subst hmn
      rw [h] at hm
      rw [if_pos rfl,if_pos (Option.some.inj hm)]
    · rw [if_neg hmn,if_neg]
      rintro rfl
      rw [he] at he'
      exact hmn (hname.symm.trans (Option.some.inj he' ▸ hname'))

theorem findQbit_modifyQbit {g : VMQbit D → VMQbit D} (hg : ∀ e, (g e).name = e.name) (m : Bytes) :
    (vm.modifyQbit i g).findQbit m = vm.findQbit m := findQbit_congr (modifyQbit_names vm i hg) m

/-- A new entry is found under its name, the others as before. -/
theorem qbit?_added {q : VMQbit D} (h : vm.findQbit q.name = none) (hqbits : vm'.qbits = vm.qbits ++ [q]) :
    vm'.findQbit q.name = some vm.qbits.length ∧
      ∀ m, vm'.qbit? m = if m = q.name then some q else vm.qbit? m := by
  have hfind : ∀ m, vm'.findQbit m = (vm.findQbit m).or (if m = q.name then some vm.qbits.length else none) := by
    intro m
    simp only [VM.findQbit,hqbits,List.findIdx?_append,List.findIdx?_singleton,beq_iff_eq]
    congr 1
    by_cases hm : q.name = m
    · rw [if_pos hm,if_pos hm.symm,Option.map_some,Nat.zero_add]
    · rw [if_neg hm,if_neg (Ne.symm hm),Option.map_none]
  have hn : vm'.findQbit q.name = some vm.qbits.length := by rw [hfind,h,if_pos rfl]; rfl
  refine ⟨hn,fun m => ?_⟩
  by_cases hm : m = q.name
  · subst hm
    rw [if_pos rfl,VM.qbit?,hn,Option.bind_some,hqbits,List.getElem?_concat_length]
  · rw [if_neg hm,VM.qbit?,VM.qbit?,hfind,if_neg hm,Option.or_none,hqbits]
    cases hfound : vm.findQbit m with
    | none => rfl
    | some j =>
      obtain ⟨e,he,-⟩ := findQbit_name hfound
      exact List.getElem?_append_left (List.getElem?_eq_some_iff.mp he).1

end Lookup

section Effects
variable {D : Type} [Doubles D] {vm : VM D} {n : Bytes} {i : ℕ}
open Scalars

/-- What a declaration writes into an entry. -/
def declaredAs (state : Bytes) (entry : VMQbit D) : VMQbit D :=
  let pair := (VM.stateOf state).getD (ofInt 1, ofInt 0)
  { entry with a := pair.1, b := pair.2, measured := false, result := -1 }

theorem prepare_qbits (vm : VM D) (q : ℕ) (state : Bytes) :
    (vm.prepare q state).qbits = (vm.modifyQbit q (declaredAs state)).qbits := by
  unfold VM.prepare declaredAs
  cases VM.stateOf (D := D) state <;> rfl

/-- What a declaration does: an entry that is there is written over, but for its link; a new
one has no link. -/
theorem qbit?_createQbit (vm : VM D) (name state : Bytes) (m : Bytes) :
    (vm.createQbit name state).qbit? m =
      if m = name ∧ (vm.findQbit name = none → vm.qbits.length < maxVmQbits) then
        some (declaredAs state ((vm.qbit? name).getD ⟨name, ofInt 0, ofInt 0, false, 0, []⟩))
      else vm.qbit? m := by
  unfold VM.createQbit
  cases hfind : vm.findQbit name with
  | some q =>
    obtain ⟨e,he,-⟩ := qbit?_of_findQbit hfind
    simp only []
    rw [qbit?_congr (prepare_qbits vm q state),qbit?_modifyQbit (g := declaredAs state) hfind (by intro; rfl)]
    by_cases hm : m = name
    · subst hm
      rw [if_pos rfl,if_pos ⟨rfl,fun h => (by cases h)⟩,he]
      rfl
    · rw [if_neg hm,if_neg fun h => hm h.1]
  | none =>
    have hnone := qbit?_eq_none.mpr hfind
    simp only []
    by_cases hfull : vm.qbits.length ≥ maxVmQbits
    · rw [if_pos hfull,if_neg fun h => absurd (h.2 trivial) (by omega)]
      rfl
    · rw [if_neg hfull,qbit?_congr (prepare_qbits _ _ state)]
      let fresh : VMQbit D := ⟨name, ofInt 0, ofInt 0, false, 0, []⟩
      let added : VM D := { vm with qbits := vm.qbits ++ [fresh] }
      have happended : added.qbits = vm.qbits ++ [fresh] := rfl
      obtain ⟨hadded,hqbit⟩ := qbit?_added hfind happended
      have hentry := qbit?_modifyQbit (g := declaredAs state) hadded (by intro; rfl) m
      rw [hqbit m] at hentry
      refine hentry.trans ?_
      rw [hnone]
      by_cases hm : m = name
      · rw [if_pos hm,if_pos hm,if_pos ⟨hm,fun _ => by omega⟩]
        rfl
      · rw [if_neg hm,if_neg hm,if_neg fun h => hm h.1]

/-- What a Hadamard gate writes into an entry. -/
def turned (entry : VMQbit D) : VMQbit D :=
  { entry with
    a := div (add entry.a entry.b) (sqrt (ofInt 2))
    b := div (sub entry.a entry.b) (sqrt (ofInt 2))
    measured := false
    result := -1 }

theorem qbit?_hadamard (rand : ℕ → ℤ) {e : VMQbit D} (he : vm.qbit? n = some e) (m : Bytes) :
    (vm.act rand (.hadamard n)).qbit? m = if m = n then some (turned e) else vm.qbit? m := by
  obtain ⟨i,hi,-⟩ := findQbit_of_qbit? he
  rw [VM.act,VM.onQbit,hi]
  refine (qbit?_modifyQbit (g := turned) hi (by intro; rfl) m).trans ?_
  split_ifs with hm
  · rw [hm,he]
    rfl
  · rfl

/-- A measurement collapses the qbit and, if it has a link, the qbit of that name. -/
theorem qbit?_measureLinked (rand : ℕ → ℤ) {e : VMQbit D} (h : vm.findQbit n = some i) (he : vm.qbit? n = some e)
    (m : Bytes) : (vm.measureLinked rand i).qbit? m =
      if m = n ∨ e.entangledWith ≠ [] ∧ m = e.entangledWith then
        (vm.qbit? m).map (VM.collapse (VM.outcome (rand vm.draws) e))
      else vm.qbit? m := by
  obtain ⟨e',he',hi,-⟩ := qbit?_of_findQbit h
  obtain rfl := Option.some.inj (he.symm.trans he')
  let result := VM.outcome (rand vm.draws) e
  let drawn : VM D := { vm with draws := vm.draws + 1 }
  have hown : ∀ m, (drawn.modifyQbit i (VM.collapse result)).qbit? m =
      if m = n then (vm.qbit? m).map (VM.collapse result) else vm.qbit? m :=
    fun m => qbit?_modifyQbit (show drawn.findQbit n = some i from h) (by intro; rfl) m
  have hfind : ∀ m, (drawn.modifyQbit i (VM.collapse result)).findQbit m = vm.findQbit m :=
    fun m => @findQbit_modifyQbit _ drawn _ (VM.collapse result) (by intro; rfl) m
  unfold VM.measureLinked
  simp only [hi]
  by_cases hlink : e.entangledWith = []
  · rw [if_pos hlink]
    refine (hown m).trans (if_congr ?_ rfl rfl)
    simp [hlink]
  · rw [if_neg hlink]
    simp only [drawn,result] at hown hfind
    cases hp : vm.findQbit e.entangledWith with
    | none =>
      simp only [hfind,hp]
      rw [hown m]
      by_cases hm : m = n
      · rw [if_pos hm,if_pos (Or.inl hm)]
      · rw [if_neg hm]
        split_ifs with hthere
        · rw [(hthere.resolve_left hm).2,qbit?_eq_none.mpr hp]
          rfl
        · rfl
    | some p =>
      simp only [hfind,hp]
      refine (qbit?_modifyQbit (g := VM.collapse (VM.outcome (rand vm.draws) e)) ((hfind _).trans hp)
        (by intro; rfl) m).trans ?_
      rw [hown m]
      by_cases hmp : m = e.entangledWith
      · rw [if_pos hmp,if_pos (Or.inr ⟨hlink,hmp⟩)]
        split_ifs
        · cases vm.qbit? m <;> rfl
        · rfl
      · rw [if_neg hmp]
        exact if_congr (by simp [hmp]) rfl rfl

omit [Doubles D] in
/-- A link is entered on both sides, and the target takes over the amplitudes of the source. -/
theorem qbit?_link {s t : ℕ} {source target : Bytes} {es et : VMQbit D} (hs : vm.findQbit source = some s)
    (ht : vm.findQbit target = some t) (hes : vm.qbit? source = some es) (het : vm.qbit? target = some et)
    (m : Bytes) : (vm.link s t source target).qbit? m =
      if m = target then
        some { et with entangledWith := source, a := es.a, b := es.b, measured := false, result := 0 }
      else if m = source then some { es with entangledWith := target }
      else vm.qbit? m := by
  let first : VM D := vm.modifyQbit s fun entry => { entry with entangledWith := target }
  let second : VM D := first.modifyQbit t fun entry => { entry with entangledWith := source }
  have hfirst : ∀ m, first.qbit? m = if m = source then (vm.qbit? m).map _ else vm.qbit? m :=
    fun m => qbit?_modifyQbit hs (by intro; rfl) m
  have hfind : ∀ m, first.findQbit m = vm.findQbit m := fun m => findQbit_modifyQbit (by intro; rfl) m
  have hsecond : ∀ m, second.qbit? m = if m = target then (first.qbit? m).map _ else first.qbit? m :=
    fun m => qbit?_modifyQbit ((hfind _).trans ht) (by intro; rfl) m
  have hfind' : ∀ m, second.findQbit m = vm.findQbit m :=
    fun m => (findQbit_modifyQbit (by intro; rfl) m).trans (hfind m)
  obtain ⟨origin,horigin,ha,hb⟩ : ∃ origin, second.qbits[s]? = some origin ∧ origin.a = es.a ∧ origin.b = es.b := by
    obtain ⟨origin,hq,horigin,-⟩ := qbit?_of_findQbit ((hfind' source).trans hs)
    refine ⟨origin,horigin,?_⟩
    rw [hsecond,hfirst,if_pos rfl,hes] at hq
    split_ifs at hq <;> cases hq <;> exact ⟨rfl,rfl⟩
  have hlink : vm.link s t source target = second.modifyQbit t fun entry =>
      { entry with a := origin.a, b := origin.b, measured := false, result := 0 } := by
    rw [VM.link]
    simp only [first,second] at horigin
    simp only [horigin,first,second]
  rw [hlink,qbit?_modifyQbit ((hfind' _).trans ht) (by intro; rfl) m,hsecond,hfirst,ha,hb]
  by_cases hmt : m = target
  · subst hmt
    rw [if_pos rfl,if_pos rfl,if_pos rfl,het]
    split_ifs <;> rfl
  · rw [if_neg hmt,if_neg hmt,if_neg hmt]
    by_cases hms : m = source
    · subst hms
      rw [if_pos rfl,if_pos rfl,hes]
      rfl
    · rw [if_neg hms,if_neg hms]

theorem qbit?_entangle (rand : ℕ → ℤ) {left right : Bytes} {el er : VMQbit D} (hl : vm.qbit? left = some el)
    (hr : vm.qbit? right = some er) (m : Bytes) : (vm.act rand (.entangle left right)).qbit? m =
      if m = right then some { er with entangledWith := left, a := el.a, b := el.b, measured := false, result := 0 }
      else if m = left then some { el with entangledWith := right }
      else vm.qbit? m := by
  obtain ⟨i,hi,-⟩ := findQbit_of_qbit? hl
  obtain ⟨j,hj,-⟩ := findQbit_of_qbit? hr
  rw [← qbit?_link hi hj hl hr m]
  apply qbit?_congr
  rw [VM.act,VM.entangleQbits,hi,hj]
  rfl

theorem qbit?_measure (rand : ℕ → ℤ) {x : Bytes} (hx : x ≠ str "qmsg") {e : VMQbit D} (he : vm.qbit? x = some e)
    (m : Bytes) : (vm.act rand (.measure x)).qbit? m =
      if m = x ∨ e.entangledWith ≠ [] ∧ m = e.entangledWith then
        (vm.qbit? m).map (VM.collapse (VM.outcome (rand vm.draws) e))
      else vm.qbit? m := by
  obtain ⟨i,hi,-⟩ := findQbit_of_qbit? he
  rw [VM.act,if_neg hx,VM.onQbit,hi]
  exact qbit?_measureLinked rand hi he m

end Effects

end QbitNova.Language
