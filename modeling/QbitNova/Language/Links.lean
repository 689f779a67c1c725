import QbitNova.Language.Lookup

/-! # The links of the byte VM

A qbit holds the name of the one it is entangled with. cnot and entangle write this name on
both sides without a look at the partners the two had before, and a declaration of a qbit
that is already there leaves it. When links stay symmetric, and when a declared qbit is
apart from all others, is decided by the links found when such a statement is carried out.
-/
namespace QbitNova.Language
open CText Transition ExactReals

/-- The qbits an action works on. -/
def Action.qbits : Action → List Bytes
  | .createQbit name _ => [name]
  | .hadamard name => [name]
  | .cnot control target => [control, target]
  | .entangle left right => [left, right]
  | .measure name => [name]
  | _ => []

/-- The two names an action links. -/
def Action.linkNames : Action → Option (Bytes × Bytes)
  | .cnot control target => some (control, target)
  | .entangle left right => some (left, right)
  | _ => none

section Effect
variable {D : Type} [Doubles D]

/-- What an action can do to the qbits. -/
inductive Effect (vm vm' : VM D) : Action → Prop
  | kept {action : Action} (h : ∀ m, vm'.qbit? m = vm.qbit? m)
      (missing : ∀ a b, action.linkNames = some (a, b) → vm.qbit? a = none ∨ vm.qbit? b = none) : Effect vm vm' action
  | entered {x state : Bytes} {q : VMQbit D} (new : vm.qbit? x = none) (link : q.entangledWith = [])
      (h : ∀ m, vm'.qbit? m = if m = x then some q else vm.qbit? m) : Effect vm vm' (.createQbit x state)
  | rewritten {action : Action} {x : Bytes} {e e' : VMQbit D} (names : action.qbits = [x])
      (found : vm.qbit? x = some e) (link : e'.entangledWith = e.entangledWith)
      (h : ∀ m, vm'.qbit? m = if m = x then some e' else vm.qbit? m) : Effect vm vm' action
  | linked {action : Action} {a b : Bytes} {ea ea' eb eb' : VMQbit D} (names : action.linkNames = some (a, b))
      (found : vm.qbit? a = some ea ∧ vm.qbit? b = some eb) (source : ea'.entangledWith = b)
      (target : eb'.entangledWith = a)
      (h : ∀ m, vm'.qbit? m = if m = b then some eb' else if m = a then some ea' else vm.qbit? m) :
      Effect vm vm' action
  | measured {x : Bytes} {e : VMQbit D} {result : ℤ} (name : x ≠ str "qmsg") (found : vm.qbit? x = some e)
      (h : ∀ m, vm'.qbit? m = if m = x ∨ e.entangledWith ≠ [] ∧ m = e.entangledWith then
        (vm.qbit? m).map (VM.collapse result) else vm.qbit? m) : Effect vm vm' (.measure x)

/-- Only a link can depend on two qbits. -/
theorem Effect.of_kept {vm vm' : VM D} {action : Action} (hqbits : vm'.qbits = vm.qbits)
    (hlink : action.linkNames = none) : Effect vm vm' action := by
  refine .kept (qbit?_congr hqbits) fun a b h => ?_
  rw [hlink] at h
  cases h

theorem effect_createQbit (vm : VM D) (x state : Bytes) : Effect vm (vm.createQbit x state) (.createQbit x state) := by
  have hqbit := qbit?_createQbit vm x state
  cases hfind : vm.findQbit x with
  | some i =>
    obtain ⟨e,he,-⟩ := qbit?_of_findQbit hfind
    refine .rewritten rfl he (show (declaredAs state e).entangledWith = e.entangledWith from rfl) fun m => ?_
    rw [hqbit,hfind,he]
    exact if_congr (and_iff_left fun h => (by cases h)) rfl rfl
  | none =>
    have hnone := qbit?_eq_none.mpr hfind
    by_cases hroom : vm.qbits.length < maxVmQbits
    · refine .entered hnone (q := declaredAs state ⟨x, Scalars.ofInt 0, Scalars.ofInt 0, false, 0, []⟩) rfl
        fun m => ?_
      rw [hqbit,hfind,hnone]
      exact if_congr (and_iff_left fun _ => hroom) rfl rfl
    · refine .kept (fun m => ?_) fun a b h => (by cases h)
      rw [hqbit,hfind,if_neg fun h => hroom (h.2 rfl)]

theorem effect_link {vm vm' : VM D} {action : Action} {a b : Bytes} (hnames : action.linkNames = some (a, b))
    {i j : ℕ} (hi : vm.findQbit a = some i) (hj : vm.findQbit b = some j)
    (hqbits : vm'.qbits = (vm.link i j a b).qbits) : Effect vm vm' action := by
  obtain ⟨ea,hea,-⟩ := qbit?_of_findQbit hi
  obtain ⟨eb,heb,-⟩ := qbit?_of_findQbit hj
  let source : VMQbit D := { ea with entangledWith := b }
  let target : VMQbit D := { eb with entangledWith := a, a := ea.a, b := ea.b, measured := false, result := 0 }
  exact .linked hnames ⟨hea,heb⟩ (show source.entangledWith = b from rfl) (show target.entangledWith = a from rfl)
    fun m => (qbit?_congr hqbits m).trans (qbit?_link hi hj hea heb m)

theorem effect_unlinked {vm vm' : VM D} {action : Action} {a b : Bytes} (hnames : action.linkNames = some (a, b))
    (hmissing : ∀ i j, vm.findQbit a = some i → vm.findQbit b = some j → False) (hqbits : vm'.qbits = vm.qbits) :
    Effect vm vm' action := by
  refine .kept (qbit?_congr hqbits) fun a' b' h => ?_
  rw [hnames] at h
  cases h
  cases ha : vm.findQbit a with
  | none => exact Or.inl (qbit?_eq_none.mpr ha)
  | some i =>
    cases hb : vm.findQbit b with
    | none => exact Or.inr (qbit?_eq_none.mpr hb)
    | some j => exact (hmissing i j ha hb).elim

theorem act_effect (rand : ℕ → ℤ) (vm : VM D) (action : Action) : Effect vm (vm.act rand action) action := by
  cases action with
  | createQbit x state => exact effect_createQbit vm x state
  | hadamard x =>
    cases hi : vm.findQbit x with
    | none =>
      refine .of_kept ?_ rfl
      rw [VM.act,VM.onQbit,hi]
      rfl
    | some i =>
      obtain ⟨e,he,-⟩ := qbit?_of_findQbit hi
      have hturned := qbit?_hadamard rand he
      exact .rewritten rfl he (show (turned e).entangledWith = e.entangledWith from rfl) hturned
  | cnot control target =>
    simp only [VM.act,VM.cnotQbits]
    split
    · next i j hi hj => exact effect_link rfl hi hj rfl
    · next hmissing => exact effect_unlinked rfl hmissing rfl
  | entangle left right =>
    simp only [VM.act,VM.entangleQbits]
    split
    · next i j hi hj => exact effect_link rfl hi hj rfl
    · next hmissing => exact effect_unlinked rfl hmissing rfl
  | measure x =>
    simp only [VM.act]
    split_ifs with hx
    · refine .of_kept ?_ rfl
      unfold VM.qmsgMeasure
      split_ifs <;> rfl
    · simp only [VM.onQbit]
      cases hi : vm.findQbit x with
      | none => exact .of_kept rfl rfl
      | some i =>
        obtain ⟨e,he,-⟩ := qbit?_of_findQbit hi
        exact .measured hx he fun m => qbit?_measureLinked rand hi he m
  | setVar name text =>
    refine .of_kept ?_ rfl
    simp only [VM.act,VM.setVar]
    repeat' split
    all_goals rfl
  | say value =>
    refine .of_kept ?_ rfl
    simp only [VM.act,VM.vmSay,VM.qmsgPrintRegister,VM.printQbit]
    repeat' split
    all_goals rfl
  | check name operator value =>
    refine .of_kept ?_ rfl
    simp only [VM.act,VM.evalCheck]
    repeat' split
    all_goals rfl
  | qmsg message =>
    refine .of_kept ?_ rfl
    simp only [VM.act,VM.qmsgSet]
    split_ifs <;> rfl
  | encode target =>
    refine .of_kept ?_ rfl
    simp only [VM.act,VM.qmsgEncode]
    split_ifs <;> rfl
  | decode target =>
    refine .of_kept ?_ rfl
    simp only [VM.act,VM.qmsgDecode]
    split_ifs <;> rfl
  | safeAction name =>
    refine .of_kept ?_ rfl
    simp only [VM.act,VM.runSafeAction]
    split <;> rfl

end Effect

section Links
variable {D : Type} {vm vm' : VM D}

/-- The qbit of a name holds another name; the VM takes the empty name for no link. -/
def VM.Linked (vm : VM D) (x y : Bytes) : Prop := ∃ e, vm.qbit? x = some e ∧ e.entangledWith = y ∧ y ≠ []

/-- Every link is returned. -/
def VM.LinksBack (vm : VM D) : Prop := ∀ x y, vm.Linked x y → vm.Linked y x

/-- A statement links two qbits only if neither has another partner already, and none of two
different qbits has the empty name. -/
def VM.LinkFree (vm : VM D) (action : Action) : Prop := ∀ a b, action.linkNames = some (a, b) →
  (vm.qbit? a).isSome → (vm.qbit? b).isSome →
    (a = b ∨ a ≠ [] ∧ b ≠ []) ∧ ∀ c, vm.Linked a c ∨ vm.Linked b c → c = a ∨ c = b

theorem linked_congr {x : Bytes} (h : vm'.qbit? x = vm.qbit? x) (y : Bytes) : vm'.Linked x y ↔ vm.Linked x y := by
  rw [VM.Linked,VM.Linked,h]

theorem linked_of_found {x : Bytes} {e : VMQbit D} (h : vm.qbit? x = some e) (y : Bytes) :
    vm.Linked x y ↔ e.entangledWith = y ∧ y ≠ [] := by
  constructor
  · rintro ⟨e',he,hlink⟩
    obtain rfl := Option.some.inj (h.symm.trans he)
    exact hlink
  · exact fun hlink => ⟨e,h,hlink⟩

theorem not_linked_of_none {x : Bytes} (h : vm.qbit? x = none) (y : Bytes) : ¬ vm.Linked x y := by
  rintro ⟨e,he,-⟩
  rw [h] at he
  cases he

variable [Doubles D] {action : Action}

/-- The links after an action. -/
theorem Effect.links (h : Effect vm vm' action) :
    (∀ x y, vm'.Linked x y ↔ vm.Linked x y) ∧
      (∀ a b, action.linkNames = some (a, b) → vm.qbit? a = none ∨ vm.qbit? b = none) ∨
    ∃ a b, action.linkNames = some (a, b) ∧ (vm.qbit? a).isSome ∧ (vm.qbit? b).isSome ∧
      ∀ x y, vm'.Linked x y ↔ if x = b then y = a ∧ y ≠ [] else if x = a then y = b ∧ y ≠ [] else vm.Linked x y := by
  have hone : ∀ {x : Bytes}, action.qbits = [x] → action.linkNames = none := by
    intro x hx
    cases action <;> first | rfl | cases hx
  cases h with
  | kept hkept missing => exact Or.inl ⟨fun x y => linked_congr (hkept x) y,missing⟩
  | @entered x state q new link hentered =>
    refine Or.inl ⟨fun z y => ?_,fun a b hnames => (by cases hnames)⟩
    by_cases hz : z = x
    · subst hz
      have hq := (hentered z).trans (if_pos rfl)
      refine iff_of_false ?_ (not_linked_of_none new y)
      rw [linked_of_found hq,link]
      rintro ⟨rfl,hne⟩
      exact hne rfl
    · exact linked_congr ((hentered z).trans (if_neg hz)) y
  | @rewritten _ x e e' names found link hrewritten =>
    refine Or.inl ⟨fun z y => ?_,fun a b hnames => ?_⟩
    · by_cases hz : z = x
      · subst hz
        rw [linked_of_found ((hrewritten z).trans (if_pos rfl)),linked_of_found found,link]
      · exact linked_congr ((hrewritten z).trans (if_neg hz)) y
    · rw [hone names] at hnames
      cases hnames
  | @linked _ a b ea ea' eb eb' names found source target hlinked =>
    refine Or.inr ⟨a,b,names,by rw [found.1]; rfl,by rw [found.2]; rfl,fun z y => ?_⟩
    by_cases hb : z = b
    · rw [if_pos hb,linked_of_found ((hlinked z).trans (if_pos hb)),target,eq_comm]
    · rw [if_neg hb]
      by_cases ha : z = a
      · rw [if_pos ha,linked_of_found ((hlinked z).trans ((if_neg hb).trans (if_pos ha))),source,eq_comm]
      · rw [if_neg ha]
        exact linked_congr ((hlinked z).trans ((if_neg hb).trans (if_neg ha))) y
  | @measured x e result name found hmeasured =>
    refine Or.inl ⟨fun z y => ?_,fun a b hnames => (by cases hnames)⟩
    have hz := hmeasured z
    split_ifs at hz
    · cases hq : vm.qbit? z with
      | none =>
        rw [hq] at hz
        exact iff_of_false (not_linked_of_none hz y) (not_linked_of_none hq y)
      | some e' =>
        rw [hq] at hz
        rw [linked_of_found hz,linked_of_found hq]
        rfl
    · exact linked_congr hz y

theorem linksBack_act (rand : ℕ → ℤ) (hback : vm.LinksBack) (action : Action) :
    (vm.act rand action).LinksBack ↔ vm.LinkFree action := by
  rcases (act_effect rand vm action).links with ⟨hsame,hmissing⟩ | ⟨a,b,hnames,ha,hb,hlinks⟩
  · have hkept : (vm.act rand action).LinksBack := fun x y h => (hsame y x).mpr (hback x y ((hsame x y).mp h))
    refine iff_of_true hkept fun a b hnames ha hb => ?_
    rcases hmissing a b hnames with hnone | hnone
    · rw [hnone] at ha
      cases ha
    · rw [hnone] at hb
      cases hb
  · constructor
    · intro hafter a' b' hnames'
      rw [hnames] at hnames'
      cases hnames'
      intro _ _
      have htarget : ∀ y, (vm.act rand action).Linked b y ↔ y = a ∧ y ≠ [] :=
        fun y => (hlinks b y).trans (by rw [if_pos rfl])
      have hsource : ∀ y, (vm.act rand action).Linked a y → y = a ∨ y = b := by
        intro y h
        rw [hlinks] at h
        split_ifs at h
        · exact Or.inl h.1
        · exact Or.inr h.1
        · next hne => exact absurd rfl hne
      constructor
      · by_cases hab : a = b
        · exact Or.inl hab
        · right
          constructor
          · rintro rfl
            have hne : b ≠ [] := Ne.symm hab
            have hforward : (vm.act rand action).Linked [] b := by rw [hlinks,if_neg hab,if_pos rfl]; exact ⟨rfl,hne⟩
            exact ((htarget []).mp (hafter _ _ hforward)).2 rfl
          · rintro rfl
            obtain ⟨-,-,-,hne⟩ := hafter _ _ ((htarget a).mpr ⟨rfl,hab⟩)
            exact hne rfl
      · intro c hc
        by_contra hother
        rw [not_or] at hother
        have hkept : ∀ y, (vm.act rand action).Linked c y ↔ vm.Linked c y :=
          fun y => (hlinks c y).trans (by rw [if_neg hother.2,if_neg hother.1])
        rcases hc with hc | hc
        · rcases hsource c (hafter _ _ ((hkept a).mpr (hback _ _ hc))) with h | h
          · exact hother.1 h
          · exact hother.2 h
        · exact hother.1 ((htarget c).mp (hafter _ _ ((hkept b).mpr (hback _ _ hc)))).1
    · intro hfree x y hxy
      obtain ⟨hnonempty,hpartners⟩ := hfree a b hnames ha hb
      rw [hlinks] at hxy
      rw [hlinks]
      split_ifs at hxy with hxb hxa
      · subst hxb
        obtain ⟨rfl,hne⟩ := hxy
        by_cases hyx : y = x
        · rw [if_pos hyx]
          exact ⟨hyx.symm,hyx ▸ hne⟩
        · rw [if_neg hyx,if_pos rfl]
          exact ⟨rfl,(hnonempty.resolve_left hyx).2⟩
      · subst hxa
        obtain ⟨rfl,hne⟩ := hxy
        rw [if_pos rfl]
        exact ⟨rfl,(hnonempty.resolve_left hxb).1⟩
      · have hyx := hback x y hxy
        have hya : y ≠ a := fun h => (hpartners x (Or.inl (h ▸ hyx))).elim hxa hxb
        have hyb : y ≠ b := fun h => (hpartners x (Or.inr (h ▸ hyx))).elim hxa hxb
        rwa [if_neg hyb,if_neg hya]

end Links

section Histories
variable {D : Type} [Doubles D]

/-- A step of the machine whose action, if there is one, meets a condition. -/
def GuardedStep (cond : VM D → Action → Prop) (rand : ℕ → ℤ) (code : List Instruction) (m m' : Machine D) : Prop :=
  step rand code m = some m' ∧ ∀ ins action, code[m.pc]? = some ins → ins.performs = some action →
    cond m.session.vm action

/-- The states of a process in which programs are run one after the other on the same tables, if
every step meets a condition. -/
inductive VM.ArisesIf (cond : VM D → Action → Prop) : VM D → Prop
  | boot : VM.ArisesIf cond (emptyVM D)
  | run {vm : VM D} {rand : ℕ → ℤ} {code : List Instruction} {m : Machine D} (h : VM.ArisesIf cond vm)
      (hr : Relation.ReflTransGen (GuardedStep cond rand code) ⟨0, [], ⟨vm.print banner, []⟩, false⟩ m) :
      VM.ArisesIf cond m.session.vm

/-- Without a condition these are all reachable states. -/
def VM.Arises (vm : VM D) : Prop := vm.ArisesIf fun _ _ => True

variable {cond : VM D → Action → Prop} {I : VM D → Prop} {vm : VM D}

theorem VM.ArisesIf.invariant (hboot : I (emptyVM D)) (hprint : ∀ vm text, I vm → I (vm.print text))
    (hact : ∀ vm rand action, I vm → cond vm action → I (vm.act rand action)) (h : vm.ArisesIf cond) : I vm := by
  induction h with
  | boot => exact hboot
  | run _ hr ih =>
    induction hr with
    | refl => exact hprint _ _ ih
    | tail _ hstep hinv =>
      obtain ⟨hstep,hcond⟩ := hstep
      rcases step_vm hstep with hvm | ⟨ins,action,hins,hperforms,hvm⟩ | ⟨text,hvm⟩
      · exact hvm ▸ hinv
      · exact hvm ▸ hact _ _ _ hinv (hcond ins action hins hperforms)
      · exact hvm ▸ hprint _ _ hinv

/-- An instruction that stands for an action performs it. -/
theorem step_action (rand : ℕ → ℤ) {code : List Instruction} {pc : ℕ} {repeats : List Frame} {s : Session D}
    {ins : Instruction} {action : Action} (h : code[pc]? = some ins) (haction : actionOf ins = some action) :
    step rand code ⟨pc, repeats, s, false⟩ = some ⟨pc + 1, repeats, s.perform rand action, false⟩ := by
  rw [step_at rand h]
  unfold execute
  cases hop : ins.op with
  | check | repeatLoop | endBlock | unknown => simp only [actionOf,hop] at haction; cases haction
  | _ => simp only [haction]; rfl

theorem arises_straight (h : vm.Arises) (rand : ℕ → ℤ) (code : List Instruction) (actions : List Action)
    (hcode : code.map actionOf = actions.map some) : (actions.foldl (VM.act rand) (vm.print banner)).Arises := by
  have hrun : ∀ (done rest : List Instruction) (actions : List Action) (s : Session D), code = done ++ rest →
      rest.map actionOf = actions.map some → ∃ s', s'.vm = actions.foldl (VM.act rand) s.vm ∧
        Relation.ReflTransGen (GuardedStep (fun _ _ => True) rand code) ⟨done.length, [], s, false⟩
          ⟨code.length, [], s', false⟩ := by
    intro done rest
    induction rest generalizing done with
    | nil =>
      intro actions s happend hmap
      obtain rfl : actions = [] := by simpa using hmap.symm
      rw [List.append_nil] at happend
      exact ⟨s,rfl,by rw [happend]⟩
    | cons ins rest ih =>
      intro actions s happend hmap
      cases actions with
      | nil => simp at hmap
      | cons action actions =>
        simp only [List.map_cons,List.cons.injEq] at hmap
        obtain ⟨s',hvm,hreach⟩ := ih (done ++ [ins]) actions (s.perform rand action) (by rw [happend]; simp) hmap.2
        refine ⟨s',hvm,.head ⟨?_,fun _ _ _ _ => trivial⟩ hreach⟩
        have hins : code[done.length]? = some ins := by rw [happend]; simp
        rw [step_action rand hins hmap.1,List.length_append,List.length_singleton]
  obtain ⟨s',hvm,hreach⟩ := hrun [] code actions ⟨vm.print banner, []⟩ rfl hcode
  rw [← hvm]
  exact .run h hreach

omit [Doubles D] in
theorem qbit?_emptyVM (x : Bytes) : (emptyVM D).qbit? x = none := rfl

end Histories

section Symmetry
variable {D : Type} [Doubles D] {vm : VM D}

/-- What measuring a qbit does where links are returned: it collapses the other end, and
changes no qbit that is not linked back. -/
structure MeasuresEnds (vm : VM D) (x : Bytes) (vm' : VM D) : Prop where
  collapsed : ∀ y, vm.Linked x y → ∃ ex ey, vm'.qbit? x = some ex ∧ vm'.qbit? y = some ey ∧
    ex.measured = true ∧ ey.measured = true ∧ ey.result = ex.result ∧ ey.a = ex.a ∧ ey.b = ex.b
  others : ∀ z, vm'.qbit? z ≠ vm.qbit? z → z = x ∨ vm.Linked x z ∧ vm.Linked z x

theorem VM.LinksBack.measures (hback : vm.LinksBack) (rand : ℕ → ℤ) {x : Bytes} {i : ℕ}
    (hi : vm.findQbit x = some i) : MeasuresEnds vm x (vm.measureLinked rand i) := by
  obtain ⟨e,he,-⟩ := qbit?_of_findQbit hi
  have hqbit := qbit?_measureLinked rand hi he
  constructor
  · intro y hxy
    obtain ⟨ey,hey,-⟩ := hback x y hxy
    obtain ⟨rfl,hne⟩ := (linked_of_found he y).mp hxy
    refine ⟨VM.collapse (VM.outcome (rand vm.draws) e) e,VM.collapse (VM.outcome (rand vm.draws) e) ey,?_,?_,
      rfl,rfl,rfl,rfl,rfl⟩
    · rw [hqbit,if_pos (Or.inl rfl),he]
      rfl
    · rw [hqbit,if_pos (Or.inr ⟨hne,rfl⟩),hey]
      rfl
  · intro z hz
    rw [hqbit] at hz
    split_ifs at hz with hchanged
    · refine hchanged.imp_right fun ⟨hne,hzlink⟩ => ?_
      have hxz : vm.Linked x z := (linked_of_found he z).mpr ⟨hzlink.symm,hzlink ▸ hne⟩
      exact ⟨hxz,hback x z hxz⟩
    · exact absurd rfl hz

/-- Along a history whose links are all free, links are symmetric in every state and a
measurement collapses exactly the two ends; the first link that is not free breaks them. -/
theorem links_symmetric (h : vm.ArisesIf VM.LinkFree) :
    vm.LinksBack ∧ (∀ rand x i, vm.findQbit x = some i → MeasuresEnds vm x (vm.measureLinked rand i)) ∧
      ∀ rand action, (vm.act rand action).LinksBack ↔ vm.LinkFree action := by
  have hback : vm.LinksBack := by
    refine h.invariant (fun x y hxy => ?_) (fun _ _ hback => hback) fun vm rand action hback hfree => ?_
    · exact absurd hxy (not_linked_of_none (qbit?_emptyVM x) y)
    · exact (linksBack_act rand hback action).mpr hfree
  exact ⟨hback,fun rand x i hi => hback.measures rand hi,fun rand action => linksBack_act rand hback action⟩

theorem links_symmetric_linkedPair : letI := noNumbers
    ∃ vm : VM ℝ, vm.ArisesIf VM.LinkFree ∧ vm.Linked (str "q") (str "p") ∧ vm.LinksBack := by
  let _ := noNumbers
  let rand : ℕ → ℤ := fun _ => 7
  let start : Session ℝ := ⟨(emptyVM ℝ).print banner, []⟩
  let first := start.perform rand (.createQbit (str "q") (str "|+>"))
  let second := first.perform rand (.createQbit (str "p") (str "|0>"))
  let third := second.perform rand (.cnot (str "q") (str "p"))
  have hdeclare : ∀ {vm : VM ℝ} {name state : Bytes}, vm.LinkFree (.createQbit name state) :=
    fun a b hnames => (by cases hnames)
  have hfree : second.vm.LinkFree (.cnot (str "q") (str "p")) := by
    rintro a b ⟨⟩ - -
    refine ⟨Or.inr ⟨by decide,by decide⟩,fun c hc => ?_⟩
    rcases hc with ⟨e,he,rfl,hne⟩ | ⟨e,he,rfl,hne⟩
    · cases he
      exact absurd rfl hne
    · cases he
      exact absurd rfl hne
  have hrun : Relation.ReflTransGen (GuardedStep VM.LinkFree rand linkedPair) ⟨0, [], start, false⟩
      ⟨3, [], third, false⟩ := by
    refine .head (b := ⟨1, [], first, false⟩) ⟨rfl,?_⟩ (.head (b := ⟨2, [], second, false⟩) ⟨rfl,?_⟩ (.single ⟨rfl,?_⟩))
    · rintro ins action ⟨⟩ ⟨⟩
      exact hdeclare
    · rintro ins action ⟨⟩ ⟨⟩
      exact hdeclare
    · rintro ins action ⟨⟩ ⟨⟩
      exact hfree
  have harises : third.vm.ArisesIf VM.LinkFree := .run .boot hrun
  exact ⟨third.vm,harises,⟨_,rfl,rfl,by decide⟩,(links_symmetric harises).1⟩

def chained : List Instruction :=
  [⟨.qbit, str "x", str "|+>", 0⟩, ⟨.qbit, str "y", str "|0>", 0⟩, ⟨.qbit, str "z", str "|0>", 0⟩,
    ⟨.entangle, str "x", str "y", 0⟩, ⟨.entangle, str "y", str "z", 0⟩]

/-- Linking x to y and then y to z leaves x linked to y, which is linked to z; measuring x still
collapses y. -/
theorem chained_links_not_symmetric : letI := noNumbers
    ∃ vm : VM ℝ, vm.Arises ∧ vm.Linked (str "x") (str "y") ∧ vm.Linked (str "y") (str "z") ∧
      ¬ vm.Linked (str "y") (str "x") ∧ ¬ vm.LinksBack ∧
      ∃ before after, vm.qbit? (str "y") = some before ∧ before.measured = false ∧
        (vm.act (fun _ => 7) (.measure (str "x"))).qbit? (str "y") = some after ∧ after.measured = true := by
  let _ := noNumbers
  let rand : ℕ → ℤ := fun _ => 7
  have hboot : (emptyVM ℝ).Arises := .boot
  have harises := arises_straight hboot rand chained [.createQbit (str "x") (str "|+>"),
    .createQbit (str "y") (str "|0>"), .createQbit (str "z") (str "|0>"), .entangle (str "x") (str "y"),
    .entangle (str "y") (str "z")] rfl
  simp only [List.foldl_cons,List.foldl_nil] at harises
  let declared : VM ℝ := ((((emptyVM ℝ).print banner).act rand (.createQbit (str "x") (str "|+>"))).act rand
    (.createQbit (str "y") (str "|0>"))).act rand (.createQbit (str "z") (str "|0>"))
  let final : VM ℝ := (declared.act rand (.entangle (str "x") (str "y"))).act rand (.entangle (str "y") (str "z"))
  obtain ⟨ex,hex⟩ : ∃ ex, declared.qbit? (str "x") = some ex := ⟨_,rfl⟩
  obtain ⟨ey,hey⟩ : ∃ ey, declared.qbit? (str "y") = some ey := ⟨_,rfl⟩
  obtain ⟨ez,hez⟩ : ∃ ez, declared.qbit? (str "z") = some ez := ⟨_,rfl⟩
  have hxy : ¬ str "x" = str "y" := by decide
  have hxz : ¬ str "x" = str "z" := by decide
  have hyz : ¬ str "y" = str "z" := by decide
  have hfourth := qbit?_entangle rand hex hey
  have hy := (hfourth (str "y")).trans (if_pos rfl)
  have hz := (hfourth (str "z")).trans ((if_neg (Ne.symm hyz)).trans (if_neg (Ne.symm hxz)))
  have hfifth := qbit?_entangle rand hy (hz.trans hez)
  have hx' := (hfifth (str "x")).trans ((if_neg hxz).trans ((if_neg hxy).trans
    ((hfourth (str "x")).trans ((if_neg hxy).trans (if_pos rfl)))))
  have hy' := (hfifth (str "y")).trans ((if_neg hyz).trans (if_pos rfl))
  have hlinked : final.Linked (str "x") (str "y") := (linked_of_found hx' _).mpr ⟨rfl,by decide⟩
  have hback : ¬ final.Linked (str "y") (str "x") := fun h =>
    absurd ((linked_of_found hy' _).mp h).1 (show ¬ str "z" = str "x" by decide)
  have hmeasure := qbit?_measure rand (by decide) hx' (str "y")
  rw [if_pos (Or.inr ⟨show str "y" ≠ [] by decide,rfl⟩),hy'] at hmeasure
  exact ⟨final,harises,hlinked,(linked_of_found hy' _).mpr ⟨rfl,by decide⟩,hback,
    fun h => hback (h _ _ hlinked),_,_,hy',rfl,hmeasure,rfl⟩

end Symmetry

section Apart
variable {D : Type} [Doubles D] {vm vm' : VM D} {x : Bytes} {action : Action}

/-- What a qbit holds besides its name and its link. -/
def VMQbit.contents (q : VMQbit D) : D × D × Bool × ℤ := (q.a, q.b, q.measured, q.result)

/-- A step that keeps a qbit apart: an operation on other qbits does not change its contents, and
an operation on it changes no other qbit. -/
structure StepApart (x : Bytes) (vm vm' : VM D) (action : Action) : Prop where
  inside : x ∉ action.qbits → (vm'.qbit? x).map VMQbit.contents = (vm.qbit? x).map VMQbit.contents
  outside : x ∈ action.qbits → ∀ z, z ≠ x → vm'.qbit? z = vm.qbit? z

/-- The action links the qbit to another one. -/
def VM.LinksToAnother (vm : VM D) (x : Bytes) (action : Action) : Prop := ∃ a b, action.linkNames = some (a, b) ∧
  (vm.qbit? a).isSome ∧ (vm.qbit? b).isSome ∧ (a = x ∧ b ≠ x ∨ b = x ∧ a ≠ x)

/-- Every step of a continuation keeps the qbit apart, up to one that links it to another qbit. -/
def StaysApart (rand : ℕ → ℤ) (x : Bytes) : VM D → List Action → Prop
  | _, [] => True
  | vm, action :: rest => ¬ vm.LinksToAnother x action →
      StepApart x vm (vm.act rand action) action ∧ StaysApart rand x (vm.act rand action) rest

/-- The qbit is linked to no other one and no other one to it; the links of a qbit named qmsg, which
measure takes for the message register, do not count. -/
def VM.Isolated (vm : VM D) (x : Bytes) : Prop :=
  ∀ y, y ≠ x → (x ≠ str "qmsg" → ¬ vm.Linked x y) ∧ (y ≠ str "qmsg" → ¬ vm.Linked y x)

omit [Doubles D] in
/-- Names that are linked without linking the qbit to another one are both its name or neither. -/
theorem both_or_neither {a b : Bytes} (hlink : ¬ vm.LinksToAnother x action) (names : action.linkNames = some (a, b))
    (ha : (vm.qbit? a).isSome) (hb : (vm.qbit? b).isSome) : a = x ↔ b = x := by
  by_contra hdiffer
  apply hlink
  refine ⟨a,b,names,ha,hb,?_⟩
  tauto

theorem Effect.apart (h : Effect vm vm' action) (hx : vm.Isolated x) (hlink : ¬ vm.LinksToAnother x action) :
    StepApart x vm vm' action := by
  cases h with
  | kept hkept => exact ⟨fun _ => by rw [hkept],fun _ z _ => hkept z⟩
  | @entered y state q new link hentered =>
    refine ⟨fun hnot => ?_,fun hin z hz => ?_⟩
    · rw [hentered,if_neg (ne_of_mem_of_not_mem (List.mem_singleton_self y) hnot).symm]
    · rw [hentered,if_neg fun he => hz (he.trans (List.mem_singleton.mp hin).symm)]
  | @rewritten _ y e e' names found link hrewritten =>
    refine ⟨fun hnot => ?_,fun hin z hz => ?_⟩ <;> rw [names,List.mem_singleton] at *
    · rw [hrewritten,if_neg hnot]
    · rw [hrewritten,if_neg fun he => hz (he.trans hin.symm)]
  | @linked _ a b ea ea' eb eb' names found source target hlinked =>
    have hsame : a = x ↔ b = x := both_or_neither hlink names (by rw [found.1]; rfl) (by rw [found.2]; rfl)
    have hqbits : action.qbits = [a, b] := by
      cases action <;> cases names <;> rfl
    constructor
    · intro hnot
      rw [hqbits,List.mem_pair,not_or] at hnot
      rw [hlinked,if_neg hnot.2,if_neg hnot.1]
    · intro hin z hz
      rw [hqbits,List.mem_pair] at hin
      obtain ⟨rfl,rfl⟩ : a = x ∧ b = x := by
        rcases hin with rfl | rfl
        · exact ⟨rfl,hsame.mp rfl⟩
        · exact ⟨hsame.mpr rfl,rfl⟩
      rw [hlinked,if_neg hz,if_neg hz]
  | @measured y e result name found hmeasured =>
    constructor
    · intro hnot
      have hne : x ≠ y := fun h => hnot (h ▸ List.mem_singleton_self x)
      rw [hmeasured,if_neg]
      rintro (h | ⟨hlinked,h⟩)
      · exact hne h
      · exact (hx y (Ne.symm hne)).2 name ⟨e,found,h.symm,h ▸ hlinked⟩
    · intro hin z hz
      obtain rfl : x = y := List.mem_singleton.mp hin
      rw [hmeasured,if_neg]
      rintro (h | ⟨hlinked,h⟩)
      · exact hz h
      · exact (hx z hz).1 name ⟨e,found,h.symm,h ▸ hlinked⟩

theorem Effect.isolated (h : Effect vm vm' action) (hx : vm.Isolated x) (hlink : ¬ vm.LinksToAnother x action) :
    vm'.Isolated x := by
  rcases h.links with ⟨hsame,-⟩ | ⟨a,b,names,ha,hb,hlinks⟩
  · intro y hy
    rw [hsame,hsame]
    exact hx y hy
  · have hsame : a = x ↔ b = x := both_or_neither hlink names ha hb
    intro y hy
    rw [hlinks,hlinks]
    constructor
    · intro hname
      split_ifs with hxb hxa
      · rintro ⟨rfl,-⟩
        exact hy (hsame.mpr hxb.symm)
      · exact absurd (hsame.mp hxa.symm).symm hxb
      · exact (hx y hy).1 hname
    · intro hname
      split_ifs with hyb hya
      · rintro ⟨rfl,-⟩
        exact hy (hyb.trans (hsame.mp rfl))
      · rintro ⟨rfl,-⟩
        exact hy (hya.trans (hsame.mpr rfl))
      · exact (hx y hy).2 hname

theorem VM.Isolated.staysApart (hx : vm.Isolated x) (rand : ℕ → ℤ) (rest : List Action) :
    StaysApart rand x vm rest := by
  induction rest generalizing vm with
  | nil => trivial
  | cons action rest ih =>
    intro hlink
    exact ⟨(act_effect rand vm action).apart hx hlink,ih ((act_effect rand vm action).isolated hx hlink)⟩

theorem Effect.found (h : Effect vm vm' action) {z : Bytes} (hz : (vm.qbit? z).isSome) : (vm'.qbit? z).isSome := by
  cases h with
  | kept hkept => rwa [hkept]
  | entered _ _ hentered =>
    rw [hentered]
    split_ifs
    · rfl
    · exact hz
  | rewritten _ _ _ hrewritten =>
    rw [hrewritten]
    split_ifs
    · rfl
    · exact hz
  | linked _ _ _ _ hlinked =>
    rw [hlinked]
    split_ifs
    · rfl
    · rfl
    · exact hz
  | measured _ _ hmeasured =>
    rw [hmeasured]
    split_ifs
    · rwa [Option.isSome_map]
    · exact hz

theorem VM.Arises.partner (h : vm.Arises) {y : Bytes} (hxy : vm.Linked x y) : (vm.qbit? y).isSome := by
  have hinv : ∀ x y, vm.Linked x y → (vm.qbit? y).isSome := by
    refine VM.ArisesIf.invariant (I := fun vm => ∀ x y, vm.Linked x y → (vm.qbit? y).isSome) (fun x y hxy => ?_)
      (fun _ _ hinv => hinv) (fun vm rand action hinv _ => ?_) h
    · exact absurd hxy (not_linked_of_none (qbit?_emptyVM x) y)
    · intro x y hxy
      have heffect := act_effect rand vm action
      apply heffect.found
      rcases heffect.links with ⟨hsame,-⟩ | ⟨a,b,-,ha,hb,hlinks⟩
      · exact hinv x y ((hsame x y).mp hxy)
      · rw [hlinks] at hxy
        split_ifs at hxy
        · exact hxy.1 ▸ ha
        · exact hxy.1 ▸ hb
        · exact hinv x y hxy
  exact hinv x y hxy

omit [Doubles D] in
theorem not_linksToAnother (vm : VM D) (x : Bytes) (h : action.linkNames = none) : ¬ vm.LinksToAnother x action := by
  rintro ⟨a,b,hnames,-⟩
  rw [h] at hnames
  cases hnames

theorem redeclared (rand : ℕ → ℤ) {e : VMQbit D} (he : vm.qbit? x = some e) (state m : Bytes) :
    (vm.act rand (.createQbit x state)).qbit? m = if m = x then some (declaredAs state e) else vm.qbit? m := by
  obtain ⟨i,hi,-⟩ := findQbit_of_qbit? he
  rw [VM.act,qbit?_createQbit,hi,he]
  exact if_congr (and_iff_left fun h => (by cases h)) rfl rfl

theorem not_apart_forward (h : vm.Arises) (rand : ℕ → ℤ) (state : Bytes) {y : Bytes} (hne : y ≠ x)
    (hname : x ≠ str "qmsg") (hxy : vm.Linked x y) :
    ¬ StaysApart rand x (vm.act rand (.createQbit x state)) [.hadamard y, .measure x] := by
  intro hapart
  obtain ⟨ey,hey⟩ := Option.isSome_iff_exists.mp (h.partner hxy)
  obtain ⟨e,he,hlink,hnonempty⟩ := hxy
  have hdeclared := redeclared rand he state
  have hturned := qbit?_hadamard rand ((hdeclared y).trans ((if_neg hne).trans hey))
  have hx := (hturned x).trans ((if_neg (Ne.symm hne)).trans ((hdeclared x).trans (if_pos rfl)))
  have hy := (hturned y).trans (if_pos rfl)
  obtain ⟨-,hrest⟩ := hapart (not_linksToAnother _ x rfl)
  obtain ⟨hstep,-⟩ := hrest (not_linksToAnother _ x rfl)
  have hsame := hstep.outside (List.mem_singleton_self x) y hne
  rw [qbit?_measure rand hname hx,if_pos (Or.inr ⟨hlink ▸ hnonempty,hlink.symm⟩),hy] at hsame
  cases congrArg VMQbit.measured (Option.some.inj hsame)

theorem not_apart_back (h : vm.Arises) (rand : ℕ → ℤ) (state : Bytes) {y : Bytes} (hne : y ≠ x)
    (hname : y ≠ str "qmsg") (hyx : vm.Linked y x) :
    ¬ StaysApart rand x (vm.act rand (.createQbit x state)) [.measure y] := by
  intro hapart
  obtain ⟨e,he⟩ := Option.isSome_iff_exists.mp (h.partner hyx)
  obtain ⟨ey,hey,hlink,hnonempty⟩ := hyx
  have hdeclared := redeclared rand he state
  have hx := (hdeclared x).trans (if_pos rfl)
  have hy := (hdeclared y).trans ((if_neg hne).trans hey)
  obtain ⟨hstep,-⟩ := hapart (not_linksToAnother _ x rfl)
  have hsame := hstep.inside fun hin => hne (List.mem_singleton.mp hin).symm
  rw [qbit?_measure rand hname hy,if_pos (Or.inr ⟨hlink ▸ hnonempty,hlink.symm⟩),hx] at hsame
  cases congrArg (fun contents => contents.2.2.1) (Option.some.inj hsame)

/-- A qbit that has just been declared is apart from all others in every continuation exactly if
there was no link to or from it before. -/
theorem declared_apart_iff (h : vm.Arises) (rand : ℕ → ℤ) (x state : Bytes) :
    (∀ rand' rest, StaysApart rand' x (vm.act rand (.createQbit x state)) rest) ↔ vm.Isolated x := by
  constructor
  · intro hapart y hne
    constructor
    · exact fun hname hxy => not_apart_forward h rand state hne hname hxy (hapart rand _)
    · exact fun hname hyx => not_apart_back h rand state hne hname hyx (hapart rand _)
  · intro hx rand' rest
    exact ((act_effect rand vm _).isolated hx (not_linksToAnother vm x rfl)).staysApart rand' rest

/-- The tables after the program that links q and p. -/
noncomputable def pairTables : VM ℝ :=
  letI := noNumbers
  (((emptyVM ℝ).print banner).act (fun _ => 7) (.createQbit (str "q") (str "|+>"))).act (fun _ => 7)
    (.createQbit (str "p") (str "|0>")) |>.act (fun _ => 7) (.cnot (str "q") (str "p"))

theorem pairTables_arises : letI := noNumbers; pairTables.Arises := by
  let _ := noNumbers
  have hboot : (emptyVM ℝ).Arises := .boot
  exact arises_straight hboot (fun _ => 7) linkedPair [.createQbit (str "q") (str "|+>"),
    .createQbit (str "p") (str "|0>"), .cnot (str "q") (str "p")] rfl

theorem declared_apart_iff_third : letI := noNumbers
    pairTables.Isolated (str "r") ∧ ∀ rand rest,
      StaysApart rand (str "r") (pairTables.act (fun _ => 7) (.createQbit (str "r") (str "|1>"))) rest := by
  let _ := noNumbers
  have hnone : pairTables.qbit? (str "r") = none := rfl
  have hisolated : pairTables.Isolated (str "r") := by
    intro y _
    refine ⟨fun _ => not_linked_of_none hnone y,fun _ hlinked => ?_⟩
    have hfound := pairTables_arises.partner hlinked
    rw [hnone] at hfound
    cases hfound
  exact ⟨hisolated,(declared_apart_iff pairTables_arises (fun _ => 7) (str "r") (str "|1>")).mpr hisolated⟩

/-- A qbit that is declared again is still collapsed by a measurement of its old partner. -/
theorem redeclared_not_apart : letI := noNumbers
    pairTables.Arises ∧ pairTables.Linked (str "p") (str "q") ∧
      ¬ StaysApart (fun _ => 7) (str "q") (pairTables.act (fun _ => 7) (.createQbit (str "q") (str "|1>")))
        [.measure (str "p")] ∧
      ¬ StaysApart (fun _ => 7) (str "q") (pairTables.act (fun _ => 7) (.createQbit (str "q") (str "|1>")))
        [.hadamard (str "p"), .measure (str "q")] := by
  let _ := noNumbers
  have hback : pairTables.Linked (str "p") (str "q") := ⟨_,rfl,rfl,by decide⟩
  have hforward : pairTables.Linked (str "q") (str "p") := ⟨_,rfl,rfl,by decide⟩
  exact ⟨pairTables_arises,hback,not_apart_back pairTables_arises _ _ (by decide) (by decide) hback,
    not_apart_forward pairTables_arises _ _ (by decide) (by decide) hforward⟩

end Apart

end QbitNova.Language
