import Mathlib.Data.List.Nodup
import Mathlib.Data.List.Range

/-! # Cells and pointers

A heap is the list of the cells handed out so far, where a released cell is empty. A
program over cells follows a program over values when it returns what stands for the
value, unless memory runs out on its way. A walk that releases a tree of cells children
first releases each of them once.
-/
namespace QbitNova.Cells

abbrev Heap (α : Type) := List (Option α)

/-- A fault of the program itself, an access through the null pointer or to a cell that is
released, or a recursion that is too deep. -/
inductive Fault (ε : Type) where
  | own (fault : ε)
  | nullPointer
  | released
  | tooDeep
  deriving DecidableEq

abbrev CellM (σ ε α : Type) := StateT (σ × Heap α) (Except (Fault ε))

section Operations
variable {σ ε α β : Type}

/-- A computation that touches no cell. -/
def plain (m : StateT σ (Except ε) β) : CellM σ ε α β := fun s =>
  match m s.1 with
  | .ok (b, next) => .ok (b, (next, s.2))
  | .error fault => .error (.own fault)

/-- The next cell, if memory is granted for it. -/
def calloc (granted : ℕ → Bool) (blank : α) : CellM σ ε α (Option ℕ) := fun s =>
  if granted s.2.length then .ok (some s.2.length, (s.1, s.2 ++ [some blank])) else .ok (none, s)

/-- The cell behind a pointer. -/
def load (p : Option ℕ) : CellM σ ε α α := fun s =>
  match p with
  | none => .error .nullPointer
  | some a => match s.2[a]? with
    | some (some cell) => .ok (cell, s)
    | _ => .error .released

theorem load_ok {a : ℕ} {cell : α} {s : σ × Heap α} (h : s.2[a]? = some (some cell)) :
    load (some a) s = (.ok (cell, s) : Except (Fault ε) _) := by
  simp only [load,h]

/-- Change the cell behind a pointer. -/
def store (p : Option ℕ) (change : α → α) : CellM σ ε α Unit := fun s =>
  match p with
  | none => .error .nullPointer
  | some a => match s.2[a]? with
    | some (some cell) => .ok ((), (s.1, s.2.set a (some (change cell))))
    | _ => .error .released

/-- Give the cell behind a pointer back. -/
def release (p : Option ℕ) : CellM σ ε α Unit := fun s =>
  match p with
  | none => .ok ((), s)
  | some a => match s.2[a]? with
    | some (some _) => .ok ((), (s.1, s.2.set a none))
    | _ => .error .released

end Operations

section Following
variable {σ ε α A B A' B' : Type} {granted : ℕ → Bool}

/-- Memory is granted for every cell from one size of the heap to another. -/
def Granted (granted : ℕ → Bool) (m n : ℕ) : Prop := ∀ i, m ≤ i → i < n → granted i = true

theorem Granted.append {l m n : ℕ} (h : l ≤ m) (h' : m ≤ n) :
    Granted granted l n ↔ Granted granted l m ∧ Granted granted m n := by
  constructor
  · intro hall
    exact ⟨fun i hi hlt => hall i hi (by omega),fun i hi hlt => hall i (by omega) hlt⟩
  · rintro ⟨hfirst,hrest⟩ i hi hlt
    by_cases him : i < m
    · exact hfirst i hi him
    · exact hrest i (by omega) hlt

/-- From a heap, the program over cells does what the program over values does, with a
result and a heap that satisfy the postcondition, unless memory is denied on the way. -/
def Follows (granted : ℕ → Bool) (h : Heap α) (m : StateT σ (Except ε) A) (m' : CellM σ ε α B)
    (post : A → B → Heap α → Prop) : Prop :=
  ∀ s, match m s with
    | .error fault => m' (s, h) = .error (.own fault) ∨ m' (s, h) = .error .nullPointer
    | .ok (a, next) => ∃ b h', post a b h' ∧ h.length ≤ h'.length ∧
        (Granted granted h.length h'.length → m' (s, h) = .ok (b, (next, h'))) ∧
        (¬ Granted granted h.length h'.length → m' (s, h) = .error .nullPointer)

theorem Follows.mono {h : Heap α} {m : StateT σ (Except ε) A} {m' : CellM σ ε α B}
    {post post' : A → B → Heap α → Prop} (hm : Follows granted h m m' post)
    (hpost : ∀ a b h', post a b h' → post' a b h') : Follows granted h m m' post' := by
  intro s
  have hs := hm s
  cases hrun : m s with
  | error fault =>
    rw [hrun] at hs
    exact hs
  | ok result =>
    rw [hrun] at hs
    obtain ⟨b,h',hp,hrest⟩ := hs
    exact ⟨b,h',hpost _ _ _ hp,hrest⟩

theorem Follows.pure {h : Heap α} {a : A} {b : B} {post : A → B → Heap α → Prop} (hpost : post a b h) :
    Follows granted h (Pure.pure a : StateT σ (Except ε) A) (Pure.pure b) post := by
  intro s
  refine ⟨b,h,hpost,le_refl _,fun _ => rfl,fun hdenied => ?_⟩
  exact absurd (fun i hi hlt => absurd hlt (by omega)) hdenied

theorem run_bind_ok {σ ε A B : Type} {m : StateT σ (Except ε) A} {f : A → StateT σ (Except ε) B} {s next : σ} {a : A}
    (h : m s = .ok (a, next)) : (m >>= f) s = f a next := by
  simp only [bind,StateT.bind,h,Except.bind]

theorem run_bind_error {σ ε A B : Type} {m : StateT σ (Except ε) A} {f : A → StateT σ (Except ε) B} {s : σ} {fault : ε}
    (h : m s = .error fault) : (m >>= f) s = .error fault := by
  simp only [bind,StateT.bind,h,Except.bind]

/-- Steps of the two programs that follow each other one after the other. -/
theorem Follows.bind {h : Heap α} {m : StateT σ (Except ε) A} {m' : CellM σ ε α B}
    {mid : A → B → Heap α → Prop} {f : A → StateT σ (Except ε) A'} {f' : B → CellM σ ε α B'}
    {post : A' → B' → Heap α → Prop} (hm : Follows granted h m m' mid)
    (hf : ∀ a b h', mid a b h' → Follows granted h' (f a) (f' b) post) :
    Follows granted h (m >>= f) (m' >>= f') post := by
  intro s
  have hs := hm s
  cases hrun : m s with
  | error fault =>
    rw [hrun] at hs
    rw [run_bind_error hrun]
    exact hs.imp run_bind_error run_bind_error
  | ok result =>
    obtain ⟨a,next⟩ := result
    rw [hrun] at hs
    obtain ⟨b,h₁,hmid,hle,hok,hdenied⟩ := hs
    rw [run_bind_ok hrun]
    have hnext := hf a b h₁ hmid next
    by_cases hgranted : Granted granted h.length h₁.length
    · rw [run_bind_ok (hok hgranted)]
      cases hrest : f a next with
      | error fault =>
        rw [hrest] at hnext
        exact hnext
      | ok last =>
        rw [hrest] at hnext
        obtain ⟨b',h₂,hpost,hle',hok',hdenied'⟩ := hnext
        refine ⟨b',h₂,hpost,hle.trans hle',fun hall => ?_,fun hnot => ?_⟩
        · exact hok' ((Granted.append hle hle').mp hall).2
        · exact hdenied' fun hmore => hnot ((Granted.append hle hle').mpr ⟨hgranted,hmore⟩)
    · rw [run_bind_error (hdenied hgranted)]
      cases hrest : f a next with
      | error fault => exact .inr rfl
      | ok last =>
        rw [hrest] at hnext
        obtain ⟨b',h₂,hpost,hle',-,-⟩ := hnext
        refine ⟨b',h₂,hpost,hle.trans hle',fun hall => ?_,fun _ => rfl⟩
        exact absurd ((Granted.append hle hle').mp hall).1 hgranted

theorem Follows.map {h : Heap α} {m : StateT σ (Except ε) A} {m' : CellM σ ε α B} {mid : A → B → Heap α → Prop}
    {f : A → A'} {post : A' → B → Heap α → Prop} (hm : Follows granted h m m' mid)
    (hpost : ∀ a b h', mid a b h' → post (f a) b h') : Follows granted h (m >>= fun a => Pure.pure (f a)) m' post := by
  have hboth : Follows granted h (m >>= fun a => Pure.pure (f a)) (m' >>= Pure.pure) post :=
    hm.bind fun a b h' hmid => Follows.pure (hpost a b h' hmid)
  rwa [bind_pure] at hboth

/-- A step that only the program over cells takes. -/
theorem Follows.own {h : Heap α} {m' : CellM σ ε α B} {mid : B → Heap α → Prop} {m : StateT σ (Except ε) A'}
    {f' : B → CellM σ ε α B'} {post : A' → B' → Heap α → Prop}
    (hm : Follows granted h (Pure.pure () : StateT σ (Except ε) Unit) m' fun _ => mid)
    (hf : ∀ b h', mid b h' → Follows granted h' m (f' b) post) : Follows granted h m (m' >>= f') post := by
  have hboth := hm.bind (f := fun _ => m) fun _ b h' => hf b h'
  rwa [pure_bind] at hboth

/-- The last step, after which the program over values returns. -/
theorem Follows.last {h : Heap α} {m' : CellM σ ε α B} {mid : B → Heap α → Prop} {a : A} {post : A → B → Heap α → Prop}
    (hm : Follows granted h (Pure.pure () : StateT σ (Except ε) Unit) m' fun _ => mid)
    (hpost : ∀ b h', mid b h' → post a b h') : Follows granted h (Pure.pure a : StateT σ (Except ε) A) m' post := by
  intro s
  obtain ⟨b,h',hmid,hrest⟩ := hm s
  exact ⟨b,h',hpost b h' hmid,hrest⟩

theorem follows_plain (h : Heap α) (m : StateT σ (Except ε) A) :
    Follows granted h m (plain m) fun a b h' => a = b ∧ h' = h := by
  intro s
  cases hrun : m s with
  | error fault => exact .inl (by simp only [plain,hrun])
  | ok result =>
    refine ⟨result.1,h,⟨rfl,rfl⟩,le_refl _,fun _ => by simp only [plain,hrun],fun hdenied => ?_⟩
    exact absurd (fun i hi hlt => absurd hlt (by omega)) hdenied

/-- A computation without cells that the program over values does in the same place. -/
theorem Follows.plain {h : Heap α} {m : StateT σ (Except ε) A} {f : A → StateT σ (Except ε) A'}
    {f' : A → CellM σ ε α B'} {post : A' → B' → Heap α → Prop} (hf : ∀ a, Follows granted h (f a) (f' a) post) :
    Follows granted h (m >>= f) (Cells.plain m >>= f') post := by
  refine (follows_plain h m).bind ?_
  rintro a b h' ⟨hb,hh⟩
  rw [← hb,hh]
  exact hf a

theorem follows_load {h : Heap α} {a : ℕ} {cell : α} (hcell : h[a]? = some (some cell)) :
    Follows granted h (Pure.pure () : StateT σ (Except ε) Unit) (load (some a)) fun _ b h' => b = cell ∧ h' = h := by
  intro s
  refine ⟨cell,h,⟨rfl,rfl⟩,le_refl _,fun _ => load_ok hcell,fun hdenied => ?_⟩
  exact absurd (fun i hi hlt => absurd hlt (by omega)) hdenied

theorem follows_store {h : Heap α} {a : ℕ} {cell : α} (hcell : h[a]? = some (some cell)) (change : α → α) :
    Follows granted h (Pure.pure () : StateT σ (Except ε) Unit) (store (some a) change)
      fun _ _ h' => h' = h.set a (some (change cell)) := by
  intro s
  have hrun : store (ε := ε) (some a) change (s, h) = .ok ((), (s, h.set a (some (change cell)))) := by
    simp only [store,hcell]
  refine ⟨(),_,rfl,by rw [List.length_set],fun _ => hrun,fun hdenied => ?_⟩
  exact absurd (fun i hi hlt => absurd hlt (by rw [List.length_set]; omega)) hdenied

/-- A new cell whose pointer is used at once. -/
theorem follows_calloc {h : Heap α} (blank cell : α) {fill : Option ℕ → CellM σ ε α B} (b : B)
    (hnull : ∀ s, fill none s = .error .nullPointer)
    (hfill : ∀ s, fill (some h.length) (s, h ++ [some blank]) = .ok (b, (s, h ++ [some cell]))) :
    Follows granted h (Pure.pure () : StateT σ (Except ε) Unit) (calloc granted blank >>= fill)
      fun _ c h' => c = b ∧ h' = h ++ [some cell] := by
  intro s
  have hone : Granted granted h.length (h ++ [some cell]).length ↔ granted h.length = true := by
    rw [List.length_append,List.length_singleton]
    constructor
    · intro hall
      exact hall _ (le_refl _) (by omega)
    · intro hlast i hi hlt
      rwa [show i = h.length by omega]
  refine ⟨b,h ++ [some cell],⟨rfl,rfl⟩,by simp,fun hall => ?_,fun hnot => ?_⟩
  · have hcell : calloc (σ := σ) (ε := ε) granted blank (s, h) = .ok (some h.length, (s, h ++ [some blank])) := by
      rw [calloc,if_pos (hone.mp hall)]
    rw [run_bind_ok hcell]
    exact hfill s
  · have hcell : calloc (σ := σ) (ε := ε) granted blank (s, h) = .ok (none, (s, h)) := by
      rw [calloc,if_neg fun hlast => hnot (hone.mpr hlast)]
    rw [run_bind_ok hcell]
    exact hnull (s, h)

end Following

section Forests
variable {α σ ε : Type} (fields : List (α → Option ℕ))

/-- A list of pointers to trees of cells that are linked by the given fields, and the cells
in the order in which a walk that takes the links first comes back to them. -/
inductive Forest (h : Heap α) : List (Option ℕ) → List ℕ → Prop where
  | nil : Forest h [] []
  | null {ps : List (Option ℕ)} {F : List ℕ} (rest : Forest h ps F) : Forest h (none :: ps) F
  | cell {a : ℕ} {c : α} {ps : List (Option ℕ)} {F G : List ℕ} (here : h[a]? = some (some c))
      (links : Forest h (fields.map (· c)) G) (rest : Forest h ps F) : Forest h (some a :: ps) (G ++ a :: F)

/-- Release what a pointer leads to: for each field what it leads to, then the cell itself. -/
def dispose : ℕ → Option ℕ → CellM σ ε α Unit
  | 0, _ => fun _ => .error .tooDeep
  | _ + 1, none => pure ()
  | fuel + 1, some a => do
    forM fields (fun field => do
      let cell ← load (some a)
      dispose fuel (field cell))
    release (some a)

/-- A heap without some of its cells. -/
def without (F : List ℕ) (h : Heap α) : Heap α := F.foldl (fun h a => h.set a none) h

theorem without_append (F G : List ℕ) (h : Heap α) : without (F ++ G) h = without G (without F h) := by
  rw [without,List.foldl_append]
  rfl

@[simp] theorem length_without (F : List ℕ) (h : Heap α) : (without F h).length = h.length := by
  induction F generalizing h with
  | nil => rfl
  | cons a F ih =>
    rw [without,List.foldl_cons]
    exact (ih _).trans List.length_set

theorem getElem?_without {F : List ℕ} {i : ℕ} (hi : i ∉ F) (h : Heap α) : (without F h)[i]? = h[i]? := by
  induction F generalizing h with
  | nil => rfl
  | cons a F ih =>
    rw [List.mem_cons,not_or] at hi
    rw [without,List.foldl_cons]
    apply (ih hi.2 _).trans
    exact List.getElem?_set_ne fun h => hi.1 h.symm

theorem getElem?_without_of_mem {F : List ℕ} {i : ℕ} (hi : i ∈ F) {h : Heap α} (hlt : i < h.length) :
    (without F h)[i]? = some none := by
  induction F generalizing h with
  | nil => cases hi
  | cons a F ih =>
    rw [without,List.foldl_cons]
    by_cases hrest : i ∈ F
    · exact ih hrest (by rwa [List.length_set])
    · obtain rfl : i = a := (List.mem_cons.mp hi).resolve_right hrest
      apply (getElem?_without hrest _).trans
      exact List.getElem?_set_self hlt

variable {fields}

/-- A forest stays where the cells of its footprint stay. -/
theorem Forest.frame {h h' : Heap α} {ps : List (Option ℕ)} {F : List ℕ} (hforest : Forest fields h ps F)
    (hsame : ∀ i ∈ F, h'[i]? = h[i]?) : Forest fields h' ps F := by
  induction hforest with
  | nil => exact .nil
  | null rest ih => exact .null (ih hsame)
  | cell here links rest ihlinks ih =>
    refine .cell ?_ (ihlinks fun i hi => hsame i (by simp [hi])) (ih fun i hi => hsame i (by simp [hi]))
    rw [hsame _ (by simp),here]

theorem Forest.append {h : Heap α} {ps qs : List (Option ℕ)} {F G : List ℕ} (hfirst : Forest fields h ps F)
    (hrest : Forest fields h qs G) : Forest fields h (ps ++ qs) (F ++ G) := by
  induction hfirst with
  | nil => exact hrest
  | null rest ih => exact .null ih
  | cell here links rest _ ih =>
    rw [List.append_assoc]
    exact .cell here links ih

theorem Forest.split {h : Heap α} {p : Option ℕ} {ps : List (Option ℕ)} {F : List ℕ}
    (hforest : Forest fields h (p :: ps) F) : ∃ G H, F = G ++ H ∧ Forest fields h [p] G ∧ Forest fields h ps H := by
  cases hforest with
  | null rest => exact ⟨[],_,rfl,.null .nil,rest⟩
  | cell here links rest => exact ⟨_,_,by rw [List.append_assoc]; rfl,.cell here links .nil,rest⟩

theorem Forest.disjoint_split {G H : List ℕ} (hnodup : (G ++ H).Nodup) : G.Nodup ∧ H.Nodup ∧ ∀ i ∈ H, i ∉ G := by
  rw [List.nodup_append] at hnodup
  exact ⟨hnodup.1,hnodup.2.1,fun i hi hg => hnodup.2.2 i hg i hi rfl⟩

/-- The walk over the links of a cell, given what happens to each of them. -/
theorem walk_links {fuel a : ℕ} {c : α} {s : σ}
    (hdispose : ∀ (h : Heap α) p F, Forest fields h [p] F → F.Nodup → F.length < fuel →
      (dispose fields fuel p : CellM σ ε α Unit) (s, h) = .ok ((), (s, without F h)))
    (gs : List (α → Option ℕ)) {h : Heap α} {G : List ℕ} (here : h[a]? = some (some c)) (ha : a ∉ G)
    (hlinks : Forest fields h (gs.map (· c)) G) (hnodup : G.Nodup) (hfuel : G.length < fuel) :
    (forM gs (fun field => do
      let cell ← load (some a)
      dispose fields fuel (field cell)) : CellM σ ε α Unit) (s, h) = .ok ((), (s, without G h)) := by
  induction gs generalizing h G with
  | nil =>
    cases hlinks
    rfl
  | cons g gs ih =>
    obtain ⟨G,H,rfl,hfirst,hrest⟩ := hlinks.split
    obtain ⟨hG,hH,hdisjoint⟩ := Forest.disjoint_split hnodup
    rw [List.mem_append,not_or] at ha
    rw [List.length_append] at hfuel
    have hg := hdispose h _ G hfirst hG (by omega)
    rw [List.forM_cons,run_bind_ok ((run_bind_ok (load_ok here)).trans hg),without_append]
    apply ih _ ha.2 _ hH (by omega)
    · rw [getElem?_without ha.1,here]
    · exact hrest.frame fun i hi => getElem?_without (hdisjoint i hi) h

/-- The walk from a pointer releases the cells it leads to, each once, and no other cell. -/
theorem dispose_forest {fuel : ℕ} {h : Heap α} {p : Option ℕ} {F : List ℕ} (hforest : Forest fields h [p] F)
    (hnodup : F.Nodup) (hfuel : F.length < fuel) (s : σ) :
    (dispose fields fuel p : CellM σ ε α Unit) (s, h) = .ok ((), (s, without F h)) := by
  induction fuel generalizing h p F with
  | zero => omega
  | succ fuel ih =>
    cases hforest with
    | null rest =>
      cases rest
      rfl
    | cell here links rest =>
      cases rest
      rename_i a c G
      obtain ⟨hG,-,hdisjoint⟩ := Forest.disjoint_split hnodup
      have ha : a ∉ G := hdisjoint a (by simp)
      rw [List.length_append,List.length_singleton] at hfuel
      have hwalk := walk_links (s := s) (ε := ε) (fun h p F hforest hnodup hlt => ih hforest hnodup hlt) fields here ha
        links hG (by omega)
      have hleft : (without G h)[a]? = some (some c) := by rw [getElem?_without ha,here]
      rw [dispose,run_bind_ok hwalk,without_append]
      simp only [release,hleft]
      rfl

end Forests

end QbitNova.Cells
