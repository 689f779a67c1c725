import QbitNova.Library.CText

/-! # Fixed storage

Arrays of a fixed size whose writes are checked: a write outside ends with a fault. A copying
loop stays inside exactly if there is room for what it copies. A table is such an array with
the number of entries in use; entries are made in place, one after the other.
-/
namespace Storage
open CText
variable {ε α : Type} {n : ℕ}

def write (fault : ε) (a : Vector α n) (j : ℕ) (x : α) : Except ε (Vector α n) :=
  if h : j < n then .ok (a.set j x h) else .error fault

/-- Elements are copied as long as they are accepted: the array, the index behind the last of
them and what is left. -/
def copyWhile (fault : ε) (p : α → Bool) : List α → ℕ → Vector α n → Except ε (Vector α n × ℕ × List α)
  | [], j, a => .ok (a, j, [])
  | x :: rest, j, a =>
    if p x then do
      let next ← write fault a j x
      copyWhile fault p rest (j + 1) next
    else .ok (a, j, x :: rest)

/-- The characters before the first NUL. -/
def cString (buf : Vector UInt8 n) : Bytes := cText buf.toList

/-- A copying loop and the terminating NUL: the buffer and the text that is left. -/
def copyString (fault : ε) (p : UInt8 → Bool) (text : Bytes) (buf : Vector UInt8 n) :
    Except ε (Vector UInt8 n × Bytes) := do
  let copied ← copyWhile fault p text 0 buf
  let closed ← write fault copied.1 copied.2.1 0
  return (closed, copied.2.2)

theorem write_inside (fault : ε) (a : Vector α n) {j : ℕ} (h : j < n) (x : α) :
    ∃ next : Vector α n, write fault a j x = .ok next ∧ next.toList.take (j + 1) = a.toList.take j ++ [x] := by
  have hj : j < (a.toList.set j x).length := by
    rw [List.length_set,Vector.length_toList]
    exact h
  refine ⟨a.set j x h,dif_pos h,?_⟩
  rw [Vector.toList_set,List.take_succ_eq_append_getElem hj,List.take_set_of_le (Nat.le_refl j),List.getElem_set_self]

theorem write_outside {fault : ε} {a : Vector α n} {j : ℕ} (h : n ≤ j) (x : α) : write fault a j x = .error fault :=
  dif_neg (Nat.not_lt.mpr h)

/-- With room for the accepted run the loop puts it behind what was there before. -/
theorem copyWhile_inside (fault : ε) {p : α → Bool} {text : List α} {j : ℕ} (a : Vector α n)
    (h : j + (text.takeWhile p).length ≤ n) :
    ∃ next : Vector α n, copyWhile fault p text j a = .ok (next, j + (text.takeWhile p).length, text.dropWhile p) ∧
      next.toList.take (j + (text.takeWhile p).length) = a.toList.take j ++ text.takeWhile p := by
  induction text generalizing j a with
  | nil => exact ⟨a,rfl,(List.append_nil _).symm⟩
  | cons x rest ih =>
    cases hp : p x with
    | false =>
      simp only [copyWhile,List.takeWhile_cons,List.dropWhile_cons,hp,Bool.false_eq_true,↓reduceIte]
      exact ⟨a,rfl,(List.append_nil _).symm⟩
    | true =>
      simp only [List.takeWhile_cons,hp,↓reduceIte,List.length_cons] at h
      obtain ⟨mid,hwrite,hmid⟩ := write_inside fault a (show j < n by omega) x
      obtain ⟨next,hnext,htake⟩ := ih mid (show j + 1 + (rest.takeWhile p).length ≤ n by omega)
      have hindex : j + 1 + (rest.takeWhile p).length = j + ((rest.takeWhile p).length + 1) := by omega
      rw [hindex] at hnext htake
      refine ⟨next,?_,?_⟩
      · simp only [copyWhile,hp,↓reduceIte,hwrite,List.takeWhile_cons,List.dropWhile_cons,List.length_cons]
        exact hnext
      · simp only [List.takeWhile_cons,hp,↓reduceIte,List.length_cons]
        rw [htake,hmid,List.append_assoc,List.singleton_append]

theorem copyWhile_outside {fault : ε} {p : α → Bool} {text : List α} {j : ℕ} (a : Vector α n) (hj : j ≤ n)
    (h : n < j + (text.takeWhile p).length) : copyWhile fault p text j a = .error fault := by
  induction text generalizing j a with
  | nil =>
    simp only [List.takeWhile_nil,List.length_nil] at h
    omega
  | cons x rest ih =>
    cases hp : p x with
    | false =>
      simp only [List.takeWhile_cons,hp,Bool.false_eq_true,↓reduceIte,List.length_nil] at h
      omega
    | true =>
      simp only [List.takeWhile_cons,hp,↓reduceIte,List.length_cons] at h
      simp only [copyWhile,hp,↓reduceIte]
      by_cases hlt : j < n
      · obtain ⟨mid,hwrite,-⟩ := write_inside fault a hlt x
        rw [hwrite]
        exact ih mid hlt (by omega)
      · rw [write_outside (by omega)]
        rfl

theorem cString_closed {buf : Vector UInt8 n} {run : Bytes} (h : buf.toList.take (run.length + 1) = run ++ [0])
    (hnul : 0 ∉ run) : cString buf = run := by
  have hrun : ∀ c ∈ run, (c != 0) = true := by
    intro c hc
    rw [bne_iff_ne]
    rintro rfl
    exact hnul hc
  unfold cString cText
  rw [← List.take_append_drop (run.length + 1) buf.toList,h,List.append_assoc,List.takeWhile_append_of_pos hrun]
  simp

theorem copyString_inside (fault : ε) {p : UInt8 → Bool} {text : Bytes} (buf : Vector UInt8 n)
    (h : (text.takeWhile p).length < n) (hnul : 0 ∉ text.takeWhile p) :
    ∃ closed : Vector UInt8 n, copyString fault p text buf = .ok (closed, text.dropWhile p) ∧
      cString closed = text.takeWhile p := by
  obtain ⟨mid,hcopy,hmid⟩ := copyWhile_inside fault buf (show 0 + (text.takeWhile p).length ≤ n by omega)
  rw [Nat.zero_add] at hcopy hmid
  obtain ⟨closed,hwrite,hclosed⟩ := write_inside fault mid h 0
  refine ⟨closed,?_,?_⟩
  · unfold copyString
    rw [hcopy]
    simp only [bind,Except.bind,hwrite]
    rfl
  · rw [hmid,List.take_zero,List.nil_append] at hclosed
    exact cString_closed hclosed hnul

theorem copyString_outside {fault : ε} {p : UInt8 → Bool} {text : Bytes} (buf : Vector UInt8 n)
    (h : n ≤ (text.takeWhile p).length) : copyString fault p text buf = .error fault := by
  unfold copyString
  by_cases hlt : n < (text.takeWhile p).length
  · rw [copyWhile_outside buf (Nat.zero_le n) (by omega)]
    rfl
  · obtain ⟨mid,hcopy,-⟩ := copyWhile_inside fault buf (show 0 + (text.takeWhile p).length ≤ n by omega)
    rw [hcopy]
    simp only [bind,Except.bind]
    rw [write_outside (by omega)]

/-- An array with the number of its entries in use. -/
structure Table (α : Type) (n : ℕ) where
  slots : Vector α n
  count : ℕ

def Table.stored (t : Table α n) : List α := t.slots.toList.take t.count

/-- The next entry is made in place, out of what its slot holds. -/
def Table.append (fault : ε) (make : α → Except ε α) (t : Table α n) : Except ε (Table α n) :=
  if h : t.count < n then do
    let entry ← make t.slots[t.count]
    return ⟨t.slots.set t.count entry h, t.count + 1⟩
  else .error fault

theorem Table.append_inside (fault : ε) {make : α → Except ε α} {t : Table α n} (h : t.count < n) {entry : α}
    (hmake : make t.slots[t.count] = .ok entry) :
    ∃ next : Table α n, t.append fault make = .ok next ∧ next.count = t.count + 1 ∧ next.stored = t.stored ++ [entry] := by
  obtain ⟨slots,hwrite,hslots⟩ := write_inside fault t.slots h entry
  refine ⟨⟨slots,t.count + 1⟩,?_,rfl,hslots⟩
  unfold write at hwrite
  rw [dif_pos h] at hwrite
  cases hwrite
  unfold Table.append
  rw [dif_pos h,hmake]
  rfl

theorem Table.append_outside {fault : ε} {make : α → Except ε α} {t : Table α n} (h : n ≤ t.count) :
    t.append fault make = .error fault := dif_neg (Nat.not_lt.mpr h)

/-- An entry that does not depend on its slot is stored, or the table is full. -/
theorem Table.append_entry (fault : ε) (entry : α) (t : Table α n) :
    (t.count < n ∧ ∃ next : Table α n, t.append fault (fun _ => .ok entry) = .ok next ∧ next.count = t.count + 1 ∧
      next.stored = t.stored ++ [entry]) ∨
    (n ≤ t.count ∧ t.append fault (fun _ => .ok entry) = .error fault) := by
  by_cases h : t.count < n
  · exact Or.inl ⟨h,Table.append_inside fault h rfl⟩
  · exact Or.inr ⟨Nat.le_of_not_lt h,Table.append_outside (Nat.le_of_not_lt h)⟩

/-- A run adds entries, seen through `view`, if they are all admitted and there is room for
them; else it faults. -/
def Adds {β : Type} (view : α → β) (admitted : β → Prop) (run : Table α n → Except ε (Table α n)) (entries : List β) :
    Prop :=
  ∀ t : Table α n, t.count ≤ n →
    (t.count + entries.length ≤ n ∧ (∀ entry ∈ entries, admitted entry) →
      ∃ next, run t = .ok next ∧ next.count = t.count + entries.length ∧
        next.stored.map view = t.stored.map view ++ entries) ∧
    (¬(t.count + entries.length ≤ n ∧ ∀ entry ∈ entries, admitted entry) → ∃ fault, run t = .error fault)

section
variable {β : Type} {view : α → β} {admitted : β → Prop}

theorem Adds.nil : Adds view admitted (.ok : Table α n → Except ε (Table α n)) [] := by
  intro t ht
  refine ⟨fun _ => ⟨t,rfl,rfl,(List.append_nil _).symm⟩,fun h => absurd ⟨ht,nofun⟩ h⟩

/-- Two runs one after the other. -/
theorem Adds.bind {first second : Table α n → Except ε (Table α n)} {a b : List β} (ha : Adds view admitted first a)
    (hb : Adds view admitted second b) : Adds view admitted (fun t => first t >>= second) (a ++ b) := by
  intro t ht
  obtain ⟨hok,herror⟩ := ha t ht
  simp only [List.length_append,List.forall_mem_append]
  by_cases hfirst : t.count + a.length ≤ n ∧ ∀ entry ∈ a, admitted entry
  · obtain ⟨mid,hmid,hcount,hstored⟩ := hok hfirst
    obtain ⟨hok,herror⟩ := hb mid (by omega)
    rw [hcount] at hok herror
    simp only [hmid]
    constructor
    · rintro ⟨hroom,-,hall⟩
      obtain ⟨next,hnext,hcount',hstored'⟩ := hok ⟨by omega,hall⟩
      refine ⟨next,hnext,by omega,?_⟩
      rw [hstored',hstored,List.append_assoc]
    · intro hnot
      apply herror
      rintro ⟨hroom,hall⟩
      exact hnot ⟨by omega,hfirst.2,hall⟩
  · obtain ⟨fault,hfault⟩ := herror hfirst
    constructor
    · rintro ⟨hroom,hall,-⟩
      exact absurd ⟨by omega,hall⟩ hfirst
    · intro _
      refine ⟨fault,?_⟩
      simp only [hfault]
      rfl

/-- One entry made in place, by a step that succeeds exactly if the entry is admitted. -/
theorem Adds.append {fault : ε} {make : α → Except ε α} {entry : β}
    (hok : admitted entry → ∀ slot, ∃ made, make slot = .ok made ∧ view made = entry)
    (herror : ¬admitted entry → ∀ slot, ∃ fault, make slot = .error fault) :
    Adds view admitted (Table.append (n := n) fault make) [entry] := by
  intro t ht
  simp only [List.length_singleton,List.forall_mem_singleton]
  constructor
  · rintro ⟨hroom,hadmitted⟩
    obtain ⟨made,hmake,hview⟩ := hok hadmitted t.slots[t.count]
    obtain ⟨next,hnext,hcount,hstored⟩ := Table.append_inside fault hroom hmake
    refine ⟨next,hnext,hcount,?_⟩
    rw [hstored,List.map_append,List.map_singleton,hview]
  · intro hnot
    by_cases hroom : t.count < n
    · obtain ⟨fault',hfault⟩ := herror (fun h => hnot ⟨hroom,h⟩) t.slots[t.count]
      refine ⟨fault',?_⟩
      unfold Table.append
      rw [dif_pos hroom,hfault]
      rfl
    · exact ⟨fault,Table.append_outside (Nat.le_of_not_lt hroom)⟩

end

end Storage
