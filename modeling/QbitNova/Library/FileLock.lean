import Mathlib.Logic.Function.Basic
import Mathlib.Tactic.SplitIfs

/-! # An exclusive advisory lock on one file

The kernel's side of a lock file: which descriptors are open on it, who opened
each, and the descriptor whose open file holds the lock. No descriptor is
duplicated, so an open file has one descriptor. Owners are described from outside
by what each believes to have; `Agrees` says that these beliefs are the kernel's
state, and every system call has one lemma that keeps it.
-/
namespace FileLock

structure Kernel (D O : Type*) where
  files : D → Option O
  lock : Option D

variable {D O : Type*} [DecidableEq D] [DecidableEq O]

/-- A file is opened under a number that is not in use. -/
def Kernel.openFile (k : Kernel D O) (d : D) (o : O) : Option (Kernel D O) :=
  match k.files d with
  | none => some { k with files := Function.update k.files d (some o) }
  | some _ => none

/-- The exclusive lock is granted unless another open file holds it. -/
def Kernel.flock (k : Kernel D O) (d : D) : Option (Kernel D O) :=
  if k.lock = none ∨ k.lock = some d then some { k with lock := some d } else none

def Kernel.unlock (k : Kernel D O) (d : D) : Kernel D O :=
  { k with lock := if k.lock = some d then none else k.lock }

/-- Closing the only descriptor of an open file gives up its lock as well. -/
def Kernel.close (k : Kernel D O) (d : D) : Kernel D O :=
  { k.unlock d with files := Function.update k.files d none }

/-- What each owner believes to have: a descriptor, and whether it holds the lock by it. -/
structure Agrees (k : Kernel D O) (claim : O → Option (D × Bool)) : Prop where
  files_iff : ∀ d o, k.files d = some o ↔ ∃ b, claim o = some (d, b)
  lock_iff : ∀ d, k.lock = some d ↔ ∃ o, claim o = some (d, true)

namespace Agrees
variable {k : Kernel D O} {claim : O → Option (D × Bool)}

omit [DecidableEq D] [DecidableEq O] in
theorem owner_unique (h : Agrees k claim) {d : D} {b c : Bool} {o p : O} (ho : claim o = some (d, b))
    (hp : claim p = some (d, c)) : o = p := by
  have hfiles := (h.files_iff d o).mpr ⟨b,ho⟩
  rw [(h.files_iff d p).mpr ⟨c,hp⟩] at hfiles
  exact (Option.some.inj hfiles).symm

omit [DecidableEq D] [DecidableEq O] in
/-- At most one owner holds the lock. -/
theorem holder_unique (h : Agrees k claim) {d e : D} {o p : O} (ho : claim o = some (d, true))
    (hp : claim p = some (e, true)) : o = p := by
  have hlock := (h.lock_iff d).mpr ⟨o,ho⟩
  rw [(h.lock_iff e).mpr ⟨p,hp⟩] at hlock
  obtain rfl := Option.some.inj hlock
  exact h.owner_unique ho hp

omit [DecidableEq D] [DecidableEq O] in
theorem lock_ne (h : Agrees k claim) {d : D} {o : O} (ho : claim o = some (d, false)) : k.lock ≠ some d := by
  intro hlock
  obtain ⟨p,hp⟩ := (h.lock_iff d).mp hlock
  obtain rfl := h.owner_unique ho hp
  rw [ho] at hp
  cases hp

omit [DecidableEq D] in
/-- A call of one owner that changes only the entries of that owner. -/
theorem update {k' : Kernel D O} {o : O} {mine : Option (D × Bool)} (h : Agrees k claim)
    (hmine : ∀ d, k'.files d = some o ↔ ∃ b, mine = some (d, b))
    (hothers : ∀ d p, p ≠ o → (k'.files d = some p ↔ k.files d = some p))
    (hlock : ∀ d, k'.lock = some d ↔ mine = some (d, true) ∨ (k.lock = some d ∧ claim o ≠ some (d, true))) :
    Agrees k' (Function.update claim o mine) := by
  refine ⟨fun d p => ?_,fun d => (hlock d).trans ⟨?_,?_⟩⟩
  · by_cases hp : p = o
    · subst hp
      rw [Function.update_self]
      exact hmine d
    · rw [Function.update_of_ne hp,hothers d p hp]
      exact h.files_iff d p
  · rintro (hnew | ⟨hheld,hnot⟩)
    · exact ⟨o,by rw [Function.update_self]; exact hnew⟩
    · obtain ⟨p,hp⟩ := (h.lock_iff d).mp hheld
      refine ⟨p,?_⟩
      rw [Function.update_of_ne]
      · exact hp
      · rintro rfl
        exact hnot hp
  · rintro ⟨p,hp⟩
    by_cases hpo : p = o
    · subst hpo
      rw [Function.update_self] at hp
      exact Or.inl hp
    · rw [Function.update_of_ne hpo] at hp
      refine Or.inr ⟨(h.lock_iff d).mpr ⟨p,hp⟩,fun ho => hpo ?_⟩
      exact h.owner_unique hp ho

theorem openFile {k' : Kernel D O} {d : D} {o : O} (h : Agrees k claim) (ho : claim o = none)
    (hopen : k.openFile d o = some k') :
    Agrees k' (Function.update claim o (some (d, false))) ∧ k'.lock = k.lock := by
  unfold Kernel.openFile at hopen
  cases hfree : k.files d with
  | some p => simp only [hfree] at hopen; cases hopen
  | none =>
    simp only [hfree] at hopen
    cases hopen
    have hnone : ∀ e, k.files e ≠ some o := by
      intro e he
      obtain ⟨b,hb⟩ := (h.files_iff e o).mp he
      rw [ho] at hb
      cases hb
    refine ⟨h.update ?_ ?_ ?_,rfl⟩
    · intro e
      by_cases he : e = d
      · subst he
        simp
      · simp [Function.update_of_ne he,hnone e,Ne.symm he]
    · intro e p hp
      by_cases he : e = d
      · subst he
        simp [hfree,Ne.symm hp]
      · simp [Function.update_of_ne he]
    · intro e
      simp [ho]

theorem flock {k' : Kernel D O} {d : D} {b : Bool} {o : O} (h : Agrees k claim) (ho : claim o = some (d, b))
    (hlock : k.flock d = some k') : Agrees k' (Function.update claim o (some (d, true))) := by
  unfold Kernel.flock at hlock
  split_ifs at hlock with hfree
  cases hlock
  refine h.update ?_ (fun _ _ _ => Iff.rfl) ?_
  · intro e
    rw [h.files_iff e o,ho]
    simp
  · intro e
    rcases hfree with hfree | hfree
    · simp [hfree]
    · obtain ⟨p,hp⟩ := (h.lock_iff d).mp hfree
      obtain rfl := h.owner_unique ho hp
      simp [hfree,hp]

/-- An owner gives up the lock, or closes its descriptor, and with it the lock. -/
theorem unlock {d : D} {b : Bool} {o : O} (h : Agrees k claim) (ho : claim o = some (d, b)) :
    Agrees (k.unlock d) (Function.update claim o (some (d, false))) := by
  refine h.update ?_ (fun _ _ _ => Iff.rfl) ?_
  · intro e
    rw [show (k.unlock d).files = k.files from rfl,h.files_iff e o,ho]
    simp
  · intro e
    unfold Kernel.unlock
    by_cases hheld : k.lock = some d
    · obtain ⟨p,hp⟩ := (h.lock_iff d).mp hheld
      obtain rfl := h.owner_unique ho hp
      simp [hheld,hp]
    · have hb : b = false := by
        cases b with
        | false => rfl
        | true => exact absurd ((h.lock_iff d).mpr ⟨o,ho⟩) hheld
      simp [hheld,ho,hb]

omit [DecidableEq O] in
theorem close_lock {d : D} {o : O} (h : Agrees k claim) (ho : claim o = some (d, false)) :
    (k.close d).lock = k.lock := by
  simp only [Kernel.close,Kernel.unlock,if_neg (h.lock_ne ho)]

theorem close {d : D} {b : Bool} {o : O} (h : Agrees k claim) (ho : claim o = some (d, b)) :
    Agrees (k.close d) (Function.update claim o none) := by
  have hidle := h.unlock ho
  have hclaim : Function.update claim o none = Function.update (Function.update claim o (some (d,false))) o none := by
    rw [Function.update_idem]
  rw [hclaim]
  refine hidle.update ?_ ?_ ?_
  · intro e
    by_cases he : e = d
    · subst he
      simp [Kernel.close]
    · simp [Kernel.close,Function.update_of_ne he,h.files_iff e o,ho,Ne.symm he]
  · intro e p hp
    by_cases he : e = d
    · subst he
      have hfiles : (k.unlock e).files e = some o := (h.files_iff e o).mpr ⟨b,ho⟩
      simp [Kernel.close,hfiles,Ne.symm hp]
    · simp [Kernel.close,Kernel.unlock,Function.update_of_ne he]
  · intro e
    simp [Kernel.close]

end Agrees

end FileLock
