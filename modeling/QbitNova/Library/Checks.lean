import Mathlib.Logic.Basic

/-! # Chains of checks

Validation code is a cascade of tests, each of which ends with its own error. The
rules below peel off one test at a time, from the side of a result that passed and
from the side of an error. A documented order of checks is a table, and the rules for
tables say which rows may change places.
-/
namespace Checks
variable {ε α : Type*} {p : Prop} [Decidable p]

/-- A cascade that succeeds has passed its first test. -/
theorem passed {e : ε} {rest : Except ε α} {a : α} (h : (if p then .error e else rest) = .ok a) :
    ¬ p ∧ rest = .ok a := by
  by_cases hp : p
  · rw [if_pos hp] at h
    cases h
  · rw [if_neg hp] at h
    exact ⟨hp,h⟩

theorem bind_ok_iff {β : Type*} {x : Except ε α} {f : α → Except ε β} {b : β} :
    x.bind f = .ok b ↔ ∃ a, x = .ok a ∧ f a = .ok b := by
  cases x with
  | error e => simp [Except.bind]
  | ok a => simp [Except.bind]

/-- Every error of the computation satisfies `P`. -/
def Errors (P : ε → Prop) (x : Except ε α) : Prop := ∀ e, x = .error e → P e

theorem Errors.ok {P : ε → Prop} (a : α) : Errors P (.ok a) := by
  rintro e ⟨⟩

theorem Errors.error {P : ε → Prop} {e : ε} (he : P e) : Errors P (.error e : Except ε α) := by
  rintro _ ⟨⟩
  exact he

theorem Errors.ite {P : ε → Prop} {x y : Except ε α} (hx : p → Errors P x) (hy : ¬ p → Errors P y) :
    Errors P (if p then x else y) := iteInduction hx hy

/-- The verdict of a table read from the top: the error of the first row whose check fails. -/
def cascade : List (Bool × ε) → Except ε Unit
  | [] => .ok ()
  | (fails, e) :: rows => if fails then .error e else cascade rows

theorem cascade_cons (fails : Bool) (e : ε) (rows : List (Bool × ε)) :
    cascade ((fails, e) :: rows) = if fails then .error e else cascade rows := rfl

/-- A row that cannot fail adds nothing. -/
@[simp] theorem cascade_false (e : ε) (rows : List (Bool × ε)) : cascade ((false, e) :: rows) = cascade rows := rfl

@[simp] theorem cascade_true (e : ε) (rows : List (Bool × ε)) : cascade ((true, e) :: rows) = .error e := rfl

/-- One test of a cascade of tests against one row. -/
theorem ite_cascade {a : Bool} {e : ε} {x : Except ε Unit} {rows : List (Bool × ε)} (hrow : a = decide p)
    (hrest : ¬ p → x = cascade rows) : (if p then .error e else x) = cascade ((a, e) :: rows) := by
  subst hrow
  by_cases hp : p
  · rw [if_pos hp,decide_eq_true hp,cascade_true]
  · rw [if_neg hp,decide_eq_false hp,cascade_false,hrest hp]

theorem cascade_or (a b : Bool) (e : ε) (rows : List (Bool × ε)) :
    cascade ((a || b, e) :: rows) = cascade ((a, e) :: (b, e) :: rows) := by
  cases a <;> rfl

/-- Two checks that never fail together may change places. -/
theorem cascade_exclusive {a b : Bool} (h : a = true → b = false) (d e : ε) (rows : List (Bool × ε)) :
    cascade ((a, d) :: (b, e) :: rows) = cascade ((b, e) :: (a, d) :: rows) := by
  cases a with
  | true =>
    rw [h rfl]
    rfl
  | false => rfl

/-- A check may move past checks that fail with the same error. -/
theorem cascade_move (a : Bool) (e : ε) {rows : List (Bool × ε)} (h : ∀ row ∈ rows, row.2 = e)
    (rest : List (Bool × ε)) : cascade ((a, e) :: (rows ++ rest)) = cascade (rows ++ (a, e) :: rest) := by
  induction rows with
  | nil => rfl
  | cons row rows ih =>
    obtain ⟨b,d⟩ := row
    obtain rfl : d = e := h (b,d) List.mem_cons_self
    rw [List.cons_append,List.cons_append,cascade_cons b d (rows ++ (a,d) :: rest),
      ← ih (fun r hr => h r (List.mem_cons_of_mem _ hr))]
    cases a <;> cases b <;> rfl

end Checks
