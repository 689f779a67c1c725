import QbitNova.Library.Doubles
import Mathlib.Analysis.SpecialFunctions.Sqrt

/-! # Exact arithmetic

The real numbers as an instance of the arithmetic of programs: no operation rounds.
How numbers are read and printed is left open.
-/
namespace ExactReals
open CText

open Classical in
noncomputable instance : Scalars ℝ where
  ofInt n := n
  add := (· + ·)
  sub := (· - ·)
  mul := (· * ·)
  div := (· / ·)
  sqrt := Real.sqrt
  fabs := abs
  lt x y := decide (x < y)
  le x y := decide (x ≤ y)
  eq x y := decide (x = y)
  isFinite _ := true

/-- The conversions between real numbers and text. -/
class NumberText where
  atof : Bytes → ℝ
  formatG : ℝ → Bytes
  formatFixed3 : ℝ → Bytes

/-- Conversions for programs that read and print no numbers. -/
@[reducible] def noNumbers : NumberText := ⟨fun _ => 0, fun _ => [], fun _ => []⟩

noncomputable instance [NumberText] : Doubles ℝ where
  atof := NumberText.atof
  formatG := NumberText.formatG
  formatFixed3 := NumberText.formatFixed3

open Scalars

@[simp] theorem ofInt_eq (n : ℤ) : (ofInt n : ℝ) = n := rfl
@[simp] theorem add_eq (x y : ℝ) : add x y = x + y := rfl
@[simp] theorem sub_eq (x y : ℝ) : sub x y = x - y := rfl
@[simp] theorem mul_eq (x y : ℝ) : mul x y = x * y := rfl
@[simp] theorem div_eq (x y : ℝ) : div x y = x / y := rfl
@[simp] theorem sqrt_eq (x : ℝ) : sqrt x = Real.sqrt x := rfl
@[simp] theorem fabs_eq (x : ℝ) : fabs x = |x| := rfl
@[simp] theorem isFinite_eq (x : ℝ) : isFinite x = true := rfl
@[simp] theorem lt_eq (x y : ℝ) : lt x y = true ↔ x < y := decide_eq_true_iff
@[simp] theorem le_eq (x y : ℝ) : le x y = true ↔ x ≤ y := decide_eq_true_iff

/-- The number a Hadamard gate divides by. -/
noncomputable def rootTwo : ℝ := Real.sqrt 2

theorem rootTwo_mul_self : rootTwo * rootTwo = 2 := Real.mul_self_sqrt (by norm_num)

theorem rootTwo_ne_zero : rootTwo ≠ 0 := (Real.sqrt_pos.mpr (by norm_num)).ne'

/-- Two sums agree when the terms do on each pair of an involution. -/
theorem sum_eq_of_pairs {n : ℕ} {σ : ℕ → ℕ} {f g : ℕ → ℝ} (hlt : ∀ i < n, σ i < n) (hinv : ∀ i < n, σ (σ i) = i)
    (hpair : ∀ i < n, f i + f (σ i) = g i + g (σ i)) :
    ∑ i ∈ Finset.range n, f i = ∑ i ∈ Finset.range n, g i := by
  rw [← sub_eq_zero,← Finset.sum_sub_distrib]
  refine Finset.sum_involution (fun i _ => σ i) ?_ ?_ ?_ ?_
  · intro i hi
    have h := hpair i (Finset.mem_range.mp hi)
    linarith
  · intro i hi hne hfixed
    have h := hpair i (Finset.mem_range.mp hi)
    rw [hfixed] at h
    exact hne (by linarith)
  · intro i hi
    exact Finset.mem_range.mpr (hlt i (Finset.mem_range.mp hi))
  · intro i hi
    exact hinv i (Finset.mem_range.mp hi)

end ExactReals
