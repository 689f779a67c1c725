import Mathlib.Data.Rat.Cast.Order
import Mathlib.Algebra.Order.Field.Power
import Mathlib.Algebra.Order.Floor.Ring
import Mathlib.Data.Rat.Floor
import Mathlib.Tactic.FieldSimp
import Mathlib.Tactic.Linarith
import Mathlib.Tactic.NormNum

/-! # Rounding in an arbitrary direction

A floating-point format is known by the width of its significands. A rounding of it
never passes a number of the format, in whichever direction it goes for the others.
-/
namespace Rounding

/-- The number has a significand of at most `bits` bits. -/
def Representable (bits : ℕ) (x : ℚ) : Prop := ∃ m e : ℤ, |m| < 2 ^ bits ∧ x = m * 2 ^ e

theorem Representable.mono {bits wider : ℕ} (h : bits ≤ wider) {x : ℚ} (hx : Representable bits x) :
    Representable wider x := by
  obtain ⟨m,e,hm,he⟩ := hx
  exact ⟨m,e,hm.trans_le (pow_le_pow_right₀ (by norm_num) h),he⟩

theorem Representable.neg {bits : ℕ} {x : ℚ} (h : Representable bits x) : Representable bits (-x) := by
  obtain ⟨m,e,hm,rfl⟩ := h
  refine ⟨-m,e,by rwa [abs_neg],?_⟩
  push_cast
  rw [neg_mul]

/-- A scaling by a power of two is exact. -/
theorem Representable.scale {bits : ℕ} {x : ℚ} (h : Representable bits x) (k : ℤ) : Representable bits (x * 2 ^ k) := by
  obtain ⟨m,e,hm,rfl⟩ := h
  exact ⟨m,e + k,hm,by rw [zpow_add₀ two_ne_zero,mul_assoc]⟩

structure Faithful (bits : ℕ) where
  round : ℚ → ℚ
  lower : ∀ x r, Representable bits r → r ≤ x → r ≤ round x
  upper : ∀ x r, Representable bits r → x ≤ r → round x ≤ r

theorem Faithful.exact {bits : ℕ} (f : Faithful bits) {x : ℚ} (h : Representable bits x) : f.round x = x :=
  le_antisymm (f.upper x x h (le_refl x)) (f.lower x x h (le_refl x))

/-- A number of `p` bits is whole, or it is a fraction whose numerator has `p` bits. -/
theorem Representable.cases {p : ℕ} {x : ℚ} (h : Representable p x) :
    (∃ n : ℤ, x = n) ∨ ∃ (m : ℤ) (k : ℕ), |m| < 2 ^ p ∧ x = m / 2 ^ (k + 1) := by
  obtain ⟨m,e,hm,rfl⟩ := h
  obtain ⟨k,rfl | rfl⟩ := e.eq_nat_or_neg
  · exact Or.inl ⟨m * 2 ^ k,by push_cast; rw [zpow_natCast]⟩
  · cases k with
    | zero => exact Or.inl ⟨m,by simp⟩
    | succ k => exact Or.inr ⟨m,k,hm,by rw [zpow_neg,zpow_natCast,div_eq_mul_inv]⟩

theorem Representable.below_half {p : ℕ} {x : ℚ} (h : Representable p x) (hlt : x < 1 / 2) :
    x ≤ 1 / 2 - 1 / 2 ^ (p + 1) := by
  have hsplit : ∀ k : ℕ, ((2 : ℚ) ^ k - 1) / 2 ^ (k + 1) = 1 / 2 - 1 / 2 ^ (k + 1) := by
    intro k
    rw [pow_succ]
    field_simp
  rcases h.cases with ⟨n,rfl⟩ | ⟨m,k,hm,rfl⟩
  · have hn : n ≤ 0 := by
      by_contra hpos
      have hone : (1 : ℚ) ≤ n := by exact_mod_cast (show 1 ≤ n by omega)
      linarith
    have hunit : 1 / (2 : ℚ) ^ (p + 1) ≤ 1 / 2 := by
      apply one_div_le_one_div_of_le (by norm_num)
      calc (2 : ℚ) = 2 ^ 1 := (pow_one 2).symm
        _ ≤ 2 ^ (p + 1) := pow_le_pow_right₀ (by norm_num) (by omega)
    have hcast : (n : ℚ) ≤ 0 := by exact_mod_cast hn
    linarith
  · rcases Nat.le_total k p with hk | hk
    · have hbelow : (m : ℚ) < 2 ^ k := by
        rw [div_lt_iff₀ (by positivity),pow_succ] at hlt
        linarith
      have hm : (m : ℚ) ≤ 2 ^ k - 1 := by
        have hint : m < 2 ^ k := by exact_mod_cast hbelow
        exact_mod_cast Int.le_sub_one_of_lt hint
      have hunit : 1 / (2 : ℚ) ^ (p + 1) ≤ 1 / 2 ^ (k + 1) :=
        one_div_le_one_div_of_le (by positivity) (pow_le_pow_right₀ (by norm_num) (by omega))
      calc (m : ℚ) / 2 ^ (k + 1) ≤ (2 ^ k - 1) / 2 ^ (k + 1) := by gcongr
        _ = 1 / 2 - 1 / 2 ^ (k + 1) := hsplit k
        _ ≤ 1 / 2 - 1 / 2 ^ (p + 1) := by linarith
    · have hm : (m : ℚ) ≤ 2 ^ p - 1 := by
        have hint : m < 2 ^ p := (le_abs_self m).trans_lt hm
        exact_mod_cast Int.le_sub_one_of_lt hint
      have hnonneg : (0 : ℚ) ≤ 2 ^ p - 1 := by
        have hone : (1 : ℚ) ≤ 2 ^ p := one_le_pow₀ (by norm_num)
        linarith
      calc (m : ℚ) / 2 ^ (k + 1) ≤ (2 ^ p - 1) / 2 ^ (k + 1) := by gcongr
        _ ≤ (2 ^ p - 1) / 2 ^ (p + 1) := by
          apply div_le_div_of_nonneg_left hnonneg (by positivity)
          exact pow_le_pow_right₀ (by norm_num) (by omega)
        _ = 1 / 2 - 1 / 2 ^ (p + 1) := hsplit p

theorem Representable.add_half {p bits : ℕ} (hp : p < bits) {x : ℚ} (h : Representable p x) (hle : 1 / 2 ≤ x)
    (hlt : 2 * x + 1 < 2 ^ bits) : Representable bits (x + 1 / 2) := by
  rcases h.cases with ⟨n,rfl⟩ | ⟨m,k,hm,rfl⟩
  · refine ⟨2 * n + 1,-1,?_,?_⟩
    · have hn : 1 ≤ n := by
        by_contra hnot
        have hcast : (n : ℚ) ≤ 0 := by exact_mod_cast (show n ≤ 0 by omega)
        linarith
      rw [abs_of_nonneg (by omega)]
      exact_mod_cast hlt
    · push_cast
      rw [zpow_neg_one]
      ring
  · have hpow : (0 : ℚ) < 2 ^ k := by positivity
    have hbound : (2 : ℤ) ^ k ≤ m := by
      rw [le_div_iff₀ (by positivity),pow_succ] at hle
      have hm : (2 : ℚ) ^ k ≤ m := by linarith
      exact_mod_cast hm
    refine ⟨m + 2 ^ k,-(k + 1 : ℕ),?_,?_⟩
    · have hpos : (0 : ℤ) < 2 ^ k := by positivity
      rw [abs_of_nonneg (by omega)] at hm ⊢
      have hwide : (2 : ℤ) ^ (p + 1) ≤ 2 ^ bits := pow_le_pow_right₀ (by norm_num) hp
      rw [pow_succ] at hwide
      omega
    · rw [zpow_neg,zpow_natCast]
      push_cast
      field_simp
      ring

/-- Whichever way the sum of a number and one half is rounded, its floor is that of the sum. -/
theorem Faithful.floor_add_half {p bits : ℕ} (f : Faithful bits) (hp : p < bits) {x : ℚ} (h : Representable p x)
    (h0 : 0 ≤ x) (hlt : 2 * x + 1 < 2 ^ bits) : ⌊f.round (x + 1 / 2)⌋ = ⌊x + 1 / 2⌋ := by
  by_cases hhalf : x < 1 / 2
  · have hunit : (0 : ℚ) < 1 / 2 ^ (p + 1) := by positivity
    have hbelow := h.below_half hhalf
    have hrep : Representable bits (1 - 1 / 2 ^ (p + 1)) := by
      refine Representable.mono hp ⟨2 ^ (p + 1) - 1,-(p + 1 : ℕ),?_,?_⟩
      · have hone : (1 : ℤ) ≤ 2 ^ (p + 1) := one_le_pow₀ (by norm_num)
        rw [abs_of_nonneg (by omega)]
        omega
      · rw [zpow_neg,zpow_natCast]
        push_cast
        field_simp
    have hzero : Representable bits 0 := ⟨0,0,by positivity,by simp⟩
    have hupper := f.upper (x + 1 / 2) _ hrep (by linarith)
    have hlower := f.lower (x + 1 / 2) 0 hzero (by linarith)
    have hround : ⌊f.round (x + 1 / 2)⌋ = 0 := Int.floor_eq_zero_iff.mpr ⟨hlower,by linarith⟩
    have hsum : ⌊x + 1 / 2⌋ = 0 := Int.floor_eq_zero_iff.mpr ⟨by linarith,by linarith⟩
    rw [hround,hsum]
  · rw [f.exact (h.add_half hp (not_lt.mp hhalf) hlt)]

/-- No rounding at all, as with an unbounded significand. -/
def unrounded (bits : ℕ) : Faithful bits := ⟨id,fun _ _ _ h => h,fun _ _ _ h => h⟩

end Rounding
