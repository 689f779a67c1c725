import Mathlib.Algebra.Order.Archimedean.Real.Basic
import Mathlib.Algebra.Order.Floor.Semiring
import Mathlib.Order.Interval.Finset.Nat
import Mathlib.Data.Set.Card
import Mathlib.Tactic.Linarith

/-! # Words in an interval of the unit interval

The upper part of a word, divided by its range, is a number of the unit interval. The words
whose number lies in a half-open interval are those between two multiples of the range of
the lower part, so that there are as many of them as the length of the interval says, up to
less than one multiple.
-/
namespace Grids

variable {m N w : ℕ} {a b : ℝ}

/-- The word below which the numbers of all words are below `a`. -/
noncomputable def bound (m N : ℕ) (a : ℝ) : ℕ := m * ⌈a * N⌉₊

/-- The number of a word. -/
noncomputable def number (m N w : ℕ) : ℝ := ((w / m : ℕ) : ℝ) / N

theorem number_mem_iff (hm : 0 < m) (hN : 0 < N) :
    a ≤ number m N w ∧ number m N w < b ↔ bound m N a ≤ w ∧ w < bound m N b := by
  have hN : (0 : ℝ) < N := by exact_mod_cast hN
  unfold number bound
  rw [le_div_iff₀ hN,div_lt_iff₀ hN,← Nat.ceil_le,← Nat.lt_ceil,Nat.le_div_iff_mul_le hm,Nat.div_lt_iff_lt_mul hm,
    Nat.mul_comm m,Nat.mul_comm m]

theorem bound_mono (h : a ≤ b) : bound m N a ≤ bound m N b :=
  Nat.mul_le_mul_left m (Nat.ceil_mono (mul_le_mul_of_nonneg_right h (Nat.cast_nonneg N)))

/-- A bound exceeds what it stands for by less than one multiple. -/
theorem bound_close (hm : 0 < m) (ha : 0 ≤ a) :
    (m * N : ℝ) * a ≤ bound m N a ∧ (bound m N a : ℝ) < m * N * a + m := by
  have hm : (0 : ℝ) < m := by exact_mod_cast hm
  have hnonneg : (0 : ℝ) ≤ a * N := mul_nonneg ha (Nat.cast_nonneg N)
  have hle := Nat.le_ceil (a * N)
  have hlt := Nat.ceil_lt_add_one hnonneg
  unfold bound
  push_cast
  constructor <;> nlinarith

/-- The words of an interval, without the word zero. -/
theorem card_words (hm : 0 < m) (ha : 0 ≤ a) (hab : a ≤ b) :
    |((Set.Ico (bound m N a) (bound m N b) \ {0}).ncard : ℝ) - m * N * (b - a)| < m + 1 := by
  obtain ⟨hale,halt⟩ := bound_close (N := N) hm ha
  obtain ⟨hble,hblt⟩ := bound_close (N := N) hm (ha.trans hab)
  have hmono : bound m N a ≤ bound m N b := bound_mono hab
  have hcount : (Set.Ico (bound m N a) (bound m N b)).ncard = bound m N b - bound m N a := by
    rw [Set.ncard_eq_toFinset_card',Set.toFinset_Ico,Nat.card_Ico]
  have hupper : (Set.Ico (bound m N a) (bound m N b) \ {0}).ncard ≤ bound m N b - bound m N a :=
    hcount ▸ Set.ncard_le_ncard Set.sdiff_subset (Set.finite_Ico _ _)
  have hlower : bound m N b - bound m N a ≤ (Set.Ico (bound m N a) (bound m N b) \ {0}).ncard + 1 := by
    have h := Set.le_ncard_sdiff {0} (Set.Ico (bound m N a) (bound m N b))
    rw [hcount,Set.ncard_singleton] at h
    omega
  have hupper : ((Set.Ico (bound m N a) (bound m N b) \ {0}).ncard : ℝ) ≤ bound m N b - bound m N a := by
    rw [← Nat.cast_sub hmono]
    exact_mod_cast hupper
  have hlower : (bound m N b : ℝ) - bound m N a ≤ (Set.Ico (bound m N a) (bound m N b) \ {0}).ncard + 1 := by
    rw [← Nat.cast_sub hmono]
    exact_mod_cast hlower
  rw [abs_lt]
  constructor <;> linarith

end Grids
