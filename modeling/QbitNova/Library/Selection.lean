import QbitNova.Library.ExactReals

/-! # Selecting an index by running sums

Weights are added up until the sum reaches a number drawn before; the index at hand is
selected. A number the sum does not reach at once never selects an index of weight zero.
-/
namespace Selection
open Scalars

/-- The first index, counted from a given one, at which the running sum reaches `r`. -/
def firstReached {D : Type} [Scalars D] (r : D) : List D → ℕ → D → Option ℕ
  | [], _, _ => none
  | w :: rest, index, acc =>
    let acc := add acc w
    if le r acc then some index else firstReached r rest (index + 1) acc

variable {r : ℝ} {weights : List ℝ}

/-- From a sum that is still too small, an index of positive weight is selected. -/
theorem firstReached_past (index : ℕ) {acc : ℝ} (hacc : acc < r) (hsum : r ≤ acc + weights.sum) :
    ∃ i < weights.length, firstReached r weights index acc = some (index + i) ∧ 0 < weights.getD i 0 := by
  induction weights generalizing index acc with
  | nil =>
    rw [List.sum_nil] at hsum
    linarith
  | cons w rest ih =>
    rw [List.sum_cons] at hsum
    by_cases hstop : r ≤ acc + w
    · refine ⟨0,Nat.succ_pos _,?_,?_⟩
      · rw [firstReached]
        exact if_pos ((ExactReals.le_eq _ _).mpr hstop)
      · show 0 < w
        linarith
    · obtain ⟨i,hi,hreached,hpos⟩ := ih (index + 1) (not_le.mp hstop) (by linarith)
      refine ⟨i + 1,Nat.succ_lt_succ hi,?_,hpos⟩
      rw [firstReached]
      refine (if_neg fun h => hstop ((ExactReals.le_eq _ _).mp h)).trans (hreached.trans ?_)
      rw [Nat.add_right_comm,Nat.add_assoc]

/-- The weight of the selected index is zero only where zero is drawn and the first weight is zero. -/
theorem firstReached_weight (hne : weights ≠ []) (hr : 0 ≤ r) (hsum : r ≤ weights.sum) :
    ∃ i < weights.length, firstReached r weights 0 (ofInt 0) = some i ∧
      (weights.getD i 0 ≠ 0 ↔ r ≠ 0 ∨ weights.getD 0 0 ≠ 0) := by
  cases weights with
  | nil => exact absurd rfl hne
  | cons w rest =>
    rw [List.sum_cons] at hsum
    have hzero : add (ofInt 0) w = w := by simp
    by_cases hstop : r ≤ w
    · refine ⟨0,Nat.succ_pos _,?_,?_⟩
      · rw [firstReached,hzero]
        exact if_pos ((ExactReals.le_eq _ _).mpr hstop)
      · show w ≠ 0 ↔ r ≠ 0 ∨ w ≠ 0
        refine ⟨Or.inr,?_⟩
        rintro (h | h) rfl
        · exact h (le_antisymm hstop hr)
        · exact h rfl
    · obtain ⟨i,hi,hreached,hpos⟩ := firstReached_past 1 (not_le.mp hstop) hsum
      refine ⟨i + 1,Nat.succ_lt_succ hi,?_,?_⟩
      · rw [firstReached,hzero]
        refine (if_neg fun h => hstop ((ExactReals.le_eq _ _).mp h)).trans (hreached.trans ?_)
        rw [Nat.add_comm]
      · refine ⟨fun _ => ?_,fun _ => hpos.ne'⟩
        show r ≠ 0 ∨ w ≠ 0
        by_contra hboth
        push Not at hboth
        exact hstop (hboth.1.trans hboth.2.symm).le

end Selection
