import Mathlib.Data.Nat.Bitwise
import Mathlib.Data.List.Basic
import Mathlib.Tactic.Common

/-! # In-place loops over pairs of array entries

A loop visits the indices of an array in ascending order and, at the selected ones,
replaces the entry and that of a partner by two functions of the old pair. When the
partners come from an involution under which no two selected indices are partners,
every entry is written at most once and the loop computes the pointwise transform.
-/
namespace Sweep

section Arrays
variable {A : Type*} [Inhabited A]

/-- The entry at an index; outside of the array a fixed one. -/
def entry (v : List A) (i : ℕ) : A := v.getD i default

theorem entry_set {v : List A} {i : ℕ} (h : i < v.length) (a : A) (j : ℕ) :
    entry (v.set i a) j = if j = i then a else entry v j := by
  unfold entry
  rw [List.getD_eq_getElem?_getD,List.getD_eq_getElem?_getD,List.getElem?_set]
  by_cases hj : j = i
  · subst hj
    rw [if_pos rfl,if_pos rfl,if_pos h]
    rfl
  · rw [if_neg (Ne.symm hj),if_neg hj]

theorem entry_replicate {n i : ℕ} (h : i < n) (a : A) : entry (List.replicate n a) i = a := by
  unfold entry
  rw [List.getD_replicate _ h]

/-- Replace the entries at two indices by the two results of a function of them. -/
def writePair (f : A → A → A × A) (v : List A) (i j : ℕ) : List A :=
  let pair := f (entry v i) (entry v j)
  (v.set i pair.1).set j pair.2

@[simp] theorem length_writePair (f : A → A → A × A) (v : List A) (i j : ℕ) :
    (writePair f v i j).length = v.length := by simp only [writePair,List.length_set]

theorem entry_writePair (f : A → A → A × A) {v : List A} {i j : ℕ} (hi : i < v.length) (hj : j < v.length)
    (k : ℕ) : entry (writePair f v i j) k =
      if k = j then (f (entry v i) (entry v j)).2
      else if k = i then (f (entry v i) (entry v j)).1 else entry v k := by
  rw [writePair,entry_set (by rwa [List.length_set]),entry_set hi]

/-- The array after the first indices were visited. -/
def pairSweep (selected : ℕ → Bool) (partner : ℕ → ℕ) (f : A → A → A × A) (v : List A) : ℕ → List A
  | 0 => v
  | visited + 1 =>
    let w := pairSweep selected partner f v visited
    if selected visited then writePair f w visited (partner visited) else w

@[simp] theorem length_pairSweep (selected : ℕ → Bool) (partner : ℕ → ℕ) (f : A → A → A × A) (v : List A)
    (visited : ℕ) : (pairSweep selected partner f v visited).length = v.length := by
  induction visited with
  | zero => rfl
  | succ visited ih =>
    rw [pairSweep]
    split
    · rw [length_writePair,ih]
    · exact ih

/-- The selected indices below a bound are paired with unselected ones by an involution. -/
structure Pairing (selected : ℕ → Bool) (partner σ : ℕ → ℕ) (n : ℕ) : Prop where
  involutive : ∀ i, σ (σ i) = i
  partner_eq : ∀ i, selected i = true → partner i = σ i
  unselected : ∀ i, selected i = true → selected (σ i) = false
  bounded : ∀ i < n, selected i = true → σ i < n

/-- Each visited pair holds the two results for the entries it had before the loop. -/
theorem entry_pairSweep_visited {selected : ℕ → Bool} {partner σ : ℕ → ℕ} {v : List A}
    (hp : Pairing selected partner σ v.length) (f : A → A → A × A) {visited : ℕ} (hle : visited ≤ v.length)
    (j : ℕ) : entry (pairSweep selected partner f v visited) j =
      if j < visited ∧ selected j = true then (f (entry v j) (entry v (σ j))).1
      else if σ j < visited ∧ selected (σ j) = true then (f (entry v (σ j)) (entry v j)).2
      else entry v j := by
  induction visited generalizing j with
  | zero => simp only [pairSweep,Nat.not_lt_zero,false_and,↓reduceIte]
  | succ k ih =>
    have ih := ih (Nat.le_of_succ_le hle)
    rw [pairSweep]
    by_cases hk : selected k = true
    · have hσ := hp.unselected k hk
      have hfresh : entry (pairSweep selected partner f v k) k = entry v k := by
        rw [ih,if_neg (by omega),if_neg (by rw [hσ]; simp)]
      have hfreshPartner : entry (pairSweep selected partner f v k) (σ k) = entry v (σ k) := by
        rw [ih,if_neg (by rw [hσ]; simp),if_neg (by rw [hp.involutive]; omega)]
      rw [if_pos hk,hp.partner_eq k hk,entry_writePair f (by rw [length_pairSweep]; omega)
        (by rw [length_pairSweep]; exact hp.bounded k (by omega) hk),hfresh,hfreshPartner]
      by_cases hj : j = σ k
      · subst hj
        rw [if_pos rfl,if_neg (by rw [hσ]; simp),hp.involutive,if_pos ⟨Nat.lt_succ_self k,hk⟩]
      · have hback : σ j ≠ k := fun h => hj (by rw [← h,hp.involutive])
        rw [if_neg hj]
        by_cases hjk : j = k
        · subst hjk
          rw [if_pos rfl,if_pos ⟨Nat.lt_succ_self j,hk⟩]
        · have hown : (j < k + 1 ∧ selected j = true) ↔ (j < k ∧ selected j = true) := by
            constructor <;> exact fun h => ⟨by omega,h.2⟩
          have hother : (σ j < k + 1 ∧ selected (σ j) = true) ↔ (σ j < k ∧ selected (σ j) = true) := by
            constructor <;> exact fun h => ⟨by omega,h.2⟩
          rw [if_neg hjk,ih,if_congr hown rfl (if_congr hother rfl rfl)]
    · have hother : ∀ i, (i < k + 1 ∧ selected i = true) ↔ (i < k ∧ selected i = true) := by
        intro i
        constructor
        · rintro ⟨hi,hs⟩
          exact ⟨by have : i ≠ k := (by rintro rfl; exact hk hs); omega,hs⟩
        · exact fun h => ⟨by omega,h.2⟩
      rw [if_neg hk,ih,if_congr (hother j) rfl (if_congr (hother (σ j)) rfl rfl)]

theorem entry_pairSweep {selected : ℕ → Bool} {partner σ : ℕ → ℕ} {v : List A}
    (hp : Pairing selected partner σ v.length) (f : A → A → A × A) {j : ℕ} (hj : j < v.length)
    (hσ : σ j < v.length) : entry (pairSweep selected partner f v v.length) j =
      if selected j = true then (f (entry v j) (entry v (σ j))).1
      else if selected (σ j) = true then (f (entry v (σ j)) (entry v j)).2
      else entry v j := by
  rw [entry_pairSweep_visited hp f (le_refl _)]
  simp only [hj,hσ,true_and]

/-- Loops over arrays of two kinds stay in step when their pair functions do. -/
theorem map_pairSweep {B : Type*} [Inhabited B] {e : A → B} (hdefault : e default = default) {f : A → A → A × A}
    {g : B → B → B × B} (hpair : ∀ x y, g (e x) (e y) = (e (f x y).1, e (f x y).2)) (selected : ℕ → Bool)
    (partner : ℕ → ℕ) (v : List A) (visited : ℕ) :
    (pairSweep selected partner f v visited).map e = pairSweep selected partner g (v.map e) visited := by
  have hentry : ∀ (w : List A) i, entry (w.map e) i = e (entry w i) := by
    intro w i
    rw [entry,entry,List.getD_eq_getElem?_getD,List.getD_eq_getElem?_getD,List.getElem?_map,← hdefault]
    cases w[i]? <;> rfl
  induction visited with
  | zero => rfl
  | succ visited ih =>
    rw [pairSweep,pairSweep]
    split_ifs
    · rw [← ih,writePair,writePair,hentry,hentry,hpair,List.map_set,List.map_set]
    · exact ih

end Arrays

section Bits

theorem and_two_pow_eq_zero {i b : ℕ} : i &&& 2 ^ b = 0 ↔ i.testBit b = false := by
  rw [Nat.and_two_pow]
  cases i.testBit b <;> simp

/-- Setting a bit that is clear flips it. -/
theorem or_two_pow_eq_xor {i b : ℕ} (h : i.testBit b = false) : i ||| 2 ^ b = i ^^^ 2 ^ b := by
  refine Nat.eq_of_testBit_eq fun k => ?_
  rw [Nat.testBit_or,Nat.testBit_xor,Nat.testBit_two_pow]
  by_cases hk : b = k
  · subst hk
    simp [h]
  · simp [hk]

theorem testBit_xor_two_pow (i b k : ℕ) : (i ^^^ 2 ^ b).testBit k = if b = k then !i.testBit k else i.testBit k := by
  rw [Nat.testBit_xor,Nat.testBit_two_pow]
  split_ifs with h <;> simp [h]

theorem xor_two_pow_lt {i b n : ℕ} (hi : i < 2 ^ n) (hb : b < n) : i ^^^ 2 ^ b < 2 ^ n :=
  Nat.xor_lt_two_pow hi (Nat.pow_lt_pow_right (by decide) hb)

/-- Indices with a clear bit are paired with those that have it set, also when a
further condition restricts them. -/
theorem pairing_bit {selected extra : ℕ → Bool} {b n : ℕ} (hb : b < n)
    (hselected : ∀ i, selected i = (extra i && !i.testBit b)) :
    Pairing selected (· ||| 2 ^ b) (· ^^^ 2 ^ b) (2 ^ n) where
  involutive i := by rw [Nat.xor_assoc,Nat.xor_self,Nat.xor_zero]
  partner_eq i h := by
    rw [hselected,Bool.and_eq_true] at h
    exact or_two_pow_eq_xor (by simpa using h.2)
  unselected i h := by
    rw [hselected,Bool.and_eq_true] at h
    rw [hselected,testBit_xor_two_pow,if_pos rfl,Bool.not_not,show i.testBit b = false by simpa using h.2,
      Bool.and_false]
  bounded i hi _ := xor_two_pow_lt hi hb

/-- The loop over the pairs of one bit. -/
theorem entry_bitSweep {A : Type*} [Inhabited A] {selected extra : ℕ → Bool} {b n j : ℕ} {v : List A}
    (hb : b < n) (hselected : ∀ i, selected i = (extra i && !i.testBit b))
    (hextra : ∀ i, extra (i ^^^ 2 ^ b) = extra i) (hlen : v.length = 2 ^ n) (f : A → A → A × A) (hj : j < 2 ^ n) :
    entry (pairSweep selected (· ||| 2 ^ b) f v v.length) j =
      if extra j = true then
        if j.testBit b = true then (f (entry v (j ^^^ 2 ^ b)) (entry v j)).2
        else (f (entry v j) (entry v (j ^^^ 2 ^ b))).1
      else entry v j := by
  have hpair : Pairing selected (· ||| 2 ^ b) (· ^^^ 2 ^ b) v.length := hlen ▸ pairing_bit hb hselected
  rw [entry_pairSweep hpair f (hlen ▸ hj) (hlen ▸ xor_two_pow_lt hj hb)]
  simp only [hselected,hextra,testBit_xor_two_pow,↓reduceIte,Bool.not_not]
  cases extra j <;> cases j.testBit b <;> rfl

end Bits

end Sweep
