import QbitNova.Library.Sweep
import QbitNova.Library.ExactReals

/-! # Gates on single bits of an index

A loop over the pairs of one bit acts on the function that gives the entries of an array.
Such actions are studied here without arrays: when they undo themselves, when two of them
can be exchanged, when they only move entries and when they keep a sum of weights.
-/
namespace Sweep

section
variable {A : Type*}

/-- The entries after the loop over the pairs of a bit, where a further condition holds. -/
def pairAct (extra : ℕ → Bool) (b : ℕ) (f : A → A → A × A) (v : ℕ → A) (j : ℕ) : A :=
  if extra j = true then
    if j.testBit b = true then (f (v (j ^^^ 2 ^ b)) (v j)).2 else (f (v j) (v (j ^^^ 2 ^ b))).1
  else v j

/-- The pair function that exchanges its arguments. -/
def flipPair (x y : A) : A × A := (y, x)

/-- The pair function undoes itself. -/
def Involutory (f : A → A → A × A) : Prop := ∀ x y, f (f x y).1 (f x y).2 = (x, y)

/-- On a square of four entries it does not matter whether rows or columns come first. -/
structure Exchanges (f g : A → A → A × A) : Prop where
  first : ∀ x y z w, f (g x y).1 (g z w).1 = ((g (f x z).1 (f y w).1).1, (g (f x z).2 (f y w).2).1)
  second : ∀ x y z w, f (g x y).2 (g z w).2 = ((g (f x z).1 (f y w).1).2, (g (f x z).2 (f y w).2).2)

theorem involutory_flipPair : Involutory (flipPair : A → A → A × A) := fun _ _ => rfl

theorem exchanges_flipPair (f : A → A → A × A) : Exchanges flipPair f := ⟨fun _ _ _ _ => rfl,fun _ _ _ _ => rfl⟩

theorem Exchanges.symm {f g : A → A → A × A} (h : Exchanges f g) : Exchanges g f := by
  constructor <;> intro x y z w <;> apply Prod.ext
  · rw [h.first]
  · rw [h.second]
  · rw [h.first]
  · rw [h.second]

variable {extra extra' : ℕ → Bool} {b b' : ℕ} {f g : A → A → A × A} {v w : ℕ → A}

theorem xor_two_pow_cancel (i b : ℕ) : i ^^^ 2 ^ b ^^^ 2 ^ b = i := by rw [Nat.xor_assoc,Nat.xor_self,Nat.xor_zero]

/-- The action looks at an index and its partner only. -/
theorem pairAct_congr {n j : ℕ} (hb : b < n) (h : ∀ i < 2 ^ n, v i = w i) (hj : j < 2 ^ n) :
    pairAct extra b f v j = pairAct extra b f w j := by
  unfold pairAct
  rw [h j hj,h _ (xor_two_pow_lt hj hb)]

theorem pairAct_pairAct (hextra : ∀ i, extra (i ^^^ 2 ^ b) = extra i) (hf : Involutory f) :
    pairAct extra b f (pairAct extra b f v) = v := by
  funext j
  simp only [pairAct,hextra,testBit_xor_two_pow,↓reduceIte,xor_two_pow_cancel]
  cases extra j with
  | false => rfl
  | true => cases hbit : j.testBit b <;> simp [hf _ _]

/-- The entries of an action on one bit, on either side of another bit. -/
theorem pairAct_comm (hne : b ≠ b') (hown : ∀ i, extra (i ^^^ 2 ^ b') = extra i)
    (hother : ∀ i, extra' (i ^^^ 2 ^ b) = extra' i) (h : Exchanges f g) :
    pairAct extra b f (pairAct extra' b' g v) = pairAct extra' b' g (pairAct extra b f v) := by
  funext j
  have hswap : j ^^^ 2 ^ b' ^^^ 2 ^ b = j ^^^ 2 ^ b ^^^ 2 ^ b' := by
    rw [Nat.xor_assoc,Nat.xor_comm (2 ^ b'),Nat.xor_assoc]
  simp only [pairAct,hown,hother,testBit_xor_two_pow,if_neg hne,if_neg (Ne.symm hne),hswap]
  cases extra j with
  | false => simp
  | true =>
    cases extra' j with
    | false => simp
    | true => cases j.testBit b <;> cases j.testBit b' <;> simp [h.first,h.second]

/-- The index with a bit flipped where a condition holds. -/
def flipWhere (extra : ℕ → Bool) (b i : ℕ) : ℕ := if extra i = true then i ^^^ 2 ^ b else i

theorem flipWhere_lt {n i : ℕ} (hb : b < n) (hi : i < 2 ^ n) : flipWhere extra b i < 2 ^ n := by
  unfold flipWhere
  split_ifs
  · exact xor_two_pow_lt hi hb
  · exact hi

theorem pairAct_flipPair (j : ℕ) : pairAct extra b flipPair v j = v (flipWhere extra b j) := by
  unfold pairAct flipPair flipWhere
  split_ifs <;> rfl

end

section Arrays
variable {A : Type*} [Inhabited A]

theorem ext_entry {v w : List A} (hlen : v.length = w.length) (h : ∀ i < v.length, entry v i = entry w i) : v = w := by
  refine List.ext_getElem hlen fun i hv hw => ?_
  have hi := h i hv
  rwa [entry,entry,List.getD_eq_getElem _ _ hv,List.getD_eq_getElem _ _ hw] at hi

end Arrays

/-- An action that keeps the weight of each pair keeps the sum of the weights. -/
theorem sum_pairAct {A : Type*} {extra : ℕ → Bool} {b n : ℕ} {f : A → A → A × A} {v : ℕ → A} {weight : A → ℝ}
    (hb : b < n) (hextra : ∀ i, extra (i ^^^ 2 ^ b) = extra i)
    (hf : ∀ x y, weight (f x y).1 + weight (f x y).2 = weight x + weight y) :
    ∑ i ∈ Finset.range (2 ^ n), weight (pairAct extra b f v i) = ∑ i ∈ Finset.range (2 ^ n), weight (v i) := by
  refine ExactReals.sum_eq_of_pairs (σ := (· ^^^ 2 ^ b)) (fun i hi => xor_two_pow_lt hi hb)
    (fun i _ => xor_two_pow_cancel i b) fun i _ => ?_
  simp only [pairAct,hextra,testBit_xor_two_pow,↓reduceIte,xor_two_pow_cancel]
  cases extra i with
  | false => rfl
  | true =>
    cases i.testBit b with
    | false => exact hf _ _
    | true =>
      simp only [↓reduceIte,Bool.not_true,Bool.false_eq_true]
      rw [add_comm,hf,add_comm]

section Exchange

/-- The index with two of its bits exchanged. -/
def exchangeBits (p q i : ℕ) : ℕ := if i.testBit p = i.testBit q then i else i ^^^ 2 ^ p ^^^ 2 ^ q

theorem testBit_exchangeBits (p q i j : ℕ) : (exchangeBits p q i).testBit j = i.testBit (Equiv.swap p q j) := by
  unfold exchangeBits
  rw [Equiv.swap_apply_def]
  split_ifs with heq hp hq hp hq
  · rw [hp,heq]
  · rw [hq,heq]
  · rfl
  all_goals simp only [testBit_xor_two_pow]
  · subst hp
    by_cases hqj : q = j
    · subst hqj
      simp
    · rw [if_neg hqj,if_pos rfl]
      revert heq
      cases i.testBit j <;> cases i.testBit q <;> simp
  · subst hq
    rw [if_pos rfl,if_neg (Ne.symm hp)]
    revert heq
    cases i.testBit p <;> cases i.testBit j <;> simp
  · rw [if_neg (Ne.symm hq),if_neg (Ne.symm hp)]

theorem exchangeBits_comm (p q i : ℕ) : exchangeBits p q i = exchangeBits q p i := by
  apply Nat.eq_of_testBit_eq
  intro j
  rw [testBit_exchangeBits,testBit_exchangeBits,Equiv.swap_comm]

theorem exchangeBits_exchangeBits (p q i : ℕ) : exchangeBits p q (exchangeBits p q i) = i := by
  apply Nat.eq_of_testBit_eq
  intro j
  rw [testBit_exchangeBits,testBit_exchangeBits,Equiv.swap_apply_self]

theorem exchangeBits_self (p i : ℕ) : exchangeBits p p i = i := if_pos rfl

theorem exchangeBits_lt {p q n i : ℕ} (hp : p < n) (hq : q < n) (hi : i < 2 ^ n) : exchangeBits p q i < 2 ^ n := by
  unfold exchangeBits
  split_ifs
  · exact hi
  · exact xor_two_pow_lt (xor_two_pow_lt hi hp) hq

/-- Three flips, each where the other bit is set, exchange the two bits. -/
theorem flipWhere_three {p q : ℕ} (hne : p ≠ q) (i : ℕ) :
    flipWhere (Nat.testBit · p) q (flipWhere (Nat.testBit · q) p (flipWhere (Nat.testBit · p) q i)) =
      exchangeBits p q i := by
  have hcomm : i ^^^ 2 ^ q ^^^ 2 ^ p = i ^^^ 2 ^ p ^^^ 2 ^ q := by
    rw [Nat.xor_assoc,Nat.xor_comm (2 ^ q),← Nat.xor_assoc]
  unfold flipWhere exchangeBits
  cases hp : i.testBit p <;> cases hq : i.testBit q <;>
    simp [hp,hq,Ne.symm hne,hcomm]

end Exchange

end Sweep
