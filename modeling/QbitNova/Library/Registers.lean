import Mathlib.LinearAlgebra.Matrix.Permutation
import Mathlib.LinearAlgebra.UnitaryGroup
import Mathlib.Data.Fintype.Pi

/-! # Unitary matrices on registers of bits

The basis states of a register are the assignments of a bit to each of its places. A matrix
for one place acts on the whole register, and a permutation of the assignments is a matrix
too. Both constructions respect products and adjoints, so they take unitary matrices to
unitary matrices.
-/
namespace Registers
open Matrix

variable {ι R : Type*} [DecidableEq ι]

/-- The assignments that differ from another one in one place only. -/
theorem update_eq_iff {q : ι} {x y : ι → Bool} :
    Function.update y q (x q) = x ↔ ∃ b, y = Function.update x q b := by
  constructor
  · intro h
    refine ⟨y q,?_⟩
    rw [← h,Function.update_idem,Function.update_eq_self]
  · rintro ⟨b,rfl⟩
    rw [Function.update_idem,Function.update_eq_self]

section Places
variable [Fintype ι] [CommRing R]

/-- A matrix for one place, on the whole register: the other places stay as they are. -/
def onPlace (q : ι) (m : Matrix Bool Bool R) : Matrix (ι → Bool) (ι → Bool) R :=
  Matrix.of fun x y => if Function.update y q (x q) = x then m (x q) (y q) else 0

/-- A row of the matrix has entries at the two assignments of its place. -/
theorem onPlace_mulVec (q : ι) (m : Matrix Bool Bool R) (v : (ι → Bool) → R) (x : ι → Bool) :
    (onPlace q m *ᵥ v) x = ∑ b, m (x q) b * v (Function.update x q b) := by
  have hinj : Set.InjOn (Function.update x q) (Finset.univ : Finset Bool) :=
    fun b _ c _ h => Function.update_injective x q h
  rw [mulVec,dotProduct,← Finset.sum_subset (Finset.subset_univ (Finset.univ.image (Function.update x q))),
    Finset.sum_image hinj]
  · refine Finset.sum_congr rfl fun b _ => ?_
    have hplace : Function.update (Function.update x q b) q (x q) = x := update_eq_iff.mpr ⟨b,rfl⟩
    rw [onPlace,Matrix.of_apply,if_pos hplace,Function.update_self]
  · intro y _ hy
    have hother : ¬Function.update y q (x q) = x := by
      intro h
      obtain ⟨b,rfl⟩ := update_eq_iff.mp h
      exact hy (Finset.mem_image_of_mem _ (Finset.mem_univ b))
    rw [onPlace,Matrix.of_apply,if_neg hother,zero_mul]

theorem onPlace_one (q : ι) : onPlace q (1 : Matrix Bool Bool R) = 1 := by
  ext x y
  rw [onPlace,Matrix.of_apply,Matrix.one_apply,Matrix.one_apply]
  by_cases hxy : x = y
  · subst hxy
    rw [if_pos (Function.update_eq_self q x),if_pos rfl,if_pos rfl]
  · rw [if_neg hxy]
    split_ifs with hplace hbit
    · rw [hbit,Function.update_eq_self] at hplace
      exact absurd hplace.symm hxy
    · rfl
    · rfl

theorem onPlace_mul (q : ι) (a b : Matrix Bool Bool R) : onPlace q (a * b) = onPlace q a * onPlace q b := by
  apply Matrix.ext_of_mulVec_single
  intro y
  rw [← mulVec_mulVec]
  funext x
  rw [onPlace_mulVec,onPlace_mulVec]
  simp only [onPlace_mulVec,Function.update_self,Function.update_idem,Matrix.mul_apply,Finset.sum_mul,
    Finset.mul_sum,mul_assoc]
  exact Finset.sum_comm

theorem conjTranspose_onPlace [StarRing R] (q : ι) (m : Matrix Bool Bool R) :
    (onPlace q m)ᴴ = onPlace q mᴴ := by
  ext x y
  rw [Matrix.conjTranspose_apply,onPlace,onPlace,Matrix.of_apply,Matrix.of_apply,Matrix.conjTranspose_apply]
  have hplace : Function.update x q (y q) = y ↔ Function.update y q (x q) = x := by
    constructor
    · intro h
      exact update_eq_iff.mpr ⟨y q,h.symm⟩
    · intro h
      exact update_eq_iff.mpr ⟨x q,h.symm⟩
  by_cases h : Function.update y q (x q) = x
  · rw [if_pos h,if_pos (hplace.mpr h)]
  · rw [if_neg h,if_neg fun h' => h (hplace.mp h'),star_zero]

end Places

section Unitary
variable [Fintype ι] [CommRing R] [StarRing R]

theorem onPlace_mem_unitaryGroup (q : ι) {m : Matrix Bool Bool R} (h : m ∈ unitaryGroup Bool R) :
    onPlace q m ∈ unitaryGroup (ι → Bool) R := by
  rw [mem_unitaryGroup_iff] at h ⊢
  rw [star_eq_conjTranspose] at h ⊢
  rw [conjTranspose_onPlace,← onPlace_mul,h,onPlace_one]

theorem permMatrix_mem_unitaryGroup {X : Type*} [Fintype X] [DecidableEq X] (σ : Equiv.Perm X) :
    σ.permMatrix R ∈ unitaryGroup X R := by
  rw [mem_unitaryGroup_iff,star_eq_conjTranspose,conjTranspose_permMatrix,← permMatrix_mul,inv_mul_cancel,
    permMatrix_one]

/-- A unitary matrix for one place, on the whole register. -/
def place (q : ι) (m : unitaryGroup Bool R) : unitaryGroup (ι → Bool) R :=
  ⟨onPlace q m,onPlace_mem_unitaryGroup q m.2⟩

/-- A permutation of the assignments. -/
def permute {X : Type*} [Fintype X] [DecidableEq X] (σ : Equiv.Perm X) : unitaryGroup X R :=
  ⟨σ.permMatrix R,permMatrix_mem_unitaryGroup σ⟩

end Unitary

section Assignments

theorem flip_involutive {control target : ι} (h : control ≠ target) :
    Function.Involutive fun x : ι → Bool => Function.update x target (x target ^^ x control) := by
  intro x
  simp only [Function.update_self,Function.update_of_ne h,Function.update_idem,Bool.xor_assoc,Bool.xor_self,
    Bool.xor_false,Function.update_eq_self]

/-- The bit of the target is flipped where that of the control is set. -/
def controlledFlip {control target : ι} (h : control ≠ target) : Equiv.Perm (ι → Bool) :=
  (flip_involutive h).toPerm

theorem exchange_involutive (a b : ι) : Function.Involutive fun x : ι → Bool => x ∘ Equiv.swap a b := by
  intro x
  funext q
  simp only [Function.comp_apply,Equiv.swap_apply_self]

/-- The bits of two places are exchanged. -/
def exchange (a b : ι) : Equiv.Perm (ι → Bool) := (exchange_involutive a b).toPerm

end Assignments

section Index
variable {n : ℕ}

/-- The number of an assignment whose first place is its highest bit. -/
def bigEndian (x : Fin n → Bool) : ℕ := Nat.ofBits (x ∘ Fin.rev)

theorem bigEndian_lt (x : Fin n → Bool) : bigEndian x < 2 ^ n := Nat.ofBits_lt_two_pow _

theorem testBit_bigEndian (x : Fin n → Bool) (q : Fin n) : (bigEndian x).testBit (n - 1 - q) = x q := by
  rw [bigEndian,Nat.testBit_ofBits_lt _ _ (by omega)]
  apply congrArg x
  apply Fin.ext
  rw [Fin.val_rev]
  simp only
  omega

/-- A number below the bound is that of an assignment if the bits agree. -/
theorem eq_bigEndian {i : ℕ} (hi : i < 2 ^ n) {x : Fin n → Bool} (h : ∀ q : Fin n, i.testBit (n - 1 - q) = x q) :
    i = bigEndian x := by
  apply Nat.eq_of_testBit_eq
  intro j
  by_cases hj : j < n
  · have hq := h ⟨n - 1 - j,by omega⟩
    rw [← testBit_bigEndian x] at hq
    simp only [show n - 1 - (n - 1 - j) = j by omega] at hq
    exact hq
  · have hle : 2 ^ n ≤ 2 ^ j := Nat.pow_le_pow_right (by decide) (by omega)
    rw [Nat.testBit_lt_two_pow (hi.trans_le hle),Nat.testBit_lt_two_pow ((bigEndian_lt x).trans_le hle)]

theorem bigEndian_zero : bigEndian (fun _ : Fin n => false) = 0 :=
  (eq_bigEndian (Nat.two_pow_pos n) fun _ => Nat.zero_testBit _).symm

end Index

end Registers
