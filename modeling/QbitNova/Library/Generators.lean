import Mathlib.Data.FinEnum
import Mathlib.Data.Nat.ModEq
import Mathlib.Data.Nat.Prime.Basic
import Mathlib.Data.Set.Function

/-! # Words of a shift generator

A word combined with a shift of itself keeps all of its information: the map is linear and
takes only zero to zero. A product by an odd word keeps it too. As there are finitely many words,
both are bijections.
-/
namespace Generators

def xorRight (s x : UInt64) : UInt64 := x ^^^ (x >>> s)

def xorLeft (s x : UInt64) : UInt64 := x ^^^ (x <<< s)

/-- A map that respects differences is injective if it takes only zero to zero. -/
theorem injective_of_xor {f : UInt64 → UInt64} (hxor : ∀ x y, f (x ^^^ y) = f x ^^^ f y) (hzero : ∀ x, f x = 0 → x = 0) :
    Function.Injective f := by
  intro x y h
  apply UInt64.xor_eq_zero_iff.mp
  apply hzero
  rw [hxor,h,UInt64.xor_self]

theorem xor_shiftRight_eq_zero {x s : UInt64} (hs : 0 < s.toNat % 64) (h : x ^^^ (x >>> s) = 0) : x = 0 := by
  have heq : x = x >>> s := UInt64.xor_eq_zero_iff.mp h
  have hnat : x.toNat = x.toNat / 2 ^ (s.toNat % 64) := by
    conv_lhs => rw [heq]
    rw [UInt64.toNat_shiftRight,Nat.shiftRight_eq_div_pow]
  by_contra hne
  have hpos : 0 < x.toNat := Nat.pos_of_ne_zero fun hz => hne (UInt64.toNat_inj.mp hz)
  have hlt := Nat.div_lt_self hpos (Nat.one_lt_two_pow hs.ne')
  omega

theorem xor_shiftLeft_eq_zero {x s : UInt64} (hs : 0 < s.toNat % 64) (h : x ^^^ (x <<< s) = 0) : x = 0 := by
  have heq : x = x <<< s := UInt64.xor_eq_zero_iff.mp h
  have hnat : x.toNat = x.toNat * 2 ^ (s.toNat % 64) % 2 ^ 64 := by
    conv_lhs => rw [heq]
    rw [UInt64.toNat_shiftLeft,Nat.shiftLeft_eq]
  have hdvd : 2 ^ 64 ∣ x.toNat * (2 ^ (s.toNat % 64) - 1) := by
    have hmod : x.toNat ≡ x.toNat * 2 ^ (s.toNat % 64) [MOD 2 ^ 64] := by
      unfold Nat.ModEq
      rw [← hnat,Nat.mod_eq_of_lt x.toNat_lt]
    have hsub := (Nat.modEq_iff_dvd' (Nat.le_mul_of_pos_right _ (Nat.two_pow_pos _))).mp hmod
    rwa [Nat.mul_sub_one]
  have hodd : Nat.Coprime (2 ^ 64) (2 ^ (s.toNat % 64) - 1) := by
    refine Nat.Coprime.pow_left 64 (Nat.coprime_two_left.mpr ?_)
    exact Nat.Even.sub_odd Nat.one_le_two_pow ((Nat.even_pow' hs.ne').mpr even_two) odd_one
  have hzero := Nat.eq_zero_of_dvd_of_lt (hodd.dvd_of_dvd_mul_right hdvd) x.toNat_lt
  exact UInt64.toNat_inj.mp hzero

theorem xorRight_bijective {s : UInt64} (hs : 0 < s.toNat % 64) : Function.Bijective (xorRight s) := by
  have hinj : Function.Injective (xorRight s) := by
    refine injective_of_xor (fun x y => ?_) (fun x => xor_shiftRight_eq_zero hs)
    unfold xorRight
    rw [UInt64.shiftRight_xor]
    ac_rfl
  exact ⟨hinj,Finite.injective_iff_surjective.mp hinj⟩

theorem xorLeft_bijective {s : UInt64} (hs : 0 < s.toNat % 64) : Function.Bijective (xorLeft s) := by
  have hinj : Function.Injective (xorLeft s) := by
    refine injective_of_xor (fun x y => ?_) (fun x => xor_shiftLeft_eq_zero hs)
    unfold xorLeft
    rw [UInt64.shiftLeft_xor]
    ac_rfl
  exact ⟨hinj,Finite.injective_iff_surjective.mp hinj⟩

theorem mul_odd_bijective {c : UInt64} (hc : Odd c.toNat) : Function.Bijective (fun x : UInt64 => x * c) := by
  have hinj : Function.Injective (fun x : UInt64 => x * c) := by
    intro x y h
    have hmod : x.toNat * c.toNat ≡ y.toNat * c.toNat [MOD 2 ^ 64] := by
      have hnat : (x * c).toNat = (y * c).toNat := congrArg UInt64.toNat h
      rwa [UInt64.toNat_mul,UInt64.toNat_mul] at hnat
    have hcoprime : Nat.gcd (2 ^ 64) c.toNat = 1 := Nat.Coprime.pow_left 64 (Nat.coprime_two_left.mpr hc)
    have hcancel := Nat.ModEq.cancel_right_of_coprime hcoprime hmod
    unfold Nat.ModEq at hcancel
    rw [Nat.mod_eq_of_lt x.toNat_lt,Nat.mod_eq_of_lt y.toNat_lt] at hcancel
    exact UInt64.toNat_inj.mp hcancel
  exact ⟨hinj,Finite.injective_iff_surjective.mp hinj⟩

end Generators
