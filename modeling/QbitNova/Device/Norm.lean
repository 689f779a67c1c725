import QbitNova.Device.Wire
import QbitNova.Device.Frontend
import QbitNova.Library.Rounding
import Mathlib.Algebra.Order.Floor.Ring
import Mathlib.Data.Rat.Floor
import Mathlib.Data.Real.Basic

/-! # The norm on the wire and as a fixed-point number

A double is read as the rational number its fields describe. The conversion to Q32.32
works in long double, whose additions round in an arbitrary direction; products by a
power of two and conversions from double are exact there.
-/
namespace QbitNova.DeviceWire
open Frontend Rounding

/-- The number a double stands for; infinities and NaNs have none. -/
def Binary64.value (x : Binary64) : Option ℚ :=
  let fraction : ℕ := x.bits.toNat % 2 ^ 52
  let exponent : ℕ := x.bits.toNat / 2 ^ 52 % 2 ^ 11
  let magnitude : ℚ :=
    if exponent = 0 then fraction * 2 ^ (-1074 : ℤ) else (2 ^ 52 + fraction) * 2 ^ ((exponent : ℤ) - 1075)
  if exponent = 2047 then none
  else some (if x.bits.toNat / 2 ^ 63 = 1 then -magnitude else magnitude)

def qcpuMockNormToQ32_32 {bits : ℕ} (longDouble : Faithful bits) (norm : Binary64) (out : Option UInt64) :
    Except ℤ Unit × Option UInt64 :=
  let tolerance : ℚ := 2 ^ (-40 : ℤ)
  if out.isNone then (.error einval, out)
  else match norm.value with
  | none => (.error erange, out)
  | some x =>
    if x < 0 then (.error erange, out)
    else if x > 1 + tolerance then (.error erange, out)
    else
      let clamped := if x > 1 then 1 else x
      let scaled := clamped * 4294967296
      let rounded := ⌊longDouble.round (scaled + 1 / 2)⌋
      if rounded < 0 ∨ rounded > 4294967296 then (.error erange, out)
      else (.ok (), some (UInt64.ofNat rounded.toNat))

/-- How results of exact arithmetic are stored: a number some double stands for exactly
is stored as such a double. -/
structure Storage where
  store : ℝ → Binary64
  exact : ∀ (b : Binary64) (q : ℚ), b.value = some q → (store q).value = some q

open Classical in
/-- Store a number as some double that stands for it; others as a NaN. -/
noncomputable def exactStorage : Storage where
  store x := if h : ∃ b : Binary64, ∃ q : ℚ, b.value = some q ∧ (q : ℝ) = x then h.choose else ⟨0x7ff8000000000000⟩
  exact b q hb := by
    have h : ∃ b : Binary64, ∃ p : ℚ, b.value = some p ∧ (p : ℝ) = q := ⟨b,q,hb,rfl⟩
    obtain ⟨p,hp,hpq⟩ := h.choose_spec
    rw [dif_pos h,hp,Rat.cast_injective hpq]

theorem value_one : Binary64.value ⟨0x3ff0000000000000⟩ = some 1 := by
  unfold Binary64.value
  rw [show (0x3ff0000000000000 : UInt64).toNat = 1023 * 2 ^ 52 from rfl]
  norm_num

theorem value_zero : Binary64.value ⟨0⟩ = some 0 := by
  unfold Binary64.value
  norm_num

/-- The significand of a double has 53 bits. -/
theorem Binary64.representable {norm : Binary64} {x : ℚ} (h : norm.value = some x) : Representable 53 x := by
  unfold Binary64.value at h
  have hfraction : norm.bits.toNat % 2 ^ 52 < 2 ^ 52 := Nat.mod_lt _ (by norm_num)
  generalize norm.bits.toNat % 2 ^ 52 = fraction at h hfraction
  generalize norm.bits.toNat / 2 ^ 52 % 2 ^ 11 = exponent at h
  have hmagnitude : Representable 53
      (if exponent = 0 then (fraction : ℚ) * 2 ^ (-1074 : ℤ) else (2 ^ 52 + fraction) * 2 ^ ((exponent : ℤ) - 1075)) := by
    split_ifs
    · refine ⟨fraction,-1074,?_,rfl⟩
      rw [abs_of_nonneg (by omega)]
      omega
    · refine ⟨2 ^ 52 + fraction,(exponent : ℤ) - 1075,?_,by push_cast; rfl⟩
      rw [abs_of_nonneg (by omega)]
      omega
  by_cases hfinite : exponent = 2047
  · rw [if_pos hfinite] at h
    cases h
  · rw [if_neg hfinite] at h
    obtain rfl := Option.some.inj h
    exact iteInduction (fun _ => hmagnitude.neg) (fun _ => hmagnitude)

/-- The nearest number of units of `2 ^ -32` to a norm that is cut off at one, halves upward. -/
def nearestUnits (x : ℚ) : ℤ := ⌊min x 1 * 2 ^ 32 + 1 / 2⌋

theorem nearestUnits_bounds {x : ℚ} (h : 0 ≤ x) : 0 ≤ nearestUnits x ∧ nearestUnits x ≤ 2 ^ 32 := by
  have hmin : 0 ≤ min x 1 := le_min h zero_le_one
  have hone : min x 1 ≤ 1 := min_le_right x 1
  constructor
  · apply Int.floor_nonneg.mpr
    positivity
  · apply Int.lt_add_one_iff.mp
    apply Int.floor_lt.mpr
    push_cast
    linarith

theorem nearestUnits_near (x : ℚ) : |(nearestUnits x : ℚ) - min x 1 * 2 ^ 32| ≤ 1 / 2 := by
  have hle : (nearestUnits x : ℚ) ≤ min x 1 * 2 ^ 32 + 1 / 2 := Int.floor_le _
  have hlt : min x 1 * 2 ^ 32 + 1 / 2 < (nearestUnits x : ℚ) + 1 := Int.lt_floor_add_one _
  rw [abs_le]
  constructor <;> linarith

theorem nearestUnits_mono {x y : ℚ} (h : x ≤ y) : nearestUnits x ≤ nearestUnits y := by
  apply Int.floor_le_floor
  have hmin : min x 1 ≤ min y 1 := min_le_min_right 1 h
  linarith

/-- The range of norms that are converted. -/
def Convertible (x : ℚ) : Prop := 0 ≤ x ∧ x ≤ 1 + 2 ^ (-40 : ℤ)

/-- A norm in the range is converted to the nearest units, however the sum is rounded. -/
theorem normToQ32_32_ok {bits : ℕ} (longDouble : Faithful bits) (hbits : 64 ≤ bits) {norm : Binary64} {x : ℚ}
    (hx : norm.value = some x) (h : Convertible x) (old : UInt64) :
    qcpuMockNormToQ32_32 longDouble norm (some old) = (.ok (), some (UInt64.ofNat (nearestUnits x).toNat)) := by
  have hclamped : (if x > 1 then 1 else x) = min x 1 := by
    split_ifs with hgt
    · exact (min_eq_right hgt.le).symm
    · exact (min_eq_left (not_lt.mp hgt)).symm
  have hmin : 0 ≤ min x 1 := le_min h.1 zero_le_one
  have hone : min x 1 ≤ 1 := min_le_right x 1
  have hrep : Representable 53 (min x 1 * 2 ^ 32) := by
    have hunit : Representable 53 (min x 1) := by
      rcases min_choice x 1 with he | he
      · rw [he]
        exact Binary64.representable hx
      · rw [he]
        exact ⟨1,0,by norm_num,by norm_num⟩
    exact_mod_cast hunit.scale 32
  have hwide : 2 * (min x 1 * 2 ^ 32) + 1 < (2 : ℚ) ^ bits := by
    have hpow : (2 : ℚ) ^ 64 ≤ 2 ^ bits := pow_le_pow_right₀ (by norm_num) hbits
    linarith
  have hfloor := longDouble.floor_add_half (show 53 < bits by omega) hrep (by positivity) hwide
  obtain ⟨hlow,hhigh⟩ := nearestUnits_bounds h.1
  unfold qcpuMockNormToQ32_32
  simp only [hx,Option.isNone_some,Bool.false_eq_true,↓reduceIte]
  rw [if_neg (not_lt.mpr h.1),if_neg (not_lt.mpr h.2),hclamped,show (4294967296 : ℚ) = 2 ^ 32 by norm_num,hfloor]
  exact if_neg (not_or.mpr ⟨not_lt.mpr hlow,not_lt.mpr hhigh⟩)

theorem normToQ32_32_range {bits : ℕ} (longDouble : Faithful bits) {norm : Binary64} {x : ℚ} (hx : norm.value = some x)
    (h : ¬Convertible x) (old : UInt64) : qcpuMockNormToQ32_32 longDouble norm (some old) = (.error erange, some old) := by
  unfold qcpuMockNormToQ32_32
  simp only [hx,Option.isNone_some,Bool.false_eq_true,↓reduceIte]
  by_cases hneg : x < 0
  · rw [if_pos hneg]
  · rw [if_neg hneg,if_pos (not_le.mp fun hle => h ⟨not_lt.mp hneg,hle⟩)]

theorem normToQ32_32_of_le_one {bits : ℕ} (longDouble : Faithful bits) (hbits : 64 ≤ bits) {norm : Binary64}
    {n : ℕ} (hvalue : norm.value = some (n : ℚ)) (hn : n ≤ 1) (old : UInt64) :
    qcpuMockNormToQ32_32 longDouble norm (some old) = (.ok (), some (UInt64.ofNat (n * 4294967296))) := by
  have hle : (n : ℚ) ≤ 1 := by exact_mod_cast hn
  have hunits : nearestUnits n = (n * 4294967296 : ℕ) := by
    unfold nearestUnits
    rw [min_eq_left hle,Int.floor_eq_iff]
    push_cast
    constructor <;> linarith
  rw [normToQ32_32_ok longDouble hbits hvalue ⟨Nat.cast_nonneg n,hle.trans (by norm_num)⟩,hunits]
  rfl

/-- A finite norm is converted exactly if it is in the range. The result is the nearest number of
units to the clamped norm, halves upward, the same for every rounding of the sum; other norms
leave the output alone. -/
theorem normToQ32_32_converts {bits other : ℕ} (longDouble : Faithful bits) (hbits : 64 ≤ bits)
    (otherDouble : Faithful other) (hother : 64 ≤ other) {norm larger : Binary64} {x y : ℚ} (hx : norm.value = some x)
    (hy : larger.value = some y) (old : UInt64) :
    ((qcpuMockNormToQ32_32 longDouble norm (some old)).1 = .ok () ↔ 0 ≤ x ∧ x ≤ 1 + 2 ^ (-40 : ℤ)) ∧
    (¬(0 ≤ x ∧ x ≤ 1 + 2 ^ (-40 : ℤ)) → qcpuMockNormToQ32_32 longDouble norm (some old) = (.error erange, some old)) ∧
    (0 ≤ x ∧ x ≤ 1 + 2 ^ (-40 : ℤ) → ∃ out : UInt64,
      qcpuMockNormToQ32_32 longDouble norm (some old) = (.ok (), some out) ∧
      (out.toNat : ℤ) = ⌊min x 1 * 2 ^ 32 + 1 / 2⌋ ∧ out.toNat ≤ 2 ^ 32 ∧
      |(out.toNat : ℚ) - min x 1 * 2 ^ 32| ≤ 1 / 2 ∧
      qcpuMockNormToQ32_32 otherDouble norm (some old) = (.ok (), some out) ∧
      (x ≤ y → y ≤ 1 + 2 ^ (-40 : ℤ) → ∃ more : UInt64,
        qcpuMockNormToQ32_32 otherDouble larger (some old) = (.ok (), some more) ∧ out ≤ more)) := by
  have htoNat : ∀ {z : ℚ}, 0 ≤ z → ((UInt64.ofNat (nearestUnits z).toNat).toNat : ℤ) = nearestUnits z := by
    intro z hz
    obtain ⟨hlow,hhigh⟩ := nearestUnits_bounds hz
    have hsmall : (nearestUnits z).toNat < 2 ^ 64 := by omega
    rw [UInt64.toNat_ofNat_of_lt' hsmall]
    omega
  refine ⟨?_,fun h => normToQ32_32_range longDouble hx h old,?_⟩
  · by_cases h : Convertible x
    · rw [normToQ32_32_ok longDouble hbits hx h]
      exact iff_of_true rfl h
    · rw [normToQ32_32_range longDouble hx h]
      exact iff_of_false nofun h
  · intro h
    have hunits := htoNat h.1
    refine ⟨_,normToQ32_32_ok longDouble hbits hx h old,hunits,?_,?_,normToQ32_32_ok otherDouble hother hx h old,?_⟩
    · have hhigh := (nearestUnits_bounds h.1).2
      omega
    · have hcast : ((UInt64.ofNat (nearestUnits x).toNat).toNat : ℚ) = nearestUnits x := by exact_mod_cast hunits
      rw [hcast]
      exact nearestUnits_near x
    · intro hxy hrange
      refine ⟨_,normToQ32_32_ok otherDouble hother hy ⟨h.1.trans hxy,hrange⟩ old,?_⟩
      have hmono := nearestUnits_mono hxy
      have hmore := htoNat (h.1.trans hxy)
      rw [UInt64.le_iff_toNat_le]
      omega

/-- One half of a unit. -/
def halfUnit : Binary64 := ⟨0x3de0000000000000⟩

theorem value_halfUnit : halfUnit.value = some (2 ^ (-33 : ℤ)) := by
  unfold halfUnit Binary64.value
  rw [show (0x3de0000000000000 : UInt64).toNat = 990 * 2 ^ 52 from rfl]
  norm_num

theorem normToQ32_32_converts_half : 64 ≤ 64 ∧ 64 ≤ 113 ∧
    ∃ out : UInt64, qcpuMockNormToQ32_32 (unrounded 64) halfUnit (some 7) = (.ok (), some out) ∧ (out.toNat : ℤ) = 1 := by
  have hconverts := normToQ32_32_converts (unrounded 64) (Nat.le_refl 64) (unrounded 113) (by omega)
    value_halfUnit value_one 7
  obtain ⟨out,hout,hunits,-⟩ := hconverts.2.2 ⟨by positivity,by norm_num⟩
  refine ⟨Nat.le_refl 64,by omega,out,hout,?_⟩
  rw [hunits]
  norm_num

end QbitNova.DeviceWire
