import QbitNova.Library.Selection
import QbitNova.Quantum.Simulators
import QbitNova.Quantum.Exact
import QbitNova.Language.VM

/-! # Measurements with a closed draw

The circuit VM, the state-N core, the STATE2 engine and the byte VM compare a draw from
the closed unit interval with running sums. Each of them selects the first basis state
on the draw zero, whether or not that state has an amplitude.
-/
namespace QbitNova.CircuitVM
open Scalars Quantum Selection

/-- The draw as a number between zero and one, both included. -/
def unitDraw {D : Type} [Scalars D] (draw : ℤ) : D := div (ofInt draw) (ofInt randMax)

def measureAll {D : Type} [Scalars D] (draw : ℤ) (amp : List (Amplitude D)) : ℕ :=
  (firstReached (unitDraw draw) (amp.map Amplitude.weight) 0 (ofInt 0)).getD (amp.length - 1)

end QbitNova.CircuitVM

namespace QbitNova.StateN
open Scalars Selection

def measure {D : Type} [Scalars D] (draw : ℤ) (amp : List D) : ℕ × List D :=
  let picked := (firstReached (CircuitVM.unitDraw draw) (amp.map fun x => mul x x) 0 (ofInt 0)).getD (amp.length - 1)
  (picked, (List.replicate amp.length (ofInt 0)).set picked (ofInt 1))

end QbitNova.StateN

namespace QbitNova.Quantum
open Scalars Selection ExactReals CircuitVM StateN State2

/-- What `rand` can return. -/
def IsDraw (draw : ℤ) : Prop := 0 ≤ draw ∧ draw ≤ randMax

theorem unitDraw_mem {draw : ℤ} (h : IsDraw draw) : 0 ≤ (unitDraw draw : ℝ) ∧ (unitDraw draw : ℝ) ≤ 1 ∧
    ((unitDraw draw : ℝ) ≠ 0 ↔ draw ≠ 0) := by
  have hmax : (0 : ℝ) < ((randMax : ℤ) : ℝ) := by norm_num [randMax]
  have hzero : (0 : ℝ) ≤ (draw : ℝ) := by exact_mod_cast h.1
  have hle : (draw : ℝ) ≤ ((randMax : ℤ) : ℝ) := by exact_mod_cast h.2
  simp only [unitDraw,div_eq,ofInt_eq]
  refine ⟨div_nonneg hzero hmax.le,(div_le_one hmax).mpr hle,?_⟩
  rw [div_ne_zero_iff]
  exact ⟨fun hd => by exact_mod_cast hd.1,fun hd => ⟨by exact_mod_cast hd,hmax.ne'⟩⟩

/-- The loop of a measurement on the weights of a state of norm one. -/
theorem picked_weight {weights : List ℝ} (hsum : weights.sum = 1) {draw : ℤ} (h : IsDraw draw) (otherwise : ℕ) :
    weights.getD ((firstReached (unitDraw draw) weights 0 (ofInt 0)).getD otherwise) 0 ≠ 0 ↔
      draw ≠ 0 ∨ weights.getD 0 0 ≠ 0 := by
  obtain ⟨hnonneg,hle,hzero⟩ := unitDraw_mem h
  have hne : weights ≠ [] := by
    rintro rfl
    rw [List.sum_nil] at hsum
    exact zero_ne_one hsum
  obtain ⟨i,-,hreached,hiff⟩ := firstReached_weight hne hnonneg (hle.trans hsum.ge)
  rw [hreached,Option.getD_some,hiff,hzero]

theorem weight_ne_zero (z : Amplitude ℝ) : z.weight ≠ 0 ↔ z ≠ .zero := by
  refine not_congr ⟨fun h => ?_,fun h => h ▸ weight_zero⟩
  rw [weight_eq] at h
  have hre : z.re = 0 := by nlinarith [sq_nonneg z.re,sq_nonneg z.im]
  have him : z.im = 0 := by nlinarith [sq_nonneg z.re,sq_nonneg z.im]
  obtain ⟨re,im⟩ := z
  simp only at hre him
  simp [Amplitude.zero,hre,him]

theorem getD_map_weight (amp : List (Amplitude ℝ)) (i : ℕ) :
    (amp.map Amplitude.weight).getD i 0 = (amp.getD i .zero).weight := by
  rw [← weight_zero,List.getD_map]

theorem getD_map_square (amp : List ℝ) (i : ℕ) : (amp.map fun x => mul x x).getD i 0 = amp.getD i 0 * amp.getD i 0 := by
  have hzero : mul (0 : ℝ) 0 = 0 := by simp
  nth_rewrite 1 [← hzero]
  rw [List.getD_map (f := fun x : ℝ => mul x x)]
  rfl

theorem pickLoop_eq_firstReached (amp : Fin 4 → ℝ) (r : ℝ) :
    (pickLoop amp r [0, 1, 2, 3] (ofInt 0) : ℕ) =
      (firstReached r [mul (amp 0) (amp 0), mul (amp 1) (amp 1), mul (amp 2) (amp 2), mul (amp 3) (amp 3)] 0
        (ofInt 0)).getD 3 := by
  simp only [pickLoop,firstReached]
  split_ifs <;> rfl

theorem measureAll_selects {amp : List (Amplitude ℝ)} (hnorm : (amp.map Amplitude.weight).sum = 1) {draw : ℤ}
    (h : IsDraw draw) : amp.getD (measureAll draw amp) .zero ≠ .zero ↔ draw ≠ 0 ∨ amp.getD 0 .zero ≠ .zero := by
  have hpicked := picked_weight hnorm h (amp.length - 1)
  rwa [getD_map_weight,getD_map_weight,weight_ne_zero,weight_ne_zero] at hpicked

theorem measure_selects {amp : List ℝ} (hnorm : (amp.map fun x => x * x).sum = 1) {draw : ℤ} (h : IsDraw draw) :
    amp.getD (StateN.measure draw amp).1 0 ≠ 0 ↔ draw ≠ 0 ∨ amp.getD 0 0 ≠ 0 := by
  have hpicked := picked_weight hnorm h (amp.length - 1)
  have hsquare : ∀ i, (amp.map fun x => x * x).getD i 0 = amp.getD i 0 * amp.getD i 0 := getD_map_square amp
  rwa [hsquare,hsquare,mul_self_ne_zero,mul_self_ne_zero] at hpicked

theorem qstate2Measure_selects {s : QState2 ℝ}
    (hnorm : s.amp 0 * s.amp 0 + s.amp 1 * s.amp 1 + s.amp 2 * s.amp 2 + s.amp 3 * s.amp 3 = 1) {draw : ℤ}
    (h : IsDraw draw) : ∃ i : Fin 4, (qstate2Measure draw s).1 = i ∧ (s.amp i ≠ 0 ↔ draw ≠ 0 ∨ s.amp 0 ≠ 0) := by
  refine ⟨_,rfl,?_⟩
  let weights : List ℝ := [s.amp 0 * s.amp 0, s.amp 1 * s.amp 1, s.amp 2 * s.amp 2, s.amp 3 * s.amp 3]
  have hsum : weights.sum = 1 := by
    simp only [weights,List.sum_cons,List.sum_nil,← hnorm]
    ring
  have hpicked := picked_weight hsum h 3
  have hentry : ∀ i : Fin 4, weights.getD i 0 = s.amp i * s.amp i := by
    intro i
    fin_cases i <;> rfl
  have hloop : (firstReached (unitDraw draw) weights 0 (ofInt 0)).getD 3 =
      pickLoop s.amp (unitDraw draw) [0, 1, 2, 3] (ofInt 0) := (pickLoop_eq_firstReached s.amp _).symm
  rwa [hloop,hentry,mul_self_ne_zero,show weights.getD 0 0 = s.amp 0 * s.amp 0 from rfl,mul_self_ne_zero] at hpicked

/-- The amplitude of the basis state that measuring a qbit of the byte VM selects. -/
noncomputable def selectedAmplitude [NumberText] (draw : ℤ) (q : Language.VMQbit ℝ) : ℝ :=
  if Language.VM.outcome draw q = 0 then q.a else q.b

theorem outcome_selects [NumberText] {q : Language.VMQbit ℝ} (hnorm : q.a * q.a + q.b * q.b = 1) {draw : ℤ}
    (h : IsDraw draw) : selectedAmplitude draw q ≠ 0 ↔ draw ≠ 0 ∨ q.a ≠ 0 := by
  obtain ⟨hnonneg,hle,hzero⟩ := unitDraw_mem h
  rw [← hzero]
  unfold selectedAmplitude
  by_cases hlt : q.a * q.a < unitDraw draw
  · have hpos : 0 < (unitDraw draw : ℝ) := (mul_self_nonneg q.a).trans_lt hlt
    have houtcome : Language.VM.outcome draw q = 1 := if_pos ((lt_eq _ _).mpr hlt)
    rw [houtcome,if_neg one_ne_zero]
    refine ⟨fun _ => Or.inl hpos.ne',fun _ hb => ?_⟩
    rw [hb] at hnorm
    linarith
  · have houtcome : Language.VM.outcome draw q = 0 := if_neg fun hlt' => hlt ((lt_eq _ _).mp hlt')
    rw [houtcome,if_pos rfl]
    refine ⟨Or.inr,?_⟩
    rintro (hdraw | ha) hzero
    · rw [hzero] at hlt
      exact hdraw (le_antisymm (by linarith) hnonneg)
    · exact ha hzero

/-- A measurement selects a basis state with an amplitude exactly if the draw is not zero
or the first basis state has one. -/
theorem measurements_select [NumberText] {draw : ℤ} (h : IsDraw draw) :
    (∀ amp : List (Amplitude ℝ), (amp.map Amplitude.weight).sum = 1 →
      (amp.getD (measureAll draw amp) .zero ≠ .zero ↔ draw ≠ 0 ∨ amp.getD 0 .zero ≠ .zero)) ∧
    (∀ amp : List ℝ, (amp.map fun x => x * x).sum = 1 →
      (amp.getD (StateN.measure draw amp).1 0 ≠ 0 ↔ draw ≠ 0 ∨ amp.getD 0 0 ≠ 0)) ∧
    (∀ s : QState2 ℝ, s.amp 0 * s.amp 0 + s.amp 1 * s.amp 1 + s.amp 2 * s.amp 2 + s.amp 3 * s.amp 3 = 1 →
      ∃ i : Fin 4, (qstate2Measure draw s).1 = i ∧ (s.amp i ≠ 0 ↔ draw ≠ 0 ∨ s.amp 0 ≠ 0)) ∧
    (∀ q : Language.VMQbit ℝ, q.a * q.a + q.b * q.b = 1 →
      (selectedAmplitude draw q ≠ 0 ↔ draw ≠ 0 ∨ q.a ≠ 0)) :=
  ⟨fun _ hnorm => measureAll_selects hnorm h,fun _ hnorm => measure_selects hnorm h,
    fun _ hnorm => qstate2Measure_selects hnorm h,fun _ hnorm => outcome_selects hnorm h⟩

theorem measurements_select_one : letI := noNumbers
    IsDraw 1 ∧ ([0, 1] : List ℝ).getD (StateN.measure 1 ([0, 1] : List ℝ)).1 0 ≠ 0 := by
  let _ := noNumbers
  have h : IsDraw 1 := ⟨by decide,by decide⟩
  exact ⟨h,((measurements_select h).2.1 [0, 1] (by simp)).mpr (Or.inl one_ne_zero)⟩

/-- With the draw zero each of the four selects the first basis state of a state that has none. -/
theorem zero_draw_selects_first : letI := noNumbers
    IsDraw 0 ∧
    (∃ amp : List (Amplitude ℝ), amp = [.zero, .one] ∧ (amp.map Amplitude.weight).sum = 1 ∧
      amp.getD (measureAll 0 amp) .zero = .zero) ∧
    (∃ amp : List ℝ, amp = [0, 1] ∧ (amp.map fun x => x * x).sum = 1 ∧ amp.getD (StateN.measure 0 amp).1 0 = 0) ∧
    (∃ s : QState2 ℝ, s.amp = ![0, 1, 0, 0] ∧ ∃ i : Fin 4, (qstate2Measure 0 s).1 = i ∧ s.amp i = 0) ∧
    (∃ q : Language.VMQbit ℝ, q.a = 0 ∧ q.b = 1 ∧ selectedAmplitude 0 q = 0) := by
  let _ := noNumbers
  have h : IsDraw 0 := ⟨by decide,by decide⟩
  have hcircuit : (([.zero, .one] : List (Amplitude ℝ)).map Amplitude.weight).sum = 1 := by
    simp [weight_zero,weight_one]
  have hlist : (([0, 1] : List ℝ).map fun x => x * x).sum = 1 := by simp
  refine ⟨h,⟨_,rfl,hcircuit,not_not.mp fun hne => ?_⟩,⟨_,rfl,hlist,not_not.mp fun hne => ?_⟩,
    ⟨⟨![0, 1, 0, 0], false, 0⟩,rfl,?_⟩,⟨⟨[], 0, 1, false, 0, []⟩,rfl,rfl,not_not.mp fun hne => ?_⟩⟩
  · rcases (measureAll_selects hcircuit h).mp hne with hzero | hfirst
    · exact hzero rfl
    · exact hfirst rfl
  · rcases (measure_selects hlist h).mp hne with hzero | hfirst
    · exact hzero rfl
    · exact hfirst rfl
  · obtain ⟨i,hi,hiff⟩ := qstate2Measure_selects (s := ⟨![0, 1, 0, 0], false, 0⟩) (by simp) h
    refine ⟨i,hi,not_not.mp fun hne => ?_⟩
    rcases hiff.mp hne with hzero | hfirst
    · exact hzero rfl
    · exact hfirst rfl
  · rcases (outcome_selects (by simp) h).mp hne with hzero | hfirst
    · exact hzero rfl
    · exact hfirst rfl

end QbitNova.Quantum
