import QbitNova.Library.ExactReals
import QbitNova.Quantum.Sampling

/-! # The kernel in exact arithmetic

Over the real numbers the norm is the sum of the squared magnitudes. The GHZ state has
norm one and draws nothing but the two ends of the array; so does a basis state.
-/
namespace QbitNova.Quantum
open Sweep Scalars ExactReals

variable {k : QCPUKernel ℝ}

theorem weight_eq (z : Amplitude ℝ) : z.weight = z.re ^ 2 + z.im ^ 2 := by
  rw [sq,sq]
  rfl

theorem weight_zero : (Amplitude.zero : Amplitude ℝ).weight = 0 := by simp [weight_eq,Amplitude.zero]

theorem weight_one : (Amplitude.one : Amplitude ℝ).weight = 1 := by simp [weight_eq,Amplitude.one]

/-- A sum over an array is a sum over its indices. -/
theorem sum_map_entry {A : Type*} [Inhabited A] (f : A → ℝ) (v : List A) :
    (v.map f).sum = ∑ i ∈ Finset.range v.length, f (entry v i) := by
  induction v with
  | nil => rfl
  | cons a v ih =>
    rw [List.map_cons,List.sum_cons,List.length_cons,Finset.sum_range_succ',ih,add_comm]
    rfl

theorem norm_eq_sum (hr : k.Ready) :
    qcpuKernelNorm k = ∑ i ∈ Finset.range (2 ^ k.qubitCount), (entry k.amplitudes i).weight := by
  unfold qcpuKernelNorm
  rw [qcpuKernelReady_iff.mpr hr,if_neg (by simp),← hr.length,← sum_map_entry,List.sum_eq_foldl,List.foldl_map]
  simp

/-- The two amplitudes of the GHZ state have equal weight. -/
theorem weight_hadamardPair_one : (hadamardPair (Amplitude.one : Amplitude ℝ) .zero).1.weight = 1 / 2 ∧
    (hadamardPair (Amplitude.one : Amplitude ℝ) .zero).2.weight = 1 / 2 := by
  simp [hadamardPair,Amplitude.add,Amplitude.sub,Amplitude.scale,Amplitude.one,Amplitude.zero,weight_eq]

theorem Vanishing.eq_zero {z : Amplitude ℝ} (h : Vanishing z) : z = .zero := by
  rcases h with rfl | rfl <;> simp [hadamardPair,Amplitude.add,Amplitude.sub,Amplitude.scale,Amplitude.zero]

theorem weightless_zero : Weightless (Amplitude.zero : Amplitude ℝ) := fun c => by simp [weight_zero]

theorem TwoEntries.endsOnly {low high : Amplitude ℝ} (h : TwoEntries k (2 ^ k.qubitCount - 1) low high Vanishing) :
    EndsOnly k := fun j hj hzero hlast => (h.rest j hj hzero hlast).eq_zero ▸ weightless_zero

theorem norm_twoEntries (hr : k.Ready) {low high : Amplitude ℝ}
    (h : TwoEntries k (2 ^ k.qubitCount - 1) low high Vanishing) :
    qcpuKernelNorm k = low.weight + high.weight := by
  have htwo : 2 ≤ 2 ^ k.qubitCount := Nat.le_self_pow hr.qubits.ne' 2
  have hne : (0 : ℕ) ≠ 2 ^ k.qubitCount - 1 := by omega
  have hsub : ({0, 2 ^ k.qubitCount - 1} : Finset ℕ) ⊆ Finset.range (2 ^ k.qubitCount) := by
    intro i hi
    rw [Finset.mem_insert,Finset.mem_singleton] at hi
    rw [Finset.mem_range]
    omega
  rw [norm_eq_sum hr,← Finset.sum_subset hsub,Finset.sum_pair hne,h.low,h.high]
  intro i hi hout
  rw [Finset.mem_insert,Finset.mem_singleton,not_or] at hout
  rw [(h.rest i (Finset.mem_range.mp hi) hout.1 hout.2).eq_zero,weight_zero]

/-- A basis state has norm one. -/
theorem sum_weight_basis {v : List (Amplitude ℝ)} {size state : ℕ} (hstate : state < size)
    (hentry : ∀ j < size, entry v j = if j = state then .one else .zero) :
    ∑ i ∈ Finset.range size, (entry v i).weight = 1 := by
  have hweight : ∀ i ∈ Finset.range size, (entry v i).weight = if i = state then 1 else 0 := by
    intro i hi
    rw [hentry i (Finset.mem_range.mp hi)]
    split_ifs
    · exact weight_one
    · exact weight_zero
  rw [Finset.sum_congr rfl hweight,Finset.sum_ite_eq',if_pos (Finset.mem_range.mpr hstate)]

theorem norm_basis (hr : k.Ready) {state : ℕ} (hstate : state < 2 ^ k.qubitCount)
    (hentry : ∀ j < 2 ^ k.qubitCount, entry k.amplitudes j = if j = state then .one else .zero) :
    qcpuKernelNorm k = 1 := by
  rw [norm_eq_sum hr]
  exact sum_weight_basis hstate hentry

theorem norm_collapse (hr : k.Ready) {state : ℕ} (hstate : state < 2 ^ k.qubitCount) :
    qcpuKernelNorm (k.collapse state) = 1 := by
  have hlen := hr.length
  refine norm_basis (k := k.collapse state) ⟨hr.qubits,hr.states⟩ hstate fun j hj => ?_
  have hj : j < 2 ^ k.qubitCount := hj
  exact entry_basisVector (by omega) (by omega)

theorem validate_normalized (hr : k.Ready) (hnorm : qcpuKernelNorm k = 1) {tolerance : ℝ} (htol : 0 < tolerance) :
    qcpuKernelValidate k tolerance = .ok := by
  have hle : le tolerance (ofInt 0) = false := by
    rw [Bool.eq_false_iff,ne_eq,le_eq,ofInt_eq]
    simpa using htol
  have hlt : lt tolerance (fabs (Scalars.sub (1 : ℝ) (ofInt 1))) = false := by
    rw [Bool.eq_false_iff,ne_eq,lt_eq]
    simpa using htol.le
  unfold qcpuKernelValidate
  simp only [qcpuKernelReady_iff.mpr hr,hle,hnorm,hlt,isFinite_eq,Bool.not_true,Bool.or_false,Bool.false_eq_true,
    ↓reduceIte]

end QbitNova.Quantum
