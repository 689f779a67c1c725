import QbitNova.Quantum.KernelRuns

/-! # Draws and shots

A draw compares a number of the unit interval with the running sums of the probabilities.
Shots are draws one after the other: the histogram of a run does not depend on where the
run is cut in two, as long as the second part goes on with the generator of the first.
-/
namespace QbitNova.Quantum
open Sweep Scalars ExactReals

section Draws
variable {k : QCPUKernel ℝ} {v : List (Amplitude ℝ)}

/-- The probability of a basis state. -/
noncomputable def probability (v : List (Amplitude ℝ)) (i : ℕ) : ℝ := (entry v i).weight

/-- The sum of the probabilities below an index. -/
noncomputable def probabilitySum (v : List (Amplitude ℝ)) (i : ℕ) : ℝ := ∑ j ∈ Finset.range i, probability v j

/-- The number a sample compares with. -/
noncomputable def kernelDraw (k : QCPUKernel ℝ) : ℝ := qcpuRngUnit (qcpuRngNext k.rngState).1

theorem probability_nonneg (v : List (Amplitude ℝ)) (i : ℕ) : 0 ≤ probability v i := by
  rw [probability,weight_eq]
  positivity

theorem probabilitySum_succ (v : List (Amplitude ℝ)) (i : ℕ) :
    probabilitySum v (i + 1) = probabilitySum v i + probability v i := Finset.sum_range_succ _ _

theorem probabilitySum_mono (v : List (Amplitude ℝ)) : Monotone (probabilitySum v) := by
  apply monotone_nat_of_le_succ
  intro i
  rw [probabilitySum_succ]
  linarith [probability_nonneg v i]

/-- The loop from an index on: what it returns is not preceded by an index at which it could
have stopped. -/
theorem sampleLoop_first (threshold : ℝ) {index : ℕ} (hindex : index < v.length) :
    ∃ i, sampleLoop threshold v.length (v.drop index) index (probabilitySum v index) = some i ∧ i < v.length ∧
      (∀ j, index ≤ j → j < i → probabilitySum v (j + 1) ≤ threshold) ∧
      (threshold < probabilitySum v (i + 1) ∨ i + 1 = v.length) := by
  induction hleft : v.length - index generalizing index with
  | zero => omega
  | succ left ih =>
    have hsum : Scalars.add (probabilitySum v index) (v[index]).weight = probabilitySum v (index + 1) := by
      rw [probabilitySum_succ,probability,entry,List.getD_eq_getElem _ _ hindex,add_eq]
    rw [List.drop_eq_getElem_cons hindex,sampleLoop,hsum]
    by_cases hstop : threshold < probabilitySum v (index + 1) ∨ index + 1 = v.length
    · refine ⟨index,?_,hindex,fun j hle hlt => absurd hle (by omega),hstop⟩
      apply if_pos
      rwa [Bool.or_eq_true,lt_eq,beq_iff_eq]
    · have hnext : index + 1 < v.length := by
        push Not at hstop
        omega
      obtain ⟨i,hloop,hi,hbefore,hat⟩ := ih hnext (by omega)
      refine ⟨i,?_,hi,fun j hle hlt => ?_,hat⟩
      · refine (if_neg ?_).trans hloop
        rwa [Bool.or_eq_true,lt_eq,beq_iff_eq]
      · rcases hle.eq_or_lt with rfl | hle
        · exact le_of_not_gt fun h => hstop (Or.inl h)
        · exact hbefore j hle hlt

theorem index_unique {u : ℝ} {i j : ℕ} (hi : probabilitySum v i ≤ u) (hi' : u < probabilitySum v (i + 1))
    (hj : probabilitySum v j ≤ u) (hj' : u < probabilitySum v (j + 1)) : i = j := by
  rcases lt_trichotomy i j with hlt | rfl | hlt
  · exact absurd ((probabilitySum_mono v hlt).trans hj) (not_le.mpr hi')
  · rfl
  · exact absurd ((probabilitySum_mono v hlt).trans hi) (not_le.mpr hj')

/-- A sample returns the least index whose running sum exceeds the draw, or the last index. On
a state of norm one it is the index whose half-open interval holds the draw. -/
theorem sample_least (hr : k.Ready) (old : ℕ) : ∃ i < 2 ^ k.qubitCount,
    qcpuKernelSample k (some old) = (.ok, k.withRng (qcpuRngNext k.rngState).2, some i) ∧
    0 ≤ kernelDraw k ∧ kernelDraw k < 1 ∧
    (IsLeast {j | j < 2 ^ k.qubitCount ∧ kernelDraw k < probabilitySum k.amplitudes (j + 1)} i ∨
      (∀ j < 2 ^ k.qubitCount, probabilitySum k.amplitudes (j + 1) ≤ kernelDraw k) ∧ i = 2 ^ k.qubitCount - 1) ∧
    (qcpuKernelNorm k = 1 → probability k.amplitudes i ≠ 0 ∧ ∀ j < 2 ^ k.qubitCount,
      (i = j ↔ probabilitySum k.amplitudes j ≤ kernelDraw k ∧ kernelDraw k < probabilitySum k.amplitudes (j + 1))) := by
  have hlen := hr.length
  have hpos := Nat.two_pow_pos k.qubitCount
  obtain ⟨hzero,hone⟩ := rngUnit_bounds (qcpuRngNext k.rngState).1
  obtain ⟨i,hloop,hi,hbefore,hat⟩ := sampleLoop_first (kernelDraw k) (show 0 < k.amplitudes.length by omega)
  rw [hlen] at hi hat
  refine ⟨i,hi,?_,hzero,hone,?_,fun hnorm => ?_⟩
  · rw [k.sized,List.drop_zero] at hloop
    have hloop : sampleLoop (qcpuRngUnit (qcpuRngNext k.rngState).1) k.stateCount k.amplitudes 0 (ofInt 0) = some i := by
      rw [ofInt_eq,Int.cast_zero]
      exact hloop
    unfold qcpuKernelSample
    rw [qcpuKernelReady_iff.mpr hr,if_neg (by simp)]
    simp only [QCPUKernel.withRng_stateCount,QCPUKernel.withRng_amplitudes,hloop]
  · by_cases hlt : kernelDraw k < probabilitySum k.amplitudes (i + 1)
    · refine Or.inl ⟨⟨hi,hlt⟩,fun j hj => ?_⟩
      by_contra hji
      exact absurd (hbefore j (Nat.zero_le j) (not_le.mp hji)) (not_le.mpr hj.2)
    · have hlast : i + 1 = 2 ^ k.qubitCount := hat.resolve_left hlt
      refine Or.inr ⟨fun j hj => ?_,by omega⟩
      exact (probabilitySum_mono k.amplitudes (show j + 1 ≤ i + 1 by omega)).trans (not_lt.mp hlt)
  · rw [norm_eq_sum hr] at hnorm
    have htotal : probabilitySum k.amplitudes (2 ^ k.qubitCount) = 1 := hnorm
    have hlt : kernelDraw k < probabilitySum k.amplitudes (i + 1) := by
      rcases hat with hlt | hlast
      · exact hlt
      · rw [hlast,htotal]
        exact hone
    have hle : probabilitySum k.amplitudes i ≤ kernelDraw k := by
      cases i with
      | zero => exact hzero
      | succ i => exact hbefore i (Nat.zero_le i) (Nat.lt_succ_self i)
    refine ⟨?_,fun j _ => ⟨?_,fun hj => index_unique hle hlt hj.1 hj.2⟩⟩
    · rw [probabilitySum_succ] at hlt
      linarith
    · rintro rfl
      exact ⟨hle,hlt⟩

theorem sample_least_three : ∃ k : QCPUKernel ℝ, k.Ready ∧ k.qubitCount = 3 ∧
    qcpuKernelSample k (some 5) = (.ok, k.withRng (qcpuRngNext k.rngState).2, some 0) := by
  obtain ⟨k,-,hr,hqubits,-,-,hentry⟩ := init_spec (.cleared : QCPUKernel ℝ) (show 0 < 3 by decide) (by decide) 5
  obtain ⟨i,hi,hsample,-,-,-,hnorm⟩ := sample_least hr 5
  obtain ⟨hne,-⟩ := hnorm (norm_basis hr (Nat.two_pow_pos _) hentry)
  have hzero : i = 0 := by
    by_contra hpos
    apply hne
    rw [probability,hentry i hi,if_neg hpos,weight_zero]
  exact ⟨k,hr,hqubits,hzero ▸ hsample⟩

end Draws

section Shots
variable {D : Type} [Scalars D] {k : QCPUKernel D}

/-- The pointwise sum of two histograms. -/
def addCounts (counts counts' : List UInt64) : List UInt64 := List.zipWith (· + ·) counts counts'

theorem addCounts_modify (base counts : List UInt64) (i : ℕ) :
    (addCounts base counts).modify i (· + 1) = addCounts base (counts.modify i (· + 1)) := by
  apply List.ext_getElem?
  intro j
  rw [addCounts,addCounts,List.getElem?_modify,List.getElem?_zipWith,List.getElem?_zipWith,List.getElem?_modify]
  cases base[j]? with
  | none => simp
  | some b =>
    cases counts[j]? with
    | none => simp
    | some c =>
      by_cases hj : i = j
      · simp [hj,UInt64.add_assoc]
      · simp [hj]

theorem addCounts_zero (counts : List UInt64) : addCounts counts (List.replicate counts.length 0) = counts := by
  apply List.ext_getElem
  · simp [addCounts]
  · intro i hi hi'
    simp [addCounts]

/-- A histogram that is there before the loop is added to what the loop counts. -/
theorem shotLoop_add (hr : k.Ready) (base counts : List UInt64) (shots : ℕ) :
    ∃ final, shotLoop k counts shots = (.ok, k.withRng (rngAfter k.rngState shots), final) ∧
      shotLoop k (addCounts base counts) shots =
        (.ok, k.withRng (rngAfter k.rngState shots), addCounts base final) := by
  induction shots generalizing k counts with
  | zero => exact ⟨counts,rfl,rfl⟩
  | succ shots ih =>
    obtain ⟨i,-,hsample,-⟩ := sample_spec hr 0
    obtain ⟨final,hloop,hadded⟩ := ih (hr.withRng (qcpuRngNext k.rngState).2) (counts.modify i (· + 1))
    rw [← addCounts_modify] at hadded
    refine ⟨final,?_,?_⟩
    · rw [shotLoop,hsample]
      exact hloop
    · rw [shotLoop,hsample]
      exact hadded

theorem shotLoop_append (hr : k.Ready) {counts counts' : List UInt64} {shots : ℕ}
    (h : shotLoop k counts shots = (.ok, k.withRng (rngAfter k.rngState shots), counts')) (more : ℕ) :
    shotLoop k counts (shots + more) = shotLoop (k.withRng (rngAfter k.rngState shots)) counts' more := by
  induction shots generalizing k counts with
  | zero =>
    cases h
    rw [Nat.zero_add]
    rfl
  | succ shots ih =>
    obtain ⟨i,-,hsample,-⟩ := sample_spec hr 0
    rw [shotLoop,hsample] at h
    rw [Nat.succ_add,shotLoop,hsample]
    exact ih (hr.withRng (qcpuRngNext k.rngState).2) h

/-- The number of shots a histogram holds. -/
def totalCount (counts : List UInt64) : ℕ := (counts.map UInt64.toNat).sum

theorem totalCount_modify {counts : List UInt64} {i : ℕ} (hi : i < counts.length)
    (hfits : totalCount counts + 1 < 2 ^ 64) : totalCount (counts.modify i (· + 1)) = totalCount counts + 1 := by
  induction counts generalizing i with
  | nil => simp at hi
  | cons count counts ih =>
    simp only [totalCount,List.map_cons,List.sum_cons] at hfits ih ⊢
    cases i with
    | zero =>
      have hone : (count + 1).toNat = count.toNat + 1 := by
        rw [UInt64.toNat_add,UInt64.toNat_one,Nat.mod_eq_of_lt (by omega)]
      simp only [List.modify_zero_cons,List.map_cons,List.sum_cons,hone]
      omega
    | succ i =>
      rw [List.length_cons,Nat.succ_lt_succ_iff] at hi
      simp only [List.modify_succ_cons,List.map_cons,List.sum_cons,ih hi (by omega)]
      omega

theorem totalCount_shotLoop (hr : k.Ready) {counts final : List UInt64} (hlen : counts.length = k.stateCount)
    {shots : ℕ} (hfits : totalCount counts + shots < 2 ^ 64) {k' : QCPUKernel D} {status : QCPUStatus}
    (h : shotLoop k counts shots = (status, k', final)) : totalCount final = totalCount counts + shots := by
  induction shots generalizing k counts with
  | zero =>
    cases h
    rfl
  | succ shots ih =>
    obtain ⟨i,hi,hsample,-⟩ := sample_spec hr 0
    rw [← hr.states,← hlen] at hi
    have hmodify := totalCount_modify hi (by omega)
    rw [shotLoop,hsample] at h
    rw [ih (hr.withRng _) (by rw [List.length_modify]; exact hlen) (by omega) h,hmodify]
    omega

theorem totalCount_replicate (size : ℕ) : totalCount (List.replicate size 0) = 0 := by
  simp [totalCount]

theorem count_le_total (counts : List UInt64) (i : ℕ) : (counts.getD i 0).toNat ≤ totalCount counts := by
  by_cases hi : i < counts.length
  · rw [List.getD_eq_getElem _ _ hi]
    exact List.le_sum_of_mem (List.mem_map_of_mem (List.getElem_mem hi))
  · rw [List.getD_eq_default _ _ (by omega)]
    exact Nat.zero_le _

/-- Without an overflow the histograms add up as numbers. -/
theorem getD_addCounts {counts counts' : List UInt64} (hlen : counts.length = counts'.length)
    (hfits : totalCount counts + totalCount counts' < 2 ^ 64) (i : ℕ) :
    ((addCounts counts counts').getD i 0).toNat = (counts.getD i 0).toNat + (counts'.getD i 0).toNat := by
  have hle := count_le_total counts i
  have hle' := count_le_total counts' i
  have hadd : (addCounts counts counts').getD i 0 = counts.getD i 0 + counts'.getD i 0 := by
    by_cases hi : i < counts.length
    · have hi' : i < counts'.length := by omega
      have hboth : i < (addCounts counts counts').length := by rw [addCounts,List.length_zipWith]; omega
      rw [List.getD_eq_getElem _ _ hboth,List.getD_eq_getElem _ _ hi,List.getD_eq_getElem _ _ hi']
      exact List.getElem_zipWith
    · rw [List.getD_eq_default _ _ (by rw [addCounts,List.length_zipWith]; omega),
        List.getD_eq_default _ _ (by omega),List.getD_eq_default _ _ (by omega)]
      rfl
  rw [hadd,UInt64.toNat_add,Nat.mod_eq_of_lt (by omega)]

theorem runShots_of_loop (hr : k.Ready) {shots : ℕ} (hshots : 0 < shots) (old : QCPUShotResult) {k' : QCPUKernel D}
    {counts : List UInt64} (h : shotLoop k (List.replicate k.stateCount 0) shots = (.ok, k', counts)) :
    qcpuKernelRunShots true k shots (some old) = (.ok, k', some ⟨shots, k'.stateCount, counts⟩) := by
  unfold qcpuKernelRunShots
  rw [qcpuKernelReady_iff.mpr hr,if_neg (by simp; omega),if_neg (by simp),h]

/-- What run_shots must leave alone. -/
structure ShotsFrame (k k' : QCPUKernel D) : Prop where
  qubits : k'.qubitCount = k.qubitCount
  amplitudes : k'.amplitudes = k.amplitudes
  measured : k'.measured = k.measured
  measuredState : k'.measuredState = k.measuredState
  measure : ∀ rng slot, qcpuKernelMeasure (k'.withRng rng) slot = qcpuKernelMeasure (k.withRng rng) slot

theorem shotsFrame_withRng (k : QCPUKernel D) (rng : UInt64) : ShotsFrame k (k.withRng rng) :=
  ⟨rfl,rfl,rfl,rfl,fun _ _ => rfl⟩

/-- Shots in one call or in two that share the generator: the same histogram in total, the same
generator in the end, and a kernel whose state is not touched. -/
theorem runShots_additive (hr : k.Ready) {s1 s2 : ℕ} (h1 : 0 < s1) (h2 : 0 < s2) (hfits : s1 + s2 < 2 ^ 64)
    (old1 old2 old : QCPUShotResult) : ∃ k1 k2 c1 c2 c,
      qcpuKernelRunShots true k s1 (some old1) = (.ok, k1, some ⟨s1, k.stateCount, c1⟩) ∧
      qcpuKernelRunShots true k1 s2 (some old2) = (.ok, k2, some ⟨s2, k.stateCount, c2⟩) ∧
      (∃ k12, qcpuKernelRunShots true k (s1 + s2) (some old) = (.ok, k12, some ⟨s1 + s2, k.stateCount, c⟩) ∧
        k12.rngState = k2.rngState ∧ ShotsFrame k k12) ∧
      (c1.length = k.stateCount ∧ c2.length = k.stateCount ∧ c.length = k.stateCount ∧
        ∀ i, (c.getD i 0).toNat = (c1.getD i 0).toNat + (c2.getD i 0).toNat) ∧
      (totalCount c1 = s1 ∧ totalCount c2 = s2 ∧ totalCount c = s1 + s2) ∧
      ShotsFrame k k1 ∧ ShotsFrame k k2 := by
  have hr1 := hr.withRng (rngAfter k.rngState s1)
  obtain ⟨c1,hloop1,hlen1,-⟩ := shotLoop_spec hr (List.replicate k.stateCount 0) s1
  rw [List.length_replicate] at hlen1
  obtain ⟨c2,hloop2,hloop⟩ := shotLoop_add hr1 c1 (List.replicate k.stateCount 0) s2
  obtain ⟨c2',hloop2',hlen2,-⟩ := shotLoop_spec hr1 (List.replicate k.stateCount 0) s2
  obtain rfl : c2' = c2 := by
    rw [hloop2'] at hloop2
    cases hloop2
    rfl
  rw [List.length_replicate] at hlen2
  have htotal1 := totalCount_shotLoop hr List.length_replicate (by rw [totalCount_replicate]; omega) hloop1
  have htotal2 := totalCount_shotLoop hr1 List.length_replicate (by rw [totalCount_replicate]; omega) hloop2
  rw [← hlen1,addCounts_zero,← shotLoop_append hr hloop1] at hloop
  have htotal := totalCount_shotLoop hr List.length_replicate (by rw [totalCount_replicate]; omega) hloop
  rw [totalCount_replicate,Nat.zero_add] at htotal1 htotal2 htotal
  refine ⟨k.withRng (rngAfter k.rngState s1),k.withRng (rngAfter (rngAfter k.rngState s1) s2),c1,c2',addCounts c1 c2',
    runShots_of_loop hr h1 old1 hloop1,runShots_of_loop hr1 h2 old2 hloop2,
    ⟨k.withRng (rngAfter (rngAfter k.rngState s1) s2),runShots_of_loop hr (by omega) old hloop,rfl,
      shotsFrame_withRng k _⟩,⟨hlen1,hlen2,?_,?_⟩,⟨htotal1,htotal2,htotal⟩,shotsFrame_withRng k _,
    shotsFrame_withRng k _⟩
  · rw [addCounts,List.length_zipWith,hlen1,hlen2,Nat.min_self]
  · exact getD_addCounts (hlen1.trans hlen2.symm) (by omega)

theorem bell_spec (seed : UInt64) : ∃ k0 k1 k : QCPUKernel ℝ, qcpuKernelInit true .cleared 2 seed = (.ok, k0) ∧
    qcpuKernelApplyH k0 0 = (.ok, k1) ∧ qcpuKernelApplyCx k1 0 1 = (.ok, k) ∧ k.Ready ∧
    probability k.amplitudes 0 = 1 / 2 ∧ probability k.amplitudes 3 = 1 / 2 := by
  obtain ⟨k0,hinit,hr0,hqubits,-,-,hentry0⟩ := init_spec (.cleared : QCPUKernel ℝ) (show 0 < 2 by decide) (by decide) seed
  obtain ⟨k1,hh,hframe1,-,hentry1⟩ := applyH_spec hr0 (show 0 < k0.qubitCount by omega)
  have hqubits1 : k1.qubitCount = 2 := hframe1.qubits.trans hqubits
  obtain ⟨k,hcx,hframe,-,hentry⟩ := applyCx_spec (hframe1.ready hr0) (show 0 < k1.qubitCount by omega)
    (show 1 < k1.qubitCount by omega) zero_ne_one
  rw [hqubits] at hentry0
  refine ⟨k0,k1,k,hinit,hh,hcx,hframe.ready (hframe1.ready hr0),?_,?_⟩
  · rw [probability,hentry 0 (by rw [hqubits1]; decide),hqubits1,if_neg (by decide),hentry1 0 (by rw [hqubits]; decide),
      hqubits,if_neg (by decide),qubitMask_eq,hqubits,hentry0 0 (by decide),if_pos rfl,hentry0 _ (by decide),
      if_neg (by decide),weight_hadamardPair_one.1]
  · rw [probability,hentry 3 (by rw [hqubits1]; decide),hqubits1,if_pos (by decide),qubitMask_eq,hqubits1,
      hentry1 _ (by rw [hqubits]; decide),hqubits,if_pos (by decide),qubitMask_eq,hqubits,hentry0 _ (by decide),
      if_pos (by decide),hentry0 _ (by decide),if_neg (by decide),weight_hadamardPair_one.2]

theorem runShots_additive_bell : ∃ k0 k1 k : QCPUKernel ℝ, qcpuKernelInit true .cleared 2 5 = (.ok, k0) ∧
    qcpuKernelApplyH k0 0 = (.ok, k1) ∧ qcpuKernelApplyCx k1 0 1 = (.ok, k) ∧
    probability k.amplitudes 0 = 1 / 2 ∧ probability k.amplitudes 3 = 1 / 2 ∧ ∃ k2 c1,
    qcpuKernelRunShots true k 3 (some .cleared) = (.ok, k2, some ⟨3, k.stateCount, c1⟩) ∧ totalCount c1 = 3 := by
  obtain ⟨k0,k1,k,hinit,hh,hcx,hr,hfirst,hlast⟩ := bell_spec 5
  obtain ⟨k2,k3,c1,c2,c,hrun,-,-,-,hsum,-⟩ := runShots_additive hr (show 0 < 3 by decide) (show 0 < 4 by decide)
    (by decide) .cleared .cleared .cleared
  exact ⟨k0,k1,k,hinit,hh,hcx,hfirst,hlast,k2,c1,hrun,hsum.1⟩

end Shots

end QbitNova.Quantum
