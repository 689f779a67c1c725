import QbitNova.Quantum.Gates

/-! # Drawing basis states

A draw on a ready kernel always finds an index and touches nothing but the generator.
Entries whose weight disappears in every running sum are never drawn, unless they are
the last one, whatever the draw is.
-/
namespace QbitNova.Quantum
open Sweep Scalars

section
variable {D : Type} [Scalars D] {k : QCPUKernel D}

/-- Adding the weight of the amplitude changes no running sum. -/
def Weightless (z : Amplitude D) : Prop := ∀ c : D, add c z.weight = c

theorem sampleLoop_some (threshold : D) {stateCount : ℕ} {v : List (Amplitude D)} {index : ℕ} (cumulative : D)
    (hne : v ≠ []) (hlen : index + v.length = stateCount) :
    ∃ i < stateCount, sampleLoop threshold stateCount v index cumulative = some i := by
  induction v generalizing index cumulative with
  | nil => exact absurd rfl hne
  | cons z rest ih =>
    rw [List.length_cons] at hlen
    rw [sampleLoop]
    split_ifs with hstop
    · exact ⟨index,by omega,rfl⟩
    · refine ih _ ?_ (by omega)
      rintro rfl
      simp only [List.length_nil] at hlen
      simp [show index + 1 = stateCount by omega] at hstop

theorem sampleLoop_last {threshold : D} {stateCount : ℕ} {v : List (Amplitude D)} {index : ℕ} {cumulative : D}
    (hne : v ≠ []) (hlen : index + v.length = stateCount) (hlt : lt threshold cumulative = false)
    (hlight : ∀ z ∈ v.dropLast, add cumulative z.weight = cumulative) :
    sampleLoop threshold stateCount v index cumulative = some (stateCount - 1) := by
  induction v generalizing index with
  | nil => exact absurd rfl hne
  | cons z rest ih =>
    cases rest with
    | nil =>
      have hlast : index + 1 = stateCount := hlen
      rw [sampleLoop,if_pos (by simp [hlast]),← hlast,Nat.add_sub_cancel]
    | cons next rest =>
      simp only [List.length_cons] at hlen
      have hz : add cumulative z.weight = cumulative := hlight z (by simp)
      rw [sampleLoop,hz,hlt,if_neg (by simp; omega)]
      exact ih (by simp) (by simp only [List.length_cons]; omega)
        (fun w hw => hlight w (by rw [List.dropLast_cons_cons]; exact List.mem_cons_of_mem _ hw))

/-- All entries but the two at the ends of the array are weightless. -/
def EndsOnly (k : QCPUKernel D) : Prop :=
  ∀ j < 2 ^ k.qubitCount, j ≠ 0 → j ≠ 2 ^ k.qubitCount - 1 → Weightless (entry k.amplitudes j)

/-- Every threshold leads to the first or to the last index. -/
def DrawsEnds (k : QCPUKernel D) : Prop :=
  ∀ threshold : D, sampleLoop threshold k.stateCount k.amplitudes 0 (ofInt 0) = some 0 ∨
    sampleLoop threshold k.stateCount k.amplitudes 0 (ofInt 0) = some (2 ^ k.qubitCount - 1)

/-- It is enough that the other entries add nothing to the sum the first one leaves. -/
theorem drawsEnds_of_middle (hr : k.Ready)
    (h : ∀ j < 2 ^ k.qubitCount, j ≠ 0 → j ≠ 2 ^ k.qubitCount - 1 →
      add (add (ofInt 0) (entry k.amplitudes 0).weight) (entry k.amplitudes j).weight =
        add (ofInt 0) (entry k.amplitudes 0).weight) : DrawsEnds k := by
  intro threshold
  have hlen := hr.length
  have hstates := hr.states
  have htwo : 2 ≤ 2 ^ k.qubitCount := Nat.le_self_pow hr.qubits.ne' 2
  cases hv : k.amplitudes with
  | nil => rw [hv,List.length_nil] at hlen; omega
  | cons first rest =>
    rw [hv,List.length_cons] at hlen
    have hfirst : entry k.amplitudes 0 = first := by rw [hv]; rfl
    rw [hfirst] at h
    rw [sampleLoop]
    split_ifs with hstop
    · exact Or.inl rfl
    · right
      rw [← hstates]
      refine sampleLoop_last (fun hnil => ?_) (by omega) ?_ fun z hz => ?_
      · rw [hnil,List.length_nil] at hlen
        omega
      · simp only [Bool.or_eq_true,not_or] at hstop
        simpa using hstop.1
      · obtain ⟨i,hi,rfl⟩ := List.getElem_of_mem hz
        rw [List.length_dropLast] at hi
        have hentry : entry k.amplitudes (i + 1) = rest.dropLast[i] := by
          rw [hv,entry,List.getD_cons_succ,List.getD_eq_getElem _ _ (by omega),List.getElem_dropLast]
        rw [← hentry]
        exact h (i + 1) (by omega) (by omega) (by omega)

theorem EndsOnly.draws (h : EndsOnly k) (hr : k.Ready) : DrawsEnds k :=
  drawsEnds_of_middle hr fun j hj hzero hlast => h j hj hzero hlast _

theorem sample_spec (hr : k.Ready) (old : ℕ) : ∃ i < 2 ^ k.qubitCount,
    qcpuKernelSample k (some old) = (.ok, k.withRng (qcpuRngNext k.rngState).2, some i) ∧
      (DrawsEnds k → i = 0 ∨ i = 2 ^ k.qubitCount - 1) := by
  have hlen := hr.length
  have hpos := Nat.two_pow_pos k.qubitCount
  obtain ⟨i,hi,hsome⟩ := sampleLoop_some (qcpuRngUnit (qcpuRngNext k.rngState).1) (ofInt 0 : D)
    (List.ne_nil_of_length_pos (by omega)) (show 0 + k.amplitudes.length = k.stateCount by rw [Nat.zero_add,k.sized])
  refine ⟨i,hr.states ▸ hi,?_,fun hends => ?_⟩
  · unfold qcpuKernelSample
    rw [qcpuKernelReady_iff.mpr hr,if_neg (by simp)]
    simp only [QCPUKernel.withRng_stateCount,QCPUKernel.withRng_amplitudes,hsome]
  · rcases hends (qcpuRngUnit (qcpuRngNext k.rngState).1) with h | h
    · exact Or.inl (Option.some.inj (hsome.symm.trans h))
    · exact Or.inr (Option.some.inj (hsome.symm.trans h))

def CountsAtEnds (n : ℕ) (counts : List UInt64) : Prop := ∀ i, i ≠ 0 → i ≠ 2 ^ n - 1 → counts.getD i 0 = 0

theorem CountsAtEnds.modify {n i : ℕ} {counts : List UInt64} (h : CountsAtEnds n counts)
    (hi : i = 0 ∨ i = 2 ^ n - 1) (f : UInt64 → UInt64) : CountsAtEnds n (counts.modify i f) := by
  intro j hzero hlast
  have hne : i ≠ j := by rcases hi with rfl | rfl <;> omega
  have hj := h j hzero hlast
  rw [List.getD_eq_getElem?_getD] at hj ⊢
  simpa only [List.getElem?_modify,if_neg hne,id_map'] using hj

/-- The generator state after a number of draws. -/
def rngAfter (rngState : UInt64) (draws : ℕ) : UInt64 := (fun state => (qcpuRngNext state).2)^[draws] rngState

theorem shotLoop_spec (hr : k.Ready) (counts : List UInt64) (shots : ℕ) :
    ∃ final, shotLoop k counts shots = (.ok, k.withRng (rngAfter k.rngState shots), final) ∧
      final.length = counts.length ∧
      (DrawsEnds k → CountsAtEnds k.qubitCount counts → CountsAtEnds k.qubitCount final) := by
  induction shots generalizing k counts with
  | zero => exact ⟨counts,rfl,rfl,fun _ h => h⟩
  | succ shots ih =>
    obtain ⟨i,-,hsample,hends⟩ := sample_spec hr 0
    obtain ⟨final,hloop,hlen,hcounts⟩ := ih (hr.withRng (qcpuRngNext k.rngState).2) (counts.modify i (· + 1))
    refine ⟨final,?_,by rw [hlen,List.length_modify],fun he hc => hcounts he (hc.modify (hends he) _)⟩
    rw [shotLoop,hsample]
    exact hloop

theorem runShots_spec (hr : k.Ready) {shots : ℕ} (hshots : 0 < shots) (old : QCPUShotResult) :
    ∃ counts, qcpuKernelRunShots true k shots (some old) =
        (.ok, k.withRng (rngAfter k.rngState shots), some ⟨shots, k.stateCount, counts⟩) ∧
      counts.length = k.stateCount ∧ (DrawsEnds k → CountsAtEnds k.qubitCount counts) := by
  obtain ⟨counts,hloop,hlen,hcounts⟩ := shotLoop_spec hr (List.replicate k.stateCount 0) shots
  refine ⟨counts,?_,by rw [hlen,List.length_replicate],fun he => hcounts he fun i _ _ => ?_⟩
  · unfold qcpuKernelRunShots
    rw [qcpuKernelReady_iff.mpr hr,if_neg (by simp; omega),if_neg (by simp),hloop]
    rfl
  · rw [List.getD_eq_getElem?_getD,List.getElem?_replicate]
    split_ifs <;> rfl

theorem measure_spec (hr : k.Ready) (old : ℕ) : ∃ i < 2 ^ k.qubitCount,
    qcpuKernelMeasure k (some old) =
      (.ok, (k.withRng (qcpuRngNext k.rngState).2).collapse i, some i) ∧
    (DrawsEnds k → i = 0 ∨ i = 2 ^ k.qubitCount - 1) := by
  obtain ⟨i,hi,hsample,hends⟩ := sample_spec hr 0
  refine ⟨i,hi,?_,hends⟩
  unfold qcpuKernelMeasure
  rw [qcpuKernelReady_iff.mpr hr,if_neg (by simp),hsample]

end

end QbitNova.Quantum
