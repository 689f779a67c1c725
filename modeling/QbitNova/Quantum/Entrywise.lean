import QbitNova.Quantum.Exact

/-! # The gates entry by entry

Qubit 0 is the most significant bit of an index and the leftmost character of the
printed label. In exact arithmetic each gate is given by the new entry at an index; the
GHZ circuit leaves nothing but its two ends, and what is drawn from it does not depend on
the numbers that stand there.
-/
namespace QbitNova.Quantum
open Sweep Scalars CText

/-- The characters of a label, from a given bit down. -/
def basisDigits (state : ℕ) : ℕ → Bytes
  | 0 => []
  | bit + 1 => (if (state >>> bit) &&& 1 ≠ 0 then 49 else 48) :: basisDigits state bit

def printBasis (state qubitCount : ℕ) : Bytes := str "|" ++ basisDigits state qubitCount ++ str ">"

theorem getElem?_basisDigits (state : ℕ) {n qubit : ℕ} (h : qubit < n) :
    (basisDigits state n)[qubit]? = some (if (state >>> (n - 1 - qubit)) &&& 1 ≠ 0 then 49 else 48) := by
  induction n generalizing qubit with
  | zero => omega
  | succ n ih =>
    cases qubit with
    | zero => rfl
    | succ qubit =>
      rw [basisDigits,List.getElem?_cons_succ,ih (by omega),show n + 1 - 1 - (qubit + 1) = n - 1 - qubit by omega]

theorem length_basisDigits (state n : ℕ) : (basisDigits state n).length = n := by
  induction n with
  | zero => rfl
  | succ n ih => rw [basisDigits,List.length_cons,ih]

theorem and_two_pow_ne_zero (i b : ℕ) : i &&& 2 ^ b ≠ 0 ↔ i.testBit b = true := by
  have h := clear_eq_not_testBit i b
  rw [Bool.eq_iff_iff,beq_iff_eq,Bool.not_eq_true'] at h
  rw [ne_eq,h,Bool.not_eq_false]

theorem shiftRight_and_one_ne_zero (i b : ℕ) : (i >>> b) &&& 1 ≠ 0 ↔ i.testBit b = true := by
  rw [Nat.and_one_is_mod,Nat.testBit_eq_decide_div_mod_eq,Nat.shiftRight_eq_div_pow,decide_eq_true_eq]
  omega

/-- An index with a bit set, and the same index without it. -/
theorem split_set {i b : ℕ} (h : i.testBit b = true) : Nat.ldiff i (2 ^ b) = i ^^^ 2 ^ b ∧ i ||| 2 ^ b = i := by
  constructor <;> refine Nat.eq_of_testBit_eq fun j => ?_
  · rw [Nat.testBit_ldiff,Nat.testBit_xor,Nat.testBit_two_pow]
    by_cases hj : b = j
    · subst hj
      simp [h]
    · simp [hj]
  · rw [Nat.testBit_or,Nat.testBit_two_pow]
    by_cases hj : b = j
    · subst hj
      simp [h]
    · simp [hj]

theorem split_clear {i b : ℕ} (h : i.testBit b = false) : Nat.ldiff i (2 ^ b) = i ∧ i ||| 2 ^ b = i ^^^ 2 ^ b := by
  constructor <;> refine Nat.eq_of_testBit_eq fun j => ?_
  · rw [Nat.testBit_ldiff,Nat.testBit_two_pow]
    by_cases hj : b = j
    · subst hj
      simp [h]
    · simp [hj]
  · rw [Nat.testBit_or,Nat.testBit_xor,Nat.testBit_two_pow]
    by_cases hj : b = j
    · subst hj
      simp [h]
    · simp [hj]

/-- The sign with which the entry of the set bit enters a Hadamard gate. -/
noncomputable def hadamardSign (i mask : ℕ) : ℝ := if i &&& mask ≠ 0 then -1 else 1

/-- The sum of two entries with a sign, divided by the square root of two. -/
noncomputable def hadamardSum (x y : Amplitude ℝ) (sign : ℝ) : Amplitude ℝ :=
  ⟨(x.re + sign * y.re) / ExactReals.rootTwo, (x.im + sign * y.im) / ExactReals.rootTwo⟩

theorem hadamardPair_eq (x y : Amplitude ℝ) : hadamardPair x y = (hadamardSum x y 1, hadamardSum x y (-1)) := by
  simp only [hadamardPair,hadamardSum,Amplitude.add,Amplitude.sub,Amplitude.scale,ExactReals.add_eq,
    ExactReals.sub_eq,ExactReals.mul_eq,ExactReals.div_eq,ExactReals.sqrt_eq,ExactReals.ofInt_eq,Int.cast_one,
    Int.cast_ofNat,ExactReals.rootTwo]
  congr 2 <;> ring

/-- The three gates and the printed label, for a ready kernel with any entries. -/
theorem gates_entrywise {k : QCPUKernel ℝ} (hr : k.Ready) :
    (∀ q < k.qubitCount, ∃ k', qcpuKernelApplyX k q = (.ok, k') ∧ GateFrame k k' ∧
      ∀ i < 2 ^ k.qubitCount, entry k'.amplitudes i = entry k.amplitudes (i ^^^ 2 ^ (k.qubitCount - 1 - q))) ∧
    (∀ c < k.qubitCount, ∀ t < k.qubitCount, c ≠ t → ∃ k', qcpuKernelApplyCx k c t = (.ok, k') ∧ GateFrame k k' ∧
      ∀ i < 2 ^ k.qubitCount, entry k'.amplitudes i =
        if i &&& 2 ^ (k.qubitCount - 1 - c) ≠ 0 then entry k.amplitudes (i ^^^ 2 ^ (k.qubitCount - 1 - t))
        else entry k.amplitudes i) ∧
    (∀ q < k.qubitCount, ∃ k', qcpuKernelApplyH k q = (.ok, k') ∧ GateFrame k k' ∧
      ∀ i < 2 ^ k.qubitCount, entry k'.amplitudes i =
        hadamardSum (entry k.amplitudes (Nat.ldiff i (2 ^ (k.qubitCount - 1 - q))))
          (entry k.amplitudes (i ||| 2 ^ (k.qubitCount - 1 - q))) (hadamardSign i (2 ^ (k.qubitCount - 1 - q)))) ∧
    ∀ i < 2 ^ k.qubitCount, (printBasis i k.qubitCount).length = k.qubitCount + 2 ∧ ∀ q < k.qubitCount,
      (printBasis i k.qubitCount)[1 + q]? = some (if i &&& 2 ^ (k.qubitCount - 1 - q) ≠ 0 then 49 else 48) := by
  refine ⟨fun q hq => ?_,fun c hc t ht hne => ?_,fun q hq => ?_,fun i _ => ⟨?_,fun q hq => ?_⟩⟩
  · obtain ⟨k',happly,hframe,-,hentry⟩ := applyX_spec hr hq
    simp only [qubitMask_eq] at hentry
    exact ⟨k',happly,hframe,hentry⟩
  · obtain ⟨k',happly,hframe,-,hentry⟩ := applyCx_spec hr hc ht hne
    simp only [qubitMask_eq] at hentry
    refine ⟨k',happly,hframe,fun i hi => (hentry i hi).trans ?_⟩
    simp only [and_two_pow_ne_zero]
  · obtain ⟨k',happly,hframe,-,hentry⟩ := applyH_spec hr hq
    simp only [qubitMask_eq,hadamardPair_eq] at hentry
    refine ⟨k',happly,hframe,fun i hi => (hentry i hi).trans ?_⟩
    unfold hadamardSign
    simp only [and_two_pow_ne_zero]
    cases hbit : i.testBit (k.qubitCount - 1 - q) with
    | true => rw [(split_set hbit).1,(split_set hbit).2,if_pos rfl,if_pos rfl]
    | false =>
      rw [(split_clear hbit).1,(split_clear hbit).2,if_neg Bool.false_ne_true,if_neg Bool.false_ne_true]
  · simp only [printBasis,List.length_append,length_basisDigits]
    show 1 + k.qubitCount + 1 = _
    omega
  · have hlen : q < (basisDigits i k.qubitCount).length := by rwa [length_basisDigits]
    have hshow : printBasis i k.qubitCount = 124 :: (basisDigits i k.qubitCount ++ str ">") := rfl
    rw [hshow,Nat.add_comm,List.getElem?_cons_succ,List.getElem?_append_left hlen,getElem?_basisDigits i hq]
    simp only [and_two_pow_ne_zero,shiftRight_and_one_ne_zero]

noncomputable def twoQubits : QCPUKernel ℝ := ⟨2, 4, [⟨1, 0⟩, ⟨0, 1⟩, ⟨-1, 0⟩, ⟨0, -1⟩], 1, false, 0, rfl⟩

theorem gates_entrywise_twoQubits : twoQubits.Ready ∧
    (∃ k', qcpuKernelApplyX twoQubits 0 = (.ok, k') ∧ entry k'.amplitudes 0 = ⟨-1, 0⟩) ∧
    (∃ k', qcpuKernelApplyCx twoQubits 0 1 = (.ok, k') ∧ entry k'.amplitudes 3 = ⟨-1, 0⟩) ∧
    (∃ k', qcpuKernelApplyH twoQubits 1 = (.ok, k') ∧ entry k'.amplitudes 1 = hadamardSum ⟨1, 0⟩ ⟨0, 1⟩ (-1)) ∧
    (printBasis 2 2)[1]? = some 49 := by
  have hr : twoQubits.Ready := ⟨by decide,rfl⟩
  obtain ⟨hx,hcx,hh,hlabel⟩ := gates_entrywise hr
  obtain ⟨x,happlyX,-,hentryX⟩ := hx 0 (by decide)
  obtain ⟨c,happlyC,-,hentryC⟩ := hcx 0 (by decide) 1 (by decide) (by decide)
  obtain ⟨h,happlyH,-,hentryH⟩ := hh 1 (by decide)
  refine ⟨hr,⟨x,happlyX,hentryX 0 (by decide)⟩,⟨c,happlyC,hentryC 3 (by decide)⟩,⟨h,happlyH,?_⟩,
    (hlabel 2 (by decide)).2 0 (by decide)⟩
  have hclear : Nat.ldiff 1 (2 ^ (twoQubits.qubitCount - 1 - 1)) = 0 := (split_set (b := 0) rfl).1
  rw [hentryH 1 (by decide),hadamardSign,if_pos (by decide),hclear]
  rfl

section Ghz
variable {D : Type} [Scalars D]

/-- Whatever the generator has come to, samples, shots and measurements yield one of the
two ends of the array. -/
structure YieldsEnds (g : QCPUKernel D) : Prop where
  sample : ∀ rng old, ∃ k' i, qcpuKernelSample (g.withRng rng) (some old) = (.ok, k', some i) ∧
    (i = 0 ∨ i = 2 ^ g.qubitCount - 1)
  shots : ∀ rng shots old, 0 < shots → ∃ k' counts,
    qcpuKernelRunShots true (g.withRng rng) shots (some old) = (.ok, k', some ⟨shots, g.stateCount, counts⟩) ∧
      CountsAtEnds g.qubitCount counts
  measure : ∀ rng old, ∃ k' i, qcpuKernelMeasure (g.withRng rng) (some old) = (.ok, k', some i) ∧
    (i = 0 ∨ i = 2 ^ g.qubitCount - 1)

theorem DrawsEnds.yields {g : QCPUKernel D} (hr : g.Ready) (h : DrawsEnds g) : YieldsEnds g where
  sample rng old := by
    obtain ⟨i,-,hsample,hends⟩ := sample_spec (hr.withRng rng) old
    exact ⟨_,i,hsample,hends h⟩
  shots rng shots old hshots := by
    obtain ⟨counts,hrun,-,hcounts⟩ := runShots_spec (hr.withRng rng) hshots old
    exact ⟨_,counts,hrun,hcounts h⟩
  measure rng old := by
    obtain ⟨i,-,hmeasure,hends⟩ := measure_spec (hr.withRng rng) old
    exact ⟨_,i,hmeasure,hends h⟩

/-- The sum after the first entry of the GHZ state, as the sampling loop computes it. -/
def ghzSum : D := add (ofInt 0) (hadamardPair (.one : Amplitude D) .zero).1.weight

/-- In any arithmetic in which the entries of the middle add nothing to that sum. -/
theorem ghz_yields {k : QCPUKernel D} (hr : k.Ready)
    (hzero : ∀ z : Amplitude D, Vanishing z → add ghzSum z.weight = ghzSum) :
    ∃ g, qcpuKernelApplyGhz k = (.ok, g) ∧ g.Ready ∧ YieldsEnds g := by
  obtain ⟨g,happly,hframe,-,htwo⟩ := applyGhz_spec hr
  have hgr := hframe.ready hr
  rw [← hframe.qubits] at htwo
  refine ⟨g,happly,hgr,(drawsEnds_of_middle hgr fun j hj hne hlast => ?_).yields hgr⟩
  rw [htwo.low]
  exact hzero _ (htwo.rest j hj hne hlast)

end Ghz

theorem hadamardPair_one_zero : hadamardPair (.one : Amplitude ℝ) .zero = (⟨1 / Real.sqrt 2, 0⟩, ⟨1 / Real.sqrt 2, 0⟩) := by
  simp [hadamardPair_eq,hadamardSum,Amplitude.one,Amplitude.zero,ExactReals.rootTwo]

/-- The GHZ circuit in exact arithmetic, and what is drawn from a state with its zeros: in any
arithmetic, whatever stands at the two ends. -/
theorem ghz_state_and_draws :
    (∀ k : QCPUKernel ℝ, k.Ready → ∃ g, qcpuKernelApplyGhz k = (.ok, g) ∧ GateFrame k g ∧
      entry g.amplitudes 0 = ⟨1 / Real.sqrt 2, 0⟩ ∧ entry g.amplitudes (2 ^ k.qubitCount - 1) = ⟨1 / Real.sqrt 2, 0⟩ ∧
      (∀ j < 2 ^ k.qubitCount, j ≠ 0 → j ≠ 2 ^ k.qubitCount - 1 → entry g.amplitudes j = ⟨0, 0⟩) ∧ YieldsEnds g) ∧
    (∀ (D : Type) [Scalars D] (k : QCPUKernel D), k.Ready →
      (∀ z : Amplitude D, Vanishing z → add ghzSum z.weight = ghzSum) →
        ∃ g, qcpuKernelApplyGhz k = (.ok, g) ∧ g.Ready ∧ YieldsEnds g) ∧
    (∀ (D : Type) [Scalars D] (g : QCPUKernel D), g.Ready →
      (∀ j < 2 ^ g.qubitCount, j ≠ 0 → j ≠ 2 ^ g.qubitCount - 1 →
        add (add (ofInt 0) (entry g.amplitudes 0).weight) (entry g.amplitudes j).weight =
          add (ofInt 0) (entry g.amplitudes 0).weight) → YieldsEnds g) := by
  refine ⟨fun k hr => ?_,fun D _ k hr hzero => ghz_yields hr hzero,
    fun D _ g hr hmiddle => (drawsEnds_of_middle hr hmiddle).yields hr⟩
  obtain ⟨g,happly,hframe,-,htwo⟩ := applyGhz_spec hr
  have hgr := hframe.ready hr
  have hends := TwoEntries.endsOnly (hframe.qubits ▸ htwo)
  refine ⟨g,happly,hframe,?_,?_,fun j hj hne hlast => ?_,(hends.draws hgr).yields hgr⟩
  · rw [htwo.low,hadamardPair_one_zero]
  · rw [htwo.high,hadamardPair_one_zero]
  · rw [(htwo.rest j (hframe.qubits ▸ hj) hne hlast).eq_zero]
    simp [Amplitude.zero]

theorem ghz_state_and_draws_three : ∃ k g : QCPUKernel ℝ, k.Ready ∧ k.qubitCount = 3 ∧
    qcpuKernelApplyGhz k = (.ok, g) ∧ entry g.amplitudes 7 = ⟨1 / Real.sqrt 2, 0⟩ ∧ entry g.amplitudes 5 = ⟨0, 0⟩ ∧
    YieldsEnds g ∧ (∃ g', qcpuKernelApplyGhz k = (.ok, g') ∧ g'.Ready ∧ YieldsEnds g') ∧
    YieldsEnds (⟨1, 2, [⟨7, 0⟩, ⟨0, 7⟩], 9, false, 0, rfl⟩ : QCPUKernel ℝ) := by
  obtain ⟨k,-,hr,hqubits,-⟩ := init_spec (.cleared : QCPUKernel ℝ) (show 0 < 3 by decide) (by decide) 5
  obtain ⟨g,happly,-,-,hhigh,hrest,hyields⟩ := ghz_state_and_draws.1 k hr
  rw [hqubits] at hhigh hrest
  refine ⟨k,g,hr,hqubits,happly,hhigh,hrest 5 (by decide) (by decide) (by decide),hyields,?_,?_⟩
  · exact ghz_state_and_draws.2.1 ℝ k hr fun z hz => hz.eq_zero ▸ weightless_zero _
  · refine ghz_state_and_draws.2.2 ℝ _ ⟨by decide,rfl⟩ fun j hj hzero hlast => ?_
    have hj : j < 2 := hj
    have hlast : j ≠ 1 := hlast
    omega

end QbitNova.Quantum
