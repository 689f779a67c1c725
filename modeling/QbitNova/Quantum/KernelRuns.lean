import QbitNova.Quantum.Exact
import QbitNova.Library.Generators

/-! # Whole runs of a kernel

A kernel that was initialised is driven by arbitrary calls with arbitrary arguments.
Four facts hold together after each of them in exact arithmetic: the array has all of
its states, its norm is one, the generator is not zero, and a kernel that counts as
measured is in the basis state it reports. Repeated measurements follow from them.
-/
namespace QbitNova.Quantum
open Sweep Scalars ExactReals Generators

/-- The calls after init, each with the arguments it is given; `none` is a null pointer. -/
inductive KernelCall where
  | reset
  | applyH (qubit : ℕ)
  | applyX (qubit : ℕ)
  | applyCx (control target : ℕ)
  | applyGhz
  | measure (measuredState : Option ℕ)
  | runShots (allocated : Bool) (shots : ℕ) (result : Option QCPUShotResult)
  deriving DecidableEq, Repr

/-- The status of a call and the kernel it leaves. -/
def KernelCall.perform {D : Type} [Scalars D] (k : QCPUKernel D) : KernelCall → QCPUStatus × QCPUKernel D
  | .reset => qcpuKernelReset k
  | .applyH qubit => qcpuKernelApplyH k qubit
  | .applyX qubit => qcpuKernelApplyX k qubit
  | .applyCx control target => qcpuKernelApplyCx k control target
  | .applyGhz => qcpuKernelApplyGhz k
  | .measure measuredState =>
    let answer := qcpuKernelMeasure k measuredState
    (answer.1, answer.2.1)
  | .runShots allocated shots result =>
    let answer := qcpuKernelRunShots allocated k shots result
    (answer.1, answer.2.1)

/-- The kernel after a sequence of calls. -/
def runCalls {D : Type} [Scalars D] (k : QCPUKernel D) (calls : List KernelCall) : QCPUKernel D :=
  calls.foldl (fun k call => (call.perform k).2) k

section Generator

/-- The generator never reaches the word it cannot leave. -/
theorem rngNext_ne_zero (word : UInt64) : (qcpuRngNext word).2 ≠ 0 := by
  intro h
  unfold qcpuRngNext at h
  have hseed := xor_shiftRight_eq_zero (by decide)
    (xor_shiftLeft_eq_zero (by decide) (xor_shiftRight_eq_zero (by decide) h))
  split_ifs at hseed with hword
  · exact absurd hseed (by decide)
  · exact hword hseed

end Generator

section Norm
variable {k k' : QCPUKernel ℝ}

/-- A gate keeps the norm when it keeps the weight of each pair of entries. -/
theorem norm_eq_of_pairs (hr : k.Ready) (hframe : GateFrame k k') {σ : ℕ → ℕ}
    (hlt : ∀ i < 2 ^ k.qubitCount, σ i < 2 ^ k.qubitCount) (hinv : ∀ i < 2 ^ k.qubitCount, σ (σ i) = i)
    (hpair : ∀ i < 2 ^ k.qubitCount,
      (entry k'.amplitudes i).weight + (entry k'.amplitudes (σ i)).weight =
        (entry k.amplitudes i).weight + (entry k.amplitudes (σ i)).weight) :
    qcpuKernelNorm k' = qcpuKernelNorm k := by
  rw [norm_eq_sum (hframe.ready hr),norm_eq_sum hr,hframe.qubits]
  exact sum_eq_of_pairs hlt hinv hpair

theorem weight_hadamardPair (first second : Amplitude ℝ) :
    (hadamardPair first second).1.weight + (hadamardPair first second).2.weight = first.weight + second.weight := by
  have hsqrt : (Real.sqrt 2) ^ 2 = 2 := Real.sq_sqrt (by norm_num)
  simp only [hadamardPair,Amplitude.add,Amplitude.sub,Amplitude.scale,weight_eq,add_eq,sub_eq,mul_eq,div_eq,sqrt_eq,
    ofInt_eq,Int.cast_one,Int.cast_ofNat,mul_pow,div_pow,one_pow,hsqrt]
  ring

theorem xor_mask_xor_mask (k : QCPUKernel ℝ) (qubit i : ℕ) :
    i ^^^ qcpuQubitMask k qubit ^^^ qcpuQubitMask k qubit = i := by
  rw [Nat.xor_assoc,Nat.xor_self,Nat.xor_zero]

theorem xor_mask_lt {qubit i : ℕ} (hq : qubit < k.qubitCount) (hi : i < 2 ^ k.qubitCount) :
    i ^^^ qcpuQubitMask k qubit < 2 ^ k.qubitCount := by
  rw [qubitMask_eq]
  exact xor_two_pow_lt hi (by omega)

theorem testBit_xor_mask (k : QCPUKernel ℝ) (qubit i bit : ℕ) : (i ^^^ qcpuQubitMask k qubit).testBit bit =
    if k.qubitCount - 1 - qubit = bit then !i.testBit bit else i.testBit bit := by
  rw [qubitMask_eq,testBit_xor_two_pow]

theorem norm_applyH (hr : k.Ready) {qubit : ℕ} (hq : qubit < k.qubitCount) (hframe : GateFrame k k')
    (hentry : ∀ j < 2 ^ k.qubitCount, entry k'.amplitudes j =
      if j.testBit (k.qubitCount - 1 - qubit) = true then
        (hadamardPair (entry k.amplitudes (j ^^^ qcpuQubitMask k qubit)) (entry k.amplitudes j)).2
      else (hadamardPair (entry k.amplitudes j) (entry k.amplitudes (j ^^^ qcpuQubitMask k qubit))).1) :
    qcpuKernelNorm k' = qcpuKernelNorm k := by
  refine norm_eq_of_pairs hr hframe (σ := (· ^^^ qcpuQubitMask k qubit)) (fun i => xor_mask_lt hq)
    (fun i _ => xor_mask_xor_mask k qubit i) fun i hi => ?_
  rw [hentry i hi,hentry _ (xor_mask_lt hq hi),xor_mask_xor_mask,testBit_xor_mask,if_pos rfl]
  cases i.testBit (k.qubitCount - 1 - qubit) with
  | false =>
    rw [if_neg (by simp),if_pos (by simp)]
    exact weight_hadamardPair _ _
  | true =>
    rw [if_pos rfl,if_neg (by simp),add_comm,add_comm (entry k.amplitudes i).weight]
    exact weight_hadamardPair _ _

/-- A gate that moves the entries along an involution keeps the norm. -/
theorem norm_permuted (hr : k.Ready) (hframe : GateFrame k k') {σ : ℕ → ℕ}
    (hlt : ∀ i < 2 ^ k.qubitCount, σ i < 2 ^ k.qubitCount) (hinv : ∀ i < 2 ^ k.qubitCount, σ (σ i) = i)
    (hentry : ∀ j < 2 ^ k.qubitCount, entry k'.amplitudes j = entry k.amplitudes (σ j)) :
    qcpuKernelNorm k' = qcpuKernelNorm k := by
  refine norm_eq_of_pairs hr hframe hlt hinv fun i hi => ?_
  rw [hentry i hi,hentry _ (hlt i hi),hinv i hi,add_comm]

end Norm

section Runs
variable {k k' : QCPUKernel ℝ}

/-- What holds of a kernel after every call. -/
structure QCPUKernel.Sound (k : QCPUKernel ℝ) : Prop where
  ready : k.Ready
  norm : qcpuKernelNorm k = 1
  rng : k.rngState ≠ 0
  collapsed : k.measured = true → k.measuredState < k.stateCount ∧
    k.amplitudes = basisVector k.stateCount k.measuredState

/-- A call left a sound kernel, the same one if it failed. -/
structure Kept (k : QCPUKernel ℝ) (answer : QCPUStatus × QCPUKernel ℝ) : Prop where
  sound : answer.2.Sound
  refused : answer.1 ≠ .ok → answer.2 = k

theorem QCPUKernel.Sound.refuse (h : k.Sound) (status : QCPUStatus) : Kept k (status, k) := ⟨h,fun _ => rfl⟩

theorem QCPUKernel.Sound.gate (h : k.Sound) (hframe : GateFrame k k') (hnorm : qcpuKernelNorm k' = 1) :
    Kept k (.ok, k') := by
  refine ⟨⟨hframe.ready h.ready,hnorm,hframe.rng ▸ h.rng,fun hm => ?_⟩,fun hne => absurd rfl hne⟩
  rw [hframe.measured] at hm
  cases hm

theorem kept_reset (h : k.Sound) : Kept k (qcpuKernelReset k) := by
  obtain ⟨k',hreset,hframe,-,hentry⟩ := reset_spec h.ready
  rw [hreset]
  rw [← hframe.qubits] at hentry
  exact h.gate hframe (norm_basis (hframe.ready h.ready) (Nat.two_pow_pos _) hentry)

theorem kept_applyH (h : k.Sound) (qubit : ℕ) : Kept k (qcpuKernelApplyH k qubit) := by
  by_cases hq : qubit < k.qubitCount
  · obtain ⟨k',happly,hframe,-,hentry⟩ := applyH_spec h.ready hq
    rw [happly]
    exact h.gate hframe ((norm_applyH h.ready hq hframe hentry).trans h.norm)
  · unfold qcpuKernelApplyH
    rw [qcpuKernelReady_iff.mpr h.ready,if_neg (by simp),if_pos (by omega)]
    exact h.refuse _

theorem kept_applyX (h : k.Sound) (qubit : ℕ) : Kept k (qcpuKernelApplyX k qubit) := by
  by_cases hq : qubit < k.qubitCount
  · obtain ⟨k',happly,hframe,-,hentry⟩ := applyX_spec h.ready hq
    rw [happly]
    refine h.gate hframe ((norm_permuted h.ready hframe ?_ ?_ hentry).trans h.norm)
    · exact fun i => xor_mask_lt hq
    · exact fun i _ => xor_mask_xor_mask k qubit i
  · unfold qcpuKernelApplyX
    rw [qcpuKernelReady_iff.mpr h.ready,if_neg (by simp),if_pos (by omega)]
    exact h.refuse _

theorem kept_applyCx (h : k.Sound) (control target : ℕ) : Kept k (qcpuKernelApplyCx k control target) := by
  by_cases hvalid : control ≥ k.qubitCount ∨ target ≥ k.qubitCount ∨ control = target
  · unfold qcpuKernelApplyCx
    rw [qcpuKernelReady_iff.mpr h.ready,if_neg (by simp),if_pos hvalid]
    exact h.refuse _
  · obtain ⟨hc,ht,hne⟩ : control < k.qubitCount ∧ target < k.qubitCount ∧ control ≠ target := by omega
    obtain ⟨k',happly,hframe,-,hentry⟩ := applyCx_spec h.ready hc ht hne
    rw [happly]
    refine h.gate hframe ((norm_permuted h.ready hframe (σ := fun i =>
      if i.testBit (k.qubitCount - 1 - control) = true then i ^^^ qcpuQubitMask k target else i) ?_ ?_ ?_).trans
      h.norm)
    · intro i hi
      split_ifs
      · exact xor_mask_lt ht hi
      · exact hi
    · intro i hi
      have hkeep : (i ^^^ qcpuQubitMask k target).testBit (k.qubitCount - 1 - control) =
          i.testBit (k.qubitCount - 1 - control) := by
        rw [testBit_xor_mask,if_neg (by omega)]
      cases hbit : i.testBit (k.qubitCount - 1 - control) with
      | false => simp only [hbit,Bool.false_eq_true,↓reduceIte]
      | true => simp only [hbit,hkeep,↓reduceIte,xor_mask_xor_mask]
    · intro j hj
      rw [hentry j hj]
      split_ifs <;> rfl

theorem kept_applyGhz (h : k.Sound) : Kept k (qcpuKernelApplyGhz k) := by
  obtain ⟨k',happly,hframe,-,htwo⟩ := applyGhz_spec h.ready
  rw [happly]
  rw [← hframe.qubits] at htwo
  refine h.gate hframe ?_
  rw [norm_twoEntries (hframe.ready h.ready) htwo,weight_hadamardPair_one.1,weight_hadamardPair_one.2]
  norm_num

theorem QCPUKernel.Sound.collapse (h : k.Sound) {state : ℕ} (hstate : state < 2 ^ k.qubitCount) :
    ((k.withRng (qcpuRngNext k.rngState).2).collapse state).Sound where
  ready := ⟨h.ready.qubits,h.ready.states⟩
  norm := norm_collapse (h.ready.withRng _) hstate
  rng := rngNext_ne_zero k.rngState
  collapsed _ := by
    refine ⟨h.ready.states ▸ hstate,?_⟩
    show basisVector k.amplitudes.length state = basisVector k.stateCount state
    rw [k.sized]

theorem QCPUKernel.Sound.withRng (h : k.Sound) {rng : UInt64} (hrng : rng ≠ 0) : (k.withRng rng).Sound := by
  refine ⟨h.ready.withRng rng,?_,hrng,h.collapsed⟩
  have hnorm := h.norm
  rw [norm_eq_sum h.ready] at hnorm
  rw [norm_eq_sum (h.ready.withRng rng)]
  exact hnorm

theorem kept_measure (h : k.Sound) (measuredState : Option ℕ) :
    Kept k (KernelCall.perform k (.measure measuredState)) := by
  cases measuredState with
  | none =>
    simp only [KernelCall.perform,qcpuKernelMeasure,Option.isNone_none,Bool.or_true,↓reduceIte]
    exact h.refuse _
  | some old =>
    obtain ⟨i,hi,hmeasure,-⟩ := measure_spec h.ready old
    simp only [KernelCall.perform,hmeasure]
    exact ⟨h.collapse hi,fun hne => absurd rfl hne⟩

theorem rngAfter_ne_zero {rngState : UInt64} (h : rngState ≠ 0) (draws : ℕ) : rngAfter rngState draws ≠ 0 := by
  induction draws generalizing rngState with
  | zero => exact h
  | succ draws ih => exact ih (rngNext_ne_zero rngState)

/-- Shots touch nothing but the generator, and not even that when they fail. -/
theorem runShots_kernel (h : k.Sound) (allocated : Bool) (shots : ℕ) (result : Option QCPUShotResult) :
    ∃ rng, rng ≠ 0 ∧ (KernelCall.perform k (.runShots allocated shots result)).2 = k.withRng rng ∧
      ((KernelCall.perform k (.runShots allocated shots result)).1 ≠ .ok → rng = k.rngState) := by
  have hready := qcpuKernelReady_iff.mpr h.ready
  have hrefused : ∀ status, KernelCall.perform k (.runShots allocated shots result) = (status, k) →
      ∃ rng, rng ≠ 0 ∧ (KernelCall.perform k (.runShots allocated shots result)).2 = k.withRng rng ∧
        ((KernelCall.perform k (.runShots allocated shots result)).1 ≠ .ok → rng = k.rngState) :=
    fun status he => ⟨k.rngState,h.rng,by rw [he]; rfl,fun _ => rfl⟩
  cases result with
  | none =>
    refine hrefused .argument ?_
    simp only [KernelCall.perform,qcpuKernelRunShots,Option.isNone_none,Bool.or_true,Bool.true_or,↓reduceIte]
  | some old =>
    by_cases hshots : shots = 0
    · refine hrefused .argument ?_
      simp only [KernelCall.perform,qcpuKernelRunShots,hshots,beq_self_eq_true,Bool.or_true,↓reduceIte]
    cases allocated with
    | false =>
      refine hrefused .alloc ?_
      simp only [KernelCall.perform,qcpuKernelRunShots,hready,Option.isNone_some,beq_eq_false_iff_ne.mpr hshots,
        Bool.not_true,Bool.or_false,Bool.false_eq_true,Bool.not_false,↓reduceIte]
    | true =>
      obtain ⟨counts,hrun,-⟩ := runShots_spec h.ready (Nat.pos_of_ne_zero hshots) old
      refine ⟨rngAfter k.rngState shots,rngAfter_ne_zero h.rng shots,?_,fun hne => absurd ?_ hne⟩
      · simp only [KernelCall.perform,hrun]
      · simp only [KernelCall.perform,hrun]

theorem kept_runShots (h : k.Sound) (allocated : Bool) (shots : ℕ) (result : Option QCPUShotResult) :
    Kept k (KernelCall.perform k (.runShots allocated shots result)) := by
  obtain ⟨rng,hrng,hkernel,hfailed⟩ := runShots_kernel h allocated shots result
  refine ⟨hkernel ▸ h.withRng hrng,fun hne => ?_⟩
  rw [hkernel,hfailed hne]
  rfl

/-- One call, whatever its arguments are. -/
theorem kept_perform (h : k.Sound) (call : KernelCall) : Kept k (call.perform k) := by
  cases call with
  | reset => exact kept_reset h
  | applyH qubit => exact kept_applyH h qubit
  | applyX qubit => exact kept_applyX h qubit
  | applyCx control target => exact kept_applyCx h control target
  | applyGhz => exact kept_applyGhz h
  | measure measuredState => exact kept_measure h measuredState
  | runShots allocated shots result => exact kept_runShots h allocated shots result

theorem sound_runCalls (h : k.Sound) (calls : List KernelCall) : (runCalls k calls).Sound := by
  induction calls generalizing k with
  | nil => exact h
  | cons call calls ih => exact ih (kept_perform h call).sound

end Runs

section Settled
variable {k : QCPUKernel ℝ}

theorem rngUnit_bounds (word : UInt64) : (0 : ℝ) ≤ qcpuRngUnit word ∧ qcpuRngUnit word < (1 : ℝ) := by
  have hlt : ((word >>> 11).toNat : ℝ) < 9007199254740992 := by
    have hnat : (word >>> 11).toNat < 9007199254740992 := by
      rw [UInt64.toNat_shiftRight,show (11 : UInt64).toNat % 64 = 11 from rfl,Nat.shiftRight_eq_div_pow]
      have := word.toNat_lt
      omega
    exact_mod_cast hnat
  simp only [qcpuRngUnit,mul_eq,div_eq,ofInt_eq,Int.cast_natCast,Int.cast_one,Int.cast_ofNat]
  constructor
  · positivity
  · rw [mul_one_div,div_lt_one (by norm_num)]
    exact hlt

theorem basisVector_eq {n state : ℕ} (h : state < n) : (basisVector n state : List (Amplitude ℝ)) =
    List.replicate state .zero ++ .one :: List.replicate (n - state - 1) .zero := by
  rw [basisVector,List.set_eq_take_append_cons_drop,if_pos (by rwa [List.length_replicate]),List.take_replicate,
    List.drop_replicate,Nat.min_eq_left h.le,Nat.sub_sub]

/-- The loop passes over entries that are zero. -/
theorem sampleLoop_zeros {threshold : ℝ} (hnonneg : 0 ≤ threshold) {stateCount zeros index : ℕ}
    {rest : List (Amplitude ℝ)} (hlt : index + zeros < stateCount) :
    sampleLoop threshold stateCount (List.replicate zeros .zero ++ rest) index 0 =
      sampleLoop threshold stateCount rest (index + zeros) 0 := by
  induction zeros generalizing index with
  | zero => rfl
  | succ zeros ih =>
    have hweight : Scalars.add (0 : ℝ) (Amplitude.zero : Amplitude ℝ).weight = 0 := by
      rw [add_eq,weight_zero,add_zero]
    have hstop : ¬ (lt threshold (0 : ℝ) || index + 1 == stateCount) = true := by
      rw [Bool.or_eq_true,lt_eq,beq_iff_eq]
      push Not
      exact ⟨hnonneg,by omega⟩
    rw [List.replicate_succ,List.cons_append,sampleLoop,hweight]
    simp only [hstop,Bool.false_eq_true,↓reduceIte]
    rw [ih (by omega)]
    congr 1
    omega

/-- Every draw from a basis state returns it. -/
theorem sampleLoop_basis {threshold : ℝ} (hnonneg : 0 ≤ threshold) (hone : threshold < 1) {n state : ℕ}
    (hstate : state < n) : sampleLoop threshold n (basisVector n state) 0 0 = some state := by
  rw [basisVector_eq hstate,sampleLoop_zeros hnonneg (by omega),sampleLoop,if_pos]
  · rw [Nat.zero_add]
  · rw [Bool.or_eq_true,lt_eq,add_eq,weight_one,zero_add]
    exact Or.inl hone

/-- A sound kernel that was measured with a given result. -/
structure Settled (k : QCPUKernel ℝ) (state : ℕ) : Prop where
  sound : k.Sound
  measured : k.measured = true
  state_eq : k.measuredState = state

variable {state : ℕ}

theorem Settled.withRng (h : Settled k state) {rng : UInt64} (hrng : rng ≠ 0) : Settled (k.withRng rng) state :=
  ⟨h.sound.withRng hrng,h.measured,h.state_eq⟩

theorem Settled.lt (h : Settled k state) : state < k.stateCount := h.state_eq ▸ (h.sound.collapsed h.measured).1

theorem Settled.sample (h : Settled k state) (old : ℕ) :
    qcpuKernelSample k (some old) = (.ok, k.withRng (qcpuRngNext k.rngState).2, some state) := by
  have hbounds := rngUnit_bounds (qcpuRngNext k.rngState).1
  have hloop := sampleLoop_basis hbounds.1 hbounds.2 h.lt
  unfold qcpuKernelSample
  rw [qcpuKernelReady_iff.mpr h.sound.ready,if_neg (by simp)]
  simp only [QCPUKernel.withRng_stateCount,QCPUKernel.withRng_amplitudes,(h.sound.collapsed h.measured).2,h.state_eq,
    ofInt_eq,Int.cast_zero,hloop]

theorem Settled.measure (h : Settled k state) (old : ℕ) : ∃ k', qcpuKernelMeasure k (some old) =
    (.ok, k', some state) := by
  unfold qcpuKernelMeasure
  rw [qcpuKernelReady_iff.mpr h.sound.ready,if_neg (by simp),h.sample]
  exact ⟨_,rfl⟩

theorem Settled.shotLoop (h : Settled k state) (counts : List UInt64) (shots : ℕ) :
    ∃ k', shotLoop k counts shots = (.ok, k', counts.modify state (· + UInt64.ofNat shots)) := by
  induction shots generalizing k counts with
  | zero =>
    refine ⟨k,?_⟩
    have hid : (fun count : UInt64 => count + UInt64.ofNat 0) = id := funext UInt64.add_zero
    rw [Quantum.shotLoop,hid,List.modify_id]
  | succ shots ih =>
    obtain ⟨k',hloop⟩ := ih (h.withRng (rngNext_ne_zero k.rngState)) (counts.modify state (· + 1))
    refine ⟨k',?_⟩
    have hadd : (fun count : UInt64 => count + UInt64.ofNat (shots + 1)) =
        (· + UInt64.ofNat shots) ∘ (· + 1) := by
      funext count
      rw [Function.comp_apply,UInt64.ofNat_add,UInt64.add_comm (UInt64.ofNat shots),UInt64.add_assoc]
      rfl
    rw [Quantum.shotLoop,h.sample,hadd,← List.modify_modify_eq]
    exact hloop

/-- All shots on a settled kernel fall on its state. -/
theorem Settled.counts (h : Settled k state) {allocated : Bool} {shots : ℕ} {old result : QCPUShotResult}
    {k' : QCPUKernel ℝ} (hrun : qcpuKernelRunShots allocated k shots (some old) = (.ok, k', some result)) :
    result = ⟨shots, k.stateCount, (List.replicate k.stateCount 0).set state (UInt64.ofNat shots)⟩ := by
  obtain ⟨last,hloop⟩ := h.shotLoop (List.replicate k.stateCount 0) shots
  have hcount : last.stateCount = k.stateCount := by
    obtain ⟨final,hspec,-⟩ := shotLoop_spec h.sound.ready (List.replicate k.stateCount 0) shots
    rw [hspec] at hloop
    cases hloop
    rfl
  have hmodify : (List.replicate k.stateCount (0 : UInt64)).modify state (· + UInt64.ofNat shots) =
      (List.replicate k.stateCount 0).set state (UInt64.ofNat shots) := by
    rw [List.modify_eq_set_getElem?,List.getElem?_replicate,if_pos h.lt]
    simp
  unfold qcpuKernelRunShots at hrun
  split_ifs at hrun with hargs halloc
  · cases hrun
  · cases hrun
  · rw [hloop,hmodify] at hrun
    cases hrun
    rw [hcount]

theorem settled_of_measure (h : k.Sound) {old : ℕ} {k' : QCPUKernel ℝ}
    (hmeasure : qcpuKernelMeasure k (some old) = (.ok, k', some state)) : Settled k' state := by
  obtain ⟨i,hi,hspec,-⟩ := measure_spec h.ready old
  rw [hspec] at hmeasure
  cases hmeasure
  exact ⟨h.collapse hi,rfl,rfl⟩

/-- A sequence of run_shots calls with any arguments. -/
def shotCalls (calls : List (Bool × ℕ × Option QCPUShotResult)) : List KernelCall :=
  calls.map (fun (allocated, shots, result) => .runShots allocated shots result)

/-- Shots leave the measurement as it is, whether they succeed or not. -/
theorem Settled.runCalls (h : Settled k state) (calls : List (Bool × ℕ × Option QCPUShotResult)) :
    Settled (runCalls k (shotCalls calls)) state := by
  induction calls generalizing k with
  | nil => exact h
  | cons call calls ih =>
    obtain ⟨allocated,shots,result⟩ := call
    obtain ⟨rng,hrng,hkernel,-⟩ := runShots_kernel h.sound allocated shots result
    have hnext : Settled (KernelCall.perform k (.runShots allocated shots result)).2 state :=
      hkernel ▸ h.withRng hrng
    exact ih hnext

end Settled

theorem sound_init {allocated : Bool} {old k : QCPUKernel ℝ} {qubits : ℕ} {seed : UInt64}
    (hinit : qcpuKernelInit allocated old qubits seed = (.ok, k)) : k.Sound := by
  have hvalid : 0 < qubits ∧ qubits ≤ qcpuKernelMaxQubits ∧ allocated = true := by
    by_contra hinvalid
    unfold qcpuKernelInit at hinit
    by_cases hrange : qubits = 0 ∨ qubits > qcpuKernelMaxQubits ∨ qubits ≥ 64
    · rw [if_pos hrange] at hinit
      cases hinit
    · cases allocated with
      | false =>
        rw [if_neg hrange,if_pos (by simp)] at hinit
        cases hinit
      | true => exact hinvalid ⟨by omega,by omega,rfl⟩
  obtain ⟨hpos,hle,rfl⟩ := hvalid
  obtain ⟨k',hspec,hready,-,hrng,hmeasured,hentry⟩ := init_spec old hpos hle seed
  rw [hspec] at hinit
  cases hinit
  refine ⟨hready,norm_basis hready (Nat.two_pow_pos _) hentry,hrng,fun hm => ?_⟩
  rw [hmeasured] at hm
  cases hm

/-- Every run of calls on a kernel that init accepted: the kernel stays sound, a call
that fails changes nothing, a measurement succeeds, and what it returned is what later shots,
which succeed too, and measurements see. -/
theorem kernel_runs {allocated : Bool} {old k : QCPUKernel ℝ} {qubits : ℕ} {seed : UInt64}
    (hinit : qcpuKernelInit allocated old qubits seed = (.ok, k)) (calls : List KernelCall) :
    (runCalls k calls).Sound ∧
    (∀ call : KernelCall, (call.perform (runCalls k calls)).1 ≠ .ok →
      (call.perform (runCalls k calls)).2 = runCalls k calls) ∧
    (∀ slot, ∃ measured, ∃ state < (runCalls k calls).stateCount,
      qcpuKernelMeasure (runCalls k calls) (some slot) = (.ok, measured, some state)) ∧
    (∀ slot state measured shots,
      qcpuKernelMeasure (runCalls k calls) (some slot) = (.ok, measured, some state) →
      (∀ again, ∃ last, qcpuKernelMeasure (runCalls measured (shotCalls shots)) (some again) =
        (.ok, last, some state)) ∧
      (∀ count again, 0 < count → ∃ last result,
        qcpuKernelRunShots true (runCalls measured (shotCalls shots)) count (some again) = (.ok, last, some result)) ∧
      (∀ allocated count again last result,
        qcpuKernelRunShots allocated (runCalls measured (shotCalls shots)) count (some again) =
          (.ok, last, some result) →
        result.counts = (List.replicate result.stateCount 0).set state (UInt64.ofNat count))) := by
  have hsound := sound_runCalls (sound_init hinit) calls
  refine ⟨hsound,fun call => (kept_perform hsound call).refused,fun slot => ?_,
    fun slot state measured shots hmeasure => ?_⟩
  · obtain ⟨state,hstate,hmeasure,-⟩ := measure_spec hsound.ready slot
    exact ⟨_,state,hsound.ready.states ▸ hstate,hmeasure⟩
  have hsettled := (settled_of_measure hsound hmeasure).runCalls shots
  refine ⟨hsettled.measure,fun count again hcount => ?_,fun allocated count again last result hrun => ?_⟩
  · obtain ⟨counts,hrun,-⟩ := runShots_spec hsettled.sound.ready hcount again
    exact ⟨_,_,hrun⟩
  · rw [hsettled.counts hrun]

theorem kernel_runs_bell : ∃ k : QCPUKernel ℝ, qcpuKernelInit true .cleared 2 7 = (.ok, k) ∧
    (runCalls k [.applyH 0, .applyCx 0 1, .applyX 5, .measure (some 0)]).Sound := by
  obtain ⟨k,hinit,-⟩ := init_spec (QCPUKernel.cleared : QCPUKernel ℝ) (by decide : 0 < 2) (by decide) 7
  exact ⟨k,hinit,(kernel_runs hinit _).1⟩

end QbitNova.Quantum
