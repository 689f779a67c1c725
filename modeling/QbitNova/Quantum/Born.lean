import QbitNova.Library.Grids
import QbitNova.Quantum.GateAlgebra
import QbitNova.Quantum.Generator
import QbitNova.Quantum.Shots
import QbitNova.Quantum.Unitary

/-! # The kernel samples by the Born rule

The gates of the kernel multiply the state by unitaries, and a sample compares a word of the
generator with the running sums of the squared magnitudes. Since a draw permutes the states
of the generator, the number of them that lead to a basis state is the probability of that
state, as a share of all words, up to the resolution of the draw.
-/
namespace QbitNova.Quantum
open Matrix Registers Sweep Scalars ExactReals CircuitVM

/-- The operation of the circuit VM that a call stands for. -/
def GateCall.op : GateCall → Op
  | .h qubit => ⟨.h, qubit, 0⟩
  | .x qubit => ⟨.x, qubit, 0⟩
  | .cx control target => ⟨.cx, control, target⟩

theorem GateCall.op_fits {n : ℕ} {g : GateCall} (h : g.Valid n) : g.op.Fits n := by
  have hrange := h.inRange
  have hnodup := h.distinct
  cases g <;> constructor <;> simp [GateCall.op,GateCall.qubits,Op.operands] at hrange hnodup ⊢ <;> omega

theorem ops_fit {n : ℕ} {gates : List GateCall} (h : ∀ g ∈ gates, g.Valid n) :
    ∀ o ∈ gates.map GateCall.op, o.Fits n := by
  intro o ho
  obtain ⟨g,hg,rfl⟩ := List.mem_map.mp ho
  exact GateCall.op_fits (h g hg)

section Gates
variable {n : ℕ} {amp amp' : List (Amplitude ℝ)}

/-- In exact arithmetic the pair of the kernel is that of the matrix. -/
theorem hadamardPair_matrixPair (x y : Amplitude ℝ) : hadamardPair x y =
    matrixPair (Amplitude.real (1 / Real.sqrt 2)) (Amplitude.real (1 / Real.sqrt 2))
      (Amplitude.real (1 / Real.sqrt 2)) (Amplitude.real (Scalars.mul (ofInt (-1)) (1 / Real.sqrt 2))) x y := by
  simp only [hadamardPair,matrixPair,Amplitude.mul,Amplitude.real,Amplitude.add,Amplitude.sub,Amplitude.scale,add_eq,
    sub_eq,mul_eq,div_eq,sqrt_eq,ofInt_eq,Int.cast_one,Int.cast_zero,Int.cast_neg,Int.cast_ofNat]
  congr 2 <;> ring

theorem flipPair_matrixPair (x y : Amplitude ℝ) : flipPair x y = matrixPair .zero .one .one .zero x y := by
  simp [flipPair,matrixPair,Amplitude.mul,Amplitude.zero,Amplitude.one,Amplitude.add]

theorem act_multiplies {g : GateCall} (hg : g.Valid n) (h : Acts n (g.act n) amp amp') :
    stateOf n amp' = (g.op.unitary (GateCall.op_fits hg)).val *ᵥ stateOf n amp := by
  cases g with
  | h qubit =>
    have hq : qubit < n := hg.inRange qubit (by simp [GateCall.qubits])
    have hpair : hadamardPair = matrixPair (Amplitude.real (1 / Real.sqrt 2)) (Amplitude.real (1 / Real.sqrt 2))
        (Amplitude.real (1 / Real.sqrt 2)) (Amplitude.real (Scalars.mul (ofInt (-1)) (1 / Real.sqrt 2))) :=
      funext fun x => funext fun y => hadamardPair_matrixPair x y
    have hacts : Acts n (pairAct (fun _ => true) (n - 1 - (⟨qubit,hq⟩ : Fin n)) hadamardPair) amp amp' := h
    rw [hpair] at hacts
    rw [stateOf_single hacts,hadamardGate_eq rfl]
    rfl
  | x qubit =>
    have hq : qubit < n := hg.inRange qubit (by simp [GateCall.qubits])
    have hpair : (flipPair : Amplitude ℝ → _) = matrixPair .zero .one .one .zero :=
      funext fun x => funext fun y => flipPair_matrixPair x y
    have hacts : Acts n (pairAct (fun _ => true) (n - 1 - (⟨qubit,hq⟩ : Fin n)) flipPair) amp amp' := h
    rw [hpair] at hacts
    rw [stateOf_single hacts,pauliX_eq]
    rfl
  | cx control target =>
    have hc : control < n := hg.inRange control (by simp [GateCall.qubits])
    have ht : target < n := hg.inRange target (by simp [GateCall.qubits])
    have hne : (⟨control,hc⟩ : Fin n) ≠ ⟨target,ht⟩ := by
      have hnodup := hg.distinct
      simpa [GateCall.qubits] using hnodup
    exact stateOf_cx hne h

theorem runCalls_multiplies {k : QCPUKernel ℝ} (hr : k.Ready) (hn : k.qubitCount = n) {gates : List GateCall}
    (h : ∀ g ∈ gates, g.Valid n) : (runCalls k (gates.map GateCall.call)).qubitCount = n ∧
      stateOf n (runCalls k (gates.map GateCall.call)).amplitudes =
        (unitaryOf (gates.map GateCall.op) (ops_fit h)).val *ᵥ stateOf n k.amplitudes := by
  induction gates generalizing k with
  | nil => exact ⟨hn,(one_mulVec _).symm⟩
  | cons g gates ih =>
    have hg := h g List.mem_cons_self
    obtain ⟨next,hperform,hframe,hentry⟩ := perform_act hr (hn.symm ▸ hg)
    have hcalls : runCalls k ((g :: gates).map GateCall.call) = runCalls next (gates.map GateCall.call) := by
      rw [List.map_cons,runCalls,List.foldl_cons,hperform]
      rfl
    have hnext : next.qubitCount = n := hframe.qubits.trans hn
    have hacts : Acts n (g.act n) k.amplitudes next.amplitudes :=
      ⟨by rw [(hframe.ready hr).length,hnext],hn ▸ hentry⟩
    obtain ⟨hcount,hrest⟩ := ih (hframe.ready hr) hnext fun g' hg' => h g' (List.mem_cons_of_mem _ hg')
    refine ⟨hcalls ▸ hcount,?_⟩
    rw [hcalls,hrest,act_multiplies hg hacts,mulVec_mulVec]
    rfl

end Gates

section Draws
variable {k : QCPUKernel ℝ}

theorem sample_interval (hr : k.Ready) (hnorm : qcpuKernelNorm k = 1) (i : ℕ) :
    (qcpuKernelSample k (some 0)).2.2 = some i ↔ i < 2 ^ k.qubitCount ∧
      probabilitySum k.amplitudes i ≤ kernelDraw k ∧ kernelDraw k < probabilitySum k.amplitudes (i + 1) := by
  have hlen := hr.length
  have hpos := Nat.two_pow_pos k.qubitCount
  obtain ⟨hzero,hone⟩ := rngUnit_bounds (qcpuRngNext k.rngState).1
  obtain ⟨j,hloop,hj,hbefore,hat⟩ := sampleLoop_first (kernelDraw k) (show 0 < k.amplitudes.length by omega)
  rw [hlen] at hj hat
  have hsample : (qcpuKernelSample k (some 0)).2.2 = some j := by
    rw [k.sized,List.drop_zero] at hloop
    have hloop : sampleLoop (qcpuRngUnit (qcpuRngNext k.rngState).1) k.stateCount k.amplitudes 0 (ofInt 0) = some j := by
      rw [ofInt_eq,Int.cast_zero]
      exact hloop
    unfold qcpuKernelSample
    rw [qcpuKernelReady_iff.mpr hr,if_neg (by simp)]
    simp only [QCPUKernel.withRng_stateCount,QCPUKernel.withRng_amplitudes,hloop]
  rw [norm_eq_sum hr] at hnorm
  have htotal : probabilitySum k.amplitudes (2 ^ k.qubitCount) = 1 := hnorm
  have hlt : kernelDraw k < probabilitySum k.amplitudes (j + 1) := by
    rcases hat with hlt | hlast
    · exact hlt
    · rw [hlast,htotal]
      exact hone
  have hle : probabilitySum k.amplitudes j ≤ kernelDraw k := by
    cases j with
    | zero => exact hzero
    | succ j => exact hbefore j (Nat.zero_le j) (Nat.lt_succ_self j)
  rw [hsample,Option.some.injEq]
  constructor
  · rintro rfl
    exact ⟨hj,hle,hlt⟩
  · rintro ⟨-,hi,hi'⟩
    exact index_unique hle hlt hi hi'

theorem rngOutput_bijOn : Set.BijOn rngOutput {word | word ≠ 0} {word | word ≠ 0} := by
  refine ⟨fun word _ => rngOutput_ne_zero word,fun x hx y hy h => ?_,fun word hword => ?_⟩
  · exact rngStep_bijOn.injOn hx hy (rngMultiply_bijective.1 h)
  · obtain ⟨value,rfl⟩ := rngMultiply_bijective.2 word
    have hne : value ≠ 0 := by
      rintro rfl
      exact hword (UInt64.zero_mul)
    obtain ⟨state,hstate,rfl⟩ := rngStep_bijOn.surjOn hne
    exact ⟨state,hstate,rfl⟩

theorem rngUnit_eq (word : UInt64) : (qcpuRngUnit word : ℝ) = Grids.number (2 ^ 11) (2 ^ 53) word.toNat := by
  have hshift : (word >>> 11).toNat = word.toNat / 2 ^ 11 := by
    rw [UInt64.toNat_shiftRight,show (11 : UInt64).toNat % 64 = 11 from rfl,Nat.shiftRight_eq_div_pow]
  simp only [qcpuRngUnit,mul_eq,div_eq,ofInt_eq,Int.cast_natCast,Int.cast_one,Int.cast_ofNat,hshift,Grids.number]
  rw [mul_one_div]
  norm_num

/-- The states of the generator from which a sample returns an index. -/
def outcomes (k : QCPUKernel ℝ) (i : ℕ) : Set UInt64 :=
  {state | state ≠ 0 ∧ (qcpuKernelSample (k.withRng state) (some 0)).2.2 = some i}

theorem mem_outcomes (hk : k.Sound) {i : ℕ} (hi : i < 2 ^ k.qubitCount) (state : UInt64) :
    state ∈ outcomes k i ↔ state ≠ 0 ∧ (rngOutput state).toNat ∈
      Set.Ico (Grids.bound (2 ^ 11) (2 ^ 53) (probabilitySum k.amplitudes i))
        (Grids.bound (2 ^ 11) (2 ^ 53) (probabilitySum k.amplitudes (i + 1))) := by
  have hready : (k.withRng state).Ready := ⟨hk.ready.qubits,hk.ready.states⟩
  have hnorm : qcpuKernelNorm (k.withRng state) = 1 := by
    rw [norm_eq_sum hready,← hk.norm,norm_eq_sum hk.ready]
    rfl
  have hdraw : kernelDraw (k.withRng state) = Grids.number (2 ^ 11) (2 ^ 53) (rngOutput state).toNat := rngUnit_eq _
  rw [outcomes,Set.mem_ofPred_eq,sample_interval hready hnorm,hdraw,Set.mem_Ico,
    ← Grids.number_mem_iff (by norm_num) (by norm_num)]
  exact and_congr_right fun _ => ⟨fun h => h.2,fun h => ⟨hi,h⟩⟩

theorem probabilitySum_le_one (hk : k.Sound) {i : ℕ} (hi : i ≤ 2 ^ k.qubitCount) :
    probabilitySum k.amplitudes i ≤ 1 := by
  have hnorm := hk.norm
  rw [norm_eq_sum hk.ready] at hnorm
  calc probabilitySum k.amplitudes i ≤ probabilitySum k.amplitudes (2 ^ k.qubitCount) := probabilitySum_mono _ hi
    _ = 1 := hnorm

/-- The outcomes correspond to the words of an interval. -/
theorem ncard_outcomes (hk : k.Sound) {i : ℕ} (hi : i < 2 ^ k.qubitCount) : (outcomes k i).ncard =
    (Set.Ico (Grids.bound (2 ^ 11) (2 ^ 53) (probabilitySum k.amplitudes i))
      (Grids.bound (2 ^ 11) (2 ^ 53) (probabilitySum k.amplitudes (i + 1))) \ {0}).ncard := by
  apply Set.BijOn.ncard_eq (f := fun state => (rngOutput state).toNat)
  refine ⟨fun state hstate => ?_,fun x hx y hy h => ?_,fun word hword => ?_⟩
  · have hmem := ((mem_outcomes hk hi state).mp hstate).2
    refine ⟨hmem,fun hzero => rngOutput_ne_zero state ?_⟩
    exact UInt64.toNat_inj.mp hzero
  · exact rngOutput_bijOn.injOn hx.1 hy.1 (UInt64.toNat_inj.mp h)
  · have hlt : word < 2 ^ 64 := by
      have hle := Grids.bound_mono (m := 2 ^ 11) (N := 2 ^ 53) (probabilitySum_le_one hk hi)
      have hone : Grids.bound (2 ^ 11) (2 ^ 53) 1 = 2 ^ 64 := by
        rw [Grids.bound,one_mul,Nat.ceil_natCast]
        norm_num
      exact hword.1.2.trans_le (hone ▸ hle)
    have hback : (UInt64.ofNat word).toNat = word := UInt64.toNat_ofNat_of_lt' hlt
    have hne : UInt64.ofNat word ≠ 0 := by
      intro hzero
      apply hword.2
      rw [Set.mem_singleton_iff,← hback,hzero]
      rfl
    obtain ⟨state,hstate,hout⟩ := rngOutput_bijOn.surjOn hne
    have hnat : (rngOutput state).toNat = word := by rw [hout,hback]
    exact ⟨state,(mem_outcomes hk hi state).mpr ⟨hstate,hnat ▸ hword.1⟩,hnat⟩

/-- As many states of the generator lead to an index as its probability says, up to the
resolution of a draw. -/
theorem ncard_outcomes_close (hk : k.Sound) {i : ℕ} (hi : i < 2 ^ k.qubitCount) :
    |((outcomes k i).ncard : ℝ) - 2 ^ 64 * probability k.amplitudes i| < 2 ^ 11 + 1 := by
  have hnonneg : 0 ≤ probabilitySum k.amplitudes i := by
    calc (0 : ℝ) = probabilitySum k.amplitudes 0 := (Finset.sum_range_zero _).symm
      _ ≤ probabilitySum k.amplitudes i := probabilitySum_mono _ (Nat.zero_le i)
  have hstep := probabilitySum_mono k.amplitudes (Nat.le_succ i)
  have hclose := Grids.card_words (m := 2 ^ 11) (N := 2 ^ 53) (by norm_num) hnonneg hstep
  rw [← ncard_outcomes hk hi,Nat.succ_eq_add_one,probabilitySum_succ,add_sub_cancel_left] at hclose
  norm_num at hclose ⊢
  exact hclose

end Draws

section Rule

theorem stateOf_init {allocated : Bool} {old k : QCPUKernel ℝ} {n : ℕ} {seed : UInt64}
    (hinit : qcpuKernelInit allocated old n seed = (.ok, k)) : k.qubitCount = n ∧ stateOf n k.amplitudes = ketZero n := by
  have hready := (sound_init hinit).ready
  have hvalid : 0 < n ∧ n ≤ qcpuKernelMaxQubits ∧ allocated = true := by
    unfold qcpuKernelInit at hinit
    split_ifs at hinit with hrange halloc
    · cases hinit
    · cases hinit
    all_goals exact ⟨by omega,by omega,by simpa using halloc⟩
  obtain ⟨hpos,hle,rfl⟩ := hvalid
  obtain ⟨k',hspec,-,hcount,-,-,hentry⟩ := init_spec old hpos hle seed
  rw [hspec] at hinit
  cases hinit
  rw [hcount] at hentry
  have hlen : k.amplitudes.length = 2 ^ n := by rw [hready.length,hcount]
  have hamplitudes : k.amplitudes = basisVector (2 ^ n) 0 := by
    refine ext_entry (by rw [hlen,length_basisVector]) fun j hj => ?_
    rw [hlen] at hj
    rw [hentry j hj,entry_basisVector (Nat.two_pow_pos n) hj]
  exact ⟨hcount,by rw [hamplitudes,stateOf_basisVector]⟩

/-- Over the states the generator can be in when it is asked, a sample after any run of gates
finds a basis state in the share that the state made by their unitary gives it. -/
theorem born_rule {allocated : Bool} {old k : QCPUKernel ℝ} {n : ℕ} {seed : UInt64}
    (hinit : qcpuKernelInit allocated old n seed = (.ok, k)) {gates : List GateCall} (h : ∀ g ∈ gates, g.Valid n)
    (x : Fin n → Bool) :
    |((outcomes (runCalls k (gates.map GateCall.call)) (bigEndian x)).ncard : ℝ) -
      2 ^ 64 * ‖((unitaryOf (gates.map GateCall.op) (ops_fit h)).val *ᵥ ketZero n) x‖ ^ 2| < 2 ^ 11 + 1 := by
  have hsound := sound_init hinit
  obtain ⟨hn,hzero⟩ := stateOf_init hinit
  have hrun := sound_runCalls hsound (gates.map GateCall.call)
  obtain ⟨hcount,hstate⟩ := runCalls_multiplies hsound.ready hn h
  have hclose := ncard_outcomes_close hrun (i := bigEndian x) (hcount.symm ▸ bigEndian_lt x)
  have hweight : probability (runCalls k (gates.map GateCall.call)).amplitudes (bigEndian x) =
      ‖((unitaryOf (gates.map GateCall.op) (ops_fit h)).val *ᵥ ketZero n) x‖ ^ 2 := by
    rw [← hzero,← hstate,probability,weight_stateOf]
  rw [← hweight]
  exact hclose

theorem born_rule_hadamard : ∃ k : QCPUKernel ℝ, qcpuKernelInit true QCPUKernel.cleared 1 7 = (.ok, k) ∧
    |((outcomes (runCalls k [.applyH 0]) (bigEndian fun _ : Fin 1 => true)).ncard : ℝ) - 2 ^ 63| < 2 ^ 11 + 1 := by
  obtain ⟨k,hinit,-⟩ := init_spec (QCPUKernel.cleared : QCPUKernel ℝ) (by decide : 0 < 1) (by decide) 7
  have hvalid : ∀ g ∈ [GateCall.h 0], g.Valid 1 := by
    intro g hg
    fin_cases hg
    exact ⟨by decide,by decide⟩
  have hrule := born_rule hinit hvalid fun _ => true
  have hstate : ((unitaryOf ([GateCall.h 0].map GateCall.op) (ops_fit hvalid)).val *ᵥ ketZero 1) (fun _ => true) =
      invRootTwo := by
    have hunitary : (unitaryOf ([GateCall.h 0].map GateCall.op) (ops_fit hvalid)).val = onPlace 0 hadamardGate.val :=
      Matrix.one_mul _
    have hoff : Function.update (fun _ : Fin 1 => true) 0 false = fun _ => false := by decide
    have hon : Function.update (fun _ : Fin 1 => true) 0 true ≠ fun _ => false := by decide
    rw [hunitary,onPlace_mulVec,Fintype.sum_bool,hoff,ketZero,Pi.single_eq_same,Pi.single_eq_of_ne hon,mul_zero,
      zero_add,mul_one]
    rfl
  have hhalf : ‖invRootTwo‖ ^ 2 = 1 / 2 := by
    rw [invRootTwo,Complex.norm_real,Real.norm_eq_abs,sq_abs,div_pow,sq ExactReals.rootTwo,ExactReals.rootTwo_mul_self,
      one_pow]
  rw [hstate,hhalf] at hrule
  refine ⟨k,hinit,?_⟩
  have htwo : (2 : ℝ) ^ 64 * (1 / 2) = 2 ^ 63 := by norm_num
  rw [← htwo]
  exact hrule

end Rule

end QbitNova.Quantum
