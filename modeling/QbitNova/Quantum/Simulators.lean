import QbitNova.Quantum.Circuit
import QbitNova.Quantum.Gates
import QbitNova.Quantum.State2
import QbitNova.Library.ExactReals

/-! # Four simulators, one state vector

The state-N core works on arrays of `double`, the STATE2 engine on four fixed entries.
Both, and the circuit VM, run the loops of the kernel with other index arithmetic and
other gate formulas; in exact arithmetic they compute the same vectors.
-/
namespace QbitNova.StateN
open Sweep Scalars

section
variable {D : Type} [Scalars D]

/-- A loop over the pairs of entries at bit position `p`; an array of `double` reads as
zero outside of its bounds. -/
def pairLoop (amp : List D) (n p : ℕ) (selected : ℕ → Bool) (pair : D → D → D × D) : List D :=
  @pairSweep D ⟨ofInt 0⟩ selected (· ||| 1 <<< p) pair amp (1 <<< n)

def hGate (amp : List D) (n q : ℕ) : List D :=
  let p := n - 1 - q
  let inv : D := div (ofInt 1) (sqrt (ofInt 2))
  pairLoop amp n p (fun i => !((i >>> p) &&& 1 == 1)) (fun a b => (mul (add a b) inv, mul (sub a b) inv))

def cnot (amp : List D) (n c t : ℕ) : List D :=
  let pc := n - 1 - c
  let pt := n - 1 - t
  pairLoop amp n pt (fun i => (i >>> pc) &&& 1 == 1 && !((i >>> pt) &&& 1 == 1)) (fun a b => (b, a))

/-- The loop of `main` that entangles each qubit with the next one, from a given one on. -/
def cnotChain (amp : List D) (n q : ℕ) : ℕ → List D
  | 0 => amp
  | remaining + 1 => cnotChain (cnot amp n q (q + 1)) n (q + 1) remaining

/-- The array `main` measures. -/
def ghzState (n : ℕ) : List D :=
  let amp := (List.replicate (1 <<< n) (ofInt 0)).set 0 (ofInt 1)
  cnotChain (hGate amp n 0) n 0 (n - 1)

end

end QbitNova.StateN

namespace QbitNova.Quantum
open Sweep Scalars ExactReals CircuitVM StateN State2

variable {k : QCPUKernel ℝ}

theorem bit_eq_testBit (i p : ℕ) : ((i >>> p) &&& 1 == 1) = i.testBit p := by
  rw [Nat.testBit,Nat.and_comm,Nat.one_and_eq_mod_two]
  rcases Nat.mod_two_eq_zero_or_one (i >>> p) with h | h <;> rw [h] <;> rfl

/-- The bit position of a qubit, as the circuit VM computes it in `int`. -/
theorem toNat_position (n q : ℕ) : ((n : ℤ) - 1 - (q : ℤ)).toNat = n - 1 - q := by omega

theorem bitAt_position (n q i : ℕ) : bitAt ((n : ℤ) - 1 - (q : ℤ)) i = i.testBit (n - 1 - q) := by
  rw [bitAt,toNat_position,bit_eq_testBit]

section Loops
variable {qubit : ℕ}

/-- The loop of the circuit VM on the array of a kernel is that of the kernel. -/
theorem pairLoop_eq (hr : k.Ready) (hq : qubit < k.qubitCount) {selected selected' : ℕ → Bool}
    (hselected : ∀ i, selected i = selected' i)
    {pair pair' : Amplitude ℝ → Amplitude ℝ → Amplitude ℝ × Amplitude ℝ} (hpair : ∀ x y, pair x y = pair' x y) :
    CircuitVM.pairLoop k.amplitudes k.qubitCount (k.qubitCount - 1 - qubit) selected pair =
      .ok (k.gate selected' (qcpuQubitMask k qubit) pair').amplitudes := by
  obtain rfl : selected = selected' := funext hselected
  obtain rfl : pair = pair' := funext fun x => funext (hpair x)
  have hlen : k.amplitudes.length = 2 ^ (k.qubitCount : ℤ).toNat := by rw [Int.toNat_natCast,hr.length]
  rw [pairLoop_ok hlen (by omega),toNat_position]
  rfl

theorem gSingle_eq (hr : k.Ready) (hq : qubit < k.qubitCount) {m00 m01 m10 m11 : Amplitude ℝ}
    {pair : Amplitude ℝ → Amplitude ℝ → Amplitude ℝ × Amplitude ℝ}
    (hpair : ∀ x y, ((Amplitude.mul m00 x).add (Amplitude.mul m01 y), (Amplitude.mul m10 x).add (Amplitude.mul m11 y)) =
      pair x y) :
    gSingle k.amplitudes k.qubitCount qubit m00 m01 m10 m11 =
      .ok (k.gate (fun index => index &&& qcpuQubitMask k qubit == 0) (qcpuQubitMask k qubit) pair).amplitudes := by
  rw [gSingle,if_neg (by omega)]
  refine pairLoop_eq hr hq (fun i => ?_) hpair
  rw [bitAt_position,qubitMask_eq,clear_eq_not_testBit]

theorem gH_eq (hr : k.Ready) (hq : qubit < k.qubitCount) :
    gH k.amplitudes k.qubitCount qubit = .ok (qcpuKernelApplyH k qubit).2.amplitudes := by
  rw [applyH_eq hr hq]
  refine gSingle_eq hr hq fun x y => ?_
  simp only [hadamardPair,Amplitude.mul,Amplitude.real,Amplitude.add,Amplitude.sub,Amplitude.scale,add_eq,sub_eq,
    mul_eq,div_eq,sqrt_eq,ofInt_eq,Int.cast_one,Int.cast_zero,Int.cast_neg,Int.cast_ofNat]
  congr 2 <;> ring

theorem gX_eq (hr : k.Ready) (hq : qubit < k.qubitCount) :
    gX k.amplitudes k.qubitCount qubit = .ok (qcpuKernelApplyX k qubit).2.amplitudes := by
  rw [applyX_eq hr hq]
  refine gSingle_eq hr hq fun x y => ?_
  simp [Amplitude.mul,Amplitude.add,Amplitude.zero,Amplitude.one]

theorem gCx_eq (hr : k.Ready) {control target : ℕ} (hc : control < k.qubitCount) (ht : target < k.qubitCount)
    (hne : control ≠ target) :
    gCx k.amplitudes k.qubitCount control target = .ok (qcpuKernelApplyCx k control target).2.amplitudes := by
  rw [applyCx_eq hr hc ht hne,gCx,if_neg (by omega)]
  simp only []
  rw [if_neg (by omega)]
  refine pairLoop_eq hr ht (fun i => ?_) fun _ _ => rfl
  simp only [bitAt_position,qubitMask_eq,clear_eq_not_testBit,bne,Bool.not_or,Bool.not_not]

/-- A `double` as an amplitude. -/
def embed (x : ℝ) : Amplitude ℝ := ⟨x, 0⟩

theorem embed_zero : embed (ofInt 0) = (default : Amplitude ℝ) := by
  rw [embed,ofInt_eq,Int.cast_zero]
  show _ = Amplitude.zero
  rw [Amplitude.zero,ofInt_eq,Int.cast_zero]

/-- The loop of the state-N core on real entries is that of the kernel. -/
theorem stateN_pairLoop_eq (hr : k.Ready) {v : List ℝ} (hv : k.amplitudes = v.map embed)
    {selected selected' : ℕ → Bool} (hselected : ∀ i, selected i = selected' i) {pair : ℝ → ℝ → ℝ × ℝ}
    {pair' : Amplitude ℝ → Amplitude ℝ → Amplitude ℝ × Amplitude ℝ}
    (hpair : ∀ x y, pair' (embed x) (embed y) = (embed (pair x y).1, embed (pair x y).2)) :
    (StateN.pairLoop v k.qubitCount (k.qubitCount - 1 - qubit) selected pair).map embed =
      (k.gate selected' (qcpuQubitMask k qubit) pair').amplitudes := by
  obtain rfl : selected = selected' := funext hselected
  rw [StateN.pairLoop,@map_pairSweep ℝ ⟨ofInt 0⟩ _ _ embed embed_zero _ _ hpair,← hv,Nat.one_shiftLeft k.qubitCount,
    ← hr.length]
  rfl

theorem hGate_eq (hr : k.Ready) {v : List ℝ} (hv : k.amplitudes = v.map embed) (hq : qubit < k.qubitCount) :
    (hGate v k.qubitCount qubit).map embed = (qcpuKernelApplyH k qubit).2.amplitudes := by
  rw [applyH_eq hr hq]
  refine stateN_pairLoop_eq hr hv (fun i => ?_) fun x y => ?_
  · rw [bit_eq_testBit,qubitMask_eq,clear_eq_not_testBit]
  · simp [hadamardPair,embed,Amplitude.add,Amplitude.sub,Amplitude.scale]

theorem cnot_eq (hr : k.Ready) {v : List ℝ} (hv : k.amplitudes = v.map embed) {control target : ℕ}
    (hc : control < k.qubitCount) (ht : target < k.qubitCount) (hne : control ≠ target) :
    (cnot v k.qubitCount control target).map embed = (qcpuKernelApplyCx k control target).2.amplitudes := by
  rw [applyCx_eq hr hc ht hne]
  refine stateN_pairLoop_eq hr hv (fun i => ?_) fun _ _ => rfl
  simp only [bit_eq_testBit,qubitMask_eq,clear_eq_not_testBit,bne,Bool.not_or,Bool.not_not]

end Loops

section Two
variable {s : QState2 ℝ}

/-- The four entries of the STATE2 engine as an array. -/
def vector (s : QState2 ℝ) : List (Amplitude ℝ) := (List.ofFn s.amp).map embed

theorem vector_eq (s : QState2 ℝ) :
    vector s = [embed (s.amp 0), embed (s.amp 1), embed (s.amp 2), embed (s.amp 3)] := by
  simp [vector,List.ofFn_succ]

theorem qubitMask_zero (hn : k.qubitCount = 2) : qcpuQubitMask k 0 = 2 := by
  rw [qubitMask_eq,hn]
  rfl

theorem hFirst_eq (hr : k.Ready) (hn : k.qubitCount = 2) (hs : k.amplitudes = vector s) :
    vector (qstate2HFirst s) = (qcpuKernelApplyH k 0).2.amplitudes := by
  rw [applyH_eq hr (by omega),qubitMask_zero hn]
  show _ = pairSweep _ _ _ k.amplitudes k.amplitudes.length
  rw [hs,vector_eq,vector_eq]
  simp [pairSweep,writePair,entry,qstate2HFirst,hadamardPair,embed,Amplitude.add,Amplitude.sub,Amplitude.scale,
    div_eq_mul_inv]

theorem cnotFirstToSecond_eq (hr : k.Ready) (hn : k.qubitCount = 2) (hs : k.amplitudes = vector s) :
    vector (qstate2CnotFirstToSecond s) = (qcpuKernelApplyCx k 0 1).2.amplitudes := by
  have hmask : qcpuQubitMask k 1 = 1 := by
    rw [qubitMask_eq,hn]
    rfl
  rw [applyCx_eq hr (by omega) (by omega) (by decide),qubitMask_zero hn,hmask]
  show _ = pairSweep _ _ _ k.amplitudes k.amplitudes.length
  rw [hs,vector_eq,vector_eq]
  simp [pairSweep,writePair,entry,qstate2CnotFirstToSecond]

end Two

section Ghz
variable {k' : QCPUKernel ℝ}

theorem applyCx_ready (hr : k.Ready) {qubit : ℕ} (hq : qubit + 1 < k.qubitCount) :
    (qcpuKernelApplyCx k qubit (qubit + 1)).1 = .ok ∧
      GateFrame k (qcpuKernelApplyCx k qubit (qubit + 1)).2 := by
  obtain ⟨k',happly,hframe,-⟩ := applyCx_spec hr (show qubit < k.qubitCount by omega) hq (by omega)
  rw [happly]
  exact ⟨rfl,hframe⟩

/-- The two chains run along with the loop of the kernel. -/
theorem chains_eq (phase : Amplitude ℝ) (hr : k.Ready) {qubit remaining : ℕ}
    (hq : qubit + 1 + remaining = k.qubitCount) {v : List ℝ} (hv : k.amplitudes = v.map embed) :
    (chainOps qubit remaining).foldlM (applyOp phase k.qubitCount) k.amplitudes =
        .ok (ghzLoop k (qubit + 1) remaining).2.amplitudes ∧
      (cnotChain v k.qubitCount qubit remaining).map embed = (ghzLoop k (qubit + 1) remaining).2.amplitudes := by
  induction remaining generalizing k qubit v with
  | zero => exact ⟨rfl,hv.symm⟩
  | succ remaining ih =>
    obtain ⟨hok,hframe⟩ := applyCx_ready hr (show qubit + 1 < k.qubitCount by omega)
    have hcx := gCx_eq hr (show qubit < k.qubitCount by omega) (show qubit + 1 < k.qubitCount by omega) (by omega)
    have hcnot := cnot_eq hr hv (show qubit < k.qubitCount by omega) (show qubit + 1 < k.qubitCount by omega)
      (by omega)
    have hloop : ghzLoop k (qubit + 1) (remaining + 1) =
        ghzLoop (qcpuKernelApplyCx k qubit (qubit + 1)).2 (qubit + 1 + 1) remaining := by
      rw [ghzLoop,Nat.add_sub_cancel,← Prod.mk.eta (p := qcpuKernelApplyCx k qubit (qubit + 1)),hok]
    obtain ⟨hchain,hcells⟩ := ih (hframe.ready hr)
      (show qubit + 1 + 1 + remaining = _ by rw [hframe.qubits]; omega) hcnot.symm
    rw [hframe.qubits] at hchain hcells
    rw [hloop,chainOps,cnotChain,List.foldlM_cons]
    refine ⟨?_,hcells⟩
    rw [applyOp]
    push_cast at hcx hchain
    rw [hcx]
    exact hchain

theorem basisVector_eq_map (n : ℕ) : (basisVector n 0 : List (Amplitude ℝ)) =
    ((List.replicate n (ofInt 0)).set 0 (ofInt 1)).map embed := by
  rw [List.map_set,List.map_replicate,basisVector]
  simp [embed,Amplitude.zero,Amplitude.one]

/-- The macro of the circuit VM and the chain of the state-N core build the GHZ state of the kernel. -/
theorem ghz_eq (phase : Amplitude ℝ) (hr : k.Ready) :
    ((⟨.h, 0, 0⟩ :: chainOps 0 (k.qubitCount - 1)).foldlM (applyOp phase k.qubitCount)
        (basisVector (1 <<< k.qubitCount) 0) = .ok (qcpuKernelApplyGhz k).2.amplitudes) ∧
      (ghzState k.qubitCount).map embed = (qcpuKernelApplyGhz k).2.amplitudes := by
  obtain ⟨r,hreset,hrframe,-⟩ := reset_spec hr
  have hrready := hrframe.ready hr
  have hramp : r.amplitudes = basisVector (1 <<< k.qubitCount) 0 := by
    unfold qcpuKernelReset at hreset
    rw [qcpuKernelReady_iff.mpr hr,if_neg (by simp)] at hreset
    cases hreset
    rw [Nat.one_shiftLeft,← hr.length]
    rfl
  have hq : 0 < r.qubitCount := hrready.qubits
  have hh := applyH_eq hrready hq
  have hghz : qcpuKernelApplyGhz k = ghzLoop (qcpuKernelApplyH r 0).2 1 (k.qubitCount - 1) := by
    unfold qcpuKernelApplyGhz
    rw [qcpuKernelReady_iff.mpr hr,if_neg (by simp),hreset]
    simp only [hh]
    rw [← hrframe.qubits]
    rfl
  have hhframe : GateFrame r (qcpuKernelApplyH r 0).2 := by
    rw [hh]
    exact gate_frame _ _ _ _
  have hcells := hGate_eq hrready (hramp.trans (basisVector_eq_map _)) hq
  have hqubits : (qcpuKernelApplyH r 0).2.qubitCount = k.qubitCount := hhframe.qubits.trans hrframe.qubits
  obtain ⟨hchain,hcnots⟩ := chains_eq phase (hhframe.ready hrready)
    (show 0 + 1 + (k.qubitCount - 1) = _ by rw [hqubits]; have := hr.qubits; omega) hcells.symm
  rw [hqubits,hrframe.qubits] at hcnots
  rw [hqubits] at hchain
  rw [hghz]
  refine ⟨?_,hcnots⟩
  rw [List.foldlM_cons,applyOp,← hramp,← hrframe.qubits]
  have hgh := gH_eq hrready hq
  push_cast at hgh hchain
  rw [hgh]
  rw [← hrframe.qubits] at hchain
  exact hchain

end Ghz

/-- On the array of any ready kernel, hence on any vector, the gates of the circuit VM,
of the state-N core and of the STATE2 engine do what those of the kernel do, and the
three ways to a GHZ state end in the same vector. -/
theorem simulators_agree (hr : k.Ready) :
    (∀ q < k.qubitCount,
      (qcpuKernelApplyH k q).1 = .ok ∧ (qcpuKernelApplyX k q).1 = .ok ∧
      gH k.amplitudes k.qubitCount q = .ok (qcpuKernelApplyH k q).2.amplitudes ∧
      gX k.amplitudes k.qubitCount q = .ok (qcpuKernelApplyX k q).2.amplitudes) ∧
    (∀ c < k.qubitCount, ∀ t < k.qubitCount, c ≠ t →
      (qcpuKernelApplyCx k c t).1 = .ok ∧
      gCx k.amplitudes k.qubitCount c t = .ok (qcpuKernelApplyCx k c t).2.amplitudes) ∧
    (∀ v : List ℝ, k.amplitudes = v.map embed →
      (∀ q < k.qubitCount, (hGate v k.qubitCount q).map embed = (qcpuKernelApplyH k q).2.amplitudes) ∧
      (∀ c < k.qubitCount, ∀ t < k.qubitCount, c ≠ t →
        (cnot v k.qubitCount c t).map embed = (qcpuKernelApplyCx k c t).2.amplitudes)) ∧
    (∀ s : QState2 ℝ, k.qubitCount = 2 → k.amplitudes = vector s →
      vector (qstate2HFirst s) = (qcpuKernelApplyH k 0).2.amplitudes ∧
      vector (qstate2CnotFirstToSecond s) = (qcpuKernelApplyCx k 0 1).2.amplitudes) ∧
    (2 ≤ k.qubitCount →
      (k.qubitCount ≤ maxOps → ∃ c, addGhz { nq := k.qubitCount } = .ok c) ∧
      (∀ c phase, addGhz { nq := k.qubitCount } = .ok c →
        simulate phase true c = .ok (qcpuKernelApplyGhz k).2.amplitudes) ∧
      (ghzState k.qubitCount).map embed = (qcpuKernelApplyGhz k).2.amplitudes) := by
  refine ⟨fun q hq => ?_,fun c hc t ht hne => ?_,fun v hv => ⟨?_,?_⟩,fun s hn hs => ?_,fun htwo => ⟨?_,?_,?_⟩⟩
  · exact ⟨by rw [applyH_eq hr hq],by rw [applyX_eq hr hq],gH_eq hr hq,gX_eq hr hq⟩
  · exact ⟨by rw [applyCx_eq hr hc ht hne],gCx_eq hr hc ht hne⟩
  · exact fun q hq => hGate_eq hr hv hq
  · exact fun c hc t ht hne => cnot_eq hr hv hc ht hne
  · exact ⟨hFirst_eq hr hn hs,cnotFirstToSecond_eq hr hn hs⟩
  · exact fun hroom => addGhz_ok rfl htwo (by simpa using hroom)
  · intro c phase hghz
    obtain ⟨-,rfl⟩ := addGhz_eq hghz
    rw [simulate,if_neg (by simp),if_neg (by simp)]
    have hcount : ((k.qubitCount : ℤ) - 1).toNat = k.qubitCount - 1 := by omega
    simp only [List.nil_append,hcount,Int.toNat_natCast]
    exact (ghz_eq phase hr).1
  · exact (ghz_eq .zero hr).2

theorem simulators_agree_three : ∃ k : QCPUKernel ℝ, qcpuKernelInit true .cleared 3 1 = (.ok, k) ∧
    gH k.amplitudes k.qubitCount (2 : ℕ) = .ok (qcpuKernelApplyH k 2).2.amplitudes := by
  obtain ⟨k,hinit,hready,hqubits,-⟩ := init_spec (QCPUKernel.cleared : QCPUKernel ℝ) (by decide : 0 < 3) (by decide) 1
  exact ⟨k,hinit,((simulators_agree hready).1 2 (by omega)).2.2.1⟩

end QbitNova.Quantum
