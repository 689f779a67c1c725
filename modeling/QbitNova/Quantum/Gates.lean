import QbitNova.Quantum.Kernel

/-! # What the gates do to the array

Every gate is described by the new entry at an index in terms of the old entries.
The GHZ circuit is then followed qubit by qubit: it moves the second of two marked
entries along the indices whose leading bits are set, without any arithmetic after
the Hadamard gate.
-/
namespace QbitNova.Quantum
open Sweep Scalars

section
variable {D : Type} {k k' : QCPUKernel D}

/-- A kernel that the library accepts: at least one qubit and all of its states. -/
structure QCPUKernel.Ready (k : QCPUKernel D) : Prop where
  qubits : 0 < k.qubitCount
  states : k.stateCount = 2 ^ k.qubitCount

theorem QCPUKernel.Ready.length (h : k.Ready) : k.amplitudes.length = 2 ^ k.qubitCount := k.sized.trans h.states

theorem qubitMask_eq (k : QCPUKernel D) (qubit : ℕ) : qcpuQubitMask k qubit = 2 ^ (k.qubitCount - 1 - qubit) :=
  Nat.one_shiftLeft _

/-- A successful gate changes the array only, and forgets that the state was measured. -/
structure GateFrame (k k' : QCPUKernel D) : Prop where
  qubits : k'.qubitCount = k.qubitCount
  states : k'.stateCount = k.stateCount
  rng : k'.rngState = k.rngState
  measured : k'.measured = false

theorem GateFrame.trans {k'' : QCPUKernel D} (h : GateFrame k k') (h' : GateFrame k' k'') : GateFrame k k'' :=
  ⟨h'.qubits.trans h.qubits,h'.states.trans h.states,h'.rng.trans h.rng,h'.measured⟩

theorem GateFrame.ready (h : GateFrame k k') (hr : k.Ready) : k'.Ready :=
  ⟨h.qubits ▸ hr.qubits,by rw [h.states,h.qubits,hr.states]⟩

theorem QCPUKernel.Ready.withRng (h : k.Ready) (rng : UInt64) : (k.withRng rng).Ready := ⟨h.qubits,h.states⟩

theorem qcpuKernelReady_iff : qcpuKernelReady k = true ↔ k.Ready := by
  unfold qcpuKernelReady
  rw [Nat.one_shiftLeft]
  constructor
  · intro h
    split_ifs at h with hnull
    simp only [Bool.or_eq_true,beq_iff_eq,not_or] at hnull
    exact ⟨Nat.pos_of_ne_zero hnull.2,by simpa using h⟩
  · intro h
    have hpos := Nat.two_pow_pos k.qubitCount
    have hlen := h.length
    have hqubits := h.qubits
    rw [if_neg]
    · simpa using h.states
    · simp only [Bool.or_eq_true,beq_iff_eq,List.isEmpty_iff_length_eq_zero]
      omega

variable [Scalars D]

theorem gate_frame (k : QCPUKernel D) (selected : ℕ → Bool) (mask : ℕ)
    (pair : Amplitude D → Amplitude D → Amplitude D × Amplitude D) : GateFrame k (k.gate selected mask pair) :=
  ⟨rfl,rfl,rfl,rfl⟩

/-- The entries a gate on the bit of a qubit writes. -/
theorem entry_gate (hr : k.Ready) (extra : ℕ → Bool) {selected : ℕ → Bool} {b : ℕ} (hb : b < k.qubitCount)
    (hselected : ∀ i, selected i = (extra i && !i.testBit b)) (hextra : ∀ i, extra (i ^^^ 2 ^ b) = extra i)
    (pair : Amplitude D → Amplitude D → Amplitude D × Amplitude D) {j : ℕ} (hj : j < 2 ^ k.qubitCount) :
    entry (k.gate selected (2 ^ b) pair).amplitudes j =
      if extra j = true then
        if j.testBit b = true then (pair (entry k.amplitudes (j ^^^ 2 ^ b)) (entry k.amplitudes j)).2
        else (pair (entry k.amplitudes j) (entry k.amplitudes (j ^^^ 2 ^ b))).1
      else entry k.amplitudes j := entry_bitSweep hb hselected hextra hr.length pair hj

theorem clear_eq_not_testBit (i b : ℕ) : (i &&& 2 ^ b == 0) = !i.testBit b := by
  rw [Bool.eq_iff_iff,beq_iff_eq,and_two_pow_eq_zero,Bool.not_eq_true']

theorem applyH_eq (hr : k.Ready) {qubit : ℕ} (hq : qubit < k.qubitCount) : qcpuKernelApplyH k qubit =
    (.ok, k.gate (fun index => index &&& qcpuQubitMask k qubit == 0) (qcpuQubitMask k qubit) hadamardPair) := by
  unfold qcpuKernelApplyH
  rw [qcpuKernelReady_iff.mpr hr,if_neg (by simp),if_neg (by omega)]

theorem applyX_eq (hr : k.Ready) {qubit : ℕ} (hq : qubit < k.qubitCount) : qcpuKernelApplyX k qubit =
    (.ok, k.gate (fun index => index &&& qcpuQubitMask k qubit == 0) (qcpuQubitMask k qubit)
      (fun first second => (second, first))) := by
  unfold qcpuKernelApplyX
  rw [qcpuKernelReady_iff.mpr hr,if_neg (by simp),if_neg (by omega)]

theorem applyCx_eq (hr : k.Ready) {control target : ℕ} (hc : control < k.qubitCount)
    (ht : target < k.qubitCount) (hne : control ≠ target) : qcpuKernelApplyCx k control target =
    (.ok, k.gate (fun index => !(index &&& qcpuQubitMask k control == 0 || index &&& qcpuQubitMask k target != 0))
      (qcpuQubitMask k target) (fun first second => (second, first))) := by
  unfold qcpuKernelApplyCx
  rw [qcpuKernelReady_iff.mpr hr,if_neg (by simp),if_neg (by omega)]

theorem applyH_spec (hr : k.Ready) {qubit : ℕ} (hq : qubit < k.qubitCount) :
    ∃ k', qcpuKernelApplyH k qubit = (.ok, k') ∧ GateFrame k k' ∧ k'.measuredState = k.measuredState ∧
      ∀ j < 2 ^ k.qubitCount, entry k'.amplitudes j =
        if j.testBit (k.qubitCount - 1 - qubit) = true then
          (hadamardPair (entry k.amplitudes (j ^^^ qcpuQubitMask k qubit)) (entry k.amplitudes j)).2
        else (hadamardPair (entry k.amplitudes j) (entry k.amplitudes (j ^^^ qcpuQubitMask k qubit))).1 := by
  refine ⟨_,applyH_eq hr hq,gate_frame _ _ _ _,rfl,fun j hj => ?_⟩
  rw [qubitMask_eq,entry_gate hr (fun _ => true) (by omega) (fun i => ?_) (fun _ => rfl) _ hj]
  · exact if_pos rfl
  · rw [clear_eq_not_testBit,Bool.true_and]

theorem applyX_spec (hr : k.Ready) {qubit : ℕ} (hq : qubit < k.qubitCount) :
    ∃ k', qcpuKernelApplyX k qubit = (.ok, k') ∧ GateFrame k k' ∧ k'.measuredState = k.measuredState ∧
      ∀ j < 2 ^ k.qubitCount, entry k'.amplitudes j = entry k.amplitudes (j ^^^ qcpuQubitMask k qubit) := by
  refine ⟨_,applyX_eq hr hq,gate_frame _ _ _ _,rfl,fun j hj => ?_⟩
  rw [qubitMask_eq,entry_gate hr (fun _ => true) (by omega) (fun i => ?_) (fun _ => rfl) _ hj]
  · exact (if_pos rfl).trans (ite_self _)
  · rw [clear_eq_not_testBit,Bool.true_and]

theorem applyCx_spec (hr : k.Ready) {control target : ℕ} (hc : control < k.qubitCount)
    (ht : target < k.qubitCount) (hne : control ≠ target) :
    ∃ k', qcpuKernelApplyCx k control target = (.ok, k') ∧ GateFrame k k' ∧
      k'.measuredState = k.measuredState ∧
      ∀ j < 2 ^ k.qubitCount, entry k'.amplitudes j =
        if j.testBit (k.qubitCount - 1 - control) = true then
          entry k.amplitudes (j ^^^ qcpuQubitMask k target)
        else entry k.amplitudes j := by
  refine ⟨_,applyCx_eq hr hc ht hne,gate_frame _ _ _ _,rfl,fun j hj => ?_⟩
  simp only [qubitMask_eq]
  rw [entry_gate hr (Nat.testBit · (k.qubitCount - 1 - control)) (by omega) (fun i => ?_) (fun i => ?_) _ hj]
  · exact if_congr Iff.rfl (ite_self _) rfl
  · simp only [Bool.not_or,bne,Bool.not_not,clear_eq_not_testBit]
  · exact (testBit_xor_two_pow _ _ _).trans (if_neg (by omega))

theorem entry_basisVector {n index j : ℕ} (hindex : index < n) (hj : j < n) :
    entry (basisVector n index : List (Amplitude D)) j = if j = index then .one else .zero := by
  rw [basisVector,entry_set (by rwa [List.length_replicate]),entry_replicate hj]

theorem reset_spec (hr : k.Ready) :
    ∃ k', qcpuKernelReset k = (.ok, k') ∧ GateFrame k k' ∧ k'.measuredState = 0 ∧
      ∀ j < 2 ^ k.qubitCount, entry k'.amplitudes j = if j = 0 then .one else .zero := by
  unfold qcpuKernelReset
  rw [qcpuKernelReady_iff.mpr hr,if_neg (by simp)]
  refine ⟨_,rfl,⟨rfl,rfl,rfl,rfl⟩,rfl,fun j hj => ?_⟩
  have hlen := hr.length
  exact entry_basisVector (by omega) (by omega)

/-- A kernel that could be allocated starts in the first basis state. -/
theorem init_spec (old : QCPUKernel D) {qubits : ℕ} (hpos : 0 < qubits) (hle : qubits ≤ qcpuKernelMaxQubits)
    (seed : UInt64) : ∃ k, qcpuKernelInit true old qubits seed = (.ok, k) ∧ k.Ready ∧ k.qubitCount = qubits ∧
      k.rngState ≠ 0 ∧ k.measured = false ∧
      ∀ j < 2 ^ k.qubitCount, entry k.amplitudes j = if j = 0 then .one else .zero := by
  have hready : QCPUKernel.Ready (⟨qubits, 1 <<< qubits, List.replicate (1 <<< qubits) Amplitude.zero,
      if seed = 0 then qcpuDefaultSeed else seed, false, 0, List.length_replicate⟩ : QCPUKernel D) :=
    ⟨hpos,Nat.one_shiftLeft qubits⟩
  obtain ⟨k,hreset,hframe,-,hentry⟩ := reset_spec hready
  refine ⟨k,?_,hframe.ready hready,hframe.qubits,?_,hframe.measured,hframe.qubits ▸ hentry⟩
  · unfold qcpuKernelInit
    rw [if_neg (by unfold qcpuKernelMaxQubits at hle ⊢; omega),if_neg (by simp)]
    exact hreset
  · rw [hframe.rng]
    show (if seed = 0 then qcpuDefaultSeed else seed) ≠ 0
    split_ifs with hseed
    · decide
    · exact hseed

/-- The index in which the bits of the first qubits, up to a given one, are set. -/
def leading (n qubit : ℕ) : ℕ := 2 ^ (n - 1 - qubit) * (2 ^ (qubit + 1) - 1)

theorem testBit_leading {n qubit : ℕ} (h : qubit < n) (i : ℕ) :
    (leading n qubit).testBit i = decide (n - 1 - qubit ≤ i ∧ i < n) := by
  rw [leading,Nat.testBit_two_pow_mul,Nat.testBit_two_pow_sub_one]
  by_cases hi : n - 1 - qubit ≤ i
  · simp only [ge_iff_le,hi,decide_true,Bool.true_and,true_and]
    exact decide_eq_decide.mpr (by omega)
  · simp [hi]

/-- Flipping the bit of the next qubit moves on to the next leading index. -/
theorem leading_xor {n qubit : ℕ} (h : qubit + 1 < n) :
    leading n qubit ^^^ 2 ^ (n - 1 - (qubit + 1)) = leading n (qubit + 1) := by
  refine Nat.eq_of_testBit_eq fun i => ?_
  rw [testBit_xor_two_pow,testBit_leading (by omega),testBit_leading h]
  split_ifs with hi
  · rw [← decide_not]
    exact decide_eq_decide.mpr (by omega)
  · exact decide_eq_decide.mpr (by omega)

theorem leading_lt {n qubit : ℕ} (h : qubit < n) : leading n qubit < 2 ^ n := by
  refine Nat.lt_pow_two_of_testBit _ fun i hi => ?_
  rw [testBit_leading h]
  simp only [decide_eq_false_iff_not]
  omega

theorem leading_zero (n : ℕ) : leading n 0 = 2 ^ (n - 1) := by simp [leading]

theorem leading_last {n : ℕ} (h : 0 < n) : leading n (n - 1) = 2 ^ n - 1 := by
  rw [leading,Nat.sub_self,pow_zero,one_mul,Nat.sub_add_cancel h]

/-- Two marked entries, at zero and at another index, among entries of one kind. -/
structure TwoEntries (k : QCPUKernel D) (top : ℕ) (low high : Amplitude D) (Rest : Amplitude D → Prop) : Prop where
  low : entry k.amplitudes 0 = low
  high : entry k.amplitudes top = high
  rest : ∀ j < 2 ^ k.qubitCount, j ≠ 0 → j ≠ top → Rest (entry k.amplitudes j)

/-- What the Hadamard gate leaves where both entries were zero. -/
def Vanishing (z : Amplitude D) : Prop := z = (hadamardPair .zero .zero).1 ∨ z = (hadamardPair .zero .zero).2

theorem applyH_twoEntries (hr : k.Ready)
    (hbasis : ∀ j < 2 ^ k.qubitCount, entry k.amplitudes j = if j = 0 then .one else .zero) :
    ∃ k', qcpuKernelApplyH k 0 = (.ok, k') ∧ GateFrame k k' ∧ k'.measuredState = k.measuredState ∧
      TwoEntries k' (leading k.qubitCount 0) (hadamardPair .one .zero).1 (hadamardPair .one .zero).2
        Vanishing := by
  obtain ⟨k',happly,hframe,hstate,hentry⟩ := applyH_spec hr hr.qubits
  have hpos := Nat.two_pow_pos k.qubitCount
  have hb : k.qubitCount - 1 - 0 < k.qubitCount := by have := hr.qubits; omega
  have hmask : leading k.qubitCount 0 = 2 ^ (k.qubitCount - 1 - 0) := leading_zero _
  have hmaskPos := Nat.two_pow_pos (k.qubitCount - 1 - 0)
  have hmaskLt : 2 ^ (k.qubitCount - 1 - 0) < 2 ^ k.qubitCount := Nat.pow_lt_pow_right (by decide) hb
  simp only [qubitMask_eq] at hentry
  refine ⟨k',happly,hframe,hstate,?_,?_,fun j hj hzero htop => ?_⟩
  · rw [hentry 0 hpos,Nat.zero_testBit,if_neg (by simp),hbasis 0 hpos,Nat.zero_xor,hbasis _ hmaskLt,if_pos rfl,
      if_neg (by omega)]
  · rw [hmask,hentry _ hmaskLt,Nat.testBit_two_pow_self,if_pos rfl,Nat.xor_self,hbasis 0 hpos,hbasis _ hmaskLt,
      if_pos rfl,if_neg (by omega)]
  · rw [hframe.qubits] at hj
    rw [hmask] at htop
    have hflip : j ^^^ 2 ^ (k.qubitCount - 1 - 0) ≠ 0 := fun h => htop (Nat.xor_eq_zero_iff.mp h)
    rw [hentry j hj,hbasis j hj,hbasis _ (xor_two_pow_lt hj hb),if_neg hzero,if_neg hflip]
    split
    · exact Or.inr rfl
    · exact Or.inl rfl

/-- One step of the chain moves the upper marked entry to the next leading index. -/
theorem applyCx_twoEntries (hr : k.Ready) {qubit : ℕ} (hq : qubit + 1 < k.qubitCount) {low high : Amplitude D}
    {Rest : Amplitude D → Prop} (htwo : TwoEntries k (leading k.qubitCount qubit) low high Rest) :
    ∃ k', qcpuKernelApplyCx k qubit (qubit + 1) = (.ok, k') ∧ GateFrame k k' ∧
      k'.measuredState = k.measuredState ∧ TwoEntries k' (leading k.qubitCount (qubit + 1)) low high Rest := by
  obtain ⟨k',happly,hframe,hstate,hentry⟩ := applyCx_spec hr (show qubit < k.qubitCount by omega) hq
    (Nat.ne_of_lt (Nat.lt_succ_self qubit))
  have hstep := leading_xor hq
  have hback : leading k.qubitCount (qubit + 1) ^^^ 2 ^ (k.qubitCount - 1 - (qubit + 1)) =
      leading k.qubitCount qubit := by rw [← hstep,Nat.xor_assoc,Nat.xor_self,Nat.xor_zero]
  simp only [qubitMask_eq] at hentry
  refine ⟨k',happly,hframe,hstate,?_,?_,fun j hj hzero htop => ?_⟩
  · rw [hentry 0 (Nat.two_pow_pos _),Nat.zero_testBit,if_neg (by simp)]
    exact htwo.low
  · rw [hentry _ (leading_lt hq),testBit_leading hq,if_pos (by rw [decide_eq_true_eq]; omega),hback]
    exact htwo.high
  · rw [hframe.qubits] at hj
    rw [hentry j hj]
    split_ifs with hbit
    · refine htwo.rest _ (xor_two_pow_lt hj (by omega)) (fun h => ?_) (fun h => htop ?_)
      · have hset : (j ^^^ 2 ^ (k.qubitCount - 1 - (qubit + 1))).testBit (k.qubitCount - 1 - qubit) = true := by
          rw [testBit_xor_two_pow,if_neg (by omega),hbit]
        rw [h,Nat.zero_testBit] at hset
        cases hset
      · rw [← hstep,← h,Nat.xor_assoc,Nat.xor_self,Nat.xor_zero]
    · refine htwo.rest j hj hzero (fun h => hbit ?_)
      rw [h,testBit_leading (by omega),decide_eq_true_eq]
      omega

/-- The whole chain, from any of its qubits on. -/
theorem ghzLoop_twoEntries (hr : k.Ready) {qubit remaining : ℕ} (hq : qubit + 1 + remaining = k.qubitCount)
    {low high : Amplitude D} {Rest : Amplitude D → Prop}
    (htwo : TwoEntries k (leading k.qubitCount qubit) low high Rest) :
    ∃ k', ghzLoop k (qubit + 1) remaining = (.ok, k') ∧ (k' = k ∨ GateFrame k k') ∧
      k'.measuredState = k.measuredState ∧ TwoEntries k' (2 ^ k.qubitCount - 1) low high Rest := by
  induction remaining generalizing k qubit with
  | zero =>
    have hlast : leading k.qubitCount qubit = 2 ^ k.qubitCount - 1 := by
      rw [← leading_last hr.qubits]
      congr 1
      omega
    exact ⟨k,rfl,Or.inl rfl,rfl,hlast ▸ htwo⟩
  | succ remaining ih =>
    obtain ⟨next,happly,hframe,hstate,hnext⟩ := applyCx_twoEntries hr (by omega) htwo
    have hqubits := hframe.qubits
    rw [← hqubits] at hnext
    obtain ⟨k',hloop,hsame,hmeasured,hfinal⟩ := ih (hframe.ready hr)
      (show qubit + 1 + 1 + remaining = next.qubitCount by omega) hnext
    refine ⟨k',?_,Or.inr ?_,hmeasured.trans hstate,hqubits ▸ hfinal⟩
    · rw [ghzLoop,Nat.add_sub_cancel,happly]
      exact hloop
    · rcases hsame with rfl | hsame
      · exact hframe
      · exact hframe.trans hsame

/-- The GHZ circuit succeeds on every ready kernel and leaves its two amplitudes at the
ends of the array. -/
theorem applyGhz_spec (hr : k.Ready) :
    ∃ k', qcpuKernelApplyGhz k = (.ok, k') ∧ GateFrame k k' ∧ k'.measuredState = 0 ∧
      TwoEntries k' (2 ^ k.qubitCount - 1) (hadamardPair .one .zero).1 (hadamardPair .one .zero).2
        Vanishing := by
  obtain ⟨r,hreset,hrframe,hrstate,hbasis⟩ := reset_spec hr
  have hrready := hrframe.ready hr
  rw [← hrframe.qubits] at hbasis
  obtain ⟨h,happly,hhframe,hhstate,htwo⟩ := applyH_twoEntries hrready hbasis
  have hqubits : h.qubitCount = k.qubitCount := hhframe.qubits.trans hrframe.qubits
  have hcount := hr.qubits
  rw [← hhframe.qubits] at htwo
  obtain ⟨k',hloop,hsame,hmeasured,hfinal⟩ :=
    ghzLoop_twoEntries (hhframe.ready hrready) (show 0 + 1 + (h.qubitCount - 1) = h.qubitCount by omega) htwo
  refine ⟨k',?_,?_,hmeasured.trans (hhstate.trans hrstate),hqubits ▸ hfinal⟩
  · unfold qcpuKernelApplyGhz
    rw [qcpuKernelReady_iff.mpr hr,if_neg (by simp),hreset]
    simp only [happly]
    exact hloop
  · have hframe := hrframe.trans hhframe
    rcases hsame with rfl | hsame
    · exact hframe
    · exact hframe.trans hsame

end

end QbitNova.Quantum
