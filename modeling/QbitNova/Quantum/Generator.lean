import QbitNova.Quantum.KernelRuns

/-! # The generator of a kernel

One step of the generator is three shifts that each keep all information, so that non-zero words
are only permuted, and so does the product that makes a word of the output. Calls of any kind
move the generator by a number of draws and in no other way.
-/
namespace QbitNova.Quantum
open Generators

/-- The part of a draw that replaces the state, and the part that makes the output. -/
def rngStep (state : UInt64) : UInt64 := (qcpuRngNext state).2

def rngOutput (state : UInt64) : UInt64 := (qcpuRngNext state).1

/-- The factor of the output. -/
def rngMultiply (value : UInt64) : UInt64 := value * 2685821657736338717

theorem rngOutput_eq (state : UInt64) : rngOutput state = rngMultiply (rngStep state) := rfl

theorem rngMultiply_bijective : Function.Bijective rngMultiply := mul_odd_bijective (by decide)

/-- Away from zero a step is the three shifts alone. -/
theorem rngStep_eq {word : UInt64} (h : word ≠ 0) : rngStep word = xorRight 27 (xorLeft 25 (xorRight 12 word)) := by
  unfold rngStep qcpuRngNext
  rw [if_neg h]
  rfl

theorem rngStep_bijOn : Set.BijOn rngStep {word | word ≠ 0} {word | word ≠ 0} := by
  have hshifts : Function.Bijective (fun word => xorRight 27 (xorLeft 25 (xorRight 12 word))) :=
    (xorRight_bijective (by decide)).comp ((xorLeft_bijective (by decide)).comp (xorRight_bijective (by decide)))
  refine ⟨fun word _ => rngNext_ne_zero word,?_,?_⟩
  · intro x hx y hy h
    rw [rngStep_eq hx,rngStep_eq hy] at h
    exact hshifts.1 h
  · intro word hword
    obtain ⟨source,hsource⟩ := hshifts.2 word
    have hne : source ≠ 0 := by
      rintro rfl
      exact hword hsource.symm
    exact ⟨source,hne,(rngStep_eq hne).trans hsource⟩

/-- Any number of steps permutes the non-zero words. -/
theorem rngAfter_bijOn (draws : ℕ) : Set.BijOn (fun state => rngAfter state draws) {word | word ≠ 0} {word | word ≠ 0} :=
  rngStep_bijOn.iterate draws

theorem rngOutput_ne_zero (state : UInt64) : rngOutput state ≠ 0 := by
  intro h
  exact rngNext_ne_zero state (rngMultiply_bijective.1 (h.trans (UInt64.zero_mul).symm))

theorem rngAfter_add (state : UInt64) (a b : ℕ) : rngAfter (rngAfter state a) b = rngAfter state (a + b) := by
  unfold rngAfter
  rw [Nat.add_comm,Function.iterate_add_apply]

section
variable {D : Type}

/-- The generator of one kernel is that of another after a number of draws. -/
def DrawsTo (k k' : QCPUKernel D) : Prop := ∃ draws, k'.rngState = rngAfter k.rngState draws

theorem DrawsTo.refl {k k' : QCPUKernel D} (h : k'.rngState = k.rngState) : DrawsTo k k' := ⟨0,h⟩

theorem DrawsTo.trans {k k' k'' : QCPUKernel D} (h : DrawsTo k k') (h' : DrawsTo k' k'') : DrawsTo k k'' := by
  obtain ⟨a,ha⟩ := h
  obtain ⟨b,hb⟩ := h'
  exact ⟨a + b,by rw [hb,ha,rngAfter_add]⟩

/-- Draws never end at zero. -/
theorem DrawsTo.ne_zero {k k' : QCPUKernel D} (h : DrawsTo k k') (hk : k.rngState ≠ 0) : k'.rngState ≠ 0 := by
  obtain ⟨draws,hdraws⟩ := h
  rw [hdraws]
  exact (rngAfter_bijOn draws).mapsTo hk

variable [Scalars D]

theorem drawsTo_reset (k : QCPUKernel D) : DrawsTo k (qcpuKernelReset k).2 := by
  unfold qcpuKernelReset
  split_ifs <;> exact DrawsTo.refl rfl

theorem drawsTo_applyH (k : QCPUKernel D) (qubit : ℕ) : DrawsTo k (qcpuKernelApplyH k qubit).2 := by
  unfold qcpuKernelApplyH
  split_ifs <;> exact DrawsTo.refl rfl

theorem drawsTo_applyX (k : QCPUKernel D) (qubit : ℕ) : DrawsTo k (qcpuKernelApplyX k qubit).2 := by
  unfold qcpuKernelApplyX
  split_ifs <;> exact DrawsTo.refl rfl

theorem drawsTo_applyCx (k : QCPUKernel D) (control target : ℕ) : DrawsTo k (qcpuKernelApplyCx k control target).2 := by
  unfold qcpuKernelApplyCx
  split_ifs <;> exact DrawsTo.refl rfl

theorem drawsTo_ghzLoop (k : QCPUKernel D) (qubit remaining : ℕ) : DrawsTo k (ghzLoop k qubit remaining).2 := by
  induction remaining generalizing k qubit with
  | zero => exact DrawsTo.refl rfl
  | succ remaining ih =>
    have hgate := drawsTo_applyCx k (qubit - 1) qubit
    unfold ghzLoop
    split
    · next kernel he =>
      rw [he] at hgate
      exact hgate.trans (ih kernel (qubit + 1))
    · exact hgate

theorem drawsTo_applyGhz (k : QCPUKernel D) : DrawsTo k (qcpuKernelApplyGhz k).2 := by
  have hreset := drawsTo_reset k
  unfold qcpuKernelApplyGhz
  split_ifs
  · exact DrawsTo.refl rfl
  · split
    · next reset he =>
      rw [he] at hreset
      have hgate := drawsTo_applyH reset 0
      split
      · next mixed he' =>
        rw [he'] at hgate
        exact hreset.trans (hgate.trans (drawsTo_ghzLoop mixed 1 _))
      · exact hreset.trans hgate
    · exact hreset

theorem drawsTo_sample (k : QCPUKernel D) (state : Option ℕ) : DrawsTo k (qcpuKernelSample k state).2.1 := by
  unfold qcpuKernelSample
  split_ifs
  · exact DrawsTo.refl rfl
  · dsimp only
    split <;> exact ⟨1,rfl⟩

theorem drawsTo_measure (k : QCPUKernel D) (measuredState : Option ℕ) :
    DrawsTo k (qcpuKernelMeasure k measuredState).2.1 := by
  have hsample := drawsTo_sample k (some 0)
  unfold qcpuKernelMeasure
  split_ifs
  · exact DrawsTo.refl rfl
  · split
    · next he =>
      rw [he] at hsample
      exact hsample
    · next he =>
      rw [he] at hsample
      exact hsample

theorem drawsTo_shotLoop (k : QCPUKernel D) (counts : List UInt64) (shots : ℕ) :
    DrawsTo k (shotLoop k counts shots).2.1 := by
  induction shots generalizing k counts with
  | zero => exact DrawsTo.refl rfl
  | succ shots ih =>
    have hsample := drawsTo_sample k (some 0)
    unfold shotLoop
    split
    · next he =>
      rw [he] at hsample
      exact hsample.trans (ih _ _)
    · next he =>
      rw [he] at hsample
      exact hsample

theorem drawsTo_runShots (allocated : Bool) (k : QCPUKernel D) (shots : ℕ) (result : Option QCPUShotResult) :
    DrawsTo k (qcpuKernelRunShots allocated k shots result).2.1 := by
  have hloop := drawsTo_shotLoop k (List.replicate k.stateCount 0) shots
  unfold qcpuKernelRunShots
  split_ifs
  · exact DrawsTo.refl rfl
  · exact DrawsTo.refl rfl
  · split
    · next he =>
      rw [he] at hloop
      exact hloop
    · next he =>
      rw [he] at hloop
      exact hloop

/-- Whatever a call does, it only draws from the generator. -/
theorem drawsTo_perform (k : QCPUKernel D) (call : KernelCall) : DrawsTo k (call.perform k).2 := by
  cases call with
  | reset => exact drawsTo_reset k
  | applyH qubit => exact drawsTo_applyH k qubit
  | applyX qubit => exact drawsTo_applyX k qubit
  | applyCx control target => exact drawsTo_applyCx k control target
  | applyGhz => exact drawsTo_applyGhz k
  | measure measuredState => exact drawsTo_measure k measuredState
  | runShots allocated shots result => exact drawsTo_runShots allocated k shots result

theorem drawsTo_runCalls (k : QCPUKernel D) (calls : List KernelCall) : DrawsTo k (runCalls k calls) := by
  induction calls generalizing k with
  | nil => exact DrawsTo.refl rfl
  | cons call calls ih => exact (drawsTo_perform k call).trans (ih _)

/-- Init never leaves a zero in the generator. -/
theorem init_rng {allocated : Bool} {old k : QCPUKernel D} {qubits : ℕ} {seed : UInt64}
    (h : qcpuKernelInit allocated old qubits seed = (.ok, k)) : k.rngState ≠ 0 := by
  unfold qcpuKernelInit at h
  split_ifs at h with hrange halloc hzero
  · cases h
  · cases h
  · have hreset : (qcpuKernelReset _).2 = k := congrArg Prod.snd h
    rw [← hreset]
    exact (drawsTo_reset _).ne_zero (show qcpuDefaultSeed ≠ 0 by decide)
  · have hreset : (qcpuKernelReset _).2 = k := congrArg Prod.snd h
    rw [← hreset]
    exact (drawsTo_reset _).ne_zero hzero

/-- The step permutes the non-zero words and the product permutes all words. After init and any
calls and draws the state is not zero, so that the fallback is never taken, and no output is zero;
kernels with different non-zero states stay apart in state and output. -/
theorem generator_permutes {allocated : Bool} {old k : QCPUKernel D} {qubits : ℕ} {seed : UInt64}
    (hinit : qcpuKernelInit allocated old qubits seed = (.ok, k)) (calls : List KernelCall)
    (first second : QCPUKernel D) (hfirst : first.rngState ≠ 0) (hsecond : second.rngState ≠ 0)
    (hne : first.rngState ≠ second.rngState) (draws : ℕ) :
    Set.BijOn rngStep {word | word ≠ 0} {word | word ≠ 0} ∧ Function.Bijective rngMultiply ∧
    (∀ state, rngOutput state = rngMultiply (rngStep state)) ∧
    rngAfter (runCalls k calls).rngState draws ≠ 0 ∧
    rngOutput (rngAfter (runCalls k calls).rngState draws) ≠ 0 ∧
    rngAfter first.rngState draws ≠ rngAfter second.rngState draws ∧
    rngOutput (rngAfter first.rngState draws) ≠ rngOutput (rngAfter second.rngState draws) := by
  have hrun := (drawsTo_runCalls k calls).ne_zero (init_rng hinit)
  have hapart : rngAfter first.rngState draws ≠ rngAfter second.rngState draws :=
    fun h => hne ((rngAfter_bijOn draws).injOn hfirst hsecond h)
  refine ⟨rngStep_bijOn,rngMultiply_bijective,rngOutput_eq,(rngAfter_bijOn draws).mapsTo hrun,rngOutput_ne_zero _,hapart,?_⟩
  intro h
  have hstep := rngMultiply_bijective.1 h
  exact hapart (rngStep_bijOn.injOn ((rngAfter_bijOn draws).mapsTo hfirst) ((rngAfter_bijOn draws).mapsTo hsecond) hstep)

end

theorem generator_permutes_measured : ∃ k : QCPUKernel ℝ, qcpuKernelInit true .cleared 2 0 = (.ok, k) ∧
    rngAfter (runCalls k [.applyH 0, .measure (some 0)]).rngState 5 ≠ 0 ∧
    rngOutput (rngAfter 7 5) ≠ rngOutput (rngAfter 11 5) := by
  obtain ⟨k,hinit,-⟩ := init_spec (QCPUKernel.cleared : QCPUKernel ℝ) (by decide : 0 < 2) (by decide) 0
  obtain ⟨-,-,-,hstate,-,-,houtput⟩ := generator_permutes hinit [.applyH 0, .measure (some 0)]
    (QCPUKernel.cleared.withRng 7) (QCPUKernel.cleared.withRng 11) (show (7 : UInt64) ≠ 0 by decide)
    (show (11 : UInt64) ≠ 0 by decide) (show (7 : UInt64) ≠ 11 by decide) 5
  exact ⟨k,hinit,hstate,houtput⟩

end QbitNova.Quantum
