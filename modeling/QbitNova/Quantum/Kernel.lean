import QbitNova.Library.Doubles
import QbitNova.Library.Sweep

/-! # The QCPU kernel

A kernel owns an array of amplitudes, a random generator and the last measurement.
Gates run as in-place loops over the array. Pointers to results are options, results
of allocations are arguments; a kernel that was cleared has no amplitudes.
-/
namespace QbitNova.Quantum
open Sweep Scalars

def qcpuKernelMaxQubits : ℕ := 20
def qcpuDefaultSeed : UInt64 := 0x9e3779b97f4a7c15

inductive QCPUStatus where
  | ok | argument | range | alloc | state
  deriving DecidableEq, Repr

/-- A `double complex`. -/
structure Amplitude (D : Type) where
  re : D
  im : D
  deriving DecidableEq

structure QCPUShotResult where
  shots : ℕ
  stateCount : ℕ
  counts : List UInt64
  deriving DecidableEq, Repr

def QCPUShotResult.cleared : QCPUShotResult := ⟨0, 0, []⟩

/-- The array always has as many entries as the kernel counts states. -/
structure QCPUKernel (D : Type) where
  qubitCount : ℕ
  stateCount : ℕ
  amplitudes : List (Amplitude D)
  rngState : UInt64
  measured : Bool
  measuredState : ℕ
  sized : amplitudes.length = stateCount

/-- `xorshift64*`: the next word and the next generator state. -/
def qcpuRngNext (rngState : UInt64) : UInt64 × UInt64 :=
  let value := if rngState = 0 then qcpuDefaultSeed else rngState
  let value := value ^^^ (value >>> 12)
  let value := value ^^^ (value <<< 25)
  let value := value ^^^ (value >>> 27)
  (value * 2685821657736338717, value)

namespace QCPUKernel
variable {D : Type}

def cleared : QCPUKernel D := ⟨0, 0, [], 0, false, 0, rfl⟩

/-- Run a loop that keeps the length of the array. -/
def transform (k : QCPUKernel D) (f : List (Amplitude D) → List (Amplitude D))
    (h : ∀ v, (f v).length = v.length) : QCPUKernel D :=
  { k with amplitudes := f k.amplitudes, sized := (h k.amplitudes).trans k.sized }

def withRng (k : QCPUKernel D) (rngState : UInt64) : QCPUKernel D := { k with rngState := rngState }

@[simp] theorem withRng_qubitCount (k : QCPUKernel D) (r : UInt64) : (k.withRng r).qubitCount = k.qubitCount := rfl
@[simp] theorem withRng_stateCount (k : QCPUKernel D) (r : UInt64) : (k.withRng r).stateCount = k.stateCount := rfl
@[simp] theorem withRng_amplitudes (k : QCPUKernel D) (r : UInt64) : (k.withRng r).amplitudes = k.amplitudes := rfl
@[simp] theorem withRng_rngState (k : QCPUKernel D) (r : UInt64) : (k.withRng r).rngState = r := rfl
@[simp] theorem withRng_withRng (k : QCPUKernel D) (r t : UInt64) : (k.withRng r).withRng t = k.withRng t := rfl

end QCPUKernel

section
variable {D : Type} [Scalars D]

def Amplitude.zero : Amplitude D := ⟨ofInt 0, ofInt 0⟩
def Amplitude.one : Amplitude D := ⟨ofInt 1, ofInt 0⟩

instance : Inhabited (Amplitude D) := ⟨Amplitude.zero⟩

def Amplitude.add (x y : Amplitude D) : Amplitude D := ⟨Scalars.add x.re y.re, Scalars.add x.im y.im⟩
def Amplitude.sub (x y : Amplitude D) : Amplitude D := ⟨Scalars.sub x.re y.re, Scalars.sub x.im y.im⟩
def Amplitude.scale (x : Amplitude D) (factor : D) : Amplitude D := ⟨mul x.re factor, mul x.im factor⟩

/-- The square of the magnitude, as the loops over the array compute it. -/
def Amplitude.weight (x : Amplitude D) : D := Scalars.add (mul x.re x.re) (mul x.im x.im)

/-- The number in the unit interval made from the upper 53 bits of a word. -/
def qcpuRngUnit (word : UInt64) : D := mul (ofInt (word >>> 11).toNat) (div (ofInt 1) (ofInt 9007199254740992))

def qcpuKernelReady (kernel : QCPUKernel D) : Bool :=
  if kernel.amplitudes.isEmpty || kernel.qubitCount == 0 then false
  else kernel.stateCount == 1 <<< kernel.qubitCount

def qcpuQubitMask (kernel : QCPUKernel D) (qubit : ℕ) : ℕ := 1 <<< (kernel.qubitCount - 1 - qubit)

/-- The first index at which the running sum exceeds the threshold, or the last index. -/
def sampleLoop (threshold : D) (stateCount : ℕ) : List (Amplitude D) → ℕ → D → Option ℕ
  | [], _, _ => none
  | amplitude :: rest, index, cumulative =>
    let cumulative := Scalars.add cumulative amplitude.weight
    if lt threshold cumulative || index + 1 == stateCount then some index
    else sampleLoop threshold stateCount rest (index + 1) cumulative

def qcpuKernelSample (kernel : QCPUKernel D) (state : Option ℕ) : QCPUStatus × QCPUKernel D × Option ℕ :=
  if !qcpuKernelReady kernel || state.isNone then (.argument, kernel, state)
  else
    let drawn := qcpuRngNext kernel.rngState
    let kernel := kernel.withRng drawn.2
    match sampleLoop (qcpuRngUnit drawn.1) kernel.stateCount kernel.amplitudes 0 (ofInt 0) with
    | some index => (.ok, kernel, some index)
    | none => (.state, kernel, state)

/-- Zero everywhere but for a one at an index. -/
def basisVector (n index : ℕ) : List (Amplitude D) := (List.replicate n Amplitude.zero).set index Amplitude.one

@[simp] theorem length_basisVector (n index : ℕ) : (basisVector n index : List (Amplitude D)).length = n := by
  simp only [basisVector,List.length_set,List.length_replicate]

def qcpuKernelReset (kernel : QCPUKernel D) : QCPUStatus × QCPUKernel D :=
  if !qcpuKernelReady kernel then (.argument, kernel)
  else
    let kernel := kernel.transform (fun v => basisVector v.length 0) (fun v => length_basisVector v.length 0)
    (.ok, { kernel with measured := false, measuredState := 0 })

/-- `old` is what the record held before. -/
def qcpuKernelInit (allocated : Bool) (old : QCPUKernel D) (qubitCount : ℕ) (seed : UInt64) :
    QCPUStatus × QCPUKernel D :=
  if qubitCount = 0 ∨ qubitCount > qcpuKernelMaxQubits ∨ qubitCount ≥ 64 then (.range, old)
  else if !allocated then (.alloc, .cleared)
  else qcpuKernelReset
    { qubitCount := qubitCount
      stateCount := 1 <<< qubitCount
      amplitudes := List.replicate (1 <<< qubitCount) Amplitude.zero
      rngState := if seed = 0 then qcpuDefaultSeed else seed
      measured := false
      measuredState := 0
      sized := List.length_replicate }

/-- The pair the Hadamard loop writes. -/
def hadamardPair (first second : Amplitude D) : Amplitude D × Amplitude D :=
  let scale := div (ofInt 1) (sqrt (ofInt 2))
  ((first.add second).scale scale, (first.sub second).scale scale)

/-- A gate: one loop over the array, after which the state counts as not measured. -/
def QCPUKernel.gate (kernel : QCPUKernel D) (selected : ℕ → Bool) (mask : ℕ)
    (pair : Amplitude D → Amplitude D → Amplitude D × Amplitude D) : QCPUKernel D :=
  { kernel.transform (fun v => pairSweep selected (· ||| mask) pair v v.length)
      (fun v => length_pairSweep _ _ _ v v.length) with measured := false }

def qcpuKernelApplyH (kernel : QCPUKernel D) (qubit : ℕ) : QCPUStatus × QCPUKernel D :=
  if !qcpuKernelReady kernel then (.argument, kernel)
  else if qubit ≥ kernel.qubitCount then (.range, kernel)
  else
    let mask := qcpuQubitMask kernel qubit
    (.ok, kernel.gate (fun index => index &&& mask == 0) mask hadamardPair)

def qcpuKernelApplyX (kernel : QCPUKernel D) (qubit : ℕ) : QCPUStatus × QCPUKernel D :=
  if !qcpuKernelReady kernel then (.argument, kernel)
  else if qubit ≥ kernel.qubitCount then (.range, kernel)
  else
    let mask := qcpuQubitMask kernel qubit
    (.ok, kernel.gate (fun index => index &&& mask == 0) mask (fun first second => (second, first)))

def qcpuKernelApplyCx (kernel : QCPUKernel D) (control target : ℕ) : QCPUStatus × QCPUKernel D :=
  if !qcpuKernelReady kernel then (.argument, kernel)
  else if control ≥ kernel.qubitCount ∨ target ≥ kernel.qubitCount ∨ control = target then (.range, kernel)
  else
    let controlMask := qcpuQubitMask kernel control
    let targetMask := qcpuQubitMask kernel target
    (.ok, kernel.gate (fun index => !(index &&& controlMask == 0 || index &&& targetMask != 0)) targetMask
      (fun first second => (second, first)))

/-- The loop that entangles each qubit with the one before it. -/
def ghzLoop (kernel : QCPUKernel D) (qubit : ℕ) : ℕ → QCPUStatus × QCPUKernel D
  | 0 => (.ok, kernel)
  | remaining + 1 =>
    match qcpuKernelApplyCx kernel (qubit - 1) qubit with
    | (.ok, kernel) => ghzLoop kernel (qubit + 1) remaining
    | failed => failed

def qcpuKernelApplyGhz (kernel : QCPUKernel D) : QCPUStatus × QCPUKernel D :=
  if !qcpuKernelReady kernel then (.argument, kernel)
  else match qcpuKernelReset kernel with
  | (.ok, kernel) =>
    match qcpuKernelApplyH kernel 0 with
    | (.ok, kernel) => ghzLoop kernel 1 (kernel.qubitCount - 1)
    | failed => failed
  | failed => failed

def qcpuKernelNorm (kernel : QCPUKernel D) : D :=
  if !qcpuKernelReady kernel then ofInt 0
  else kernel.amplitudes.foldl (fun norm amplitude => Scalars.add norm amplitude.weight) (ofInt 0)

def qcpuKernelValidate (kernel : QCPUKernel D) (tolerance : D) : QCPUStatus :=
  if !qcpuKernelReady kernel || le tolerance (ofInt 0) then .argument
  else
    let norm := qcpuKernelNorm kernel
    if !isFinite norm || lt tolerance (fabs (Scalars.sub norm (ofInt 1))) then .state else .ok

/-- Put the array into a basis state and record it as measured. -/
def QCPUKernel.collapse (kernel : QCPUKernel D) (state : ℕ) : QCPUKernel D :=
  { kernel.transform (fun v => basisVector v.length state) (fun v => length_basisVector v.length state) with
    measured := true
    measuredState := state }

@[simp] theorem QCPUKernel.collapse_stateCount (k : QCPUKernel D) (state : ℕ) :
    (k.collapse state).stateCount = k.stateCount := rfl

def qcpuKernelMeasure (kernel : QCPUKernel D) (measuredState : Option ℕ) :
    QCPUStatus × QCPUKernel D × Option ℕ :=
  if !qcpuKernelReady kernel || measuredState.isNone then (.argument, kernel, measuredState)
  else match qcpuKernelSample kernel (some 0) with
  | (.ok, kernel, some state) => (.ok, kernel.collapse state, some state)
  | (status, kernel, _) => (status, kernel, measuredState)

/-- Draw a number of samples and count them. -/
def shotLoop (kernel : QCPUKernel D) (counts : List UInt64) : ℕ → QCPUStatus × QCPUKernel D × List UInt64
  | 0 => (.ok, kernel, counts)
  | shots + 1 =>
    match qcpuKernelSample kernel (some 0) with
    | (.ok, kernel, some state) => shotLoop kernel (counts.modify state (· + 1)) shots
    | (status, kernel, _) => (status, kernel, counts)

def qcpuKernelRunShots (allocated : Bool) (kernel : QCPUKernel D) (shots : ℕ) (result : Option QCPUShotResult) :
    QCPUStatus × QCPUKernel D × Option QCPUShotResult :=
  if !qcpuKernelReady kernel || result.isNone || shots == 0 then (.argument, kernel, result)
  else if !allocated then (.alloc, kernel, some .cleared)
  else match shotLoop kernel (List.replicate kernel.stateCount 0) shots with
  | (.ok, kernel, counts) => (.ok, kernel, some ⟨shots, kernel.stateCount, counts⟩)
  | (status, kernel, _) => (status, kernel, some .cleared)

end

end QbitNova.Quantum
