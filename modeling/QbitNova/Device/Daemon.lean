import QbitNova.Device.Wire
import QbitNova.Quantum.Kernel

/-! # The daemon qcpud

One connection carries one request and its answer. The arithmetic of the kernel and the
way its norm is stored as a double are parameters, so are the results of allocations.
-/
namespace QbitNova.DeviceWire
open LittleEndian Quantum Scalars

inductive QCPUDeviceIOStatus where
  | ok | error | timeout | stopped
  deriving DecidableEq, Repr

def qcpuDeviceFlagSoftwareVirtualQcpu : UInt32 := (1 : UInt32) <<< (0 : UInt32)
def qcpuDeviceFlagClassicalHost : UInt32 := (1 : UInt32) <<< (1 : UInt32)
def qcpuDeviceFlagPhysicalQpuAbsent : UInt32 := (1 : UInt32) <<< (2 : UInt32)
def qcpuDeviceFlagQ0MostSignificant : UInt32 := (1 : UInt32) <<< (3 : UInt32)

def deviceFlags : UInt32 :=
  qcpuDeviceFlagSoftwareVirtualQcpu ||| qcpuDeviceFlagClassicalHost ||| qcpuDeviceFlagPhysicalQpuAbsent |||
    qcpuDeviceFlagQ0MostSignificant

def responseInit : QCPUDeviceResponse :=
  { magic := qcpuDeviceResponseMagic
    version := qcpuDeviceProtocolVersion
    status := 0
    flags := deviceFlags
    qubits := 0
    basisStates := 0
    shots := 0
    measuredState := 0
    invalidResults := 0
    norm := ⟨0⟩ }

/-- The results of the two allocations a run makes. -/
structure Allocations where
  amplitudes : Bool
  counts : Bool
  deriving DecidableEq, Repr

/-- The counts of all states but the two a GHZ state may show. -/
def invalidResults (result : QCPUShotResult) (finalState : ℕ) : UInt64 :=
  (List.range result.stateCount).foldl (fun invalid state =>
    if state ≠ 0 ∧ state ≠ finalState then invalid + result.counts.getD state 0 else invalid) 0

section
variable {D : Type} [Scalars D] (store : D → Binary64) (allocations : Allocations)

def processRunGhz (request : QCPUDeviceRequest) (response : QCPUDeviceResponse) : QCPUDeviceResponse :=
  let failed := { response with status := QCPUDeviceStatus.kernel.code }
  if request.qubits = 0 ∨ request.qubits > qcpuDeviceMaxQubits ∨ request.shots = 0 ∨
      request.shots > qcpuDeviceMaxShots then { response with status := QCPUDeviceStatus.range.code }
  else match qcpuKernelInit allocations.amplitudes (.cleared : QCPUKernel D) request.qubits.toNat request.seed with
  | (.ok, kernel) =>
    match qcpuKernelApplyGhz kernel with
    | (.ok, kernel) =>
      if qcpuKernelValidate kernel (div (ofInt 1) (ofInt 1000000000000)) ≠ .ok then failed
      else match qcpuKernelRunShots allocations.counts kernel request.shots.toNat (some .cleared) with
      | (.ok, kernel, some shotResult) =>
        let invalid := invalidResults shotResult (kernel.stateCount - 1)
        match qcpuKernelMeasure kernel (some 0) with
        | (.ok, kernel, some measuredState) =>
          { response with
            status := QCPUDeviceStatus.ok.code
            qubits := request.qubits
            basisStates := UInt64.ofNat kernel.stateCount
            shots := request.shots.toUInt64
            measuredState := UInt64.ofNat measuredState
            invalidResults := invalid
            norm := store (qcpuKernelNorm kernel) }
        | _ => failed
      | _ => failed
    | _ => failed
  | _ => failed

def processRequest (request : QCPUDeviceRequest) : QCPUDeviceResponse :=
  if request.command = qcpuDeviceCommandStatus then
    { responseInit with status := QCPUDeviceStatus.ok.code }
  else if request.command = qcpuDeviceCommandRunGhz then processRunGhz store allocations request responseInit
  else { responseInit with status := QCPUDeviceStatus.badCommand.code }

/-- The answer to the bytes of a request; the record is on the daemon's stack. -/
def answerRequest (request : QCPUDeviceRequest) (requestWire : List UInt8) : QCPUDeviceResponse :=
  match qcpuDeviceDecodeRequest request requestWire with
  | (.ok, request) => processRequest store allocations request
  | (protocolStatus, _) => { responseInit with status := protocolStatus.code }

/-- The buffers of one connection before it is served. -/
structure Connection where
  request : QCPUDeviceRequest
  responseWire : Frame qcpuDeviceResponseWireSize

/-- Serve one connection: the result and the frame handed to the socket, given what was
read and the result of writing. -/
def serveConnection (connection : Connection)
    (read : Except QCPUDeviceIOStatus (Frame qcpuDeviceRequestWireSize)) (write : QCPUDeviceIOStatus) :
    ℤ × Option (Frame qcpuDeviceResponseWireSize) :=
  match read with
  | .error _ => (-1, none)
  | .ok requestWire =>
    let response := answerRequest store allocations connection.request requestWire.val
    match qcpuDeviceEncodeResponse connection.responseWire response with
    | (.ok, responseWire) => (if write = .ok then 0 else -1, some responseWire)
    | _ => (-1, none)

end

end QbitNova.DeviceWire
