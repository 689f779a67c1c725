import QbitNova.Device.Daemon
import QbitNova.Device.Norm

/-! # The adapter between the frontend and qcpud

The adapter is the backend of a frontend. What the operating system and concurrent
cancel calls do in the course of an exchange is a record of outcomes; the reply is a
function of the frame that was sent.
-/
namespace QbitNova.Adapter
open LittleEndian Frontend DeviceWire Rounding

def enoent : ℤ := 2
def econnrefused : ℤ := 111

def qcpuAdapterStatus (status : UInt16) : UInt32 :=
  if status = QCPUDeviceStatus.ok.code then statusOk
  else if status = QCPUDeviceStatus.badMagic.code then statusBadMagic
  else if status = QCPUDeviceStatus.badVersion.code then statusBadVersion
  else if status = QCPUDeviceStatus.badCommand.code then statusBadCommand
  else if status = QCPUDeviceStatus.range.code then statusRange
  else if status = QCPUDeviceStatus.kernel.code then statusKernel
  else statusIo

def qcpuAdapterStatusResult (status : UInt32) : ℤ :=
  if status = statusOk then 0
  else if status = statusBadMagic then -eproto
  else if status = statusBadVersion then -eprotonosupport
  else if status = statusBadCommand then -eopnotsupp
  else if status = statusRange then -erange
  else -eio

def qcpuAdapterFlags (flags : UInt32) : UInt32 :=
  let translated : UInt32 := 0
  let translated := if flags &&& qcpuDeviceFlagSoftwareVirtualQcpu ≠ 0 then
    translated ||| flagSoftwareVirtualQcpu else translated
  let translated := if flags &&& qcpuDeviceFlagClassicalHost ≠ 0 then
    translated ||| flagClassicalHost else translated
  let translated := if flags &&& qcpuDeviceFlagPhysicalQpuAbsent ≠ 0 then
    translated ||| flagPhysicalQpuAbsent else translated
  if flags &&& qcpuDeviceFlagQ0MostSignificant ≠ 0 then translated ||| flagQ0MostSignificant else translated

def qcpuAdapterTranslateRequest (request : Request) : Except ℤ QCPUDeviceRequest :=
  let translated : QCPUDeviceRequest :=
    { magic := qcpuDeviceRequestMagic
      version := qcpuDeviceProtocolVersion
      command := 0
      qubits := request.qubits
      shots := request.shots
      seed := request.seed }
  if request.command = qcpuUapiCommandStatus then .ok { translated with command := qcpuDeviceCommandStatus }
  else if request.command = qcpuUapiCommandRunGhz then .ok { translated with command := qcpuDeviceCommandRunGhz }
  else .error (-eopnotsupp)

/-- The result of the exchange and the response the frontend gets. -/
def qcpuAdapterTranslateResponse {bits : ℕ} (longDouble : Faithful bits) (source : QCPUDeviceResponse) :
    ℤ × Response :=
  let response : Response :=
    { magic := qcpuUapiResponseMagic
      version := qcpuUapiProtocolVersion
      status := (qcpuAdapterStatus source.status).toUInt16
      flags := qcpuAdapterFlags source.flags
      qubits := source.qubits
      basisStates := source.basisStates
      shots := source.shots
      measuredState := source.measuredState
      invalidResults := source.invalidResults }
  match qcpuMockNormToQ32_32 longDouble source.norm (some 0) with
  | (.ok (), some norm) =>
    (qcpuAdapterStatusResult response.status.toUInt32, { response with normQ32_32 := norm })
  | _ => (-eio, { response with status := statusKernel.toUInt16 })

inductive ConnectFailure where
  | timeout
  | failed (errorNumber : ℤ)
  deriving DecidableEq, Repr

/-- What happens around the code of one exchange: the adapter may be busy, the remaining
time is asked for three times, and cancel requests are noticed at three places. -/
structure ExchangeIo where
  busy : Bool
  connectRemainingMs : ℤ
  connect : Except ConnectFailure ℕ
  canceledAtRegister : Bool
  writeRemainingMs : ℤ
  write : QCPUDeviceIOStatus
  shutdownFails : Bool
  readRemainingMs : ℤ
  reply : Frame qcpuDeviceRequestWireSize → Except QCPUDeviceIOStatus (Frame qcpuDeviceResponseWireSize)
  canceledAtIo : Bool
  canceledAtFinish : Bool

def qcpuAdapterFinish (io : ExchangeIo) (result : ℤ) : ℤ := if io.canceledAtFinish then -ecanceled else result

def qcpuAdapterIoResult (io : ExchangeIo) (status : QCPUDeviceIOStatus) : ℤ :=
  if io.canceledAtIo then -ecanceled else if status = .timeout then -etimedout else -eio

def connectResult : ConnectFailure → ℤ
  | .timeout => -etimedout
  | .failed errorNumber => if errorNumber = enoent ∨ errorNumber = econnrefused then -enodev else -eio

/-- The buffers on the stack of an exchange, before it runs. -/
structure Buffers where
  requestWire : Frame qcpuDeviceRequestWireSize
  response : QCPUDeviceResponse

/-- The part of an exchange after the request was encoded. -/
def qcpuQcpudTransfer {bits : ℕ} (longDouble : Faithful bits) (io : ExchangeIo) (buffers : Buffers)
    (requestWire : Frame qcpuDeviceRequestWireSize) : ℤ × Response :=
  if io.connectRemainingMs ≤ 0 then (qcpuAdapterFinish io (-etimedout), {})
  else match io.connect with
  | .error failure => (qcpuAdapterFinish io (connectResult failure), {})
  | .ok _ =>
    if io.canceledAtRegister then (qcpuAdapterFinish io (-ecanceled), {})
    else if io.writeRemainingMs ≤ 0 then (qcpuAdapterFinish io (-etimedout), {})
    else if io.write ≠ .ok then (qcpuAdapterFinish io (qcpuAdapterIoResult io io.write), {})
    else if io.shutdownFails then (qcpuAdapterFinish io (if io.canceledAtIo then -ecanceled else -eio), {})
    else if io.readRemainingMs ≤ 0 then (qcpuAdapterFinish io (-etimedout), {})
    else match io.reply requestWire with
    | .error status => (qcpuAdapterFinish io (qcpuAdapterIoResult io status), {})
    | .ok responseWire =>
      match qcpuDeviceDecodeResponse buffers.response responseWire.val with
      | (.ok, translated) =>
        let answer := qcpuAdapterTranslateResponse longDouble translated
        (qcpuAdapterFinish io answer.1, answer.2)
      | _ => (qcpuAdapterFinish io (-eio), {})

def qcpuQcpudExchange {bits : ℕ} (longDouble : Faithful bits) (io : ExchangeIo) (buffers : Buffers)
    (request : Request) : ℤ × Response :=
  if io.busy then (-ebusy, {})
  else match qcpuAdapterTranslateRequest request with
  | .error result => (qcpuAdapterFinish io result, {})
  | .ok translated =>
    match qcpuDeviceEncodeRequest buffers.requestWire translated with
    | (.ok, requestWire) => qcpuQcpudTransfer longDouble io buffers requestWire
    | _ => (qcpuAdapterFinish io (-eio), {})

end QbitNova.Adapter
