import QbitNova.Device.Adapter
import QbitNova.Library.Transition
import Mathlib.Logic.Function.Basic

/-! # One adapter shared by exchanges, cancels and unrelated threads

Each event is one critical section of the adapter mutex or one step outside of it: a
system call, or the code between two of them. Descriptors are numbers the kernel hands
out; a free number may go to any thread. What the operating system answers is chosen by
the event, hence every schedule is covered.
-/
namespace QbitNova.AdapterSystem
open Adapter LittleEndian Frontend DeviceWire Rounding

structure QcpuQcpudAdapter where
  activeFd : ℤ := -1
  active : Bool := false
  cancelRequested : Bool := false
  deriving DecidableEq, Repr

namespace QcpuQcpudAdapter
variable (adapter : QcpuQcpudAdapter)

def begin : ℤ × QcpuQcpudAdapter :=
  if adapter.active then (-ebusy, adapter)
  else (0, { activeFd := -1, active := true, cancelRequested := false })

/-- The descriptor is published; if cancellation was asked for before, it is shut down. -/
def registerFd (fd : ℕ) : Bool × Option ℕ × QcpuQcpudAdapter :=
  (adapter.cancelRequested, if adapter.cancelRequested then some fd else none, { adapter with activeFd := fd })

/-- Whether the exchange was canceled; the descriptor is closed after this section. -/
def finish : Bool × QcpuQcpudAdapter :=
  (adapter.cancelRequested, { activeFd := -1, active := false, cancelRequested := false })

/-- The descriptor that is shut down, and the adapter afterwards. -/
def cancel : Option ℕ × QcpuQcpudAdapter :=
  if adapter.active then
    (if adapter.activeFd ≥ 0 then some adapter.activeFd.toNat else none, { adapter with cancelRequested := true })
  else (none, adapter)

/-- The result after a failed transfer, from the answer of `qcpu_adapter_is_canceled`. -/
def ioResult (status : QCPUDeviceIOStatus) : ℤ :=
  if adapter.cancelRequested then -ecanceled else if status = .timeout then -etimedout else -eio

end QcpuQcpudAdapter

inductive Owner where
  | other
  | exchange (call : ℕ)
  deriving DecidableEq, Repr

abbrev RequestWire := Frame qcpuDeviceRequestWireSize
abbrev ResponseWire := Frame qcpuDeviceResponseWireSize

def zeroWire : RequestWire := ⟨List.replicate 24 0, rfl⟩

/-- Where an exchange stands between two steps, with the locals that are still needed. -/
inductive Phase where
  | idle
  | entered (request : Request)
  | prepare (request : Request)
  | connect (wire : RequestWire)
  | connecting (wire : RequestWire) (fd : ℕ)
  | register (wire : RequestWire) (fd : ℕ)
  | write (wire : RequestWire) (fd : ℕ)
  | shutdown (fd : ℕ)
  | read (fd : ℕ)
  | ioFailed (fd : ℕ) (status : QCPUDeviceIOStatus)
  | shutdownFailed (fd : ℕ)
  | finish (fd : Option ℕ) (result : ℤ) (response : Response)
  | close (fd : ℕ) (result : ℤ) (response : Response)
  | returned (result : ℤ) (response : Response)

inductive Section where
  | began (call : ℕ)
  | refused (call : ℕ)
  | registered (call : ℕ)
  | asked (call : ℕ)
  | finished (call : ℕ)
  | canceled
  deriving DecidableEq, Repr

/-- The connected and the closed descriptors are kept with the exchange they were for. -/
structure System where
  adapter : QcpuQcpudAdapter
  fds : ℕ → Option Owner
  phase : ℕ → Phase
  sections : List Section
  connects : List (ℕ × ℕ)
  closes : List (ℕ × ℕ)

def System.initial (others : ℕ → Bool) : System :=
  { adapter := {}
    fds := fun fd => if others fd then some .other else none
    phase := fun _ => .idle
    sections := []
    connects := []
    closes := [] }

def System.goto (s : System) (call : ℕ) (phase : Phase) : System :=
  { s with phase := Function.update s.phase call phase }

inductive Event where
  | call (call : ℕ) (request : Option Request)
  | begin (call : ℕ)
  | prepare (call : ℕ) (buffer : RequestWire) (remainingMs : ℤ)
  | connectFailed (call : ℕ) (failure : ConnectFailure)
  | socket (call fd : ℕ)
  | connected (call : ℕ)
  | registerFd (call : ℕ)
  | written (call : ℕ) (remainingMs : ℤ) (status : QCPUDeviceIOStatus)
  | shutdown (call : ℕ) (fails : Bool)
  | received (call : ℕ) (remainingMs : ℤ) (outcome : Except QCPUDeviceIOStatus ResponseWire)
      (buffer : QCPUDeviceResponse)
  | isCanceled (call : ℕ)
  | finish (call : ℕ)
  | close (call : ℕ)
  | cancel
  | openOther (fd : ℕ)
  | closeOther (fd : ℕ)

def preparePhase (request : Request) (buffer : RequestWire) (remainingMs : ℤ) : Phase :=
  match qcpuAdapterTranslateRequest request with
  | .error result => .finish none result {}
  | .ok translated =>
    match qcpuDeviceEncodeRequest buffer translated with
    | (.ok, wire) => if remainingMs ≤ 0 then .finish none (-etimedout) {} else .connect wire
    | _ => .finish none (-eio) {}

def decodePhase {bits : ℕ} (longDouble : Faithful bits) (fd : ℕ) (buffer : QCPUDeviceResponse)
    (wire : ResponseWire) : Phase :=
  match qcpuDeviceDecodeResponse buffer wire.val with
  | (.ok, translated) =>
    let answer := qcpuAdapterTranslateResponse longDouble translated
    .finish (some fd) answer.1 answer.2
  | _ => .finish (some fd) (-eio) {}

/-- What is left to do after `finish`: a descriptor is closed outside of the mutex. -/
def leavePhase (fd : Option ℕ) (result : ℤ) (response : Response) : Phase :=
  match fd with
  | some fd => .close fd result response
  | none => .returned result response

section
variable {bits : ℕ} (longDouble : Faithful bits)

def step (s : System) : Event → Option System
  | .call call request =>
    match s.phase call, request with
    | .idle, none => some (s.goto call (.returned (-einval) {}))
    | .idle, some request => some (s.goto call (.entered request))
    | _, _ => none
  | .begin call =>
    match s.phase call with
    | .entered request =>
      let (result, adapter) := s.adapter.begin
      if result ≠ 0 then
        some { s.goto call (.returned result {}) with adapter := adapter, sections := .refused call :: s.sections }
      else
        some { s.goto call (.prepare request) with adapter := adapter, sections := .began call :: s.sections }
    | _ => none
  | .prepare call buffer remainingMs =>
    match s.phase call with
    | .prepare request => some (s.goto call (preparePhase request buffer remainingMs))
    | _ => none
  | .connectFailed call failure =>
    match s.phase call with
    | .connect _ => some (s.goto call (.finish none (connectResult failure) {}))
    | .connecting _ fd =>
      some { s.goto call (.finish none (connectResult failure) {}) with fds := Function.update s.fds fd none }
    | _ => none
  | .socket call fd =>
    match s.phase call, s.fds fd with
    | .connect wire, none =>
      some { s.goto call (.connecting wire fd) with fds := Function.update s.fds fd (some (.exchange call)) }
    | _, _ => none
  | .connected call =>
    match s.phase call with
    | .connecting wire fd => some { s.goto call (.register wire fd) with connects := (call, fd) :: s.connects }
    | _ => none
  | .registerFd call =>
    match s.phase call with
    | .register wire fd =>
      let (canceled, _, adapter) := s.adapter.registerFd fd
      some { s.goto call (if canceled then .finish (some fd) (-ecanceled) {} else .write wire fd) with
        adapter := adapter
        sections := .registered call :: s.sections }
    | _ => none
  | .written call remainingMs status =>
    match s.phase call with
    | .write _ fd =>
      some (s.goto call (if remainingMs ≤ 0 then .finish (some fd) (-etimedout) {}
        else if status ≠ .ok then .ioFailed fd status
        else .shutdown fd))
    | _ => none
  | .shutdown call fails =>
    match s.phase call with
    | .shutdown fd => some (s.goto call (if fails then .shutdownFailed fd else .read fd))
    | _ => none
  | .received call remainingMs outcome buffer =>
    match s.phase call with
    | .read fd =>
      some (s.goto call (if remainingMs ≤ 0 then .finish (some fd) (-etimedout) {}
        else match outcome with
        | .error status => .ioFailed fd status
        | .ok wire => decodePhase longDouble fd buffer wire))
    | _ => none
  | .isCanceled call =>
    match s.phase call with
    | .ioFailed fd status =>
      some { s.goto call (.finish (some fd) (s.adapter.ioResult status) {}) with
        sections := .asked call :: s.sections }
    | .shutdownFailed fd =>
      some { s.goto call (.finish (some fd) (if s.adapter.cancelRequested then -ecanceled else -eio) {}) with
        sections := .asked call :: s.sections }
    | _ => none
  | .finish call =>
    match s.phase call with
    | .finish fd result response =>
      let (canceled, adapter) := s.adapter.finish
      some { s.goto call (leavePhase fd (if canceled then -ecanceled else result) response) with
        adapter := adapter
        sections := .finished call :: s.sections }
    | _ => none
  | .close call =>
    match s.phase call with
    | .close fd result response =>
      some { s.goto call (.returned result response) with
        fds := Function.update s.fds fd none
        closes := (call, fd) :: s.closes }
    | _ => none
  | .cancel => some { s with adapter := s.adapter.cancel.2, sections := .canceled :: s.sections }
  | .openOther fd =>
    match s.fds fd with
    | none => some { s with fds := Function.update s.fds fd (some .other) }
    | some _ => none
  | .closeOther fd =>
    match s.fds fd with
    | some .other => some { s with fds := Function.update s.fds fd none }
    | _ => none

/-- The descriptor an event shuts down in both directions, if it does. -/
def shutdownOf (s : System) : Event → Option ℕ
  | .cancel => s.adapter.cancel.1
  | .registerFd call =>
    match s.phase call with
    | .register _ fd => (s.adapter.registerFd fd).2.1
    | _ => none
  | _ => none

def Reachable (s : System) : Prop :=
  ∃ others events, Transition.run (step longDouble) (System.initial others) events = some s

end

end QbitNova.AdapterSystem
