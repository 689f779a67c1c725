import QbitNova.Library.CText
import Mathlib.Tactic.Tauto

/-! # The device frontend: records, constants and its lock-protected routines

Every routine here runs while the frontend mutex is held. Calls of the operating
system and of the backend appear as arguments that carry their outcome.
-/
namespace QbitNova.Frontend
open CText

def qcpuUapiAbiVersion : UInt32 := 1
def qcpuUapiProtocolVersion : UInt16 := 1
def qcpuUapiRequestMagic : UInt32 := 0x51445631
def qcpuUapiResponseMagic : UInt32 := 0x51525631
def qcpuUapiMaxQubits : UInt32 := 20
def qcpuUapiMaxShots : UInt32 := 100
def qcpuUapiMaxInflight : UInt32 := 1
def qcpuUapiBackendNameBytes : ℕ := 32
def qcpuUapiDriverVersionBytes : ℕ := 16
def qcpuUapiCommandStatus : UInt16 := 1
def qcpuUapiCommandRunGhz : UInt16 := 2

def statusOk : UInt32 := 0
def statusBadMagic : UInt32 := 1
def statusBadVersion : UInt32 := 2
def statusBadCommand : UInt32 := 3
def statusRange : UInt32 := 4
def statusKernel : UInt32 := 5
def statusIo : UInt32 := 6
def statusBackendAbsent : UInt32 := 7
def statusBusy : UInt32 := 8
def statusTimeout : UInt32 := 9
def statusCanceled : UInt32 := 10

def flagSoftwareVirtualQcpu : UInt32 := (1 : UInt32) <<< (0 : UInt32)
def flagClassicalHost : UInt32 := (1 : UInt32) <<< (1 : UInt32)
def flagPhysicalQpuAbsent : UInt32 := (1 : UInt32) <<< (2 : UInt32)
def flagQ0MostSignificant : UInt32 := (1 : UInt32) <<< (3 : UInt32)
def qcpuMockRequiredFlags : UInt32 :=
  flagSoftwareVirtualQcpu ||| flagClassicalHost ||| flagPhysicalQpuAbsent ||| flagQ0MostSignificant

def qcpuMockDefaultTimeoutNs : UInt64 := 1000000000
def qcpuMockMaxTimeoutNs : UInt64 := 5000000000
def qcpuMockCancelGraceNs : UInt64 := 100000000
def uint64Max : UInt64 := 0xffffffffffffffff

def eintr : ℤ := 4
def eio : ℤ := 5
def eagain : ℤ := 11
def enomem : ℤ := 12
def ebusy : ℤ := 16
def enodev : ℤ := 19
def einval : ℤ := 22
def erange : ℤ := 34
def eproto : ℤ := 71
def eprotonosupport : ℤ := 93
def eopnotsupp : ℤ := 95
def etimedout : ℤ := 110
def ecanceled : ℤ := 125

inductive DeviceState where
  | offline | idle | busy | error
  deriving DecidableEq, Repr

structure Request where
  magic : UInt32
  version : UInt16
  command : UInt16
  qubits : UInt32
  shots : UInt32
  seed : UInt64
  deriving DecidableEq, Repr

structure Response where
  magic : UInt32 := 0
  version : UInt16 := 0
  status : UInt16 := 0
  flags : UInt32 := 0
  qubits : UInt32 := 0
  basisStates : UInt64 := 0
  shots : UInt64 := 0
  measuredState : UInt64 := 0
  invalidResults : UInt64 := 0
  normQ32_32 : UInt64 := 0
  deriving DecidableEq, Repr

structure Exchange where
  request : Request
  timeoutNs : UInt64
  response : Response
  deriving DecidableEq, Repr

/-- The two callbacks, as code addresses; `none` is the null pointer. -/
structure BackendOps where
  exchange : Option ℕ := none
  cancel : Option ℕ := none
  deriving DecidableEq, Repr

structure Mock where
  backendName : Bytes
  driverVersion : Bytes
  backendOps : BackendOps
  backendContext : Option ℕ
  backendAttached : Bool
  sessionOpen : Bool
  busy : Bool
  cancelRequested : Bool
  cancelSent : Bool
  lockFd : ℤ
  activeTask : Option ℕ
  deviceState : DeviceState
  lastErrno : ℤ
  lastProtocolStatus : UInt32
  completedRequests : UInt64
  failedRequests : UInt64
  deriving DecidableEq, Repr

structure Timespec where
  tvSec : UInt64
  tvNsec : UInt64
  deriving DecidableEq, Repr

def qcpuTimespecToNs (value : Timespec) : UInt64 := value.tvSec * 1000000000 + value.tvNsec

/-- `snprintf` into a cleared buffer of `size` bytes. -/
def qcpuCopyText (size : ℕ) (source : Option Bytes) : Bytes := (source.getD []).take (size - 1)

/-- The response a failed exchange carries. -/
def failureResponse (request : Request) (protocolStatus : UInt32) : Response :=
  { magic := qcpuUapiResponseMagic
    version := qcpuUapiProtocolVersion
    status := protocolStatus.toUInt16
    flags := qcpuMockRequiredFlags
    qubits := request.qubits
    shots := request.shots.toUInt64 }

def qcpuSetFailureResponse (exchange : Option Exchange) (protocolStatus : UInt32) : Option Exchange :=
  exchange.map (fun ex => { ex with response := failureResponse ex.request protocolStatus })

def qcpuRecordResultLocked (mock : Mock) (errorNumber : ℤ) (protocolStatus : UInt32) : Mock :=
  { mock with lastErrno := errorNumber, lastProtocolStatus := protocolStatus }

def qcpuStatusToErrno (status : UInt32) : ℤ :=
  if status = statusOk then 0
  else if status = statusBadMagic then eproto
  else if status = statusBadVersion then eprotonosupport
  else if status = statusBadCommand then eopnotsupp
  else if status = statusRange then erange
  else if status = statusKernel ∨ status = statusIo then eio
  else if status = statusBackendAbsent then enodev
  else if status = statusBusy then ebusy
  else if status = statusTimeout then etimedout
  else if status = statusCanceled then ecanceled
  else eio

def qcpuStatusKnown (status : UInt32) : Bool := status ≤ statusCanceled

/-- The protocol statuses a failed exchange may carry. -/
def Fails (status : UInt32) : Prop := qcpuStatusKnown status = true ∧ status ≠ statusOk

instance (status : UInt32) : Decidable (Fails status) := inferInstanceAs (Decidable (_ ∧ _))

/-- The flag says whether the caller has to run the backend's cancel callback. -/
def qcpuRequestCancelLocked (mock : Mock) : Mock × Bool :=
  if !mock.busy || mock.cancelSent then (mock, false)
  else ({ mock with cancelRequested := true, cancelSent := true }, mock.backendOps.cancel.isSome)

theorem requestCancel_eq (mock : Mock) : (qcpuRequestCancelLocked mock).1 = mock ∨
    (mock.busy = true ∧
      (qcpuRequestCancelLocked mock).1 = { mock with cancelRequested := true, cancelSent := true }) := by
  unfold qcpuRequestCancelLocked
  split_ifs with h
  · exact Or.inl rfl
  · exact Or.inr ⟨by cases hb : mock.busy <;> simp_all,rfl⟩

def qcpuFinalizeExchangeLocked (mock : Mock) (offline success : Bool) (errorNumber : ℤ)
    (protocolStatus : UInt32) : Mock :=
  let mock := if success then { mock with completedRequests := mock.completedRequests + 1 }
    else { mock with failedRequests := mock.failedRequests + 1 }
  let mock := qcpuRecordResultLocked mock errorNumber protocolStatus
  { mock with
    busy := false
    cancelRequested := false
    cancelSent := false
    deviceState := if offline || !mock.backendAttached then .offline else .idle }

/-- How one check or one whole exchange ended: errno, protocol status and
whether the backend is gone. -/
structure Verdict where
  errorNumber : ℤ
  protocolStatus : UInt32
  offline : Bool
  deriving DecidableEq, Repr

def qcpuValidateBackendResponse (request : Request) (response : Response) : Except Verdict Unit :=
  if response.magic ≠ qcpuUapiResponseMagic then .error ⟨eio, statusIo, false⟩
  else if response.version ≠ qcpuUapiProtocolVersion then .error ⟨eio, statusIo, false⟩
  else if !qcpuStatusKnown response.status.toUInt32 then .error ⟨eio, statusIo, false⟩
  else if response.status.toUInt32 ≠ statusOk then
    .error ⟨qcpuStatusToErrno response.status.toUInt32, response.status.toUInt32,
      response.status.toUInt32 == statusBackendAbsent⟩
  else if response.flags &&& qcpuMockRequiredFlags ≠ qcpuMockRequiredFlags then
    .error ⟨eio, statusIo, false⟩
  else if response.qubits ≠ request.qubits ∨ response.shots ≠ request.shots.toUInt64 then
    .error ⟨eio, statusIo, false⟩
  else if response.normQ32_32 > (1 : UInt64) <<< (32 : UInt64) then .error ⟨eio, statusKernel, false⟩
  else if request.command = qcpuUapiCommandRunGhz then
    if response.basisStates ≠ (1 : UInt64) <<< request.qubits.toUInt64 then .error ⟨eio, statusKernel, false⟩
    else
      let allOneState := ((1 : UInt64) <<< request.qubits.toUInt64) - 1
      if response.measuredState ≠ 0 ∧ response.measuredState ≠ allOneState then
        .error ⟨eio, statusKernel, false⟩
      else if response.invalidResults ≠ 0 then .error ⟨eio, statusKernel, false⟩
      else .ok ()
  else .ok ()

/-- The pre-dispatch checks either reject, with the frontend, the caller's argument
and errno, or accept the argument (response cleared) with an absolute deadline. -/
inductive Prevalidated where
  | rejected (mock : Mock) (exchange : Option Exchange) (errorNumber : ℤ)
  | accepted (exchange : Exchange) (absoluteDeadlineNs : UInt64)
  deriving DecidableEq, Repr

def rejectExchange (mock : Mock) (exchange : Option Exchange) (errorNumber : ℤ) (protocolStatus : UInt32) :
    Prevalidated :=
  .rejected (qcpuRecordResultLocked mock errorNumber protocolStatus)
    (qcpuSetFailureResponse exchange protocolStatus) errorNumber

def requestOutOfRange (request : Request) : Bool :=
  if request.command = qcpuUapiCommandStatus then request.qubits ≠ 0 || request.shots ≠ 0
  else request.qubits = 0 || request.qubits > qcpuUapiMaxQubits ||
    request.shots = 0 || request.shots > qcpuUapiMaxShots

/-- A zero timeout asks for the default. -/
def timeoutOrDefault (timeoutNs : UInt64) : UInt64 :=
  if timeoutNs = 0 then qcpuMockDefaultTimeoutNs else timeoutNs

def qcpuPrevalidateExchangeLocked (mock : Mock) (exchange : Option Exchange) (clock : Option Timespec) :
    Prevalidated :=
  if !mock.sessionOpen then rejectExchange mock exchange ebusy statusBusy
  else match exchange with
  | none => .rejected (qcpuRecordResultLocked mock einval statusRange) none einval
  | some exchange =>
    let ex := { exchange with response := {} }
    if ex.request.magic ≠ qcpuUapiRequestMagic then rejectExchange mock (some ex) eproto statusBadMagic
    else if ex.request.version ≠ qcpuUapiProtocolVersion then
      rejectExchange mock (some ex) eprotonosupport statusBadVersion
    else if ex.request.command ≠ qcpuUapiCommandStatus ∧ ex.request.command ≠ qcpuUapiCommandRunGhz then
      rejectExchange mock (some ex) eopnotsupp statusBadCommand
    else if requestOutOfRange ex.request then rejectExchange mock (some ex) erange statusRange
    else
      let timeoutNs := timeoutOrDefault ex.timeoutNs
      if timeoutNs > qcpuMockMaxTimeoutNs then rejectExchange mock (some ex) erange statusRange
      else match clock with
      | none => rejectExchange mock (some ex) eio statusIo
      | some now =>
        let nowNs := qcpuTimespecToNs now
        if uint64Max - nowNs < timeoutNs then rejectExchange mock (some ex) erange statusRange
        else if mock.busy then rejectExchange mock (some ex) ebusy statusBusy
        else if !mock.backendAttached || mock.backendOps.exchange.isNone then
          rejectExchange { mock with deviceState := .offline } (some ex) enodev statusBackendAbsent
        else .accepted ex (nowNs + timeoutNs)

/-- What the pre-dispatch checks guarantee about an accepted request. -/
structure RequestValid (request : Request) : Prop where
  magic : request.magic = qcpuUapiRequestMagic
  version : request.version = qcpuUapiProtocolVersion
  command : request.command = qcpuUapiCommandStatus ∨ request.command = qcpuUapiCommandRunGhz
  range : requestOutOfRange request = false

/-- The limits the frontend checks before an exchange is dispatched. -/
theorem RequestValid.ghz_limits {request : Request} (h : RequestValid request)
    (hcommand : request.command = qcpuUapiCommandRunGhz) :
    0 < request.qubits.toNat ∧ request.qubits.toNat ≤ 20 ∧ 0 < request.shots.toNat ∧ request.shots.toNat ≤ 100 := by
  have hrange := h.range
  unfold requestOutOfRange at hrange
  rw [hcommand,if_neg (by decide)] at hrange
  simp only [Bool.or_eq_false_iff,decide_eq_false_iff_not,gt_iff_lt,UInt32.lt_iff_toNat_lt,
    ← UInt32.toNat_inj] at hrange
  obtain ⟨⟨⟨hq,hmaxq⟩,hs⟩,hmaxs⟩ := hrange
  exact ⟨Nat.pos_of_ne_zero hq,Nat.le_of_not_lt hmaxq,Nat.pos_of_ne_zero hs,Nat.le_of_not_lt hmaxs⟩

/-- A status request carries no qubits and no shots. -/
theorem RequestValid.status_limits {request : Request} (h : RequestValid request)
    (hcommand : request.command = qcpuUapiCommandStatus) : request.qubits = 0 ∧ request.shots = 0 := by
  have hrange := h.range
  unfold requestOutOfRange at hrange
  rw [hcommand,if_pos rfl] at hrange
  simpa using hrange

/-- The frontend a rejection is recorded in: unchanged, or marked offline because no
backend is attached. -/
def RejectedFrom (before after : Mock) : Prop :=
  after = before ∨ (after = { before with deviceState := .offline } ∧ before.busy = false ∧
    (before.backendAttached = false ∨ before.backendOps.exchange = none))

theorem prevalidate_accepted {mock : Mock} {argument : Option Exchange} {clock : Option Timespec}
    {exchange : Exchange} {deadline : UInt64}
    (h : qcpuPrevalidateExchangeLocked mock argument clock = .accepted exchange deadline) :
    mock.sessionOpen = true ∧ mock.busy = false ∧ mock.backendAttached = true ∧
      ∃ passed, argument = some passed ∧ exchange.request = passed.request ∧ RequestValid passed.request := by
  unfold qcpuPrevalidateExchangeLocked rejectExchange at h
  by_cases hopen : (!mock.sessionOpen) = true
  · rw [if_pos hopen] at h; cases h
  rw [if_neg hopen] at h
  cases argument with
  | none => cases h
  | some passed =>
    simp only [] at h
    by_cases hmagic : passed.request.magic ≠ qcpuUapiRequestMagic
    · rw [if_pos hmagic] at h; cases h
    by_cases hversion : passed.request.version ≠ qcpuUapiProtocolVersion
    · rw [if_neg hmagic,if_pos hversion] at h; cases h
    by_cases hcommand : passed.request.command ≠ qcpuUapiCommandStatus ∧
        passed.request.command ≠ qcpuUapiCommandRunGhz
    · rw [if_neg hmagic,if_neg hversion,if_pos hcommand] at h; cases h
    by_cases hrange : requestOutOfRange passed.request = true
    · rw [if_neg hmagic,if_neg hversion,if_neg hcommand,if_pos hrange] at h; cases h
    rw [if_neg hmagic,if_neg hversion,if_neg hcommand,if_neg hrange] at h
    have hvalid : RequestValid passed.request :=
      ⟨not_not.mp hmagic,not_not.mp hversion,by tauto,by simpa using hrange⟩
    cases clock with
    | none => simp only [] at h; split at h <;> cases h
    | some now =>
      simp only [] at h
      split at h
      · cases h
      split at h
      · cases h
      by_cases hbusy : mock.busy = true
      · rw [if_pos hbusy] at h; cases h
      by_cases habsent : (!mock.backendAttached || mock.backendOps.exchange.isNone) = true
      · rw [if_neg hbusy,if_pos habsent] at h; cases h
      rw [if_neg hbusy,if_neg habsent] at h
      cases h
      have hattached : mock.backendAttached = true := by cases hb : mock.backendAttached <;> simp_all
      exact ⟨by simpa using hopen,by simpa using hbusy,hattached,passed,rfl,rfl,hvalid⟩

/-- A rejection delivers the canonical failure record, records the same result in the
frontend and leaves everything else of it alone. -/
def Rejects (mock : Mock) (argument : Option Exchange) (outcome : Prevalidated) : Prop :=
  ∀ after delivered errorNumber, outcome = .rejected after delivered errorNumber →
    ∃ status base, Fails status ∧ RejectedFrom mock base ∧
      after = qcpuRecordResultLocked base errorNumber status ∧
      delivered = qcpuSetFailureResponse argument status ∧
      (argument.isSome = true → errorNumber = qcpuStatusToErrno status)

theorem rejects_accepted (mock : Mock) (argument : Option Exchange) (exchange : Exchange) (deadline : UInt64) :
    Rejects mock argument (.accepted exchange deadline) := by
  intro after delivered errorNumber h
  cases h

theorem rejects_reject {mock base : Mock} {argument passed : Option Exchange} {errorNumber : ℤ}
    {status : UInt32} (hstatus : Fails status) (hbase : RejectedFrom mock base)
    (hpassed : qcpuSetFailureResponse passed status = qcpuSetFailureResponse argument status)
    (herrno : errorNumber = qcpuStatusToErrno status) :
    Rejects mock argument (rejectExchange base passed errorNumber status) := by
  intro after delivered e h
  cases h
  exact ⟨status,base,hstatus,hbase,rfl,hpassed,fun _ => herrno⟩

theorem prevalidate_rejects (mock : Mock) (argument : Option Exchange) (clock : Option Timespec) :
    Rejects mock argument (qcpuPrevalidateExchangeLocked mock argument clock) := by
  have hreject : ∀ {passed : Option Exchange} {errorNumber : ℤ} {status : UInt32}, Fails status →
      qcpuSetFailureResponse passed status = qcpuSetFailureResponse argument status →
      errorNumber = qcpuStatusToErrno status →
      Rejects mock argument (rejectExchange mock passed errorNumber status) :=
    fun hstatus hpassed herrno => rejects_reject hstatus (Or.inl rfl) hpassed herrno
  unfold qcpuPrevalidateExchangeLocked
  refine iteInduction (fun _ => hreject (by decide) rfl (by decide)) fun _ => ?_
  cases argument with
  | none =>
    intro after delivered errorNumber h
    cases h
    exact ⟨statusRange,mock,by decide,Or.inl rfl,rfl,rfl,by simp⟩
  | some passed =>
    refine iteInduction (fun _ => hreject (by decide) rfl (by decide)) fun _ => ?_
    refine iteInduction (fun _ => hreject (by decide) rfl (by decide)) fun _ => ?_
    refine iteInduction (fun _ => hreject (by decide) rfl (by decide)) fun _ => ?_
    refine iteInduction (fun _ => hreject (by decide) rfl (by decide)) fun _ => ?_
    refine iteInduction (fun _ => hreject (by decide) rfl (by decide)) fun _ => ?_
    cases clock with
    | none => exact hreject (by decide) rfl (by decide)
    | some now =>
      refine iteInduction (fun _ => hreject (by decide) rfl (by decide)) fun _ => ?_
      refine iteInduction (fun _ => hreject (by decide) rfl (by decide)) fun hbusy => ?_
      refine iteInduction (fun habsent => ?_) fun _ => rejects_accepted _ _ _ _
      have hgone : mock.backendAttached = false ∨ mock.backendOps.exchange = none := by simpa using habsent
      exact rejects_reject (by decide) (Or.inr ⟨rfl,by simpa using hbusy,hgone⟩) rfl (by decide)

/-- The result a finished exchange is given: a verdict, or the response to deliver. -/
def exchangeOutcome (timedOut cancelRequested : Bool) (backendResult : ℤ) (request : Request)
    (response : Response) : Except Verdict Response :=
  if timedOut then .error ⟨etimedout, statusTimeout, false⟩
  else if cancelRequested ∨ backendResult = -ecanceled then .error ⟨ecanceled, statusCanceled, false⟩
  else if backendResult ≠ 0 then
    if backendResult = -enodev then .error ⟨enodev, statusBackendAbsent, true⟩
    else if backendResult = -etimedout then .error ⟨etimedout, statusTimeout, false⟩
    else if backendResult = -ecanceled then .error ⟨ecanceled, statusCanceled, false⟩
    else if qcpuStatusKnown response.status.toUInt32 ∧ response.status.toUInt32 ≠ statusOk then
      .error ⟨qcpuStatusToErrno response.status.toUInt32, response.status.toUInt32,
        response.status.toUInt32 == statusBackendAbsent⟩
    else .error ⟨eio, statusIo, false⟩
  else match qcpuValidateBackendResponse request response with
  | .error v => .error v
  | .ok () => .ok response

structure MockConfig where
  backendName : Option Bytes
  driverVersion : Option Bytes
  backendOps : Option BackendOps
  backendContext : Option ℕ
  deriving DecidableEq, Repr

def qcpuMockBackendDefault : Bytes := str "stage2-mock"
def qcpuMockVersionDefault : Bytes := str "v4.7-stage2a"

/-- `fault` is the errno of the first failing allocation, path check or lock set-up. -/
def qcpuMockCreate (fault : Option ℤ) (config : MockConfig) : Except ℤ Mock :=
  match fault with
  | some errorNumber => .error errorNumber
  | none =>
    let mock : Mock :=
      { backendName := qcpuCopyText qcpuUapiBackendNameBytes (config.backendName.or qcpuMockBackendDefault)
        driverVersion := qcpuCopyText qcpuUapiDriverVersionBytes (config.driverVersion.or qcpuMockVersionDefault)
        backendOps := {}
        backendContext := none
        backendAttached := false
        sessionOpen := false
        busy := false
        cancelRequested := false
        cancelSent := false
        lockFd := -1
        activeTask := none
        deviceState := .offline
        lastErrno := 0
        lastProtocolStatus := statusOk
        completedRequests := 0
        failedRequests := 0 }
    match config.backendOps with
    | none => .ok mock
    | some ops =>
      if ops.exchange.isNone then .error einval
      else .ok { mock with
        backendOps := ops
        backendContext := config.backendContext
        backendAttached := true
        deviceState := .idle }

/-- What every freshly created frontend has in common. -/
structure Fresh (mock : Mock) : Prop where
  session : mock.sessionOpen = false
  active : mock.activeTask = none
  cancel : mock.cancelSent = false
  completed : mock.completedRequests = 0
  failed : mock.failedRequests = 0

theorem create_fresh {fault : Option ℤ} {config : MockConfig} {mock : Mock}
    (h : qcpuMockCreate fault config = .ok mock) : Fresh mock := by
  unfold qcpuMockCreate at h
  cases fault with
  | some errorNumber => cases h
  | none =>
    cases hops : config.backendOps with
    | none =>
      simp only [hops] at h
      cases h
      exact ⟨rfl,rfl,rfl,rfl,rfl⟩
    | some ops =>
      simp only [hops] at h
      split_ifs at h
      cases h
      exact ⟨rfl,rfl,rfl,rfl,rfl⟩

def qcpuMockSetBackend (mock : Mock) (backendOps : Option BackendOps) (backendContext : Option ℕ)
    (backendName : Option Bytes) : Except ℤ Mock :=
  if mock.busy then .error ebusy
  else match backendOps with
  | none => .ok { mock with
      backendOps := {}
      backendContext := none
      backendAttached := false
      deviceState := .offline
      backendName := qcpuCopyText qcpuUapiBackendNameBytes (some (str "absent")) }
  | some ops =>
    if ops.exchange.isNone then .error einval
    else .ok { mock with
      backendOps := ops
      backendContext := backendContext
      backendAttached := true
      deviceState := .idle
      backendName := qcpuCopyText qcpuUapiBackendNameBytes (backendName.or qcpuMockBackendDefault) }

/-- A replaced backend changes the backend fields and the device state of a free frontend. -/
theorem setBackend_eq {m m' : Mock} {ops : Option BackendOps} {context : Option ℕ} {name : Option Bytes}
    (h : qcpuMockSetBackend m ops context name = .ok m') :
    m.busy = false ∧ ∃ newOps newContext attached state newName, m' = { m with
      backendOps := newOps, backendContext := newContext, backendAttached := attached,
      deviceState := state, backendName := newName } := by
  unfold qcpuMockSetBackend at h
  split_ifs at h with hbusy
  refine ⟨by simpa using hbusy,?_⟩
  cases ops with
  | none =>
    cases h
    exact ⟨_,_,_,_,_,rfl⟩
  | some ops =>
    simp only [] at h
    split_ifs at h
    cases h
    exact ⟨_,_,_,_,_,rfl⟩

/-- Which system call of an open failed, or the locked descriptor. -/
inductive OpenOutcome where
  | openFailed (errorNumber : ℤ)
  | fchmodFailed (errorNumber : ℤ)
  | flockFailed (errorNumber : ℤ)
  | locked (descriptor : ℕ)
  deriving DecidableEq, Repr

def qcpuMockOpen (mock : Mock) (outcome : OpenOutcome) : Except ℤ Mock :=
  if mock.sessionOpen then .error ebusy
  else match outcome with
  | .openFailed errorNumber => .error errorNumber
  | .fchmodFailed errorNumber => .error errorNumber
  | .flockFailed errorNumber => if errorNumber = eagain then .error ebusy else .error errorNumber
  | .locked descriptor => .ok { mock with lockFd := descriptor, sessionOpen := true }

theorem open_eq {m m' : Mock} {outcome : OpenOutcome} (h : qcpuMockOpen m outcome = .ok m') :
    m.sessionOpen = false ∧ ∃ descriptor : ℕ, m' = { m with lockFd := descriptor, sessionOpen := true } := by
  unfold qcpuMockOpen at h
  split_ifs at h with hs
  refine ⟨by simpa using hs,?_⟩
  cases outcome with
  | locked descriptor =>
    cases h
    exact ⟨descriptor,rfl⟩
  | flockFailed e =>
    simp only [] at h
    split_ifs at h
  | _ => cases h

/-- The results of `flock` and `close` when a session ends; zero is success. -/
structure ReleaseOutcome where
  flockErrno : ℤ := 0
  closeErrno : ℤ := 0
  deriving DecidableEq, Repr

/-- The tail of `qcpu_mock_close`, run once the frontend is not busy. -/
def endSession (mock : Mock) (release : ReleaseOutcome) : Mock × Except ℤ Unit :=
  let descriptor := mock.lockFd
  let mock := { mock with lockFd := -1, sessionOpen := false }
  if descriptor ≥ 0 then
    if release.flockErrno ≠ 0 then (mock, .error release.flockErrno)
    else if release.closeErrno ≠ 0 then (mock, .error release.closeErrno)
    else (mock, .ok ())
  else (mock, .ok ())

theorem endSession_mock (mock : Mock) (release : ReleaseOutcome) :
    (endSession mock release).1 = { mock with lockFd := -1, sessionOpen := false } := by
  unfold endSession
  simp only []
  split_ifs <;> rfl

structure Caps where
  abiVersion : UInt32
  protocolVersion : UInt32
  maxQubits : UInt32
  maxShots : UInt32
  maxInflight : UInt32
  flags : UInt32
  backend : Bytes
  driverVersion : Bytes
  deriving DecidableEq, Repr

def qcpuFillCaps (mock : Mock) : Caps :=
  { abiVersion := qcpuUapiAbiVersion
    protocolVersion := qcpuUapiProtocolVersion.toUInt32
    maxQubits := qcpuUapiMaxQubits
    maxShots := qcpuUapiMaxShots
    maxInflight := qcpuUapiMaxInflight
    flags := qcpuMockRequiredFlags
    backend := qcpuCopyText qcpuUapiBackendNameBytes (some mock.backendName)
    driverVersion := qcpuCopyText qcpuUapiDriverVersionBytes (some mock.driverVersion) }

structure Status where
  deviceState : DeviceState
  activeClientSessions : UInt32
  lastErrno : ℤ
  lastProtocolStatus : UInt32
  completedRequests : UInt64
  failedRequests : UInt64
  deriving DecidableEq, Repr

def qcpuFillStatus (mock : Mock) : Status :=
  { deviceState := mock.deviceState
    activeClientSessions := if mock.sessionOpen then 1 else 0
    lastErrno := mock.lastErrno
    lastProtocolStatus := mock.lastProtocolStatus
    completedRequests := mock.completedRequests
    failedRequests := mock.failedRequests }

end QbitNova.Frontend
