import QbitNova.Device.Frontend
import QbitNova.Library.Transition
import Mathlib.Logic.Function.Basic

/-! # One frontend shared by concurrent callers and detached workers

Each event is one critical section of the frontend mutex, or one step outside it
(a callback being entered, a callback returning, a cancel callback being run). A
wait on the condition variable releases the mutex, so it ends a section. Wait
results, clocks, allocation results and everything the backend does are chosen
by the event, hence every schedule and every backend is covered.
-/
namespace QbitNova.Frontend
open CText

inductive Worker where
  | absent
  | created
  | inCallback
  | returned (result : ℤ)
  | finished
  deriving DecidableEq, Repr

structure Task where
  references : ℕ := 0
  backendOps : BackendOps := {}
  backendContext : Option ℕ := none
  request : Request := ⟨0, 0, 0, 0, 0, 0⟩
  response : Response := {}
  absoluteDeadlineNs : UInt64 := 0
  backendResult : ℤ := 0
  done : Bool := false
  callerAbandoned : Bool := false
  owner : ℕ := 0
  worker : Worker := .absent
  deriving DecidableEq, Repr

/-- What an exchange ioctl hands back: the argument as it was passed in, what it
holds on return, and the code of a failed allocation or thread creation. While the
exchange is in flight the caller's response is zero; every way out overwrites it. -/
structure ExchangeReturn where
  argument : Option Exchange
  delivered : Option Exchange
  result : Except ℤ Unit
  localFailure : Option ℤ
  deriving DecidableEq, Repr

/-- Where a call stands between two of its sections. -/
inductive Call where
  | idle
  | exchangeWait (argument : Option Exchange) (task : ℕ)
  | exchangeCancel (argument : Option Exchange) (task : ℕ)
  | exchangeRelock (argument : Option Exchange) (task : ℕ) (timedOut : Bool)
  | exchangeGrace (argument : Option Exchange) (task : ℕ)
  | exchangeReturned (answer : ExchangeReturn)
  | closeCancel (session : ℕ) (target : Option ℕ) (ops : BackendOps) (context : Option ℕ)
  | closeWait (session : ℕ)
  | returned (result : Except ℤ Unit)
  | caps (record : Caps)
  | status (record : Status)
  deriving DecidableEq, Repr

/-- One run of a cancel callback: the task it was requested for, the backend it was
run on, and what the frontend looked like at that moment. -/
structure CancelRun where
  target : Option ℕ
  ops : BackendOps
  context : Option ℕ
  busy : Bool
  activeTask : Option ℕ
  currentOps : BackendOps
  currentContext : Option ℕ
  deriving DecidableEq, Repr

/-- The history of a run, newest entry first. Sessions are numbered by the
successful opens before and including theirs. -/
inductive Note where
  | validated (call : ℕ)
  | answered (call : ℕ) (success : Bool)
  | callback (task : ℕ) (request : Request) (result : ℤ) (response : Response)
  | cancel (entry : CancelRun)
  | opened (call : ℕ)
  | closed (call : ℕ) (session : ℕ) (ended : Option ℕ) (success : Bool)
  | backendSet (call : ℕ)
  | destroyed (call : ℕ)
  deriving DecidableEq, Repr

def Note.isOpened : Note → Bool
  | .opened _ => true
  | _ => false

def openCount (log : List Note) : ℕ := log.countP Note.isOpened

structure System where
  mock : Mock
  tasks : ℕ → Task
  taskCount : ℕ
  calls : ℕ → Call
  destroyed : Bool
  log : List Note

def System.initial (mock : Mock) : System :=
  { mock := mock
    tasks := fun _ => {}
    taskCount := 0
    calls := fun _ => .idle
    destroyed := false
    log := [] }

def System.setCall (s : System) (call : ℕ) (state : Call) : System :=
  { s with calls := Function.update s.calls call state }

def System.setTask (s : System) (task : ℕ) (record : Task) : System :=
  { s with tasks := Function.update s.tasks task record }

structure Dispatch where
  clock : Option Timespec
  callocSucceeds : Bool := true
  attributeResult : ℤ := 0
  createResult : ℤ := 0
  deriving DecidableEq, Repr

/-- The code of the first allocation, attribute or thread-creation failure. -/
def Dispatch.localFailure (dispatch : Dispatch) : Option ℤ :=
  if !dispatch.callocSucceeds then some enomem
  else if dispatch.attributeResult ≠ 0 then some dispatch.attributeResult
  else if dispatch.createResult ≠ 0 then some dispatch.createResult
  else none

inductive Event where
  | setBackend (call : ℕ) (ops : Option BackendOps) (context : Option ℕ) (name : Option Bytes)
  | mockOpen (call : ℕ) (outcome : OpenOutcome)
  | getCaps (call : ℕ)
  | getStatus (call : ℕ)
  | exchange (call : ℕ) (argument : Option Exchange) (dispatch : Dispatch)
  | callbackEnter (task : ℕ)
  | callbackReturn (task : ℕ) (result : ℤ) (response : Response)
  | workerFinish (task : ℕ)
  | wake (call : ℕ) (waitResult : ℤ)
  | runCancel (call : ℕ)
  | relock (call : ℕ) (clock : Option Timespec)
  | graceWake (call : ℕ) (waitResult : ℤ)
  | mockClose (call : ℕ) (release : ReleaseOutcome)
  | closeWake (call : ℕ) (release : ReleaseOutcome)
  | mockDestroy (call : ℕ) (condResult mutexResult : ℤ)
  deriving DecidableEq, Repr

def dispatchedMock (mock : Mock) (task : ℕ) : Mock :=
  { mock with
    busy := true
    cancelRequested := false
    cancelSent := false
    deviceState := .busy
    activeTask := some task }

/-- A validated exchange that cannot be handed to a worker. -/
def failLocally (s : System) (call : ℕ) (argument : Option Exchange) (mock : Mock) (errorNumber : ℤ) : System :=
  { s with
    mock := qcpuFinalizeExchangeLocked mock false false errorNumber statusIo
    calls := Function.update s.calls call (.exchangeReturned
      ⟨argument, qcpuSetFailureResponse argument statusIo, .error errorNumber, some errorNumber⟩)
    log := .answered call false :: .validated call :: s.log }

/-- The task is filled in and its detached worker exists. -/
def dispatchTask (s : System) (call : ℕ) (argument : Option Exchange) (request : Request)
    (deadline : UInt64) : System :=
  { s with
    mock := dispatchedMock s.mock s.taskCount
    tasks := Function.update s.tasks s.taskCount
      { references := 2
        backendOps := s.mock.backendOps
        backendContext := s.mock.backendContext
        request := request
        absoluteDeadlineNs := deadline
        owner := call
        worker := .created }
    taskCount := s.taskCount + 1
    calls := Function.update s.calls call (.exchangeWait argument s.taskCount)
    log := .validated call :: s.log }

/-- The first section of `qcpu_exchange_ioctl`, up to its first wait. -/
def exchangeSection (s : System) (call : ℕ) (argument : Option Exchange) (dispatch : Dispatch) : System :=
  match qcpuPrevalidateExchangeLocked s.mock argument dispatch.clock with
  | .rejected mock delivered errorNumber =>
    { s with
      mock := mock
      calls := Function.update s.calls call
        (.exchangeReturned ⟨argument, delivered, .error errorNumber, none⟩) }
  | .accepted exchange deadline =>
    if !dispatch.callocSucceeds then failLocally s call argument s.mock enomem
    else
      let mock := dispatchedMock s.mock s.taskCount
      if dispatch.attributeResult ≠ 0 then
        failLocally s call argument { mock with activeTask := none } dispatch.attributeResult
      else if dispatch.createResult ≠ 0 then
        failLocally s call argument { mock with activeTask := none } dispatch.createResult
      else dispatchTask s call argument exchange.request deadline

/-- The section in which `qcpu_exchange_worker` reports its result. -/
def workerSection (s : System) (task : ℕ) (result : ℤ) : System :=
  let record := s.tasks task
  let abandoned := record.callerAbandoned && s.mock.activeTask == some task
  { s with
    mock := if abandoned then
        { s.mock with
          activeTask := none
          busy := false
          cancelRequested := false
          cancelSent := false
          deviceState := if !s.mock.backendAttached || result == -enodev then .offline else .idle }
      else s.mock
    tasks := Function.update s.tasks task
      { record with
        backendResult := result
        done := true
        references := record.references - 1
        worker := .finished } }

/-- The deadline wait is given up: cancellation is requested before unlocking. -/
def expireSection (s : System) (call : ℕ) (argument : Option Exchange) (task : ℕ) : System :=
  { s with
    mock := (qcpuRequestCancelLocked s.mock).1
    calls := Function.update s.calls call
      (if (qcpuRequestCancelLocked s.mock).2 then .exchangeCancel argument task
        else .exchangeRelock argument task true) }

def wakeSection (s : System) (call : ℕ) (argument : Option Exchange) (task : ℕ) (waitResult : ℤ) : System :=
  if waitResult = etimedout ∧ (s.tasks task).done = false then expireSection s call argument task
  else if waitResult ≠ 0 ∧ waitResult ≠ eintr then expireSection s call argument task
  else if (s.tasks task).done then s.setCall call (.exchangeRelock argument task false)
  else s

def abandonSection (s : System) (call : ℕ) (argument : Option Exchange) (task : ℕ) : System :=
  let record := s.tasks task
  { s with
    mock := qcpuRecordResultLocked { s.mock with failedRequests := s.mock.failedRequests + 1 }
      etimedout statusTimeout
    tasks := Function.update s.tasks task
      { record with callerAbandoned := true, references := record.references - 1 }
    calls := Function.update s.calls call (.exchangeReturned
      ⟨argument, qcpuSetFailureResponse argument statusTimeout, .error etimedout, none⟩)
    log := .answered call false :: s.log }

/-- The caller takes over the result of a finished worker. -/
def finishSection (s : System) (call : ℕ) (argument : Option Exchange) (task : ℕ) (timedOut : Bool) : System :=
  let record := s.tasks task
  let mock := { s.mock with activeTask := none }
  let tasks := Function.update s.tasks task { record with references := record.references - 1 }
  match exchangeOutcome timedOut s.mock.cancelRequested record.backendResult record.request record.response with
  | .error verdict =>
    { s with
      mock := qcpuFinalizeExchangeLocked mock verdict.offline false verdict.errorNumber verdict.protocolStatus
      tasks := tasks
      calls := Function.update s.calls call (.exchangeReturned
        ⟨argument, qcpuSetFailureResponse argument verdict.protocolStatus,
          .error verdict.errorNumber, none⟩)
      log := .answered call false :: s.log }
  | .ok response =>
    { s with
      mock := qcpuFinalizeExchangeLocked mock false true 0 statusOk
      tasks := tasks
      calls := Function.update s.calls call (.exchangeReturned
        ⟨argument, argument.map (fun exchange => { exchange with response := response }), .ok (), none⟩)
      log := .answered call true :: s.log }

/-- The section after the cancel callback, up to the grace wait. -/
def relockSection (s : System) (call : ℕ) (argument : Option Exchange) (task : ℕ) (timedOut : Bool)
    (clock : Option Timespec) : System :=
  if timedOut && !(s.tasks task).done then
    match clock with
    | none => abandonSection s call argument task
    | some now =>
      if uint64Max - qcpuTimespecToNs now ≥ qcpuMockCancelGraceNs then
        s.setCall call (.exchangeGrace argument task)
      else abandonSection s call argument task
  else finishSection s call argument task timedOut

def graceSection (s : System) (call : ℕ) (argument : Option Exchange) (task : ℕ) (waitResult : ℤ) : System :=
  if (s.tasks task).done then finishSection s call argument task true
  else if waitResult = 0 ∨ waitResult = eintr then s
  else abandonSection s call argument task

/-- End the session from a close call that counted `session` when it was made. -/
def endSection (s : System) (call session : ℕ) (release : ReleaseOutcome) : System :=
  { s with
    mock := (endSession s.mock release).1
    calls := Function.update s.calls call (.returned (endSession s.mock release).2)
    log := .closed call session (if s.mock.sessionOpen then some (openCount s.log) else none)
      (endSession s.mock release).2.isOk :: s.log }

/-- A close that finds an exchange in flight asks for its cancellation. -/
def closeRequestSection (s : System) (call : ℕ) : System :=
  { s with
    mock := (qcpuRequestCancelLocked s.mock).1
    calls := Function.update s.calls call
      (if (qcpuRequestCancelLocked s.mock).2 then
        .closeCancel (openCount s.log) s.mock.activeTask s.mock.backendOps s.mock.backendContext
      else .closeWait (openCount s.log)) }

def closeSection (s : System) (call : ℕ) (release : ReleaseOutcome) : System :=
  if !s.mock.sessionOpen then s.setCall call (.returned (.error einval))
  else if s.mock.busy && s.mock.activeTask.any (fun task => (s.tasks task).callerAbandoned) then
    s.setCall call (.returned (.error ebusy))
  else if s.mock.busy then closeRequestSection s call
  else endSection s call (openCount s.log) release

/-- Every later section of a close that found the frontend busy. -/
def closeWakeSection (s : System) (call session : ℕ) (release : ReleaseOutcome) : System :=
  if s.mock.busy then s else endSection s call session release

def destroySection (s : System) (call : ℕ) (condResult mutexResult : ℤ) : System :=
  if s.mock.sessionOpen || s.mock.busy then s.setCall call (.returned (.error ebusy))
  else if condResult ≠ 0 then s.setCall call (.returned (.error condResult))
  else if mutexResult ≠ 0 then { s.setCall call (.returned (.error mutexResult)) with destroyed := true }
  else
    { s with
      calls := Function.update s.calls call (.returned (.ok ()))
      destroyed := true
      log := .destroyed call :: s.log }

def cancelRun (s : System) (target : Option ℕ) (ops : BackendOps) (context : Option ℕ) : CancelRun :=
  { target := target
    ops := ops
    context := context
    busy := s.mock.busy
    activeTask := s.mock.activeTask
    currentOps := s.mock.backendOps
    currentContext := s.mock.backendContext }

/-- A call may start on a frontend that was not destroyed, under a fresh number. -/
def startCall (s : System) (call : ℕ) (next : System) : Option System :=
  if s.calls call = .idle ∧ s.destroyed = false then some next else none

def step (s : System) : Event → Option System
  | .setBackend call ops context name => startCall s call <|
    match qcpuMockSetBackend s.mock ops context name with
    | .error errorNumber => s.setCall call (.returned (.error errorNumber))
    | .ok mock =>
      { s with
        mock := mock
        calls := Function.update s.calls call (.returned (.ok ()))
        log := .backendSet call :: s.log }
  | .mockOpen call outcome => startCall s call <|
    match qcpuMockOpen s.mock outcome with
    | .error errorNumber => s.setCall call (.returned (.error errorNumber))
    | .ok mock =>
      { s with
        mock := mock
        calls := Function.update s.calls call (.returned (.ok ()))
        log := .opened call :: s.log }
  | .getCaps call => startCall s call (s.setCall call (.caps (qcpuFillCaps s.mock)))
  | .getStatus call => startCall s call (s.setCall call (.status (qcpuFillStatus s.mock)))
  | .exchange call argument dispatch => startCall s call (exchangeSection s call argument dispatch)
  | .callbackEnter task =>
    if (s.tasks task).worker = .created then
      some (s.setTask task { s.tasks task with worker := .inCallback })
    else none
  | .callbackReturn task result response =>
    if (s.tasks task).worker = .inCallback then
      some { s.setTask task { s.tasks task with response := response, worker := .returned result } with
        log := .callback task (s.tasks task).request result response :: s.log }
    else none
  | .workerFinish task =>
    match (s.tasks task).worker with
    | .returned result => some (workerSection s task result)
    | _ => none
  | .wake call waitResult =>
    match s.calls call with
    | .exchangeWait argument task => some (wakeSection s call argument task waitResult)
    | _ => none
  | .runCancel call =>
    match s.calls call with
    | .exchangeCancel argument task =>
      some { s.setCall call (.exchangeRelock argument task true) with
        log := .cancel (cancelRun s (some task) (s.tasks task).backendOps (s.tasks task).backendContext)
          :: s.log }
    | .closeCancel session target ops context =>
      some { s.setCall call (.closeWait session) with
        log := .cancel (cancelRun s target ops context) :: s.log }
    | _ => none
  | .relock call clock =>
    match s.calls call with
    | .exchangeRelock argument task timedOut => some (relockSection s call argument task timedOut clock)
    | _ => none
  | .graceWake call waitResult =>
    match s.calls call with
    | .exchangeGrace argument task => some (graceSection s call argument task waitResult)
    | _ => none
  | .mockClose call release => startCall s call (closeSection s call release)
  | .closeWake call release =>
    match s.calls call with
    | .closeWait session => some (closeWakeSection s call session release)
    | _ => none
  | .mockDestroy call condResult mutexResult =>
    startCall s call (destroySection s call condResult mutexResult)

def Reachable (s : System) : Prop :=
  ∃ config mock events, qcpuMockCreate none config = .ok mock ∧
    Transition.run step (System.initial mock) events = some s

end QbitNova.Frontend
