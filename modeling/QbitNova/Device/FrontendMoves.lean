import QbitNova.Device.FrontendSystem

/-! # Everything one step of the shared frontend can do

Each event has finitely many effects. The inversion below lists them once, with
the guards under which the source takes them; every invariant is then a case
analysis over this list.
-/
namespace QbitNova.Frontend

/-- The exchange task a call still holds on to. -/
def Call.task? : Call → Option ℕ
  | .exchangeWait _ task => some task
  | .exchangeCancel _ task => some task
  | .exchangeRelock _ task _ => some task
  | .exchangeGrace _ task => some task
  | _ => none

/-- A close that found the frontend busy and has not finished. -/
def Call.closing : Call → Bool
  | .closeCancel _ _ _ _ => true
  | .closeWait _ => true
  | _ => false

/-- A call that ended without touching the shared state. -/
def Call.plain : Call → Bool
  | .returned (.error _) => true
  | .caps _ => true
  | .status _ => true
  | _ => false

/-- The frontend as a failed dispatch finds it: no task was made active. -/
def Undispatched (s : System) (mock : Mock) : Prop :=
  mock = s.mock ∨ mock = { dispatchedMock s.mock s.taskCount with activeTask := none }

/-- A caller comes back from one of its waits to the result of its worker. -/
inductive TakesOver (s : System) (call : ℕ) (argument : Option Exchange) (task : ℕ) : Bool → Event → Prop
  | relock {timedOut : Bool} {clock : Option Timespec}
    (hc : s.calls call = .exchangeRelock argument task timedOut)
    (hdone : timedOut = true → (s.tasks task).done = true) :
    TakesOver s call argument task timedOut (.relock call clock)
  | grace {waitResult : ℤ} (hc : s.calls call = .exchangeGrace argument task)
    (hdone : (s.tasks task).done = true) : TakesOver s call argument task true (.graceWake call waitResult)

theorem TakesOver.task {s : System} {call task : ℕ} {argument : Option Exchange} {timedOut : Bool} {e : Event}
    (h : TakesOver s call argument task timedOut e) : (s.calls call).task? = some task := by
  cases h with
  | relock hc hdone => rw [hc]; rfl
  | grace hc hdone => rw [hc]; rfl

inductive Move (s : System) : Event → System → Prop
  | plain {e : Event} {call : ℕ} {x : Call} (hidle : s.calls call = .idle) (hx : x.plain) :
    Move s e (s.setCall call x)
  | stay {e : Event} : Move s e s
  | setBackend {call : ℕ} {ops : Option BackendOps} {context : Option ℕ} {name : Option CText.Bytes} {mock : Mock}
    (hidle : s.calls call = .idle) (hset : qcpuMockSetBackend s.mock ops context name = .ok mock) :
    Move s (.setBackend call ops context name)
      { s with mock := mock, calls := Function.update s.calls call (.returned (.ok ())),
               log := .backendSet call :: s.log }
  | opened {call : ℕ} {outcome : OpenOutcome} {mock : Mock} (hidle : s.calls call = .idle)
    (hopen : qcpuMockOpen s.mock outcome = .ok mock) :
    Move s (.mockOpen call outcome)
      { s with mock := mock, calls := Function.update s.calls call (.returned (.ok ())),
               log := .opened call :: s.log }
  | rejected {call : ℕ} {argument delivered : Option Exchange} {dispatch : Dispatch} {mock : Mock} {errorNumber : ℤ}
    (hidle : s.calls call = .idle)
    (hpre : qcpuPrevalidateExchangeLocked s.mock argument dispatch.clock =
      .rejected mock delivered errorNumber) :
    Move s (.exchange call argument dispatch)
      { s with mock := mock, calls := Function.update s.calls call
                (.exchangeReturned ⟨argument, delivered, .error errorNumber, none⟩) }
  | failedLocally {call : ℕ} {argument : Option Exchange} {dispatch : Dispatch} {exchange : Exchange}
    {deadline : UInt64} {mock : Mock} {errorNumber : ℤ} (hidle : s.calls call = .idle)
    (hpre : qcpuPrevalidateExchangeLocked s.mock argument dispatch.clock = .accepted exchange deadline)
    (hmock : Undispatched s mock) (hlocal : dispatch.localFailure = some errorNumber) :
    Move s (.exchange call argument dispatch) (failLocally s call argument mock errorNumber)
  | dispatched {call : ℕ} {argument : Option Exchange} {dispatch : Dispatch} {exchange : Exchange}
    {deadline : UInt64} (hidle : s.calls call = .idle)
    (hpre : qcpuPrevalidateExchangeLocked s.mock argument dispatch.clock = .accepted exchange deadline) :
    Move s (.exchange call argument dispatch) (dispatchTask s call argument exchange.request deadline)
  | callbackEnter {task : ℕ} (hw : (s.tasks task).worker = .created) :
    Move s (.callbackEnter task) (s.setTask task { s.tasks task with worker := .inCallback })
  | callbackReturn {task : ℕ} {result : ℤ} {response : Response}
    (hw : (s.tasks task).worker = .inCallback) :
    Move s (.callbackReturn task result response)
      { s.setTask task { s.tasks task with response := response, worker := .returned result } with
        log := .callback task (s.tasks task).request result response :: s.log }
  | workerFinish {task : ℕ} {result : ℤ} (hw : (s.tasks task).worker = .returned result) :
    Move s (.workerFinish task) (workerSection s task result)
  | expired {call task : ℕ} {argument : Option Exchange} {waitResult : ℤ}
    (hc : s.calls call = .exchangeWait argument task) :
    Move s (.wake call waitResult) (expireSection s call argument task)
  | woken {call task : ℕ} {argument : Option Exchange} {waitResult : ℤ}
    (hc : s.calls call = .exchangeWait argument task) (hdone : (s.tasks task).done = true) :
    Move s (.wake call waitResult) (s.setCall call (.exchangeRelock argument task false))
  | cancelByExchange {call task : ℕ} {argument : Option Exchange}
    (hc : s.calls call = .exchangeCancel argument task) :
    Move s (.runCancel call)
      { s.setCall call (.exchangeRelock argument task true) with
        log := .cancel (cancelRun s (some task) (s.tasks task).backendOps (s.tasks task).backendContext)
          :: s.log }
  | cancelByClose {call session : ℕ} {target : Option ℕ} {ops : BackendOps} {context : Option ℕ}
    (hc : s.calls call = .closeCancel session target ops context) :
    Move s (.runCancel call)
      { s.setCall call (.closeWait session) with log := .cancel (cancelRun s target ops context) :: s.log }
  | grace {call task : ℕ} {argument : Option Exchange} {clock : Option Timespec}
    (hc : s.calls call = .exchangeRelock argument task true) :
    Move s (.relock call clock) (s.setCall call (.exchangeGrace argument task))
  | abandoned {e : Event} {call task : ℕ} {argument : Option Exchange}
    (he : (∃ clock, e = .relock call clock) ∨ ∃ waitResult, e = .graceWake call waitResult)
    (hc : s.calls call = .exchangeRelock argument task true ∨ s.calls call = .exchangeGrace argument task)
    (hdone : (s.tasks task).done = false) :
    Move s e (abandonSection s call argument task)
  | finished {e : Event} {call task : ℕ} {argument : Option Exchange} {timedOut : Bool}
    (hover : TakesOver s call argument task timedOut e) :
    Move s e (finishSection s call argument task timedOut)
  | closeRequested {call : ℕ} {release : ReleaseOutcome} (hidle : s.calls call = .idle)
    (hopen : s.mock.sessionOpen = true) (hbusy : s.mock.busy = true) :
    Move s (.mockClose call release) (closeRequestSection s call)
  | closed {e : Event} {call session : ℕ} {release : ReleaseOutcome}
    (hc : (e = .mockClose call release ∧ s.calls call = .idle ∧ s.mock.sessionOpen = true ∧
        session = openCount s.log) ∨
      (e = .closeWake call release ∧ s.calls call = .closeWait session))
    (hbusy : s.mock.busy = false) :
    Move s e (endSection s call session release)
  | destroyed {call : ℕ} {condResult mutexResult : ℤ} (hidle : s.calls call = .idle)
    (hopen : s.mock.sessionOpen = false) (hbusy : s.mock.busy = false) :
    Move s (.mockDestroy call condResult mutexResult)
      { s with calls := Function.update s.calls call (.returned (.ok ())), destroyed := true,
               log := .destroyed call :: s.log }
  | destroyedPartly {call : ℕ} {condResult mutexResult : ℤ} (hidle : s.calls call = .idle) :
    Move s (.mockDestroy call condResult mutexResult)
      { s.setCall call (.returned (.error mutexResult)) with destroyed := true }

theorem startCall_eq_some {s next t : System} {call : ℕ} (h : startCall s call next = some t) :
    s.calls call = .idle ∧ next = t := by
  unfold startCall at h
  split at h
  · exact ⟨(by assumption : _ ∧ _).1,Option.some.inj h⟩
  · cases h

theorem exchangeSection_move {s : System} {call : ℕ} {argument : Option Exchange} {dispatch : Dispatch}
    (hidle : s.calls call = .idle) :
    Move s (.exchange call argument dispatch) (exchangeSection s call argument dispatch) := by
  unfold exchangeSection
  cases hpre : qcpuPrevalidateExchangeLocked s.mock argument dispatch.clock with
  | rejected mock delivered errorNumber => exact .rejected hidle hpre
  | accepted exchange deadline =>
    simp only []
    split_ifs with hcalloc hattribute hcreate
    · exact .failedLocally hidle hpre (Or.inl rfl) (by simp [Dispatch.localFailure,hcalloc])
    · exact .failedLocally hidle hpre (Or.inr rfl) (by simp [Dispatch.localFailure,hcalloc,hattribute])
    · exact .failedLocally hidle hpre (Or.inr rfl) (by simp [Dispatch.localFailure,hcalloc,hattribute,hcreate])
    · exact .dispatched hidle hpre

theorem wakeSection_move {s : System} {call task : ℕ} {argument : Option Exchange} {waitResult : ℤ}
    (hc : s.calls call = .exchangeWait argument task) :
    Move s (.wake call waitResult) (wakeSection s call argument task waitResult) := by
  unfold wakeSection
  split_ifs with h1 h2 h3
  · exact .expired hc
  · exact .expired hc
  · exact .woken hc h3
  · exact .stay

theorem relockSection_move {s : System} {call task : ℕ} {argument : Option Exchange} {timedOut : Bool}
    {clock : Option Timespec} (hc : s.calls call = .exchangeRelock argument task timedOut) :
    Move s (.relock call clock) (relockSection s call argument task timedOut clock) := by
  unfold relockSection
  split_ifs with h
  · obtain ⟨rfl,hdone⟩ : timedOut = true ∧ (s.tasks task).done = false := by simpa using h
    cases clock with
    | none => exact .abandoned (Or.inl ⟨_,rfl⟩) (Or.inl hc) hdone
    | some now =>
      simp only []
      split_ifs
      · exact .grace hc
      · exact .abandoned (Or.inl ⟨_,rfl⟩) (Or.inl hc) hdone
  · refine .finished (.relock hc ?_)
    rintro rfl
    simpa using h

theorem graceSection_move {s : System} {call task : ℕ} {argument : Option Exchange} {waitResult : ℤ}
    (hc : s.calls call = .exchangeGrace argument task) :
    Move s (.graceWake call waitResult) (graceSection s call argument task waitResult) := by
  unfold graceSection
  split_ifs with hdone hw
  · exact .finished (.grace hc hdone)
  · exact .stay
  · exact .abandoned (Or.inr ⟨_,rfl⟩) (Or.inr hc) (by simpa using hdone)

theorem closeSection_move {s : System} {call : ℕ} {release : ReleaseOutcome} (hidle : s.calls call = .idle) :
    Move s (.mockClose call release) (closeSection s call release) := by
  unfold closeSection
  split_ifs with hopen habandoned hbusy
  · exact .plain hidle rfl
  · exact .plain hidle rfl
  · exact .closeRequested hidle (by simpa using hopen) hbusy
  · exact .closed (Or.inl ⟨rfl,hidle,by simpa using hopen,rfl⟩) (by simpa using hbusy)

theorem destroySection_move {s : System} {call : ℕ} {condResult mutexResult : ℤ}
    (hidle : s.calls call = .idle) :
    Move s (.mockDestroy call condResult mutexResult) (destroySection s call condResult mutexResult) := by
  unfold destroySection
  split_ifs with hq hcond hmutex
  · exact .plain hidle rfl
  · exact .plain hidle rfl
  · exact .destroyedPartly hidle
  · obtain ⟨hopen,hbusy⟩ : s.mock.sessionOpen = false ∧ s.mock.busy = false := by simpa using hq
    exact .destroyed hidle hopen hbusy

/-- The inversion of the step function: every enabled event is one of the moves. -/
theorem step_move {s t : System} {e : Event} (h : step s e = some t) : Move s e t := by
  cases e with
  | setBackend call ops context name =>
    obtain ⟨hidle,rfl⟩ := startCall_eq_some h
    cases hset : qcpuMockSetBackend s.mock ops context name with
    | error errorNumber => exact .plain hidle rfl
    | ok mock => exact .setBackend hidle hset
  | mockOpen call outcome =>
    obtain ⟨hidle,rfl⟩ := startCall_eq_some h
    cases hopen : qcpuMockOpen s.mock outcome with
    | error errorNumber => exact .plain hidle rfl
    | ok mock => exact .opened hidle hopen
  | getCaps call =>
    obtain ⟨hidle,rfl⟩ := startCall_eq_some h
    exact .plain hidle rfl
  | getStatus call =>
    obtain ⟨hidle,rfl⟩ := startCall_eq_some h
    exact .plain hidle rfl
  | exchange call argument dispatch =>
    obtain ⟨hidle,rfl⟩ := startCall_eq_some h
    exact exchangeSection_move hidle
  | callbackEnter task =>
    simp only [step,Option.ite_none_right_eq_some,Option.some.injEq] at h
    obtain ⟨hw,rfl⟩ := h
    exact .callbackEnter hw
  | callbackReturn task result response =>
    simp only [step,Option.ite_none_right_eq_some,Option.some.injEq] at h
    obtain ⟨hw,rfl⟩ := h
    exact .callbackReturn hw
  | workerFinish task =>
    simp only [step] at h
    split at h
    · cases h
      exact .workerFinish (by assumption)
    · cases h
  | wake call waitResult =>
    simp only [step] at h
    split at h
    · cases h
      exact wakeSection_move (by assumption)
    · cases h
  | runCancel call =>
    simp only [step] at h
    split at h
    · cases h
      exact .cancelByExchange (by assumption)
    · cases h
      exact .cancelByClose (by assumption)
    · cases h
  | relock call clock =>
    simp only [step] at h
    split at h
    · cases h
      exact relockSection_move (by assumption)
    · cases h
  | graceWake call waitResult =>
    simp only [step] at h
    split at h
    · cases h
      exact graceSection_move (by assumption)
    · cases h
  | mockClose call release =>
    obtain ⟨hidle,rfl⟩ := startCall_eq_some h
    exact closeSection_move hidle
  | closeWake call release =>
    simp only [step] at h
    split at h
    · cases h
      unfold closeWakeSection
      split_ifs with hbusy
      · exact .stay
      · exact .closed (Or.inr ⟨rfl,by assumption⟩) (by simpa using hbusy)
    · cases h
  | mockDestroy call condResult mutexResult =>
    obtain ⟨hidle,rfl⟩ := startCall_eq_some h
    exact destroySection_move hidle

end QbitNova.Frontend
