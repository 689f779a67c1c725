import QbitNova.Device.FrontendOwnership

/-! # The reported device state against the documented state machine

The design document lists the transitions of the device state. The frontend
assigns the reported state in several sections, while an exchange is let through
by a different field, the attachment of the backend. A backend that disconnects
leaves the frontend attached and offline, and the next exchange starts from there.
-/
namespace QbitNova.Frontend
open Function (update update_self update_of_ne)

/-- The step ends the exchange of this task. -/
def Ends (s t : System) (task : ℕ) : Prop := s.mock.activeTask = some task ∧ t.mock.activeTask = none

/-- The backend says that it is gone: by the code it returns, or by the status of a response,
which has to be one of the protocol if the call succeeded. -/
structure SaysGone (result : ℤ) (response : Response) : Prop where
  told : result = -enodev ∨ response.status.toUInt32 = statusBackendAbsent
  clear : result ≠ -etimedout ∧ result ≠ -ecanceled
  formed : result = 0 → response.magic = qcpuUapiResponseMagic ∧ response.version = qcpuUapiProtocolVersion

/-- The transitions of the design document. Under the strict reading a backend that said that
it is gone is not there any more, whatever the caller was told; otherwise it is there as long
as it is attached. -/
inductive Documented (strict : Bool) (s : System) (e : Event) (t : System) : Prop
  | unchanged (hstate : t.mock.deviceState = s.mock.deviceState)
  | attached {call : ℕ} {ops : BackendOps} {context : Option ℕ} {name : Option CText.Bytes}
    (hfrom : s.mock.deviceState = .offline) (hto : t.mock.deviceState = .idle)
    (he : e = .setBackend call (some ops) context name)
  | begun {call : ℕ} {argument : Option Exchange} {dispatch : Dispatch} {exchange : Exchange} {deadline : UInt64}
    (hfrom : s.mock.deviceState = .idle) (hto : t.mock.deviceState = .busy)
    (he : e = .exchange call argument dispatch)
    (hpre : qcpuPrevalidateExchangeLocked s.mock argument dispatch.clock = .accepted exchange deadline)
    (hactive : t.mock.activeTask = some s.taskCount)
  | ended {task : ℕ} (hfrom : s.mock.deviceState = .busy) (hto : t.mock.deviceState = .idle)
    (hends : Ends s t task) (hattached : t.mock.backendAttached = true)
    (hthere : strict = true → ¬ SaysGone (t.tasks task).backendResult (t.tasks task).response)
  | disconnected {task : ℕ} (hfrom : s.mock.deviceState = .busy) (hto : t.mock.deviceState = .offline)
    (hends : Ends s t task) (hgone : SaysGone (t.tasks task).backendResult (t.tasks task).response)
  | detached {call : ℕ} {context : Option ℕ} {name : Option CText.Bytes}
    (hfrom : s.mock.deviceState = .idle) (hto : t.mock.deviceState = .offline)
    (he : e = .setBackend call none context name)

/-- Whatever the step does to the reported state is documented, and it hands no exchange
to the backend of an offline device. -/
def FollowsDesign (strict : Bool) (s : System) (e : Event) : Prop :=
  ∀ t, step s e = some t →
    Documented strict s e t ∧ (s.mock.deviceState = .offline → t.taskCount = s.taskCount)

/-- No exchange passes the checks of an offline device. Under the strict reading, also no
caller that is past its deadline or was canceled takes over the word of a backend that is gone,
and no worker whose caller has given up brings it by a response. -/
def StaysOnline (strict : Bool) (s : System) (e : Event) : Prop :=
  ∀ t, step s e = some t →
    (∀ call argument dispatch exchange deadline, e = .exchange call argument dispatch →
      qcpuPrevalidateExchangeLocked s.mock argument dispatch.clock = .accepted exchange deadline →
      s.mock.deviceState ≠ .offline) ∧
    (strict = true → ∀ call argument task timedOut, TakesOver s call argument task timedOut e →
      timedOut = true ∨ s.mock.cancelRequested = true →
        ¬ SaysGone (s.tasks task).backendResult (s.tasks task).response) ∧
    (strict = true → ∀ task result, e = .workerFinish task → (s.tasks task).worker = .returned result →
      (s.tasks task).callerAbandoned = true → SaysGone result (s.tasks task).response → result = -enodev)

theorem finalize_state (m : Mock) (offline success : Bool) (errorNumber : ℤ) (status : UInt32) :
    (qcpuFinalizeExchangeLocked m offline success errorNumber status).deviceState =
      if offline || !m.backendAttached then .offline else .idle := by
  cases success <;> rfl

theorem finalize_attached (m : Mock) (offline success : Bool) (errorNumber : ℤ) (status : UInt32) :
    (qcpuFinalizeExchangeLocked m offline success errorNumber status).backendAttached = m.backendAttached := by
  cases success <;> rfl

theorem finalize_active (m : Mock) (offline success : Bool) (errorNumber : ℤ) (status : UInt32) :
    (qcpuFinalizeExchangeLocked m offline success errorNumber status).activeTask = m.activeTask := by
  cases success <;> rfl

theorem setBackend_state {m m' : Mock} {ops : Option BackendOps} {context : Option ℕ} {name : Option CText.Bytes}
    (h : qcpuMockSetBackend m ops context name = .ok m') :
    m'.deviceState = if ops.isSome then .idle else .offline := by
  unfold qcpuMockSetBackend at h
  split_ifs at h with hbusy
  cases ops with
  | none =>
    cases h
    rfl
  | some ops =>
    simp only [] at h
    split_ifs at h
    cases h
    rfl

theorem requestCancel_state (m : Mock) : (qcpuRequestCancelLocked m).1.deviceState = m.deviceState := by
  rcases requestCancel_eq m with he | ⟨-,he⟩ <;> rw [he]

/-- A frontend that is not busy reports idle or offline. -/
theorem MockValid.free_state {m : Mock} (h : MockValid m) (hbusy : m.busy = false) :
    m.deviceState = .idle ∨ m.deviceState = .offline := by
  have hstate := h.busy_iff_state
  have herror := h.not_error
  rw [hbusy] at hstate
  cases hd : m.deviceState with
  | offline => exact Or.inr rfl
  | idle => exact Or.inl rfl
  | busy => exact absurd (hstate.mpr hd) Bool.false_ne_true
  | error => exact absurd hd herror

/-- A rejection reports what was reported before: the state it assigns is the one a
frontend without a backend is already in. -/
theorem MockValid.rejected_state {m after : Mock} (h : MockValid m) {argument delivered : Option Exchange}
    {clock : Option Timespec} {errorNumber : ℤ}
    (hpre : qcpuPrevalidateExchangeLocked m argument clock = .rejected after delivered errorNumber) :
    after.deviceState = m.deviceState := by
  obtain ⟨status,base,-,hbase,rfl,-⟩ := prevalidate_rejects m argument clock after delivered errorNumber hpre
  rcases hbase with rfl | ⟨rfl,-,hgone⟩
  · rfl
  · have hdetached : m.backendAttached = false := by
      rcases hgone with hgone | hgone
      · exact hgone
      · have hiff := h.attached_iff
        rw [hgone] at hiff
        simpa using hiff
    exact (h.detached_offline hdetached).symm

/-- Whether an exchange that ended this way reports the backend gone. -/
def reportsGone : Except Verdict Response → Bool
  | .error verdict => verdict.offline
  | .ok _ => false

/-- Whether a check of a response reports the backend gone. -/
def checkedGone : Except Verdict Unit → Bool
  | .error verdict => verdict.offline
  | .ok () => false

theorem checkedGone_ite {p : Prop} [Decidable p] {errorNumber : ℤ} {status : UInt32} {rest : Except Verdict Unit}
    (hrest : checkedGone rest = false) :
    checkedGone (if p then .error ⟨errorNumber,status,false⟩ else rest) = false := by
  by_cases hp : p
  · rw [if_pos hp]
    rfl
  · rwa [if_neg hp]

/-- All other errors leave the backend where it is. -/
theorem validate_still (request : Request) {response : Response}
    (habsent : response.status.toUInt32 ≠ statusBackendAbsent) :
    checkedGone (qcpuValidateBackendResponse request response) = false := by
  have hstatus : (response.status.toUInt32 == statusBackendAbsent) = false := beq_eq_false_iff_ne.mpr habsent
  unfold qcpuValidateBackendResponse
  rw [hstatus]
  iterate 7 refine checkedGone_ite ?_
  by_cases hghz : request.command = qcpuUapiCommandRunGhz
  · rw [if_pos hghz]
    exact checkedGone_ite (checkedGone_ite (checkedGone_ite rfl))
  · rw [if_neg hghz]
    rfl

theorem validate_gone_iff (request : Request) (response : Response) :
    checkedGone (qcpuValidateBackendResponse request response) = true ↔ response.magic = qcpuUapiResponseMagic ∧
      response.version = qcpuUapiProtocolVersion ∧ response.status.toUInt32 = statusBackendAbsent := by
  by_cases habsent : response.status.toUInt32 = statusBackendAbsent
  · unfold qcpuValidateBackendResponse
    by_cases hmagic : response.magic = qcpuUapiResponseMagic
    · by_cases hversion : response.version = qcpuUapiProtocolVersion
      · rw [if_neg (not_not.mpr hmagic),if_neg (not_not.mpr hversion),habsent,if_neg (by decide),if_pos (by decide)]
        exact iff_of_true rfl ⟨hmagic,hversion,rfl⟩
      · rw [if_neg (not_not.mpr hmagic),if_pos hversion]
        exact iff_of_false nofun fun h => hversion h.2.1
    · rw [if_pos hmagic]
      exact iff_of_false nofun fun h => hmagic h.1
  · rw [validate_still request habsent]
    exact iff_of_false nofun fun h => habsent h.2.2

theorem outcome_gone_iff (timedOut canceled : Bool) (result : ℤ) (request : Request) (response : Response) :
    reportsGone (exchangeOutcome timedOut canceled result request response) = true ↔
      timedOut = false ∧ canceled = false ∧ SaysGone result response := by
  cases timedOut with
  | true => exact iff_of_false nofun nofun
  | false =>
    cases canceled with
    | true => exact iff_of_false nofun nofun
    | false =>
      simp only [exchangeOutcome,Bool.false_eq_true,↓reduceIte,false_or,true_and]
      by_cases hcanceled : result = -ecanceled
      · rw [if_pos hcanceled]
        exact iff_of_false nofun fun h => h.clear.2 hcanceled
      rw [if_neg hcanceled]
      by_cases hzero : result = 0
      · subst hzero
        rw [if_neg (by simp)]
        have hchecked : checkedGone (qcpuValidateBackendResponse request response) = true ↔ SaysGone 0 response := by
          rw [validate_gone_iff]
          constructor
          · rintro ⟨hmagic,hversion,habsent⟩
            exact ⟨Or.inr habsent,by decide,fun _ => ⟨hmagic,hversion⟩⟩
          · intro h
            obtain ⟨hmagic,hversion⟩ := h.formed rfl
            exact ⟨hmagic,hversion,h.told.resolve_left (by decide)⟩
        cases hv : qcpuValidateBackendResponse request response with
        | error verdict => rwa [hv] at hchecked
        | ok _ => rwa [hv] at hchecked
      rw [if_pos hzero]
      by_cases hgone : result = -enodev
      · subst hgone
        rw [if_pos rfl]
        exact iff_of_true rfl ⟨Or.inl rfl,by decide,fun h => absurd h (by decide)⟩
      rw [if_neg hgone]
      by_cases htimeout : result = -etimedout
      · rw [if_pos htimeout]
        exact iff_of_false nofun fun h => h.clear.1 htimeout
      rw [if_neg htimeout,if_neg hcanceled]
      by_cases habsent : response.status.toUInt32 = statusBackendAbsent
      · rw [habsent,if_pos (by decide)]
        exact iff_of_true rfl ⟨Or.inr habsent,⟨htimeout,hcanceled⟩,fun h => absurd h hzero⟩
      · refine iff_of_false ?_ fun h => h.told.elim hgone habsent
        split_ifs <;> simp [reportsGone,habsent]

section Finish
variable (s : System) (call : ℕ) (argument : Option Exchange) (task : ℕ) (timedOut : Bool)

theorem finish_state : (finishSection s call argument task timedOut).mock.deviceState =
    if reportsGone (exchangeOutcome timedOut s.mock.cancelRequested (s.tasks task).backendResult
      (s.tasks task).request (s.tasks task).response) || !s.mock.backendAttached then .offline else .idle := by
  unfold finishSection
  simp only []
  split
  · rename_i verdict ho
    rw [ho]
    exact finalize_state _ _ _ _ _
  · rename_i response ho
    rw [ho]
    exact finalize_state _ _ _ _ _

theorem finish_mock : (finishSection s call argument task timedOut).mock.activeTask = none ∧
    (finishSection s call argument task timedOut).mock.backendAttached = s.mock.backendAttached := by
  unfold finishSection
  simp only []
  split <;> exact ⟨finalize_active _ _ _ _ _,finalize_attached _ _ _ _ _⟩

theorem finish_task : (finishSection s call argument task timedOut).taskCount = s.taskCount ∧
    (finishSection s call argument task timedOut).tasks task =
      { s.tasks task with references := (s.tasks task).references - 1 } := by
  unfold finishSection
  simp only []
  split <;> exact ⟨rfl,update_self _ _ _⟩

end Finish

theorem Valid.active_state {s : System} (hs : Valid s) {task : ℕ} (hactive : s.mock.activeTask = some task) :
    s.mock.deviceState = .busy ∧ s.mock.backendAttached = true := by
  have hbusy : s.mock.busy = true := hs.mock.busy_iff_active.mpr (by rw [hactive]; rfl)
  exact ⟨hs.mock.busy_iff_state.mp hbusy,hs.mock.busy_attached hbusy⟩

theorem finished_documented {s : System} {e : Event} {call task : ℕ} {argument : Option Exchange}
    {strict timedOut : Bool} (hs : Valid s) (hover : TakesOver s call argument task timedOut e)
    (hlate : strict = true → timedOut = true ∨ s.mock.cancelRequested = true →
      ¬ SaysGone (s.tasks task).backendResult (s.tasks task).response) :
    Documented strict s e (finishSection s call argument task timedOut) := by
  obtain ⟨hactive,-,-⟩ := hs.owner.caller call task hover.task
  obtain ⟨hbusy,hattached⟩ := hs.active_state hactive
  obtain ⟨hnone,hkept⟩ := finish_mock s call argument task timedOut
  obtain ⟨-,htask⟩ := finish_task s call argument task timedOut
  have hstate := finish_state s call argument task timedOut
  have hsaid := outcome_gone_iff timedOut s.mock.cancelRequested (s.tasks task).backendResult
    (s.tasks task).request (s.tasks task).response
  rw [hattached] at hstate hkept
  cases hgone : reportsGone (exchangeOutcome timedOut s.mock.cancelRequested (s.tasks task).backendResult
      (s.tasks task).request (s.tasks task).response) with
  | true =>
    rw [hgone] at hstate hsaid
    refine .disconnected hbusy hstate ⟨hactive,hnone⟩ ?_
    rw [htask]
    exact (hsaid.mp rfl).2.2
  | false =>
    rw [hgone] at hstate hsaid
    refine .ended hbusy hstate ⟨hactive,hnone⟩ hkept ?_
    intro hyes hdisconnect
    rw [htask] at hdisconnect
    have hpassed : timedOut = true ∨ s.mock.cancelRequested = true := by
      by_contra honTime
      rw [not_or,Bool.not_eq_true,Bool.not_eq_true] at honTime
      exact Bool.false_ne_true (hsaid.mpr ⟨honTime.1,honTime.2,hdisconnect⟩)
    exact hlate hyes hpassed hdisconnect

theorem saysGone_enodev (response : Response) : SaysGone (-enodev) response :=
  ⟨Or.inl rfl,by decide,fun h => absurd h (by decide)⟩

theorem workerFinish_state {s : System} {task : ℕ} {result : ℤ} (hs : Valid s)
    (hw : (s.tasks task).worker = .returned result) (hab : (s.tasks task).callerAbandoned = true) :
    Ends s (workerSection s task result) task ∧ (workerSection s task result).mock.backendAttached = true ∧
      (workerSection s task result).mock.deviceState = if result == -enodev then .offline else .idle := by
  have hactive := hs.owner.running task (by rw [hw]; nofun) (by rw [hw]; nofun)
  obtain ⟨-,hattached⟩ := hs.active_state hactive
  have hmock : (workerSection s task result).mock = { s.mock with
      activeTask := none
      busy := false
      cancelRequested := false
      cancelSent := false
      deviceState := if result == -enodev then .offline else .idle } := by
    simp only [workerSection,hab,hactive,hattached,beq_self_eq_true,Bool.and_self,↓reduceIte,Bool.not_true,
      Bool.false_or]
  refine ⟨⟨hactive,?_⟩,?_,?_⟩
  · rw [hmock]
  · rw [hmock]
    exact hattached
  · rw [hmock]

theorem workerFinish_task (s : System) (task : ℕ) (result : ℤ) :
    ((workerSection s task result).tasks task).backendResult = result ∧
      ((workerSection s task result).tasks task).response = (s.tasks task).response := by
  simp only [workerSection,update_self,and_self]

/-- The end of a worker is documented unless its caller has given up and a response says that the
backend is gone. -/
theorem workerFinish_documented {s : System} {task : ℕ} {result : ℤ} {strict : Bool} (hs : Valid s)
    (hw : (s.tasks task).worker = .returned result)
    (hlate : strict = true → (s.tasks task).callerAbandoned = true → SaysGone result (s.tasks task).response →
      result = -enodev) :
    Documented strict s (.workerFinish task) (workerSection s task result) := by
  have hactive := hs.owner.running task (by rw [hw]; nofun) (by rw [hw]; nofun)
  obtain ⟨hbusy,-⟩ := hs.active_state hactive
  obtain ⟨hresult,hresponse⟩ := workerFinish_task s task result
  cases hab : (s.tasks task).callerAbandoned with
  | false =>
    apply Documented.unchanged
    simp only [workerSection,hab,Bool.false_and,Bool.false_eq_true,↓reduceIte]
  | true =>
    obtain ⟨hends,hattached,hstate⟩ := workerFinish_state hs hw hab
    by_cases hgone : result = -enodev
    · rw [beq_iff_eq.mpr hgone] at hstate
      refine .disconnected hbusy hstate hends ?_
      rw [hresult,hgone]
      exact saysGone_enodev _
    · rw [beq_eq_false_iff_ne.mpr hgone] at hstate
      refine .ended hbusy hstate hends hattached fun hyes hsays => hgone ?_
      rw [hresult,hresponse] at hsays
      exact hlate hyes hab hsays

theorem setBackend_documented {s t : System} {call : ℕ} {ops : Option BackendOps} {context : Option ℕ}
    {name : Option CText.Bytes} {mock : Mock} (strict : Bool) (hs : Valid s)
    (hset : qcpuMockSetBackend s.mock ops context name = .ok mock) (ht : t.mock = mock) :
    Documented strict s (.setBackend call ops context name) t := by
  have hfree := hs.mock.free_state (setBackend_eq hset).1
  have hstate := setBackend_state hset
  rw [← ht] at hstate
  cases ops with
  | none =>
    rcases hfree with hidle | hoffline
    · exact .detached hidle hstate rfl
    · exact .unchanged (hstate.trans hoffline.symm)
  | some ops =>
    rcases hfree with hidle | hoffline
    · exact .unchanged (hstate.trans hidle.symm)
    · exact .attached hoffline hstate rfl

theorem accepted_free {s : System} {argument : Option Exchange} {clock : Option Timespec} {exchange : Exchange}
    {deadline : UInt64} (hs : Valid s)
    (hpre : qcpuPrevalidateExchangeLocked s.mock argument clock = .accepted exchange deadline)
    (honline : s.mock.deviceState ≠ .offline) : s.mock.deviceState = .idle ∧ s.mock.backendAttached = true := by
  obtain ⟨-,hbusy,hattached,-⟩ := prevalidate_accepted hpre
  exact ⟨(hs.mock.free_state hbusy).resolve_right honline,hattached⟩

theorem undispatched_attached {s : System} {mock : Mock} (h : Undispatched s mock) :
    mock.backendAttached = s.mock.backendAttached := by
  rcases h with rfl | rfl <;> rfl

theorem failLocally_state {s : System} {call : ℕ} {argument : Option Exchange} {mock : Mock} {errorNumber : ℤ}
    (hmock : Undispatched s mock) (hattached : s.mock.backendAttached = true) :
    (failLocally s call argument mock errorNumber).mock.deviceState = .idle := by
  have hstate := finalize_state mock false false errorNumber statusIo
  rw [undispatched_attached hmock,hattached] at hstate
  exact hstate

theorem step_documented {strict : Bool} {s t : System} {e : Event} (hs : Valid s) (he : step s e = some t)
    (honline : StaysOnline strict s e) : Documented strict s e t := by
  obtain ⟨hdispatch,hlate,hgivenUp⟩ := honline t he
  cases step_move he with
  | setBackend hidle hset => exact setBackend_documented strict hs hset rfl
  | opened hidle hopen =>
    obtain ⟨-,descriptor,rfl⟩ := open_eq hopen
    exact .unchanged rfl
  | rejected hidle hpre => exact .unchanged (hs.mock.rejected_state hpre)
  | failedLocally hidle hpre hmock hlocal =>
    obtain ⟨hstate,hattached⟩ := accepted_free hs hpre (hdispatch _ _ _ _ _ rfl hpre)
    exact .unchanged ((failLocally_state hmock hattached).trans hstate.symm)
  | dispatched hidle hpre =>
    obtain ⟨hstate,-⟩ := accepted_free hs hpre (hdispatch _ _ _ _ _ rfl hpre)
    exact .begun hstate rfl rfl hpre rfl
  | workerFinish hw => exact workerFinish_documented hs hw fun hyes => hgivenUp hyes _ _ rfl hw
  | expired hc => exact .unchanged (requestCancel_state s.mock)
  | finished hover => exact finished_documented hs hover fun hyes => hlate hyes _ _ _ _ hover
  | closeRequested hidle hopen hbusy => exact .unchanged (requestCancel_state s.mock)
  | closed hc hbusy =>
    apply Documented.unchanged
    simp only [endSection,endSession_mock]
  | _ => exact .unchanged rfl

theorem step_taskCount {s t : System} {e : Event} (he : step s e = some t) :
    t.taskCount = s.taskCount ∨ ∃ call argument dispatch exchange deadline, e = .exchange call argument dispatch ∧
      qcpuPrevalidateExchangeLocked s.mock argument dispatch.clock = .accepted exchange deadline := by
  cases step_move he with
  | dispatched hidle hpre => exact Or.inr ⟨_,_,_,_,_,rfl,hpre⟩
  | finished hover => exact Or.inl (finish_task _ _ _ _ _).1
  | _ => exact Or.inl rfl

theorem exchange_accepted_state {s : System} {call : ℕ} {argument : Option Exchange} {dispatch : Dispatch}
    {exchange : Exchange} {deadline : UInt64}
    (hpre : qcpuPrevalidateExchangeLocked s.mock argument dispatch.clock = .accepted exchange deadline) :
    (exchangeSection s call argument dispatch).mock.deviceState = .idle ∨
      (exchangeSection s call argument dispatch).mock.deviceState = .busy := by
  obtain ⟨-,-,hattached,-⟩ := prevalidate_accepted hpre
  unfold exchangeSection
  rw [hpre]
  simp only []
  split_ifs
  · exact Or.inl (failLocally_state (Or.inl rfl) hattached)
  · exact Or.inl (failLocally_state (Or.inr rfl) hattached)
  · exact Or.inl (failLocally_state (Or.inr rfl) hattached)
  · exact Or.inr rfl

theorem TakesOver.step_eq {s : System} {call task : ℕ} {argument : Option Exchange} {timedOut : Bool} {e : Event}
    (h : TakesOver s call argument task timedOut e) :
    step s e = some (finishSection s call argument task timedOut) := by
  cases h with
  | relock hc hdone =>
    simp only [step,hc,relockSection]
    rw [if_neg]
    rintro hwaits
    obtain ⟨hlate,hrunning⟩ := (Bool.and_eq_true _ _).mp hwaits
    rw [hdone hlate] at hrunning
    cases hrunning
  | grace hc hdone =>
    simp only [step,hc,graceSection,hdone,↓reduceIte]

theorem not_documented_exchange {strict : Bool} {s t : System} {call : ℕ} {argument : Option Exchange}
    {dispatch : Dispatch} (hoffline : s.mock.deviceState = .offline)
    (hstate : t.mock.deviceState = .idle ∨ t.mock.deviceState = .busy) :
    ¬ Documented strict s (.exchange call argument dispatch) t := by
  intro hdoc
  cases hdoc with
  | unchanged hsame =>
    rw [hsame,hoffline] at hstate
    rcases hstate with hstate | hstate <;> cases hstate
  | attached hfrom hto he => cases he
  | begun hfrom => rw [hoffline] at hfrom; cases hfrom
  | ended hfrom => rw [hoffline] at hfrom; cases hfrom
  | disconnected hfrom => rw [hoffline] at hfrom; cases hfrom
  | detached hfrom => rw [hoffline] at hfrom; cases hfrom

/-- The device of an active task that goes idle has its backend there under the strict reading. -/
theorem not_documented_idle {s t : System} {e : Event} {task : ℕ} (hs : Valid s) (hactive : s.mock.activeTask = some task)
    (hstate : t.mock.deviceState = .idle)
    (hgone : SaysGone (t.tasks task).backendResult (t.tasks task).response) : ¬ Documented true s e t := by
  obtain ⟨hbusy,-⟩ := hs.active_state hactive
  intro hdoc
  cases hdoc with
  | unchanged hsame =>
    rw [hsame,hbusy] at hstate
    cases hstate
  | attached hfrom => rw [hbusy] at hfrom; cases hfrom
  | begun hfrom => rw [hbusy] at hfrom; cases hfrom
  | @ended ended hfrom hto hends _ hthere =>
    obtain rfl : task = ended := Option.some.inj (hactive.symm.trans hends.1)
    exact hthere rfl hgone
  | disconnected hfrom hto => rw [hstate] at hto; cases hto
  | detached hfrom => rw [hbusy] at hfrom; cases hfrom

theorem not_documented_late {s : System} {e : Event} {call task : ℕ} {argument : Option Exchange} {timedOut : Bool}
    (hs : Valid s) (hover : TakesOver s call argument task timedOut e)
    (hlate : timedOut = true ∨ s.mock.cancelRequested = true)
    (hgone : SaysGone (s.tasks task).backendResult (s.tasks task).response) :
    ¬ Documented true s e (finishSection s call argument task timedOut) := by
  obtain ⟨hactive,-,-⟩ := hs.owner.caller call task hover.task
  obtain ⟨-,hattached⟩ := hs.active_state hactive
  obtain ⟨-,htask⟩ := finish_task s call argument task timedOut
  refine not_documented_idle hs hactive ?_ (by rw [htask]; exact hgone)
  have hpassed : reportsGone (exchangeOutcome timedOut s.mock.cancelRequested (s.tasks task).backendResult
      (s.tasks task).request (s.tasks task).response) = false := by
    rw [← Bool.not_eq_true,outcome_gone_iff]
    rintro ⟨honTime,hkept,-⟩
    rw [honTime,hkept] at hlate
    rcases hlate with hlate | hlate <;> cases hlate
  rw [finish_state,hpassed,hattached]
  rfl

/-- Nor is one that a worker brings by a response after its caller has given up. -/
theorem not_documented_givenUp {s : System} {task : ℕ} {result : ℤ} (hs : Valid s)
    (hw : (s.tasks task).worker = .returned result) (hab : (s.tasks task).callerAbandoned = true)
    (hgone : SaysGone result (s.tasks task).response) (hresult : result ≠ -enodev) :
    ¬ Documented true s (.workerFinish task) (workerSection s task result) := by
  obtain ⟨hends,-,hstate⟩ := workerFinish_state hs hw hab
  obtain ⟨hbrought,hresponse⟩ := workerFinish_task s task result
  refine not_documented_idle hs hends.1 ?_ (by rw [hbrought,hresponse]; exact hgone)
  rw [hstate,beq_eq_false_iff_ne.mpr hresult]
  rfl

theorem followsDesign_iff (strict : Bool) {s : System} (hs : Valid s) (e : Event) :
    FollowsDesign strict s e ↔ StaysOnline strict s e := by
  constructor
  · intro hfollows t he
    refine ⟨?_,?_,?_⟩
    · rintro call argument dispatch exchange deadline rfl hpre hoffline
      obtain ⟨-,rfl⟩ := startCall_eq_some he
      exact not_documented_exchange hoffline (exchange_accepted_state hpre) (hfollows _ he).1
    · rintro rfl call argument task timedOut hover hlate hgone
      exact not_documented_late hs hover hlate hgone (hfollows _ hover.step_eq).1
    · rintro rfl task result rfl hw hab hgone
      by_contra hresult
      have hfinish : step s (.workerFinish task) = some (workerSection s task result) := by
        simp only [step,hw]
      exact not_documented_givenUp hs hw hab hgone hresult (hfollows _ hfinish).1
  · intro honline t he
    refine ⟨step_documented hs he honline,fun hoffline => ?_⟩
    rcases step_taskCount he with hcount | ⟨_,_,_,_,_,rfl,hpre⟩
    · exact hcount
    · exact absurd hoffline ((honline t he).1 _ _ _ _ _ rfl hpre)

/-- In every run of a created frontend, each step makes a documented change of the
reported state and dispatches nothing from offline exactly when each step keeps the
device online. -/
theorem run_followsDesign_iff (strict : Bool) {fault : Option ℤ} {config : MockConfig} {mock : Mock}
    (hcreate : qcpuMockCreate fault config = .ok mock) (events : List Event) :
    Transition.Meets step (FollowsDesign strict) (System.initial mock) events ↔
      Transition.Meets step (StaysOnline strict) (System.initial mock) events :=
  Transition.meets_congr (fun _ _ _ => step_valid) (fun _ e hs => followsDesign_iff strict hs e)
    (valid_initial hcreate) events

theorem run_followsDesign_sample : ∃ mock, qcpuMockCreate none sampleConfig = .ok mock ∧
    Transition.Meets step (FollowsDesign true) (System.initial mock) sampleRun := by
  have hcreate : qcpuMockCreate none sampleConfig = .ok _ := rfl
  refine ⟨_,hcreate,(run_followsDesign_iff true hcreate sampleRun).mpr ?_⟩
  have hquiet : ∀ s e, (∀ call argument dispatch, e ≠ .exchange call argument dispatch) →
      (∀ call clock, e ≠ .relock call clock) → (∀ call waitResult, e ≠ .graceWake call waitResult) →
      (∀ task, e ≠ .workerFinish task) → StaysOnline true s e := by
    intro s e hexchange hrelock hgrace hfinish t _
    refine ⟨fun call argument dispatch _ _ he => absurd he (hexchange call argument dispatch),?_,
      fun _ task _ he => absurd he (hfinish task)⟩
    intro _ call argument task timedOut hover
    cases hover with
    | relock => exact absurd rfl (hrelock _ _)
    | grace => exact absurd rfl (hgrace _ _)
  refine .cons (hquiet _ _ nofun nofun nofun nofun) rfl (.cons ?_ rfl
    (.cons (hquiet _ _ nofun nofun nofun nofun) rfl trivial))
  intro t _
  refine ⟨fun _ _ _ _ _ _ _ => by decide,?_,nofun⟩
  rintro _ call argument task timedOut ⟨⟩

/-- The backend of the first exchange returns the disconnect code. -/
def disconnectRun : List Event :=
  sampleRun ++ [.callbackReturn 0 (-enodev) {}, .workerFinish 0, .wake 1 0, .relock 1 none]

/-- After a disconnect the device is offline with its backend attached, and the next
exchange is dispatched from there. -/
theorem disconnected_dispatches : ∃ s t, Reachable s ∧
    step s (.exchange 2 (some sampleExchange) sampleDispatch) = some t ∧
    s.mock.deviceState = .offline ∧ t.mock.deviceState = .busy ∧ t.taskCount = s.taskCount + 1 ∧
    ∀ strict, ¬ Documented strict s (.exchange 2 (some sampleExchange) sampleDispatch) t := by
  refine ⟨_,_,⟨sampleConfig,_,disconnectRun,rfl,rfl⟩,rfl,rfl,rfl,rfl,fun strict => ?_⟩
  exact not_documented_exchange rfl (Or.inr rfl)

end QbitNova.Frontend
