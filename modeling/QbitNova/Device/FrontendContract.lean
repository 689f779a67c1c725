import QbitNova.Device.FrontendOwnership
import QbitNova.Library.Checks

/-! # The fail-closed contract of the exchange ioctl

An exchange that returns 0 hands out exactly what its own callback wrote, and that
passed every check; an exchange that returns -1 hands out the canonical failure
record and nothing of the backend's. The contract is carried through every
schedule together with the task each pending caller is waiting for.
-/
namespace QbitNova.Frontend
open Function (update update_self update_of_ne)
open Checks

/-- What the caller may rely on in a response it is given with result 0. -/
structure Accepted (request : Request) (response : Response) : Prop where
  magic : response.magic = qcpuUapiResponseMagic
  version : response.version = qcpuUapiProtocolVersion
  status : response.status.toUInt32 = statusOk
  flags : response.flags &&& qcpuMockRequiredFlags = qcpuMockRequiredFlags
  qubits : response.qubits = request.qubits
  shots : response.shots.toNat = request.shots.toNat
  norm : response.normQ32_32.toNat ≤ 2^32
  ghz : request.command = qcpuUapiCommandRunGhz →
    response.basisStates.toNat = 2^request.qubits.toNat ∧
    (response.measuredState.toNat = 0 ∨ response.measuredState.toNat = 2^request.qubits.toNat - 1) ∧
    response.invalidResults = 0

/-- The canonical failure record for a request: no field depends on the backend. -/
structure FailClosed (argument delivered : Exchange) (errorNumber : ℤ) (localFailure : Option ℤ) : Prop where
  kept : delivered.request = argument.request ∧ delivered.timeoutNs = argument.timeoutNs
  record : delivered.response =
    { magic := qcpuUapiResponseMagic
      version := qcpuUapiProtocolVersion
      status := delivered.response.status
      flags := qcpuMockRequiredFlags
      qubits := argument.request.qubits
      basisStates := 0
      shots := argument.request.shots.toUInt64
      measuredState := 0
      invalidResults := 0
      normQ32_32 := 0 }
  status : delivered.response.status.toUInt32 ≠ statusOk
  errno : (localFailure = none ∧ errorNumber = qcpuStatusToErrno delivered.response.status.toUInt32) ∨
    (localFailure = some errorNumber ∧ delivered.response.status.toUInt32 = statusIo)

/-- The two ways an exchange may return. In the first the response is the one the
callback of this call's own task wrote, returning 0. -/
def Contract (tasks : ℕ → Task) (log : List Note) (call : ℕ) (answer : ExchangeReturn) : Prop :=
  (answer.result = .ok () ∧ ∃ argument response task,
    answer.argument = some argument ∧ answer.delivered = some { argument with response := response } ∧
    (tasks task).worker ≠ .absent ∧ (tasks task).owner = call ∧
    Note.callback task argument.request 0 response ∈ log ∧ Accepted argument.request response) ∨
  (∃ errorNumber, answer.result = .error errorNumber ∧ ∀ argument, answer.argument = some argument →
    ∃ delivered, answer.delivered = some delivered ∧
      FailClosed argument delivered errorNumber answer.localFailure)

theorem fails_narrow {status : UInt32} (h : Fails status) : status.toUInt16.toUInt32 = status := by
  have hle : status.toNat ≤ 10 := by
    have := h.1
    simpa [qcpuStatusKnown,statusCanceled,UInt32.le_iff_toNat_le] using this
  apply UInt32.toNat_inj.mp
  simp only [UInt16.toNat_toUInt32,UInt32.toNat_toUInt16]
  omega

/-- A failure response with a failing status meets the contract. -/
theorem failClosed_failureResponse {argument : Exchange} {status : UInt32} {errorNumber : ℤ}
    {localFailure : Option ℤ} (hstatus : Fails status)
    (herrno : (localFailure = none ∧ errorNumber = qcpuStatusToErrno status) ∨
      (localFailure = some errorNumber ∧ status = statusIo)) :
    FailClosed argument { argument with response := failureResponse argument.request status }
      errorNumber localFailure := by
  have hn := fails_narrow hstatus
  refine ⟨⟨rfl,rfl⟩,rfl,?_,?_⟩
  · exact fun h => hstatus.2 (hn.symm.trans h)
  · simpa only [failureResponse,hn] using herrno

theorem contract_failure {tasks : ℕ → Task} {log : List Note} {call : ℕ} {argument : Option Exchange}
    {status : UInt32} {errorNumber : ℤ} {localFailure : Option ℤ} (hstatus : Fails status)
    (herrno : argument.isSome = true → (localFailure = none ∧ errorNumber = qcpuStatusToErrno status) ∨
      (localFailure = some errorNumber ∧ status = statusIo)) :
    Contract tasks log call
      ⟨argument, qcpuSetFailureResponse argument status, .error errorNumber, localFailure⟩ := by
  refine Or.inr ⟨errorNumber,rfl,?_⟩
  rintro passed rfl
  exact ⟨_,rfl,failClosed_failureResponse hstatus (herrno rfl)⟩

theorem oneShift_toNat {q : UInt32} (h : q.toNat ≤ 20) : ((1 : UInt64) <<< q.toUInt64).toNat = 2^q.toNat := by
  have hpow : 2^q.toNat ≤ 2^20 := Nat.pow_le_pow_right (by decide) h
  rw [UInt64.toNat_shiftLeft,UInt32.toNat_toUInt64,Nat.mod_eq_of_lt (show q.toNat < 64 by omega),
    UInt64.toNat_one,Nat.one_shiftLeft]
  exact Nat.mod_eq_of_lt (by omega)

/-- A verdict that names a failing status and the errno of that status. -/
def VerdictFails (v : Verdict) : Prop :=
  Fails v.protocolStatus ∧ v.errorNumber = qcpuStatusToErrno v.protocolStatus

instance (v : Verdict) : Decidable (VerdictFails v) := inferInstanceAs (Decidable (_ ∧ _))

/-- Every failing check of a response gives such a verdict. -/
theorem validate_errors (request : Request) (response : Response) :
    Errors VerdictFails (qcpuValidateBackendResponse request response) := by
  unfold qcpuValidateBackendResponse
  refine Errors.ite (fun _ => Errors.error (by decide)) fun _ => ?_
  refine Errors.ite (fun _ => Errors.error (by decide)) fun _ => ?_
  refine Errors.ite (fun _ => Errors.error (by decide)) fun hknown => ?_
  refine Errors.ite (fun hstatus => Errors.error ⟨⟨by simpa using hknown,hstatus⟩,rfl⟩) fun _ => ?_
  refine Errors.ite (fun _ => Errors.error (by decide)) fun _ => ?_
  refine Errors.ite (fun _ => Errors.error (by decide)) fun _ => ?_
  refine Errors.ite (fun _ => Errors.error (by decide)) fun _ => ?_
  refine Errors.ite (fun _ => ?_) fun _ => Errors.ok _
  refine Errors.ite (fun _ => Errors.error (by decide)) fun _ => ?_
  refine Errors.ite (fun _ => Errors.error (by decide)) fun _ => ?_
  exact Errors.ite (fun _ => Errors.error (by decide)) fun _ => Errors.ok _

theorem allOnes_toNat {q : UInt32} (h : q.toNat ≤ 20) :
    ((1 : UInt64) <<< q.toUInt64 - 1).toNat = 2^q.toNat - 1 := by
  have hone : (1 : UInt64) ≤ (1 : UInt64) <<< q.toUInt64 := by
    rw [UInt64.le_iff_toNat_le,oneShift_toNat h]
    exact Nat.one_le_two_pow
  rw [UInt64.toNat_sub_of_le _ _ hone,oneShift_toNat h]
  rfl

theorem validate_ok {request : Request} {response : Response} (hreq : RequestValid request)
    (h : qcpuValidateBackendResponse request response = .ok ()) : Accepted request response := by
  unfold qcpuValidateBackendResponse at h
  obtain ⟨hmagic,h⟩ := passed h
  obtain ⟨hversion,h⟩ := passed h
  obtain ⟨-,h⟩ := passed h
  obtain ⟨hstatus,h⟩ := passed h
  obtain ⟨hflags,h⟩ := passed h
  obtain ⟨hecho,h⟩ := passed h
  obtain ⟨hnorm,h⟩ := passed h
  obtain ⟨hqubits,hshots⟩ : response.qubits = request.qubits ∧ response.shots = request.shots.toUInt64 := by
    simpa using hecho
  refine ⟨not_not.mp hmagic,not_not.mp hversion,not_not.mp hstatus,not_not.mp hflags,hqubits,?_,?_,?_⟩
  · rw [hshots,UInt32.toNat_toUInt64]
  · exact UInt64.le_iff_toNat_le.mp (UInt64.not_lt.mp hnorm)
  · intro hghz
    obtain ⟨-,hmax,-⟩ := hreq.ghz_limits hghz
    rw [if_pos hghz] at h
    obtain ⟨hbasis,h⟩ := passed h
    obtain ⟨hmeasured,h⟩ := passed h
    obtain ⟨hinvalid,-⟩ := passed h
    refine ⟨by rw [not_not.mp hbasis,oneShift_toNat hmax],?_,not_not.mp hinvalid⟩
    by_cases hz : response.measuredState = 0
    · exact Or.inl (by rw [hz]; rfl)
    · right
      have hall : response.measuredState = (1 : UInt64) <<< request.qubits.toUInt64 - 1 := by
        by_contra hne
        exact hmeasured ⟨hz,hne⟩
      rw [hall,allOnes_toNat hmax]

theorem validate_of_accepted {request : Request} {response : Response} (hreq : RequestValid request)
    (h : Accepted request response) : qcpuValidateBackendResponse request response = .ok () := by
  have hshots : response.shots = request.shots.toUInt64 :=
    UInt64.toNat_inj.mp (h.shots.trans (UInt32.toNat_toUInt64 _).symm)
  have hnorm : ¬ response.normQ32_32 > (1 : UInt64) <<< (32 : UInt64) :=
    UInt64.not_lt.mpr (UInt64.le_iff_toNat_le.mpr h.norm)
  unfold qcpuValidateBackendResponse
  rw [if_neg (not_not.mpr h.magic),if_neg (not_not.mpr h.version),h.status,if_neg (by decide),if_neg (by decide),
    if_neg (not_not.mpr h.flags),if_neg (by simp [h.qubits,hshots]),if_neg hnorm]
  by_cases hghz : request.command = qcpuUapiCommandRunGhz
  · obtain ⟨-,hmax,-⟩ := hreq.ghz_limits hghz
    obtain ⟨hbasis,hmeasured,hinvalid⟩ := h.ghz hghz
    rw [← oneShift_toNat hmax,UInt64.toNat_inj] at hbasis
    rw [← allOnes_toNat hmax,UInt64.toNat_inj] at hmeasured
    have hmeasured' : ¬ (response.measuredState ≠ 0 ∧
        response.measuredState ≠ (1 : UInt64) <<< request.qubits.toUInt64 - 1) := by
      rintro ⟨hz,hne⟩
      exact hmeasured.elim (fun hzero => hz (UInt64.toNat_inj.mp hzero)) hne
    rw [if_pos hghz,if_neg (not_not.mpr hbasis)]
    simp only []
    rw [if_neg hmeasured',if_neg (not_not.mpr hinvalid)]
  · rw [if_neg hghz]

theorem exchangeOutcome_errors (timedOut cancelRequested : Bool) (backendResult : ℤ) (request : Request)
    (response : Response) :
    Errors VerdictFails (exchangeOutcome timedOut cancelRequested backendResult request response) := by
  unfold exchangeOutcome
  refine Errors.ite (fun _ => Errors.error (by decide)) fun _ => ?_
  refine Errors.ite (fun _ => Errors.error (by decide)) fun _ => ?_
  refine Errors.ite (fun _ => ?_) fun _ => ?_
  · refine Errors.ite (fun _ => Errors.error (by decide)) fun _ => ?_
    refine Errors.ite (fun _ => Errors.error (by decide)) fun _ => ?_
    refine Errors.ite (fun _ => Errors.error (by decide)) fun _ => ?_
    exact Errors.ite (fun hknown => Errors.error ⟨hknown,rfl⟩) fun _ => Errors.error (by decide)
  · cases hv : qcpuValidateBackendResponse request response with
    | error v => exact Errors.error (validate_errors request response v hv)
    | ok u => exact Errors.ok _

theorem exchangeOutcome_ok {timedOut cancelRequested : Bool} {backendResult : ℤ} {request : Request}
    {response delivered : Response}
    (h : exchangeOutcome timedOut cancelRequested backendResult request response = .ok delivered) :
    delivered = response ∧ backendResult = 0 ∧ qcpuValidateBackendResponse request response = .ok () := by
  unfold exchangeOutcome at h
  obtain ⟨-,h⟩ := passed h
  obtain ⟨-,h⟩ := passed h
  by_cases hzero : backendResult ≠ 0
  · rw [if_pos hzero] at h
    split_ifs at h
  · rw [if_neg hzero] at h
    cases hv : qcpuValidateBackendResponse request response with
    | error v =>
      rw [hv] at h
      cases h
    | ok u =>
      rw [hv] at h
      cases h
      exact ⟨rfl,not_not.mp hzero,rfl⟩

/-- A pending call waits for its own task, dispatched for the request it passed in. -/
def Bound (tasks : ℕ → Task) (call : ℕ) (argument : Option Exchange) (task : ℕ) : Prop :=
  (tasks task).worker ≠ .absent ∧ (tasks task).owner = call ∧
    ∃ passed, argument = some passed ∧ (tasks task).request = passed.request ∧ RequestValid passed.request

/-- What is known about a call, wherever it stands. -/
def CallValid (tasks : ℕ → Task) (log : List Note) (call : ℕ) : Call → Prop
  | .exchangeWait argument task => Bound tasks call argument task
  | .exchangeCancel argument task => Bound tasks call argument task
  | .exchangeRelock argument task _ => Bound tasks call argument task
  | .exchangeGrace argument task => Bound tasks call argument task
  | .exchangeReturned answer => Contract tasks log call answer
  | _ => True

/-- A worker past its callback keeps in its task what the callback wrote. -/
def Reported (log : List Note) (task : ℕ) (record : Task) : Prop :=
  (∀ result, record.worker = .returned result →
    Note.callback task record.request result record.response ∈ log) ∧
  (record.worker = .finished →
    Note.callback task record.request record.backendResult record.response ∈ log)

structure Contracted (tasks : ℕ → Task) (calls : ℕ → Call) (log : List Note) : Prop where
  calls : ∀ c, CallValid tasks log c (calls c)
  reported : ∀ t, Reported log t (tasks t)

/-- A dispatched task keeps its request and its owner. -/
def Continues (before after : Task) : Prop :=
  before.worker ≠ .absent → after.worker ≠ .absent ∧ after.owner = before.owner ∧ after.request = before.request

theorem Continues.refl (record : Task) : Continues record record := fun h => ⟨h,rfl,rfl⟩

theorem continues_update {tasks : ℕ → Task} {t : ℕ} {record : Task} (h : Continues (tasks t) record) (u : ℕ) :
    Continues (tasks u) (update tasks t record u) := by
  by_cases hu : u = t
  · subst hu
    rwa [update_self]
  · rw [update_of_ne hu]
    exact Continues.refl _

theorem Bound.mono {tasks tasks' : ℕ → Task} {call task : ℕ} {argument : Option Exchange}
    (ht : ∀ u, Continues (tasks u) (tasks' u)) (h : Bound tasks call argument task) :
    Bound tasks' call argument task := by
  obtain ⟨hw,ho,passed,ha,hr,hv⟩ := h
  obtain ⟨hw',ho',hr'⟩ := ht task hw
  exact ⟨hw',ho'.trans ho,passed,ha,hr'.trans hr,hv⟩

theorem Contract.mono {tasks tasks' : ℕ → Task} {log log' : List Note} {call : ℕ} {answer : ExchangeReturn}
    (ht : ∀ u, Continues (tasks u) (tasks' u)) (hl : log ⊆ log') (h : Contract tasks log call answer) :
    Contract tasks' log' call answer := by
  rcases h with ⟨hok,argument,response,task,ha,hd,hw,ho,hn,hacc⟩ | h
  · obtain ⟨hw',ho',-⟩ := ht task hw
    exact Or.inl ⟨hok,argument,response,task,ha,hd,hw',ho'.trans ho,hl hn,hacc⟩
  · exact Or.inr h

theorem CallValid.mono {tasks tasks' : ℕ → Task} {log log' : List Note} {call : ℕ} {x : Call}
    (ht : ∀ u, Continues (tasks u) (tasks' u)) (hl : log ⊆ log') (h : CallValid tasks log call x) :
    CallValid tasks' log' call x := by
  cases x with
  | exchangeWait argument task => exact Bound.mono ht h
  | exchangeCancel argument task => exact Bound.mono ht h
  | exchangeRelock argument task timedOut => exact Bound.mono ht h
  | exchangeGrace argument task => exact Bound.mono ht h
  | exchangeReturned answer => exact Contract.mono ht hl h
  | _ => trivial

theorem Reported.mono {log log' : List Note} {task : ℕ} {record : Task} (hl : log ⊆ log')
    (h : Reported log task record) : Reported log' task record :=
  ⟨fun result hw => hl (h.1 result hw),fun hw => hl (h.2 hw)⟩

namespace Contracted
variable {tasks : ℕ → Task} {calls : ℕ → Call} {log log' : List Note}

/-- A call moves on while no task changes. -/
theorem setCall (h : Contracted tasks calls log) (hl : log ⊆ log') {c : ℕ} {x : Call}
    (hx : CallValid tasks log' c x) : Contracted tasks (update calls c x) log' := by
  refine ⟨?_,fun t => (h.reported t).mono hl⟩
  intro d
  by_cases hd : d = c
  · subst hd
    rwa [update_self]
  · rw [update_of_ne hd]
    exact (h.calls d).mono (fun _ => Continues.refl _) hl

theorem setTask (h : Contracted tasks calls log) (hl : log ⊆ log') {t : ℕ} {record : Task}
    (hc : Continues (tasks t) record) (hr : Reported log' t record) :
    Contracted (update tasks t record) calls log' := by
  refine ⟨fun d => (h.calls d).mono (continues_update hc) hl,?_⟩
  intro u
  by_cases hu : u = t
  · subst hu
    rwa [update_self]
  · rw [update_of_ne hu]
    exact (h.reported u).mono hl

end Contracted

theorem callValid_plain {tasks : ℕ → Task} {log : List Note} {call : ℕ} {x : Call} (hx : x.plain = true) :
    CallValid tasks log call x := by
  cases x <;> trivial

theorem step_contracted {s t : System} {e : Event} (hs : Valid s) (h : Contracted s.tasks s.calls s.log)
    (he : step s e = some t) : Contracted t.tasks t.calls t.log := by
  have hcons : ∀ note : Note, s.log ⊆ note :: s.log := fun note => List.subset_cons_self note s.log
  cases step_move he with
  | plain hidle hx => exact h.setCall (List.Subset.refl _) (callValid_plain hx)
  | stay => exact h
  | setBackend hidle hset => exact h.setCall (hcons _) trivial
  | opened hidle hopen => exact h.setCall (hcons _) trivial
  | @rejected call argument delivered dispatch mock errorNumber hidle hpre =>
    obtain ⟨status,base,hstatus,-,-,rfl,herrno⟩ := prevalidate_rejects _ _ _ _ _ _ hpre
    exact h.setCall (List.Subset.refl _)
      (contract_failure hstatus (fun ha => Or.inl ⟨rfl,herrno ha⟩))
  | failedLocally hidle hpre hmock hlocal =>
    refine h.setCall (fun _ hn => List.mem_cons_of_mem _ (List.mem_cons_of_mem _ hn)) ?_
    exact contract_failure (by decide) (fun _ => Or.inr ⟨rfl,rfl⟩)
  | @dispatched call argument dispatch exchange deadline hidle hpre =>
    obtain ⟨-,-,-,passed,rfl,hrequest,hvalid⟩ := prevalidate_accepted hpre
    have hfresh := hs.owner.fresh s.taskCount (Nat.le_refl _)
    refine (h.setTask (hcons _) (t := s.taskCount) ?_ ?_).setCall (List.Subset.refl _) ?_
    · exact fun hw => absurd hfresh hw
    · exact ⟨nofun,nofun⟩
    · refine ⟨?_,?_,passed,rfl,?_,hvalid⟩ <;> rw [update_self]
      · nofun
      · exact hrequest
  | @callbackEnter task hw =>
    exact h.setTask (List.Subset.refl _) (fun _ => ⟨nofun,rfl,rfl⟩) ⟨nofun,nofun⟩
  | @callbackReturn task result response hw =>
    refine h.setTask (hcons _) (fun _ => ⟨nofun,rfl,rfl⟩) ⟨?_,nofun⟩
    rintro _ ⟨⟩
    exact List.mem_cons_self
  | @workerFinish task result hw =>
    refine h.setTask (List.Subset.refl _) (fun _ => ⟨nofun,rfl,rfl⟩) ⟨nofun,?_⟩
    exact fun _ => (h.reported task).1 result hw
  | @expired call task argument waitResult hc =>
    have hb : Bound s.tasks call argument task := by simpa only [CallValid,hc] using h.calls call
    refine h.setCall (List.Subset.refl _) ?_
    split <;> exact hb
  | @woken call task argument waitResult hc hdone =>
    have hb : Bound s.tasks call argument task := by simpa only [CallValid,hc] using h.calls call
    exact h.setCall (List.Subset.refl _) hb
  | @cancelByExchange call task argument hc =>
    have hb : Bound s.tasks call argument task := by simpa only [CallValid,hc] using h.calls call
    exact h.setCall (hcons _) hb
  | cancelByClose hc => exact h.setCall (hcons _) trivial
  | @grace call task argument clock hc =>
    have hb : Bound s.tasks call argument task := by simpa only [CallValid,hc] using h.calls call
    exact h.setCall (List.Subset.refl _) hb
  | @abandoned _ call task argument hev hc hdone =>
    have hkeep : Continues (s.tasks task) { s.tasks task with
        callerAbandoned := true, references := (s.tasks task).references - 1 } := fun hw => ⟨hw,rfl,rfl⟩
    refine (h.setTask (hcons _) hkeep ?_).setCall (List.Subset.refl _) ?_
    · exact (h.reported task).mono (hcons _)
    · exact contract_failure (by decide) (fun _ => Or.inl ⟨rfl,by decide⟩)
  | @finished _ call task argument timedOut hover =>
    have hb : Bound s.tasks call argument task := by
      cases hover with
      | relock hc hdone => simpa only [CallValid,hc] using h.calls call
      | grace hc hdone => simpa only [CallValid,hc] using h.calls call
    have hcallback := (h.reported task).2 ((hs.owner.done_iff task).mp (hover.done hs))
    have hkeep : Continues (s.tasks task) { s.tasks task with references := (s.tasks task).references - 1 } :=
      fun hw => ⟨hw,rfl,rfl⟩
    unfold finishSection
    simp only []
    split
    next v hout =>
      obtain ⟨hfails,herrno⟩ := exchangeOutcome_errors _ _ _ _ _ v hout
      refine (h.setTask (hcons _) hkeep ((h.reported task).mono (hcons _))).setCall (List.Subset.refl _) ?_
      exact contract_failure hfails (fun _ => Or.inl ⟨rfl,herrno⟩)
    next response hout =>
      obtain ⟨rfl,hzero,hvalidated⟩ := exchangeOutcome_ok hout
      obtain ⟨hw,ho,passed,rfl,hrequest,hvalid⟩ := hb.mono (continues_update hkeep)
      rw [update_self] at hrequest
      refine (h.setTask (hcons _) hkeep ((h.reported task).mono (hcons _))).setCall (List.Subset.refl _) ?_
      refine Or.inl ⟨rfl,passed,_,task,rfl,rfl,hw,ho,?_,?_⟩
      · have hn := List.mem_cons_of_mem (.answered call true) hcallback
        rw [hzero] at hn
        rwa [← hrequest]
      · rw [← hrequest]
        exact validate_ok (hrequest ▸ hvalid) hvalidated
  | @closeRequested call release hidle hopen hbusy =>
    refine h.setCall (List.Subset.refl _) ?_
    split <;> trivial
  | closed hc hbusy => exact h.setCall (hcons _) trivial
  | destroyed hidle hopen hbusy => exact h.setCall (hcons _) trivial
  | destroyedPartly hidle => exact h.setCall (List.Subset.refl _) trivial

theorem reachable_contracted {s : System} (h : Reachable s) : Contracted s.tasks s.calls s.log := by
  obtain ⟨config,mock,events,hcreate,hr⟩ := h
  have hI := Transition.run_invariant (I := fun s => Valid s ∧ Contracted s.tasks s.calls s.log)
    (fun _ _ _ hs he => ⟨step_valid hs.1 he,step_contracted hs.1 hs.2 he⟩)
    ⟨valid_initial hcreate,⟨fun _ => trivial,fun _ => ⟨nofun,nofun⟩⟩⟩ hr
  exact hI.2

/-- A local failure code is the code of an allocation, attribute or thread-creation
failure of the section that returned it. -/
theorem step_localFailure {s t : System} {e : Event} (he : step s e = some t) {c : ℕ} {r : ExchangeReturn}
    (hnew : s.calls c ≠ .exchangeReturned r) (hr : t.calls c = .exchangeReturned r) {code : ℤ}
    (hlocal : r.localFailure = some code) :
    ∃ argument dispatch, e = .exchange c argument dispatch ∧ dispatch.localFailure = some code := by
  have hcall : ∀ {calls : ℕ → Call} {d : ℕ} {x : Call}, calls c = s.calls c → update calls d x c =
      .exchangeReturned r → d = c ∧ x = .exchangeReturned r := by
    intro calls d x hsame hx
    by_cases hd : c = d
    · subst hd
      exact ⟨rfl,by rwa [update_self] at hx⟩
    · rw [update_of_ne hd,hsame] at hx
      exact absurd hx hnew
  cases step_move he with
  | plain hidle hx =>
    obtain ⟨-,rfl⟩ := hcall rfl hr
    cases hx
  | stay => exact absurd hr hnew
  | failedLocally hidle hpre hmock hcode =>
    obtain ⟨rfl,ha⟩ := hcall rfl hr
    cases ha
    cases hlocal
    exact ⟨_,_,rfl,hcode⟩
  | callbackEnter hw => exact absurd hr hnew
  | callbackReturn hw => exact absurd hr hnew
  | workerFinish hw => exact absurd hr hnew
  | finished hover =>
    unfold finishSection at hr
    simp only [] at hr
    split at hr <;>
    · obtain ⟨-,ha⟩ := hcall rfl hr
      cases ha
      cases hlocal
  | expired hc =>
    obtain ⟨-,ha⟩ := hcall rfl hr
    split at ha <;> cases ha
  | closeRequested hidle hopen hbusy =>
    obtain ⟨-,ha⟩ := hcall rfl hr
    split at ha <;> cases ha
  | rejected hidle hpre =>
    obtain ⟨-,ha⟩ := hcall rfl hr
    cases ha
    cases hlocal
  | abandoned hev hc hdone =>
    obtain ⟨-,ha⟩ := hcall rfl hr
    cases ha
    cases hlocal
  | _ =>
    obtain ⟨-,ha⟩ := hcall rfl hr
    cases ha

/-- In every reachable state every exchange that has returned met the contract, and
only a local resource failure reports a code of its own. -/
theorem exchange_contract {s : System} (h : Reachable s) :
    (∀ c answer, s.calls c = .exchangeReturned answer → Contract s.tasks s.log c answer) ∧
    (∀ e t c answer code, step s e = some t → s.calls c ≠ .exchangeReturned answer →
      t.calls c = .exchangeReturned answer → answer.localFailure = some code →
      ∃ argument dispatch, e = .exchange c argument dispatch ∧ dispatch.localFailure = some code) := by
  constructor
  · intro c answer hc
    have hv := (reachable_contracted h).calls c
    rw [hc] at hv
    exact hv
  · intro e t c answer code he hnew hr hlocal
    exact step_localFailure he hnew hr hlocal

/-- The answer of an honest backend to the STATUS request of the sample run. -/
def sampleResponse : Response :=
  { magic := qcpuUapiResponseMagic, version := qcpuUapiProtocolVersion, flags := qcpuMockRequiredFlags }
def sampleAnswer : ExchangeReturn :=
  ⟨some sampleExchange, some { sampleExchange with response := sampleResponse }, .ok (), none⟩
def sampleSuccess : List Event :=
  sampleRun ++ [.callbackReturn 0 0 sampleResponse, .workerFinish 0, .wake 1 0, .relock 1 none]

theorem exchange_contract_success :
    ∃ s, Reachable s ∧ s.calls 1 = .exchangeReturned sampleAnswer ∧ Contract s.tasks s.log 1 sampleAnswer := by
  refine ⟨_,⟨sampleConfig,_,sampleSuccess,rfl,rfl⟩,rfl,?_⟩
  exact (exchange_contract ⟨sampleConfig,_,sampleSuccess,rfl,rfl⟩).1 1 sampleAnswer rfl

end QbitNova.Frontend
