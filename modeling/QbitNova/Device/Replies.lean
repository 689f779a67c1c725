import QbitNova.Device.Pipeline
import QbitNova.Device.FrontendIsolation

/-! # What an arbitrary reply frame can make the frontend report

The daemon is not trusted: any 56 bytes may come back. A status is translated from the
wire to the interface, then to an errno, and back to the pair the caller sees. The
frames are classified here by header, norm and status, and each class is followed
through adapter and frontend to the caller and to the device state.
-/
namespace QbitNova.Adapter
open LittleEndian Frontend DeviceWire Rounding

/-- The record the bytes of a frame spell out. -/
def replyOf (frame : Frame qcpuDeviceResponseWireSize) : QCPUDeviceResponse :=
  (qcpuDeviceDecodeResponse responseInit frame.val).2

def HeaderOk (reply : QCPUDeviceResponse) : Prop :=
  reply.magic = qcpuDeviceResponseMagic ∧ reply.version = qcpuDeviceProtocolVersion

/-- The conversion of the norm, as a partial function. -/
def normOf {bits : ℕ} (longDouble : Faithful bits) (norm : Binary64) : Option UInt64 :=
  let converted := qcpuMockNormToQ32_32 longDouble norm (some 0)
  if converted.1.isOk then converted.2 else none

/-- The errno the error mapping of the interface lists for a status of the daemon. -/
def documentedErrno : QCPUDeviceStatus → ℤ
  | .ok => 0
  | .badMagic => eproto
  | .badVersion => eprotonosupport
  | .badCommand => eopnotsupp
  | .range => erange
  | .kernel => eio
  | .io => eio

/-- The response the adapter builds from a reply whose norm was converted. -/
def adapterResponse (reply : QCPUDeviceResponse) (norm : UInt64) : Response :=
  { magic := qcpuUapiResponseMagic
    version := qcpuUapiProtocolVersion
    status := (qcpuAdapterStatus reply.status).toUInt16
    flags := qcpuAdapterFlags reply.flags
    qubits := reply.qubits
    basisStates := reply.basisStates
    shots := reply.shots
    measuredState := reply.measuredState
    invalidResults := reply.invalidResults
    normQ32_32 := norm }

theorem decode_frame (old : QCPUDeviceResponse) (frame : Frame qcpuDeviceResponseWireSize) :
    qcpuDeviceDecodeResponse old frame.val =
      (headerStatus (replyOf frame).magic qcpuDeviceResponseMagic (replyOf frame).version, replyOf frame) := by
  unfold replyOf
  rw [decodeResponse_eq old frame.property,decodeResponse_eq responseInit frame.property]

theorem translate_converted {bits : ℕ} {longDouble : Faithful bits} {reply : QCPUDeviceResponse} {norm : UInt64}
    (h : normOf longDouble reply.norm = some norm) :
    qcpuAdapterTranslateResponse longDouble reply =
      (qcpuAdapterStatusResult (adapterResponse reply norm).status.toUInt32, adapterResponse reply norm) := by
  unfold normOf at h
  unfold qcpuAdapterTranslateResponse
  rcases hconv : qcpuMockNormToQ32_32 longDouble reply.norm (some 0) with ⟨result,value⟩
  rw [hconv] at h
  cases result with
  | error errorNumber => cases h
  | ok u =>
    cases value with
    | none => cases h
    | some converted =>
      cases h
      rfl

theorem translate_inconvertible {bits : ℕ} {longDouble : Faithful bits} {reply : QCPUDeviceResponse}
    (h : normOf longDouble reply.norm = none) :
    qcpuAdapterTranslateResponse longDouble reply =
      (-eio, { adapterResponse reply 0 with status := statusKernel.toUInt16 }) := by
  unfold normOf at h
  unfold qcpuAdapterTranslateResponse
  rcases hconv : qcpuMockNormToQ32_32 longDouble reply.norm (some 0) with ⟨result,value⟩
  rw [hconv] at h
  cases result with
  | error errorNumber => rfl
  | ok u =>
    cases value with
    | none => rfl
    | some converted => cases h

/-- What the adapter returns for a frame, by class. -/
theorem exchange_reply {bits : ℕ} (longDouble : Faithful bits) {frame : Frame qcpuDeviceResponseWireSize}
    {io : ExchangeIo} (hio : Lossless (fun _ => some frame) io) (buffers : Buffers) {request : Request}
    (hvalid : RequestValid request) :
    (¬ HeaderOk (replyOf frame) → qcpuQcpudExchange longDouble io buffers request = (-eio, {})) ∧
    (HeaderOk (replyOf frame) →
      qcpuQcpudExchange longDouble io buffers request = qcpuAdapterTranslateResponse longDouble (replyOf frame)) := by
  obtain ⟨sent,hsent⟩ : ∃ sent, qcpuAdapterTranslateRequest request = .ok sent := by
    unfold qcpuAdapterTranslateRequest
    rcases hvalid.command with hcommand | hcommand
    · exact ⟨_,if_pos hcommand⟩
    · rw [hcommand,if_neg (by decide),if_pos rfl]
      exact ⟨_,rfl⟩
  rw [exchange_frame longDouble hio buffers hsent rfl,decode_frame]
  constructor
  · intro hheader
    have hbad : headerStatus (replyOf frame).magic qcpuDeviceResponseMagic (replyOf frame).version ≠ .ok :=
      fun hok => hheader ((headerStatus_ok _ _ _).mp hok)
    split
    next heq => exact absurd (congrArg Prod.fst heq) hbad
    · rfl
  · intro hheader
    rw [(headerStatus_ok _ _ _).mpr hheader]

theorem adapterStatus_code (status : QCPUDeviceStatus) : qcpuAdapterStatus status.code = status.code.toUInt32 := by
  cases status <;> rfl

theorem code_injective {status other : QCPUDeviceStatus} (h : status.code = other.code) : status = other := by
  cases status <;> cases other <;> first | rfl | cases h

theorem adapterStatus_unknown {status : UInt16} (h : ∀ known : QCPUDeviceStatus, status ≠ known.code) :
    qcpuAdapterStatus status = statusIo := by
  unfold qcpuAdapterStatus
  rw [if_neg (h .ok),if_neg (h .badMagic),if_neg (h .badVersion),if_neg (h .badCommand),if_neg (h .range),
    if_neg (h .kernel)]

theorem statusResult_code {status : QCPUDeviceStatus} (h : status ≠ .ok) :
    qcpuAdapterStatusResult status.code.toUInt32 = -documentedErrno status ∧
      documentedErrno status ∉ [0, enodev, etimedout, ecanceled] ∧
      qcpuStatusToErrno status.code.toUInt32 = documentedErrno status ∧ Fails status.code.toUInt32 ∧
      status.code.toUInt32 ≠ statusBackendAbsent := by
  cases status with
  | ok => exact absurd rfl h
  | _ => decide

theorem outcome_failed {errorNumber : ℤ} (h : errorNumber ∉ [0, enodev, etimedout, ecanceled]) (request : Request)
    (response : Response) :
    exchangeOutcome false false (-errorNumber) request response =
      if qcpuStatusKnown response.status.toUInt32 ∧ response.status.toUInt32 ≠ statusOk then
        .error ⟨qcpuStatusToErrno response.status.toUInt32, response.status.toUInt32,
          response.status.toUInt32 == statusBackendAbsent⟩
      else .error ⟨eio, statusIo, false⟩ := by
  simp only [List.mem_cons,List.not_mem_nil,or_false,not_or] at h
  obtain ⟨hzero,hnodev,htimed,hcanceled⟩ := h
  unfold exchangeOutcome
  simp only [Bool.false_eq_true,false_or,neg_inj,hcanceled,hnodev,htimed,neg_ne_zero.mpr hzero,ne_eq,
    not_false_eq_true,↓reduceIte]

theorem outcome_status {errorNumber : ℤ} (h : errorNumber ∉ [0, enodev, etimedout, ecanceled]) (request : Request)
    {response : Response} {status : UInt32} (hstatus : response.status.toUInt32 = status) (hfails : Fails status)
    (hpresent : status ≠ statusBackendAbsent) :
    exchangeOutcome false false (-errorNumber) request response =
      .error ⟨qcpuStatusToErrno status, status, false⟩ := by
  rw [outcome_failed h,hstatus,if_pos ⟨hfails.1,hfails.2⟩,beq_eq_false_iff_ne.mpr hpresent]

theorem outcome_success (request : Request) (response : Response) :
    exchangeOutcome false false 0 request response =
      (qcpuValidateBackendResponse request response).map (fun _ => response) := by
  unfold exchangeOutcome
  rw [if_neg (by decide),if_neg (by decide),if_neg (by decide)]
  cases qcpuValidateBackendResponse request response <;> rfl

/-- A verdict that names a malformed or implausible response. -/
def MalformedVerdict (v : Verdict) : Prop := v = ⟨eio, statusIo, false⟩ ∨ v = ⟨eio, statusKernel, false⟩

/-- The checks of a response whose header and status are right can only fail so. -/
theorem validate_malformed {request : Request} {response : Response} (hmagic : response.magic = qcpuUapiResponseMagic)
    (hversion : response.version = qcpuUapiProtocolVersion) (hstatus : response.status.toUInt32 = statusOk) :
    Checks.Errors MalformedVerdict (qcpuValidateBackendResponse request response) := by
  unfold qcpuValidateBackendResponse
  rw [if_neg (not_not.mpr hmagic),if_neg (not_not.mpr hversion),hstatus,if_neg (by decide),if_neg (by decide)]
  refine Checks.Errors.ite (fun _ => Checks.Errors.error (Or.inl rfl)) fun _ => ?_
  refine Checks.Errors.ite (fun _ => Checks.Errors.error (Or.inl rfl)) fun _ => ?_
  refine Checks.Errors.ite (fun _ => Checks.Errors.error (Or.inr rfl)) fun _ => ?_
  refine Checks.Errors.ite (fun _ => ?_) fun _ => Checks.Errors.ok _
  refine Checks.Errors.ite (fun _ => Checks.Errors.error (Or.inr rfl)) fun _ => ?_
  refine Checks.Errors.ite (fun _ => Checks.Errors.error (Or.inr rfl)) fun _ => ?_
  exact Checks.Errors.ite (fun _ => Checks.Errors.error (Or.inr rfl)) fun _ => Checks.Errors.ok _

/-- How the frontend judges a reply, class by class. -/
structure Judged (normOf : Binary64 → Option UInt64) (request : Request) (reply : QCPUDeviceResponse)
    (outcome : Except Verdict Response) : Prop where
  success : ∀ response, outcome = .ok response → HeaderOk reply ∧ reply.status = QCPUDeviceStatus.ok.code ∧
    ∃ norm, normOf reply.norm = some norm ∧ response = adapterResponse reply norm ∧ Accepted request response
  status : HeaderOk reply → (normOf reply.norm).isSome = true → ∀ status : QCPUDeviceStatus, status ≠ .ok →
    reply.status = status.code → outcome = .error ⟨documentedErrno status, status.code.toUInt32, false⟩
  inconvertible : HeaderOk reply → normOf reply.norm = none → outcome = .error ⟨eio, statusKernel, false⟩
  other : (HeaderOk reply → ∀ status : QCPUDeviceStatus, status ≠ .ok → reply.status ≠ status.code) →
    ∀ v, outcome = .error v → MalformedVerdict v

/-- A reply with another header. -/
theorem judged_header {normOf : Binary64 → Option UInt64} {request : Request} {reply : QCPUDeviceResponse}
    (h : ¬ HeaderOk reply) : Judged normOf request reply (exchangeOutcome false false (-eio) request {}) := by
  have hout : exchangeOutcome false false (-eio) request {} = .error ⟨eio, statusIo, false⟩ := by
    rw [outcome_failed (by decide),if_neg (by decide)]
  rw [hout]
  refine ⟨?_,fun hok => absurd hok h,fun hok => absurd hok h,?_⟩
  · intro response hr
    cases hr
  · intro _ v hv
    cases hv
    exact Or.inl rfl

theorem judged_inconvertible {normOf : Binary64 → Option UInt64} {request : Request} {reply : QCPUDeviceResponse}
    (h : normOf reply.norm = none) :
    Judged normOf request reply (exchangeOutcome false false (-eio) request
      { adapterResponse reply 0 with status := statusKernel.toUInt16 }) := by
  have hout : exchangeOutcome false false (-eio) request
      { adapterResponse reply 0 with status := statusKernel.toUInt16 } = .error ⟨eio, statusKernel, false⟩ := by
    have hstatus : ({ adapterResponse reply 0 with status := statusKernel.toUInt16 } : Response).status.toUInt32 =
        statusKernel := rfl
    exact outcome_status (by decide) request hstatus (by decide) (by decide)
  rw [hout]
  refine ⟨?_,?_,fun _ _ => rfl,?_⟩
  · intro response hr
    cases hr
  · intro _ hsome
    rw [h] at hsome
    cases hsome
  · intro _ v hv
    cases hv
    exact Or.inr rfl

section Converted
variable {normOf : Binary64 → Option UInt64} {request : Request} {reply : QCPUDeviceResponse} {norm : UInt64}

theorem judged_success (hvalid : RequestValid request) (hheader : HeaderOk reply) (h : normOf reply.norm = some norm)
    (hstatus : reply.status = QCPUDeviceStatus.ok.code) :
    Judged normOf request reply ((qcpuValidateBackendResponse request (adapterResponse reply norm)).map
      (fun _ => adapterResponse reply norm)) := by
  have hplain : (adapterResponse reply norm).status.toUInt32 = statusOk := by
    simp only [adapterResponse,hstatus,adapterStatus_code]
    rfl
  have herrors : Checks.Errors MalformedVerdict (qcpuValidateBackendResponse request (adapterResponse reply norm)) :=
    validate_malformed rfl rfl hplain
  refine ⟨?_,?_,fun _ hn => ?_,?_⟩
  · intro response hr
    cases hv : qcpuValidateBackendResponse request (adapterResponse reply norm) with
    | ok u =>
      rw [hv] at hr
      cases hr
      exact ⟨hheader,hstatus,norm,h,rfl,validate_ok hvalid hv⟩
    | error verdict =>
      rw [hv] at hr
      cases hr
  · intro _ _ other hother hcode
    exact absurd (code_injective (hcode.symm.trans hstatus)) hother
  · rw [h] at hn
    cases hn
  · intro _ v hr
    cases hv : qcpuValidateBackendResponse request (adapterResponse reply norm) with
    | ok u =>
      rw [hv] at hr
      cases hr
    | error verdict =>
      rw [hv] at hr
      cases hr
      exact herrors _ hv

theorem judged_status (hheader : HeaderOk reply) (h : normOf reply.norm = some norm) {status : QCPUDeviceStatus}
    (hstatus : reply.status = status.code) (hfailed : status ≠ .ok) :
    Judged normOf request reply (.error ⟨documentedErrno status, status.code.toUInt32, false⟩) := by
  refine ⟨?_,?_,fun _ hn => ?_,?_⟩
  · intro response hr
    cases hr
  · intro _ _ other hother hcode
    rw [code_injective (hcode.symm.trans hstatus)]
  · rw [h] at hn
    cases hn
  · intro hnot
    exact absurd hstatus (hnot hheader status hfailed)

theorem judged_unknown (h : normOf reply.norm = some norm)
    (hunknown : ∀ status : QCPUDeviceStatus, reply.status ≠ status.code) :
    Judged normOf request reply (.error ⟨eio, statusIo, false⟩) := by
  refine ⟨?_,?_,fun _ hn => ?_,?_⟩
  · intro response hr
    cases hr
  · intro _ _ other _ hcode
    exact absurd hcode (hunknown other)
  · rw [h] at hn
    cases hn
  · intro _ v hr
    cases hr
    exact Or.inl rfl

theorem judged_converted (hvalid : RequestValid request) (hheader : HeaderOk reply)
    (h : normOf reply.norm = some norm) :
    Judged normOf request reply (exchangeOutcome false false
      (qcpuAdapterStatusResult (adapterResponse reply norm).status.toUInt32) request (adapterResponse reply norm)) := by
  by_cases hknown : ∃ status : QCPUDeviceStatus, reply.status = status.code
  · obtain ⟨status,hstatus⟩ := hknown
    have hsame : (adapterResponse reply norm).status.toUInt32 = status.code.toUInt32 := by
      simp only [adapterResponse,hstatus,adapterStatus_code]
      cases status <;> rfl
    by_cases hok : status = .ok
    · rw [hok] at hsame hstatus
      rw [hsame,show qcpuAdapterStatusResult QCPUDeviceStatus.ok.code.toUInt32 = 0 from rfl,outcome_success]
      exact judged_success hvalid hheader h hstatus
    · obtain ⟨hresult,hplain,herrno,hfails,hpresent⟩ := statusResult_code hok
      rw [hsame,hresult,outcome_status hplain request hsame hfails hpresent,herrno]
      exact judged_status hheader h hstatus hok
  · have hunknown : ∀ status : QCPUDeviceStatus, reply.status ≠ status.code :=
      fun status hstatus => hknown ⟨status,hstatus⟩
    have hsame : (adapterResponse reply norm).status.toUInt32 = statusIo := by
      simp only [adapterResponse,adapterStatus_unknown hunknown]
      rfl
    rw [hsame,show qcpuAdapterStatusResult statusIo = -eio from rfl,
      outcome_status (by decide) request hsame (by decide) (by decide)]
    exact judged_unknown h hunknown

end Converted

theorem exchange_judged {bits : ℕ} (longDouble : Faithful bits) {frame : Frame qcpuDeviceResponseWireSize}
    {io : ExchangeIo} (hio : Lossless (fun _ => some frame) io) (buffers : Buffers) {request : Request}
    (hvalid : RequestValid request) :
    Judged (normOf longDouble) request (replyOf frame) (exchangeOutcome false false
      (qcpuQcpudExchange longDouble io buffers request).1 request
      (qcpuQcpudExchange longDouble io buffers request).2) := by
  obtain ⟨hbad,hgood⟩ := exchange_reply longDouble hio buffers hvalid
  by_cases hheader : HeaderOk (replyOf frame)
  · rw [hgood hheader]
    cases hnorm : normOf longDouble (replyOf frame).norm with
    | none =>
      rw [translate_inconvertible hnorm]
      exact judged_inconvertible hnorm
    | some norm =>
      rw [translate_converted hnorm]
      exact judged_converted hvalid hheader hnorm
  · rw [hbad hheader]
    exact judged_header hheader

theorem Judged.verdict {normOf : Binary64 → Option UInt64} {request : Request} {reply : QCPUDeviceResponse}
    {outcome : Except Verdict Response} (h : Judged normOf request reply outcome) {v : Verdict}
    (hv : outcome = .error v) : v.offline = false ∧
      v.protocolStatus ∉ [statusOk, statusBackendAbsent, statusBusy, statusTimeout, statusCanceled] := by
  by_cases hclass : HeaderOk reply → ∀ status : QCPUDeviceStatus, status ≠ .ok → reply.status ≠ status.code
  · rcases h.other hclass v hv with rfl | rfl <;> decide
  · push Not at hclass
    obtain ⟨hheader,status,hstatus,hcode⟩ := hclass
    cases hnorm : normOf reply.norm with
    | none =>
      cases hv.symm.trans (h.inconvertible hheader hnorm)
      decide
    | some norm =>
      cases hv.symm.trans (h.status hheader (by rw [hnorm]; rfl) status hstatus hcode)
      refine ⟨rfl,?_⟩
      cases status <;> first | exact absurd rfl hstatus | decide

/-- The call returned -1 with this errno and this status, and both were recorded. -/
structure ReportsFailure (t : System) (call : ℕ) (argument : Option Exchange) (errorNumber : ℤ) (status : UInt32) :
    Prop where
  returned : t.calls call =
    .exchangeReturned ⟨argument, qcpuSetFailureResponse argument status, .error errorNumber, none⟩
  recorded : t.mock.lastErrno = errorNumber ∧ t.mock.lastProtocolStatus = status

/-- The call returned 0 with this response. -/
structure ReportsSuccess (t : System) (call : ℕ) (argument : Option Exchange) (response : Response) : Prop where
  returned : t.calls call = .exchangeReturned
    ⟨argument, argument.map (fun exchange => { exchange with response := response }), .ok (), none⟩
  recorded : t.mock.lastErrno = 0 ∧ t.mock.lastProtocolStatus = statusOk

theorem finishSection_error {s : System} {task : ℕ} (call : ℕ) (argument : Option Exchange) {v : Verdict}
    (h : exchangeOutcome false s.mock.cancelRequested (s.tasks task).backendResult (s.tasks task).request
      (s.tasks task).response = .error v) (hoffline : v.offline = false) (hattached : s.mock.backendAttached = true) :
    ReportsFailure (finishSection s call argument task false) call argument v.errorNumber v.protocolStatus ∧
      (finishSection s call argument task false).mock.deviceState = .idle := by
  unfold finishSection
  simp only [h]
  refine ⟨⟨Function.update_self _ _ _,rfl,rfl⟩,?_⟩
  simp [qcpuFinalizeExchangeLocked,qcpuRecordResultLocked,hoffline,hattached]

theorem finishSection_ok {s : System} {task : ℕ} (call : ℕ) (argument : Option Exchange) {response : Response}
    (h : exchangeOutcome false s.mock.cancelRequested (s.tasks task).backendResult (s.tasks task).request
      (s.tasks task).response = .ok response) (hattached : s.mock.backendAttached = true) :
    ReportsSuccess (finishSection s call argument task false) call argument response ∧
      (finishSection s call argument task false).mock.deviceState = .idle := by
  unfold finishSection
  simp only [h]
  refine ⟨⟨Function.update_self _ _ _,rfl,rfl⟩,?_⟩
  simp [qcpuFinalizeExchangeLocked,qcpuRecordResultLocked,hattached]

/-- Success and failure exclude each other. -/
theorem ReportsSuccess.not_failure {t : System} {call : ℕ} {argument : Option Exchange} {response : Response}
    {errorNumber : ℤ} {status : UInt32} (h : ReportsSuccess t call argument response)
    (hf : ReportsFailure t call argument errorNumber status) : False := by
  have heq := h.returned.symm.trans hf.returned
  simp only [Call.exchangeReturned.injEq,ExchangeReturn.mk.injEq] at heq
  cases heq.2.2.1

/-- What a caller gets, and what state the device is left in, when a frame came back. -/
structure ReplyReported {bits : ℕ} (longDouble : Faithful bits) (request : Request)
    (frame : Frame qcpuDeviceResponseWireSize) (t : System) (call : ℕ) (argument : Option Exchange) : Prop where
  idle : t.mock.deviceState = .idle
  returns : (∃ response, ReportsSuccess t call argument response) ∨
    ∃ errorNumber status, ReportsFailure t call argument errorNumber status
  success : ∀ response, ReportsSuccess t call argument response → HeaderOk (replyOf frame) ∧
    (replyOf frame).status = QCPUDeviceStatus.ok.code ∧ ∃ norm, normOf longDouble (replyOf frame).norm = some norm ∧
      Accepted request (adapterResponse (replyOf frame) norm)
  status : HeaderOk (replyOf frame) → (normOf longDouble (replyOf frame).norm).isSome = true →
    ∀ status : QCPUDeviceStatus, status ≠ .ok → (replyOf frame).status = status.code →
      ReportsFailure t call argument (documentedErrno status) status.code.toUInt32
  inconvertible : HeaderOk (replyOf frame) → normOf longDouble (replyOf frame).norm = none →
    ReportsFailure t call argument eio statusKernel
  other : (HeaderOk (replyOf frame) → ∀ status : QCPUDeviceStatus, status ≠ .ok →
      (replyOf frame).status ≠ status.code) → (∀ response, ¬ ReportsSuccess t call argument response) →
    ReportsFailure t call argument eio statusIo ∨ ReportsFailure t call argument eio statusKernel
  never : ∀ errorNumber status, ReportsFailure t call argument errorNumber status →
    status ∉ [statusBackendAbsent, statusBusy, statusTimeout, statusCanceled]

/-- The last section of a call reports what was judged of the frame. -/
theorem finishSection_reports {s : System} {call task : ℕ} (argument : Option Exchange)
    (hattached : s.mock.backendAttached = true) {bits : ℕ} {longDouble : Faithful bits} {request : Request}
    {frame : Frame qcpuDeviceResponseWireSize} {outcome : Except Verdict Response}
    (hjudged : Judged (normOf longDouble) request (replyOf frame) outcome)
    (houtcome : exchangeOutcome false s.mock.cancelRequested (s.tasks task).backendResult (s.tasks task).request
      (s.tasks task).response = outcome) :
    ReplyReported longDouble request frame (finishSection s call argument task false) call argument := by
  cases outcome with
  | ok response =>
    obtain ⟨hreports,hidle⟩ := finishSection_ok call argument houtcome hattached
    obtain ⟨hheader,hstatus,norm,hnorm,rfl,haccepted⟩ := hjudged.success response rfl
    refine ⟨hidle,Or.inl ⟨_,hreports⟩,fun _ _ => ⟨hheader,hstatus,norm,hnorm,haccepted⟩,?_,?_,?_,?_⟩
    · intro hh hn status hne hcode
      cases hjudged.status hh hn status hne hcode
    · intro hh hn
      cases hjudged.inconvertible hh hn
    · intro _ hnot
      exact absurd hreports (hnot _)
    · intro errorNumber status hf
      exact (hreports.not_failure hf).elim
  | error v =>
    obtain ⟨hoffline,hnever⟩ := hjudged.verdict rfl
    obtain ⟨hreports,hidle⟩ := finishSection_error call argument houtcome hoffline hattached
    refine ⟨hidle,Or.inr ⟨_,_,hreports⟩,?_,?_,?_,?_,?_⟩
    · intro response hsuccess
      exact (hsuccess.not_failure hreports).elim
    · intro hh hn status hne hcode
      cases hjudged.status hh hn status hne hcode
      exact hreports
    · intro hh hn
      cases hjudged.inconvertible hh hn
      exact hreports
    · intro hclass _
      rcases hjudged.other hclass v rfl with rfl | rfl
      · exact Or.inl hreports
      · exact Or.inr hreports
    · intro errorNumber status hf
      have hlast := hf.recorded.2.symm.trans hreports.recorded.2
      rw [hlast]
      exact fun hmem => hnever (List.mem_cons_of_mem _ hmem)

/-- A caller whose deadline wait ended in time, with no cancellation requested, reports
what the adapter made of an arbitrary frame by the class of that frame. -/
theorem reply_reported {s : System} (h : Reachable s) {call task : ℕ} {argument : Option Exchange}
    (hcall : s.calls call = .exchangeRelock argument task false) (hcancel : s.mock.cancelRequested = false)
    {bits : ℕ} (longDouble : Faithful bits) {frame : Frame qcpuDeviceResponseWireSize} {io : ExchangeIo}
    (hio : Lossless (fun _ => some frame) io) (buffers : Buffers) {request : Request}
    (hcallback : Note.callback task request (qcpuQcpudExchange longDouble io buffers request).1
      (qcpuQcpudExchange longDouble io buffers request).2 ∈ s.log) (clock : Option Timespec) :
    ∃ t passed, step s (.relock call clock) = some t ∧ argument = some passed ∧ passed.request = request ∧
      ReplyReported longDouble request frame t call argument := by
  have hs := reachable_sound h
  have htask : (s.calls call).task? = some task := by
    rw [hcall]
    rfl
  have hdone := hs.valid.owner.relocked call argument task hcall
  have hbusy : s.mock.busy = true := by
    rw [hs.valid.mock.busy_iff_active,(hs.valid.owner.caller call task htask).1]
    rfl
  have hattached := hs.valid.mock.busy_attached hbusy
  have hbound : Bound s.tasks call argument task := by
    have hv := hs.contracted.calls call
    rwa [hcall] at hv
  obtain ⟨-,-,passed,hpassed,hrequest,hvalid⟩ := hbound
  obtain ⟨hsame,hresponse,hworker⟩ := hs.isolated.written _ _ _ _ hcallback
  have hresult : (s.tasks task).backendResult = (qcpuQcpudExchange longDouble io buffers request).1 := by
    rcases hworker with hw | ⟨-,hback⟩
    · rw [(hs.valid.owner.done_iff task).mp hdone] at hw
      cases hw
    · exact hback
  rw [← hrequest,← hsame] at hvalid
  have hjudged := exchange_judged longDouble hio buffers hvalid
  have houtcome : exchangeOutcome false s.mock.cancelRequested (s.tasks task).backendResult (s.tasks task).request
      (s.tasks task).response = exchangeOutcome false false (qcpuQcpudExchange longDouble io buffers request).1
        request (qcpuQcpudExchange longDouble io buffers request).2 := by
    rw [hcancel,hresult,← hsame,← hresponse]
  have hstep : step s (.relock call clock) = some (finishSection s call argument task false) := by
    simp only [step,hcall]
    rfl
  exact ⟨_,passed,hstep,hpassed,hrequest.symm.trans hsame.symm,
    finishSection_reports argument hattached hjudged houtcome⟩

/-- A transport on which everything works and one frame comes back. -/
def frameIo (frame : Frame qcpuDeviceResponseWireSize) : ExchangeIo :=
  { busy := false
    connectRemainingMs := 1000
    connect := .ok 3
    canceledAtRegister := false
    writeRemainingMs := 1000
    write := .ok
    shutdownFails := false
    readRemainingMs := 1000
    reply := fun _ => .ok frame
    canceledAtIo := false
    canceledAtFinish := false }

theorem frameIo_lossless (frame : Frame qcpuDeviceResponseWireSize) :
    Lossless (fun _ => some frame) (frameIo frame) where
  free := rfl
  connectTime := (by decide : (0 : ℤ) < 1000)
  connected := ⟨3,rfl⟩
  registered := rfl
  writeTime := (by decide : (0 : ℤ) < 1000)
  written := rfl
  shut := rfl
  readTime := (by decide : (0 : ℤ) < 1000)
  received requestWire responseWire h := by
    cases h
    rfl
  uncanceled := rfl

/-- A reply with the number of a canceled exchange as its status and a NaN as its norm. -/
def hostileReply : QCPUDeviceResponse := { responseInit with status := 10, norm := ⟨0x7ff8000000000000⟩ }
def hostileFrame : Frame qcpuDeviceResponseWireSize :=
  (qcpuDeviceEncodeResponse clearConnection.responseWire hostileReply).2

/-- The sample exchange after its callback reported in time. -/
theorem sample_replied (result : ℤ) (response : Response) :
    ∃ s, Reachable s ∧ s.calls 1 = .exchangeRelock (some sampleExchange) 0 false ∧ s.mock.cancelRequested = false ∧
      Note.callback 0 sampleExchange.request result response ∈ s.log :=
  ⟨_,⟨sampleConfig,_,sampleRun ++ [.callbackReturn 0 result response, .workerFinish 0, .wake 1 0],rfl,rfl⟩,rfl,rfl,
    List.mem_cons_self⟩

theorem reply_reported_hostile :
    ∃ s t, Reachable s ∧ step s (.relock 1 none) = some t ∧
      ReportsFailure t 1 (some sampleExchange) eio statusKernel ∧ t.mock.deviceState = .idle := by
  have hreply : replyOf hostileFrame = hostileReply := by
    unfold replyOf hostileFrame
    rw [decodeResponse_encode]
  have hnorm : normOf (unrounded 64) hostileReply.norm = none := by
    have hvalue : hostileReply.norm.value = none := by
      unfold Binary64.value
      rw [if_pos (by decide)]
    unfold normOf qcpuMockNormToQ32_32
    simp only [hvalue]
    rfl
  obtain ⟨s,hs,hcall,hcancel,hcallback⟩ := sample_replied
    (qcpuQcpudExchange (unrounded 64) (frameIo hostileFrame) clearBuffers sampleExchange.request).1
    (qcpuQcpudExchange (unrounded 64) (frameIo hostileFrame) clearBuffers sampleExchange.request).2
  obtain ⟨t,-,hstep,-,-,hreported⟩ :=
    reply_reported hs hcall hcancel (unrounded 64) (frameIo_lossless hostileFrame) clearBuffers hcallback none
  refine ⟨s,t,hs,hstep,hreported.inconvertible ?_ ?_,hreported.idle⟩
  · rw [hreply]
    exact ⟨rfl,rfl⟩
  · rw [hreply]
    exact hnorm

end QbitNova.Adapter
