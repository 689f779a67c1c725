import QbitNova.Device.Adapter
import QbitNova.Device.FrontendContract
import QbitNova.Quantum.Exact

/-! # From a validated exchange to its response

Frontend, adapter, codec, daemon and kernel are put together. Every exchange the frontend
accepts is answered with a response the frontend accepts, whatever the seed is, as long
as the transport loses nothing and amplitudes are computed exactly.
-/
namespace QbitNova.Adapter
open LittleEndian Frontend DeviceWire Rounding Quantum Sweep

/-- The exchange is neither disturbed nor canceled, and the daemon's answer arrives. -/
structure Lossless (serve : Frame qcpuDeviceRequestWireSize → Option (Frame qcpuDeviceResponseWireSize))
    (io : ExchangeIo) : Prop where
  free : io.busy = false
  connectTime : 0 < io.connectRemainingMs
  connected : ∃ descriptor, io.connect = .ok descriptor
  registered : io.canceledAtRegister = false
  writeTime : 0 < io.writeRemainingMs
  written : io.write = .ok
  shut : io.shutdownFails = false
  readTime : 0 < io.readRemainingMs
  received : ∀ requestWire responseWire, serve requestWire = some responseWire →
    io.reply requestWire = .ok responseWire
  uncanceled : io.canceledAtFinish = false

/-- Counts at the ends only leave nothing to report. -/
theorem invalidResults_eq_zero {n : ℕ} {result : QCPUShotResult} (h : CountsAtEnds n result.counts) :
    invalidResults result (2 ^ n - 1) = 0 := by
  unfold invalidResults
  generalize List.range result.stateCount = states
  induction states with
  | nil => rfl
  | cons state rest ih =>
    rw [List.foldl_cons]
    split_ifs with hstate
    · rw [h state hstate.1 hstate.2]
      exact ih
    · exact ih

theorem processRunGhz_exact (storage : Storage) {request : QCPUDeviceRequest} (hqubits : 0 < request.qubits.toNat)
    (hmax : request.qubits.toNat ≤ 20) (hshots : 0 < request.shots.toNat) (hmost : request.shots.toNat ≤ 100)
    (response : QCPUDeviceResponse) : ∃ (measured : ℕ) (norm : Binary64),
      (measured = 0 ∨ measured = 2 ^ request.qubits.toNat - 1) ∧ norm.value = some 1 ∧
      processRunGhz storage.store ⟨true, true⟩ request response =
        { response with
          status := QCPUDeviceStatus.ok.code
          qubits := request.qubits
          basisStates := UInt64.ofNat (2 ^ request.qubits.toNat)
          shots := request.shots.toUInt64
          measuredState := UInt64.ofNat measured
          invalidResults := 0
          norm := norm } := by
  have hrange : ¬ (request.qubits = 0 ∨ request.qubits > qcpuDeviceMaxQubits ∨ request.shots = 0 ∨
      request.shots > qcpuDeviceMaxShots) := by
    rintro (h | h | h | h)
    · rw [h] at hqubits
      exact absurd hqubits (by decide)
    · exact absurd (UInt32.lt_iff_toNat_lt.mp h) (by rw [show qcpuDeviceMaxQubits.toNat = 20 from rfl]; omega)
    · rw [h] at hshots
      exact absurd hshots (by decide)
    · exact absurd (UInt32.lt_iff_toNat_lt.mp h) (by rw [show qcpuDeviceMaxShots.toNat = 100 from rfl]; omega)
  obtain ⟨k,hinit,hready,hcount,-⟩ := init_spec (QCPUKernel.cleared : QCPUKernel ℝ) hqubits hmax request.seed
  obtain ⟨g,hghz,hframe,-,htwo⟩ := applyGhz_spec hready
  have hgready := hframe.ready hready
  have hgcount : g.qubitCount = request.qubits.toNat := hframe.qubits.trans hcount
  rw [← hframe.qubits] at htwo
  have hends : DrawsEnds g := htwo.endsOnly.draws hgready
  have hnorm : qcpuKernelNorm g = 1 := by
    rw [norm_twoEntries hgready htwo,weight_hadamardPair_one.1,weight_hadamardPair_one.2]
    norm_num
  have hvalid := validate_normalized hgready hnorm
    (show (0 : ℝ) < Scalars.div (Scalars.ofInt 1) (Scalars.ofInt 1000000000000) by simp)
  obtain ⟨counts,hrun,-,hcounts⟩ := runShots_spec hgready hshots QCPUShotResult.cleared
  obtain ⟨measured,hlt,hmeasure,hmeasured⟩ := measure_spec (hgready.withRng (rngAfter g.rngState request.shots.toNat)) 0
  have hstates : g.stateCount = 2 ^ request.qubits.toNat := hgcount ▸ hgready.states
  have hinvalid : invalidResults ⟨request.shots.toNat, 2 ^ request.qubits.toNat, counts⟩
      (2 ^ request.qubits.toNat - 1) = 0 := invalidResults_eq_zero (hgcount ▸ hcounts hends)
  have hcollapsed := norm_collapse (hgready.withRng (qcpuRngNext (rngAfter g.rngState request.shots.toNat)).2) hlt
  have hstored : (storage.store 1).value = some 1 := by
    have hone := storage.exact _ _ value_one
    rwa [Rat.cast_one] at hone
  refine ⟨measured,storage.store 1,hgcount ▸ hmeasured hends,hstored,?_⟩
  unfold processRunGhz
  rw [if_neg hrange,hinit]
  simp only [hghz,hvalid,hrun,hmeasure,ne_eq,not_true_eq_false,↓reduceIte,QCPUKernel.withRng_withRng,
    QCPUKernel.withRng_rngState,QCPUKernel.collapse_stateCount,QCPUKernel.withRng_stateCount,hinvalid,hcollapsed,
    hstates]

/-- What a response to a GHZ request shows. -/
structure ShowsGhz (qubits : UInt32) (basisStates measuredState invalidResults : UInt64) : Prop where
  basis : basisStates.toNat = 2 ^ qubits.toNat
  measured : measuredState.toNat = 0 ∨ measuredState.toNat = 2 ^ qubits.toNat - 1
  invalid : invalidResults = 0

/-- An answer of the daemon that fits the request; its norm is a whole number. -/
structure Answers (request : Request) (reply : QCPUDeviceResponse) (norm : ℕ) : Prop where
  magic : reply.magic = qcpuDeviceResponseMagic
  version : reply.version = qcpuDeviceProtocolVersion
  status : reply.status = QCPUDeviceStatus.ok.code
  flags : reply.flags = deviceFlags
  qubits : reply.qubits = request.qubits
  shots : reply.shots = request.shots.toUInt64
  norm_value : reply.norm.value = some (norm : ℚ)
  norm_le : norm ≤ 1
  ghz : request.command = qcpuUapiCommandRunGhz → norm = 1 ∧
    ShowsGhz request.qubits reply.basisStates reply.measuredState reply.invalidResults

theorem toNat_ofNat_of_le {n qubits : ℕ} (hq : qubits ≤ 20) (hn : n ≤ 2 ^ qubits) : (UInt64.ofNat n).toNat = n := by
  refine UInt64.toNat_ofNat_of_lt' (hn.trans_lt ?_)
  exact Nat.pow_lt_pow_right (by decide) (show qubits < 64 by omega)

/-- The record the adapter sends for a request. -/
def sentRequest (request : Request) (command : UInt16) : QCPUDeviceRequest :=
  ⟨qcpuDeviceRequestMagic, qcpuDeviceProtocolVersion, command, request.qubits, request.shots, request.seed⟩

theorem answerRequest_sent (storage : Storage) (old : QCPUDeviceRequest) (wire : Frame qcpuDeviceRequestWireSize)
    (request : Request) (command : UInt16) :
    answerRequest storage.store ⟨true, true⟩ old
      (qcpuDeviceEncodeRequest wire (sentRequest request command)).2.val =
      processRequest storage.store ⟨true, true⟩ (sentRequest request command) := by
  unfold answerRequest
  rw [decodeRequest_encode]
  rfl

/-- The daemon answers every request the frontend accepts. -/
theorem answerRequest_answers (storage : Storage) (old : QCPUDeviceRequest)
    (wire : Frame qcpuDeviceRequestWireSize) {request : Request} (hvalid : RequestValid request) :
    ∃ sent norm, qcpuAdapterTranslateRequest request = .ok sent ∧
      Answers request (answerRequest storage.store ⟨true, true⟩ old (qcpuDeviceEncodeRequest wire sent).2.val) norm := by
  rcases hvalid.command with hcommand | hcommand
  · obtain ⟨hqubits,hshots⟩ := hvalid.status_limits hcommand
    refine ⟨sentRequest request qcpuDeviceCommandStatus,0,if_pos hcommand,?_⟩
    rw [answerRequest_sent]
    refine ⟨rfl,rfl,rfl,rfl,hqubits.symm,by rw [hshots]; rfl,by rw [Nat.cast_zero]; exact value_zero,Nat.zero_le 1,
      fun h => ?_⟩
    exact absurd (hcommand.symm.trans h) (by decide)
  · obtain ⟨hpos,hmax,hshots,hmost⟩ := hvalid.ghz_limits hcommand
    refine ⟨sentRequest request qcpuDeviceCommandRunGhz,1,?_,?_⟩
    · unfold qcpuAdapterTranslateRequest
      rw [hcommand,if_neg (by decide),if_pos rfl]
      rfl
    obtain ⟨measured,norm,hmeasured,hnorm,hrun⟩ := processRunGhz_exact storage
      (show 0 < (sentRequest request qcpuDeviceCommandRunGhz).qubits.toNat from hpos) hmax hshots hmost responseInit
    have hprocess : processRequest storage.store ⟨true, true⟩ (sentRequest request qcpuDeviceCommandRunGhz) = _ := hrun
    rw [answerRequest_sent,hprocess]
    refine ⟨rfl,rfl,rfl,rfl,rfl,rfl,by rw [Nat.cast_one]; exact hnorm,le_refl 1,fun _ => ⟨rfl,?_,?_,rfl⟩⟩
    · exact toNat_ofNat_of_le hmax (le_refl _)
    · have hle : measured ≤ 2 ^ request.qubits.toNat := by
        rcases hmeasured with rfl | rfl
        · exact Nat.zero_le _
        · exact Nat.sub_le _ _
      rw [show (UInt64.ofNat measured).toNat = measured from toNat_ofNat_of_le hmax hle]
      exact hmeasured

/-- The response the adapter makes of a fitting answer. -/
def translatedResponse (request : Request) (reply : QCPUDeviceResponse) (norm : ℕ) : Response :=
  { magic := qcpuUapiResponseMagic
    version := qcpuUapiProtocolVersion
    status := 0
    flags := qcpuMockRequiredFlags
    qubits := request.qubits
    basisStates := reply.basisStates
    shots := request.shots.toUInt64
    measuredState := reply.measuredState
    invalidResults := reply.invalidResults
    normQ32_32 := UInt64.ofNat (norm * 4294967296) }

theorem translateResponse_answers {bits : ℕ} (longDouble : Faithful bits) (hbits : 64 ≤ bits) {request : Request}
    {reply : QCPUDeviceResponse} {norm : ℕ} (h : Answers request reply norm) :
    qcpuAdapterTranslateResponse longDouble reply = (0, translatedResponse request reply norm) := by
  unfold qcpuAdapterTranslateResponse
  simp only [normToQ32_32_of_le_one longDouble hbits h.norm_value h.norm_le,h.status,h.flags,h.qubits,h.shots]
  rfl

/-- The frontend accepts what the adapter made of a fitting answer. -/
theorem validate_answers {request : Request} {reply : QCPUDeviceResponse} {norm : ℕ} (hvalid : RequestValid request)
    (h : Answers request reply norm) :
    qcpuValidateBackendResponse request (translatedResponse request reply norm) = .ok () := by
  have hnorm : (UInt64.ofNat (norm * 4294967296)).toNat ≤ 2^32 := by
    rcases Nat.le_one_iff_eq_zero_or_eq_one.mp h.norm_le with rfl | rfl <;> decide
  have hflags : qcpuMockRequiredFlags &&& qcpuMockRequiredFlags = qcpuMockRequiredFlags := by decide
  refine validate_of_accepted hvalid ⟨rfl,rfl,rfl,hflags,rfl,UInt32.toNat_toUInt64 _,hnorm,fun hcommand => ?_⟩
  obtain ⟨-,hshows⟩ := h.ghz hcommand
  exact ⟨hshows.basis,hshows.measured,hshows.invalid⟩

theorem exchange_frame {bits : ℕ} (longDouble : Faithful bits)
    {serve : Frame qcpuDeviceRequestWireSize → Option (Frame qcpuDeviceResponseWireSize)} {io : ExchangeIo}
    (hio : Lossless serve io) (buffers : Buffers) {request : Request} {sent : QCPUDeviceRequest}
    (hsent : qcpuAdapterTranslateRequest request = .ok sent) {frame : Frame qcpuDeviceResponseWireSize}
    (hserve : serve (qcpuDeviceEncodeRequest buffers.requestWire sent).2 = some frame) :
    qcpuQcpudExchange longDouble io buffers request =
      match qcpuDeviceDecodeResponse buffers.response frame.val with
      | (.ok, reply) => qcpuAdapterTranslateResponse longDouble reply
      | _ => (-eio, {}) := by
  obtain ⟨descriptor,hconnect⟩ := hio.connected
  have htransfer : qcpuQcpudTransfer longDouble io buffers (qcpuDeviceEncodeRequest buffers.requestWire sent).2 =
      match qcpuDeviceDecodeResponse buffers.response frame.val with
      | (.ok, reply) => qcpuAdapterTranslateResponse longDouble reply
      | _ => (-eio, {}) := by
    unfold qcpuQcpudTransfer
    rw [if_neg (not_le.mpr hio.connectTime),hconnect]
    rcases hdecode : qcpuDeviceDecodeResponse buffers.response frame.val with ⟨status,reply⟩
    cases status <;>
      simp only [hio.registered,Bool.false_eq_true,↓reduceIte,if_neg (not_le.mpr hio.writeTime),hio.written,ne_eq,
        not_true_eq_false,hio.shut,if_neg (not_le.mpr hio.readTime),hio.received _ _ hserve,hdecode,qcpuAdapterFinish,
        hio.uncanceled]
  unfold qcpuQcpudExchange
  rw [hio.free,if_neg (by simp),hsent]
  exact htransfer

theorem exchange_lossless {bits : ℕ} (longDouble : Faithful bits)
    {serve : Frame qcpuDeviceRequestWireSize → Option (Frame qcpuDeviceResponseWireSize)} {io : ExchangeIo}
    (hio : Lossless serve io) (buffers : Buffers) {request : Request} {sent : QCPUDeviceRequest}
    (hsent : qcpuAdapterTranslateRequest request = .ok sent) {reply : QCPUDeviceResponse}
    {output : Frame qcpuDeviceResponseWireSize}
    (hserve : serve (qcpuDeviceEncodeRequest buffers.requestWire sent).2 =
      some (qcpuDeviceEncodeResponse output reply).2)
    (hmagic : reply.magic = qcpuDeviceResponseMagic) (hversion : reply.version = qcpuDeviceProtocolVersion) :
    qcpuQcpudExchange longDouble io buffers request = qcpuAdapterTranslateResponse longDouble reply := by
  have hdecode : qcpuDeviceDecodeResponse buffers.response (qcpuDeviceEncodeResponse output reply).2.val =
      (.ok, reply) := by
    rw [decodeResponse_encode,hmagic,hversion]
    rfl
  rw [exchange_frame longDouble hio buffers hsent hserve,hdecode]

theorem finishSection_returns {s : System} {task : ℕ} (call : ℕ) (caller : Option Exchange)
    (hcancel : s.mock.cancelRequested = false) (hresult : (s.tasks task).backendResult = 0)
    (hvalidated : qcpuValidateBackendResponse (s.tasks task).request (s.tasks task).response = .ok ()) :
    (finishSection s call caller task false).calls call =
      .exchangeReturned ⟨caller, caller.map (fun exchange => { exchange with response := (s.tasks task).response }),
        .ok (), none⟩ := by
  have houtcome : exchangeOutcome false s.mock.cancelRequested (s.tasks task).backendResult (s.tasks task).request
      (s.tasks task).response = .ok (s.tasks task).response := by
    unfold exchangeOutcome
    rw [if_neg (by simp),hcancel,hresult,if_neg (by decide),if_neg (by simp),hvalidated]
  unfold finishSection
  simp only [houtcome,Function.update_self]

/-- The daemon on the other side of the socket: exact arithmetic and enough memory. -/
noncomputable def exactDaemon (storage : Storage) (connection : Connection)
    (requestWire : Frame qcpuDeviceRequestWireSize) :
    Option (Frame qcpuDeviceResponseWireSize) :=
  (serveConnection storage.store ⟨true, true⟩ connection (.ok requestWire) .ok).2

/-- Every exchange that passes the checks before dispatch is answered, over a lossless
transport, by a response that passes the checks after it, so that it returns success; a
GHZ run shows its basis states, and the daemon reports success for it. -/
theorem exchange_answered {mock : Mock} {argument : Option Exchange} {clock : Option Timespec} {exchange : Exchange}
    {deadline : UInt64} (hpre : qcpuPrevalidateExchangeLocked mock argument clock = .accepted exchange deadline)
    {bits : ℕ} (hbits : 64 ≤ bits) (longDouble : Faithful bits) (storage : Storage) (connection : Connection)
    (buffers : Buffers) {io : ExchangeIo} (hio : Lossless (exactDaemon storage connection) io) :
    ∃ response, qcpuQcpudExchange longDouble io buffers exchange.request = (0, response) ∧
      qcpuValidateBackendResponse exchange.request response = .ok () ∧
      (∀ (s : System) (call task : ℕ) (caller : Option Exchange), s.mock.cancelRequested = false →
        (s.tasks task).request = exchange.request → (s.tasks task).backendResult = 0 →
        (s.tasks task).response = response → (finishSection s call caller task false).calls call =
          .exchangeReturned ⟨caller, caller.map (fun e => { e with response := response }), .ok (), none⟩) ∧
      (exchange.request.command = qcpuUapiCommandRunGhz →
        ShowsGhz exchange.request.qubits response.basisStates response.measuredState response.invalidResults ∧
        response.normQ32_32.toNat = 2 ^ 32) ∧
      ∀ sent, qcpuAdapterTranslateRequest exchange.request = .ok sent →
        (answerRequest storage.store ⟨true, true⟩ connection.request
          (qcpuDeviceEncodeRequest buffers.requestWire sent).2.val).status ∉
          [QCPUDeviceStatus.range.code, QCPUDeviceStatus.badCommand.code, QCPUDeviceStatus.badMagic.code,
            QCPUDeviceStatus.badVersion.code] := by
  obtain ⟨-,-,-,passed,-,hrequest,hvalid⟩ := prevalidate_accepted hpre
  rw [← hrequest] at hvalid
  obtain ⟨sent,norm,hsent,hanswers⟩ :=
    answerRequest_answers storage connection.request buffers.requestWire hvalid
  have hserve : exactDaemon storage connection (qcpuDeviceEncodeRequest buffers.requestWire sent).2 =
      some (qcpuDeviceEncodeResponse connection.responseWire (answerRequest storage.store ⟨true, true⟩
        connection.request (qcpuDeviceEncodeRequest buffers.requestWire sent).2.val)).2 := rfl
  have hstatus := hanswers.status
  generalize answerRequest storage.store ⟨true, true⟩ connection.request
    (qcpuDeviceEncodeRequest buffers.requestWire sent).2.val = reply at hanswers hserve
  have hvalidated := validate_answers hvalid hanswers
  refine ⟨translatedResponse exchange.request reply norm,?_,hvalidated,?_,fun hcommand => ?_,?_⟩
  · rw [exchange_lossless longDouble hio buffers hsent hserve hanswers.magic hanswers.version]
    exact translateResponse_answers longDouble hbits hanswers
  · intro s call task caller hcancel htask hresult hresponse
    have hreturns := finishSection_returns call caller hcancel hresult (by rw [htask,hresponse]; exact hvalidated)
    rwa [hresponse] at hreturns
  · obtain ⟨rfl,hshows⟩ := hanswers.ghz hcommand
    exact ⟨hshows,rfl⟩
  · intro other hother
    obtain rfl : sent = other := Except.ok.inj (hsent.symm.trans hother)
    rw [hstatus]
    decide

/-- A transport on which everything works, with the daemon behind it. -/
noncomputable def quietIo (storage : Storage) (connection : Connection) : ExchangeIo :=
  { busy := false
    connectRemainingMs := 1000
    connect := .ok 3
    canceledAtRegister := false
    writeRemainingMs := 1000
    write := .ok
    shutdownFails := false
    readRemainingMs := 1000
    reply := fun requestWire => match exactDaemon storage connection requestWire with
      | some responseWire => .ok responseWire
      | none => .error .error
    canceledAtIo := false
    canceledAtFinish := false }

theorem quietIo_lossless (storage : Storage) (connection : Connection) :
    Lossless (exactDaemon storage connection) (quietIo storage connection) where
  free := rfl
  connectTime := (by decide : (0 : ℤ) < 1000)
  connected := ⟨3,rfl⟩
  registered := rfl
  writeTime := (by decide : (0 : ℤ) < 1000)
  written := rfl
  shut := rfl
  readTime := (by decide : (0 : ℤ) < 1000)
  received requestWire responseWire h := by simp only [quietIo,h]
  uncanceled := rfl

/-- Three qubits, ten shots and a seed. -/
def ghzExchange : Exchange := ⟨⟨qcpuUapiRequestMagic, qcpuUapiProtocolVersion, qcpuUapiCommandRunGhz, 3, 10, 7⟩, 0, {}⟩

/-- An idle frontend with an open session and a backend. -/
def idleMock : Mock :=
  { backendName := []
    driverVersion := []
    backendOps := ⟨some 0, some 1⟩
    backendContext := none
    backendAttached := true
    sessionOpen := true
    busy := false
    cancelRequested := false
    cancelSent := false
    lockFd := 4
    activeTask := none
    deviceState := .idle
    lastErrno := 0
    lastProtocolStatus := statusOk
    completedRequests := 0
    failedRequests := 0 }

def clearConnection : Connection := ⟨⟨0, 0, 0, 0, 0, 0⟩, ⟨List.replicate 56 0, by simp⟩⟩
def clearBuffers : Buffers := ⟨⟨List.replicate 24 0, by simp⟩, responseInit⟩

theorem exchange_answered_ghz :
    qcpuPrevalidateExchangeLocked idleMock (some ghzExchange) (some ⟨1, 0⟩) = .accepted ghzExchange 2000000000 ∧
    ∃ response, qcpuQcpudExchange (unrounded 64) (quietIo exactStorage clearConnection) clearBuffers
        ghzExchange.request = (0, response) ∧
      response.basisStates.toNat = 2 ^ 3 ∧ response.normQ32_32.toNat = 2 ^ 32 := by
  have hpre : qcpuPrevalidateExchangeLocked idleMock (some ghzExchange) (some ⟨1, 0⟩) =
      .accepted ghzExchange 2000000000 := by decide
  obtain ⟨response,hexchange,-,-,hghz,-⟩ := exchange_answered hpre (le_refl 64) (unrounded 64) exactStorage
    clearConnection clearBuffers (quietIo_lossless exactStorage clearConnection)
  obtain ⟨hshows,hnorm⟩ := hghz rfl
  exact ⟨hpre,response,hexchange,hshows.basis,hnorm⟩

end QbitNova.Adapter
