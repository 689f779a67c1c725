import QbitNova.Device.FrontendContract

/-! # The documented orders of checks

The design document lists the checks before an exchange is dispatched and the checks of a
backend's response, each with its errno and protocol status. Both lists are tables here, in
the order and over the numbers of the document; the code tests words of fixed width, and
some rows in another order.
-/
namespace QbitNova.Frontend
open Function (update)
open Checks

structure Failure where
  errorNumber : ℤ
  protocolStatus : UInt32
  deriving DecidableEq, Repr

/-- STATUS carries no qubits and no shots, RUN_GHZ between 1 and 20 qubits and between 1 and 100 shots. -/
def inDocumentedRange (request : Request) : Bool :=
  if request.command = qcpuUapiCommandStatus then request.qubits.toNat = 0 && request.shots.toNat = 0
  else 1 ≤ request.qubits.toNat && request.qubits.toNat ≤ 20 &&
    (1 ≤ request.shots.toNat && request.shots.toNat ≤ 100)

/-- The timeout of an exchange in nanoseconds; zero selects one second. -/
def documentedTimeout (exchange : Exchange) : ℕ :=
  if exchange.timeoutNs.toNat = 0 then 1000000000 else exchange.timeoutNs.toNat

def timeoutTooLong (exchange : Exchange) : Bool := 5000000000 < documentedTimeout exchange

/-- The time of the clock and the timeout do not fit 64 bits together. -/
def deadlineOverflows (exchange : Exchange) (now : Timespec) : Bool :=
  2^64 ≤ (qcpuTimespecToNs now).toNat + documentedTimeout exchange

/-- The checks before dispatch, in the documented order. -/
def predispatchTable (mock : Mock) (argument : Option Exchange) (clock : Option Timespec) : List (Bool × Failure) :=
  [(!mock.sessionOpen, ⟨ebusy, statusBusy⟩),
    (argument.isNone, ⟨einval, statusRange⟩),
    (argument.any (fun ex => ex.request.magic != qcpuUapiRequestMagic), ⟨eproto, statusBadMagic⟩),
    (argument.any (fun ex => ex.request.version != qcpuUapiProtocolVersion), ⟨eprotonosupport, statusBadVersion⟩),
    (argument.any (fun ex => ex.request.command != qcpuUapiCommandStatus &&
      ex.request.command != qcpuUapiCommandRunGhz), ⟨eopnotsupp, statusBadCommand⟩),
    (argument.any (fun ex => !inDocumentedRange ex.request), ⟨erange, statusRange⟩),
    (argument.any timeoutTooLong, ⟨erange, statusRange⟩),
    (clock.isNone, ⟨eio, statusIo⟩),
    (argument.any (fun ex => clock.any (deadlineOverflows ex)), ⟨erange, statusRange⟩),
    (mock.busy, ⟨ebusy, statusBusy⟩),
    (!mock.backendAttached, ⟨enodev, statusBackendAbsent⟩)]

def Mock.withResult (mock : Mock) (failure : Failure) : Mock :=
  { mock with lastErrno := failure.errorNumber, lastProtocolStatus := failure.protocolStatus }

/-- What a verdict of the table means for the checks of the code: a rejection with the
documented result that leaves the rest of the frontend alone, or the argument with its
response cleared and a deadline that did not wrap around. -/
def Decides (mock : Mock) (argument : Option Exchange) (clock : Option Timespec) (outcome : Prevalidated) :
    Except Failure Unit → Prop
  | .error failure => outcome = .rejected (mock.withResult failure)
      (qcpuSetFailureResponse argument failure.protocolStatus) failure.errorNumber
  | .ok () => ∃ exchange now deadline, argument = some exchange ∧ clock = some now ∧
      outcome = .accepted { exchange with response := {} } deadline ∧
      deadline.toNat = (qcpuTimespecToNs now).toNat + documentedTimeout exchange

section
variable {mock : Mock} {argument : Option Exchange} {clock : Option Timespec}

theorem Decides.ite {p : Prop} [Decidable p] {fails : Bool} {failure : Failure} {rows : List (Bool × Failure)}
    {x y : Prevalidated} (hrow : fails = decide p) (hx : p → Decides mock argument clock x (.error failure))
    (hy : ¬ p → Decides mock argument clock y (cascade rows)) :
    Decides mock argument clock (if p then x else y) (cascade ((fails, failure) :: rows)) := by
  subst hrow
  by_cases hp : p
  · rw [if_pos hp,decide_eq_true hp,cascade_true]
    exact hx hp
  · rw [if_neg hp,decide_eq_false hp,cascade_false]
    exact hy hp

theorem requestOutOfRange_eq (request : Request) : (!inDocumentedRange request) = requestOutOfRange request := by
  have hq : request.qubits.toNat = 0 ↔ request.qubits = 0 := UInt32.toNat_inj (b := 0)
  have hs : request.shots.toNat = 0 ↔ request.shots = 0 := UInt32.toNat_inj (b := 0)
  unfold inDocumentedRange requestOutOfRange
  by_cases hstatus : request.command = qcpuUapiCommandStatus
  · rw [if_pos hstatus,if_pos hstatus]
    simp [hq,hs]
  · have hmaxq : request.qubits > qcpuUapiMaxQubits ↔ 20 < request.qubits.toNat := UInt32.lt_iff_toNat_lt
    have hmaxs : request.shots > qcpuUapiMaxShots ↔ 100 < request.shots.toNat := UInt32.lt_iff_toNat_lt
    rw [if_neg hstatus,if_neg hstatus,Bool.eq_iff_iff]
    simp only [Bool.not_eq_true',Bool.and_eq_false_iff,decide_eq_false_iff_not,Bool.or_eq_true,decide_eq_true_eq,
      ← hq,← hs,hmaxq,hmaxs]
    omega

theorem timeoutOrDefault_toNat (exchange : Exchange) :
    (timeoutOrDefault exchange.timeoutNs).toNat = documentedTimeout exchange := by
  have hzero : exchange.timeoutNs.toNat = 0 ↔ exchange.timeoutNs = 0 := UInt64.toNat_inj (b := 0)
  unfold timeoutOrDefault documentedTimeout
  by_cases h : exchange.timeoutNs = 0
  · rw [if_pos h,if_pos (hzero.mpr h)]
    rfl
  · rw [if_neg h,if_neg (fun hn => h (hzero.mp hn))]

theorem timeoutTooLong_eq (exchange : Exchange) :
    timeoutTooLong exchange = decide (timeoutOrDefault exchange.timeoutNs > qcpuMockMaxTimeoutNs) := by
  have hmax : qcpuMockMaxTimeoutNs.toNat = 5000000000 := UInt64.toNat_ofNat_of_lt (by decide)
  unfold timeoutTooLong
  rw [decide_eq_decide,gt_iff_lt,UInt64.lt_iff_toNat_lt,hmax,timeoutOrDefault_toNat]

theorem deadlineOverflows_eq (exchange : Exchange) (now : Timespec) :
    deadlineOverflows exchange now =
      decide (uint64Max - qcpuTimespecToNs now < timeoutOrDefault exchange.timeoutNs) := by
  have hlt := (qcpuTimespecToNs now).toNat_lt
  have hle : qcpuTimespecToNs now ≤ uint64Max := by
    rw [UInt64.le_iff_toNat_le]
    exact Nat.le_pred_of_lt hlt
  have hsub : (uint64Max - qcpuTimespecToNs now).toNat = 2^64 - 1 - (qcpuTimespecToNs now).toNat :=
    UInt64.toNat_sub_of_le _ _ hle
  unfold deadlineOverflows
  rw [decide_eq_decide,UInt64.lt_iff_toNat_lt,hsub,timeoutOrDefault_toNat]
  omega

theorem deadline_toNat {exchange : Exchange} {now : Timespec} (h : deadlineOverflows exchange now = false) :
    (qcpuTimespecToNs now + timeoutOrDefault exchange.timeoutNs).toNat =
      (qcpuTimespecToNs now).toNat + documentedTimeout exchange := by
  unfold deadlineOverflows at h
  rw [UInt64.toNat_add,timeoutOrDefault_toNat]
  exact Nat.mod_eq_of_lt (by simpa using h)

theorem detached_eq (hm : MockValid mock) :
    (!mock.backendAttached) = decide ((!mock.backendAttached || mock.backendOps.exchange.isNone) = true) := by
  have hattached := hm.attached_iff
  cases hb : mock.backendAttached <;> cases ho : mock.backendOps.exchange <;> simp_all

theorem prevalidate_decides (hm : MockValid mock) (argument : Option Exchange) (clock : Option Timespec) :
    Decides mock argument clock (qcpuPrevalidateExchangeLocked mock argument clock)
      (cascade (predispatchTable mock argument clock)) := by
  unfold qcpuPrevalidateExchangeLocked predispatchTable
  refine Decides.ite (by simp) (fun _ => rfl) fun _ => ?_
  cases argument with
  | none => rfl
  | some passed =>
    simp only [Option.isNone_some,cascade_false,Option.any_some]
    refine Decides.ite (Bool.eq_iff_iff.mpr (by simp)) (fun _ => rfl) fun _ => ?_
    refine Decides.ite (Bool.eq_iff_iff.mpr (by simp)) (fun _ => rfl) fun _ => ?_
    refine Decides.ite (Bool.eq_iff_iff.mpr (by simp)) (fun _ => rfl) fun _ => ?_
    refine Decides.ite (by simp [requestOutOfRange_eq]) (fun _ => rfl) fun _ => ?_
    refine Decides.ite (timeoutTooLong_eq passed) (fun _ => rfl) fun _ => ?_
    cases clock with
    | none => rfl
    | some now =>
      rw [Option.isNone_some,cascade_false,Option.any_some]
      refine Decides.ite (deadlineOverflows_eq passed now) (fun _ => rfl) fun hfits => ?_
      refine Decides.ite (by simp) (fun _ => rfl) fun _ => ?_
      have hoverflow : deadlineOverflows passed now = false := by
        rw [deadlineOverflows_eq]
        exact decide_eq_false hfits
      have habsent := detached_eq hm
      refine Decides.ite habsent (fun hgone => ?_) fun _ => ?_
      · have hdetached : mock.backendAttached = false := by simpa using habsent.trans (decide_eq_true hgone)
        have hstate := hm.detached_offline hdetached
        simp only [Decides,rejectExchange,← hstate]
        rfl
      · exact ⟨passed,now,_,rfl,rfl,rfl,deadline_toNat hoverflow⟩

end

/-- The system after a rejected exchange: the caller has its answer, and of everything
shared only the last result is another. -/
def System.rejects (s : System) (call : ℕ) (argument : Option Exchange) (failure : Failure) : System :=
  { s with
    mock := s.mock.withResult failure
    calls := update s.calls call (.exchangeReturned
      ⟨argument, qcpuSetFailureResponse argument failure.protocolStatus, .error failure.errorNumber, none⟩) }

/-- In every reachable state the checks before dispatch end with the first documented check
that fails, and a rejection runs no callback and touches nothing but the last result. -/
theorem predispatch_documented {s : System} (h : Reachable s) (argument : Option Exchange) (clock : Option Timespec) :
    Decides s.mock argument clock (qcpuPrevalidateExchangeLocked s.mock argument clock)
      (cascade (predispatchTable s.mock argument clock)) ∧
    ∀ failure, cascade (predispatchTable s.mock argument clock) = .error failure →
      ∀ call dispatch, dispatch.clock = clock → s.calls call = .idle → s.destroyed = false →
        step s (.exchange call argument dispatch) = some (s.rejects call argument failure) := by
  have hdecides := prevalidate_decides (reachable_valid h).mock argument clock
  refine ⟨hdecides,?_⟩
  rintro failure hfails call dispatch rfl hidle hlive
  rw [hfails] at hdecides
  simp only [step,startCall,exchangeSection,show qcpuPrevalidateExchangeLocked s.mock argument dispatch.clock = _
    from hdecides]
  exact if_pos ⟨hidle,hlive⟩

theorem predispatch_documented_busy : ∃ s, Reachable s ∧ InFlight s 0 ∧
    step s (.exchange 7 (some sampleExchange) sampleDispatch) =
      some (s.rejects 7 (some sampleExchange) ⟨ebusy, statusBusy⟩) := by
  have hreach : Reachable _ := ⟨sampleConfig,_,sampleRun,rfl,rfl⟩
  refine ⟨_,hreach,rfl,?_⟩
  exact (predispatch_documented hreach (some sampleExchange) sampleDispatch.clock).2 _ (by decide) 7 sampleDispatch rfl
    rfl rfl

def documentedErrno : List (UInt32 × ℤ) :=
  [(statusOk, 0), (statusBadMagic, eproto), (statusBadVersion, eprotonosupport), (statusBadCommand, eopnotsupp),
    (statusRange, erange), (statusBackendAbsent, enodev), (statusBusy, ebusy), (statusTimeout, etimedout),
    (statusCanceled, ecanceled), (statusKernel, eio), (statusIo, eio)]

/-- The verdict on a response that is not what was asked for. -/
def malformed : Verdict := ⟨eio, statusIo, false⟩

/-- The verdict on a response with an impossible result. -/
def engineFailure : Verdict := ⟨eio, statusKernel, false⟩

def reported (status : UInt32) : Verdict :=
  ⟨(documentedErrno.lookup status).getD eio, status, status = statusBackendAbsent⟩

/-- Software virtual, classical host, physical QPU absent, q0 most significant. -/
def truthFlags (flags : UInt32) : Bool := (List.range 4).all (fun i => flags.toNat.testBit i)

section
variable (request : Request) (response : Response)

def wrongBasis : Bool := response.basisStates.toNat ≠ 2^request.qubits.toNat
def wrongMeasured : Bool :=
  response.measuredState.toNat ≠ 0 && response.measuredState.toNat ≠ 2^request.qubits.toNat - 1
def wrongNorm : Bool := 2^32 < response.normQ32_32.toNat

def headerTable : List (Bool × Verdict) :=
  [(response.magic != qcpuUapiResponseMagic, malformed),
    (response.version != qcpuUapiProtocolVersion, malformed),
    (1 ≤ response.status.toNat && response.status.toNat ≤ 10, reported response.status.toUInt32),
    (10 < response.status.toNat, malformed),
    (!truthFlags response.flags, malformed),
    (response.qubits != request.qubits, malformed),
    (response.shots.toNat != request.shots.toNat, malformed)]

def ghzTable : List (Bool × Verdict) :=
  [(wrongBasis request response, engineFailure),
    (wrongMeasured request response, engineFailure),
    (response.invalidResults != 0, engineFailure)]

/-- The checks of a response, in the documented order. -/
def responseTable : List (Bool × Verdict) :=
  headerTable request response ++ (if request.command = qcpuUapiCommandRunGhz then ghzTable request response else []) ++
    [(wrongNorm response, engineFailure)]

/-- The rows in the order of the code: unknown statuses before known ones, the norm before
the RUN_GHZ rows. -/
def codedTable : List (Bool × Verdict) :=
  [(response.magic != qcpuUapiResponseMagic, malformed),
    (response.version != qcpuUapiProtocolVersion, malformed),
    (10 < response.status.toNat, malformed),
    (1 ≤ response.status.toNat && response.status.toNat ≤ 10, reported response.status.toUInt32),
    (!truthFlags response.flags, malformed),
    (response.qubits != request.qubits, malformed),
    (response.shots.toNat != request.shots.toNat, malformed),
    (wrongNorm response, engineFailure)] ++
  (if request.command = qcpuUapiCommandRunGhz then ghzTable request response else [])

/-- The two orders give the same verdict on every response, however many rows it fails. -/
theorem cascade_codedTable : cascade (codedTable request response) = cascade (responseTable request response) := by
  have hrows : ∀ row ∈ (if request.command = qcpuUapiCommandRunGhz then ghzTable request response else []),
      row.2 = engineFailure := by
    split_ifs
    · simp [ghzTable]
    · simp
  have hexclusive : decide (10 < response.status.toNat) = true →
      (decide (1 ≤ response.status.toNat) && decide (response.status.toNat ≤ 10)) = false := by
    simp only [decide_eq_true_eq,Bool.and_eq_false_iff,decide_eq_false_iff_not]
    omega
  have hmove := cascade_move (wrongNorm response) engineFailure hrows []
  rw [List.append_nil] at hmove
  unfold codedTable responseTable headerTable
  simp only [List.cons_append,List.nil_append]
  rw [cascade_cons,cascade_cons,cascade_exclusive hexclusive,cascade_cons _ (reported _),cascade_cons _ malformed,
    cascade_cons,cascade_cons,cascade_cons,hmove]
  rfl

end

theorem truthFlags_eq (flags : UInt32) :
    (!truthFlags flags) = decide (flags &&& qcpuMockRequiredFlags ≠ qcpuMockRequiredFlags) := by
  have hmask : flags &&& qcpuMockRequiredFlags = qcpuMockRequiredFlags ↔ flags.toNat % 2^4 = 15 := by
    have hand := Nat.and_two_pow_sub_one_eq_mod flags.toNat 4
    rw [← UInt32.toNat_inj,UInt32.toNat_and,← hand]
    rfl
  have hbits : truthFlags flags = true ↔ flags.toNat % 2^4 = 15 := by
    unfold truthFlags
    simp only [List.range_succ,List.range_zero,List.nil_append,List.cons_append,List.all_cons,List.all_nil,
      Bool.and_true,Bool.and_eq_true,Nat.testBit_eq_decide_div_mod_eq,decide_eq_true_eq]
    omega
  rw [Bool.eq_iff_iff,Bool.not_eq_true',decide_eq_true_eq,ne_eq,hmask,← hbits,Bool.not_eq_true]

theorem statusKnown_eq (status : UInt16) : qcpuStatusKnown status.toUInt32 = decide (status.toNat ≤ 10) := by
  unfold qcpuStatusKnown
  rw [decide_eq_decide,UInt32.le_iff_toNat_le,UInt16.toNat_toUInt32]
  rfl

theorem statusToErrno_documented {status : UInt32} (h : status.toNat ≤ 10) :
    (documentedErrno.lookup status).getD eio = qcpuStatusToErrno status := by
  obtain ⟨n,hn⟩ : ∃ n : Fin 11, status = UInt32.ofNat n.val :=
    ⟨⟨status.toNat,by omega⟩,(UInt32.ofNat_toNat).symm⟩
  have hall : ∀ n : Fin 11, (documentedErrno.lookup (UInt32.ofNat n.val)).getD eio =
      qcpuStatusToErrno (UInt32.ofNat n.val) := by decide
  rw [hn]
  exact hall n

theorem wrongNorm_eq (response : Response) :
    wrongNorm response = decide (response.normQ32_32 > (1 : UInt64) <<< (32 : UInt64)) := by
  have hone : ((1 : UInt64) <<< (32 : UInt64)).toNat = 2^32 := by decide
  unfold wrongNorm
  rw [decide_eq_decide,gt_iff_lt,UInt64.lt_iff_toNat_lt,hone]

theorem wrongBasis_eq {request : Request} (hmax : request.qubits.toNat ≤ 20) (response : Response) :
    wrongBasis request response = decide (response.basisStates ≠ (1 : UInt64) <<< request.qubits.toUInt64) := by
  unfold wrongBasis
  rw [decide_eq_decide,ne_eq,ne_eq,← oneShift_toNat hmax,UInt64.toNat_inj]

theorem wrongMeasured_eq {request : Request} (hmax : request.qubits.toNat ≤ 20) (response : Response) :
    wrongMeasured request response = decide (response.measuredState ≠ 0 ∧
      response.measuredState ≠ ((1 : UInt64) <<< request.qubits.toUInt64) - 1) := by
  have hzero : response.measuredState.toNat = 0 ↔ response.measuredState = 0 := UInt64.toNat_inj (b := 0)
  unfold wrongMeasured
  rw [Bool.decide_and,← allOnes_toNat hmax]
  simp only [ne_eq,hzero,UInt64.toNat_inj]

theorem validate_eq_coded {request : Request} (hreq : RequestValid request) (response : Response) :
    qcpuValidateBackendResponse request response = cascade (codedTable request response) := by
  have hstatus : response.status.toUInt32.toNat = response.status.toNat := UInt16.toNat_toUInt32 _
  unfold qcpuValidateBackendResponse codedTable
  simp only [List.cons_append,List.nil_append]
  refine ite_cascade (Bool.eq_iff_iff.mpr (by simp)) fun _ => ?_
  refine ite_cascade (Bool.eq_iff_iff.mpr (by simp)) fun _ => ?_
  refine ite_cascade (by simp [statusKnown_eq]) fun hknown => ?_
  have hle : response.status.toNat ≤ 10 := by simpa [statusKnown_eq] using hknown
  rw [reported,statusToErrno_documented (hstatus.trans_le hle)]
  refine ite_cascade ?_ fun _ => ?_
  · have hok : response.status.toUInt32 = statusOk ↔ response.status.toNat = 0 := by
      rw [← UInt32.toNat_inj,hstatus]
      rfl
    rw [Bool.eq_iff_iff]
    simp only [hle,hok,decide_true,Bool.and_true,decide_eq_true_eq,ne_eq]
    omega
  refine ite_cascade (truthFlags_eq response.flags) fun _ => ?_
  rw [← cascade_or]
  refine ite_cascade ?_ fun _ => ?_
  · rw [Bool.eq_iff_iff]
    simp [← UInt64.toNat_inj]
  refine ite_cascade (wrongNorm_eq response) fun _ => ?_
  by_cases hghz : request.command = qcpuUapiCommandRunGhz
  · obtain ⟨-,hmax,-⟩ := hreq.ghz_limits hghz
    rw [if_pos hghz,if_pos hghz,ghzTable]
    refine ite_cascade (wrongBasis_eq hmax response) fun _ => ?_
    refine ite_cascade (wrongMeasured_eq hmax response) fun _ => ?_
    exact ite_cascade (Bool.eq_iff_iff.mpr (by simp)) fun _ => rfl
  · rw [if_neg hghz,if_neg hghz]
    rfl

/-- The checks of the code give the verdict of the documented table on every response to a
request that was dispatched. -/
theorem response_documented {request : Request} (hreq : RequestValid request) (response : Response) :
    qcpuValidateBackendResponse request response = cascade (responseTable request response) :=
  (validate_eq_coded hreq response).trans (cascade_codedTable request response)

/-- A response with a norm too large and results counted as invalid: both rows fail. -/
theorem response_documented_faults : cascade (responseTable
    ⟨qcpuUapiRequestMagic, qcpuUapiProtocolVersion, qcpuUapiCommandRunGhz, 3, 10, 1⟩
    { magic := qcpuUapiResponseMagic, version := qcpuUapiProtocolVersion, flags := 15, qubits := 3, shots := 10,
      basisStates := 8, measuredState := 7, invalidResults := 1, normQ32_32 := 0xffffffffff }) =
    .error engineFailure := by
  rw [← response_documented ⟨rfl,rfl,Or.inr rfl,rfl⟩]
  rfl

end QbitNova.Frontend
