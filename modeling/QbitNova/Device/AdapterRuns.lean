import QbitNova.Device.AdapterSystem

/-! # What holds whenever the adapter is unlocked

The steps of an exchange are reduced to a few moves that differ in what they do to the
shared fields and to the descriptor table. At most one exchange is between its `begin`
and its `finish`; the shared fields are a function of it and of the sections that ran.
-/
namespace QbitNova.AdapterSystem
open Adapter LittleEndian Frontend DeviceWire Rounding

/-- Between `begin` and `finish`. -/
def Phase.inside : Phase → Bool
  | .idle => false
  | .entered _ => false
  | .close _ _ _ => false
  | .returned _ _ => false
  | _ => true

/-- The descriptor the exchange has published. -/
def Phase.registered : Phase → Option ℕ
  | .write _ fd => some fd
  | .shutdown fd => some fd
  | .read fd => some fd
  | .ioFailed fd _ => some fd
  | .shutdownFailed fd => some fd
  | .finish fd _ _ => fd
  | _ => none

/-- The descriptor `qcpu_device_connect_unix` returned to the exchange, until it is closed. -/
def Phase.connected : Phase → Option ℕ
  | .register _ fd => some fd
  | .close fd _ _ => some fd
  | phase => phase.registered

/-- The open descriptor that belongs to the exchange. -/
def Phase.holds : Phase → Option ℕ
  | .connecting _ fd => some fd
  | phase => phase.connected

/-- The result an exchange takes into its `finish`. -/
def Phase.result? : Phase → Option ℤ
  | .finish _ result _ => some result
  | _ => none

/-- What `active_fd` is while the exchange is inside. -/
def Phase.activeFd (phase : Phase) : ℤ := phase.registered.elim (-1) (fun fd => (fd : ℤ))

/-- Two phases inside that differ in locals only. -/
structure Phase.Like (p p' : Phase) : Prop where
  inside : p.inside = true ∧ p'.inside = true
  registered : p'.registered = p.registered
  connected : p'.connected = p.connected
  holds : p'.holds = p.holds

/-- The moves of the system. -/
inductive Move (s : System) : System → Prop where
  | enter {call} (request : Request) (h : s.phase call = .idle) : Move s (s.goto call (.entered request))
  | reject {call} (h : s.phase call = .idle) : Move s (s.goto call (.returned (-einval) {}))
  | begin {call request} (h : s.phase call = .entered request) (hfree : s.adapter.active = false) :
      Move s { s.goto call (.prepare request) with
        adapter := ⟨-1, true, false⟩
        sections := .began call :: s.sections }
  | refuse {call request} (h : s.phase call = .entered request) (hbusy : s.adapter.active = true) :
      Move s { s.goto call (.returned (-ebusy) {}) with sections := .refused call :: s.sections }
  | quiet {call phase} (hlike : (s.phase call).Like phase) (hresult : phase.result? ≠ some (-ecanceled)) :
      Move s (s.goto call phase)
  | socket {call wire fd} (h : s.phase call = .connect wire) (hfd : s.fds fd = none) :
      Move s { s.goto call (.connecting wire fd) with fds := Function.update s.fds fd (some (.exchange call)) }
  | abort {call wire fd result} (h : s.phase call = .connecting wire fd) (hresult : result ≠ -ecanceled) :
      Move s { s.goto call (.finish none result {}) with fds := Function.update s.fds fd none }
  | connected {call wire fd} (h : s.phase call = .connecting wire fd) :
      Move s { s.goto call (.register wire fd) with connects := (call, fd) :: s.connects }
  | registered {call wire fd} (h : s.phase call = .register wire fd) :
      Move s { s.goto call (if s.adapter.cancelRequested then .finish (some fd) (-ecanceled) {} else .write wire fd) with
        adapter := { s.adapter with activeFd := fd }
        sections := .registered call :: s.sections }
  | asked {call fd result} (hlike : (s.phase call).Like (.finish (some fd) result {}))
      (hresult : result = -ecanceled → s.adapter.cancelRequested = true) :
      Move s { s.goto call (.finish (some fd) result {}) with sections := .asked call :: s.sections }
  | finish {call fd result response} (h : s.phase call = .finish fd result response) :
      Move s { s.goto call (leavePhase fd (if s.adapter.cancelRequested then -ecanceled else result) response) with
        adapter := {}
        sections := .finished call :: s.sections }
  | close {call fd result response} (h : s.phase call = .close fd result response) :
      Move s { s.goto call (.returned result response) with
        fds := Function.update s.fds fd none
        closes := (call, fd) :: s.closes }
  | cancel : Move s { s with adapter := s.adapter.cancel.2, sections := .canceled :: s.sections }
  | openOther {fd} (hfd : s.fds fd = none) : Move s { s with fds := Function.update s.fds fd (some .other) }
  | closeOther {fd} (hfd : s.fds fd = some .other) : Move s { s with fds := Function.update s.fds fd none }

section
variable {bits : ℕ} {longDouble : Faithful bits}

theorem translateResponse_result (source : QCPUDeviceResponse) :
    (qcpuAdapterTranslateResponse longDouble source).1 ≠ -ecanceled := by
  have hstatus : ∀ status, qcpuAdapterStatusResult status ≠ -ecanceled := by
    intro status
    unfold qcpuAdapterStatusResult
    split_ifs <;> decide
  unfold qcpuAdapterTranslateResponse
  simp only []
  split
  · exact hstatus _
  · exact (by decide : -eio ≠ -ecanceled)

theorem connectResult_ne (failure : ConnectFailure) : connectResult failure ≠ -ecanceled := by
  unfold connectResult
  split
  · decide
  · split_ifs <;> decide

theorem preparePhase_quiet (request : Request) (buffer : RequestWire) (remainingMs : ℤ) :
    (Phase.prepare request).Like (preparePhase request buffer remainingMs) ∧
      (preparePhase request buffer remainingMs).result? ≠ some (-ecanceled) := by
  have hfailed : ∀ result, result ≠ -ecanceled →
      (Phase.prepare request).Like (.finish none result {}) ∧
        (Phase.finish none result {}).result? ≠ some (-ecanceled) := by
    intro result hne
    exact ⟨⟨⟨rfl,rfl⟩,rfl,rfl,rfl⟩,fun h => hne (Option.some.inj h)⟩
  unfold preparePhase
  split
  · rename_i result hresult
    refine hfailed result ?_
    unfold qcpuAdapterTranslateRequest at hresult
    split_ifs at hresult
    cases hresult
    decide
  · split
    · split_ifs
      · exact hfailed _ (by decide)
      · exact ⟨⟨⟨rfl,rfl⟩,rfl,rfl,rfl⟩,by simp [Phase.result?]⟩
    · exact hfailed _ (by decide)

theorem finishAfter_quiet {p : Phase} {fd : ℕ} {result : ℤ} (response : Response)
    (hp : p.inside = true ∧ p.registered = some fd ∧ p.connected = some fd ∧ p.holds = some fd)
    (hne : result ≠ -ecanceled) : p.Like (.finish (some fd) result response) ∧
      (Phase.finish (some fd) result response).result? ≠ some (-ecanceled) :=
  ⟨⟨⟨hp.1,rfl⟩,hp.2.1.symm,hp.2.2.1.symm,hp.2.2.2.symm⟩,fun h => hne (Option.some.inj h)⟩

theorem decodePhase_quiet (fd : ℕ) (buffer : QCPUDeviceResponse) (wire : ResponseWire) :
    (Phase.read fd).Like (decodePhase longDouble fd buffer wire) ∧
      (decodePhase longDouble fd buffer wire).result? ≠ some (-ecanceled) := by
  unfold decodePhase
  split
  · exact finishAfter_quiet _ ⟨rfl,rfl,rfl,rfl⟩ (translateResponse_result _)
  · exact finishAfter_quiet _ ⟨rfl,rfl,rfl,rfl⟩ (by decide)

theorem begin_busy {a : QcpuQcpudAdapter} (h : a.active = true) : a.begin = (-ebusy, a) := if_pos h

theorem begin_free {a : QcpuQcpudAdapter} (h : a.active = false) : a.begin = (0, ⟨-1, true, false⟩) :=
  if_neg (by simp [h])

theorem step_move {s t : System} {e : Event} (h : step longDouble s e = some t) : Move s t := by
  have hquiet : ∀ {call phase p}, s.phase call = p → p.Like phase ∧ phase.result? ≠ some (-ecanceled) →
      s.goto call phase = t → Move s t := by
    rintro call phase _ rfl ⟨hlike,hresult⟩ rfl
    exact .quiet hlike hresult
  cases e with
  | call call request =>
    simp only [step] at h
    split at h
    · cases h
      exact .reject ‹_›
    · cases h
      exact .enter _ ‹_›
    · cases h
  | begin call =>
    cases hactive : s.adapter.active with
    | true =>
      simp only [step,begin_busy hactive] at h
      split at h
      · cases h
        exact .refuse ‹_› hactive
      · cases h
    | false =>
      simp only [step,begin_free hactive] at h
      split at h
      · cases h
        exact .begin ‹_› hactive
      · cases h
  | prepare call buffer remainingMs =>
    simp only [step] at h
    split at h
    · exact hquiet ‹_› (preparePhase_quiet _ _ _) (Option.some.inj h)
    · cases h
  | connectFailed call failure =>
    simp only [step] at h
    split at h
    · rename_i wire hphase
      have hlike : (Phase.connect wire).Like (.finish none (connectResult failure) {}) :=
        ⟨⟨rfl,rfl⟩,rfl,rfl,rfl⟩
      exact hquiet hphase ⟨hlike,fun h => connectResult_ne failure (Option.some.inj h)⟩ (Option.some.inj h)
    · cases h
      exact .abort ‹_› (connectResult_ne failure)
    · cases h
  | socket call fd =>
    simp only [step] at h
    split at h
    · cases h
      exact .socket ‹_› ‹_›
    · cases h
  | connected call =>
    simp only [step] at h
    split at h
    · cases h
      exact .connected ‹_›
    · cases h
  | registerFd call =>
    simp only [step] at h
    split at h
    · cases h
      exact .registered ‹_›
    · cases h
  | written call remainingMs status =>
    simp only [step] at h
    split at h
    · refine hquiet ‹_› ?_ (Option.some.inj h)
      split_ifs
      · exact finishAfter_quiet _ ⟨rfl,rfl,rfl,rfl⟩ (by decide)
      · exact ⟨⟨⟨rfl,rfl⟩,rfl,rfl,rfl⟩,by simp [Phase.result?]⟩
      · exact ⟨⟨⟨rfl,rfl⟩,rfl,rfl,rfl⟩,by simp [Phase.result?]⟩
    · cases h
  | shutdown call fails =>
    simp only [step] at h
    split at h
    · refine hquiet ‹_› ?_ (Option.some.inj h)
      split_ifs
      · exact ⟨⟨⟨rfl,rfl⟩,rfl,rfl,rfl⟩,by simp [Phase.result?]⟩
      · exact ⟨⟨⟨rfl,rfl⟩,rfl,rfl,rfl⟩,by simp [Phase.result?]⟩
    · cases h
  | received call remainingMs outcome buffer =>
    simp only [step] at h
    split at h
    · refine hquiet ‹_› ?_ (Option.some.inj h)
      split_ifs
      · exact finishAfter_quiet _ ⟨rfl,rfl,rfl,rfl⟩ (by decide)
      · cases outcome with
        | error status => exact ⟨⟨⟨rfl,rfl⟩,rfl,rfl,rfl⟩,by simp [Phase.result?]⟩
        | ok wire => exact decodePhase_quiet _ buffer wire
    · cases h
  | isCanceled call =>
    simp only [step] at h
    split at h
    · rename_i fd status hphase
      cases h
      refine .asked (by rw [hphase]; exact ⟨⟨rfl,rfl⟩,rfl,rfl,rfl⟩) ?_
      unfold QcpuQcpudAdapter.ioResult
      split_ifs with hcanceled
      · exact fun _ => hcanceled
      · exact fun h => absurd h (by decide)
      · exact fun h => absurd h (by decide)
    · rename_i fd hphase
      cases h
      refine .asked (by rw [hphase]; exact ⟨⟨rfl,rfl⟩,rfl,rfl,rfl⟩) ?_
      split_ifs with hcanceled
      · exact fun _ => hcanceled
      · exact fun h => absurd h (by decide)
    · cases h
  | finish call =>
    simp only [step] at h
    split at h
    · cases h
      exact .finish ‹_›
    · cases h
  | close call =>
    simp only [step] at h
    split at h
    · cases h
      exact .close ‹_›
    · cases h
  | cancel =>
    cases h
    exact .cancel
  | openOther fd =>
    simp only [step] at h
    split at h
    · cases h
      exact .openOther ‹_›
    · cases h
  | closeOther fd =>
    simp only [step] at h
    split at h
    · cases h
      exact .closeOther ‹_›
    · cases h

end

/-- The exchange that is inside according to the sections that ran, and whether a cancel
ran since its `begin`. -/
def holder : List Section → Option (ℕ × Bool)
  | [] => none
  | .began call :: _ => some (call, false)
  | .finished _ :: _ => none
  | .canceled :: rest => (holder rest).map (fun entry => (entry.1, true))
  | _ :: rest => holder rest

/-- The shared fields and the phases, given who is inside. -/
inductive Shared (s : System) : Option (ℕ × Bool) → Prop where
  | free (hadapter : s.adapter = {}) (houtside : ∀ call, (s.phase call).inside = false) : Shared s none
  | held {call canceled} (hadapter : s.adapter = ⟨(s.phase call).activeFd, true, canceled⟩)
      (hinside : (s.phase call).inside = true)
      (halone : ∀ other, (s.phase other).inside = true → other = call) : Shared s (some (call, canceled))

theorem goto_self (s : System) (call : ℕ) (phase : Phase) : (s.goto call phase).phase call = phase :=
  Function.update_self ..

theorem goto_other (s : System) {call other : ℕ} (phase : Phase) (h : other ≠ call) :
    (s.goto call phase).phase other = s.phase other := Function.update_of_ne h ..

section
variable {s t : System} {call : ℕ} {phase : Phase}

/-- The phases are those of before, but for one exchange. -/
theorem phase_cases (hphase : t.phase = (s.goto call phase).phase) (c : ℕ) :
    c = call ∧ t.phase c = phase ∨ c ≠ call ∧ t.phase c = s.phase c := by
  rw [hphase]
  by_cases heq : c = call
  · subst heq
    exact Or.inl ⟨rfl,goto_self s c phase⟩
  · exact Or.inr ⟨heq,goto_other s phase heq⟩

theorem Shared.outside {entry : Option (ℕ × Bool)} (h : Shared s entry) (hbefore : (s.phase call).inside = false)
    (hafter : phase.inside = false) (hadapter : t.adapter = s.adapter) (hphase : t.phase = (s.goto call phase).phase) :
    Shared t entry := by
  have hother : ∀ other, (t.phase other).inside = true → (s.phase other).inside = true := by
    intro other hin
    obtain ⟨-,hcall⟩ | ⟨-,hsame⟩ := phase_cases hphase other
    · rw [hcall,hafter] at hin
      cases hin
    · rwa [hsame] at hin
  cases h with
  | free hfields houtside =>
    refine .free (hadapter.trans hfields) fun other => ?_
    by_contra hin
    have hbusy := hother other (by simpa using hin)
    rw [houtside other] at hbusy
    cases hbusy
  | @held holding canceled hfields hinside halone =>
    have hne : holding ≠ call := by
      rintro rfl
      rw [hbefore] at hinside
      cases hinside
    have hsame : t.phase holding = s.phase holding := by rw [hphase,goto_other s phase hne]
    refine .held ?_ ?_ fun other hin => halone other (hother other hin)
    · rw [hadapter,hfields,hsame]
    · rw [hsame]
      exact hinside

theorem Shared.inside {entry : Option (ℕ × Bool)} (h : Shared s entry) (hbefore : (s.phase call).inside = true) :
    ∃ canceled, entry = some (call, canceled) ∧ s.adapter = ⟨(s.phase call).activeFd, true, canceled⟩ ∧
      ∀ other, (s.phase other).inside = true → other = call := by
  cases h with
  | free _ houtside =>
    rw [houtside call] at hbefore
    cases hbefore
  | @held holding canceled hfields hinside halone =>
    obtain rfl := halone call hbefore
    exact ⟨canceled,rfl,hfields,halone⟩

theorem Shared.move {canceled : Bool} (halone : ∀ other, (s.phase other).inside = true → other = call)
    (hafter : phase.inside = true) (hadapter : t.adapter = ⟨phase.activeFd, true, canceled⟩)
    (hphase : t.phase = (s.goto call phase).phase) : Shared t (some (call, canceled)) := by
  have hcall : t.phase call = phase := by rw [hphase,goto_self]
  refine .held (by rw [hadapter,hcall]) (by rw [hcall]; exact hafter) fun other hin => ?_
  by_contra hne
  rw [hphase,goto_other s phase hne] at hin
  exact hne (halone other hin)

theorem Shared.unchanged {entry : Option (ℕ × Bool)} (h : Shared s entry) (hadapter : t.adapter = s.adapter)
    (hphase : t.phase = s.phase) : Shared t entry := by
  cases h with
  | free hfields houtside => exact .free (hadapter.trans hfields) (by rw [hphase]; exact houtside)
  | held hfields hinside halone =>
    exact .held (by rw [hadapter,hfields,hphase]) (by rw [hphase]; exact hinside) (by rw [hphase]; exact halone)

theorem Shared.leave (halone : ∀ other, (s.phase other).inside = true → other = call)
    (hafter : phase.inside = false) (hadapter : t.adapter = {}) (hphase : t.phase = (s.goto call phase).phase) :
    Shared t none := by
  refine .free hadapter fun other => ?_
  obtain ⟨-,hcall⟩ | ⟨hne,hsame⟩ := phase_cases hphase other
  · rw [hcall]
    exact hafter
  · rw [hsame]
    by_contra hin
    exact hne (halone other (by simpa using hin))

theorem leavePhase_inside (fd : Option ℕ) (result : ℤ) (response : Response) :
    (leavePhase fd result response).inside = false := by
  cases fd <;> rfl

theorem Shared.stay (h : Shared s (holder s.sections)) (hinside : (s.phase call).inside = true ∧ phase.inside = true)
    (hregistered : phase.registered = (s.phase call).registered) (hadapter : t.adapter = s.adapter)
    (hphase : t.phase = (s.goto call phase).phase) : Shared t (holder s.sections) := by
  obtain ⟨canceled,hentry,hfields,halone⟩ := h.inside hinside.1
  rw [hentry]
  refine Shared.move halone hinside.2 ?_ hphase
  rw [hadapter,hfields,Phase.activeFd,Phase.activeFd,hregistered]

theorem move_shared (h : Shared s (holder s.sections)) (hmove : Move s t) : Shared t (holder t.sections) := by
  cases hmove with
  | enter request hphase => exact h.outside (by rw [hphase]; rfl) rfl rfl rfl
  | reject hphase => exact h.outside (by rw [hphase]; rfl) rfl rfl rfl
  | @begin call request hphase hfree =>
    refine Shared.move (fun other hin => ?_) rfl rfl rfl
    obtain ⟨canceled,-,hadapter,-⟩ := h.inside hin
    rw [hadapter] at hfree
    cases hfree
  | refuse hphase => exact h.outside (by rw [hphase]; rfl) rfl rfl rfl
  | quiet hlike hresult => exact h.stay hlike.inside hlike.registered rfl rfl
  | socket hphase hfd => exact h.stay ⟨by rw [hphase]; rfl,rfl⟩ (by rw [hphase]; rfl) rfl rfl
  | abort hphase hresult => exact h.stay ⟨by rw [hphase]; rfl,rfl⟩ (by rw [hphase]; rfl) rfl rfl
  | connected hphase => exact h.stay ⟨by rw [hphase]; rfl,rfl⟩ (by rw [hphase]; rfl) rfl rfl
  | @registered call wire fd hphase =>
    obtain ⟨canceled,hentry,hfields,halone⟩ := h.inside (by rw [hphase]; rfl)
    show Shared _ (holder s.sections)
    rw [hentry]
    refine Shared.move halone ?_ ?_ rfl
    · split_ifs <;> rfl
    · rw [hfields]
      split_ifs <;> rfl
  | asked hlike hresult => exact h.stay hlike.inside hlike.registered rfl rfl
  | finish hphase =>
    obtain ⟨canceled,-,-,halone⟩ := h.inside (by rw [hphase]; rfl)
    exact Shared.leave halone (leavePhase_inside _ _ _) rfl rfl
  | close hphase => exact h.outside (by rw [hphase]; rfl) rfl rfl rfl
  | cancel =>
    rw [holder]
    cases hentry : holder s.sections with
    | none =>
      rw [hentry] at h
      cases h with
      | free hadapter houtside => exact .free (by rw [hadapter]; rfl) houtside
    | some entry =>
      rw [hentry] at h
      cases h with
      | held hadapter hinside halone => exact .held (by rw [hadapter]; rfl) hinside halone
  | openOther hfd => exact h.unchanged rfl rfl
  | closeOther hfd => exact h.unchanged rfl rfl

end

end QbitNova.AdapterSystem
