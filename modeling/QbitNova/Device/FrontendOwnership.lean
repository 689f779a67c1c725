import QbitNova.Device.FrontendMoves
import Mathlib.Tactic.Tauto

/-! # Who owns the busy flag and the active task

The lock-protected fields are tied together by `MockValid`. `Ownership` ties the
active task to the one caller or, after an abandoned timeout, to the one worker
that will clear it. Both are kept by every move, hence hold in every reachable
state between two critical sections.
-/
namespace QbitNova.Frontend
open Function (update update_self update_of_ne forall_update_iff)

/-- The consistency of the frontend fields whenever the mutex is free. -/
structure MockValid (m : Mock) : Prop where
  busy_iff_active : m.busy = true ↔ m.activeTask.isSome = true
  busy_iff_state : m.busy = true ↔ m.deviceState = .busy
  busy_session : m.busy = true → m.sessionOpen = true
  busy_attached : m.busy = true → m.backendAttached = true
  cancel_eq : m.cancelRequested = m.cancelSent
  cancel_busy : m.cancelSent = true → m.busy = true
  attached_iff : m.backendAttached = true ↔ m.backendOps.exchange.isSome = true
  detached_offline : m.backendAttached = false → m.deviceState = .offline
  session_iff_fd : m.sessionOpen = true ↔ 0 ≤ m.lockFd
  not_error : m.deviceState ≠ .error

/-- The active task, its worker and the call that waits for it. -/
structure Ownership (active : Option ℕ) (tasks : ℕ → Task) (count : ℕ) (calls : ℕ → Call) : Prop where
  active_lt : ∀ t, active = some t → t < count
  fresh : ∀ t, count ≤ t → (tasks t).worker = .absent
  done_iff : ∀ t, (tasks t).done = true ↔ (tasks t).worker = .finished
  running : ∀ t, (tasks t).worker ≠ .absent → (tasks t).worker ≠ .finished → active = some t
  caller : ∀ c t, (calls c).task? = some t →
    active = some t ∧ (tasks t).owner = c ∧ (tasks t).callerAbandoned = false
  orphan : ∀ t, active = some t → (tasks t).callerAbandoned = true → (tasks t).done = false
  waited : ∀ t, active = some t → (tasks t).callerAbandoned = false → (calls (tasks t).owner).task? = some t
  relocked : ∀ c a t, calls c = .exchangeRelock a t false → (tasks t).done = true

structure Valid (s : System) : Prop where
  mock : MockValid s.mock
  owner : Ownership s.mock.activeTask s.tasks s.taskCount s.calls

theorem mockValid_create {fault : Option ℤ} {config : MockConfig} {mock : Mock}
    (h : qcpuMockCreate fault config = .ok mock) : MockValid mock := by
  unfold qcpuMockCreate at h
  cases fault with
  | some errorNumber => cases h
  | none =>
    cases hops : config.backendOps with
    | none =>
      simp only [hops] at h
      cases h
      constructor <;> simp
    | some ops =>
      simp only [hops] at h
      split_ifs at h with hex
      cases h
      constructor <;> simp_all [Option.isSome_iff_ne_none]

theorem ownership_initial : Ownership none (fun _ => ({} : Task)) 0 (fun _ => Call.idle) where
  active_lt t h := by cases h
  fresh t _ := rfl
  done_iff t := by simp
  running t h := absurd rfl h
  caller c t h := by cases h
  orphan t h := by cases h
  waited t h := by cases h
  relocked c a t h := by cases h

theorem valid_initial {fault : Option ℤ} {config : MockConfig} {mock : Mock}
    (h : qcpuMockCreate fault config = .ok mock) : Valid (System.initial mock) := by
  refine ⟨mockValid_create h,?_⟩
  rw [show (System.initial mock).mock.activeTask = none from (create_fresh h).active]
  exact ownership_initial

theorem MockValid.record {m : Mock} (h : MockValid m) (errorNumber : ℤ) (status : UInt32) :
    MockValid (qcpuRecordResultLocked m errorNumber status) := by
  obtain ⟨h1,h2,h3,h4,h5,h6,h7,h8,h9,h10⟩ := h
  exact ⟨h1,h2,h3,h4,h5,h6,h7,h8,h9,h10⟩

theorem MockValid.setBackend {m m' : Mock} (h : MockValid m) {ops : Option BackendOps} {context : Option ℕ}
    {name : Option CText.Bytes} (hset : qcpuMockSetBackend m ops context name = .ok m') :
    MockValid m' ∧ m'.activeTask = m.activeTask := by
  unfold qcpuMockSetBackend at hset
  split_ifs at hset with hbusy
  have hb : m.busy = false := by simpa using hbusy
  have hc : m.cancelSent = false := by
    have := h.cancel_busy
    simp_all
  cases ops with
  | none =>
    cases hset
    refine ⟨?_,rfl⟩
    constructor <;> simp [hb,hc,h.cancel_eq,h.session_iff_fd,← h.busy_iff_active]
  | some ops =>
    simp only [] at hset
    split_ifs at hset with hex
    cases hset
    refine ⟨?_,rfl⟩
    constructor <;> simp [hb,hc,h.cancel_eq,h.session_iff_fd,← h.busy_iff_active]
    simpa [Option.isSome_iff_ne_none] using hex

theorem MockValid.open {m m' : Mock} (h : MockValid m) {outcome : OpenOutcome}
    (hopen : qcpuMockOpen m outcome = .ok m') : MockValid m' ∧ m'.activeTask = m.activeTask := by
  obtain ⟨-,descriptor,rfl⟩ := open_eq hopen
  obtain ⟨h1,h2,h3,h4,h5,h6,h7,h8,h9,h10⟩ := h
  exact ⟨⟨h1,h2,fun _ => rfl,h4,h5,h6,h7,h8,by simp,h10⟩,rfl⟩

theorem MockValid.endSession {m : Mock} (h : MockValid m) (hbusy : m.busy = false) (release : ReleaseOutcome) :
    MockValid (Frontend.endSession m release).1 ∧
      (Frontend.endSession m release).1.activeTask = m.activeTask := by
  rw [endSession_mock]
  obtain ⟨h1,h2,h3,h4,h5,h6,h7,h8,h9,h10⟩ := h
  exact ⟨⟨h1,h2,by simp [hbusy],h4,h5,h6,h7,h8,by simp,h10⟩,rfl⟩

theorem MockValid.requestCancel {m : Mock} (h : MockValid m) : MockValid (qcpuRequestCancelLocked m).1 ∧
    (qcpuRequestCancelLocked m).1.activeTask = m.activeTask := by
  rcases requestCancel_eq m with he | ⟨hb,he⟩ <;> rw [he]
  · exact ⟨h,rfl⟩
  · obtain ⟨h1,h2,h3,h4,h5,h6,h7,h8,h9,h10⟩ := h
    exact ⟨⟨h1,h2,h3,h4,rfl,fun _ => hb,h7,h8,h9,h10⟩,rfl⟩

/-- Finalising needs only the backend and session part of the invariant. -/
theorem MockValid.finalize {m : Mock} (hactive : m.activeTask = none)
    (hattached : m.backendAttached = true ↔ m.backendOps.exchange.isSome = true)
    (hfd : m.sessionOpen = true ↔ 0 ≤ m.lockFd) (offline success : Bool) (errorNumber : ℤ) (status : UInt32) :
    MockValid (qcpuFinalizeExchangeLocked m offline success errorNumber status) ∧
      (qcpuFinalizeExchangeLocked m offline success errorNumber status).activeTask = none := by
  cases success <;> cases offline <;> cases hb : m.backendAttached <;>
    refine ⟨?_,hactive⟩ <;> constructor <;>
    simp_all [qcpuFinalizeExchangeLocked,qcpuRecordResultLocked]

theorem MockValid.dispatched {m : Mock} (h : MockValid m) (hs : m.sessionOpen = true)
    (hb : m.backendAttached = true) (task : ℕ) : MockValid (dispatchedMock m task) := by
  obtain ⟨h1,h2,h3,h4,h5,h6,h7,h8,h9,h10⟩ := h
  exact ⟨by simp [dispatchedMock],by simp [dispatchedMock],fun _ => hs,fun _ => hb,rfl,by simp [dispatchedMock],
    h7,by simp [dispatchedMock,hb],h9,by simp [dispatchedMock]⟩

namespace Ownership
variable {active : Option ℕ} {tasks : ℕ → Task} {count : ℕ} {calls : ℕ → Call}

/-- A call may change its position as long as it keeps its task. -/
theorem setCall (h : Ownership active tasks count calls) {c : ℕ} {x : Call}
    (hx : x.task? = (calls c).task?)
    (hr : ∀ a t, x = .exchangeRelock a t false → (tasks t).done = true) :
    Ownership active tasks count (update calls c x) := by
  have ht : ∀ d, (update calls c x d).task? = (calls d).task? :=
    (forall_update_iff calls fun d y => y.task? = (calls d).task?).mpr ⟨hx,fun _ _ => rfl⟩
  have hrelocked : ∀ d, ∀ a t, update calls c x d = .exchangeRelock a t false → (tasks t).done = true :=
    (forall_update_iff calls fun _ y => ∀ a t, y = .exchangeRelock a t false → (tasks t).done = true).mpr
      ⟨hr,fun d _ => h.relocked d⟩
  refine { h with caller := ?_, waited := ?_, relocked := hrelocked }
  · intro d t hd
    exact h.caller d t ((ht d).symm.trans hd)
  · intro t ha hab
    exact (ht _).trans (h.waited t ha hab)

theorem returns (h : Ownership active tasks count calls) {c : ℕ} {x : Call}
    (hc : (calls c).task? = none) (hx : x.task? = none) :
    Ownership active tasks count (update calls c x) :=
  h.setCall (hx.trans hc.symm) (by rintro a t rfl; cases hx)

/-- Once the owner of the active task moves on, no call holds a task. -/
theorem no_caller (h : Ownership active tasks count calls) {c t : ℕ} {x : Call}
    (hc : (calls c).task? = some t) (hx : x.task? = none) (d u : ℕ) : (update calls c x d).task? ≠ some u := by
  obtain ⟨hactive,howner,-⟩ := h.caller c t hc
  intro hd
  by_cases hdc : d = c
  · rw [hdc,update_self,hx] at hd
    cases hd
  · rw [update_of_ne hdc] at hd
    obtain ⟨ha,ho,-⟩ := h.caller d u hd
    obtain rfl : u = t := Option.some.inj (ha.symm.trans hactive)
    exact hdc (ho.symm.trans howner)

theorem fresh_update (h : Ownership active tasks count calls) {t : ℕ} (hactive : active = some t) (record : Task) :
    ∀ u, count ≤ u → (update tasks t record u).worker = .absent := by
  intro u hu
  have hlt := h.active_lt t hactive
  rw [update_of_ne (by omega)]
  exact h.fresh u hu

theorem done_iff_update (h : Ownership active tasks count calls) {t : ℕ} {r : Task}
    (hrecord : r.done = true ↔ r.worker = .finished) :
    ∀ u, (update tasks t r u).done = true ↔ (update tasks t r u).worker = .finished :=
  (forall_update_iff tasks fun _ task => task.done = true ↔ task.worker = .finished).mpr ⟨hrecord,fun u _ => h.done_iff u⟩

/-- A running worker belongs to the active task, also after the record of that one changed. -/
theorem running_update (h : Ownership active tasks count calls) {t : ℕ} {record : Task}
    (hrecord : record.worker ≠ .absent → record.worker ≠ .finished → active = some t) :
    ∀ u, (update tasks t record u).worker ≠ .absent → (update tasks t record u).worker ≠ .finished →
      active = some u :=
  (forall_update_iff tasks fun u r => r.worker ≠ .absent → r.worker ≠ .finished → active = some u).mpr
    ⟨hrecord,fun u _ => h.running u⟩

theorem relocked_update (h : Ownership active tasks count calls) {t : ℕ} {r : Task}
    (hrecord : (tasks t).done = true → r.done = true) :
    ∀ c a u, calls c = .exchangeRelock a u false → (update tasks t r u).done = true := by
  intro c a u hc
  have hdone := h.relocked c a u hc
  by_cases hut : u = t
  · subst hut
    rw [update_self]
    exact hrecord hdone
  · rw [update_of_ne hut]
    exact hdone

theorem dispatch (h : Ownership none tasks count calls) {c : ℕ} {argument : Option Exchange} {record : Task}
    (hc : calls c = .idle) (howner : record.owner = c) (hworker : record.worker = .created)
    (hdone : record.done = false) (habandoned : record.callerAbandoned = false) :
    Ownership (some count) (update tasks count record) (count + 1)
      (update calls c (.exchangeWait argument count)) := by
  have hnone : ∀ d t, (calls d).task? ≠ some t := fun d t hd => nomatch (h.caller d t hd).1
  have hold : ∀ d ≠ c, ∀ t, (update calls c (.exchangeWait argument count) d).task? ≠ some t := by
    intro d hd t
    rw [update_of_ne hd]
    exact hnone d t
  constructor
  · rintro t ⟨⟩
    exact Nat.lt_succ_self count
  · intro t ht
    rw [update_of_ne (by omega)]
    exact h.fresh t (by omega)
  · exact h.done_iff_update (by simp [hdone,hworker])
  · refine (forall_update_iff tasks fun u r => r.worker ≠ .absent → r.worker ≠ .finished → some count = some u).mpr
      ⟨fun _ _ => rfl,fun u _ hw hf => ?_⟩
    exact nomatch h.running u hw hf
  · intro d t hd
    by_cases hdc : d = c
    · subst hdc
      rw [update_self] at hd
      cases hd
      rw [update_self]
      exact ⟨rfl,howner,habandoned⟩
    · exact absurd hd (hold d hdc t)
  · rintro t ⟨⟩ hab
    rw [update_self,habandoned] at hab
    cases hab
  · rintro t ⟨⟩ _
    rw [update_self,howner,update_self]
    rfl
  · intro d a t hd
    by_cases hdc : d = c
    · subst hdc
      rw [update_self] at hd
      cases hd
    · exact absurd (congrArg Call.task? hd) (hold d hdc t)

/-- A record with the owner and the abandonment mark of before keeps the links between
the active task and its caller. -/
theorem links_update (h : Ownership active tasks count calls) {t : ℕ} {record : Task} (hactive : active = some t)
    (howner : record.owner = (tasks t).owner) (habandoned : record.callerAbandoned = (tasks t).callerAbandoned) :
    (∀ c u, (calls c).task? = some u → active = some u ∧ (update tasks t record u).owner = c ∧
      (update tasks t record u).callerAbandoned = false) ∧
    (∀ u, active = some u → (update tasks t record u).callerAbandoned = false →
      (calls (update tasks t record u).owner).task? = some u) := by
  constructor
  · intro c u hc
    obtain ⟨ha,ho,hb⟩ := h.caller c u hc
    obtain rfl : u = t := Option.some.inj (ha.symm.trans hactive)
    rw [update_self,howner,habandoned]
    exact ⟨ha,ho,hb⟩
  · intro u ha hab
    obtain rfl : u = t := Option.some.inj (ha.symm.trans hactive)
    rw [update_self] at hab ⊢
    rw [howner]
    exact h.waited u ha (habandoned ▸ hab)

theorem progress (h : Ownership active tasks count calls) {t : ℕ} {record : Task}
    (hrun : (tasks t).worker ≠ .absent ∧ (tasks t).worker ≠ .finished)
    (hrun' : record.worker ≠ .absent ∧ record.worker ≠ .finished)
    (hdone : record.done = (tasks t).done) (howner : record.owner = (tasks t).owner)
    (habandoned : record.callerAbandoned = (tasks t).callerAbandoned) :
    Ownership active (update tasks t record) count calls := by
  have hactive := h.running t hrun.1 hrun.2
  have hnot : (tasks t).done = false := by
    have := h.done_iff t
    simp_all
  obtain ⟨hcaller,hwaited⟩ := h.links_update hactive howner habandoned
  refine ⟨h.active_lt,h.fresh_update hactive record,h.done_iff_update (by simp [hdone,hnot,hrun'.2]),
    h.running_update (fun _ _ => hactive),hcaller,?_,hwaited,h.relocked_update (fun hyes => hdone.trans hyes)⟩
  intro u ha _
  obtain rfl : u = t := Option.some.inj (ha.symm.trans hactive)
  rw [update_self,hdone,hnot]

/-- A worker reports; if its caller has given up, it also clears the active task. -/
theorem workerFinish (h : Ownership active tasks count calls) {t : ℕ} (record : Task)
    (hrun : (tasks t).worker ≠ .absent ∧ (tasks t).worker ≠ .finished)
    (hworker : record.worker = .finished) (hdone : record.done = true)
    (howner : record.owner = (tasks t).owner)
    (habandoned : record.callerAbandoned = (tasks t).callerAbandoned) :
    Ownership (if (tasks t).callerAbandoned && active == some t then none else active)
      (update tasks t record) count calls := by
  have hactive := h.running t hrun.1 hrun.2
  have hfresh := h.fresh_update hactive record
  have hiff := h.done_iff_update (t := t) (r := record) (by simp [hworker,hdone])
  have hrelocked := h.relocked_update (t := t) (r := record) (fun _ => hdone)
  cases hab : (tasks t).callerAbandoned with
  | true =>
    rw [hactive]
    simp only [beq_self_eq_true,Bool.and_self,↓reduceIte]
    have hnone : ∀ c u, (calls c).task? ≠ some u := by
      intro c u hc
      obtain ⟨ha,-,hb⟩ := h.caller c u hc
      rw [hactive] at ha
      cases ha
      rw [hab] at hb
      cases hb
    refine ⟨nofun,hfresh,hiff,?_,fun c u hc => absurd hc (hnone c u),nofun,nofun,hrelocked⟩
    refine (forall_update_iff tasks fun u r => r.worker ≠ .absent → r.worker ≠ .finished → none = some u).mpr
      ⟨fun _ hf => absurd hworker hf,fun u hut hw hf => ?_⟩
    exact absurd (Option.some.inj ((h.running u hw hf).symm.trans hactive)) hut
  | false =>
    simp only [Bool.false_and,Bool.false_eq_true,↓reduceIte]
    obtain ⟨hcaller,hwaited⟩ := h.links_update hactive howner habandoned
    refine ⟨h.active_lt,hfresh,hiff,h.running_update (fun _ _ => hactive),hcaller,?_,hwaited,hrelocked⟩
    intro u ha hb
    obtain rfl : u = t := Option.some.inj (ha.symm.trans hactive)
    rw [update_self,habandoned,hab] at hb
    cases hb

theorem abandon (h : Ownership active tasks count calls) {c t : ℕ} {record : Task} {x : Call}
    (hc : (calls c).task? = some t) (hx : x.task? = none) (hnot : (tasks t).done = false)
    (hdone : record.done = (tasks t).done) (hworker : record.worker = (tasks t).worker)
    (habandoned : record.callerAbandoned = true) :
    Ownership active (update tasks t record) count (update calls c x) := by
  obtain ⟨hactive,-,-⟩ := h.caller c t hc
  have hsole := h.no_caller hc hx
  refine ⟨h.active_lt,h.fresh_update hactive record,h.done_iff_update (by rw [hdone,hworker]; exact h.done_iff t),
    h.running_update (fun _ _ => hactive),fun d u hd => absurd hd (hsole d u),?_,?_,
    fun d a u hd => absurd (congrArg Call.task? hd) (hsole d u)⟩
  · intro u ha _
    obtain rfl : u = t := Option.some.inj (ha.symm.trans hactive)
    rw [update_self,hdone,hnot]
  · intro u ha hb
    obtain rfl : u = t := Option.some.inj (ha.symm.trans hactive)
    rw [update_self,habandoned] at hb
    cases hb

/-- The caller takes the result of its finished worker and frees the frontend. -/
theorem finish (h : Ownership active tasks count calls) {c t : ℕ} {record : Task} {x : Call}
    (hc : (calls c).task? = some t) (hx : x.task? = none) (hyes : (tasks t).done = true)
    (hdone : record.done = (tasks t).done) (hworker : record.worker = (tasks t).worker) :
    Ownership none (update tasks t record) count (update calls c x) := by
  obtain ⟨hactive,-,-⟩ := h.caller c t hc
  have hsole := h.no_caller hc hx
  have hfin : record.worker = .finished := hworker.trans ((h.done_iff t).mp hyes)
  refine ⟨nofun,h.fresh_update hactive record,h.done_iff_update (by rw [hdone,hworker]; exact h.done_iff t),?_,
    fun d u hd => absurd hd (hsole d u),nofun,nofun,fun d a u hd => absurd (congrArg Call.task? hd) (hsole d u)⟩
  refine (forall_update_iff tasks fun u r => r.worker ≠ .absent → r.worker ≠ .finished → none = some u).mpr
    ⟨fun _ hf => absurd hfin hf,fun u hut hw hf => ?_⟩
  exact absurd (Option.some.inj ((h.running u hw hf).symm.trans hactive)) hut

end Ownership

theorem Call.task?_of_plain {x : Call} (hx : x.plain = true) : x.task? = none := by
  cases x <;> first | rfl | cases hx

/-- Rejections keep the invariant: only an idle, detached frontend is marked offline. -/
theorem MockValid.rejected {m m' : Mock} {argument delivered : Option Exchange} {clock : Option Timespec}
    {errorNumber : ℤ} (h : MockValid m)
    (hpre : qcpuPrevalidateExchangeLocked m argument clock = .rejected m' delivered errorNumber) :
    MockValid m' ∧ m'.activeTask = m.activeTask := by
  obtain ⟨status,base,-,hbase,rfl,-⟩ := prevalidate_rejects m argument clock _ _ _ hpre
  rcases hbase with rfl | ⟨rfl,hbusy,hgone⟩
  · exact ⟨h.record errorNumber status,rfl⟩
  · have hdet : m.backendAttached = false := by
      have := h.attached_iff
      cases hb : m.backendAttached <;> simp_all
    refine ⟨MockValid.record ?_ errorNumber status,rfl⟩
    obtain ⟨h1,h2,h3,h4,h5,h6,h7,h8,h9,h10⟩ := h
    exact ⟨h1,by simp [hbusy],h3,h4,h5,h6,h7,fun _ => rfl,h9,by simp⟩

theorem MockValid.workerSection {m : Mock} (h : MockValid m) (result : ℤ) :
    MockValid { m with
      activeTask := none
      busy := false
      cancelRequested := false
      cancelSent := false
      deviceState := if !m.backendAttached || result == -enodev then .offline else .idle } := by
  have h7 := h.attached_iff
  have h9 := h.session_iff_fd
  constructor <;> cases hb : m.backendAttached <;> cases hr : result == -enodev <;> simp_all

theorem TakesOver.done {s : System} (hs : Valid s) {call task : ℕ} {argument : Option Exchange} {timedOut : Bool}
    {e : Event} (h : TakesOver s call argument task timedOut e) : (s.tasks task).done = true := by
  cases h with
  | relock hc hdone =>
    cases timedOut with
    | true => exact hdone rfl
    | false => exact hs.owner.relocked call argument task hc
  | grace hc hdone => exact hdone

/-- One step keeps the frontend fields consistent and the active task owned. -/
theorem step_valid {s t : System} {e : Event} (hs : Valid s) (he : step s e = some t) : Valid t := by
  obtain ⟨hm,ho⟩ := hs
  cases step_move he with
  | plain hidle hx =>
    exact ⟨hm,ho.returns (by rw [hidle]; rfl) (Call.task?_of_plain hx)⟩
  | stay => exact ⟨hm,ho⟩
  | setBackend hidle hset =>
    obtain ⟨hm',ha⟩ := hm.setBackend hset
    exact ⟨hm',by simpa only [ha] using ho.returns (by rw [hidle]; rfl) rfl⟩
  | opened hidle hopen =>
    obtain ⟨hm',ha⟩ := hm.open hopen
    exact ⟨hm',by simpa only [ha] using ho.returns (by rw [hidle]; rfl) rfl⟩
  | rejected hidle hpre =>
    obtain ⟨hm',ha⟩ := hm.rejected hpre
    exact ⟨hm',by simpa only [ha] using ho.returns (by rw [hidle]; rfl) rfl⟩
  | @failedLocally call argument dispatch exchange deadline mock errorNumber hidle hpre hmock hlocal =>
    obtain ⟨hopen,hbusy,hattached,-⟩ := prevalidate_accepted hpre
    have hnone : s.mock.activeTask = none := by
      have := hm.busy_iff_active
      simpa [hbusy] using this
    have hbase : mock.activeTask = none ∧
        (mock.backendAttached = true ↔ mock.backendOps.exchange.isSome = true) ∧
        (mock.sessionOpen = true ↔ 0 ≤ mock.lockFd) := by
      rcases hmock with rfl | rfl
      · exact ⟨hnone,hm.attached_iff,hm.session_iff_fd⟩
      · exact ⟨rfl,hm.attached_iff,hm.session_iff_fd⟩
    obtain ⟨hm',ha⟩ := MockValid.finalize hbase.1 hbase.2.1 hbase.2.2 false false errorNumber statusIo
    refine ⟨hm',?_⟩
    have hr := ho.returns (c := call) (x := .exchangeReturned
      ⟨argument,qcpuSetFailureResponse argument statusIo,.error errorNumber,some errorNumber⟩)
      (by rw [hidle]; rfl) rfl
    rw [hnone] at hr
    simpa only [failLocally,ha] using hr
  | @dispatched call argument dispatch exchange deadline hidle hpre =>
    obtain ⟨hopen,hbusy,hattached,-⟩ := prevalidate_accepted hpre
    have hnone : s.mock.activeTask = none := by
      have := hm.busy_iff_active
      simpa [hbusy] using this
    rw [hnone] at ho
    exact ⟨hm.dispatched hopen hattached s.taskCount,ho.dispatch hidle rfl rfl rfl rfl⟩
  | callbackEnter hw =>
    exact ⟨hm,ho.progress (by simp [hw]) (by simp) rfl rfl rfl⟩
  | callbackReturn hw =>
    exact ⟨hm,ho.progress (by simp [hw]) (by simp) rfl rfl rfl⟩
  | @workerFinish task result hw =>
    have hf := ho.workerFinish (t := task) { s.tasks task with
      backendResult := result, done := true, references := (s.tasks task).references - 1, worker := .finished }
      (by simp [hw]) rfl rfl rfl rfl
    cases hab : (s.tasks task).callerAbandoned && s.mock.activeTask == some task with
    | true =>
      rw [hab] at hf
      exact ⟨by simpa only [workerSection,hab,↓reduceIte] using hm.workerSection result,
        by simpa only [workerSection,hab,↓reduceIte] using hf⟩
    | false =>
      rw [hab] at hf
      exact ⟨by simpa only [workerSection,hab,Bool.false_eq_true,↓reduceIte] using hm,
        by simpa only [workerSection,hab,Bool.false_eq_true,↓reduceIte] using hf⟩
  | @expired call task argument waitResult hc =>
    obtain ⟨hm',ha⟩ := hm.requestCancel
    refine ⟨hm',?_⟩
    have hx : ∀ b : Bool, (if b then Call.exchangeCancel argument task
        else .exchangeRelock argument task true).task? = (s.calls call).task? := by
      intro b
      rw [hc]
      cases b <;> rfl
    simp only [expireSection,ha]
    refine ho.setCall (hx _) ?_
    intro a u hu
    split at hu <;> cases hu
  | woken hc hdone =>
    refine ⟨hm,ho.setCall (by rw [hc]; rfl) ?_⟩
    rintro a u ⟨⟩
    exact hdone
  | cancelByExchange hc =>
    exact ⟨hm,ho.setCall (by rw [hc]; rfl) (by rintro a u ⟨⟩)⟩
  | cancelByClose hc =>
    exact ⟨hm,ho.returns (by rw [hc]; rfl) rfl⟩
  | grace hc =>
    exact ⟨hm,ho.setCall (by rw [hc]; rfl) (by rintro a u ⟨⟩)⟩
  | abandoned hev hc hdone =>
    have hm' : MockValid { s.mock with failedRequests := s.mock.failedRequests + 1 } := by
      obtain ⟨h1,h2,h3,h4,h5,h6,h7,h8,h9,h10⟩ := hm
      exact ⟨h1,h2,h3,h4,h5,h6,h7,h8,h9,h10⟩
    refine ⟨hm'.record _ _,ho.abandon ?_ rfl hdone rfl rfl rfl⟩
    rcases hc with hc | hc <;> rw [hc] <;> rfl
  | @finished _ call task argument timedOut hover =>
    have htask := hover.task
    have hyes := hover.done ⟨hm,ho⟩
    unfold finishSection
    simp only []
    split
    · obtain ⟨hm',ha⟩ := MockValid.finalize (m := { s.mock with activeTask := none }) rfl hm.attached_iff
        hm.session_iff_fd _ false _ _
      refine ⟨hm',?_⟩
      simp only [ha]
      exact ho.finish htask rfl hyes rfl rfl
    · obtain ⟨hm',ha⟩ := MockValid.finalize (m := { s.mock with activeTask := none }) rfl hm.attached_iff
        hm.session_iff_fd _ true _ _
      refine ⟨hm',?_⟩
      simp only [ha]
      exact ho.finish htask rfl hyes rfl rfl
  | @closeRequested call release hidle hopen hbusy =>
    obtain ⟨hm',ha⟩ := hm.requestCancel
    refine ⟨hm',?_⟩
    simp only [closeRequestSection,ha]
    refine ho.returns (by rw [hidle]; rfl) ?_
    split <;> rfl
  | closed hc hbusy =>
    obtain ⟨hm',ha⟩ := hm.endSession hbusy _
    refine ⟨hm',?_⟩
    simp only [endSection,ha]
    refine ho.returns ?_ rfl
    rcases hc with ⟨-,hc,-⟩ | ⟨-,hc⟩ <;> rw [hc] <;> rfl
  | destroyed hidle hopen hbusy => exact ⟨hm,ho.returns (by rw [hidle]; rfl) rfl⟩
  | destroyedPartly hidle => exact ⟨hm,ho.returns (by rw [hidle]; rfl) rfl⟩

theorem reachable_valid {s : System} (h : Reachable s) : Valid s := by
  obtain ⟨config,mock,events,hcreate,hr⟩ := h
  exact Transition.run_invariant (fun _ _ _ => step_valid) (valid_initial hcreate) hr

/-- A run that the witnesses below share: one session, one dispatched STATUS exchange. -/
def sampleConfig : MockConfig := ⟨none, none, some ⟨some 0, some 0⟩, none⟩
def sampleExchange : Exchange :=
  ⟨⟨qcpuUapiRequestMagic, qcpuUapiProtocolVersion, qcpuUapiCommandStatus, 0, 0, 0⟩, 0, {}⟩
def sampleDispatch : Dispatch := { clock := some ⟨1, 0⟩ }
def sampleRun : List Event :=
  [.mockOpen 0 (.locked 3), .exchange 1 (some sampleExchange) sampleDispatch, .callbackEnter 0]

/-- Between any two critical sections of any interleaving the fields agree. -/
theorem reachable_mockValid {s : System} (h : Reachable s) : MockValid s.mock := (reachable_valid h).mock

theorem reachable_mockValid_dispatched :
    ∃ s, Reachable s ∧ s.mock.deviceState = .busy ∧ MockValid s.mock := by
  refine ⟨_,⟨sampleConfig,_,sampleRun,rfl,rfl⟩,rfl,reachable_mockValid ⟨sampleConfig,_,sampleRun,rfl,rfl⟩⟩

/-- The backend's exchange callback is running for this task. -/
def InFlight (s : System) (task : ℕ) : Prop := (s.tasks task).worker = .inCallback

/-- The event is the deciding section of a close, set_backend or destroy that returns 0. -/
def Succeeds (e : Event) (after : System) : Prop :=
  match e with
  | .mockClose call _ => after.calls call = .returned (.ok ())
  | .closeWake call _ => after.calls call = .returned (.ok ())
  | .setBackend call _ _ _ => after.calls call = .returned (.ok ())
  | .mockDestroy call _ _ => after.calls call = .returned (.ok ())
  | _ => False

theorem inFlight_active {s : System} (hs : Valid s) {t : ℕ} (ht : InFlight s t) :
    s.mock.activeTask = some t ∧ s.mock.busy = true := by
  have ha := hs.owner.running t (by rw [ht]; nofun) (by rw [ht]; nofun)
  exact ⟨ha,hs.mock.busy_iff_active.mpr (by rw [ha]; rfl)⟩

theorem endSection_not_busy {s : System} {call session : ℕ} {release : ReleaseOutcome}
    (hbusy : s.mock.busy = false) : (endSection s call session release).mock.busy = false := by
  simp only [endSection,endSession_mock]
  exact hbusy

/-- Such a section finds and leaves the frontend free. -/
theorem succeeds_not_busy {s t : System} {e : Event} (he : step s e = some t) (hok : Succeeds e t) :
    s.mock.busy = false ∧ t.mock.busy = false := by
  cases e with
  | setBackend call ops context name =>
    obtain ⟨-,rfl⟩ := startCall_eq_some he
    simp only [Succeeds] at hok ⊢
    unfold qcpuMockSetBackend at hok ⊢
    split_ifs at hok ⊢ with hbusy
    · simp [System.setCall] at hok
    · have hb : s.mock.busy = false := by simpa using hbusy
      cases ops with
      | none => exact ⟨hb,hb⟩
      | some ops =>
        simp only []
        split_ifs <;> exact ⟨hb,hb⟩
  | mockClose call release =>
    obtain ⟨-,rfl⟩ := startCall_eq_some he
    simp only [Succeeds] at hok ⊢
    unfold closeSection at hok ⊢
    split_ifs at hok ⊢ with hopen habandoned hbusy
    · simp [System.setCall] at hok
    · simp [System.setCall] at hok
    · simp only [closeRequestSection,update_self] at hok
      split at hok <;> cases hok
    · have hb : s.mock.busy = false := by simpa using hbusy
      exact ⟨hb,endSection_not_busy hb⟩
  | closeWake call release =>
    simp only [step] at he
    split at he
    · cases he
      simp only [Succeeds] at hok ⊢
      unfold closeWakeSection at hok ⊢
      split_ifs at hok ⊢ with hbusy
      · simp_all
      · have hb : s.mock.busy = false := by simpa using hbusy
        exact ⟨hb,endSection_not_busy hb⟩
    · cases he
  | mockDestroy call condResult mutexResult =>
    obtain ⟨-,rfl⟩ := startCall_eq_some he
    simp only [Succeeds] at hok ⊢
    unfold destroySection at hok ⊢
    split_ifs at hok ⊢ with hq hcond hmutex
    · simp [System.setCall] at hok
    · simp [System.setCall] at hok
    · simp [System.setCall] at hok
    · obtain ⟨-,hb⟩ : s.mock.sessionOpen = false ∧ s.mock.busy = false := by simpa using hq
      exact ⟨hb,hb⟩
  | _ => exact hok.elim

/-- Under every interleaving at most one exchange callback runs, it belongs to the
active task of a busy frontend, and none runs when a close, set_backend or destroy
that succeeds makes its decision. -/
theorem callback_exclusive {s : System} (h : Reachable s) :
    (∀ t u, InFlight s t → InFlight s u → t = u) ∧
    (∀ t, InFlight s t → s.mock.activeTask = some t ∧ s.mock.busy = true) ∧
    (∀ e after, step s e = some after → Succeeds e after →
      ∀ t, ¬ InFlight s t ∧ ¬ InFlight after t) := by
  have hs := reachable_valid h
  refine ⟨?_,fun t => inFlight_active hs,?_⟩
  · intro t u ht hu
    exact Option.some.inj ((inFlight_active hs ht).1.symm.trans (inFlight_active hs hu).1)
  · intro e after he hok t
    obtain ⟨hb,hb'⟩ := succeeds_not_busy he hok
    constructor
    · intro ht
      have := (inFlight_active hs ht).2
      simp_all
    · intro ht
      have := (inFlight_active (step_valid hs he) ht).2
      simp_all

theorem callback_exclusive_inFlight :
    ∃ s, Reachable s ∧ InFlight s 0 ∧ s.mock.activeTask = some 0 ∧ s.mock.busy = true := by
  refine ⟨_,⟨sampleConfig,_,sampleRun,rfl,rfl⟩,rfl,?_⟩
  exact (callback_exclusive ⟨sampleConfig,_,sampleRun,rfl,rfl⟩).2.1 0 rfl

end QbitNova.Frontend
