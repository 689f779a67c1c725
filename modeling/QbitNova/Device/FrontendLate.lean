import QbitNova.Device.FrontendIsolation

/-! # What a late callback reports reaches nobody

Two states are alike when they differ at most in what the callback of one task
reported. As long as that task is lost, one step from alike states leads to alike
states, also when the two callbacks report different results: by induction no
schedule can tell the two reports apart, except for the device state, which no
exchange looks at.
-/
namespace QbitNova.Frontend
open Function (update update_self update_of_ne)

/-- Equal up to the device state. -/
def Mock.Alike (m m' : Mock) : Prop := m' = { m with deviceState := m'.deviceState }

def Status.Alike (r r' : Status) : Prop := r' = { r with deviceState := r'.deviceState }

/-- The same stage of the callback, whatever it reported. -/
def Worker.Alike (w w' : Worker) : Prop := w' = w ∨ ∃ r r', w = .returned r ∧ w' = .returned r'

/-- Equal up to what the callback reported. -/
structure Task.Alike (r r' : Task) : Prop where
  record : r' = { r with worker := r'.worker, backendResult := r'.backendResult, response := r'.response }
  worker : r.worker.Alike r'.worker

/-- Equal up to the device state in the answer of a status query. -/
def Call.Alike (x y : Call) : Prop := y = x ∨ ∃ r r', x = .status r ∧ y = .status r' ∧ r.Alike r'

/-- Equal up to what the callback of `task` reported and its trace in the device state. -/
structure Alike (task : ℕ) (s t : System) : Prop where
  mock : s.mock.Alike t.mock
  own : (s.tasks task).Alike (t.tasks task)
  others : ∀ u, u ≠ task → t.tasks u = s.tasks u
  taskCount : t.taskCount = s.taskCount
  calls : ∀ c, (s.calls c).Alike (t.calls c)
  destroyed : t.destroyed = s.destroyed
  opened : openCount t.log = openCount s.log

/-- The same event, or two reports of the callback of `task`. -/
inductive Event.Alike (task : ℕ) : Event → Event → Prop
  | same (e : Event) : Event.Alike task e e
  | report (result result' : ℤ) (response response' : Response) :
    Event.Alike task (.callbackReturn task result response) (.callbackReturn task result' response')

theorem Task.Alike.refl (r : Task) : r.Alike r := ⟨rfl,Or.inl rfl⟩

theorem Alike.refl (task : ℕ) (s : System) : Alike task s s :=
  ⟨rfl,Task.Alike.refl _,fun _ _ => rfl,rfl,fun _ => Or.inl rfl,rfl,rfl⟩

theorem Call.Alike.eq {x y : Call} (h : x.Alike y) (hx : ∀ r, x ≠ .status r) : y = x := by
  rcases h with h | ⟨r,-,hr,-⟩
  · exact h
  · exact absurd hr (hx r)

namespace Alike
variable {task : ℕ} {s t : System}

theorem tasks (h : Alike task s t) (u : ℕ) : (s.tasks u).Alike (t.tasks u) := by
  by_cases hu : u = task
  · subst hu
    exact h.own
  · rw [h.others u hu]
    exact Task.Alike.refl _

theorem done (h : Alike task s t) (u : ℕ) : (t.tasks u).done = (s.tasks u).done := by
  rw [(h.tasks u).record]

theorem abandoned (h : Alike task s t) (u : ℕ) : (t.tasks u).callerAbandoned = (s.tasks u).callerAbandoned := by
  rw [(h.tasks u).record]

/-- Calls change alike in both states. -/
theorem updateCalls (h : Alike task s t) (c : ℕ) {x y : Call} (hx : x.Alike y) (d : ℕ) :
    (update s.calls c x d).Alike (update t.calls c y d) := by
  by_cases hd : d = c
  · rw [hd,update_self,update_self]
    exact hx
  · rw [update_of_ne hd,update_of_ne hd]
    exact h.calls d

theorem setCall (h : Alike task s t) (c : ℕ) (x : Call) : Alike task (s.setCall c x) (t.setCall c x) :=
  ⟨h.mock,h.own,h.others,h.taskCount,h.updateCalls c (Or.inl rfl),h.destroyed,h.opened⟩

theorem updateTasks (h : Alike task s t) {u : ℕ} {r r' : Task} (hr : r.Alike r')
    (hother : u ≠ task → r' = r) :
    (update s.tasks u r task).Alike (update t.tasks u r' task) ∧
      ∀ v, v ≠ task → update t.tasks u r' v = update s.tasks u r v := by
  constructor
  · by_cases hu : task = u
    · rw [hu,update_self,update_self]
      exact hr
    · rw [update_of_ne hu,update_of_ne hu]
      exact h.own
  · intro v hv
    by_cases hvu : v = u
    · rw [hvu,update_self,update_self]
      exact hother (hvu ▸ hv)
    · rw [update_of_ne hvu,update_of_ne hvu]
      exact h.others v hv

/-- A call that is not a status query stands at the same place in both states. -/
theorem call_eq (h : Alike task s t) {c : ℕ} {x : Call} (hc : s.calls c = x) (hx : ∀ r, x ≠ .status r) :
    t.calls c = x := by
  have hy := h.calls c
  rw [hc] at hy
  exact hy.eq hx

theorem startCall (h : Alike task s t) {call : ℕ} {next next' s' : System} (hn : Alike task next next')
    (he : Frontend.startCall s call next = some s') :
    ∃ t', Frontend.startCall t call next' = some t' ∧ Alike task s' t' := by
  unfold Frontend.startCall at he ⊢
  split at he
  next hguard =>
    cases he
    refine ⟨next',?_,hn⟩
    rw [if_pos ⟨h.call_eq hguard.1 (by simp),h.destroyed.trans hguard.2⟩]
  · cases he

end Alike

theorem requestCancel_alike {m m' : Mock} (h : m.Alike m') :
    (qcpuRequestCancelLocked m).1.Alike (qcpuRequestCancelLocked m').1 ∧
      (qcpuRequestCancelLocked m').2 = (qcpuRequestCancelLocked m).2 := by
  rw [h]
  unfold qcpuRequestCancelLocked
  simp only []
  split_ifs
  · exact ⟨rfl,rfl⟩
  · exact ⟨rfl,rfl⟩

/-- Whether the exchange marks the backend as gone shows in the device state only. -/
theorem finalize_alike {m m' : Mock} (h : m.Alike m') (offline offline' success : Bool) (errorNumber : ℤ)
    (status : UInt32) : (qcpuFinalizeExchangeLocked m offline success errorNumber status).Alike
      (qcpuFinalizeExchangeLocked m' offline' success errorNumber status) := by
  rw [h]
  cases success <;> rfl

theorem record_alike {m m' : Mock} (h : m.Alike m') (errorNumber : ℤ) (status : UInt32) :
    (qcpuRecordResultLocked m errorNumber status).Alike (qcpuRecordResultLocked m' errorNumber status) := by
  rw [h]
  rfl

/-- The pre-dispatch checks end alike. -/
inductive Prevalidated.Alike : Prevalidated → Prevalidated → Prop
  | rejected {m m' : Mock} (h : m.Alike m') (delivered : Option Exchange) (errorNumber : ℤ) :
    Prevalidated.Alike (.rejected m delivered errorNumber) (.rejected m' delivered errorNumber)
  | accepted (exchange : Exchange) (deadline : UInt64) :
    Prevalidated.Alike (.accepted exchange deadline) (.accepted exchange deadline)

theorem Prevalidated.Alike.ite {c : Prop} [Decidable c] {a a' b b' : Prevalidated} (ha : a.Alike a')
    (hb : b.Alike b') : (if c then a else b).Alike (if c then a' else b') := by
  split_ifs
  · exact ha
  · exact hb

theorem reject_alike {m m' : Mock} (h : m.Alike m') (exchange : Option Exchange) (errorNumber : ℤ)
    (status : UInt32) :
    (rejectExchange m exchange errorNumber status).Alike (rejectExchange m' exchange errorNumber status) :=
  .rejected (record_alike h errorNumber status) _ _

/-- No check before dispatch reads the device state. -/
theorem prevalidate_alike {m m' : Mock} (h : m.Alike m') (argument : Option Exchange) (clock : Option Timespec) :
    (qcpuPrevalidateExchangeLocked m argument clock).Alike (qcpuPrevalidateExchangeLocked m' argument clock) := by
  have hreject := reject_alike h
  have hopen : m'.sessionOpen = m.sessionOpen := by rw [h]
  have hbusy : m'.busy = m.busy := by rw [h]
  have hattached : m'.backendAttached = m.backendAttached := by rw [h]
  have hops : m'.backendOps = m.backendOps := by rw [h]
  unfold qcpuPrevalidateExchangeLocked
  rw [hopen,hbusy,hattached,hops]
  refine .ite (hreject _ _ _) ?_
  cases argument with
  | none => exact .rejected (record_alike h _ _) _ _
  | some passed =>
    refine .ite (hreject _ _ _) (.ite (hreject _ _ _) (.ite (hreject _ _ _) (.ite (hreject _ _ _) ?_)))
    refine .ite (hreject _ _ _) ?_
    cases clock with
    | none => exact hreject _ _ _
    | some now =>
      refine .ite (hreject _ _ _) (.ite (hreject _ _ _) (.ite ?_ (.accepted _ _)))
      refine reject_alike ?_ _ _ _
      rw [h]
      rfl

namespace Alike
variable {task : ℕ} {s t : System}

theorem failLocally (h : Alike task s t) (call : ℕ) (argument : Option Exchange) {m m' : Mock} (hm : m.Alike m')
    (errorNumber : ℤ) :
    Alike task (Frontend.failLocally s call argument m errorNumber)
      (Frontend.failLocally t call argument m' errorNumber) := by
  refine ⟨finalize_alike hm _ _ _ _ _,h.own,h.others,h.taskCount,h.updateCalls call (Or.inl rfl),h.destroyed,?_⟩
  simpa [Frontend.failLocally,openCount,Note.isOpened] using h.opened

theorem exchangeSection (h : Alike task s t) (call : ℕ) (argument : Option Exchange) (dispatch : Dispatch) :
    Alike task (Frontend.exchangeSection s call argument dispatch)
      (Frontend.exchangeSection t call argument dispatch) := by
  have hdispatched : (dispatchedMock s.mock s.taskCount).Alike (dispatchedMock t.mock t.taskCount) := by
    rw [h.mock,h.taskCount]
    rfl
  have hundone : Mock.Alike { dispatchedMock s.mock s.taskCount with activeTask := none }
      { dispatchedMock t.mock t.taskCount with activeTask := none } := by
    rw [h.mock]
    rfl
  have hpre := prevalidate_alike h.mock argument dispatch.clock
  unfold Frontend.exchangeSection
  generalize qcpuPrevalidateExchangeLocked s.mock argument dispatch.clock = outcome at hpre ⊢
  generalize qcpuPrevalidateExchangeLocked t.mock argument dispatch.clock = outcome' at hpre ⊢
  cases hpre with
  | rejected hm delivered errorNumber =>
    exact ⟨hm,h.own,h.others,h.taskCount,h.updateCalls call (Or.inl rfl),h.destroyed,h.opened⟩
  | accepted exchange deadline =>
    simp only []
    split_ifs
    · exact h.failLocally call argument h.mock _
    · exact h.failLocally call argument hundone _
    · exact h.failLocally call argument hundone _
    · have hops : t.mock.backendOps = s.mock.backendOps := by rw [h.mock]
      have hcontext : t.mock.backendContext = s.mock.backendContext := by rw [h.mock]
      unfold dispatchTask
      rw [h.taskCount,hops,hcontext]
      obtain ⟨hown,hothers⟩ := h.updateTasks (u := s.taskCount) (Task.Alike.refl _) (fun _ => rfl)
      refine ⟨by rwa [h.taskCount] at hdispatched,hown,hothers,rfl,h.updateCalls call (Or.inl rfl),h.destroyed,?_⟩
      simpa [openCount,Note.isOpened] using h.opened

/-- The worker of `task` may report another result, every other worker the same one. -/
theorem workerSection (h : Alike task s t) (u : ℕ) {result result' : ℤ} (hother : u ≠ task → result' = result) :
    Alike task (Frontend.workerSection s u result) (Frontend.workerSection t u result') := by
  have hactive : t.mock.activeTask = s.mock.activeTask := by rw [h.mock]
  have hrecord : Task.Alike
      { s.tasks u with backendResult := result, done := true, references := (s.tasks u).references - 1,
                       worker := .finished }
      { t.tasks u with backendResult := result', done := true, references := (t.tasks u).references - 1,
                       worker := .finished } := by
    refine ⟨?_,Or.inl rfl⟩
    rw [(h.tasks u).record]
  obtain ⟨hown,hothers⟩ := h.updateTasks hrecord (fun hu => by rw [h.others u hu,hother hu])
  unfold Frontend.workerSection
  refine ⟨?_,hown,hothers,h.taskCount,h.calls,h.destroyed,h.opened⟩
  simp only [h.abandoned u,hactive]
  cases (s.tasks u).callerAbandoned && s.mock.activeTask == some u with
  | true =>
    simp only [↓reduceIte]
    rw [h.mock]
    rfl
  | false => exact h.mock

theorem expireSection (h : Alike task s t) (call : ℕ) (argument : Option Exchange) (u : ℕ) :
    Alike task (Frontend.expireSection s call argument u) (Frontend.expireSection t call argument u) := by
  obtain ⟨hmock,hflag⟩ := requestCancel_alike h.mock
  refine ⟨hmock,h.own,h.others,h.taskCount,h.updateCalls call ?_,h.destroyed,h.opened⟩
  rw [hflag]
  exact Or.inl rfl

theorem wakeSection (h : Alike task s t) (call : ℕ) (argument : Option Exchange) (u : ℕ) (waitResult : ℤ) :
    Alike task (Frontend.wakeSection s call argument u waitResult)
      (Frontend.wakeSection t call argument u waitResult) := by
  unfold Frontend.wakeSection
  rw [h.done u]
  split_ifs
  · exact h.expireSection call argument u
  · exact h.expireSection call argument u
  · exact h.setCall call _
  · exact h

theorem release (h : Alike task s t) (u : ℕ) (abandoned : Bool) :
    Task.Alike { s.tasks u with callerAbandoned := abandoned, references := (s.tasks u).references - 1 }
      { t.tasks u with callerAbandoned := abandoned, references := (t.tasks u).references - 1 } := by
  refine ⟨?_,(h.tasks u).worker⟩
  rw [(h.tasks u).record]

theorem abandonSection (h : Alike task s t) (call : ℕ) (argument : Option Exchange) (u : ℕ) :
    Alike task (Frontend.abandonSection s call argument u) (Frontend.abandonSection t call argument u) := by
  obtain ⟨hown,hothers⟩ := h.updateTasks (h.release u true) (fun hu => by rw [h.others u hu])
  refine ⟨?_,hown,hothers,h.taskCount,h.updateCalls call (Or.inl rfl),h.destroyed,?_⟩
  · unfold Frontend.abandonSection
    rw [h.mock]
    rfl
  · simpa [Frontend.abandonSection,openCount,Note.isOpened] using h.opened

/-- The result of the exchange is the same: a caller of another task reads the same
record, and the caller of a lost task reads nothing but its own timeout. -/
theorem outcome (h : Alike task s t) {u : ℕ} {timedOut : Bool} (hlost : u = task → timedOut = true) :
    exchangeOutcome timedOut t.mock.cancelRequested (t.tasks u).backendResult (t.tasks u).request
        (t.tasks u).response =
      exchangeOutcome timedOut s.mock.cancelRequested (s.tasks u).backendResult (s.tasks u).request
        (s.tasks u).response := by
  have hcancel : t.mock.cancelRequested = s.mock.cancelRequested := by rw [h.mock]
  by_cases hu : u = task
  · rw [hlost hu]
    rfl
  · rw [h.others u hu,hcancel]

theorem finishSection (h : Alike task s t) (call : ℕ) (argument : Option Exchange) {u : ℕ} {timedOut : Bool}
    (hlost : u = task → timedOut = true) :
    Alike task (Frontend.finishSection s call argument u timedOut)
      (Frontend.finishSection t call argument u timedOut) := by
  have hmock : Mock.Alike { s.mock with activeTask := none } { t.mock with activeTask := none } := by
    rw [h.mock]
    rfl
  have hrecord : Task.Alike { s.tasks u with references := (s.tasks u).references - 1 }
      { t.tasks u with references := (t.tasks u).references - 1 } := by
    refine ⟨?_,(h.tasks u).worker⟩
    rw [(h.tasks u).record]
  obtain ⟨hown,hothers⟩ := h.updateTasks hrecord (fun hu => by rw [h.others u hu])
  unfold Frontend.finishSection
  simp only []
  rw [h.outcome hlost]
  split
  · refine ⟨finalize_alike hmock _ _ _ _ _,hown,hothers,h.taskCount,h.updateCalls call (Or.inl rfl),h.destroyed,?_⟩
    simpa [openCount,Note.isOpened] using h.opened
  · refine ⟨finalize_alike hmock _ _ _ _ _,hown,hothers,h.taskCount,h.updateCalls call (Or.inl rfl),h.destroyed,?_⟩
    simpa [openCount,Note.isOpened] using h.opened

theorem endSection (h : Alike task s t) (call session : ℕ) (release : ReleaseOutcome) :
    Alike task (Frontend.endSection s call session release) (Frontend.endSection t call session release) := by
  have hend : (endSession t.mock release).2 = (endSession s.mock release).2 := by
    rw [h.mock]
    unfold endSession
    simp only []
    split_ifs <;> rfl
  refine ⟨?_,h.own,h.others,h.taskCount,h.updateCalls call ?_,h.destroyed,?_⟩
  · simp only [Frontend.endSection,endSession_mock]
    rw [h.mock]
    rfl
  · rw [hend]
    exact Or.inl rfl
  · simpa [Frontend.endSection,openCount,Note.isOpened] using h.opened

theorem closeSection (h : Alike task s t) (call : ℕ) (release : ReleaseOutcome) :
    Alike task (Frontend.closeSection s call release) (Frontend.closeSection t call release) := by
  have hopen : t.mock.sessionOpen = s.mock.sessionOpen := by rw [h.mock]
  have hbusy : t.mock.busy = s.mock.busy := by rw [h.mock]
  have hactive : t.mock.activeTask = s.mock.activeTask := by rw [h.mock]
  have hops : t.mock.backendOps = s.mock.backendOps := by rw [h.mock]
  have hcontext : t.mock.backendContext = s.mock.backendContext := by rw [h.mock]
  obtain ⟨hmock,hflag⟩ := requestCancel_alike h.mock
  unfold Frontend.closeSection
  simp only [hopen,hbusy,hactive,h.abandoned,h.opened]
  split_ifs
  · exact h.setCall call _
  · exact h.setCall call _
  · refine ⟨hmock,h.own,h.others,h.taskCount,h.updateCalls call ?_,h.destroyed,h.opened⟩
    rw [hflag,h.opened,hactive,hops,hcontext]
    exact Or.inl rfl
  · exact h.endSection call _ release

theorem destroySection (h : Alike task s t) (call : ℕ) (condResult mutexResult : ℤ) :
    Alike task (Frontend.destroySection s call condResult mutexResult)
      (Frontend.destroySection t call condResult mutexResult) := by
  have hopen : t.mock.sessionOpen = s.mock.sessionOpen := by rw [h.mock]
  have hbusy : t.mock.busy = s.mock.busy := by rw [h.mock]
  unfold Frontend.destroySection
  rw [hopen,hbusy]
  split_ifs
  · exact h.setCall call _
  · exact h.setCall call _
  · exact ⟨h.mock,h.own,h.others,h.taskCount,h.updateCalls call (Or.inl rfl),rfl,h.opened⟩
  · refine ⟨h.mock,h.own,h.others,h.taskCount,h.updateCalls call (Or.inl rfl),rfl,?_⟩
    simpa [openCount,Note.isOpened] using h.opened

/-- A worker that has not reported stands at the same place in both states. -/
theorem worker_eq (h : Alike task s t) {u : ℕ} {w : Worker} (hu : (s.tasks u).worker = w)
    (hw : ∀ r, w ≠ .returned r) : (t.tasks u).worker = w := by
  rcases (h.tasks u).worker with hsame | ⟨r,-,hr,-⟩
  · exact hsame.trans hu
  · exact absurd (hu.symm.trans hr) (hw r)

theorem callbackEnter {s' : System} (h : Alike task s t) (u : ℕ) (he : step s (.callbackEnter u) = some s') :
    ∃ t', step t (.callbackEnter u) = some t' ∧ Alike task s' t' := by
  simp only [step,Option.ite_none_right_eq_some,Option.some.injEq] at he
  obtain ⟨hw,rfl⟩ := he
  refine ⟨_,if_pos (h.worker_eq hw (by simp)),?_⟩
  have hrecord : Task.Alike { s.tasks u with worker := .inCallback } { t.tasks u with worker := .inCallback } := by
    refine ⟨?_,Or.inl rfl⟩
    rw [(h.tasks u).record]
  obtain ⟨hown,hothers⟩ := h.updateTasks hrecord (fun hu => by rw [h.others u hu])
  exact ⟨h.mock,hown,hothers,h.taskCount,h.calls,h.destroyed,h.opened⟩

theorem callbackReturn {s' : System} (h : Alike task s t) (u : ℕ) {result result' : ℤ} {response response' : Response}
    (hother : u ≠ task → result' = result ∧ response' = response)
    (he : step s (.callbackReturn u result response) = some s') :
    ∃ t', step t (.callbackReturn u result' response') = some t' ∧ Alike task s' t' := by
  simp only [step,Option.ite_none_right_eq_some,Option.some.injEq] at he
  obtain ⟨hw,rfl⟩ := he
  refine ⟨_,if_pos (h.worker_eq hw (by simp)),?_⟩
  have hrecord : Task.Alike { s.tasks u with response := response, worker := .returned result }
      { t.tasks u with response := response', worker := .returned result' } := by
    refine ⟨?_,Or.inr ⟨_,_,rfl,rfl⟩⟩
    rw [(h.tasks u).record]
  obtain ⟨hown,hothers⟩ := h.updateTasks hrecord (fun hu => by rw [h.others u hu,(hother hu).1,(hother hu).2])
  refine ⟨h.mock,hown,hothers,h.taskCount,h.calls,h.destroyed,?_⟩
  simpa [openCount,Note.isOpened] using h.opened

theorem workerFinish {s' : System} (h : Alike task s t) (u : ℕ) (he : step s (.workerFinish u) = some s') :
    ∃ t', step t (.workerFinish u) = some t' ∧ Alike task s' t' := by
  simp only [step] at he
  split at he
  next result hw =>
    cases he
    obtain ⟨result',hw',hother⟩ : ∃ result', (t.tasks u).worker = .returned result' ∧
        (u ≠ task → result' = result) := by
      by_cases hu : u = task
      · rcases (h.tasks u).worker with hsame | ⟨r,r',-,hr'⟩
        · exact ⟨result,hsame.trans hw,fun _ => rfl⟩
        · exact ⟨r',hr',fun hne => absurd hu hne⟩
      · exact ⟨result,by rw [h.others u hu,hw],fun _ => rfl⟩
    refine ⟨_,?_,h.workerSection u hother⟩
    simp only [step,hw']
  · cases he

theorem runCancel {s' : System} (h : Alike task s t) (call : ℕ) (he : step s (.runCancel call) = some s') :
    ∃ t', step t (.runCancel call) = some t' ∧ Alike task s' t' := by
  simp only [step] at he
  split at he
  next argument u hc =>
    cases he
    refine ⟨_,by simp only [step,h.call_eq hc (by simp)]; rfl,?_⟩
    refine ⟨h.mock,h.own,h.others,h.taskCount,h.updateCalls call (Or.inl rfl),h.destroyed,?_⟩
    simpa [openCount,Note.isOpened] using h.opened
  next session target ops context hc =>
    cases he
    refine ⟨_,by simp only [step,h.call_eq hc (by simp)]; rfl,?_⟩
    refine ⟨h.mock,h.own,h.others,h.taskCount,h.updateCalls call (Or.inl rfl),h.destroyed,?_⟩
    simpa [openCount,Note.isOpened] using h.opened
  · cases he

theorem relockSection (h : Alike task s t) (call : ℕ) (argument : Option Exchange) {u : ℕ} {timedOut : Bool}
    (clock : Option Timespec) (hlost : u = task → timedOut = true) :
    Alike task (Frontend.relockSection s call argument u timedOut clock)
      (Frontend.relockSection t call argument u timedOut clock) := by
  unfold Frontend.relockSection
  rw [h.done u]
  split_ifs
  · cases clock with
    | none => exact h.abandonSection call argument u
    | some now =>
      simp only []
      split_ifs
      · exact h.setCall call _
      · exact h.abandonSection call argument u
  · exact h.finishSection call argument hlost

theorem graceSection (h : Alike task s t) (call : ℕ) (argument : Option Exchange) (u : ℕ) (waitResult : ℤ) :
    Alike task (Frontend.graceSection s call argument u waitResult)
      (Frontend.graceSection t call argument u waitResult) := by
  unfold Frontend.graceSection
  rw [h.done u]
  split_ifs
  · exact h.finishSection call argument (fun _ => rfl)
  · exact h
  · exact h.abandonSection call argument u

theorem closeWakeSection (h : Alike task s t) (call session : ℕ) (release : ReleaseOutcome) :
    Alike task (Frontend.closeWakeSection s call session release)
      (Frontend.closeWakeSection t call session release) := by
  have hbusy : t.mock.busy = s.mock.busy := by rw [h.mock]
  unfold Frontend.closeWakeSection
  rw [hbusy]
  split_ifs
  · exact h
  · exact h.endSection call session release

theorem answer (h : Alike task s t) (call : ℕ) (x : Call) {m m' : Mock} (hm : m.Alike m') {note : Note} :
    Alike task { s with mock := m, calls := update s.calls call x, log := note :: s.log }
      { t with mock := m', calls := update t.calls call x, log := note :: t.log } := by
  refine ⟨hm,h.own,h.others,h.taskCount,h.updateCalls call (Or.inl rfl),h.destroyed,?_⟩
  simpa [openCount,List.countP_cons] using h.opened

theorem setBackend {s' : System} (h : Alike task s t) (call : ℕ) (ops : Option BackendOps) (context : Option ℕ)
    (name : Option CText.Bytes) (he : step s (.setBackend call ops context name) = some s') :
    ∃ t', step t (.setBackend call ops context name) = some t' ∧ Alike task s' t' := by
  refine h.startCall ?_ he
  have hbusy : t.mock.busy = s.mock.busy := by rw [h.mock]
  unfold qcpuMockSetBackend
  rw [hbusy]
  split_ifs
  · exact h.setCall call _
  · cases ops with
    | none =>
      refine h.answer call _ ?_
      rw [h.mock]
      rfl
    | some ops =>
      simp only []
      split_ifs
      · exact h.setCall call _
      · refine h.answer call _ ?_
        rw [h.mock]
        rfl

theorem mockOpen {s' : System} (h : Alike task s t) (call : ℕ) (outcome : OpenOutcome)
    (he : step s (.mockOpen call outcome) = some s') :
    ∃ t', step t (.mockOpen call outcome) = some t' ∧ Alike task s' t' := by
  refine h.startCall ?_ he
  have hopen : t.mock.sessionOpen = s.mock.sessionOpen := by rw [h.mock]
  unfold qcpuMockOpen
  rw [hopen]
  split_ifs
  · exact h.setCall call _
  · cases outcome with
    | openFailed errorNumber => exact h.setCall call _
    | fchmodFailed errorNumber => exact h.setCall call _
    | flockFailed errorNumber =>
      simp only []
      split_ifs
      · exact h.setCall call _
      · exact h.setCall call _
    | locked descriptor =>
      refine h.answer call _ ?_
      rw [h.mock]
      rfl

end Alike

/-- One step from alike states, of which the first has lost `task`, leads to alike states. -/
theorem step_alike {task : ℕ} {s s' t : System} {e e' : Event} (hs : Valid s) (hlost : Lost s task)
    (h : Alike task s t) (hev : Event.Alike task e e') (he : step s e = some s') :
    ∃ t', step t e' = some t' ∧ Alike task s' t' := by
  cases hev with
  | report result result' response response' => exact h.callbackReturn task (fun hne => absurd rfl hne) he
  | same =>
    cases e with
    | setBackend call ops context name => exact h.setBackend call ops context name he
    | mockOpen call outcome => exact h.mockOpen call outcome he
    | getCaps call =>
      have hcaps : qcpuFillCaps t.mock = qcpuFillCaps s.mock := by
        rw [h.mock]
        rfl
      refine h.startCall ?_ he
      rw [hcaps]
      exact h.setCall call _
    | getStatus call =>
      refine h.startCall ?_ he
      refine ⟨h.mock,h.own,h.others,h.taskCount,h.updateCalls call (Or.inr ⟨_,_,rfl,rfl,?_⟩),h.destroyed,h.opened⟩
      rw [h.mock]
      rfl
    | exchange call argument dispatch => exact h.startCall (h.exchangeSection call argument dispatch) he
    | callbackEnter u => exact h.callbackEnter u he
    | callbackReturn u result response => exact h.callbackReturn u (fun _ => ⟨rfl,rfl⟩) he
    | workerFinish u => exact h.workerFinish u he
    | wake call waitResult =>
      simp only [step] at he
      split at he
      next argument u hc =>
        cases he
        refine ⟨_,?_,h.wakeSection call argument u waitResult⟩
        simp only [step,h.call_eq hc (by simp)]
      · cases he
    | runCancel call => exact h.runCancel call he
    | relock call clock =>
      simp only [step] at he
      split at he
      next argument u timedOut hc =>
        cases he
        have htimed : u = task → timedOut = true := by
          rintro rfl
          have howner := (hs.owner.caller call u (by rw [hc]; rfl)).2.1
          have hgone := hlost.2
          rw [howner,hc] at hgone
          exact hgone
        refine ⟨_,?_,h.relockSection call argument clock htimed⟩
        simp only [step,h.call_eq hc (by simp)]
      · cases he
    | graceWake call waitResult =>
      simp only [step] at he
      split at he
      next argument u hc =>
        cases he
        refine ⟨_,?_,h.graceSection call argument u waitResult⟩
        simp only [step,h.call_eq hc (by simp)]
      · cases he
    | mockClose call release => exact h.startCall (h.closeSection call release) he
    | closeWake call release =>
      simp only [step] at he
      split at he
      next session hc =>
        cases he
        refine ⟨_,?_,h.closeWakeSection call session release⟩
        simp only [step,h.call_eq hc (by simp)]
      · cases he
    | mockDestroy call condResult mutexResult =>
      exact h.startCall (h.destroySection call condResult mutexResult) he

/-- Two schedules that differ only in what a lost callback reports lead to alike states. -/
theorem run_alike {task : ℕ} {s t u : System} {events events' : List Event} (hs : Sound s) (hlost : Lost s task)
    (h : Alike task s t) (hev : List.Forall₂ (Event.Alike task) events events')
    (hr : Transition.run step s events = some u) :
    ∃ v, Transition.run step t events' = some v ∧ Alike task u v := by
  induction hev generalizing s t with
  | nil =>
    cases hr
    exact ⟨t,rfl,h⟩
  | cons hevent hrest ih =>
    obtain ⟨m,hm,hr⟩ := Transition.run_cons step hr
    obtain ⟨m',hm',halike⟩ := step_alike hs.valid hlost h hevent hm
    obtain ⟨v,hv,hfinal⟩ := ih (step_sound hs hm) (step_lost hs.valid hm hlost) halike hr
    refine ⟨v,?_,hfinal⟩
    simp only [Transition.run,hm',Option.bind_some]
    exact hv

/-- The response came from the one task dispatched for this call, whose callback ran
once, on the request of the call, and returned 0. -/
def DeliveredBy (s : System) (call : ℕ) (answer : ExchangeReturn) (task : ℕ) : Prop :=
  ∃ argument response, answer.argument = some argument ∧
    answer.delivered = some { argument with response := response } ∧
    (s.tasks task).worker ≠ .absent ∧ (s.tasks task).owner = call ∧
    (∀ u, (s.tasks u).worker ≠ .absent → (s.tasks u).owner = call → u = task) ∧
    Note.callback task argument.request 0 response ∈ s.log ∧
    ∀ request result other, Note.callback task request result other ∈ s.log →
      request = argument.request ∧ result = 0 ∧ other = response

/-- The callback of the task returns, or its worker reports the result. -/
def Completes (task : ℕ) : Event → Prop
  | .callbackReturn t _ _ => t = task
  | .workerFinish t => t = task
  | _ => False

/-- What the exchanges other than that of `task` own is the same in both states: every
call with its argument, every other task, the counters and the last recorded result. -/
structure Unaffected (task : ℕ) (s t : System) : Prop where
  calls : t.calls = s.calls
  others : ∀ u, u ≠ task → t.tasks u = s.tasks u
  request : (t.tasks task).request = (s.tasks task).request
  completed : t.mock.completedRequests = s.mock.completedRequests
  failed : t.mock.failedRequests = s.mock.failedRequests
  last : t.mock.lastErrno = s.mock.lastErrno ∧ t.mock.lastProtocolStatus = s.mock.lastProtocolStatus

/-- Callbacks of one task report the same thing. -/
theorem Wrote.unique {record : Task} {request request' : Request} {result result' : ℤ} {response response' : Response}
    (h : Wrote record request result response) (h' : Wrote record request' result' response') :
    request' = request ∧ result' = result ∧ response' = response := by
  obtain ⟨hq,hp,hr⟩ := h
  obtain ⟨hq',hp',hr'⟩ := h'
  refine ⟨hq'.trans hq.symm,?_,hp'.trans hp.symm⟩
  rcases hr with hr | ⟨hr,hback⟩ <;> rcases hr' with hr' | ⟨hr',hback'⟩
  · exact Worker.returned.inj (hr'.symm.trans hr)
  · cases hr.symm.trans hr'
  · cases hr.symm.trans hr'
  · exact hback'.symm.trans hback

theorem Sound.deliveredBy {s : System} (h : Sound s) {call : ℕ} {answer : ExchangeReturn}
    (hc : s.calls call = .exchangeReturned answer) (hok : answer.result = .ok ()) :
    ∃ task, DeliveredBy s call answer task := by
  have hcontract : Contract s.tasks s.log call answer := by
    have hv := h.contracted.calls call
    rwa [hc] at hv
  rcases hcontract with ⟨-,argument,response,task,ha,hd,hw,ho,hn,-⟩ | ⟨errorNumber,hfail,-⟩
  · refine ⟨task,argument,response,ha,hd,hw,ho,?_,hn,?_⟩
    · intro u hu howner
      exact h.isolated.single u task hu hw (howner.trans ho.symm)
    · intro request result other hother
      exact (h.isolated.written _ _ _ _ hn).unique (h.isolated.written _ _ _ _ hother)
  · rw [hok] at hfail
    cases hfail

/-- A response that was delivered did not come from a lost task. -/
theorem Lost.not_deliveredBy {s : System} {task : ℕ} (h : Lost s task) {call : ℕ} {answer : ExchangeReturn}
    (hc : s.calls call = .exchangeReturned answer) (hok : answer.result = .ok ()) {other : ℕ}
    (hd : DeliveredBy s call answer other) : other ≠ task := by
  rintro rfl
  obtain ⟨-,-,-,-,-,howner,-⟩ := hd
  have hgone := h.2
  rw [howner,hc] at hgone
  simp [Call.gaveUp,hok,Except.isOk,Except.toBool] at hgone

theorem completes_unaffected {s t : System} {e : Event} {task : ℕ} (he : step s e = some t)
    (h : Completes task e) : Unaffected task s t := by
  cases e with
  | callbackReturn u result response =>
    obtain rfl : u = task := h
    simp only [step,Option.ite_none_right_eq_some,Option.some.injEq] at he
    obtain ⟨-,rfl⟩ := he
    refine ⟨rfl,?_,?_,rfl,rfl,rfl,rfl⟩
    · intro v hv
      exact update_of_ne hv _ _
    · simp [System.setTask]
  | workerFinish u =>
    obtain rfl : u = task := h
    simp only [step] at he
    split at he
    · cases he
      unfold workerSection
      refine ⟨rfl,?_,?_,?_,?_,?_⟩
      · intro v hv
        exact update_of_ne hv _ _
      · simp
      all_goals
        simp only []
        split
      all_goals simp
    · cases he
  | _ => exact h.elim

theorem completes_alone {s t : System} {e : Event} {task : ℕ} (hs : Valid s) (he : step s e = some t)
    (h : Completes task e) {call u : ℕ} (hc : (s.calls call).task? = some u) : u = task := by
  have hactive : s.mock.activeTask = some task := by
    cases e with
    | callbackReturn v result response =>
      obtain rfl : v = task := h
      simp only [step,Option.ite_none_right_eq_some,Option.some.injEq] at he
      exact hs.owner.running v (by simp [he.1]) (by simp [he.1])
    | workerFinish v =>
      obtain rfl : v = task := h
      simp only [step] at he
      split at he
      next result hw => exact hs.owner.running v (by simp [hw]) (by simp [hw])
      · cases he
    | _ => exact h.elim
  exact Option.some.inj ((hs.owner.caller call u hc).1.symm.trans hactive)

/-- In every reachable state of every interleaving: a response delivered with result 0
is the one the callback of that call's own task wrote; after a deadline wait expired,
the callback's response is never delivered, its completion leaves everything of every
other exchange alone, and no later run depends on what it reports; and an exchange
that has returned is never written to again. -/
theorem exchange_isolation {s : System} (h : Reachable s) :
    (∀ call answer, s.calls call = .exchangeReturned answer → answer.result = .ok () →
      ∃ task, DeliveredBy s call answer task) ∧
    (∀ task, Expired s task → ∀ events t, Transition.run step s events = some t →
      ∀ call answer, t.calls call = .exchangeReturned answer →
        (answer.result = .ok () → ∃ other, other ≠ task ∧ DeliveredBy t call answer other) ∧
        ((t.tasks task).owner = call → answer.result ≠ .ok ()) ∧
        (answer.result ≠ .ok () → ∀ argument, answer.argument = some argument →
          ∃ delivered errorNumber, answer.delivered = some delivered ∧
            FailClosed argument delivered errorNumber answer.localFailure)) ∧
    (∀ task e t, step s e = some t → Completes task e →
      Unaffected task s t ∧ ∀ call u, (s.calls call).task? = some u → u = task) ∧
    (∀ task, Expired s task → ∀ events events' t, List.Forall₂ (Event.Alike task) events events' →
      Transition.run step s events = some t →
      ∃ t', Transition.run step s events' = some t' ∧ Alike task t t') ∧
    (∀ call answer, s.calls call = .exchangeReturned answer → ∀ events t,
      Transition.run step s events = some t → t.calls call = .exchangeReturned answer) := by
  have hs := reachable_sound h
  refine ⟨fun call answer => hs.deliveredBy,?_,?_,?_,fun call answer hc events t hr => run_returned hr hc⟩
  · intro task hexpired events t hr call answer hc
    have ht := run_sound hs hr
    have hlost := run_lost hs (hexpired.lost h) hr
    refine ⟨?_,?_,?_⟩
    · intro hok
      obtain ⟨other,hother⟩ := ht.deliveredBy hc hok
      exact ⟨other,hlost.not_deliveredBy hc hok hother,hother⟩
    · intro howner hok
      obtain ⟨other,hother⟩ := ht.deliveredBy hc hok
      refine hlost.not_deliveredBy hc hok hother ?_
      obtain ⟨-,-,-,-,hw,ho,-⟩ := hother
      exact ht.isolated.single other task hw hlost.1 (ho.trans howner.symm)
    · intro hfail argument ha
      have hcontract := ht.contracted.calls call
      rw [hc] at hcontract
      rcases hcontract with ⟨hok,-⟩ | ⟨errorNumber,-,hclosed⟩
      · exact absurd hok hfail
      · obtain ⟨delivered,hd,hrecord⟩ := hclosed argument ha
        exact ⟨delivered,errorNumber,hd,hrecord⟩
  · intro task e t he hcomplete
    exact ⟨completes_unaffected he hcomplete,fun call u hc => completes_alone hs.valid he hcomplete hc⟩
  · intro task hexpired events events' t hev hr
    exact run_alike hs (hexpired.lost h) (Alike.refl task s) hev hr

/-- A run whose first caller gives up, and one in which the late callback reports
success before the next exchange is answered. -/
def sampleAbandoned : List Event :=
  sampleRun ++ [.wake 1 etimedout, .runCancel 1, .relock 1 none]
def sampleLate : List Event :=
  [.callbackReturn 0 0 sampleResponse, .workerFinish 0, .exchange 2 (some sampleExchange) sampleDispatch,
    .callbackEnter 1, .callbackReturn 1 0 sampleResponse, .workerFinish 1, .wake 2 0, .relock 2 none]

theorem exchange_isolation_late :
    ∃ s t, Reachable s ∧ Expired s 0 ∧ Transition.run step s sampleLate = some t ∧
      t.calls 2 = .exchangeReturned sampleAnswer ∧ ∃ other, other ≠ 0 ∧ DeliveredBy t 2 sampleAnswer other := by
  refine ⟨_,_,⟨sampleConfig,_,sampleAbandoned,rfl,rfl⟩,Or.inl rfl,rfl,rfl,?_⟩
  exact ((exchange_isolation ⟨sampleConfig,_,sampleAbandoned,rfl,rfl⟩).2.1 0 (Or.inl rfl) sampleLate _ rfl 2
    sampleAnswer rfl).1 rfl

end QbitNova.Frontend
