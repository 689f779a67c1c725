import QbitNova.Device.FrontendContract

/-! # Which exchange a cancel callback reaches

Both the deadline path and close decide on a cancellation under the mutex and run
the backend's callback after unlocking. The deadline path is run by the owner of the
active task, which cannot end meanwhile. A close does not own the task: the exchange
may end, another may start and the backend may be replaced before its callback runs.
If the frontend is never freed between a close's decision and its callback, every
cancellation reaches the exchange it was requested for, once.
-/
namespace QbitNova.Frontend
open Function (update update_self update_of_ne)

/-- The callback ran while the exchange it was requested for was still the active one,
on the backend that is still attached. -/
structure Delivered (entry : CancelRun) : Prop where
  busy : entry.busy = true
  active : entry.target.isSome = true ∧ entry.activeTask = entry.target
  backend : entry.ops = entry.currentOps ∧ entry.context = entry.currentContext

def Note.cancelRun? : Note → Option CancelRun
  | .cancel entry => some entry
  | _ => none

/-- A cancel callback that ran while this task was the active one. -/
def Note.cancels (task : ℕ) (note : Note) : Bool :=
  note.cancelRun?.any (fun entry => entry.activeTask == some task)

def cancelCount (log : List Note) (task : ℕ) : ℕ := log.countP (Note.cancels task)

structure CancelsDelivered (log : List Note) : Prop where
  delivered : ∀ entry, Note.cancel entry ∈ log → Delivered entry
  once : ∀ task, cancelCount log task ≤ 1

/-- A close has decided on a cancellation and has not run the callback yet. -/
def Call.closeCancels : Call → Bool
  | .closeCancel _ _ _ _ => true
  | _ => false

/-- A cancellation was decided by this call and its callback has not run yet. -/
def Call.cancelling : Call → Bool
  | .exchangeCancel _ _ => true
  | .closeCancel _ _ _ _ => true
  | _ => false

/-- The section frees the frontend: a caller takes its worker's result, or a worker
whose caller has given up reports. -/
def FreesFrontend (s : System) (e : Event) : Prop :=
  (∃ call argument task timedOut, TakesOver s call argument task timedOut e) ∨
  (∃ task, e = .workerFinish task ∧ (s.tasks task).callerAbandoned = true)

/-- The frontend is not freed between a close's decision to cancel and its callback. -/
def CancelsFirst (s : System) (e : Event) : Prop :=
  FreesFrontend s e → ∀ c, (s.calls c).closeCancels = false

/-- What a decided cancellation may rely on until its callback runs. -/
structure CancelValid (mock : Mock) (tasks : ℕ → Task) (count : ℕ) (calls : ℕ → Call) (log : List Note) : Prop where
  backend : ∀ t, mock.activeTask = some t →
    (tasks t).backendOps = mock.backendOps ∧ (tasks t).backendContext = mock.backendContext
  closer : ∀ c session target ops context, calls c = .closeCancel session target ops context →
    target = mock.activeTask ∧ ops = mock.backendOps ∧ context = mock.backendContext
  pending : ∀ c, (calls c).cancelling = true →
    mock.cancelSent = true ∧ ∃ t, mock.activeTask = some t ∧ cancelCount log t = 0
  sole : ∀ c d, (calls c).cancelling = true → (calls d).cancelling = true → c = d
  unsent : ∀ t, mock.activeTask = some t → mock.cancelSent = false → cancelCount log t = 0
  fresh : ∀ t, count ≤ t → cancelCount log t = 0
  history : CancelsDelivered log

/-- The fields of the frontend that a cancellation depends on. -/
structure SameTarget (before after : Mock) : Prop where
  active : after.activeTask = before.activeTask
  ops : after.backendOps = before.backendOps
  context : after.backendContext = before.backendContext
  sent : after.cancelSent = before.cancelSent

theorem Call.cancelling_of_plain {x : Call} (hx : x.plain = true) : x.cancelling = false := by
  cases x <;> first | rfl | cases hx

theorem cancelCount_note {entry : Note} (h : entry.cancelRun? = none) (log : List Note) (t : ℕ) :
    cancelCount (entry :: log) t = cancelCount log t := List.countP_cons_of_neg (by simp [Note.cancels,h])

theorem CancelsDelivered.note {log : List Note} (h : CancelsDelivered log) {entry : Note}
    (hn : entry.cancelRun? = none) : CancelsDelivered (entry :: log) := by
  refine ⟨?_,?_⟩
  · intro run hm
    rcases List.mem_cons.mp hm with rfl | hm
    · cases hn
    · exact h.delivered run hm
  · intro t
    rw [cancelCount_note hn log t]
    exact h.once t

namespace CancelValid
variable {mock after : Mock} {tasks : ℕ → Task} {count : ℕ} {calls : ℕ → Call} {log : List Note}

/-- Entries that are no cancellation. -/
theorem note (h : CancelValid mock tasks count calls log) (entry : Note) (hn : entry.cancelRun? = none) :
    CancelValid mock tasks count calls (entry :: log) := by
  have hcount := cancelCount_note hn log
  obtain ⟨h1,h2,h3,h4,h5,h6,h7⟩ := h
  refine ⟨h1,h2,?_,h4,?_,?_,h7.note hn⟩
  · intro c hcan
    obtain ⟨hs,t,ha,hz⟩ := h3 c hcan
    exact ⟨hs,t,ha,(hcount t).trans hz⟩
  · exact fun t ha hs => (hcount t).trans (h5 t ha hs)
  · exact fun t ht => (hcount t).trans (h6 t ht)

theorem same (h : CancelValid mock tasks count calls log) (hsame : SameTarget mock after) :
    CancelValid after tasks count calls log := by
  obtain ⟨h1,h2,h3,h4,h5,h6,h7⟩ := h
  obtain ⟨ha,ho,hx,hs⟩ := hsame
  refine ⟨?_,?_,?_,h4,?_,h6,h7⟩
  · rwa [ha,ho,hx]
  · rwa [ha,ho,hx]
  · rwa [ha,hs]
  · rwa [ha,hs]

theorem setCall (h : CancelValid mock tasks count calls log) {c : ℕ} {x : Call} (hx : x.cancelling = false) :
    CancelValid mock tasks count (update calls c x) log := by
  have hback : ∀ d, (update calls c x d).cancelling = true → update calls c x d = calls d ∧ d ≠ c := by
    intro d hd
    by_cases hdc : d = c
    · rw [hdc,update_self,hx] at hd
      cases hd
    · exact ⟨update_of_ne hdc x calls,hdc⟩
  obtain ⟨h1,h2,h3,h4,h5,h6,h7⟩ := h
  refine ⟨h1,?_,?_,?_,h5,h6,h7⟩
  · intro d session target ops context hd
    exact h2 d session target ops context ((hback d (by rw [hd]; rfl)).1 ▸ hd)
  · intro d hd
    exact h3 d ((hback d hd).1 ▸ hd)
  · intro d e hd he
    exact h4 d e ((hback d hd).1 ▸ hd) ((hback e he).1 ▸ he)

theorem setTask (h : CancelValid mock tasks count calls log) {t : ℕ} {r : Task}
    (hops : r.backendOps = (tasks t).backendOps) (hcontext : r.backendContext = (tasks t).backendContext) :
    CancelValid mock (update tasks t r) count calls log := by
  refine { h with backend := ?_ }
  intro u ha
  by_cases hu : u = t
  · subst hu
    rw [update_self,hops,hcontext]
    exact h.backend u ha
  · rw [update_of_ne hu]
    exact h.backend u ha

theorem ofQuiet (hcalls : ∀ c, (calls c).cancelling = false)
    (hbackend : ∀ t, mock.activeTask = some t →
      (tasks t).backendOps = mock.backendOps ∧ (tasks t).backendContext = mock.backendContext)
    (hunsent : ∀ t, mock.activeTask = some t → mock.cancelSent = false → cancelCount log t = 0)
    (hfresh : ∀ t, count ≤ t → cancelCount log t = 0) (hhistory : CancelsDelivered log) :
    CancelValid mock tasks count calls log := by
  have hnot : ∀ {c}, (calls c).cancelling ≠ true := by simp [hcalls]
  refine ⟨hbackend,?_,fun c hc => absurd hc hnot,fun c d hc => absurd hc hnot,hunsent,hfresh,hhistory⟩
  intro c session target ops context hc
  exact absurd (by rw [hc]; rfl) (hnot (c := c))

theorem free (h : CancelValid mock tasks count calls log) (hnone : after.activeTask = none)
    (hcalls : ∀ c, (calls c).cancelling = false) (tasks' : ℕ → Task) :
    CancelValid after tasks' count calls log := by
  have hnot : ∀ t, after.activeTask ≠ some t := by simp [hnone]
  exact ofQuiet hcalls (fun t ha => absurd ha (hnot t)) (fun t ha => absurd ha (hnot t)) h.fresh h.history

theorem not_cancelling (h : CancelValid mock tasks count calls log) (hnone : mock.activeTask = none) (c : ℕ) :
    (calls c).cancelling = false := by
  cases hc : (calls c).cancelling with
  | false => rfl
  | true =>
    obtain ⟨-,t,ha,-⟩ := h.pending c hc
    rw [hnone] at ha
    cases ha

theorem dispatch (h : CancelValid mock tasks count calls log) (hnone : mock.activeTask = none) {c : ℕ} {x : Call}
    (hx : x.cancelling = false) {record : Task} (hops : record.backendOps = mock.backendOps)
    (hcontext : record.backendContext = mock.backendContext) :
    CancelValid (dispatchedMock mock count) (update tasks count record) (count + 1) (update calls c x) log := by
  have hcalls : ∀ d, (update calls c x d).cancelling = false := by
    intro d
    by_cases hd : d = c
    · rw [hd,update_self,hx]
    · rw [update_of_ne hd]
      exact h.not_cancelling hnone d
  refine ofQuiet hcalls ?_ ?_ (fun t ht => h.fresh t (by omega)) h.history
  · rintro t ⟨⟩
    rw [update_self]
    exact ⟨hops,hcontext⟩
  · rintro t ⟨⟩ -
    exact h.fresh count (Nat.le_refl _)

theorem request (h : CancelValid mock tasks count calls log) {t : ℕ} (hactive : mock.activeTask = some t)
    (hbusy : mock.busy = true) {c : ℕ} {x y : Call} (hy : y.cancelling = false)
    (hx : ∀ session target ops context, x = .closeCancel session target ops context →
      target = mock.activeTask ∧ ops = mock.backendOps ∧ context = mock.backendContext) :
    CancelValid (qcpuRequestCancelLocked mock).1 tasks count
      (update calls c (if (qcpuRequestCancelLocked mock).2 then x else y)) log := by
  cases hsent : mock.cancelSent with
  | true =>
    have he : qcpuRequestCancelLocked mock = (mock,false) := by simp [qcpuRequestCancelLocked,hsent]
    rw [he]
    exact h.setCall hy
  | false =>
    have he : qcpuRequestCancelLocked mock =
        ({ mock with cancelRequested := true, cancelSent := true },mock.backendOps.cancel.isSome) := by
      simp [qcpuRequestCancelLocked,hsent,hbusy]
    have hcalls : ∀ d, (calls d).cancelling = false := by
      intro d
      cases hd : (calls d).cancelling with
      | false => rfl
      | true =>
        have := (h.pending d hd).1
        rw [hsent] at this
        cases this
    have hzero := h.unsent t hactive hsent
    have hsole : ∀ d, (update calls c (if mock.backendOps.cancel.isSome then x else y) d).cancelling = true →
        d = c := by
      intro d hd
      by_contra hdc
      rw [update_of_ne hdc,hcalls d] at hd
      cases hd
    rw [he]
    refine ⟨h.backend,?_,?_,?_,?_,h.fresh,h.history⟩
    · intro d session target ops context hd
      obtain rfl := hsole d (by rw [hd]; rfl)
      rw [update_self] at hd
      split at hd
      · exact hx session target ops context hd
      · rw [hd] at hy
        cases hy
    · exact fun d hd => ⟨rfl,t,hactive,hzero⟩
    · exact fun d e hd he => (hsole d hd).trans (hsole e he).symm
    · exact nofun

theorem deliver (h : CancelValid mock tasks count calls log) {c t : ℕ} {x : Call}
    (hc : (calls c).cancelling = true) (hx : x.cancelling = false) (hactive : mock.activeTask = some t)
    {entry : CancelRun} (hentry : Delivered entry) (htask : entry.activeTask = some t)
    (hlt : ∀ u, mock.activeTask = some u → u < count) :
    CancelValid mock tasks count (update calls c x) (.cancel entry :: log) := by
  obtain ⟨hsent,u,hu,hzero⟩ := h.pending c hc
  obtain rfl : t = u := Option.some.inj (hactive.symm.trans hu)
  have hcalls : ∀ d, (update calls c x d).cancelling = false := by
    intro d
    by_cases hd : d = c
    · rw [hd,update_self,hx]
    · rw [update_of_ne hd]
      cases hcan : (calls d).cancelling with
      | false => rfl
      | true => exact absurd (h.sole d c hcan hc) hd
  have hother : ∀ v, v ≠ t → cancelCount (.cancel entry :: log) v = cancelCount log v := by
    intro v hv
    exact List.countP_cons_of_neg (by simp [Note.cancels,Note.cancelRun?,htask,hv.symm])
  have hmine : cancelCount (.cancel entry :: log) t = 1 := by
    have hp : Note.cancels t (.cancel entry) = true := by simp [Note.cancels,Note.cancelRun?,htask]
    rw [show cancelCount (.cancel entry :: log) t = cancelCount log t + 1 from List.countP_cons_of_pos hp,hzero]
  refine ofQuiet hcalls h.backend ?_ ?_ ⟨?_,?_⟩
  · intro v _ hs
    rw [hsent] at hs
    cases hs
  · intro v hv
    have := hlt t hactive
    rw [hother v (by omega)]
    exact h.fresh v hv
  · intro run hm
    rcases List.mem_cons.mp hm with hm | hm
    · cases hm
      exact hentry
    · exact h.history.delivered run hm
  · intro v
    by_cases hv : v = t
    · rw [hv,hmine]
    · rw [hother v hv]
      exact h.history.once v

end CancelValid

theorem rejected_target {m m' : Mock} {argument delivered : Option Exchange} {clock : Option Timespec}
    {errorNumber : ℤ} (h : qcpuPrevalidateExchangeLocked m argument clock = .rejected m' delivered errorNumber) :
    SameTarget m m' := by
  obtain ⟨status,base,-,hbase,rfl,-⟩ := prevalidate_rejects m argument clock _ _ _ h
  rcases hbase with rfl | ⟨rfl,-⟩ <;> exact ⟨rfl,rfl,rfl,rfl⟩

theorem active_none {s : System} (hs : Valid s) (hbusy : s.mock.busy = false) : s.mock.activeTask = none := by
  have := hs.mock.busy_iff_active
  simpa [hbusy] using this

theorem freed_not_cancelling {s : System} (hcloser : ∀ c, (s.calls c).closeCancels = false)
    (hnone : ∀ c a u, s.calls c ≠ .exchangeCancel a u) (c : ℕ) : (s.calls c).cancelling = false := by
  cases hc : s.calls c with
  | exchangeCancel a u => exact absurd hc (hnone c a u)
  | closeCancel session target ops context =>
    have := hcloser c
    rw [hc] at this
    cases this
  | _ => rfl

theorem step_cancelValid {s t : System} {e : Event} (hs : Valid s)
    (h : CancelValid s.mock s.tasks s.taskCount s.calls s.log) (hfirst : CancelsFirst s e)
    (he : step s e = some t) : CancelValid t.mock t.tasks t.taskCount t.calls t.log := by
  cases step_move he with
  | plain hidle hx => exact h.setCall (Call.cancelling_of_plain hx)
  | stay => exact h
  | @setBackend call ops context name mock hidle hset =>
    obtain ⟨hbusy,_,_,_,_,_,rfl⟩ := setBackend_eq hset
    have hnone := active_none hs hbusy
    refine CancelValid.note (CancelValid.setCall ?_ rfl) (.backendSet call) rfl
    refine h.free ?_ (h.not_cancelling hnone) s.tasks
    exact hnone
  | @opened call outcome mock hidle hopen =>
    obtain ⟨-,descriptor,rfl⟩ := open_eq hopen
    exact ((h.setCall rfl).note (.opened call) rfl).same ⟨rfl,rfl,rfl,rfl⟩
  | rejected hidle hpre => exact (h.setCall rfl).same (rejected_target hpre)
  | @failedLocally call argument dispatch exchange deadline mock errorNumber hidle hpre hmock hlocal =>
    obtain ⟨-,hbusy,-⟩ := prevalidate_accepted hpre
    have hnone := active_none hs hbusy
    have hnone' : mock.activeTask = none := by rcases hmock with rfl | rfl <;> first | exact hnone | rfl
    refine CancelValid.note (CancelValid.note (CancelValid.setCall ?_ rfl) (.validated call) rfl)
      (.answered call false) rfl
    refine h.free ?_ (h.not_cancelling hnone) s.tasks
    exact hnone'
  | @dispatched call argument dispatch exchange deadline hidle hpre =>
    obtain ⟨-,hbusy,-⟩ := prevalidate_accepted hpre
    refine CancelValid.note ?_ (.validated call) rfl
    exact h.dispatch (active_none hs hbusy) rfl rfl rfl
  | callbackEnter hw => exact h.setTask rfl rfl
  | @callbackReturn task result response hw =>
    refine CancelValid.note ?_ (.callback task (s.tasks task).request result response) rfl
    exact h.setTask rfl rfl
  | @workerFinish task result hw =>
    have hactive := hs.owner.running task (by simp [hw]) (by simp [hw])
    cases hab : (s.tasks task).callerAbandoned with
    | true =>
      have hcalls := freed_not_cancelling (hfirst (Or.inr ⟨task,rfl,hab⟩)) (fun c a u hc => by
        obtain ⟨ha,-,hb⟩ := hs.owner.caller c u (by rw [hc]; rfl)
        obtain rfl : u = task := Option.some.inj (ha.symm.trans hactive)
        rw [hab] at hb
        cases hb)
      simp only [workerSection,hab,hactive,beq_self_eq_true,Bool.and_self,↓reduceIte]
      exact h.free rfl hcalls _
    | false =>
      simp only [workerSection,hab,Bool.false_and,Bool.false_eq_true,↓reduceIte]
      exact h.setTask rfl rfl
  | @expired call task argument waitResult hc =>
    have hactive := (hs.owner.caller call task (by rw [hc]; rfl)).1
    refine h.request hactive (hs.mock.busy_iff_active.mpr (by rw [hactive]; rfl)) rfl ?_
    intro session target ops context hclose
    cases hclose
  | woken hc hdone => exact h.setCall rfl
  | @cancelByExchange call task argument hc =>
    have hactive := (hs.owner.caller call task (by rw [hc]; rfl)).1
    have hbusy := hs.mock.busy_iff_active.mpr (by rw [hactive]; rfl)
    obtain ⟨hops,hcontext⟩ := h.backend task hactive
    exact h.deliver (by rw [hc]; rfl) rfl hactive ⟨hbusy,⟨rfl,hactive⟩,hops,hcontext⟩ hactive hs.owner.active_lt
  | @cancelByClose call session target ops context hc =>
    obtain ⟨hsent,task,hactive,-⟩ := h.pending call (by rw [hc]; rfl)
    have hbusy := hs.mock.cancel_busy hsent
    obtain ⟨rfl,rfl,rfl⟩ := h.closer call session target ops context hc
    exact h.deliver (by rw [hc]; rfl) rfl hactive ⟨hbusy,⟨by rw [cancelRun,hactive]; rfl,rfl⟩,rfl,rfl⟩ hactive
      hs.owner.active_lt
  | grace hc => exact h.setCall rfl
  | @abandoned _ call task argument hev hc hdone =>
    have hset := h.setTask (t := task) (r := { s.tasks task with
      callerAbandoned := true, references := (s.tasks task).references - 1 }) rfl rfl
    refine CancelValid.note (CancelValid.setCall ?_ rfl) (.answered call false) rfl
    exact hset.same ⟨rfl,rfl,rfl,rfl⟩
  | @finished _ call task argument timedOut hover =>
    obtain ⟨hactive,howner,-⟩ := hs.owner.caller call task hover.task
    have hcalls := freed_not_cancelling (hfirst (Or.inl ⟨call,argument,task,timedOut,hover⟩)) (fun c a u hcancel => by
      obtain ⟨ha,ho,-⟩ := hs.owner.caller c u (by rw [hcancel]; rfl)
      obtain rfl : u = task := Option.some.inj (ha.symm.trans hactive)
      obtain rfl : call = c := howner.symm.trans ho
      cases hover with
      | relock hc hdone => rw [hcancel] at hc; cases hc
      | grace hc hdone => rw [hcancel] at hc; cases hc)
    unfold finishSection
    simp only []
    split
    · exact ((h.free rfl hcalls _).setCall rfl).note (.answered call false) rfl
    · exact ((h.free rfl hcalls _).setCall rfl).note (.answered call true) rfl
  | @closeRequested call release hidle hopen hbusy =>
    obtain ⟨task,hactive⟩ := Option.isSome_iff_exists.mp (hs.mock.busy_iff_active.mp hbusy)
    refine h.request hactive hbusy rfl ?_
    rintro session target ops context ⟨⟩
    exact ⟨rfl,rfl,rfl⟩
  | @closed _ call session release hc hbusy =>
    have hsame : SameTarget s.mock (endSession s.mock release).1 := by
      rw [endSession_mock]
      exact ⟨rfl,rfl,rfl,rfl⟩
    exact ((h.setCall rfl).note (.closed call session _ _) rfl).same hsame
  | @destroyed call condResult mutexResult hidle hopen hbusy =>
    exact (h.setCall rfl).note (.destroyed call) rfl
  | destroyedPartly hidle => exact h.setCall rfl

/-- In every run that never frees the frontend between a close's decision to cancel and
its callback, each cancel callback reaches the exchange it was requested for, on the
attached backend, and no exchange receives two. -/
theorem cancels_delivered {config : MockConfig} {mock : Mock} (events : List Event) {s : System}
    (hcreate : qcpuMockCreate none config = .ok mock)
    (hfirst : Transition.Meets step CancelsFirst (System.initial mock) events)
    (hr : Transition.run step (System.initial mock) events = some s) : CancelsDelivered s.log := by
  have hnone := (create_fresh hcreate).active
  have hinitial : CancelValid mock (fun _ => {}) 0 (fun _ => .idle) [] := by
    refine CancelValid.ofQuiet (fun _ => rfl) ?_ (fun _ _ _ => rfl) (fun _ _ => rfl) ⟨nofun,fun _ => Nat.zero_le _⟩
    intro t ha
    rw [hnone] at ha
    cases ha
  have hI := Transition.run_invariant_of_meets
    (I := fun s => Valid s ∧ CancelValid s.mock s.tasks s.taskCount s.calls s.log)
    (fun _ _ _ hs hc he => ⟨step_valid hs.1 he,step_cancelValid hs.1 hs.2 hc he⟩)
    ⟨valid_initial hcreate,hinitial⟩ hfirst hr
  exact hI.2.history

/-- A close decides to cancel the exchange in flight; the exchange ends before the callback runs. -/
def lateCancel : List Event :=
  sampleRun ++ [.mockClose 2 {}, .callbackReturn 0 0 sampleResponse, .workerFinish 0, .wake 1 0, .relock 1 none]

/-- The cancellation decided for the first exchange reaches the backend during the
second one, or after the backend was replaced. -/
theorem late_cancel_misdelivered :
    (∃ s entry, Reachable s ∧ Note.cancel entry ∈ s.log ∧ entry.target = some 0 ∧ entry.activeTask = some 1 ∧
      ¬ CancelsDelivered s.log) ∧
    (∃ s entry, Reachable s ∧ Note.cancel entry ∈ s.log ∧ entry.ops ≠ entry.currentOps ∧
      ¬ CancelsDelivered s.log) := by
  constructor
  · refine ⟨_,_,⟨sampleConfig,_,lateCancel ++ [.exchange 3 (some sampleExchange) sampleDispatch, .runCancel 2],
      rfl,rfl⟩,List.mem_cons_self,rfl,rfl,?_⟩
    intro h
    have := (h.delivered _ List.mem_cons_self).active.2
    cases this
  · refine ⟨_,_,⟨sampleConfig,_,lateCancel ++ [.setBackend 3 (some ⟨some 1,some 1⟩) none none, .runCancel 2],
      rfl,rfl⟩,List.mem_cons_self,by decide,?_⟩
    intro h
    have := (h.delivered _ List.mem_cons_self).busy
    cases this

def sampleCancel : List Event := sampleRun ++ [.mockClose 2 {}, .runCancel 2]

theorem cancels_delivered_waiting :
    ∃ s, Reachable s ∧ cancelCount s.log 0 = 1 ∧ CancelsDelivered s.log := by
  have hcreate : qcpuMockCreate none sampleConfig = .ok _ := rfl
  have hquiet : ∀ {s : System} {e : Event}, ¬ FreesFrontend s e → CancelsFirst s e := fun h hf => absurd hf h
  refine ⟨_,⟨sampleConfig,_,sampleCancel,rfl,rfl⟩,rfl,cancels_delivered sampleCancel hcreate ?_ rfl⟩
  refine .cons (hquiet ?_) rfl (.cons (hquiet ?_) rfl (.cons (hquiet ?_) rfl (.cons (hquiet ?_) rfl
    (.cons (hquiet ?_) rfl trivial)))) <;>
  · rintro (⟨_,_,_,_,⟨⟩⟩ | ⟨_,⟨⟩,_⟩)

end QbitNova.Frontend
