import QbitNova.Device.FrontendContract

/-! # No exchange sees another exchange's callback

Every dispatched task has one caller and every caller at most one task, so a response
that is delivered was written for the caller it is delivered to. Once a deadline wait
has expired, its caller can only leave with a timeout: what the late callback reports
stays in its own task. The last part compares two runs that differ in nothing but that
report.
-/
namespace QbitNova.Frontend
open Function (update update_self update_of_ne)

/-- The task holds exactly what this callback was given and reported. -/
def Wrote (record : Task) (request : Request) (result : ℤ) (response : Response) : Prop :=
  request = record.request ∧ response = record.response ∧
    (record.worker = .returned result ∨ (record.worker = .finished ∧ record.backendResult = result))

/-- Tasks and callers are matched one to one, and each callback ran once. -/
structure Isolated (tasks : ℕ → Task) (calls : ℕ → Call) (log : List Note) : Prop where
  started : ∀ t, (tasks t).worker ≠ .absent → calls (tasks t).owner ≠ .idle
  single : ∀ t u, (tasks t).worker ≠ .absent → (tasks u).worker ≠ .absent →
    (tasks t).owner = (tasks u).owner → t = u
  written : ∀ t request result response, Note.callback t request result response ∈ log →
    Wrote (tasks t) request result response

namespace Isolated
variable {tasks : ℕ → Task} {calls : ℕ → Call} {log log' : List Note}

/-- A call moves on and no callback reports. -/
theorem setCall (h : Isolated tasks calls log) {c : ℕ} {x : Call} (hx : x ≠ .idle)
    (hl : ∀ t request result response, Note.callback t request result response ∈ log' →
      Note.callback t request result response ∈ log) :
    Isolated tasks (update calls c x) log' := by
  refine ⟨?_,h.single,fun t request result response hn => h.written _ _ _ _ (hl _ _ _ _ hn)⟩
  intro t ht
  by_cases hc : (tasks t).owner = c
  · rw [hc,update_self]
    exact hx
  · rw [update_of_ne hc]
    exact h.started t ht

theorem setTask (h : Isolated tasks calls log) {t : ℕ} {record : Task} (howner : record.owner = (tasks t).owner)
    (hworker : (tasks t).worker ≠ .absent)
    (hwritten : ∀ request result response, Note.callback t request result response ∈ log' →
      Wrote record request result response)
    (hl : ∀ u request result response, u ≠ t → Note.callback u request result response ∈ log' →
      Note.callback u request result response ∈ log) :
    Isolated (update tasks t record) calls log' := by
  have hkept : ∀ u, (update tasks t record u).owner = (tasks u).owner ∧
      ((update tasks t record u).worker ≠ .absent → (tasks u).worker ≠ .absent) := by
    intro u
    by_cases hu : u = t
    · subst hu
      rw [update_self]
      exact ⟨howner,fun _ => hworker⟩
    · rw [update_of_ne hu]
      exact ⟨rfl,id⟩
  refine ⟨?_,?_,?_⟩
  · intro u hu
    rw [(hkept u).1]
    exact h.started u ((hkept u).2 hu)
  · intro u v hu hv huv
    rw [(hkept u).1,(hkept v).1] at huv
    exact h.single u v ((hkept u).2 hu) ((hkept v).2 hv) huv
  · intro u request result response hn
    by_cases hu : u = t
    · subst hu
      rw [update_self]
      exact hwritten _ _ _ hn
    · rw [update_of_ne hu]
      exact h.written _ _ _ _ (hl _ _ _ _ hu hn)

theorem dispatch (h : Isolated tasks calls log) {c n : ℕ} {record : Task} {x : Call} (hidle : calls c = .idle)
    (hfresh : (tasks n).worker = .absent) (howner : record.owner = c) (hx : x ≠ .idle)
    (hl : ∀ t request result response, Note.callback t request result response ∈ log' →
      Note.callback t request result response ∈ log) :
    Isolated (update tasks n record) (update calls c x) log' := by
  have hother : ∀ u, (tasks u).worker ≠ .absent → (tasks u).owner ≠ c := by
    intro u hu hc
    exact h.started u hu (by rw [hc,hidle])
  refine ⟨?_,?_,?_⟩
  · intro t ht
    by_cases htn : t = n
    · rw [htn,update_self,howner,update_self]
      exact hx
    · rw [update_of_ne htn] at ht ⊢
      rw [update_of_ne (hother t ht)]
      exact h.started t ht
  · intro t u ht hu htu
    by_cases htn : t = n <;> by_cases hun : u = n
    · rw [htn,hun]
    · rw [update_of_ne hun] at hu htu
      rw [htn,update_self,howner] at htu
      exact absurd htu.symm (hother u hu)
    · rw [update_of_ne htn] at ht htu
      rw [hun,update_self,howner] at htu
      exact absurd htu (hother t ht)
    · rw [update_of_ne htn] at ht htu
      rw [update_of_ne hun] at hu htu
      exact h.single t u ht hu htu
  · intro t request result response hn
    have hw := h.written _ _ _ _ (hl _ _ _ _ hn)
    by_cases htn : t = n
    · subst htn
      obtain ⟨-,-,hw | ⟨hw,-⟩⟩ := hw <;> rw [hfresh] at hw <;> cases hw
    · rwa [update_of_ne htn]

end Isolated

theorem Contracted.bound {tasks : ℕ → Task} {calls : ℕ → Call} {log : List Note} (h : Contracted tasks calls log)
    {call task : ℕ} (hc : (calls call).task? = some task) :
    ∃ argument, Bound tasks call argument task := by
  have hv := h.calls call
  cases hcall : calls call with
  | exchangeWait argument t | exchangeCancel argument t | exchangeRelock argument t timedOut
  | exchangeGrace argument t =>
    rw [hcall] at hv hc
    cases hc
    exact ⟨argument,hv⟩
  | _ =>
    rw [hcall] at hc
    cases hc

theorem step_isolated {s t : System} {e : Event} (hs : Valid s) (hcon : Contracted s.tasks s.calls s.log)
    (h : Isolated s.tasks s.calls s.log) (he : step s e = some t) : Isolated t.tasks t.calls t.log := by
  have hleave : ∀ {call task : ℕ} {record : Task} {answer : ExchangeReturn} {success : Bool},
      (s.calls call).task? = some task → record.owner = (s.tasks task).owner →
      (∀ request result response, Wrote (s.tasks task) request result response →
        Wrote record request result response) →
      Isolated (update s.tasks task record) (update s.calls call (.exchangeReturned answer))
        (.answered call success :: s.log) := by
    intro call task record answer success hc howner hwrote
    obtain ⟨-,hw,-⟩ := hcon.bound hc
    have hkeep : Isolated (update s.tasks task record) s.calls s.log :=
      h.setTask howner hw (fun _ _ _ hn => hwrote _ _ _ (h.written _ _ _ _ hn)) (fun _ _ _ _ _ hn => hn)
    exact hkeep.setCall (by simp) (by simp)
  cases step_move he with
  | plain hidle hx => exact h.setCall (by rintro rfl; cases hx) (fun _ _ _ _ hn => hn)
  | stay => exact h
  | setBackend hidle hset => exact h.setCall (by simp) (by simp)
  | opened hidle hopen => exact h.setCall (by simp) (by simp)
  | rejected hidle hpre => exact h.setCall (by simp) (fun _ _ _ _ hn => hn)
  | failedLocally hidle hpre hmock hlocal => exact h.setCall (by simp) (by simp [failLocally])
  | dispatched hidle hpre =>
    exact h.dispatch hidle (hs.owner.fresh s.taskCount (Nat.le_refl _)) rfl (by simp)
      (by simp [dispatchTask])
  | @callbackEnter task hw =>
    refine h.setTask rfl (by simp [hw]) ?_ (fun _ _ _ _ _ hn => hn)
    intro request result response hn
    obtain ⟨-,-,hold | ⟨hold,-⟩⟩ := h.written _ _ _ _ hn <;> rw [hw] at hold <;> cases hold
  | @callbackReturn task result response hw =>
    refine h.setTask rfl (by simp [hw]) ?_ ?_
    · intro request r p hn
      rcases List.mem_cons.mp hn with heq | hn
      · cases heq
        exact ⟨rfl,rfl,Or.inl rfl⟩
      · obtain ⟨-,-,hold | ⟨hold,-⟩⟩ := h.written _ _ _ _ hn <;> rw [hw] at hold <;> cases hold
    · intro u request r p hu hn
      refine (List.mem_cons.mp hn).resolve_left ?_
      rintro ⟨⟩
      exact hu rfl
  | @workerFinish task result hw =>
    refine h.setTask rfl (by simp [hw]) ?_ (fun _ _ _ _ _ hn => hn)
    intro request r response hn
    obtain ⟨hq,hp,hold | ⟨hold,-⟩⟩ := h.written _ _ _ _ hn
    · rw [hw] at hold
      cases hold
      exact ⟨hq,hp,Or.inr ⟨rfl,rfl⟩⟩
    · rw [hw] at hold
      cases hold
  | expired hc => exact h.setCall (by split <;> simp) (fun _ _ _ _ hn => hn)
  | woken hc hdone => exact h.setCall (by simp) (fun _ _ _ _ hn => hn)
  | cancelByExchange hc => exact h.setCall (by simp) (by simp)
  | cancelByClose hc => exact h.setCall (by simp) (by simp)
  | grace hc => exact h.setCall (by simp) (fun _ _ _ _ hn => hn)
  | @abandoned _ call task argument hev hc hdone =>
    have htask : (s.calls call).task? = some task := by rcases hc with hc | hc <;> rw [hc] <;> rfl
    exact hleave htask rfl (fun _ _ _ hw => hw)
  | @finished _ call task argument timedOut hover =>
    unfold finishSection
    simp only []
    split
    · exact hleave hover.task rfl (fun _ _ _ hw => hw)
    · exact hleave hover.task rfl (fun _ _ _ hw => hw)
  | closeRequested hidle hopen hbusy => exact h.setCall (by split <;> simp) (fun _ _ _ _ hn => hn)
  | closed hc hbusy => exact h.setCall (by simp) (by simp [endSection])
  | destroyed hidle hopen hbusy => exact h.setCall (by simp) (by simp)
  | destroyedPartly hidle => exact h.setCall (by simp) (fun _ _ _ _ hn => hn)

/-- Everything that is known in a state between two sections. -/
structure Sound (s : System) : Prop where
  valid : Valid s
  contracted : Contracted s.tasks s.calls s.log
  isolated : Isolated s.tasks s.calls s.log

theorem step_sound {s t : System} {e : Event} (h : Sound s) (he : step s e = some t) : Sound t :=
  ⟨step_valid h.valid he,step_contracted h.valid h.contracted he,
    step_isolated h.valid h.contracted h.isolated he⟩

theorem run_sound {s t : System} {events : List Event} (h : Sound s)
    (hr : Transition.run step s events = some t) : Sound t :=
  Transition.run_invariant (fun _ _ _ => step_sound) h hr

theorem reachable_sound {s : System} (h : Reachable s) : Sound s := by
  obtain ⟨config,mock,events,hcreate,hr⟩ := h
  refine run_sound ⟨valid_initial hcreate,⟨fun _ => trivial,fun _ => ⟨by simp [System.initial],
    by simp [System.initial]⟩⟩,?_⟩ hr
  exact ⟨by simp [System.initial],by simp [System.initial],by simp [System.initial]⟩

/-- The deadline wait of the task's caller has expired. -/
def Expired (s : System) (task : ℕ) : Prop :=
  (s.tasks task).callerAbandoned = true ∨ ∃ argument,
    s.calls (s.tasks task).owner = .exchangeCancel argument task ∨
    s.calls (s.tasks task).owner = .exchangeRelock argument task true ∨
    s.calls (s.tasks task).owner = .exchangeGrace argument task

/-- A caller on its way out with a timeout, or returned without a response. -/
def Call.gaveUp : Call → Bool
  | .exchangeCancel _ _ => true
  | .exchangeRelock _ _ timedOut => timedOut
  | .exchangeGrace _ _ => true
  | .exchangeReturned answer => !answer.result.isOk
  | _ => false

/-- Nobody will take the response of this task any more. -/
def Lost (s : System) (task : ℕ) : Prop :=
  (s.tasks task).worker ≠ .absent ∧ (s.calls (s.tasks task).owner).gaveUp = true

/-- A call that gave up stays on its way out. -/
theorem step_gaveUp {s t : System} {e : Event} (he : step s e = some t) {c : ℕ}
    (h : (s.calls c).gaveUp = true) : (t.calls c).gaveUp = true := by
  have hset : ∀ {d : ℕ} {x : Call}, (d = c → x.gaveUp = true) → (update s.calls d x c).gaveUp = true := by
    intro d x hx
    by_cases hd : c = d
    · subst hd
      rw [update_self]
      exact hx rfl
    · rwa [update_of_ne hd]
  have hidles : ∀ {d : ℕ} {x : Call}, s.calls d = .idle → (update s.calls d x c).gaveUp = true := by
    intro d x hidle
    refine hset ?_
    rintro rfl
    rw [hidle] at h
    cases h
  cases step_move he with
  | plain hidle hx => exact hidles hidle
  | stay | callbackEnter hw | callbackReturn hw | workerFinish hw => exact h
  | setBackend hidle hmock | opened hidle hmock | rejected hidle hpre | dispatched hidle hpre => exact hidles hidle
  | failedLocally hidle hpre hmock hlocal => exact hidles hidle
  | closeRequested hidle hopen hbusy | destroyed hidle hopen hbusy => exact hidles hidle
  | destroyedPartly hidle => exact hidles hidle
  | expired hc =>
    refine hset fun _ => ?_
    split <;> rfl
  | woken hc hdone =>
    refine hset ?_
    rintro rfl
    rw [hc] at h
    cases h
  | cancelByExchange hc | grace hc => exact hset fun _ => rfl
  | cancelByClose hc =>
    refine hset ?_
    rintro rfl
    rw [hc] at h
    cases h
  | abandoned hev hc hdone => exact hset fun _ => rfl
  | @finished _ call task argument timedOut hover =>
    unfold finishSection
    simp only []
    split
    · exact hset fun _ => rfl
    next response hout =>
      refine hset ?_
      rintro rfl
      have htimed : timedOut = true := by
        cases hover with
        | relock hc hdone =>
          rw [hc] at h
          exact h
        | grace hc hdone => rfl
      rw [htimed] at hout
      cases hout
  | closed hc hbusy =>
    refine hset ?_
    rintro rfl
    rcases hc with ⟨-,hidle,-⟩ | ⟨-,hwait⟩
    · rw [hidle] at h
      cases h
    · rw [hwait] at h
      cases h

theorem finishSection_tasks (s : System) (call : ℕ) (argument : Option Exchange) (task : ℕ) (timedOut : Bool) :
    (finishSection s call argument task timedOut).tasks =
      update s.tasks task { s.tasks task with references := (s.tasks task).references - 1 } := by
  unfold finishSection
  simp only []
  split <;> rfl

/-- One step keeps the caller and the request of every dispatched task, and only a
caller that gives up marks its task as abandoned. -/
theorem step_tasks {s t : System} {e : Event} (hs : Valid s) (he : step s e = some t) (u : ℕ) :
    Continues (s.tasks u) (t.tasks u) ∧
      ((t.tasks u).callerAbandoned = true → (s.tasks u).callerAbandoned = true ∨
        ((s.calls (s.tasks u).owner).task? = some u ∧ (t.calls (s.tasks u).owner).gaveUp = true)) := by
  have hsame : Continues (s.tasks u) (s.tasks u) ∧ ((s.tasks u).callerAbandoned = true →
      (s.tasks u).callerAbandoned = true ∨
        ((s.calls (s.tasks u).owner).task? = some u ∧ (t.calls (s.tasks u).owner).gaveUp = true)) :=
    ⟨Continues.refl _,Or.inl⟩
  have hset : ∀ {v : ℕ} {record : Task}, Continues (s.tasks v) record →
      (record.callerAbandoned = true → (s.tasks v).callerAbandoned = true ∨
        ((s.calls (s.tasks v).owner).task? = some v ∧ (t.calls (s.tasks v).owner).gaveUp = true)) →
      Continues (s.tasks u) (update s.tasks v record u) ∧
      ((update s.tasks v record u).callerAbandoned = true → (s.tasks u).callerAbandoned = true ∨
        ((s.calls (s.tasks u).owner).task? = some u ∧ (t.calls (s.tasks u).owner).gaveUp = true)) := by
    intro v record hcont habandoned
    by_cases hu : u = v
    · subst hu
      rw [update_self]
      exact ⟨hcont,habandoned⟩
    · rw [update_of_ne hu]
      exact hsame
  cases step_move he with
  | dispatched hidle hpre =>
    refine hset ?_ (by simp)
    exact fun hw => absurd (hs.owner.fresh s.taskCount (Nat.le_refl _)) hw
  | callbackEnter hw => exact hset (fun _ => ⟨by simp,rfl,rfl⟩) Or.inl
  | callbackReturn hw => exact hset (fun _ => ⟨by simp,rfl,rfl⟩) Or.inl
  | workerFinish hw => exact hset (fun _ => ⟨by simp,rfl,rfl⟩) Or.inl
  | @abandoned _ call task argument hev hc hdone =>
    have htask : (s.calls call).task? = some task := by rcases hc with hc | hc <;> rw [hc] <;> rfl
    have howner := (hs.owner.caller call task htask).2.1
    refine hset (fun hw => ⟨hw,rfl,rfl⟩) fun _ => Or.inr ?_
    rw [howner]
    refine ⟨htask,?_⟩
    simp only [abandonSection,update_self]
    rfl
  | finished hover =>
    rw [finishSection_tasks]
    exact hset (fun hw => ⟨hw,rfl,rfl⟩) Or.inl
  | _ => exact hsame

theorem step_lost {s t : System} {e : Event} (hs : Valid s) (he : step s e = some t) {task : ℕ}
    (h : Lost s task) : Lost t task := by
  obtain ⟨hw,howner,-⟩ := (step_tasks hs he task).1 h.1
  refine ⟨hw,?_⟩
  rw [howner]
  exact step_gaveUp he h.2

theorem step_abandoned {s t : System} {e : Event} (hs : Sound s) (he : step s e = some t)
    (h : ∀ u, (s.tasks u).callerAbandoned = true → Lost s u) (u : ℕ)
    (hu : (t.tasks u).callerAbandoned = true) : Lost t u := by
  obtain ⟨hcont,hnew⟩ := step_tasks hs.valid he u
  rcases hnew hu with hold | ⟨htask,hgone⟩
  · exact step_lost hs.valid he (h u hold)
  · obtain ⟨-,hw,-⟩ := hs.contracted.bound htask
    obtain ⟨hw',howner,-⟩ := hcont hw
    exact ⟨hw',by rwa [howner]⟩

theorem reachable_abandoned {s : System} (h : Reachable s) :
    ∀ u, (s.tasks u).callerAbandoned = true → Lost s u := by
  obtain ⟨config,mock,events,hcreate,hr⟩ := h
  have hI := Transition.run_invariant
    (I := fun s => Sound s ∧ ∀ u, (s.tasks u).callerAbandoned = true → Lost s u)
    (fun _ _ _ hs he => ⟨step_sound hs.1 he,step_abandoned hs.1 he hs.2⟩)
    ⟨reachable_sound ⟨config,mock,[],hcreate,rfl⟩,by simp [System.initial]⟩ hr
  exact hI.2

theorem Expired.lost {s : System} (hs : Reachable s) {task : ℕ} (h : Expired s task) : Lost s task := by
  rcases h with h | ⟨argument,hc⟩
  · exact reachable_abandoned hs task h
  · have htask : (s.calls (s.tasks task).owner).task? = some task := by
      rcases hc with hc | hc | hc <;> rw [hc] <;> rfl
    obtain ⟨-,hw,-⟩ := (reachable_sound hs).contracted.bound htask
    refine ⟨hw,?_⟩
    rcases hc with hc | hc | hc <;> rw [hc] <;> rfl

theorem run_lost {s t : System} {events : List Event} (hs : Sound s) {task : ℕ} (h : Lost s task)
    (hr : Transition.run step s events = some t) : Lost t task :=
  (Transition.run_invariant (I := fun s => Sound s ∧ Lost s task)
    (fun _ _ _ hs he => ⟨step_sound hs.1 he,step_lost hs.1.valid he hs.2⟩) ⟨hs,h⟩ hr).2

theorem step_returned {s t : System} {e : Event} (he : step s e = some t) {c : ℕ} {answer : ExchangeReturn}
    (h : s.calls c = .exchangeReturned answer) : t.calls c = .exchangeReturned answer := by
  have hset : ∀ {d : ℕ} {x : Call}, (∀ r, s.calls d ≠ .exchangeReturned r) →
      update s.calls d x c = .exchangeReturned answer := by
    intro d x hd
    rw [update_of_ne (by rintro rfl; exact hd answer h)]
    exact h
  cases step_move he with
  | stay | callbackEnter hw | callbackReturn hw | workerFinish hw => exact h
  | plain hc hx | setBackend hc hmock | opened hc hmock | rejected hc hpre | dispatched hc hpre
  | expired hc | woken hc hdone | cancelByExchange hc | cancelByClose hc | grace hc | destroyedPartly hc =>
    exact hset (by simp [hc])
  | failedLocally hc hpre hmock hlocal => exact hset (by simp [hc])
  | closeRequested hc hopen hbusy | destroyed hc hopen hbusy => exact hset (by simp [hc])
  | abandoned hev hc hdone => exact hset (by rcases hc with hc | hc <;> simp [hc])
  | finished hover =>
    have htask := hover.task
    unfold finishSection
    simp only []
    split <;>
    · refine hset fun r hr => ?_
      rw [hr] at htask
      cases htask
  | closed hc hbusy => exact hset (by rcases hc with ⟨-,hc,-⟩ | ⟨-,hc⟩ <;> simp [hc])

theorem run_returned {s t : System} {events : List Event} (hr : Transition.run step s events = some t) {c : ℕ}
    {answer : ExchangeReturn} (h : s.calls c = .exchangeReturned answer) :
    t.calls c = .exchangeReturned answer :=
  Transition.run_invariant (I := fun s => s.calls c = .exchangeReturned answer)
    (fun _ _ _ hs he => step_returned he hs) h hr

end QbitNova.Frontend
