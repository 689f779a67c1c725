import QbitNova.Device.FrontendContract

/-! # The request counters account for every validated exchange

The history records each exchange that passes the pre-dispatch checks and each
result given to one. The two counters are the numbers of results, and the history
balances with the one exchange whose caller is still waiting. Late completions and
every call that is not an exchange leave the books alone.
-/
namespace QbitNova.Frontend
open Function (update update_self update_of_ne)

def Note.isValidated : Note → Bool
  | .validated _ => true
  | _ => false

def Note.isAnswered (success : Bool) : Note → Bool
  | .answered _ given => given == success
  | _ => false

def validatedCount (log : List Note) : ℕ := log.countP Note.isValidated
def answeredCount (success : Bool) (log : List Note) : ℕ := log.countP (Note.isAnswered success)

/-- One if an exchange is active whose caller has not given it up. -/
def waiting (active : Option ℕ) (tasks : ℕ → Task) : ℕ :=
  match active with
  | none => 0
  | some task => if (tasks task).callerAbandoned then 0 else 1

/-- The books balance: `owed` validated exchanges have not been given a result. -/
structure Books (completed failed : UInt64) (owed : ℕ) (log : List Note) : Prop where
  balance : validatedCount log = answeredCount true log + answeredCount false log + owed
  completed : completed = UInt64.ofNat (answeredCount true log)
  failed : failed = UInt64.ofNat (answeredCount false log)

def Ledger (mock : Mock) (tasks : ℕ → Task) (log : List Note) : Prop :=
  Books mock.completedRequests mock.failedRequests (waiting mock.activeTask tasks) log

/-- The parts of the frontend that the accounting reads are unchanged. -/
structure SameBooks (before after : Mock) : Prop where
  active : after.activeTask = before.activeTask
  completed : after.completedRequests = before.completedRequests
  failed : after.failedRequests = before.failedRequests

theorem SameBooks.refl (mock : Mock) : SameBooks mock mock := ⟨rfl,rfl,rfl⟩

theorem setBackend_books {m m' : Mock} {ops : Option BackendOps} {context : Option ℕ}
    {name : Option CText.Bytes} (h : qcpuMockSetBackend m ops context name = .ok m') : SameBooks m m' := by
  obtain ⟨-,_,_,_,_,_,rfl⟩ := setBackend_eq h
  exact ⟨rfl,rfl,rfl⟩

theorem open_books {m m' : Mock} {outcome : OpenOutcome} (h : qcpuMockOpen m outcome = .ok m') :
    SameBooks m m' := by
  obtain ⟨-,_,rfl⟩ := open_eq h
  exact ⟨rfl,rfl,rfl⟩

theorem endSession_books (m : Mock) (release : ReleaseOutcome) : SameBooks m (endSession m release).1 := by
  rw [endSession_mock]
  exact ⟨rfl,rfl,rfl⟩

theorem requestCancel_books (m : Mock) : SameBooks m (qcpuRequestCancelLocked m).1 := by
  rcases requestCancel_eq m with h | ⟨-,h⟩ <;> rw [h] <;> exact ⟨rfl,rfl,rfl⟩

theorem rejected_books {m m' : Mock} {argument delivered : Option Exchange} {clock : Option Timespec}
    {errorNumber : ℤ} (h : qcpuPrevalidateExchangeLocked m argument clock = .rejected m' delivered errorNumber) :
    SameBooks m m' := by
  obtain ⟨status,base,-,hbase,rfl,-⟩ := prevalidate_rejects m argument clock _ _ _ h
  rcases hbase with rfl | ⟨rfl,-⟩ <;> exact ⟨rfl,rfl,rfl⟩

theorem waiting_update {active : Option ℕ} {tasks : ℕ → Task} {t : ℕ} {record : Task}
    (h : record.callerAbandoned = (tasks t).callerAbandoned) :
    waiting active (update tasks t record) = waiting active tasks := by
  cases active with
  | none => rfl
  | some u =>
    by_cases hu : u = t
    · subst hu
      simp only [waiting,update_self,h]
    · simp only [waiting,update_of_ne hu]

namespace Books
variable {completed failed : UInt64} {owed : ℕ} {log : List Note}

theorem initial : Books 0 0 0 [] := ⟨rfl,rfl,rfl⟩

theorem validate (h : Books completed failed owed log) (call : ℕ) :
    Books completed failed (owed + 1) (.validated call :: log) := by
  obtain ⟨hb,hc,hf⟩ := h
  refine ⟨?_,hc,hf⟩
  simp only [validatedCount,answeredCount,List.countP_cons,Note.isValidated,Note.isAnswered] at hb ⊢
  simp only [↓reduceIte,Bool.false_eq_true] at hb ⊢
  omega

theorem succeed (h : Books completed failed (owed + 1) log) (call : ℕ) :
    Books (completed + 1) failed owed (.answered call true :: log) := by
  obtain ⟨hb,hc,hf⟩ := h
  simp only [validatedCount,answeredCount] at hb hc hf
  refine ⟨?_,?_,?_⟩ <;>
    simp only [validatedCount,answeredCount,List.countP_cons,Note.isValidated,Note.isAnswered,beq_self_eq_true,
      Bool.true_beq,↓reduceIte,Bool.false_eq_true,Nat.add_zero]
  · omega
  · rw [hc,UInt64.ofNat_add]
    rfl
  · exact hf

theorem fail (h : Books completed failed (owed + 1) log) (call : ℕ) :
    Books completed (failed + 1) owed (.answered call false :: log) := by
  obtain ⟨hb,hc,hf⟩ := h
  simp only [validatedCount,answeredCount] at hb hc hf
  refine ⟨?_,?_,?_⟩ <;>
    simp only [validatedCount,answeredCount,List.countP_cons,Note.isValidated,Note.isAnswered,beq_self_eq_true,
      Bool.false_beq,Bool.not_true,↓reduceIte,Bool.false_eq_true,Nat.add_zero]
  · omega
  · exact hc
  · rw [hf,UInt64.ofNat_add]
    rfl

/-- Any other entry of the history is not accounted. -/
theorem note (h : Books completed failed owed log) {entry : Note} (hv : entry.isValidated = false)
    (ha : ∀ success, entry.isAnswered success = false) : Books completed failed owed (entry :: log) := by
  obtain ⟨hb,hc,hf⟩ := h
  refine ⟨?_,?_,?_⟩ <;> simpa only [validatedCount,answeredCount,List.countP_cons,hv,ha]

end Books

/-- A section that changes neither the counters nor who is waiting. -/
theorem Ledger.same {mock after : Mock} {tasks tasks' : ℕ → Task} {log : List Note} (h : Ledger mock tasks log)
    (hbooks : SameBooks mock after)
    (hwaiting : waiting mock.activeTask tasks' = waiting mock.activeTask tasks) : Ledger after tasks' log := by
  unfold Ledger
  rw [hbooks.completed,hbooks.failed,hbooks.active,hwaiting]
  exact h

theorem Ledger.note {mock after : Mock} {tasks tasks' : ℕ → Task} {log : List Note} (h : Ledger mock tasks log)
    (hbooks : SameBooks mock after) (hwaiting : waiting mock.activeTask tasks' = waiting mock.activeTask tasks)
    {entry : Note} (hv : entry.isValidated = false) (ha : ∀ success, entry.isAnswered success = false) :
    Ledger after tasks' (entry :: log) := Books.note (h.same hbooks hwaiting) hv ha

theorem waiting_caller {s : System} (hs : Valid s) {c t : ℕ} (hc : (s.calls c).task? = some t) :
    waiting s.mock.activeTask s.tasks = 1 := by
  obtain ⟨ha,-,hb⟩ := hs.owner.caller c t hc
  simp [waiting,ha,hb]

theorem waiting_free {s : System} (hs : Valid s) (hbusy : s.mock.busy = false) :
    s.mock.activeTask = none ∧ waiting s.mock.activeTask s.tasks = 0 := by
  have hn : s.mock.activeTask = none := by
    have := hs.mock.busy_iff_active
    simpa [hbusy] using this
  exact ⟨hn,by rw [hn]; rfl⟩

/-- One step keeps the books balanced. -/
theorem step_ledger {s t : System} {e : Event} (hs : Valid s) (h : Ledger s.mock s.tasks s.log)
    (he : step s e = some t) : Ledger t.mock t.tasks t.log := by
  cases step_move he with
  | plain hidle hx => exact h
  | stay => exact h
  | setBackend hidle hset => exact h.note (setBackend_books hset) rfl rfl (fun _ => rfl)
  | opened hidle hopen => exact h.note (open_books hopen) rfl rfl (fun _ => rfl)
  | rejected hidle hpre => exact h.same (rejected_books hpre) rfl
  | @failedLocally call argument dispatch exchange deadline mock errorNumber hidle hpre hmock hlocal =>
    obtain ⟨-,hbusy,-⟩ := prevalidate_accepted hpre
    obtain ⟨hnone,hzero⟩ := waiting_free hs hbusy
    unfold Ledger at h
    rw [hzero] at h
    rcases hmock with rfl | rfl
    · change Books _ (s.mock.failedRequests + 1) (waiting s.mock.activeTask s.tasks) _
      rw [hzero]
      exact (h.validate call).fail call
    · exact (h.validate call).fail call
  | @dispatched call argument dispatch exchange deadline hidle hpre =>
    obtain ⟨-,hbusy,-⟩ := prevalidate_accepted hpre
    obtain ⟨hnone,hzero⟩ := waiting_free hs hbusy
    unfold Ledger at h
    rw [hzero] at h
    have hone : waiting (dispatchTask s call argument exchange.request deadline).mock.activeTask
        (dispatchTask s call argument exchange.request deadline).tasks = 1 := by
      simp [waiting,dispatchTask,dispatchedMock]
    unfold Ledger
    rw [hone]
    exact h.validate call
  | callbackEnter hw => exact h.same (SameBooks.refl _) (waiting_update rfl)
  | callbackReturn hw =>
    refine h.note (SameBooks.refl _) (waiting_update ?_) ?_ ?_
    · rfl
    · rfl
    · exact fun _ => rfl
  | @workerFinish task result hw =>
    have hactive := hs.owner.running task (by simp [hw]) (by simp [hw])
    cases hab : (s.tasks task).callerAbandoned with
    | true =>
      have hzero : waiting s.mock.activeTask s.tasks = 0 := by simp [waiting,hactive,hab]
      unfold Ledger at h ⊢
      rw [hzero] at h
      simp only [workerSection,hab,hactive,beq_self_eq_true,Bool.and_self,↓reduceIte]
      exact h
    | false =>
      simp only [workerSection,hab,Bool.false_and,Bool.false_eq_true,↓reduceIte]
      exact h.same (SameBooks.refl _) (waiting_update hab.symm)
  | expired hc => exact h.same (requestCancel_books _) rfl
  | woken hc hdone => exact h
  | cancelByExchange hc => exact h.note (SameBooks.refl _) rfl rfl (fun _ => rfl)
  | cancelByClose hc => exact h.note (SameBooks.refl _) rfl rfl (fun _ => rfl)
  | grace hc => exact h
  | @abandoned _ call task argument hev hc hdone =>
    have htask : (s.calls call).task? = some task := by rcases hc with hc | hc <;> rw [hc] <;> rfl
    have hactive := (hs.owner.caller call task htask).1
    unfold Ledger at h
    rw [waiting_caller hs htask] at h
    have hzero : waiting (abandonSection s call argument task).mock.activeTask
        (abandonSection s call argument task).tasks = 0 := by
      simp [waiting,abandonSection,qcpuRecordResultLocked,hactive]
    unfold Ledger
    rw [hzero]
    exact h.fail call
  | @finished _ call task argument timedOut hover =>
    unfold Ledger at h
    rw [waiting_caller hs hover.task] at h
    unfold finishSection
    simp only []
    split
    · exact h.fail call
    · exact h.succeed call
  | closeRequested hidle hopen hbusy => exact h.same (requestCancel_books _) rfl
  | closed hc hbusy => exact h.note (endSession_books _ _) rfl rfl (fun _ => rfl)
  | destroyed hidle hopen hbusy => exact h.note (SameBooks.refl _) rfl rfl (fun _ => rfl)
  | destroyedPartly hidle => exact h

/-- How often the history records that a call was validated, succeeded and failed. -/
def tally (log : List Note) (call : ℕ) : ℕ × ℕ × ℕ :=
  (log.count (.validated call),log.count (.answered call true),log.count (.answered call false))

/-- The entries a call may have: none before validation and for other calls, one
validation while it is pending, and one result besides once it has returned. -/
def TallyOf : Call → ℕ × ℕ × ℕ → Prop
  | .exchangeWait _ _, n => n = (1,0,0)
  | .exchangeCancel _ _, n => n = (1,0,0)
  | .exchangeRelock _ _ _, n => n = (1,0,0)
  | .exchangeGrace _ _, n => n = (1,0,0)
  | .exchangeReturned answer, n =>
    (answer.result = .ok () ∧ n = (1,1,0)) ∨
    ((∃ errorNumber, answer.result = .error errorNumber) ∧ (n = (0,0,0) ∨ n = (1,0,1)))
  | _, n => n = (0,0,0)

/-- Only the call that moves has entries added. -/
theorem tally_setCall {calls : ℕ → Call} {log log' : List Note} {c : ℕ} {x : Call}
    (h : ∀ d, TallyOf (calls d) (tally log d)) (hlog : ∀ d, d ≠ c → tally log' d = tally log d)
    (hx : TallyOf x (tally log' c)) (d : ℕ) : TallyOf (update calls c x d) (tally log' d) := by
  by_cases hd : d = c
  · subst hd
    rwa [update_self]
  · rw [update_of_ne hd,hlog d hd]
    exact h d

theorem tally_validated (log : List Note) (c : ℕ) :
    tally (.validated c :: log) c = ((tally log c).1 + 1,(tally log c).2) ∧
    ∀ d, d ≠ c → tally (.validated c :: log) d = tally log d := by
  refine ⟨?_,fun d hd => ?_⟩
  · simp [tally]
  · simp [tally,hd.symm]

theorem tally_answered (log : List Note) (c : ℕ) (success : Bool) :
    tally (.answered c success :: log) c =
      ((tally log c).1,(tally log c).2.1 + success.toNat,(tally log c).2.2 + (!success).toNat) ∧
    ∀ d, d ≠ c → tally (.answered c success :: log) d = tally log d := by
  refine ⟨?_,fun d hd => ?_⟩
  · cases success <;> simp [tally]
  · simp [tally,hd.symm]

theorem tally_note (log : List Note) (entry : Note) (hv : entry.isValidated = false)
    (ha : ∀ success, entry.isAnswered success = false) (c : ℕ) : tally (entry :: log) c = tally log c := by
  cases entry with
  | validated d => cases hv
  | answered d success => simpa [Note.isAnswered] using ha success
  | _ => simp [tally]

/-- A call moves on, with at most an uncounted entry added. -/
theorem tally_move {calls : ℕ → Call} {log log' : List Note} {c : ℕ} {x : Call} {n : ℕ × ℕ × ℕ}
    (h : ∀ d, TallyOf (calls d) (tally log d)) (hlog : ∀ d, tally log' d = tally log d)
    (hc : tally log c = n) (hx : TallyOf x n) (d : ℕ) : TallyOf (update calls c x d) (tally log' d) := by
  refine tally_setCall h (fun d _ => hlog d) ?_ d
  rw [hlog c,hc]
  exact hx

theorem tallyOf_pending {x : Call} {t : ℕ} (hx : x.task? = some t) (n : ℕ × ℕ × ℕ) :
    TallyOf x n ↔ n = (1,0,0) := by
  cases x <;> first | rfl | cases hx

theorem tallyOf_plain {x : Call} (hx : x.plain = true) : TallyOf x (0,0,0) := by
  cases x <;> first | rfl | cases hx

/-- The result given to a pending call is its only one. -/
theorem tally_answer {calls : ℕ → Call} {log : List Note} {c : ℕ} {answer : ExchangeReturn} {success : Bool}
    (h : ∀ d, TallyOf (calls d) (tally log d)) (hc : tally log c = (1,0,0))
    (hok : success = true → answer.result = .ok ())
    (herror : success = false → ∃ errorNumber, answer.result = .error errorNumber) (d : ℕ) :
    TallyOf (update calls c (.exchangeReturned answer) d) (tally (.answered c success :: log) d) := by
  obtain ⟨ha,ha'⟩ := tally_answered log c success
  refine tally_setCall h ha' ?_ d
  rw [ha,hc]
  cases success with
  | true => exact Or.inl ⟨hok rfl,rfl⟩
  | false => exact Or.inr ⟨herror rfl,Or.inr rfl⟩

/-- One step keeps the entries of every call in order. -/
theorem step_tally {s t : System} {e : Event} (h : ∀ c, TallyOf (s.calls c) (tally s.log c))
    (he : step s e = some t) (c : ℕ) : TallyOf (t.calls c) (tally t.log c) := by
  have hfresh : ∀ {call}, s.calls call = .idle → tally s.log call = (0,0,0) := by
    intro call hidle
    have hc := h call
    rwa [hidle] at hc
  have hpending : ∀ call task, (s.calls call).task? = some task → tally s.log call = (1,0,0) :=
    fun _ _ hc => (tallyOf_pending hc _).mp (h _)
  cases step_move he with
  | plain hidle hx => exact tally_move h (fun _ => rfl) (hfresh hidle) (tallyOf_plain hx) c
  | stay => exact h c
  | @setBackend call ops context name mock hidle hset =>
    have hn := tally_note s.log (.backendSet call) rfl (fun _ => rfl)
    exact tally_move h hn (hfresh hidle) (x := .returned (.ok ())) rfl c
  | @opened call outcome mock hidle hopen =>
    have hn := tally_note s.log (.opened call) rfl (fun _ => rfl)
    exact tally_move h hn (hfresh hidle) (x := .returned (.ok ())) rfl c
  | rejected hidle hpre =>
    refine tally_move h (fun _ => rfl) (hfresh hidle) ?_ c
    exact Or.inr ⟨⟨_,rfl⟩,Or.inl rfl⟩
  | @failedLocally call argument dispatch exchange deadline mock errorNumber hidle hpre hmock hlocal =>
    obtain ⟨hv,hv'⟩ := tally_validated s.log call
    obtain ⟨ha,ha'⟩ := tally_answered (.validated call :: s.log) call false
    refine tally_setCall h (fun d hd => (ha' d hd).trans (hv' d hd)) ?_ c
    rw [ha,hv,hfresh hidle]
    exact Or.inr ⟨⟨_,rfl⟩,Or.inr rfl⟩
  | @dispatched call argument dispatch exchange deadline hidle hpre =>
    obtain ⟨hv,hv'⟩ := tally_validated s.log call
    refine tally_setCall h hv' ?_ c
    rw [hv,hfresh hidle]
    rfl
  | callbackEnter hw => exact h c
  | @callbackReturn task result response hw =>
    have hn := tally_note s.log (.callback task (s.tasks task).request result response)
      rfl (fun _ => rfl) c
    simp only [hn]
    exact h c
  | workerFinish hw => exact h c
  | @expired call task argument waitResult hc =>
    refine tally_move h (fun _ => rfl) (hpending call task (by rw [hc]; rfl)) ?_ c
    split <;> rfl
  | @woken call task argument waitResult hc hdone =>
    refine tally_move h (fun _ => rfl) (hpending call task (by rw [hc]; rfl)) ?_ c
    rfl
  | @cancelByExchange call task argument hc =>
    have hn := tally_note s.log (.cancel (cancelRun s (some task) (s.tasks task).backendOps
      (s.tasks task).backendContext)) rfl (fun _ => rfl)
    refine tally_move h hn (hpending call task (by rw [hc]; rfl)) ?_ c
    rfl
  | @cancelByClose call session target ops context hc =>
    have hn := tally_note s.log (.cancel (cancelRun s target ops context)) rfl (fun _ => rfl)
    have hcall := h call
    rw [hc] at hcall
    exact tally_move h hn hcall (x := .closeWait session) rfl c
  | @grace call task argument clock hc =>
    refine tally_move h (fun _ => rfl) (hpending call task (by rw [hc]; rfl)) ?_ c
    rfl
  | @abandoned _ call task argument hev hc hdone =>
    have hcall : tally s.log call = (1,0,0) := by
      refine hpending call task ?_
      rcases hc with hc | hc <;> rw [hc] <;> rfl
    refine tally_answer h hcall ?_ ?_ c
    · nofun
    · exact fun _ => ⟨_,rfl⟩
  | @finished _ call task argument timedOut hover =>
    have hcall := hpending call task hover.task
    unfold finishSection
    simp only []
    split
    · refine tally_answer h hcall ?_ ?_ c
      · nofun
      · exact fun _ => ⟨_,rfl⟩
    · refine tally_answer h hcall ?_ ?_ c
      · exact fun _ => rfl
      · nofun
  | closeRequested hidle hopen hbusy =>
    refine tally_move h (fun _ => rfl) (hfresh hidle) ?_ c
    split <;> rfl
  | @closed _ call session release hc hbusy =>
    have hn := tally_note s.log (.closed call session
      (if s.mock.sessionOpen then some (openCount s.log) else none) (endSession s.mock release).2.isOk)
      rfl (fun _ => rfl)
    have hcall : tally s.log call = (0,0,0) := by
      have hcall := h call
      rcases hc with ⟨-,hc,-⟩ | ⟨-,hc⟩ <;> rwa [hc] at hcall
    refine tally_move h hn hcall ?_ c
    rfl
  | @destroyed call condResult mutexResult hidle hopen hbusy =>
    have hn := tally_note s.log (.destroyed call) rfl (fun _ => rfl)
    exact tally_move h hn (hfresh hidle) (x := .returned (.ok ())) rfl c
  | @destroyedPartly call condResult mutexResult hidle =>
    exact tally_move h (fun _ => rfl) (hfresh hidle) (x := .returned (.error mutexResult)) rfl c

/-- Every section but those that settle a validated exchange. -/
def Uncounted (s : System) : Event → Prop
  | .exchange _ argument dispatch =>
    ∃ mock delivered errorNumber,
      qcpuPrevalidateExchangeLocked s.mock argument dispatch.clock = .rejected mock delivered errorNumber
  | .relock _ _ => False
  | .graceWake _ _ => False
  | _ => True

/-- Only sections that settle a validated exchange touch the counters. -/
theorem step_uncounted {s t : System} {e : Event} (he : step s e = some t) (hu : Uncounted s e) :
    t.mock.completedRequests = s.mock.completedRequests ∧ t.mock.failedRequests = s.mock.failedRequests := by
  have hbooks : ∀ m, SameBooks s.mock m →
      m.completedRequests = s.mock.completedRequests ∧ m.failedRequests = s.mock.failedRequests :=
    fun m hm => ⟨hm.completed,hm.failed⟩
  cases step_move he with
  | setBackend hidle hset => exact hbooks _ (setBackend_books hset)
  | opened hidle hopen => exact hbooks _ (open_books hopen)
  | rejected hidle hpre => exact hbooks _ (rejected_books hpre)
  | failedLocally hidle hpre hmock hlocal =>
    obtain ⟨m,delivered,errorNumber,hr⟩ := hu
    rw [hpre] at hr
    cases hr
  | workerFinish hw =>
    simp only [workerSection]
    split <;> exact ⟨rfl,rfl⟩
  | expired hc => exact hbooks _ (requestCancel_books _)
  | abandoned hev hc hdone =>
    rcases hev with ⟨clock,rfl⟩ | ⟨waitResult,rfl⟩
    · exact hu.elim
    · exact hu.elim
  | finished hover =>
    cases hover with
    | relock hc hdone => exact hu.elim
    | grace hc hdone => exact hu.elim
  | closeRequested hidle hopen hbusy => exact hbooks _ (requestCancel_books _)
  | closed hc hbusy => exact hbooks _ (endSession_books _ _)
  | _ => exact ⟨rfl,rfl⟩

/-- Between any two critical sections the counters account for every validated
exchange: each has one result, counted once, or its caller is still waiting. -/
theorem exchange_accounting {s : System} (h : Reachable s) :
    UInt64.ofNat (validatedCount s.log) = s.mock.completedRequests + s.mock.failedRequests +
      UInt64.ofNat (waiting s.mock.activeTask s.tasks) ∧
    s.mock.completedRequests = UInt64.ofNat (answeredCount true s.log) ∧
    s.mock.failedRequests = UInt64.ofNat (answeredCount false s.log) ∧
    (∀ c, TallyOf (s.calls c) (tally s.log c)) ∧
    (∀ e t, step s e = some t → Uncounted s e →
      t.mock.completedRequests = s.mock.completedRequests ∧ t.mock.failedRequests = s.mock.failedRequests) := by
  obtain ⟨config,mock,events,hcreate,hr⟩ := h
  have hfresh := create_fresh hcreate
  have hinitial : Ledger mock (fun _ => ({} : Task)) [] := by
    unfold Ledger
    rw [hfresh.completed,hfresh.failed,hfresh.active]
    exact Books.initial
  have hI := Transition.run_invariant
    (I := fun s => Valid s ∧ Ledger s.mock s.tasks s.log ∧ ∀ c, TallyOf (s.calls c) (tally s.log c))
    (fun _ _ _ hs he => ⟨step_valid hs.1 he,step_ledger hs.1 hs.2.1 he,step_tally hs.2.2 he⟩)
    ⟨valid_initial hcreate,hinitial,fun _ => rfl⟩ hr
  obtain ⟨-,hbooks,htally⟩ := hI
  refine ⟨?_,hbooks.completed,hbooks.failed,htally,fun e t => step_uncounted⟩
  rw [hbooks.balance,hbooks.completed,hbooks.failed,UInt64.ofNat_add,UInt64.ofNat_add]

theorem exchange_accounting_success :
    ∃ s, Reachable s ∧ validatedCount s.log = 1 ∧ s.mock.completedRequests = 1 ∧
      UInt64.ofNat (validatedCount s.log) = s.mock.completedRequests + s.mock.failedRequests +
        UInt64.ofNat (waiting s.mock.activeTask s.tasks) := by
  refine ⟨_,⟨sampleConfig,_,sampleSuccess,rfl,rfl⟩,rfl,rfl,?_⟩
  exact (exchange_accounting ⟨sampleConfig,_,sampleSuccess,rfl,rfl⟩).1

end QbitNova.Frontend
