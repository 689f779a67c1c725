import QbitNova.Device.FrontendContract
import Mathlib.Data.List.Chain

/-! # Sessions opened and closed under concurrent closers

A close that finds an exchange in flight gives up the mutex and, once the frontend
is free, ends whatever session it finds. Two closers can therefore both return 0 for
one session, or the later one can end a session it was never called for. As long as
no close ends the session while another is still on its way, and the lock is released
without an error, successful opens and closes alternate.
-/
namespace QbitNova.Frontend
open Function (update update_self update_of_ne)

/-- A successful open or a successful close. -/
def Note.sessionChange? : Note → Option Bool
  | .opened _ => some true
  | .closed _ _ _ true => some false
  | _ => none

def Note.isClosed : Note → Bool
  | .closed _ _ _ true => true
  | _ => false

def closeCount (log : List Note) : ℕ := log.countP Note.isClosed

/-- Opens and closes that returned 0, newest first. -/
def sessionChanges (log : List Note) : List Bool := log.filterMap Note.sessionChange?

/-- Opens and closes alternate, their difference is the open session, and every close
that returned 0 ended the session it was called in. -/
structure SessionsAlternate (s : System) : Prop where
  balance : openCount s.log = closeCount s.log + s.mock.sessionOpen.toNat
  alternate : (sessionChanges s.log).IsChain (· ≠ ·)
  latest : (sessionChanges s.log).head?.getD false = s.mock.sessionOpen
  own : ∀ call session ended, Note.closed call session ended true ∈ s.log → ended = some session

/-- The session is ended by this call alone, and its lock is released. -/
def SoleRelease (s : System) (call : ℕ) (release : ReleaseOutcome) : Prop :=
  s.mock.sessionOpen = true → s.mock.busy = false →
    release = {} ∧ ∀ d, d ≠ call → (s.calls d).closing = false

def ClosesInTurn (s : System) : Event → Prop
  | .mockClose call release => SoleRelease s call release
  | .closeWake call release => SoleRelease s call release
  | _ => True

/-- The session counted by a close that is on its way. -/
def Call.session? : Call → Option ℕ
  | .closeCancel session _ _ _ => some session
  | .closeWait session => some session
  | _ => none

/-- The alternation together with what closers on their way may rely on. -/
structure SessionsValid (sessionOpen : Bool) (calls : ℕ → Call) (log : List Note) : Prop where
  balance : openCount log = closeCount log + sessionOpen.toNat
  alternate : (sessionChanges log).IsChain (· ≠ ·)
  latest : (sessionChanges log).head?.getD false = sessionOpen
  own : ∀ call session ended, Note.closed call session ended true ∈ log → ended = some session
  closing : ∀ c session, (calls c).session? = some session → sessionOpen = true ∧ session = openCount log

theorem Call.closing_of_session {x : Call} {session : ℕ} (h : x.session? = some session) : x.closing = true := by
  cases x <;> first | rfl | cases h

theorem Call.session?_of_plain {x : Call} (hx : x.plain = true) : x.session? = none := by
  cases x <;> first | rfl | cases hx

namespace SessionsValid
variable {sessionOpen : Bool} {calls : ℕ → Call} {log : List Note}

/-- A call that is not a close, or stays within its close, moves on. -/
theorem setCall (h : SessionsValid sessionOpen calls log) {c : ℕ} {x : Call}
    (hx : ∀ session, x.session? = some session → sessionOpen = true ∧ session = openCount log) :
    SessionsValid sessionOpen (update calls c x) log := by
  refine { h with closing := ?_ }
  intro d session hd
  by_cases hdc : d = c
  · subst hdc
    rw [update_self] at hd
    exact hx session hd
  · rw [update_of_ne hdc] at hd
    exact h.closing d session hd

theorem returns (h : SessionsValid sessionOpen calls log) {c : ℕ} {x : Call} (hx : x.session? = none) :
    SessionsValid sessionOpen (update calls c x) log :=
  h.setCall (fun session hs => by rw [hx] at hs; cases hs)

theorem note (h : SessionsValid sessionOpen calls log) (entry : Note) (hs : entry.sessionChange? = none) :
    SessionsValid sessionOpen calls (entry :: log) := by
  obtain ⟨h1,h2,h3,h4,h5⟩ := h
  have hopen : openCount (entry :: log) = openCount log := by
    refine List.countP_cons_of_neg (fun he => ?_)
    unfold Note.isOpened at he
    split at he
    · cases hs
    · cases he
  have hclose : closeCount (entry :: log) = closeCount log := by
    refine List.countP_cons_of_neg (fun he => ?_)
    unfold Note.isClosed at he
    split at he
    · cases hs
    · cases he
  have hchange : sessionChanges (entry :: log) = sessionChanges log := by simp [sessionChanges,hs]
  refine ⟨by rw [hopen,hclose,h1],by rwa [hchange],by rwa [hchange],?_,by rwa [hopen]⟩
  intro call session ended hm
  rcases List.mem_cons.mp hm with rfl | hm
  · cases hs
  · exact h4 call session ended hm

theorem opened (h : SessionsValid false calls log) (call : ℕ) :
    SessionsValid true calls (.opened call :: log) := by
  obtain ⟨h1,h2,h3,h4,h5⟩ := h
  have hopen : openCount (.opened call :: log) = openCount log + 1 := List.countP_cons_of_pos rfl
  have hclose : closeCount (.opened call :: log) = closeCount log := List.countP_cons_of_neg nofun
  have hchange : sessionChanges (.opened call :: log) = true :: sessionChanges log := by
    simp [sessionChanges,Note.sessionChange?]
  refine ⟨?_,?_,by rw [hchange]; rfl,?_,fun c session hc => nomatch (h5 c session hc).1⟩
  · rw [hopen,hclose,h1]
    rfl
  · rw [hchange]
    refine h2.cons ?_
    intro last hlast
    rw [Option.mem_def.mp hlast] at h3
    simp_all
  · intro c session ended hm
    rcases List.mem_cons.mp hm with hm | hm
    · cases hm
    · exact h4 c session ended hm

theorem closed (h : SessionsValid true calls log) (call : ℕ) (hsole : ∀ c, (calls c).closing = false) :
    SessionsValid false calls (.closed call (openCount log) (some (openCount log)) true :: log) := by
  obtain ⟨h1,h2,h3,h4,h5⟩ := h
  have hopen : ∀ session ended, openCount (.closed call session ended true :: log) = openCount log :=
    fun _ _ => List.countP_cons_of_neg nofun
  have hclose : ∀ session ended, closeCount (.closed call session ended true :: log) = closeCount log + 1 :=
    fun _ _ => List.countP_cons_of_pos rfl
  have hchange : ∀ session ended,
      sessionChanges (.closed call session ended true :: log) = false :: sessionChanges log := by
    simp [sessionChanges,Note.sessionChange?]
  refine ⟨?_,?_,by rw [hchange]; rfl,?_,?_⟩
  · rw [hopen,hclose,h1]
    rfl
  · rw [hchange]
    refine h2.cons ?_
    intro last hlast
    rw [Option.mem_def.mp hlast] at h3
    simp_all
  · intro c session ended hm
    rcases List.mem_cons.mp hm with hm | hm
    · cases hm
      rfl
    · exact h4 c session ended hm
  · intro c session hc
    have := hsole c
    rw [Call.closing_of_session hc] at this
    cases this

end SessionsValid

theorem rejected_session {m m' : Mock} {argument delivered : Option Exchange} {clock : Option Timespec}
    {errorNumber : ℤ} (h : qcpuPrevalidateExchangeLocked m argument clock = .rejected m' delivered errorNumber) :
    m'.sessionOpen = m.sessionOpen := by
  obtain ⟨status,base,-,hbase,rfl,-⟩ := prevalidate_rejects m argument clock _ _ _ h
  rcases hbase with rfl | ⟨rfl,-⟩ <;> rfl

theorem requestCancel_session (m : Mock) : (qcpuRequestCancelLocked m).1.sessionOpen = m.sessionOpen := by
  rcases requestCancel_eq m with h | ⟨-,h⟩ <;> rw [h]

theorem endSession_released (m : Mock) : (endSession m {}).2 = .ok () := by
  unfold endSession
  simp

theorem step_sessionsValid {s t : System} {e : Event} (h : SessionsValid s.mock.sessionOpen s.calls s.log)
    (hturn : ClosesInTurn s e) (he : step s e = some t) :
    SessionsValid t.mock.sessionOpen t.calls t.log := by
  cases step_move he with
  | plain hidle hx => exact h.returns (Call.session?_of_plain hx)
  | stay => exact h
  | @setBackend call ops context name mock hidle hset =>
    obtain ⟨-,_,_,_,_,_,rfl⟩ := setBackend_eq hset
    exact (h.returns rfl).note (.backendSet call) rfl
  | @opened call outcome mock hidle hopen =>
    obtain ⟨hclosed,descriptor,rfl⟩ := open_eq hopen
    rw [hclosed] at h
    exact (h.returns rfl).opened call
  | rejected hidle hpre =>
    simp only [rejected_session hpre]
    exact h.returns rfl
  | @failedLocally call argument dispatch exchange deadline mock errorNumber hidle hpre hmock hlocal =>
    have hsame : mock.sessionOpen = s.mock.sessionOpen := by rcases hmock with rfl | rfl <;> rfl
    have hn := (h.returns (c := call) (x := .exchangeReturned
      ⟨argument,qcpuSetFailureResponse argument statusIo,.error errorNumber,some errorNumber⟩) rfl).note
      (.validated call) rfl
    rw [← hsame] at hn
    exact hn.note (.answered call false) rfl
  | @dispatched call argument dispatch exchange deadline hidle hpre =>
    exact (h.returns rfl).note (.validated call) rfl
  | callbackEnter hw => exact h
  | @callbackReturn task result response hw =>
    exact h.note (.callback task (s.tasks task).request result response) rfl
  | workerFinish hw =>
    simp only [workerSection]
    split <;> exact h
  | expired hc =>
    simp only [expireSection,requestCancel_session]
    refine h.returns ?_
    split <;> rfl
  | woken hc hdone => exact h.returns rfl
  | @cancelByExchange call task argument hc =>
    exact (h.returns rfl).note (.cancel (cancelRun s (some task) (s.tasks task).backendOps
      (s.tasks task).backendContext)) rfl
  | @cancelByClose call session target ops context hc =>
    have hmine := h.closing call session (by rw [hc]; rfl)
    refine (h.setCall ?_).note (.cancel (cancelRun s target ops context)) rfl
    rintro _ ⟨⟩
    exact hmine
  | grace hc => exact h.returns rfl
  | @abandoned _ call task argument hev hc hdone =>
    exact (h.returns rfl).note (.answered call false) rfl
  | @finished _ call task argument timedOut hover =>
    unfold finishSection
    simp only []
    split
    · exact (h.returns rfl).note (.answered call false) rfl
    · exact (h.returns rfl).note (.answered call true) rfl
  | @closeRequested call release hidle hopen hbusy =>
    simp only [closeRequestSection,requestCancel_session]
    refine h.setCall ?_
    intro session hs
    split at hs <;> cases hs <;> exact ⟨hopen,rfl⟩
  | @closed _ call session release hc hbusy =>
    have hmine : s.mock.sessionOpen = true ∧ session = openCount s.log := by
      rcases hc with ⟨-,-,hopen,hsession⟩ | ⟨-,hc⟩
      · exact ⟨hopen,hsession⟩
      · exact h.closing call session (by rw [hc]; rfl)
    obtain ⟨hopen,rfl⟩ := hmine
    have hsole : release = {} ∧ ∀ d, d ≠ call → (s.calls d).closing = false := by
      rcases hc with ⟨rfl,-⟩ | ⟨rfl,-⟩ <;> exact hturn hopen hbusy
    obtain ⟨rfl,hsole⟩ := hsole
    rw [hopen] at h
    simp only [endSection,endSession_mock,endSession_released,hopen,↓reduceIte]
    refine (h.returns rfl).closed call ?_
    intro d
    by_cases hd : d = call
    · rw [hd,update_self]
      rfl
    · rw [update_of_ne hd]
      exact hsole d hd
  | @destroyed call condResult mutexResult hidle hopen hbusy =>
    exact (h.returns rfl).note (.destroyed call) rfl
  | destroyedPartly hidle => exact h.returns rfl

/-- In every run in which closes come one at a time and release the lock, successful
opens and closes alternate and each close ends its own session. -/
theorem sessions_alternate {config : MockConfig} {mock : Mock} (events : List Event) {s : System}
    (hcreate : qcpuMockCreate none config = .ok mock)
    (hturn : Transition.Meets step ClosesInTurn (System.initial mock) events)
    (hr : Transition.run step (System.initial mock) events = some s) : SessionsAlternate s := by
  have hinitial : SessionsValid mock.sessionOpen (fun _ => .idle) [] := by
    rw [(create_fresh hcreate).session]
    exact ⟨rfl,List.isChain_nil,rfl,nofun,nofun⟩
  obtain ⟨h1,h2,h3,h4,-⟩ := Transition.run_invariant_of_meets
    (I := fun s => SessionsValid s.mock.sessionOpen s.calls s.log)
    (fun _ _ _ hs hc he => step_sessionsValid hs hc he) hinitial hturn hr
  exact ⟨h1,h2,h3,h4⟩

/-- A close that waits for an exchange in flight, alone. -/
def sampleClose : List Event :=
  sampleRun ++ [.mockClose 2 {}, .runCancel 2, .callbackReturn 0 (-ecanceled) {}, .workerFinish 0, .wake 1 0,
    .relock 1 none, .closeWake 2 {}]

/-- Two closers wait for the same exchange; in the longer run another caller opens a
session before the second of them goes on. -/
def twoClosers : List Event :=
  sampleRun ++ [.mockClose 2 {}, .mockClose 3 {}, .runCancel 2, .callbackReturn 0 (-ecanceled) {},
    .workerFinish 0, .wake 1 0, .relock 1 none, .closeWake 2 {}]

theorem sessions_alternate_waiting : ∃ s, Reachable s ∧ openCount s.log = 1 ∧ SessionsAlternate s := by
  have hcreate : qcpuMockCreate none sampleConfig = .ok _ := rfl
  refine ⟨_,⟨sampleConfig,_,sampleClose,rfl,rfl⟩,rfl,sessions_alternate sampleClose hcreate ?_ rfl⟩
  refine .cons trivial rfl (.cons trivial rfl (.cons trivial rfl (.cons nofun rfl (.cons trivial rfl
    (.cons trivial rfl (.cons trivial rfl (.cons trivial rfl (.cons trivial rfl (.cons ?_ rfl trivial)))))))))
  refine fun _ _ => ⟨rfl,fun d hd => ?_⟩
  rcases d with _ | _ | _ | d
  · rfl
  · rfl
  · exact absurd rfl hd
  · rfl

/-- With two closers both return 0 for one session, or the second ends a session that
was opened after it was called. -/
theorem two_closers_both_succeed :
    (∃ s, Reachable s ∧ openCount s.log = 1 ∧ closeCount s.log = 2 ∧ ¬ SessionsAlternate s) ∧
    (∃ s, Reachable s ∧ Note.closed 3 1 (some 2) true ∈ s.log ∧ ¬ SessionsAlternate s) := by
  constructor
  · refine ⟨_,⟨sampleConfig,_,twoClosers ++ [.closeWake 3 {}],rfl,rfl⟩,rfl,rfl,?_⟩
    intro h
    have := h.balance
    revert this
    decide
  · refine ⟨_,⟨sampleConfig,_,twoClosers ++ [.mockOpen 4 (.locked 3), .closeWake 3 {}],rfl,rfl⟩,by decide,?_⟩
    intro h
    have := h.own 3 1 (some 2) (by decide)
    revert this
    decide

end QbitNova.Frontend
