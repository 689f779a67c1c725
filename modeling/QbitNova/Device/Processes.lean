import QbitNova.Library.FileLock
import QbitNova.Device.FrontendOwnership

/-! # Frontends of several processes on one runtime directory

Each instance has its own mutex and its own fields; what they share is the lock
file. Inside its mutex an open makes three system calls and a close two, and the
other instances run between them. An action is one system call of an instance,
or one section of the single frontend's model. The results of the two calls that
end a session are fixed by the event that starts the tail of the close, as in that
model; each call takes effect at its own action.
-/
namespace QbitNova.Processes
open Frontend (System Mock MockConfig Event ReleaseOutcome OpenOutcome qcpuMockCreate)

/-- How far an open has come. -/
inductive OpenStage where
  | entered
  | opened (number : ℕ)
  | moded (number : ℕ)
  | locked (number : ℕ)
  | failing (number : ℕ) (outcome : OpenOutcome)
  deriving DecidableEq, Repr

/-- Who is inside the mutex between two system calls. An open keeps the fields it found. -/
inductive Holder where
  | free
  | opening (call : ℕ) (before : Mock) (stage : OpenStage)
  | unlocking (number : ℕ) (release : ReleaseOutcome)
  | releasing (number : ℕ) (release : ReleaseOutcome)
  deriving DecidableEq, Repr

structure Instance where
  process : ℕ
  frontend : System
  holder : Holder

/-- Descriptors are numbered in each process; instances are numbered in the fleet. -/
structure Fleet where
  instances : ℕ → Option Instance
  kernel : FileLock.Kernel (ℕ × ℕ) ℕ

/-- A zero errno is success. An event of the frontend's own model is anything but an open. -/
inductive Action where
  | frontend (event : Event)
  | openCall (call : ℕ)
  | openFile (result : Except ℤ ℕ)
  | setMode (errorNumber : ℤ)
  | lockFile (errorNumber : ℤ)
  | commit
  | giveUp
  | unlockFile
  | closeFile
  deriving DecidableEq

inductive FleetEvent where
  | create (number process : ℕ) (config : MockConfig)
  | act (number : ℕ) (action : Action)
  deriving DecidableEq

/-- Steps of a frontend that are taken without its mutex. -/
def outside : Event → Bool
  | .callbackEnter _ => true
  | .callbackReturn _ _ _ => true
  | .runCancel _ => true
  | _ => false

def isOpen : Event → Bool
  | .mockOpen _ _ => true
  | _ => false

/-- A close gets to its tail, where it gives up the session. -/
def reachesTail (s : System) : Event → Option ReleaseOutcome
  | .mockClose _ release => if s.mock.sessionOpen && !s.mock.busy then some release else none
  | .closeWake _ release => if s.mock.busy then none else some release
  | _ => none

/-- The open in progress returns and leaves the mutex. -/
def Instance.returnOpen (inst : Instance) (call : ℕ) (outcome : OpenOutcome) : Option Instance :=
  (Frontend.step inst.frontend (.mockOpen call outcome)).map fun s =>
    { inst with frontend := s, holder := .free }

/-- The tail of a close goes on to the descriptor unless there is none. -/
def Instance.holderAfter (inst : Instance) (event : Event) : Holder :=
  match reachesTail inst.frontend event with
  | none => inst.holder
  | some release =>
    if 0 ≤ inst.frontend.mock.lockFd then .unlocking inst.frontend.mock.lockFd.toNat release else inst.holder

/-- One action of the instance with this number. -/
def Instance.act (number : ℕ) (kernel : FileLock.Kernel (ℕ × ℕ) ℕ) (inst : Instance) :
    Action → Option (FileLock.Kernel (ℕ × ℕ) ℕ × Instance)
  | .frontend event =>
    if isOpen event = false ∧ (outside event = true ∨ inst.holder = .free) then
      (Frontend.step inst.frontend event).map fun s =>
        (kernel, { inst with frontend := s, holder := inst.holderAfter event })
    else none
  | .openCall call =>
    if inst.holder = .free ∧ inst.frontend.calls call = .idle ∧ inst.frontend.destroyed = false then
      if inst.frontend.mock.sessionOpen then
        (inst.returnOpen call (.openFailed Frontend.ebusy)).map fun next => (kernel, next)
      else some (kernel, { inst with holder := .opening call inst.frontend.mock .entered })
    else none
  | .openFile result =>
    match inst.holder with
    | .opening call before .entered =>
      match result with
      | .error errorNumber => (inst.returnOpen call (.openFailed errorNumber)).map fun next => (kernel, next)
      | .ok descriptor => (kernel.openFile (inst.process, descriptor) number).map fun k =>
        (k, { inst with holder := .opening call before (.opened descriptor) })
    | _ => none
  | .setMode errorNumber =>
    match inst.holder with
    | .opening call before (.opened descriptor) => some (kernel, { inst with
        holder := .opening call before (if errorNumber = 0 then .moded descriptor
          else .failing descriptor (.fchmodFailed errorNumber)) })
    | _ => none
  | .lockFile errorNumber =>
    match inst.holder with
    | .opening call before (.moded descriptor) =>
      if errorNumber = 0 then (kernel.flock (inst.process, descriptor)).map fun k =>
        (k, { inst with holder := .opening call before (.locked descriptor) })
      else some (kernel, { inst with
        holder := .opening call before (.failing descriptor (.flockFailed errorNumber)) })
    | _ => none
  | .commit =>
    match inst.holder with
    | .opening call _ (.locked descriptor) =>
      (inst.returnOpen call (.locked descriptor)).map fun next => (kernel, next)
    | _ => none
  | .giveUp =>
    match inst.holder with
    | .opening call _ (.failing descriptor outcome) =>
      (inst.returnOpen call outcome).map fun next => (kernel.close (inst.process, descriptor), next)
    | _ => none
  | .unlockFile =>
    match inst.holder with
    | .unlocking descriptor release =>
      some (if release.flockErrno = 0 then kernel.unlock (inst.process, descriptor) else kernel,
        { inst with holder := .releasing descriptor release })
    | _ => none
  | .closeFile =>
    match inst.holder with
    | .releasing descriptor _ =>
      some (kernel.close (inst.process, descriptor), { inst with holder := .free })
    | _ => none

def Fleet.set (f : Fleet) (number : ℕ) (kernel : FileLock.Kernel (ℕ × ℕ) ℕ) (inst : Instance) : Fleet :=
  { instances := Function.update f.instances number (some inst), kernel := kernel }

def step (f : Fleet) : FleetEvent → Option Fleet
  | .create number process config =>
    match f.instances number, qcpuMockCreate none config with
    | none, .ok mock => some (f.set number f.kernel ⟨process, System.initial mock, .free⟩)
    | _, _ => none
  | .act number action => (f.instances number).bind fun inst =>
    (inst.act number f.kernel action).map fun next => f.set number next.1 next.2

def empty : Fleet := { instances := fun _ => none, kernel := { files := fun _ => none, lock := none } }

def Reachable (f : Fleet) : Prop := ∃ events, Transition.run step empty events = some f

theorem outside_mock {s t : System} {event : Event} (hout : outside event = true)
    (h : Frontend.step s event = some t) : t.mock = s.mock := by
  cases event with
  | callbackEnter task =>
    simp only [Frontend.step,Option.ite_none_right_eq_some,Option.some.injEq] at h
    obtain ⟨-,rfl⟩ := h
    rfl
  | callbackReturn task result response =>
    simp only [Frontend.step,Option.ite_none_right_eq_some,Option.some.injEq] at h
    obtain ⟨-,rfl⟩ := h
    rfl
  | runCancel call =>
    simp only [Frontend.step] at h
    split at h <;> cases h <;> rfl
  | _ => cases hout

/-- The tail of a close clears both session fields before its first system call. -/
theorem tail_mock {s t : System} {event : Event} {release : ReleaseOutcome}
    (htail : reachesTail s event = some release) (h : Frontend.step s event = some t) :
    t.mock = { s.mock with lockFd := -1, sessionOpen := false } := by
  cases event with
  | mockClose call result =>
    obtain ⟨-,rfl⟩ := Frontend.startCall_eq_some h
    simp only [reachesTail,Option.ite_none_right_eq_some,Bool.and_eq_true,Bool.not_eq_true'] at htail
    obtain ⟨⟨hopen,hbusy⟩,-⟩ := htail
    have hsection : Frontend.closeSection s call result =
        Frontend.endSection s call (Frontend.openCount s.log) result := by
      simp only [Frontend.closeSection,hopen,hbusy,Bool.not_true,Bool.false_and,Bool.false_eq_true,↓reduceIte]
    rw [hsection]
    exact Frontend.endSession_mock s.mock result
  | closeWake call result =>
    simp only [reachesTail,Option.ite_none_left_eq_some,Bool.not_eq_true] at htail
    obtain ⟨hbusy,-⟩ := htail
    simp only [Frontend.step] at h
    split at h
    · simp only [Frontend.closeWakeSection,hbusy,Bool.false_eq_true,↓reduceIte] at h
      cases h
      exact Frontend.endSession_mock s.mock result
    · cases h
  | _ => cases htail

theorem other_session {s t : System} {event : Event} (hopen : isOpen event = false)
    (htail : reachesTail s event = none) (h : Frontend.step s event = some t) :
    t.mock.sessionOpen = s.mock.sessionOpen ∧ t.mock.lockFd = s.mock.lockFd := by
  cases Frontend.step_move h with
  | setBackend hidle hset =>
    obtain ⟨-,_,_,_,_,_,rfl⟩ := Frontend.setBackend_eq hset
    exact ⟨rfl,rfl⟩
  | opened hidle hok => cases hopen
  | rejected hidle hpre =>
    obtain ⟨status,base,-,hbase,rfl,-⟩ := Frontend.prevalidate_rejects _ _ _ _ _ _ hpre
    rcases hbase with rfl | ⟨rfl,-⟩ <;> exact ⟨rfl,rfl⟩
  | failedLocally hidle hpre hmock hlocal =>
    rcases hmock with rfl | rfl <;> exact ⟨rfl,rfl⟩
  | workerFinish hw =>
    simp only [Frontend.workerSection]
    split_ifs <;> exact ⟨rfl,rfl⟩
  | expired hc =>
    rcases Frontend.requestCancel_eq s.mock with he | ⟨-,he⟩ <;>
      simp only [Frontend.expireSection,he,and_self]
  | finished hover =>
    simp only [Frontend.finishSection]
    split <;> exact ⟨rfl,rfl⟩
  | closeRequested hidle hsession hbusy =>
    rcases Frontend.requestCancel_eq s.mock with he | ⟨-,he⟩ <;>
      simp only [Frontend.closeRequestSection,he,and_self]
  | closed hc hbusy =>
    rcases hc with ⟨rfl,-,hsession,-⟩ | ⟨rfl,-⟩
    · simp [reachesTail,hsession,hbusy] at htail
    · simp [reachesTail,hbusy] at htail
  | _ => exact ⟨rfl,rfl⟩

theorem open_returns {s t : System} {call : ℕ} {outcome : OpenOutcome}
    (h : Frontend.step s (.mockOpen call outcome) = some t) :
    (∃ errorNumber, t.mock = s.mock ∧ t.calls call = .returned (.error errorNumber) ∧
      (s.mock.sessionOpen = true ∨ ∀ descriptor, outcome ≠ .locked descriptor)) ∨
    (∃ descriptor : ℕ, outcome = .locked descriptor ∧ s.mock.sessionOpen = false ∧
      t.mock = { s.mock with lockFd := descriptor, sessionOpen := true } ∧
      t.calls call = .returned (.ok ())) := by
  obtain ⟨-,rfl⟩ := Frontend.startCall_eq_some h
  cases hopen : Frontend.qcpuMockOpen s.mock outcome with
  | error errorNumber =>
    refine Or.inl ⟨errorNumber,rfl,Function.update_self _ _ _,?_⟩
    unfold Frontend.qcpuMockOpen at hopen
    split_ifs at hopen with hsession
    · exact Or.inl hsession
    · right
      rintro descriptor rfl
      cases hopen
  | ok mock =>
    unfold Frontend.qcpuMockOpen at hopen
    split_ifs at hopen with hsession
    cases outcome with
    | locked descriptor =>
      cases hopen
      exact Or.inr ⟨descriptor,rfl,by simpa using hsession,rfl,Function.update_self _ _ _⟩
    | flockFailed errorNumber =>
      simp only [] at hopen
      split_ifs at hopen
    | _ => cases hopen

def OpenStage.claim : OpenStage → Option (ℕ × Bool)
  | .entered => none
  | .opened number => some (number, false)
  | .moded number => some (number, false)
  | .locked number => some (number, true)
  | .failing number _ => some (number, false)

def Holder.claim (mock : Mock) : Holder → Option (ℕ × Bool)
  | .free => if mock.sessionOpen then some (mock.lockFd.toNat, true) else none
  | .opening _ _ stage => stage.claim
  | .unlocking number _ => some (number, true)
  | .releasing number release => some (number, release.flockErrno ≠ 0)

/-- The descriptor of the lock file an instance has, and whether it holds the lock by it. -/
def Instance.claim (inst : Instance) : Option ((ℕ × ℕ) × Bool) :=
  (inst.holder.claim inst.frontend.mock).map fun mine => ((inst.process, mine.1), mine.2)

/-- The claim of an instance inside an open or a close is that of its stage. -/
theorem Instance.claim_of_holder {inst : Instance} {holder : Holder} {mine : Option (ℕ × Bool)}
    (hholder : inst.holder = holder) (hmine : holder.claim inst.frontend.mock = mine) :
    inst.claim = mine.map fun mine => ((inst.process, mine.1), mine.2) := by
  rw [Instance.claim,hholder,hmine]

def Fleet.claim (f : Fleet) (number : ℕ) : Option ((ℕ × ℕ) × Bool) := (f.instances number).bind Instance.claim

/-- Every instance is in a state of the single frontend's model. A session is open only
outside the sections of opens and closes, and an open has not touched the fields. -/
structure Instance.Valid (inst : Instance) : Prop where
  reachable : Frontend.Reachable inst.frontend
  session_free : inst.frontend.mock.sessionOpen = true → inst.holder = .free
  untouched : ∀ call before stage, inst.holder = .opening call before stage → inst.frontend.mock = before
  failing : ∀ call before descriptor outcome, inst.holder = .opening call before (.failing descriptor outcome) →
    ∀ number, outcome ≠ .locked number

structure Valid (f : Fleet) : Prop where
  kernel : FileLock.Agrees f.kernel f.claim
  instances : ∀ number inst, f.instances number = some inst → inst.Valid

/-- Everything one action of an instance can do. -/
inductive Effect (number : ℕ) (kernel : FileLock.Kernel (ℕ × ℕ) ℕ) (inst : Instance) :
    Action → FileLock.Kernel (ℕ × ℕ) ℕ → Instance → Prop
  | inner {event : Event} {s : System} (hopen : isOpen event = false)
    (hmutex : outside event = true ∨ inst.holder = .free) (hs : Frontend.step inst.frontend event = some s) :
    Effect number kernel inst (.frontend event) kernel
      { inst with frontend := s, holder := inst.holderAfter event }
  | refused {call : ℕ} {s : System} (hfree : inst.holder = .free) (hopen : inst.frontend.mock.sessionOpen = true)
    (hs : Frontend.step inst.frontend (.mockOpen call (.openFailed Frontend.ebusy)) = some s) :
    Effect number kernel inst (.openCall call) kernel { inst with frontend := s, holder := .free }
  | entered {call : ℕ} (hfree : inst.holder = .free) (hclosed : inst.frontend.mock.sessionOpen = false) :
    Effect number kernel inst (.openCall call) kernel
      { inst with holder := .opening call inst.frontend.mock .entered }
  | notOpened {call : ℕ} {before : Mock} {errorNumber : ℤ} {s : System}
    (hholder : inst.holder = .opening call before .entered)
    (hs : Frontend.step inst.frontend (.mockOpen call (.openFailed errorNumber)) = some s) :
    Effect number kernel inst (.openFile (.error errorNumber)) kernel { inst with frontend := s, holder := .free }
  | opened {call : ℕ} {before : Mock} {descriptor : ℕ} {kernel' : FileLock.Kernel (ℕ × ℕ) ℕ}
    (hholder : inst.holder = .opening call before .entered)
    (hopen : kernel.openFile (inst.process, descriptor) number = some kernel') :
    Effect number kernel inst (.openFile (.ok descriptor)) kernel'
      { inst with holder := .opening call before (.opened descriptor) }
  | moded {call : ℕ} {before : Mock} {descriptor : ℕ} (hholder : inst.holder = .opening call before (.opened descriptor)) :
    Effect number kernel inst (.setMode 0) kernel { inst with holder := .opening call before (.moded descriptor) }
  | notModed {call : ℕ} {before : Mock} {descriptor : ℕ} {errorNumber : ℤ}
    (hholder : inst.holder = .opening call before (.opened descriptor)) (hfails : errorNumber ≠ 0) :
    Effect number kernel inst (.setMode errorNumber) kernel
      { inst with holder := .opening call before (.failing descriptor (.fchmodFailed errorNumber)) }
  | locked {call : ℕ} {before : Mock} {descriptor : ℕ} {kernel' : FileLock.Kernel (ℕ × ℕ) ℕ}
    (hholder : inst.holder = .opening call before (.moded descriptor))
    (hlock : kernel.flock (inst.process, descriptor) = some kernel') :
    Effect number kernel inst (.lockFile 0) kernel'
      { inst with holder := .opening call before (.locked descriptor) }
  | notLocked {call : ℕ} {before : Mock} {descriptor : ℕ} {errorNumber : ℤ}
    (hholder : inst.holder = .opening call before (.moded descriptor)) (hfails : errorNumber ≠ 0) :
    Effect number kernel inst (.lockFile errorNumber) kernel
      { inst with holder := .opening call before (.failing descriptor (.flockFailed errorNumber)) }
  | committed {call : ℕ} {before : Mock} {descriptor : ℕ} {s : System}
    (hholder : inst.holder = .opening call before (.locked descriptor))
    (hs : Frontend.step inst.frontend (.mockOpen call (.locked descriptor)) = some s) :
    Effect number kernel inst .commit kernel { inst with frontend := s, holder := .free }
  | gaveUp {call : ℕ} {before : Mock} {descriptor : ℕ} {outcome : OpenOutcome} {s : System}
    (hholder : inst.holder = .opening call before (.failing descriptor outcome))
    (hs : Frontend.step inst.frontend (.mockOpen call outcome) = some s) :
    Effect number kernel inst .giveUp (kernel.close (inst.process, descriptor))
      { inst with frontend := s, holder := .free }
  | unlocked {descriptor : ℕ} {release : ReleaseOutcome} (hholder : inst.holder = .unlocking descriptor release) :
    Effect number kernel inst .unlockFile
      (if release.flockErrno = 0 then kernel.unlock (inst.process, descriptor) else kernel)
      { inst with holder := .releasing descriptor release }
  | released {descriptor : ℕ} {release : ReleaseOutcome} (hholder : inst.holder = .releasing descriptor release) :
    Effect number kernel inst .closeFile (kernel.close (inst.process, descriptor)) { inst with holder := .free }

theorem act_effect {number : ℕ} {kernel kernel' : FileLock.Kernel (ℕ × ℕ) ℕ} {inst inst' : Instance} {action : Action}
    (h : inst.act number kernel action = some (kernel', inst')) :
    Effect number kernel inst action kernel' inst' := by
  cases action with
  | frontend event =>
    simp only [Instance.act,Option.ite_none_right_eq_some,Option.map_eq_some_iff,Prod.mk.injEq] at h
    obtain ⟨⟨hopen,hmutex⟩,s,hs,rfl,rfl⟩ := h
    exact .inner hopen hmutex hs
  | openCall call =>
    simp only [Instance.act,Option.ite_none_right_eq_some] at h
    obtain ⟨⟨hfree,-,-⟩,h⟩ := h
    split_ifs at h with hopen
    · simp only [Instance.returnOpen,Option.map_map,Option.map_eq_some_iff,Function.comp_apply,Prod.mk.injEq] at h
      obtain ⟨s,hs,rfl,rfl⟩ := h
      exact .refused hfree hopen hs
    · cases h
      exact .entered hfree (by simpa using hopen)
  | openFile result =>
    simp only [Instance.act] at h
    split at h
    · rename_i call before hholder
      cases result with
      | error errorNumber =>
        simp only [Instance.returnOpen,Option.map_map,Option.map_eq_some_iff,Function.comp_apply,Prod.mk.injEq] at h
        obtain ⟨s,hs,rfl,rfl⟩ := h
        exact .notOpened hholder hs
      | ok descriptor =>
        simp only [Option.map_eq_some_iff,Prod.mk.injEq] at h
        obtain ⟨k,hk,rfl,rfl⟩ := h
        exact .opened hholder hk
    · cases h
  | setMode errorNumber =>
    simp only [Instance.act] at h
    split at h
    · rename_i call before descriptor hholder
      cases h
      by_cases hzero : errorNumber = 0
      · subst hzero
        exact .moded hholder
      · rw [if_neg hzero]
        exact .notModed hholder hzero
    · cases h
  | lockFile errorNumber =>
    simp only [Instance.act] at h
    split at h
    · rename_i call before descriptor hholder
      split_ifs at h with hzero
      · subst hzero
        simp only [Option.map_eq_some_iff,Prod.mk.injEq] at h
        obtain ⟨k,hk,rfl,rfl⟩ := h
        exact .locked hholder hk
      · cases h
        exact .notLocked hholder hzero
    · cases h
  | commit =>
    simp only [Instance.act] at h
    split at h
    · rename_i call before descriptor hholder
      simp only [Instance.returnOpen,Option.map_map,Option.map_eq_some_iff,Function.comp_apply,Prod.mk.injEq] at h
      obtain ⟨s,hs,rfl,rfl⟩ := h
      exact .committed hholder hs
    · cases h
  | giveUp =>
    simp only [Instance.act] at h
    split at h
    · rename_i call before descriptor outcome hholder
      simp only [Instance.returnOpen,Option.map_map,Option.map_eq_some_iff,Function.comp_apply,Prod.mk.injEq] at h
      obtain ⟨s,hs,rfl,rfl⟩ := h
      exact .gaveUp hholder hs
    · cases h
  | unlockFile =>
    simp only [Instance.act] at h
    split at h
    · rename_i descriptor release hholder
      cases h
      exact .unlocked hholder
    · cases h
  | closeFile =>
    simp only [Instance.act] at h
    split at h
    · rename_i descriptor release hholder
      cases h
      exact .released hholder
    · cases h

theorem Reachable.step {s t : System} {event : Event} (h : Frontend.Reachable s)
    (he : Frontend.step s event = some t) : Frontend.Reachable t := by
  obtain ⟨config,mock,events,hcreate,hrun⟩ := h
  exact ⟨config,mock,events ++ [event],hcreate,Transition.run_concat _ hrun he⟩

/-- An instance outside opens and closes, whose fields say whether it has the lock. -/
theorem Instance.Valid.idle {process : ℕ} {s : System} (hs : Frontend.Reachable s) :
    Instance.Valid ⟨process, s, .free⟩ where
  reachable := hs
  session_free _ := rfl
  untouched _ _ _ h := by cases h
  failing _ _ _ _ h := by cases h

theorem Instance.Valid.releases {process : ℕ} {s : System} {holder : Holder} (hs : Frontend.Reachable s)
    (hclosed : s.mock.sessionOpen = false) (hholder : ∀ call before stage, holder ≠ .opening call before stage) :
    Instance.Valid ⟨process, s, holder⟩ where
  reachable := hs
  session_free hopen := by
    rw [hclosed] at hopen
    cases hopen
  untouched _ _ _ h := absurd h (hholder _ _ _)
  failing _ _ _ _ h := absurd h (hholder _ _ _)

theorem Instance.Valid.stage {inst : Instance} (h : inst.Valid) {call : ℕ} {before : Mock} {stage : OpenStage}
    (hclosed : inst.frontend.mock.sessionOpen = false) (hbefore : inst.frontend.mock = before)
    (hfailing : ∀ descriptor outcome, stage = .failing descriptor outcome → ∀ number, outcome ≠ .locked number) :
    Instance.Valid { inst with holder := .opening call before stage } where
  reachable := h.reachable
  session_free hopen := by
    rw [hclosed] at hopen
    cases hopen
  untouched _ _ _ hstage := by
    cases hstage
    exact hbefore
  failing _ _ _ _ hstage := by
    cases hstage
    exact hfailing _ _ rfl

theorem Instance.Valid.closed {inst : Instance} (h : inst.Valid) (hholder : inst.holder ≠ .free) :
    inst.frontend.mock.sessionOpen = false := by
  cases hopen : inst.frontend.mock.sessionOpen with
  | false => rfl
  | true => exact absurd (h.session_free hopen) hholder

theorem Instance.Valid.closed_of_opening {inst : Instance} (h : inst.Valid) {call : ℕ} {before : Mock}
    {stage : OpenStage} (hholder : inst.holder = .opening call before stage) :
    inst.frontend.mock.sessionOpen = false := by
  apply h.closed
  rw [hholder]
  intro hfree
  cases hfree

theorem Holder.claim_congr {m m' : Mock} (holder : Holder) (hsession : m'.sessionOpen = m.sessionOpen)
    (hfd : m'.lockFd = m.lockFd) : holder.claim m' = holder.claim m := by
  cases holder with
  | free => simp only [Holder.claim,hsession,hfd]
  | _ => rfl

theorem tail_takes_mutex {s : System} {event : Event} {release : ReleaseOutcome}
    (htail : reachesTail s event = some release) : outside event = false := by
  cases event with
  | mockClose call result => rfl
  | closeWake call result => rfl
  | _ => cases htail

theorem inner_valid {inst : Instance} (h : inst.Valid) {event : Event} {s : System} (hopen : isOpen event = false)
    (hmutex : outside event = true ∨ inst.holder = .free) (hs : Frontend.step inst.frontend event = some s) :
    Instance.Valid { inst with frontend := s, holder := inst.holderAfter event } ∧
      Instance.claim { inst with frontend := s, holder := inst.holderAfter event } = inst.claim := by
  have hreach := Reachable.step h.reachable hs
  cases htail : reachesTail inst.frontend event with
  | none =>
    obtain ⟨hsession,hfd⟩ := other_session hopen htail hs
    simp only [Instance.holderAfter,htail,Instance.claim,Holder.claim_congr inst.holder hsession hfd,and_true]
    refine ⟨hreach,fun hyes => h.session_free (hsession.symm.trans hyes),?_,h.failing⟩
    intro call before stage hholder
    have hout : outside event = true := by
      rcases hmutex with hout | hfree
      · exact hout
      · rw [hholder] at hfree
        cases hfree
    exact (outside_mock hout hs).trans (h.untouched call before stage hholder)
  | some release =>
    have hmock := tail_mock htail hs
    have hfree : inst.holder = .free := by
      rcases hmutex with hout | hfree
      · rw [tail_takes_mutex htail] at hout
        cases hout
      · exact hfree
    have hclosed : s.mock.sessionOpen = false := by rw [hmock]
    have hiff := (Frontend.reachable_mockValid h.reachable).session_iff_fd
    by_cases hfd : 0 ≤ inst.frontend.mock.lockFd
    · have hafter : inst.holderAfter event = .unlocking inst.frontend.mock.lockFd.toNat release := by
        simp only [Instance.holderAfter,htail,hfd,↓reduceIte]
      rw [hafter]
      refine ⟨.releases hreach hclosed ?_,?_⟩
      · intro _ _ _ hholder
        cases hholder
      · simp only [Instance.claim,Holder.claim,hfree,hiff.mpr hfd,↓reduceIte]
    · have hafter : inst.holderAfter event = .free := by
        simp only [Instance.holderAfter,htail,hfd,↓reduceIte,hfree]
      have hnone : inst.frontend.mock.sessionOpen = false := by
        cases hyes : inst.frontend.mock.sessionOpen with
        | false => rfl
        | true => exact absurd (hiff.mp hyes) hfd
      rw [hafter]
      refine ⟨.idle hreach,?_⟩
      simp only [Instance.claim,Holder.claim,hfree,hnone,hclosed,Bool.false_eq_true,↓reduceIte]

theorem commit_succeeds {inst : Instance} (h : inst.Valid) {call descriptor : ℕ} {before : Mock} {s : System}
    (hholder : inst.holder = .opening call before (.locked descriptor))
    (hs : Frontend.step inst.frontend (.mockOpen call (.locked descriptor)) = some s) :
    s.mock = { inst.frontend.mock with lockFd := descriptor, sessionOpen := true } ∧
      s.calls call = .returned (.ok ()) := by
  obtain ⟨_,-,-,hsession | hnot⟩ | ⟨_,hlocked,-,hmock,hcall⟩ := open_returns hs
  · rw [h.closed_of_opening hholder] at hsession
    cases hsession
  · exact absurd rfl (hnot _)
  · cases hlocked
    exact ⟨hmock,hcall⟩

theorem open_fails {s t : System} {call : ℕ} {outcome : OpenOutcome} (houtcome : ∀ number, outcome ≠ .locked number)
    (hs : Frontend.step s (.mockOpen call outcome) = some t) : t.mock = s.mock := by
  obtain ⟨_,hmock,-⟩ | ⟨_,hlocked,-⟩ := open_returns hs
  · exact hmock
  · exact absurd hlocked (houtcome _)

theorem effect_valid {number : ℕ} {kernel kernel' : FileLock.Kernel (ℕ × ℕ) ℕ} {inst inst' : Instance}
    {action : Action} {claim : ℕ → Option ((ℕ × ℕ) × Bool)} (h : inst.Valid)
    (hagrees : FileLock.Agrees kernel claim) (hclaim : claim number = inst.claim)
    (heffect : Effect number kernel inst action kernel' inst') :
    inst'.Valid ∧ FileLock.Agrees kernel' (Function.update claim number inst'.claim) := by
  have hkept : ∀ {next : Instance}, next.claim = inst.claim →
      FileLock.Agrees kernel (Function.update claim number next.claim) := by
    intro next hnext
    rw [hnext,← hclaim,Function.update_eq_self]
    exact hagrees
  cases heffect with
  | inner hopen hmutex hs =>
    obtain ⟨hvalid,hsame⟩ := inner_valid h hopen hmutex hs
    exact ⟨hvalid,hkept hsame⟩
  | refused hfree hopen hs =>
    have hmock := open_fails (fun _ hlocked => by cases hlocked) hs
    refine ⟨.idle (Reachable.step h.reachable hs),hkept ?_⟩
    simp only [Instance.claim,hmock,hfree]
  | entered hfree hclosed =>
    refine ⟨h.stage hclosed rfl nofun,hkept ?_⟩
    simp only [Instance.claim,Holder.claim,OpenStage.claim,hfree,hclosed,Bool.false_eq_true,↓reduceIte]
  | notOpened hholder hs =>
    have hclosed := h.closed_of_opening hholder
    have hmock := open_fails (fun _ hlocked => by cases hlocked) hs
    refine ⟨.idle (Reachable.step h.reachable hs),hkept ?_⟩
    simp only [Instance.claim,Holder.claim,OpenStage.claim,hmock,hholder,hclosed,Bool.false_eq_true,↓reduceIte]
  | opened hholder hopen =>
    refine ⟨h.stage (h.closed_of_opening hholder) (h.untouched _ _ _ hholder) nofun,?_⟩
    have hnone : claim number = none := hclaim.trans (Instance.claim_of_holder hholder rfl)
    exact (hagrees.openFile hnone hopen).1
  | moded hholder =>
    refine ⟨h.stage (h.closed_of_opening hholder) (h.untouched _ _ _ hholder) nofun,hkept ?_⟩
    simp only [Instance.claim,Holder.claim,OpenStage.claim,hholder]
  | notModed hholder hfails =>
    refine ⟨h.stage (h.closed_of_opening hholder) (h.untouched _ _ _ hholder) ?_,hkept ?_⟩
    · rintro _ _ ⟨⟩ _ hlocked
      cases hlocked
    · simp only [Instance.claim,Holder.claim,OpenStage.claim,hholder]
  | @locked call before descriptor kernel' hholder hlock =>
    refine ⟨h.stage (h.closed_of_opening hholder) (h.untouched _ _ _ hholder) nofun,?_⟩
    have hmine : claim number = some ((inst.process,descriptor),false) :=
      hclaim.trans (Instance.claim_of_holder hholder rfl)
    exact hagrees.flock hmine hlock
  | notLocked hholder hfails =>
    refine ⟨h.stage (h.closed_of_opening hholder) (h.untouched _ _ _ hholder) ?_,hkept ?_⟩
    · rintro _ _ ⟨⟩ _ hlocked
      cases hlocked
    · simp only [Instance.claim,Holder.claim,OpenStage.claim,hholder]
  | committed hholder hs =>
    refine ⟨.idle (Reachable.step h.reachable hs),hkept ?_⟩
    obtain ⟨hmock,-⟩ := commit_succeeds h hholder hs
    simp only [Instance.claim,Holder.claim,OpenStage.claim,hmock,hholder,Int.toNat_natCast,↓reduceIte]
  | @gaveUp call before descriptor outcome s hholder hs =>
    refine ⟨.idle (Reachable.step h.reachable hs),?_⟩
    have hmine : claim number = some ((inst.process,descriptor),false) :=
      hclaim.trans (Instance.claim_of_holder hholder rfl)
    have hclosed := h.closed_of_opening hholder
    have hmock := open_fails (h.failing _ _ _ _ hholder) hs
    have hnone : Instance.claim { inst with frontend := s, holder := .free } = none := by
      simp only [Instance.claim,Holder.claim,hmock,hclosed,Bool.false_eq_true,↓reduceIte,Option.map_none]
    rw [hnone]
    exact hagrees.close hmine
  | @unlocked descriptor release hholder =>
    have hmine : claim number = some ((inst.process,descriptor),true) :=
      hclaim.trans (Instance.claim_of_holder hholder rfl)
    have hclosed : inst.frontend.mock.sessionOpen = false := by
      apply h.closed
      rw [hholder]
      intro hfree
      cases hfree
    refine ⟨.releases h.reachable hclosed ?_,?_⟩
    · intro _ _ _ hopening
      cases hopening
    · by_cases hzero : release.flockErrno = 0
      · rw [if_pos hzero]
        have hnow : Instance.claim { inst with holder := .releasing descriptor release } =
            some ((inst.process,descriptor),false) := by
          simp only [Instance.claim,Holder.claim,hzero,ne_eq,not_true_eq_false,decide_false,Option.map_some]
        rw [hnow]
        exact hagrees.unlock hmine
      · rw [if_neg hzero]
        apply hkept
        simp only [Instance.claim,Holder.claim,hholder,hzero,ne_eq,not_false_eq_true,decide_true]
  | @released descriptor release hholder =>
    have hmine : claim number = some ((inst.process,descriptor),decide (release.flockErrno ≠ 0)) :=
      hclaim.trans (Instance.claim_of_holder hholder rfl)
    have hclosed : inst.frontend.mock.sessionOpen = false := by
      apply h.closed
      rw [hholder]
      intro hfree
      cases hfree
    refine ⟨.idle h.reachable,?_⟩
    have hnone : Instance.claim { inst with holder := .free } = none := by
      simp only [Instance.claim,Holder.claim,hclosed,Bool.false_eq_true,↓reduceIte,Option.map_none]
    rw [hnone]
    exact hagrees.close hmine

theorem Fleet.claim_set (f : Fleet) (number : ℕ) (kernel : FileLock.Kernel (ℕ × ℕ) ℕ) (inst : Instance) :
    (f.set number kernel inst).claim = Function.update f.claim number inst.claim := by
  funext other
  by_cases h : other = number
  · subst h
    simp only [Fleet.claim,Fleet.set,Function.update_self,Option.bind_some]
  · simp only [Fleet.claim,Fleet.set,Function.update_of_ne h]

theorem step_act {f g : Fleet} {number : ℕ} {action : Action} (h : step f (.act number action) = some g) :
    ∃ inst kernel' inst', f.instances number = some inst ∧ Effect number f.kernel inst action kernel' inst' ∧
      g = f.set number kernel' inst' := by
  obtain ⟨inst,hinst,h⟩ := Option.bind_eq_some_iff.mp h
  obtain ⟨⟨kernel',inst'⟩,hact,rfl⟩ := Option.map_eq_some_iff.mp h
  exact ⟨inst,kernel',inst',hinst,act_effect hact,rfl⟩

theorem Valid.set {f : Fleet} (h : Valid f) {number : ℕ} {kernel' : FileLock.Kernel (ℕ × ℕ) ℕ} {inst' : Instance}
    (hinst : inst'.Valid) (hkernel : FileLock.Agrees kernel' (Function.update f.claim number inst'.claim)) :
    Valid (f.set number kernel' inst') := by
  constructor
  · rw [Fleet.claim_set]
    exact hkernel
  · intro other inst hother
    by_cases hsame : other = number
    · subst hsame
      simp only [Fleet.set,Function.update_self,Option.some.injEq] at hother
      exact hother ▸ hinst
    · simp only [Fleet.set,Function.update_of_ne hsame] at hother
      exact h.instances other inst hother

theorem step_valid {f g : Fleet} {event : FleetEvent} (h : Valid f) (hstep : step f event = some g) : Valid g := by
  cases event with
  | create number process config =>
    simp only [step] at hstep
    split at hstep
    · rename_i mock hnone hcreate
      cases hstep
      have hfresh : Instance.claim ⟨process,System.initial mock,.free⟩ = f.claim number := by
        have hclosed : (System.initial mock).mock.sessionOpen = false := (Frontend.create_fresh hcreate).session
        simp only [Fleet.claim,hnone,Instance.claim,Holder.claim,hclosed,Bool.false_eq_true,↓reduceIte,
          Option.map_none,Option.bind_none]
      refine h.set (.idle ⟨config,mock,[],hcreate,rfl⟩) ?_
      rw [hfresh,Function.update_eq_self]
      exact h.kernel
    · cases hstep
  | act number action =>
    obtain ⟨inst,kernel',inst',hinst,heffect,rfl⟩ := step_act hstep
    have hclaim : f.claim number = inst.claim := by rw [Fleet.claim,hinst,Option.bind_some]
    obtain ⟨hvalid,hkernel⟩ := effect_valid (h.instances number inst hinst) h.kernel hclaim heffect
    exact h.set hvalid hkernel

theorem empty_valid : Valid empty where
  kernel := ⟨fun d o => by simp [empty,Fleet.claim],fun d => by simp [empty,Fleet.claim]⟩
  instances _ _ h := by cases h

theorem reachable_valid {f : Fleet} (h : Reachable f) : Valid f := by
  obtain ⟨events,hrun⟩ := h
  exact Transition.run_invariant (fun _ _ _ => step_valid) empty_valid hrun

/-- The session flag of the instance with this number. -/
def Fleet.sessionOpen (f : Fleet) (number : ℕ) : Prop :=
  ∃ inst, f.instances number = some inst ∧ inst.frontend.mock.sessionOpen = true

/-- An open session is the lock. -/
theorem Valid.session_claim {f : Fleet} (h : Valid f) {number : ℕ} {inst : Instance}
    (hinst : f.instances number = some inst) (hopen : inst.frontend.mock.sessionOpen = true) :
    f.claim number = some ((inst.process, inst.frontend.mock.lockFd.toNat), true) := by
  have hfree := (h.instances number inst hinst).session_free hopen
  simp only [Fleet.claim,hinst,Option.bind_some,Instance.claim,hfree,Holder.claim,hopen,↓reduceIte,Option.map_some]

theorem Valid.session_unique {f : Fleet} (h : Valid f) {i j : ℕ} (hi : f.sessionOpen i) (hj : f.sessionOpen j) :
    i = j := by
  obtain ⟨inst,hinst,hopen⟩ := hi
  obtain ⟨inst',hinst',hopen'⟩ := hj
  exact h.kernel.holder_unique (h.session_claim hinst hopen) (h.session_claim hinst' hopen')

/-- The steps an open is made of. -/
def Action.ofOpen : Action → Bool
  | .openCall _ => true
  | .openFile _ => true
  | .setMode _ => true
  | .lockFile _ => true
  | .commit => true
  | .giveUp => true
  | _ => false

/-- This action is the last one of an open that found these fields, and it returns an error. -/
def FailsOpen (inst : Instance) (action : Action) (inst' : Instance) (call : ℕ) (before : Mock) : Prop :=
  ((action = .openCall call ∧ before = inst.frontend.mock) ∨ ∃ stage, inst.holder = .opening call before stage) ∧
    inst'.holder = .free ∧ ∃ errorNumber, inst'.frontend.calls call = .returned (.error errorNumber)

/-- This action is the last one of a close that gave up a session. -/
def EndsClose (inst : Instance) (action : Action) (inst' : Instance) : Prop :=
  (action = .closeFile ∨
    ∃ event release, action = .frontend event ∧ reachesTail inst.frontend event = some release) ∧
  inst'.holder = .free

/-- The steps of an open that succeeds. -/
def openActions (call descriptor : ℕ) : List Action :=
  [.openCall call, .openFile (.ok descriptor), .setMode 0, .lockFile 0, .commit]

theorem holderAfter_outside {inst : Instance} {event : Event} (hout : outside event = true) :
    inst.holderAfter event = inst.holder := by
  unfold Instance.holderAfter
  cases htail : reachesTail inst.frontend event with
  | none => rfl
  | some release =>
    rw [tail_takes_mutex htail] at hout
    cases hout

/-- The last step of a failed open finds and leaves the fields as they were before the open,
leaves the lock alone, and the lock was not granted before. -/
theorem failsOpen_restores {number call : ℕ} {kernel kernel' : FileLock.Kernel (ℕ × ℕ) ℕ} {inst inst' : Instance}
    {action : Action} {claim : ℕ → Option ((ℕ × ℕ) × Bool)} {before : Mock} (h : inst.Valid)
    (hagrees : FileLock.Agrees kernel claim) (hclaim : claim number = inst.claim)
    (heffect : Effect number kernel inst action kernel' inst') (hfails : FailsOpen inst action inst' call before) :
    inst'.frontend.mock = before ∧ kernel'.lock = kernel.lock ∧
      ∀ descriptor, inst.holder ≠ .opening call before (.locked descriptor) := by
  obtain ⟨hwhose,hfree',errorNumber,herror⟩ := hfails
  cases heffect with
  | inner hopen hmutex hs =>
    obtain ⟨haction,-⟩ | ⟨stage,hholder⟩ := hwhose
    · cases haction
    rcases hmutex with hout | hfree
    · rw [holderAfter_outside hout,hholder] at hfree'
      cases hfree'
    · rw [hholder] at hfree
      cases hfree
  | refused hfree hopen hs =>
    have hmock := open_fails (fun _ hlocked => by cases hlocked) hs
    obtain ⟨-,rfl⟩ | ⟨stage,hholder⟩ := hwhose
    · refine ⟨hmock,rfl,fun descriptor hholder => ?_⟩
      rw [hfree] at hholder
      cases hholder
    · rw [hfree] at hholder
      cases hholder
  | notOpened hholder hs =>
    have hmock := open_fails (fun _ hlocked => by cases hlocked) hs
    obtain ⟨haction,-⟩ | ⟨stage,hholder'⟩ := hwhose
    · cases haction
    rw [hholder] at hholder'
    cases hholder'
    refine ⟨hmock.trans (h.untouched _ _ _ hholder),rfl,fun descriptor hlocked => ?_⟩
    rw [hholder] at hlocked
    cases hlocked
  | committed hholder hs =>
    obtain ⟨-,hcall⟩ := commit_succeeds h hholder hs
    obtain ⟨haction,-⟩ | ⟨stage,hholder'⟩ := hwhose
    · cases haction
    rw [hholder] at hholder'
    cases hholder'
    rw [hcall] at herror
    cases herror
  | @gaveUp call' before' descriptor outcome s hholder hs =>
    have hmock := open_fails (h.failing _ _ _ _ hholder) hs
    obtain ⟨haction,-⟩ | ⟨stage,hholder'⟩ := hwhose
    · cases haction
    rw [hholder] at hholder'
    cases hholder'
    have hmine : claim number = some ((inst.process,descriptor),false) :=
      hclaim.trans (Instance.claim_of_holder hholder rfl)
    refine ⟨hmock.trans (h.untouched _ _ _ hholder),hagrees.close_lock hmine,fun _ hlocked => ?_⟩
    rw [hholder] at hlocked
    cases hlocked
  | released hholder =>
    obtain ⟨haction,-⟩ | ⟨stage,hholder'⟩ := hwhose
    · cases haction
    rw [hholder] at hholder'
    cases hholder'
  | _ => cases hfree'

theorem open_keeps_lock {number : ℕ} {kernel kernel' : FileLock.Kernel (ℕ × ℕ) ℕ} {inst inst' : Instance}
    {action : Action} {claim : ℕ → Option ((ℕ × ℕ) × Bool)} (hagrees : FileLock.Agrees kernel claim)
    (hclaim : claim number = inst.claim) (heffect : Effect number kernel inst action kernel' inst')
    (hopen : action.ofOpen = true) :
    kernel'.lock = kernel.lock ∨ ∃ call before descriptor, inst'.holder = .opening call before (.locked descriptor) := by
  cases heffect with
  | @opened call before descriptor kernel' hholder hfile =>
    have hnone : claim number = none := hclaim.trans (Instance.claim_of_holder hholder rfl)
    exact Or.inl (hagrees.openFile hnone hfile).2
  | locked hholder hlock => exact Or.inr ⟨_,_,_,rfl⟩
  | @gaveUp call before descriptor outcome s hholder hs =>
    have hmine : claim number = some ((inst.process,descriptor),false) :=
      hclaim.trans (Instance.claim_of_holder hholder rfl)
    exact Or.inl (hagrees.close_lock hmine)
  | inner => cases hopen
  | unlocked => cases hopen
  | released => cases hopen
  | _ => exact Or.inl rfl

theorem granted_succeeds {number : ℕ} {kernel kernel' : FileLock.Kernel (ℕ × ℕ) ℕ} {inst inst' : Instance}
    {action : Action} {call descriptor : ℕ} {before : Mock} (h : inst.Valid)
    (heffect : Effect number kernel inst action kernel' inst')
    (hholder : inst.holder = .opening call before (.locked descriptor)) :
    inst'.holder = inst.holder ∨ inst'.frontend.calls call = .returned (.ok ()) := by
  cases heffect with
  | inner hopen hmutex hs =>
    rcases hmutex with hout | hfree
    · exact Or.inl (holderAfter_outside hout)
    · rw [hholder] at hfree
      cases hfree
  | committed hholder' hs =>
    obtain ⟨-,hcall⟩ := commit_succeeds h hholder' hs
    rw [hholder] at hholder'
    cases hholder'
    exact Or.inr hcall
  | refused hfree => rw [hholder] at hfree; cases hfree
  | entered hfree => rw [hholder] at hfree; cases hfree
  | notOpened hother => rw [hholder] at hother; cases hother
  | opened hother => rw [hholder] at hother; cases hother
  | moded hother => rw [hholder] at hother; cases hother
  | notModed hother => rw [hholder] at hother; cases hother
  | locked hother => rw [hholder] at hother; cases hother
  | notLocked hother => rw [hholder] at hother; cases hother
  | gaveUp hother => rw [hholder] at hother; cases hother
  | unlocked hother => rw [hholder] at hother; cases hother
  | released hother => rw [hholder] at hother; cases hother

theorem endsClose_claim {number : ℕ} {kernel kernel' : FileLock.Kernel (ℕ × ℕ) ℕ} {inst inst' : Instance}
    {action : Action} (h : inst.Valid) (heffect : Effect number kernel inst action kernel' inst')
    (hends : EndsClose inst action inst') :
    inst'.frontend.mock.sessionOpen = false ∧ inst'.claim = none := by
  obtain ⟨hlast,hfree⟩ := hends
  have hclosed : inst'.frontend.mock.sessionOpen = false := by
    cases heffect with
    | inner hopen hmutex hs =>
      obtain haction | ⟨event,release,haction,htail⟩ := hlast
      · cases haction
      · cases haction
        rw [tail_mock htail hs]
    | released hholder =>
      apply h.closed
      rw [hholder]
      intro hnow
      cases hnow
    | _ => obtain haction | ⟨_,_,haction,_⟩ := hlast <;> cases haction
  refine ⟨hclosed,?_⟩
  simp only [Instance.claim,hfree,Holder.claim,hclosed,Bool.false_eq_true,↓reduceIte,Option.map_none]

theorem step_of_act {f : Fleet} {number : ℕ} {action : Action} {inst : Instance}
    {next : FileLock.Kernel (ℕ × ℕ) ℕ × Instance} (hinst : f.instances number = some inst)
    (hact : inst.act number f.kernel action = some next) :
    step f (.act number action) = some (f.set number next.1 next.2) := by
  simp only [step,hinst,Option.bind_some,hact,Option.map_some]

theorem Fleet.set_instances (f : Fleet) (number : ℕ) (kernel : FileLock.Kernel (ℕ × ℕ) ℕ) (inst : Instance) :
    (f.set number kernel inst).instances number = some inst := Function.update_self _ _ _

theorem run_alone {f : Fleet} {number : ℕ} (actions : List Action) {inst inst' : Instance}
    {kernel' : FileLock.Kernel (ℕ × ℕ) ℕ} (hinst : f.instances number = some inst)
    (hrun : Transition.run (fun now action => Instance.act number now.1 now.2 action) (f.kernel,inst) actions =
      some (kernel',inst')) :
    ∃ g, Transition.run step f (actions.map (.act number)) = some g ∧ g.instances number = some inst' ∧
      g.kernel = kernel' := by
  induction actions generalizing f inst with
  | nil =>
    cases hrun
    exact ⟨f,rfl,hinst,rfl⟩
  | cons action actions ih =>
    obtain ⟨next,hact,hrun⟩ := Transition.run_cons _ hrun
    obtain ⟨g,hg,hlast,hkernel⟩ := ih (f.set_instances number next.1 next.2) hrun
    refine ⟨g,?_,hlast,hkernel⟩
    exact Option.bind_eq_some_iff.mpr ⟨_,step_of_act hinst hact,hg⟩

theorem mockOpen_locked {s : System} {call : ℕ} (descriptor : ℕ) (hclosed : s.mock.sessionOpen = false)
    (hidle : s.calls call = .idle) (halive : s.destroyed = false) :
    Frontend.step s (.mockOpen call (.locked descriptor)) = some { s with
      mock := { s.mock with lockFd := descriptor, sessionOpen := true }
      calls := Function.update s.calls call (.returned (.ok ()))
      log := .opened call :: s.log } := by
  have hopen : Frontend.qcpuMockOpen s.mock (.locked descriptor) =
      .ok { s.mock with lockFd := descriptor, sessionOpen := true } := by
    simp only [Frontend.qcpuMockOpen,hclosed,Bool.false_eq_true,↓reduceIte]
  simp only [Frontend.step,Frontend.startCall,hidle,halive,hopen,and_self,↓reduceIte]

theorem open_acquires {f : Fleet} {number call descriptor : ℕ} {inst : Instance}
    (hinst : f.instances number = some inst) (hfree : inst.holder = .free)
    (hclosed : inst.frontend.mock.sessionOpen = false) (hidle : inst.frontend.calls call = .idle)
    (halive : inst.frontend.destroyed = false) (hlock : f.kernel.lock = none)
    (hfile : f.kernel.files (inst.process, descriptor) = none) :
    ∃ g, Transition.run step f ((openActions call descriptor).map (.act number)) = some g ∧
      g.sessionOpen number ∧ g.kernel.lock = some (inst.process, descriptor) := by
  have hcommit := mockOpen_locked descriptor hclosed hidle halive
  obtain ⟨g,hrun,hlast,hkernel⟩ := run_alone (openActions call descriptor) hinst (by
    simp only [openActions,Transition.run,Instance.act,hfree,hidle,halive,hclosed,and_self,Bool.false_eq_true,
      ↓reduceIte,Option.bind_some,FileLock.Kernel.openFile,hfile,Option.map_some,FileLock.Kernel.flock,hlock,
      true_or,Instance.returnOpen,hcommit]
    rfl)
  exact ⟨g,hrun,⟨_,hlast,rfl⟩,by rw [hkernel]⟩

/-- An instance that may start an open under this call number, and a number that the
process may give to a descriptor. -/
structure Ready (f : Fleet) (number call descriptor : ℕ) (inst : Instance) : Prop where
  here : f.instances number = some inst
  free : inst.holder = .free
  closed : inst.frontend.mock.sessionOpen = false
  idle : inst.frontend.calls call = .idle
  alive : inst.frontend.destroyed = false
  unused : f.kernel.files (inst.process, descriptor) = none

/-- What a step of a fleet owes to the opens of the instance that takes it. -/
structure OpenOwes (f g : Fleet) (number : ℕ) (action : Action) (inst inst' : Instance) : Prop where
  /-- A failed open leaves the fields, the lock and the descriptors as they were. -/
  failed : ∀ call before, FailsOpen inst action inst' call before →
    inst'.frontend.mock = before ∧ g.kernel.lock = f.kernel.lock ∧
    ∀ d, g.kernel.files d = some number ↔ before.sessionOpen = true ∧ d = (inst'.process, before.lockFd.toNat)
  /-- No step of an open changes the lock, unless it is granted the lock, -/
  kept : action.ofOpen = true → g.kernel.lock = f.kernel.lock ∨
    ∃ call before descriptor, inst'.holder = .opening call before (.locked descriptor)
  /-- and an open that was granted the lock does not fail any more. -/
  granted : ∀ call before descriptor, inst.holder = .opening call before (.locked descriptor) →
    inst'.holder = inst.holder ∨ inst'.frontend.calls call = .returned (.ok ())

/-- What a step of a fleet owes to the closes of the instance that takes it. -/
structure CloseOwes (g : Fleet) (number : ℕ) (action : Action) (inst inst' : Instance) : Prop where
  unlocked : ∀ descriptor release, inst.holder = .unlocking descriptor release → action = .unlockFile →
    release.flockErrno = 0 → g.kernel.lock = none
  /-- A close that returns has given up the session, the descriptor and the lock. -/
  nothing : EndsClose inst action inst' → inst'.frontend.mock.sessionOpen = false ∧
    (∀ d, g.kernel.files d ≠ some number) ∧
    ∀ d, g.kernel.lock = some d → ∃ other ≠ number, g.kernel.files d = some other
  /-- Unless someone has taken the lock since, the next open gets it. -/
  available : EndsClose inst action inst' → g.kernel.lock = none →
    ∀ other call descriptor next, Ready g other call descriptor next →
      ∃ after, Transition.run step g ((openActions call descriptor).map (.act other)) = some after ∧
        after.sessionOpen other ∧ after.kernel.lock = some (next.process, descriptor)

theorem Valid.claim_eq {f : Fleet} {number : ℕ} {inst : Instance} (hinst : f.instances number = some inst) :
    f.claim number = inst.claim := by rw [Fleet.claim,hinst,Option.bind_some]

theorem step_openOwes {f : Fleet} (h : Valid f) {number : ℕ} {action : Action} {inst inst' : Instance}
    {kernel' : FileLock.Kernel (ℕ × ℕ) ℕ} (hinst : f.instances number = some inst)
    (heffect : Effect number f.kernel inst action kernel' inst') :
    OpenOwes f (f.set number kernel' inst') number action inst inst' := by
  have hvalid := h.instances number inst hinst
  have hclaim := Valid.claim_eq hinst
  obtain ⟨-,hagrees⟩ := effect_valid hvalid h.kernel hclaim heffect
  refine ⟨?_,open_keeps_lock h.kernel hclaim heffect,fun _ _ _ => granted_succeeds hvalid heffect⟩
  intro call before hfails
  obtain ⟨rfl,hlock,-⟩ := failsOpen_restores hvalid h.kernel hclaim heffect hfails
  refine ⟨rfl,hlock,fun d => ?_⟩
  rw [show (f.set number kernel' inst').kernel = kernel' from rfl,hagrees.files_iff d number,Function.update_self,
    Instance.claim,hfails.2.1,Holder.claim]
  cases inst'.frontend.mock.sessionOpen with
  | false => simp
  | true => simp [Prod.ext_iff,eq_comm]

theorem step_closeOwes {f : Fleet} (h : Valid f) {number : ℕ} {action : Action} {inst inst' : Instance}
    {kernel' : FileLock.Kernel (ℕ × ℕ) ℕ} (hinst : f.instances number = some inst)
    (heffect : Effect number f.kernel inst action kernel' inst') :
    CloseOwes (f.set number kernel' inst') number action inst inst' := by
  have hvalid := h.instances number inst hinst
  have hclaim := Valid.claim_eq hinst
  obtain ⟨-,hagrees⟩ := effect_valid hvalid h.kernel hclaim heffect
  refine ⟨?_,?_,?_⟩
  · rintro descriptor release hholder rfl hzero
    cases heffect with
    | unlocked hholder' =>
      rw [hholder] at hholder'
      cases hholder'
      have hmine : f.claim number = some ((inst.process,descriptor),true) :=
        hclaim.trans (Instance.claim_of_holder hholder rfl)
      have hheld := (h.kernel.lock_iff (inst.process,descriptor)).mpr ⟨number,hmine⟩
      simp only [Fleet.set,if_pos hzero,FileLock.Kernel.unlock,hheld,↓reduceIte]
  · intro hends
    obtain ⟨hclosed,hnone⟩ := endsClose_claim hvalid heffect hends
    rw [hnone] at hagrees
    refine ⟨hclosed,?_,?_⟩
    · intro d hfile
      obtain ⟨b,hb⟩ := (hagrees.files_iff d number).mp hfile
      rw [Function.update_self] at hb
      cases hb
    · intro d hlock
      obtain ⟨other,hother⟩ := (hagrees.lock_iff d).mp hlock
      refine ⟨other,?_,(hagrees.files_iff d other).mpr ⟨true,hother⟩⟩
      rintro rfl
      rw [Function.update_self] at hother
      cases hother
  · intro _ hlock other call descriptor next hready
    exact open_acquires hready.here hready.free hready.closed hready.idle hready.alive hlock hready.unused

/-- Instances of any number of processes on one runtime directory, in every order of
their steps: at most one has a session open, a failed open leaves no trace, and a close
gives the lock up to the next open. -/
theorem sessions_exclusive {f : Fleet} (h : Reachable f) :
    (∀ i j, f.sessionOpen i → f.sessionOpen j → i = j) ∧
    ∀ number action g, step f (.act number action) = some g →
      ∃ inst inst', f.instances number = some inst ∧ g.instances number = some inst' ∧
        OpenOwes f g number action inst inst' ∧ CloseOwes g number action inst inst' := by
  have hvalid := reachable_valid h
  refine ⟨fun i j => hvalid.session_unique,?_⟩
  intro number action g hstep
  obtain ⟨inst,kernel',inst',hinst,heffect,rfl⟩ := step_act hstep
  exact ⟨inst,inst',hinst,Fleet.set_instances f number kernel' inst',step_openOwes hvalid hinst heffect,
    step_closeOwes hvalid hinst heffect⟩

/-- Two processes: the first has a session open, the open of the second was refused the
lock and is about to close its descriptor. -/
def contendedRun : List FleetEvent :=
  [.create 0 100 Frontend.sampleConfig, .create 1 200 Frontend.sampleConfig] ++
    (openActions 0 3).map (.act 0) ++
    [.act 1 (.openCall 0), .act 1 (.openFile (.ok 3)), .act 1 (.setMode 0), .act 1 (.lockFile Frontend.eagain)]

theorem sessions_exclusive_contended : ∃ f g inst inst', Reachable f ∧ f.sessionOpen 0 ∧
    (∀ i, f.sessionOpen i → i = 0) ∧ step f (.act 1 .giveUp) = some g ∧
    FailsOpen inst .giveUp inst' 0 inst.frontend.mock ∧ OpenOwes f g 1 .giveUp inst inst' := by
  have hrun : ∃ f, Transition.run step empty contendedRun = some f := ⟨_,rfl⟩
  obtain ⟨f,hf⟩ := hrun
  have hreach : Reachable f := ⟨contendedRun,hf⟩
  cases hf
  obtain ⟨hone,hsteps⟩ := sessions_exclusive hreach
  obtain ⟨inst,inst',hinst,hinst',hopen,-⟩ := hsteps 1 .giveUp _ rfl
  cases hinst
  cases hinst'
  refine ⟨_,_,_,_,hreach,⟨_,rfl,rfl⟩,fun i hi => hone i 0 hi ⟨_,rfl,rfl⟩,rfl,?_,hopen⟩
  exact ⟨Or.inr ⟨_,rfl⟩,rfl,_,rfl⟩

end QbitNova.Processes
