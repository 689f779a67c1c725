import QbitNova.Library.CText
import QbitNova.Library.LittleEndian
import QbitNova.Library.Transition
import Mathlib.Data.PNat.Basic
import Mathlib.Data.Nat.Find
import Mathlib.Algebra.BigOperators.Group.List.Basic

/-! # Reading and writing whole buffers

Both loops transfer, retry, wait and give up as the operating system answers. What it
answers is a schedule: one stream each for the transfers, the polls, the clock and the
stop flag. The two loops differ only in what a transfer does with the bytes; each pass of
the transfer loop and each pass of the wait inside it is one step.
-/
namespace QbitNova.DeviceIo
open CText LittleEndian

inductive Status where
  | ok | error | timeout | stopped
  deriving DecidableEq, Repr

/-- What a read or a send answers; the kernel moves at most as many bytes as it was asked for. -/
inductive Answer where
  | moved (count : ℕ+)
  | ended
  | interrupted
  | wouldBlock
  | failed
  deriving DecidableEq

/-- What `poll` answers; `ready` with its POLLNVAL, the events asked for, and POLLERR or POLLHUP. -/
inductive Poll where
  | ready (invalid wanted broken : Bool)
  | expired
  | interrupted
  | failed
  deriving DecidableEq, Repr

/-- The answers to the calls of each kind, in the order of the calls. A failed clock reads
negative, and a null stop flag is never set. -/
structure Schedule where
  answer : ℕ → Answer
  poll : ℕ → ℤ → Poll
  clock : ℕ → ℤ
  stopFlag : ℕ → Bool

inductive Event where
  | setupFailed
  | stopSeen
  | transfer (asked : ℕ) (answer : Answer)
  | clockFailed
  | deadlinePassed
  | polled (poll : Poll)
  deriving DecidableEq

/-- The outcomes after which a call gives up. -/
def Event.terminates : Event → Bool
  | .setupFailed => true
  | .stopSeen => true
  | .transfer _ .ended => true
  | .transfer _ .failed => true
  | .transfer _ _ => false
  | .clockFailed => true
  | .deadlinePassed => true
  | .polled (.ready invalid wanted broken) => invalid || (!wanted && broken)
  | .polled .interrupted => false
  | .polled _ => true

/-- The bytes an outcome moves. -/
def Event.moved : Event → ℕ
  | .transfer asked (.moved count) => min count.val asked
  | _ => 0

def delivered (events : List Event) : ℕ := (events.map Event.moved).sum

inductive Phase where
  | transferring
  | waiting
  | returned (status : Status)
  deriving DecidableEq, Repr

/-- A call on its way: the local variables, what its transfers have done and the outcomes so
far, with the number of calls of each kind. -/
structure Io (σ : Type) where
  phase : Phase
  completed : ℕ
  deadlineMs : ℤ
  data : σ
  events : List Event
  transfers : ℕ
  polls : ℕ
  clocks : ℕ
  looks : ℕ

section
variable {σ : Type} (env : Schedule) (size : ℕ)
  (store : σ → ℕ → (completed count : ℕ) → completed + count ≤ size → σ)

def Io.note (s : Io σ) (e : Event) : Io σ := { s with events := s.events ++ [e] }

def Io.quit (s : Io σ) (e : Event) (status : Status) : Io σ := { s.note e with phase := .returned status }

def intMax : ℤ := 2147483647

/-- One pass of the loop in `wait_until_ready`. -/
def waitUntilReady (s : Io σ) : Io σ :=
  if env.stopFlag s.looks then s.quit .stopSeen .stopped
  else
    let nowMs := env.clock s.clocks
    let s := { s with looks := s.looks + 1, clocks := s.clocks + 1 }
    if nowMs < 0 then s.quit .clockFailed .error
    else
      let remainingMs := s.deadlineMs - nowMs
      if remainingMs ≤ 0 then s.quit .deadlinePassed .timeout
      else
        let pollTimeout := if remainingMs > intMax then intMax else remainingMs
        let result := env.poll s.polls pollTimeout
        let s := { s with polls := s.polls + 1 }
        match result with
        | .ready invalid wanted broken =>
          if invalid then s.quit (.polled result) .error
          else if wanted then { s.note (.polled result) with phase := .transferring }
          else if broken then s.quit (.polled result) .error
          else s.note (.polled result)
        | .expired => s.quit (.polled result) .timeout
        | .interrupted => s.note (.polled result)
        | .failed => s.quit (.polled result) .error

/-- One pass of the loop in `qcpu_device_read_all` and `qcpu_device_write_all`; `store` is what
a transfer of a number of bytes does. -/
def transfer (s : Io σ) (h : s.completed < size) : Io σ :=
  if env.stopFlag s.looks then s.quit .stopSeen .stopped
  else
    let asked := size - s.completed
    let result := env.answer s.transfers
    let after := { s with looks := s.looks + 1, transfers := s.transfers + 1 }
    match result with
    | .moved count =>
      { after.note (.transfer asked result) with
        completed := s.completed + min count.val asked
        data := store s.data s.transfers s.completed (min count.val asked) (by omega) }
    | .ended => after.quit (.transfer asked result) .error
    | .interrupted => after.note (.transfer asked result)
    | .wouldBlock => { after.note (.transfer asked result) with phase := .waiting }
    | .failed => after.quit (.transfer asked result) .error

def step (s : Io σ) : Option (Io σ) :=
  match s.phase with
  | .returned _ => none
  | .waiting => some (waitUntilReady env s)
  | .transferring =>
    some (if h : s.completed < size then transfer env size store s h else { s with phase := .returned .ok })

end

/-- The results of the two `fcntl` calls: whether the flags were read and had O_NONBLOCK, and
whether they could be set. -/
structure Fcntl where
  flags : Option Bool
  set : Bool
  deriving DecidableEq, Repr

def setNonblocking (fcntl : Fcntl) : Bool :=
  match fcntl.flags with
  | none => false
  | some true => true
  | some false => fcntl.set

def prepareDeadline (timeoutMs nowMs : ℤ) : Option ℤ :=
  if timeoutMs ≤ 0 then none
  else if nowMs < 0 then none
  else some (nowMs + timeoutMs)

/-- What is looked at before the loop. -/
structure Setup where
  fileDescriptor : ℤ
  bufferIsNull : Bool
  timeoutMs : ℤ
  fcntl : Fcntl
  deriving DecidableEq, Repr

/-- The deadline of a call whose arguments pass. -/
def Setup.deadline (setup : Setup) (nowMs : ℤ) : Option ℤ :=
  if setup.fileDescriptor < 0 ∨ setup.bufferIsNull then none
  else match prepareDeadline setup.timeoutMs nowMs with
  | none => none
  | some deadlineMs => if setNonblocking setup.fcntl then some deadlineMs else none

/-- A call at the head of its loop, or refused. -/
def start {σ : Type} (env : Schedule) (setup : Setup) (data : σ) : Io σ :=
  match setup.deadline (env.clock 0) with
  | some deadlineMs => ⟨.transferring, 0, deadlineMs, data, [], 0, 0, 1, 0⟩
  | none => ⟨.returned .error, 0, 0, data, [.setupFailed], 0, 0, 0, 0⟩

/-- The memory behind the buffer of a read, and the chunks the descriptor has delivered. -/
structure Input (size : ℕ) where
  buffer : Frame size
  chunks : List Bytes

/-- A read of `count` bytes behind the first `completed`; `bytes` is what each read delivers. -/
def Input.store {size : ℕ} (bytes : ℕ → ℕ → UInt8) (input : Input size) (call completed count : ℕ)
    (h : completed + count ≤ size) : Input size :=
  let chunk := (List.range count).map (bytes call)
  ⟨input.buffer.write completed chunk (by simpa [chunk] using h), input.chunks ++ [chunk]⟩

/-- A send of `count` bytes of the buffer from `completed` on appends them to what went out before. -/
def sendStore {size : ℕ} (buffer : Frame size) (sent : Bytes) (_call completed count : ℕ)
    (_h : completed + count ≤ size) : Bytes :=
  sent ++ (buffer.val.drop completed).take count

def qcpuDeviceReadAll {size : ℕ} (env : Schedule) (bytes : ℕ → ℕ → UInt8) (setup : Setup) (buffer : Frame size)
    (fuel : ℕ) : Option (Io (Input size)) :=
  Transition.halt (step env size (Input.store bytes)) fuel (start env setup ⟨buffer, []⟩)

def qcpuDeviceWriteAll {size : ℕ} (env : Schedule) (setup : Setup) (buffer : Frame size) (fuel : ℕ) :
    Option (Io Bytes) :=
  Transition.halt (step env size (sendStore buffer)) fuel (start env setup [])

section
variable {σ : Type} (env : Schedule) (size : ℕ)
  (store : σ → ℕ → (completed count : ℕ) → completed + count ≤ size → σ)

/-- The ways a call goes on without moving bytes. -/
inductive Delay (s t : Io σ) : Prop
  | interrupted (hphase : s.phase = .transferring) (hnext : t.phase = .transferring)
      (hanswer : env.answer s.transfers = .interrupted) (htransfers : t.transfers = s.transfers + 1)
      (hclocks : t.clocks = s.clocks)
  | blocked (hphase : s.phase = .transferring) (hnext : t.phase = .waiting) (hclocks : t.clocks = s.clocks)
  | waited (hnext : ∀ status, t.phase ≠ .returned status)
      (hclock : 0 ≤ env.clock s.clocks ∧ env.clock s.clocks < s.deadlineMs) (hclocks : t.clocks = s.clocks + 1)

/-- The outcome, if it is a transfer, was asked for exactly what is missing. -/
def AsksMissing (completed : ℕ) (e : Event) : Prop := ∀ asked answer, e = .transfer asked answer → asked = size - completed

/-- Everything one step can do. -/
inductive Move (s t : Io σ) : Prop
  | finish (hphase : s.phase = .transferring) (hfull : size ≤ s.completed) (ht : t = { s with phase := .returned .ok })
  | moved (count : ℕ+) (hroom : s.completed < size) (hnext : t.phase = .transferring)
      (hevents : t.events = s.events ++ [.transfer (size - s.completed) (.moved count)])
      (hcompleted : t.completed = s.completed + min count.val (size - s.completed))
      (hdata : t.data = store s.data s.transfers s.completed (min count.val (size - s.completed)) (by omega))
      (hdeadline : t.deadlineMs = s.deadlineMs)
  | delayed (e : Event) (hquiet : e.terminates = false) (hmoved : e.moved = 0) (hasks : AsksMissing size s.completed e)
      (hevents : t.events = s.events ++ [e]) (hcompleted : t.completed = s.completed) (hdata : t.data = s.data)
      (hdeadline : t.deadlineMs = s.deadlineMs) (hdelay : Delay env s t)
  | quit (e : Event) (status : Status) (hfails : status ≠ .ok) (hends : e.terminates = true) (hmoved : e.moved = 0)
      (hasks : AsksMissing size s.completed e) (hnext : t.phase = .returned status)
      (hevents : t.events = s.events ++ [e]) (hcompleted : t.completed = s.completed) (hdata : t.data = s.data)

variable {env size store}

theorem Delay.running {s t : Io σ} (h : Delay env s t) (status : Status) : t.phase ≠ .returned status := by
  cases h with
  | interrupted _ hnext => simp [hnext]
  | blocked _ hnext => simp [hnext]
  | waited hnext => exact hnext status

theorem asksMissing_other {completed : ℕ} {e : Event} (h : ∀ asked answer, e ≠ .transfer asked answer) :
    AsksMissing size completed e := fun asked answer he => absurd he (h asked answer)

theorem asksMissing_transfer {completed : ℕ} (answer : Answer) :
    AsksMissing size completed (.transfer (size - completed) answer) := by
  rintro asked answer' ⟨⟩
  rfl

theorem asksMissing_polled {completed : ℕ} (poll : Poll) : AsksMissing size completed (.polled poll) :=
  asksMissing_other nofun

theorem wait_move (s : Io σ) (hphase : s.phase = .waiting) : Move env size store s (waitUntilReady env s) := by
  unfold waitUntilReady
  by_cases hstop : env.stopFlag s.looks = true
  · rw [if_pos hstop]
    exact .quit .stopSeen .stopped (by decide) rfl rfl (asksMissing_other nofun) rfl rfl rfl rfl
  rw [if_neg hstop]
  by_cases hfailed : env.clock s.clocks < 0
  · simp only [if_pos hfailed]
    exact .quit .clockFailed .error (by decide) rfl rfl (asksMissing_other nofun) rfl rfl rfl rfl
  simp only [if_neg hfailed]
  by_cases hpassed : s.deadlineMs - env.clock s.clocks ≤ 0
  · simp only [if_pos hpassed]
    exact .quit .deadlinePassed .timeout (by decide) rfl rfl (asksMissing_other nofun) rfl rfl rfl rfl
  simp only [if_neg hpassed]
  have hclock : 0 ≤ env.clock s.clocks ∧ env.clock s.clocks < s.deadlineMs := by omega
  have hwaiting : ∀ status, s.phase ≠ .returned status := by
    intro status h
    rw [hphase] at h
    cases h
  generalize env.poll s.polls _ = result
  cases result with
  | ready invalid wanted broken =>
    cases invalid with
    | true => exact .quit _ .error (by decide) rfl rfl (asksMissing_polled _) rfl rfl rfl rfl
    | false =>
      cases wanted with
      | true => exact .delayed _ rfl rfl (asksMissing_polled _) rfl rfl rfl rfl (.waited nofun hclock rfl)
      | false =>
        cases broken with
        | true => exact .quit _ .error (by decide) rfl rfl (asksMissing_polled _) rfl rfl rfl rfl
        | false => exact .delayed _ rfl rfl (asksMissing_polled _) rfl rfl rfl rfl (.waited hwaiting hclock rfl)
  | expired => exact .quit _ .timeout (by decide) rfl rfl (asksMissing_polled _) rfl rfl rfl rfl
  | interrupted => exact .delayed _ rfl rfl (asksMissing_polled _) rfl rfl rfl rfl (.waited hwaiting hclock rfl)
  | failed => exact .quit _ .error (by decide) rfl rfl (asksMissing_polled _) rfl rfl rfl rfl

theorem transfer_move (s : Io σ) (h : s.completed < size) (hphase : s.phase = .transferring) :
    Move env size store s (transfer env size store s h) := by
  unfold transfer
  by_cases hstop : env.stopFlag s.looks = true
  · rw [if_pos hstop]
    exact .quit .stopSeen .stopped (by decide) rfl rfl (asksMissing_other nofun) rfl rfl rfl rfl
  rw [if_neg hstop]
  cases hanswer : env.answer s.transfers with
  | moved count => exact .moved count h hphase rfl rfl rfl rfl
  | ended => exact .quit _ .error (by decide) rfl rfl (asksMissing_transfer _) rfl rfl rfl rfl
  | interrupted =>
    exact .delayed _ rfl rfl (asksMissing_transfer _) rfl rfl rfl rfl (.interrupted hphase hphase hanswer rfl rfl)
  | wouldBlock => exact .delayed _ rfl rfl (asksMissing_transfer _) rfl rfl rfl rfl (.blocked hphase rfl rfl)
  | failed => exact .quit _ .error (by decide) rfl rfl (asksMissing_transfer _) rfl rfl rfl rfl

theorem step_move {s t : Io σ} (h : step env size store s = some t) : Move env size store s t := by
  unfold step at h
  cases hphase : s.phase with
  | returned status =>
    rw [hphase] at h
    cases h
  | waiting =>
    rw [hphase] at h
    cases h
    exact wait_move s hphase
  | transferring =>
    rw [hphase] at h
    obtain rfl := Option.some.inj h
    by_cases hroom : s.completed < size
    · rw [dif_pos hroom]
      exact transfer_move s hroom hphase
    · rw [dif_neg hroom]
      exact .finish hphase (Nat.le_of_not_lt hroom) rfl

/-- The outcomes so far and the local variables tell the same story. -/
structure Tracks (size : ℕ) (s : Io σ) : Prop where
  completed : s.completed = delivered s.events
  bounded : s.completed ≤ size
  asks : ∀ before e after, s.events = before ++ e :: after → AsksMissing size (delivered before) e
  finished : s.phase = .returned .ok → s.completed = size
  quiet : (∀ status, s.phase = .returned status → status = .ok) → ∀ e ∈ s.events, e.terminates = false
  failed : ∀ status, s.phase = .returned status → status ≠ .ok → ∃ e ∈ s.events, e.terminates = true

@[simp] theorem delivered_concat (events : List Event) (e : Event) :
    delivered (events ++ [e]) = delivered events + e.moved := by
  simp [delivered]

/-- What holds of every outcome and those before it, when one more is added. -/
theorem forall_split_concat {P : List Event → Event → Prop} {events : List Event} {e : Event}
    (h : ∀ before d after, events = before ++ d :: after → P before d) (he : P events e) :
    ∀ before d after, events ++ [e] = before ++ d :: after → P before d := by
  intro before d after hsplit
  rcases after.eq_nil_or_concat with rfl | ⟨rest,last,rfl⟩
  · obtain ⟨rfl,hd⟩ := List.append_inj' hsplit rfl
    obtain rfl : e = d := by simpa using hd
    exact he
  · rw [List.concat_eq_append,← List.cons_append,← List.append_assoc] at hsplit
    exact h before d rest (List.append_inj' hsplit rfl).1

theorem Tracks.step {s t : Io σ} (h : Tracks size s) (hs : Move env size store s t)
    (hrunning : ∀ status, s.phase ≠ .returned status) : Tracks size t := by
  have hquiet := h.quiet (fun status hstatus => absurd hstatus (hrunning status))
  cases hs with
  | finish hphase hfull ht =>
    subst ht
    refine ⟨h.completed,h.bounded,h.asks,fun _ => Nat.le_antisymm h.bounded hfull,fun _ => hquiet,?_⟩
    rintro status ⟨⟩ hne
    exact absurd rfl hne
  | moved count hroom hnext hevents hcompleted hdata hdeadline =>
    refine ⟨?_,by omega,?_,?_,?_,?_⟩
    · rw [hcompleted,hevents,delivered_concat,h.completed]
      rfl
    · rw [hevents]
      exact forall_split_concat h.asks (h.completed ▸ asksMissing_transfer _)
    · intro hphase
      rw [hnext] at hphase
      cases hphase
    · intro _ e he
      rw [hevents] at he
      rcases List.mem_append.mp he with he | he
      · exact hquiet e he
      · rw [List.mem_singleton.mp he]
        rfl
    · intro status hphase
      rw [hnext] at hphase
      cases hphase
  | delayed e hq hmoved hasks hevents hcompleted hdata hdeadline hdelay =>
    have hrunning' := hdelay.running
    refine ⟨?_,hcompleted ▸ h.bounded,?_,fun hphase => absurd hphase (hrunning' _),?_,
      fun status hphase => absurd hphase (hrunning' status)⟩
    · rw [hcompleted,hevents,delivered_concat,h.completed,hmoved,Nat.add_zero]
    · rw [hevents]
      exact forall_split_concat h.asks (h.completed ▸ hasks)
    · intro _ d hd
      rw [hevents] at hd
      rcases List.mem_append.mp hd with hd | hd
      · exact hquiet d hd
      · rw [List.mem_singleton.mp hd]
        exact hq
  | quit e status hfails hends hmoved hasks hnext hevents hcompleted hdata =>
    refine ⟨?_,hcompleted ▸ h.bounded,?_,?_,?_,?_⟩
    · rw [hcompleted,hevents,delivered_concat,h.completed,hmoved,Nat.add_zero]
    · rw [hevents]
      exact forall_split_concat h.asks (h.completed ▸ hasks)
    · intro hphase
      rw [hnext] at hphase
      exact absurd (Phase.returned.inj hphase) hfails
    · intro hok
      exact absurd (hok status hnext) hfails
    · intro _ _ _
      rw [hevents]
      exact ⟨e,by simp,hends⟩

theorem tracks_start (env : Schedule) (setup : Setup) (data : σ) : Tracks size (start env setup data) := by
  unfold start
  cases setup.deadline (env.clock 0) with
  | some deadlineMs =>
    refine ⟨rfl,Nat.zero_le _,?_,nofun,fun _ => nofun,nofun⟩
    intro before e after hsplit
    simp at hsplit
  | none =>
    refine ⟨rfl,Nat.zero_le _,?_,nofun,?_,fun _ _ _ => ⟨.setupFailed,by simp,rfl⟩⟩
    · intro before e after hsplit
      have he : e ∈ [Event.setupFailed] := by
        rw [show [Event.setupFailed] = before ++ e :: after from hsplit]
        simp
      rw [List.mem_singleton.mp he]
      exact asksMissing_other nofun
    · intro hok
      cases hok .error rfl

theorem step_running {s t : Io σ} (h : step env size store s = some t) (status : Status) :
    s.phase ≠ .returned status := by
  intro hphase
  rw [step,hphase] at h
  cases h

theorem step_none {s : Io σ} (h : step env size store s = none) : ∃ status, s.phase = .returned status := by
  unfold step at h
  cases hphase : s.phase with
  | returned status => exact ⟨status,rfl⟩
  | waiting | transferring =>
    rw [hphase] at h
    cases h

theorem reaches_tracks {setup : Setup} {data : σ} {s : Io σ}
    (h : Transition.Reaches (step env size store) (start env setup data) s) : Tracks size s :=
  h.invariant (fun _ _ hs hstep => hs.step (step_move hstep) (step_running hstep)) (tracks_start env setup data)

theorem reaches_data {Q : σ → ℕ → Prop} {setup : Setup} {data : σ} (hdata : Q data 0)
    (hstore : ∀ d call completed count h, Q d completed → Q (store d call completed count h) (completed + count))
    {s : Io σ} (h : Transition.Reaches (step env size store) (start env setup data) s) : Q s.data s.completed := by
  refine h.invariant (I := fun s => Q s.data s.completed) (fun s t hs hstep => ?_) ?_
  · cases step_move hstep with
    | finish hphase hfull ht =>
      subst ht
      exact hs
    | moved count hroom hnext hevents hcompleted hdata hdeadline =>
      rw [hdata,hcompleted]
      exact hstore _ _ _ _ _ hs
    | delayed e hq hmoved hasks hevents hcompleted hdata hdeadline hdelay =>
      rw [hdata,hcompleted]
      exact hs
    | quit e status hfails hends hmoved hasks hnext hevents hcompleted hdata =>
      rw [hdata,hcompleted]
      exact hs
  · unfold start
    cases setup.deadline (env.clock 0) <;> exact hdata

end

/-- EINTR comes only finitely often in a row. -/
def InterruptsEnd (env : Schedule) : Prop := ∀ n, ∃ m, n ≤ m ∧ env.answer m ≠ .interrupted

/-- The monotonic clock passes every point of time, or fails. -/
def ClockAdvances (env : Schedule) : Prop := ∀ time, ∃ n, ∀ m, n ≤ m → env.clock m < 0 ∨ time ≤ env.clock m

section
variable {σ : Type} {env : Schedule} {size : ℕ}
  {store : σ → ℕ → (completed count : ℕ) → completed + count ≤ size → σ}

/-- The transfers up to the next one that is not interrupted. -/
def untilAnswered (h : InterruptsEnd env) (n : ℕ) : ℕ := Nat.find (h n) - n

theorem untilAnswered_lt (h : InterruptsEnd env) {n : ℕ} (hn : env.answer n = .interrupted) :
    untilAnswered h (n + 1) < untilAnswered h n := by
  obtain ⟨hle,hne⟩ := Nat.find_spec (h n)
  have hlt : n < Nat.find (h n) := by
    refine Nat.lt_of_le_of_ne hle fun heq => ?_
    rw [← heq] at hne
    exact hne hn
  have hnext : Nat.find (h (n + 1)) ≤ Nat.find (h n) := Nat.find_min' _ ⟨hlt,hne⟩
  unfold untilAnswered
  omega

/-- The number of a reading from which on the clock has passed `time`. -/
noncomputable def passedAt (h : ClockAdvances env) (time : ℤ) : ℕ := Classical.choose (h time)

theorem lt_passedAt (h : ClockAdvances env) {time : ℤ} {n : ℕ} (hn : 0 ≤ env.clock n ∧ env.clock n < time) :
    n < passedAt h time := by
  by_contra hle
  have hpassed := Classical.choose_spec (h time) n (Nat.le_of_not_lt hle)
  omega

/-- Bytes missing, readings of the clock before the deadline, whether a transfer is due, and
interrupted transfers still to come. -/
noncomputable def remaining (size : ℕ) (hclock : ClockAdvances env) (hintr : InterruptsEnd env) (s : Io σ) :
    ℕ × ℕ × ℕ × ℕ :=
  (size - s.completed, passedAt hclock s.deadlineMs - s.clocks,
    if s.phase = .waiting then 0 else 1, untilAnswered hintr s.transfers)

def Sooner : ℕ × ℕ × ℕ × ℕ → ℕ × ℕ × ℕ × ℕ → Prop :=
  Prod.Lex (· < ·) (Prod.Lex (· < ·) (Prod.Lex (· < ·) (· < ·)))

theorem sooner_wf : WellFounded Sooner :=
  WellFounded.prod_lex Nat.lt_wfRel.wf (WellFounded.prod_lex Nat.lt_wfRel.wf
    (WellFounded.prod_lex Nat.lt_wfRel.wf Nat.lt_wfRel.wf))

theorem step_sooner (hclock : ClockAdvances env) (hintr : InterruptsEnd env) {s t : Io σ}
    (h : step env size store s = some t) :
    step env size store t = none ∨ Sooner (remaining size hclock hintr t) (remaining size hclock hintr s) := by
  cases step_move h with
  | finish hphase hfull ht =>
    subst ht
    exact Or.inl rfl
  | moved count hroom hnext hevents hcompleted hdata hdeadline =>
    right
    apply Prod.Lex.left
    have hpos := count.pos
    rw [hcompleted]
    omega
  | quit e status hfails hends hmoved hasks hnext hevents hcompleted hdata =>
    left
    rw [step,hnext]
  | delayed e hq hmoved hasks hevents hcompleted hdata hdeadline hdelay =>
    right
    unfold remaining
    rw [hcompleted,hdeadline]
    apply Prod.Lex.right
    cases hdelay with
    | waited hnext hnow hclocks =>
      apply Prod.Lex.left
      have hlt := lt_passedAt hclock hnow
      omega
    | blocked hphase hnext hclocks =>
      rw [hclocks,hphase,hnext]
      exact Prod.Lex.right _ (Prod.Lex.left _ _ (by decide))
    | interrupted hphase hnext hanswer htransfers hclocks =>
      rw [hclocks,hphase,hnext,htransfers]
      exact Prod.Lex.right _ (Prod.Lex.right _ (untilAnswered_lt hintr hanswer))

/-- All bytes were delivered, and no outcome before that ended the call. -/
def Complete (size : ℕ) (events : List Event) : Prop :=
  delivered events = size ∧ ∀ e ∈ events, e.terminates = false

/-- What both loops have in common, from the state they start in. -/
structure Transfers (env : Schedule) (size : ℕ)
    (store : σ → ℕ → (completed count : ℕ) → completed + count ≤ size → σ) (begin : Io σ) : Prop where
  asks : ∀ s, Transition.Reaches (step env size store) begin s → ∀ before asked answer after,
    s.events = before ++ .transfer asked answer :: after → asked + delivered before ≤ size
  returns : ∀ fuel s, Transition.halt (step env size store) fuel begin = some s →
    ∃ status, s.phase = .returned status ∧ (status = .ok ↔ Complete size s.events)
  ends : InterruptsEnd env → ClockAdvances env →
    ∃ fuel s, ∀ extra, Transition.halt (step env size store) (fuel + extra) begin = some s

theorem Tracks.complete_iff {s : Io σ} (h : Tracks size s) {status : Status} (hphase : s.phase = .returned status) :
    status = .ok ↔ Complete size s.events := by
  constructor
  · rintro rfl
    refine ⟨h.completed.symm.trans (h.finished hphase),h.quiet fun status hstatus => ?_⟩
    rw [hphase] at hstatus
    exact (Phase.returned.inj hstatus).symm
  · rintro ⟨-,hquiet⟩
    by_contra hne
    obtain ⟨e,he,hends⟩ := h.failed status hphase hne
    rw [hquiet e he] at hends
    cases hends

theorem transfers_start (env : Schedule) (setup : Setup) (data : σ) :
    Transfers env size store (start env setup data) := by
  refine ⟨?_,?_,?_⟩
  · intro s hs before asked answer after hsplit
    have htracks := reaches_tracks hs
    have hasked := htracks.asks before _ after hsplit asked answer rfl
    have hbefore : delivered before ≤ size := by
      have hle : delivered before ≤ delivered s.events := by
        rw [hsplit,delivered,delivered,List.map_append,List.sum_append]
        exact Nat.le_add_right _ _
      exact hle.trans (htracks.completed ▸ htracks.bounded)
    omega
  · intro fuel s hs
    obtain ⟨hreach,hhalted⟩ := Transition.reaches_of_halt hs
    obtain ⟨status,hphase⟩ := step_none hhalted
    exact ⟨status,hphase,(reaches_tracks hreach).complete_iff hphase⟩
  · intro hintr hclock
    have hsooner : ∀ s t, step env size store s = some t → step env size store t = none ∨
        Sooner (remaining size hclock hintr t) (remaining size hclock hintr s) :=
      fun _ _ h => step_sooner hclock hintr h
    obtain ⟨s,hreach,hhalted⟩ := Transition.reaches_halted sooner_wf _ hsooner (start env setup data)
    obtain ⟨fuel,hfuel⟩ := Transition.halt_of_reaches hreach hhalted
    exact ⟨fuel,s,hfuel⟩

end

/-- The buffer begins with what was delivered, chunk behind chunk. -/
theorem read_filled {env : Schedule} {bytes : ℕ → ℕ → UInt8} {setup : Setup} {size : ℕ} {buffer : Frame size}
    {s : Io (Input size)}
    (h : Transition.Reaches (step env size (Input.store bytes)) (start env setup ⟨buffer, []⟩) s) :
    Filled s.data.buffer s.data.chunks.flatten ∧ s.data.chunks.flatten.length = s.completed := by
  refine reaches_data (Q := fun input completed => Filled input.buffer input.chunks.flatten ∧
    input.chunks.flatten.length = completed) ⟨Filled.nil buffer,rfl⟩ ?_ h
  rintro input call completed count hroom ⟨hfilled,rfl⟩
  simp only [Input.store,List.flatten_append,List.flatten_cons,List.flatten_nil,List.append_nil]
  exact ⟨hfilled.write _ rfl _,by simp⟩

theorem write_sent {env : Schedule} {setup : Setup} {size : ℕ} {buffer : Frame size} {s : Io Bytes}
    (h : Transition.Reaches (step env size (sendStore buffer)) (start env setup []) s) :
    s.data = buffer.val.take s.completed := by
  refine reaches_data (Q := fun sent completed => sent = buffer.val.take completed) rfl ?_ h
  rintro sent call completed count hroom rfl
  rw [sendStore,List.take_add]

/-- Under every schedule a read fills the buffer with the delivered chunks in order, a write
sends the buffer from its start with nothing left out or sent twice, and each returns OK
exactly if it got to the end first. -/
theorem readAll_writeAll_transfer (env : Schedule) (setup : Setup) {size : ℕ} (buffer : Frame size)
    (bytes : ℕ → ℕ → UInt8) :
    (Transfers env size (Input.store bytes) (start env setup ⟨buffer, []⟩) ∧
      ∀ fuel s, qcpuDeviceReadAll env bytes setup buffer fuel = some s → s.phase = .returned .ok →
        s.data.buffer.val = s.data.chunks.flatten) ∧
    Transfers env size (sendStore buffer) (start env setup []) ∧
      (∀ s, Transition.Reaches (step env size (sendStore buffer)) (start env setup []) s →
        s.data = buffer.val.take (delivered s.events)) ∧
      ∀ fuel s, qcpuDeviceWriteAll env setup buffer fuel = some s →
        (s.phase = .returned .ok ↔ s.data = buffer.val ∧ ∀ e ∈ s.events, e.terminates = false) := by
  have hwritten : ∀ s, Transition.Reaches (step env size (sendStore buffer)) (start env setup []) s →
      s.data = buffer.val.take (delivered s.events) := by
    intro s hs
    rw [write_sent hs,(reaches_tracks hs).completed]
  refine ⟨⟨transfers_start env setup _,?_⟩,transfers_start env setup _,hwritten,?_⟩
  · intro fuel s hs hok
    obtain ⟨hreach,-⟩ := Transition.reaches_of_halt hs
    obtain ⟨hfilled,hlength⟩ := read_filled hreach
    exact hfilled.eq (hlength.trans ((reaches_tracks hreach).finished hok))
  · intro fuel s hs
    obtain ⟨hreach,hhalted⟩ := Transition.reaches_of_halt hs
    obtain ⟨status,hphase⟩ := step_none hhalted
    have hbounded : delivered s.events ≤ size := (reaches_tracks hreach).completed ▸ (reaches_tracks hreach).bounded
    have hsent : s.data = buffer.val ↔ delivered s.events = size := by
      rw [hwritten s hreach,List.take_eq_self_iff,buffer.property]
      omega
    rw [hphase,Phase.returned.injEq,hsent]
    exact (reaches_tracks hreach).complete_iff hphase

/-- A peer that interrupts, delivers two bytes, lets the caller wait and delivers the rest. -/
def fragmented : Schedule where
  answer n := match n with
    | 0 => .interrupted
    | 1 => .moved (Nat.succPNat 1)
    | 2 => .wouldBlock
    | _ => .moved (Nat.succPNat 4)
  poll _ _ := .ready false true false
  clock n := n
  stopFlag _ := false

def fragmentedSetup : Setup := ⟨3, false, 2000, ⟨some false, true⟩⟩

theorem readAll_writeAll_transfer_fragmented :
    (∃ s, qcpuDeviceReadAll fragmented (fun call _ => UInt8.ofNat call) fragmentedSetup
        (⟨[9, 9, 9], rfl⟩ : Frame 3) 7 = some s ∧ s.phase = .returned .ok ∧ s.data.buffer.val = [1, 1, 3]) ∧
    ∃ fuel s, qcpuDeviceWriteAll fragmented fragmentedSetup (⟨[7, 8, 9], rfl⟩ : Frame 3) fuel = some s := by
  have hintr : InterruptsEnd fragmented := by
    intro n
    refine ⟨n + 3,Nat.le_add_right n 3,?_⟩
    show Answer.moved (Nat.succPNat 4) ≠ .interrupted
    nofun
  have hclock : ClockAdvances fragmented := by
    intro time
    refine ⟨time.toNat,fun m hm => Or.inr ?_⟩
    show time ≤ (m : ℤ)
    omega
  constructor
  · refine ⟨_,rfl,rfl,?_⟩
    exact (readAll_writeAll_transfer fragmented fragmentedSetup (⟨[9, 9, 9], rfl⟩ : Frame 3)
      (fun call _ => UInt8.ofNat call)).1.2 7 _ rfl rfl
  · obtain ⟨fuel,s,hs⟩ := (readAll_writeAll_transfer fragmented fragmentedSetup (⟨[7, 8, 9], rfl⟩ : Frame 3)
      (fun _ _ => 0)).2.1.ends hintr hclock
    exact ⟨fuel + 0,s,hs 0⟩

end QbitNova.DeviceIo
