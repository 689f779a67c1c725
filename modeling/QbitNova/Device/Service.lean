import QbitNova.Device.Daemon
import QbitNova.Device.DeviceIo
import QbitNova.Tools.Arguments
import Mathlib.Logic.Function.Basic

/-! # The daemon, its signals and its clients

The main function of qcpud and any number of client processes, connected by byte streams.
An event is one system call of a process with the code up to the next one, or a signal; what
the operating system answers is chosen by the event. Every process makes one connection,
which goes by the number of the process. Peers that follow no program may do what they like
with their own connection.
-/
namespace QbitNova.Service
open CText LittleEndian DeviceWire DeviceIo Quantum Tools

abbrev RequestWire := Frame qcpuDeviceRequestWireSize
abbrev ResponseWire := Frame qcpuDeviceResponseWireSize

def blank (size : ℕ) : Frame size := ⟨List.replicate size 0, List.length_replicate⟩

/-- A connection: the bytes under way in both directions, whether the client has stopped
sending, and which side has closed. -/
structure Channel where
  toDaemon : Bytes := []
  toClient : Bytes := []
  clientDone : Bool := false
  clientGone : Bool := false
  daemonGone : Bool := false

/-- What the operating system answers to one pass of a transfer loop. -/
structure Now where
  answer : Answer := .wouldBlock
  poll : Poll := .expired
  nowMs : ℤ := 0
  fcntl : Fcntl := ⟨some false, true⟩

def Now.schedule (now : Now) (stopRequested : Bool) : Schedule :=
  ⟨fun _ => now.answer, fun _ _ => now.poll, fun _ => now.nowMs, fun _ => stopRequested⟩

def qcpuDeviceIoTimeoutMs : ℤ := 2000

def Now.setup (now : Now) (fd : ℕ) : Setup := ⟨fd, false, qcpuDeviceIoTimeoutMs, now.fcntl⟩

/-- A read takes at most the bytes under way, and the end is reached behind the last of them. -/
def readable (queue : Bytes) (done : Bool) : Answer → Prop
  | .moved count => count.val ≤ queue.length
  | .ended => queue = [] ∧ done = true
  | _ => True

instance (queue : Bytes) (done : Bool) : (answer : Answer) → Decidable (readable queue done answer)
  | .moved count => inferInstanceAs (Decidable (count.val ≤ queue.length))
  | .ended => inferInstanceAs (Decidable (queue = [] ∧ done = true))
  | .interrupted | .wouldBlock | .failed => .isTrue trivial

/-- Nothing can be sent to a side that has closed. -/
def writable (gone : Bool) : Answer → Prop
  | .moved _ => gone = false
  | _ => True

instance (gone : Bool) : (answer : Answer) → Decidable (writable gone answer)
  | .moved _ => inferInstanceAs (Decidable (gone = false))
  | .ended | .interrupted | .wouldBlock | .failed => .isTrue trivial

/-- One pass of a read from a stream: the call afterwards, and the bytes still under way. -/
def readStep {size : ℕ} (env : Schedule) (queue : Bytes) (io : Io (Input size)) : Option (Io (Input size) × Bytes) :=
  (step env size (Input.store fun _ i => queue.getD i 0) io).map fun next =>
    (next, queue.drop (next.completed - io.completed))

def writeStep {size : ℕ} (env : Schedule) (buffer : Frame size) (queue : Bytes) (io : Io Bytes) :
    Option (Io Bytes × Bytes) :=
  (step env size (sendStore buffer) io).map fun next =>
    (next, queue ++ (buffer.val.drop io.completed).take (next.completed - io.completed))

/-- Where the device client stands; the printed response and the exit code at the end. -/
inductive Client where
  | idle
  | connecting (request : QCPUDeviceRequest) (wire : RequestWire)
  | writing (request : QCPUDeviceRequest) (wire : RequestWire) (io : Io Bytes)
  | shutdown (request : QCPUDeviceRequest) (wire : RequestWire)
  | reading (request : QCPUDeviceRequest) (wire : RequestWire) (io : Io (Input qcpuDeviceResponseWireSize))
  | exited (request : Option QCPUDeviceRequest) (printed : Option QCPUDeviceResponse) (code : ℕ)
  | peer

inductive Place where
  | handlers
  | lstat
  | unlinkOld
  | socket
  | bind
  | chmod
  | listen
  | publish
  | closeSetup (bound : Bool)
  | unlinkSetup
  | accept
  | accepted (client fd : ℕ)
  | notAccepted (interrupted : Bool)
  | reading (client fd : ℕ) (io : Io (Input qcpuDeviceRequestWireSize))
  | answering (client fd : ℕ) (wire : RequestWire)
  | answered (client fd : ℕ) (frame : ResponseWire)
  | writing (client fd : ℕ) (frame : ResponseWire) (io : Io Bytes)
  | served (client fd : ℕ) (result : ℤ)
  | closed (result : ℤ)
  | retract (failed : Bool)
  | closeServer (failed : Bool)
  | unlink (failed : Bool)
  | exited (code : ℕ)

inductive Descriptor where
  | other
  | listener
  | client (client : ℕ)
  deriving DecidableEq, Repr

structure Node where
  isSocket : Bool
  isOwn : Bool
  deriving DecidableEq, Repr

/-- The processes and what is between them. `acceptInterrupted` tells that a stop signal was
caught while the daemon was in `accept`. -/
structure System where
  once : Bool
  place : Place
  stopRequested : Bool
  acceptInterrupted : Bool
  serverFd : ℤ
  serverFdForSignal : ℤ
  fds : ℕ → Option Descriptor
  node : Option Node
  backlog : List ℕ
  channel : ℕ → Channel
  client : ℕ → Client

/-- A daemon that was started with arguments it accepts or not, in a process that has other
descriptors open. -/
def System.initial (args : List Bytes) (others : ℕ → Bool) (node : Option Node) : System :=
  { once := match daemonArguments (str "qcpud") args with
      | .ok (_, once) => once
      | .error _ => false
    place := match daemonArguments (str "qcpud") args with
      | .ok _ => .handlers
      | .error _ => .exited 1
    stopRequested := false
    acceptInterrupted := false
    serverFd := -1
    serverFdForSignal := -1
    fds := fun fd => if others fd then some .other else none
    node := node
    backlog := []
    channel := fun _ => {}
    client := fun _ => .idle }

/-- The system calls of the daemon, with what they answer. -/
inductive DaemonEvent where
  | handlers (fails : Bool)
  | lstat (fails : Bool)
  | unlinkOld (fails : Bool)
  | socket (fd : Option ℕ)
  | bind (fails : Bool)
  | chmod (fails : Bool)
  | listen (fails : Bool)
  | publish
  | closeSetup
  | unlinkSetup (fails : Bool)
  | accept (fd : ℕ)
  | acceptFailed (interrupted : Bool)
  | stopChecked
  | readStarted (now : Now) (buffer : RequestWire)
  | read (now : Now)
  | answer (connection : Connection) (allocations : Allocations)
  | writeStarted (now : Now)
  | write (now : Now)
  | closeClient
  | resultChecked
  | retract
  | closeServer (fails : Bool)
  | unlink (fails : Bool)

inductive ClientEvent where
  | launch (args : List Bytes) (buffer : RequestWire)
  | connect (now : Now) (fd : ℕ)
  | connectFailed
  | write (now : Now)
  | shutdown (fails : Bool) (now : Now) (fd : ℕ) (buffer : ResponseWire) (old : QCPUDeviceResponse)
  | read (now : Now) (old : QCPUDeviceResponse)

inductive PeerEvent where
  | connect
  | send (bytes : Bytes)
  | receive (count : ℕ)
  | close

inductive Event where
  | daemon (e : DaemonEvent)
  | signal
  | client (i : ℕ) (e : ClientEvent)
  | peer (i : ℕ) (e : PeerEvent)
  | meddle (node : Option Node)

namespace System
variable (s : System)

def goto (place : Place) : System := { s with place := place }

/-- The daemon's side of a connection is closed. -/
def hangUp (i : ℕ) : System := { s with channel := Function.update s.channel i { s.channel i with daemonGone := true } }

/-- Closing a number closes what it refers to, whatever that is. A closed listener takes the
connections with it that nobody accepted. -/
def close (fd : ℕ) : System :=
  let freed := { s with fds := Function.update s.fds fd none }
  match s.fds fd with
  | some .listener => { s.backlog.foldl hangUp freed with backlog := [] }
  | some (.client i) => freed.hangUp i
  | _ => freed

/-- A stop is asked for; an `accept` that waits will return. -/
def requestStop : System :=
  { s with
    stopRequested := true
    acceptInterrupted := match s.place with
      | .accept => true
      | _ => s.acceptInterrupted }

def handleStopSignal : System :=
  let stopped := s.requestStop
  if s.serverFdForSignal ≥ 0 then stopped.close s.serverFdForSignal.toNat else stopped

/-- Whether connections are taken in: behind `listen`, until the descriptor is closed. -/
def listening : Bool :=
  s.fds s.serverFd.toNat == some .listener && match s.place with
  | .handlers | .lstat | .unlinkOld | .socket | .bind | .chmod | .listen | .closeSetup _ | .unlinkSetup => false
  | _ => true

/-- Signals are caught once the handlers are installed, until the process is gone. -/
def catchesSignals : Bool :=
  match s.place with
  | .handlers | .exited _ => false
  | _ => true

end System

section
variable {D : Type} [Scalars D] (store : D → Binary64)

/-- Where the daemon goes from a finished read. -/
def afterRead (client fd : ℕ) (io : Io (Input qcpuDeviceRequestWireSize)) : Place :=
  match io.phase with
  | .returned .ok => .answering client fd io.data.buffer
  | .returned _ => .served client fd (-1)
  | _ => .reading client fd io

def afterWrite (client fd : ℕ) (frame : ResponseWire) (io : Io Bytes) : Place :=
  match io.phase with
  | .returned .ok => .served client fd 0
  | .returned _ => .served client fd (-1)
  | _ => .writing client fd frame io

def System.daemon (s : System) (e : DaemonEvent) : Option System :=
  match s.place, e with
  | .handlers, .handlers fails => some (s.goto (if fails then .exited 1 else .lstat))
  | .lstat, .lstat fails =>
    some <| s.goto <| match fails, s.node with
      | true, _ => .exited 1
      | false, some node => if !node.isSocket || !node.isOwn then .exited 1 else .unlinkOld
      | false, none => .socket
  | .unlinkOld, .unlinkOld fails => some (if fails then s.goto (.exited 1) else { s.goto .socket with node := none })
  | .socket, .socket none => some (s.goto (.exited 1))
  | .socket, .socket (some fd) =>
    if s.fds fd = none then
      some { s.goto .bind with fds := Function.update s.fds fd (some .listener), serverFd := fd }
    else none
  | .bind, .bind fails =>
    if !fails && s.node.isSome then none
    else some (if fails then s.goto (.closeSetup false) else { s.goto .chmod with node := some ⟨true, true⟩ })
  | .chmod, .chmod fails => some (s.goto (if fails then .closeSetup true else .listen))
  | .listen, .listen fails => some (s.goto (if fails then .closeSetup true else .publish))
  | .publish, .publish => some { s.goto .accept with serverFdForSignal := s.serverFd }
  | .closeSetup bound, .closeSetup =>
    some ((s.close s.serverFd.toNat).goto (if bound then .unlinkSetup else .exited 1))
  | .unlinkSetup, .unlinkSetup fails => some { s.goto (.exited 1) with node := if fails then s.node else none }
  | .accept, .accept fd =>
    match s.fds s.serverFd.toNat, s.backlog with
    | some .listener, i :: rest =>
      if s.fds fd = none then
        some { s.goto (.accepted i fd) with fds := Function.update s.fds fd (some (.client i)), backlog := rest }
      else none
    | _, _ => none
  | .accept, .acceptFailed interrupted =>
    -- only a signal interrupts the call; other errors may come at any time
    if interrupted && !s.acceptInterrupted then none else some (s.goto (.notAccepted interrupted))
  | .notAccepted interrupted, .stopChecked =>
    some (s.goto (if s.stopRequested then .retract false else if interrupted then .accept else .retract true))
  | .accepted i fd, .readStarted now buffer =>
    some (s.goto (afterRead i fd (start (now.schedule s.stopRequested) (now.setup fd) ⟨buffer, []⟩)))
  | .reading i fd io, .read now =>
    if readable (s.channel i).toDaemon (s.channel i).clientDone now.answer then
      (readStep (now.schedule s.stopRequested) (s.channel i).toDaemon io).map fun next =>
        { s.goto (afterRead i fd next.1) with
          channel := Function.update s.channel i { s.channel i with toDaemon := next.2 } }
    else none
  | .answering i fd wire, .answer connection allocations =>
    some <| s.goto <| match qcpuDeviceEncodeResponse connection.responseWire
        (answerRequest store allocations connection.request wire.val) with
      | (.ok, frame) => .answered i fd frame
      | _ => .served i fd (-1)
  | .answered i fd frame, .writeStarted now =>
    some (s.goto (afterWrite i fd frame (start (now.schedule s.stopRequested) (now.setup fd) [])))
  | .writing i fd frame io, .write now =>
    if writable (s.channel i).clientGone now.answer then
      (writeStep (now.schedule s.stopRequested) frame (s.channel i).toClient io).map fun next =>
        { s.goto (afterWrite i fd frame next.1) with
          channel := Function.update s.channel i { s.channel i with toClient := next.2 } }
    else none
  | .served _ fd result, .closeClient => some ((s.close fd).goto (.closed result))
  | .closed result, .resultChecked =>
    some <| s.goto <|
      if result ≠ 0 then if s.once then .retract true else if s.stopRequested then .retract false else .accept
      else if s.once then .retract false else .accept
  | .retract failed, .retract => some { s.goto (.closeServer failed) with serverFdForSignal := -1 }
  | .closeServer failed, .closeServer fails =>
    some ((s.close s.serverFd.toNat).goto (.unlink (failed || fails)))
  | .unlink failed, .unlink fails =>
    some { s.goto (.exited (if failed || fails then 1 else 0)) with node := if fails then s.node else none }
  | _, _ => none

def clientAfterWrite (request : QCPUDeviceRequest) (wire : RequestWire) (io : Io Bytes) : Client :=
  match io.phase with
  | .returned .ok => .shutdown request wire
  | .returned _ => .exited (some request) none 1
  | _ => .writing request wire io

/-- Where it goes from its read, with what it prints. -/
def clientAfterRead (request : QCPUDeviceRequest) (wire : RequestWire) (old : QCPUDeviceResponse)
    (io : Io (Input qcpuDeviceResponseWireSize)) : Client :=
  match io.phase with
  | .returned .ok =>
    match qcpuDeviceDecodeResponse old io.data.buffer.val with
    | (.ok, response) =>
      .exited (some request) (some response) (if response.status = QCPUDeviceStatus.ok.code then 0 else 1)
    | _ => .exited (some request) none 1
  | .returned _ => .exited (some request) none 1
  | _ => .reading request wire io

/-- A client goes on; one that exits closes its connection. -/
def System.settle (s : System) (i : ℕ) (client : Client) : System :=
  let channel := match client with
    | .exited .. => { s.channel i with clientDone := true, clientGone := true }
    | _ => s.channel i
  { s with client := Function.update s.client i client, channel := Function.update s.channel i channel }

def System.clientStep (s : System) (i : ℕ) (e : ClientEvent) : Option System :=
  match s.client i, e with
  | .idle, .launch args buffer =>
    some <| s.settle i <| match clientRequest (str "qnova-device-client") args with
      | .error _ => .exited none none 1
      | .ok (_, request) =>
        match qcpuDeviceEncodeRequest buffer request with
        | (.ok, wire) => .connecting request wire
        | _ => .exited (some request) none 1
  | .connecting request wire, .connect now fd =>
    if s.listening then
      some { s.settle i (clientAfterWrite request wire (start (now.schedule false) (now.setup fd) [])) with
        backlog := s.backlog ++ [i] }
    else none
  | .connecting request _, .connectFailed => some (s.settle i (.exited (some request) none 1))
  | .writing request wire io, .write now =>
    if writable (s.channel i).daemonGone now.answer then
      (writeStep (now.schedule false) wire (s.channel i).toDaemon io).map fun next =>
        { s with channel := Function.update s.channel i { s.channel i with toDaemon := next.2 } }.settle i
          (clientAfterWrite request wire next.1)
    else none
  | .shutdown request wire, .shutdown fails now fd buffer old =>
    some <| if fails then s.settle i (.exited (some request) none 1)
      else { s with channel := Function.update s.channel i { s.channel i with clientDone := true } }.settle i
        (clientAfterRead request wire old (start (now.schedule false) (now.setup fd) ⟨buffer, []⟩))
  | .reading request wire io, .read now old =>
    if readable (s.channel i).toClient (s.channel i).daemonGone now.answer then
      (readStep (now.schedule false) (s.channel i).toClient io).map fun next =>
        { s with channel := Function.update s.channel i { s.channel i with toClient := next.2 } }.settle i
          (clientAfterRead request wire old next.1)
    else none
  | _, _ => none

def System.peerStep (s : System) (i : ℕ) (e : PeerEvent) : Option System :=
  match s.client i, e with
  | .idle, .connect => if s.listening then some { s.settle i .peer with backlog := s.backlog ++ [i] } else none
  | .peer, .send bytes =>
    some { s with channel := Function.update s.channel i { s.channel i with toDaemon := (s.channel i).toDaemon ++ bytes } }
  | .peer, .receive count =>
    some { s with channel := Function.update s.channel i { s.channel i with toClient := (s.channel i).toClient.drop count } }
  | .peer, .close =>
    some { s with channel := Function.update s.channel i { s.channel i with clientDone := true, clientGone := true } }
  | _, _ => none

def System.step (s : System) : Event → Option System
  | .daemon e => s.daemon store e
  | .signal => if s.catchesSignals then some s.handleStopSignal else none
  | .client i e => s.clientStep i e
  | .peer i e => s.peerStep i e
  | .meddle node => some { s with node := node }

end

def setupRun : List Event :=
  [.daemon (.handlers false), .daemon (.lstat false), .daemon (.socket (some 3)), .daemon (.bind false),
    .daemon (.chmod false), .daemon (.listen false), .daemon .publish]

theorem start_completed {σ : Type} (env : Schedule) (setup : Setup) (data : σ) : (start env setup data).completed = 0 ∧
    (start env setup data).data = data ∧ (start env setup data).phase ≠ .returned .ok := by
  unfold start
  cases setup.deadline (env.clock 0) <;> exact ⟨rfl,rfl,nofun⟩

theorem initial_place (args : List Bytes) (others : ℕ → Bool) (node : Option Node) :
    (System.initial args others node).place = .handlers ∨ (System.initial args others node).place = .exited 1 := by
  unfold System.initial
  cases daemonArguments (str "qcpud") args with
  | ok accepted => exact Or.inl rfl
  | error message => exact Or.inr rfl

section Closing
variable (s : System)

/-- The parts of the state that nobody changes by closing something. -/
structure Unmoved (s t : System) : Prop where
  once : t.once = s.once
  place : t.place = s.place
  stopRequested : t.stopRequested = s.stopRequested
  serverFd : t.serverFd = s.serverFd
  serverFdForSignal : t.serverFdForSignal = s.serverFdForSignal
  node : t.node = s.node
  client : t.client = s.client
  toDaemon : ∀ i, (t.channel i).toDaemon = (s.channel i).toDaemon
  toClient : ∀ i, (t.channel i).toClient = (s.channel i).toClient

theorem Unmoved.trans {s t u : System} (h : Unmoved s t) (h' : Unmoved t u) : Unmoved s u where
  once := h'.once.trans h.once
  place := h'.place.trans h.place
  stopRequested := h'.stopRequested.trans h.stopRequested
  serverFd := h'.serverFd.trans h.serverFd
  serverFdForSignal := h'.serverFdForSignal.trans h.serverFdForSignal
  node := h'.node.trans h.node
  client := h'.client.trans h.client
  toDaemon i := (h'.toDaemon i).trans (h.toDaemon i)
  toClient i := (h'.toClient i).trans (h.toClient i)

theorem hangUp_unmoved (i : ℕ) : Unmoved s (s.hangUp i) := by
  have hchannel : ∀ j, ((s.hangUp i).channel j).toDaemon = (s.channel j).toDaemon ∧
      ((s.hangUp i).channel j).toClient = (s.channel j).toClient := by
    intro j
    by_cases hj : j = i
    · subst hj
      simp [System.hangUp]
    · simp [System.hangUp,Function.update_of_ne hj]
  exact ⟨rfl,rfl,rfl,rfl,rfl,rfl,rfl,fun j => (hchannel j).1,fun j => (hchannel j).2⟩

theorem hangUp_all (waiting : List ℕ) :
    Unmoved s (waiting.foldl System.hangUp s) ∧ (waiting.foldl System.hangUp s).fds = s.fds := by
  induction waiting generalizing s with
  | nil => exact ⟨⟨rfl,rfl,rfl,rfl,rfl,rfl,rfl,fun _ => rfl,fun _ => rfl⟩,rfl⟩
  | cons i waiting ih =>
    obtain ⟨hunmoved,hfds⟩ := ih (s.hangUp i)
    exact ⟨(hangUp_unmoved s i).trans hunmoved,hfds⟩

theorem close_spec (fd : ℕ) : Unmoved s (s.close fd) ∧ (s.close fd).fds = Function.update s.fds fd none ∧
    ((s.close fd).backlog = s.backlog ∨ (s.close fd).backlog = []) := by
  have hfreed : Unmoved s { s with fds := Function.update s.fds fd none } :=
    ⟨rfl,rfl,rfl,rfl,rfl,rfl,rfl,fun _ => rfl,fun _ => rfl⟩
  unfold System.close
  cases s.fds fd with
  | none => exact ⟨hfreed,rfl,Or.inl rfl⟩
  | some descriptor =>
    cases descriptor with
    | other => exact ⟨hfreed,rfl,Or.inl rfl⟩
    | listener =>
      obtain ⟨hunmoved,hfds⟩ := hangUp_all { s with fds := Function.update s.fds fd none } s.backlog
      have hlast := hfreed.trans hunmoved
      exact ⟨⟨hlast.once,hlast.place,hlast.stopRequested,hlast.serverFd,hlast.serverFdForSignal,hlast.node,
        hlast.client,hlast.toDaemon,hlast.toClient⟩,hfds,Or.inr rfl⟩
    | client i => exact ⟨hfreed.trans (hangUp_unmoved _ i),rfl,Or.inl rfl⟩

end Closing

section Moves

/-- The connection the daemon is busy with and its descriptor. -/
def Place.connection : Place → Option (ℕ × ℕ)
  | .accepted i fd | .reading i fd _ | .answering i fd _ | .answered i fd _ | .writing i fd _ _ | .served i fd _ =>
    some (i, fd)
  | _ => none

/-- Whether `server_fd` is a descriptor that main has opened and not closed. -/
def Place.holdsServer : Place → Bool
  | .handlers | .lstat | .unlinkOld | .socket | .unlinkSetup | .unlink _ | .exited _ => false
  | _ => true

/-- Whether the handler knows the descriptor. -/
def Place.published : Place → Bool
  | .accept | .accepted .. | .notAccepted _ | .reading .. | .answering .. | .answered .. | .writing .. | .served .. |
    .closed _ | .retract _ => true
  | _ => false

/-- Two places between which nothing is opened, closed or published. -/
structure Place.Near (p q : Place) : Prop where
  connection : q.connection = p.connection
  holdsServer : q.holdsServer = p.holdsServer
  published : q.published = p.published

variable {D : Type} [Scalars D] (store : D → Binary64)

/-- What one step of the daemon can do to the descriptors and the connections. -/
inductive Move (s : System) : System → Prop
  | walk (place : Place) (node : Option Node) (hidle : s.place.connection = none) (hnear : s.place.Near place) :
      Move s { s.goto place with node := node }
  | socket (fd : ℕ) (hplace : s.place = .socket) (hfree : s.fds fd = none) :
      Move s { s.goto .bind with fds := Function.update s.fds fd (some .listener), serverFd := fd }
  | publish (hplace : s.place = .publish) : Move s { s.goto .accept with serverFdForSignal := s.serverFd }
  | closeSetup (bound : Bool) (hplace : s.place = .closeSetup bound) :
      Move s ((s.close s.serverFd.toNat).goto (if bound then .unlinkSetup else .exited 1))
  | accept (i fd : ℕ) (rest : List ℕ) (hplace : s.place = .accept) (hlistener : s.fds s.serverFd.toNat = some .listener)
      (hbacklog : s.backlog = i :: rest) (hfree : s.fds fd = none) :
      Move s { s.goto (.accepted i fd) with fds := Function.update s.fds fd (some (.client i)), backlog := rest }
  | startRead (i fd : ℕ) (now : Now) (buffer : RequestWire) (hplace : s.place = .accepted i fd) :
      Move s (s.goto (afterRead i fd (start (now.schedule s.stopRequested) (now.setup fd) ⟨buffer, []⟩)))
  | read (i fd : ℕ) (io next : Io (Input qcpuDeviceRequestWireSize)) (rest : Bytes) (now : Now)
      (hplace : s.place = .reading i fd io)
      (havailable : readable (s.channel i).toDaemon (s.channel i).clientDone now.answer)
      (hstep : readStep (now.schedule s.stopRequested) (s.channel i).toDaemon io = some (next, rest)) :
      Move s { s.goto (afterRead i fd next) with
        channel := Function.update s.channel i { s.channel i with toDaemon := rest } }
  | answer (i fd : ℕ) (wire : RequestWire) (connection : Connection) (allocations : Allocations) (frame : ResponseWire)
      (hplace : s.place = .answering i fd wire)
      (hframe : qcpuDeviceEncodeResponse connection.responseWire
        (answerRequest store allocations connection.request wire.val) = (.ok, frame)) :
      Move s (s.goto (.answered i fd frame))
  | startWrite (i fd : ℕ) (frame : ResponseWire) (now : Now) (hplace : s.place = .answered i fd frame) :
      Move s (s.goto (afterWrite i fd frame (start (now.schedule s.stopRequested) (now.setup fd) [])))
  | write (i fd : ℕ) (frame : ResponseWire) (io next : Io Bytes) (rest : Bytes) (now : Now)
      (hplace : s.place = .writing i fd frame io)
      (hstep : writeStep (now.schedule s.stopRequested) frame (s.channel i).toClient io = some (next, rest)) :
      Move s { s.goto (afterWrite i fd frame next) with
        channel := Function.update s.channel i { s.channel i with toClient := rest } }
  | closeClient (i fd : ℕ) (result : ℤ) (hplace : s.place = .served i fd result) :
      Move s ((s.close fd).goto (.closed result))
  | retract (failed : Bool) (hplace : s.place = .retract failed) :
      Move s { s.goto (.closeServer failed) with serverFdForSignal := -1 }
  | closeServer (failed fails : Bool) (hplace : s.place = .closeServer failed) :
      Move s ((s.close s.serverFd.toNat).goto (.unlink (failed || fails)))

variable {store}

theorem Move.goto {s : System} {p q : Place} (hplace : s.place = p) (hidle : p.connection = none) (hnear : p.Near q) :
    Move store s (s.goto q) := .walk q s.node (hplace ▸ hidle) (hplace ▸ hnear)

theorem daemon_move {s t : System} {e : DaemonEvent} (h : s.daemon store e = some t) : Move store s t := by
  revert h
  fun_cases System.daemon store s e with
  | case1 fails hplace =>
    rintro ⟨⟩
    exact .goto hplace rfl (by cases fails <;> exact ⟨rfl,rfl,rfl⟩)
  | case2 fails hplace =>
    rintro ⟨⟩
    refine .goto hplace rfl ?_
    split
    · exact ⟨rfl,rfl,rfl⟩
    · split_ifs <;> exact ⟨rfl,rfl,rfl⟩
    · exact ⟨rfl,rfl,rfl⟩
  | case3 fails hplace =>
    rintro ⟨⟩
    cases fails with
    | true => exact .goto hplace rfl ⟨rfl,rfl,rfl⟩
    | false => exact .walk .socket none (by rw [hplace]; rfl) (hplace ▸ ⟨rfl,rfl,rfl⟩)
  | case4 hplace =>
    rintro ⟨⟩
    exact .goto hplace rfl ⟨rfl,rfl,rfl⟩
  | case5 fd hplace hfree =>
    rintro ⟨⟩
    exact .socket fd hplace hfree
  | case8 fails hplace =>
    rintro ⟨⟩
    cases fails with
    | true => exact .goto hplace rfl ⟨rfl,rfl,rfl⟩
    | false => exact .walk .chmod _ (by rw [hplace]; rfl) (hplace ▸ ⟨rfl,rfl,rfl⟩)
  | case9 fails hplace =>
    rintro ⟨⟩
    exact .goto hplace rfl (by cases fails <;> exact ⟨rfl,rfl,rfl⟩)
  | case10 fails hplace =>
    rintro ⟨⟩
    exact .goto hplace rfl (by cases fails <;> exact ⟨rfl,rfl,rfl⟩)
  | case11 hplace =>
    rintro ⟨⟩
    exact .publish hplace
  | case12 bound hplace =>
    rintro ⟨⟩
    exact .closeSetup bound hplace
  | case13 fails hplace =>
    rintro ⟨⟩
    exact .walk (.exited 1) _ (by rw [hplace]; rfl) (hplace ▸ ⟨rfl,rfl,rfl⟩)
  | case14 fd hplace i rest hbacklog hlistener hfree =>
    rintro ⟨⟩
    exact .accept i fd rest hplace hlistener hbacklog hfree
  | case18 interrupted hplace =>
    rintro ⟨⟩
    exact .goto hplace rfl ⟨rfl,rfl,rfl⟩
  | case19 interrupted hplace =>
    rintro ⟨⟩
    exact .goto hplace rfl (by split_ifs <;> exact ⟨rfl,rfl,rfl⟩)
  | case20 i fd now buffer hplace =>
    rintro ⟨⟩
    exact .startRead i fd now buffer hplace
  | case21 i fd io now hplace havailable =>
    intro h
    obtain ⟨⟨next,rest⟩,hstep,rfl⟩ := Option.map_eq_some_iff.mp h
    exact .read i fd io next rest now hplace havailable hstep
  | case23 i fd wire connection allocations hplace =>
    rintro ⟨⟩
    exact .answer i fd wire connection allocations _ hplace rfl
  | case24 i fd frame now hplace =>
    rintro ⟨⟩
    exact .startWrite i fd frame now hplace
  | case25 i fd frame io now hplace =>
    intro h
    obtain ⟨⟨next,rest⟩,hstep,rfl⟩ := Option.map_eq_some_iff.mp h
    exact .write i fd frame io next rest now hplace hstep
  | case27 i fd result hplace =>
    rintro ⟨⟩
    exact .closeClient i fd result hplace
  | case28 result hplace =>
    rintro ⟨⟩
    exact .goto hplace rfl (by split_ifs <;> exact ⟨rfl,rfl,rfl⟩)
  | case29 failed hplace =>
    rintro ⟨⟩
    exact .retract failed hplace
  | case30 failed fails hplace =>
    rintro ⟨⟩
    exact .closeServer failed fails hplace
  | case31 failed fails hplace =>
    rintro ⟨⟩
    exact .walk _ _ (by rw [hplace]; rfl) (hplace ▸ ⟨rfl,rfl,rfl⟩)
  | case6 | case7 | case15 | case16 | case17 | case22 | case26 | case32 => nofun

end Moves

section Frame
variable {D : Type} [Scalars D] {store : D → Binary64} {s t : System}

/-- Two states between which the daemon has done nothing. -/
structure SameDaemon (s t : System) : Prop where
  once : t.once = s.once
  place : t.place = s.place
  stopRequested : t.stopRequested = s.stopRequested
  serverFd : t.serverFd = s.serverFd
  serverFdForSignal : t.serverFdForSignal = s.serverFdForSignal
  fds : t.fds = s.fds

theorem settle_sameDaemon (s : System) (i : ℕ) (c : Client) :
    SameDaemon s (s.settle i c) ∧ (s.settle i c).node = s.node := ⟨⟨rfl,rfl,rfl,rfl,rfl,rfl⟩,rfl⟩

theorem client_sameDaemon {i : ℕ} {e : ClientEvent} (h : s.clientStep i e = some t) :
    SameDaemon s t ∧ t.node = s.node := by
  revert h
  fun_cases System.clientStep s i e with
  | case1 | case4 =>
    intro h
    obtain rfl := Option.some.inj h
    exact settle_sameDaemon s i _
  | case2 =>
    intro h
    obtain rfl := Option.some.inj h
    exact ⟨⟨rfl,rfl,rfl,rfl,rfl,rfl⟩,rfl⟩
  | case5 | case8 =>
    intro h
    obtain ⟨next,-,rfl⟩ := Option.map_eq_some_iff.mp h
    exact ⟨⟨rfl,rfl,rfl,rfl,rfl,rfl⟩,rfl⟩
  | case7 request wire fails =>
    intro h
    obtain rfl := Option.some.inj h
    cases fails <;> exact ⟨⟨rfl,rfl,rfl,rfl,rfl,rfl⟩,rfl⟩
  | case3 | case6 | case9 | case10 =>
    intro h
    cases h

theorem peer_sameDaemon {i : ℕ} {e : PeerEvent} (h : s.peerStep i e = some t) :
    SameDaemon s t ∧ t.node = s.node := by
  revert h
  fun_cases System.peerStep s i e with
  | case1 | case3 | case4 | case5 =>
    intro h
    obtain rfl := Option.some.inj h
    exact ⟨⟨rfl,rfl,rfl,rfl,rfl,rfl⟩,rfl⟩
  | case2 | case6 =>
    intro h
    cases h

/-- A step is one of the daemon, a signal, or leaves the daemon as it is. -/
theorem step_cases {e : Event} (h : s.step store e = some t) : (∃ d, e = .daemon d ∧ s.daemon store d = some t) ∨
    (e = .signal ∧ s.catchesSignals = true ∧ t = s.handleStopSignal) ∨
    ((∀ d, e ≠ .daemon d) ∧ e ≠ .signal ∧ SameDaemon s t ∧ (t.node = s.node ∨ ∃ node, e = .meddle node)) := by
  cases e with
  | daemon d => exact Or.inl ⟨d,rfl,h⟩
  | signal =>
    obtain ⟨hcatches,h⟩ := Option.ite_none_right_eq_some.mp h
    exact Or.inr (Or.inl ⟨rfl,hcatches,(Option.some.inj h).symm⟩)
  | client i e =>
    obtain ⟨hsame,hnode⟩ := client_sameDaemon h
    exact Or.inr (Or.inr ⟨by simp,by simp,hsame,Or.inl hnode⟩)
  | peer i e =>
    obtain ⟨hsame,hnode⟩ := peer_sameDaemon h
    exact Or.inr (Or.inr ⟨by simp,by simp,hsame,Or.inl hnode⟩)
  | meddle node =>
    cases h
    exact Or.inr (Or.inr ⟨by simp,by simp,⟨rfl,rfl,rfl,rfl,rfl,rfl⟩,Or.inr ⟨node,rfl⟩⟩)

end Frame

end QbitNova.Service
