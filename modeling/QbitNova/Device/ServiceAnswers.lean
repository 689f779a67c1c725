import QbitNova.Device.Service
import QbitNova.Library.ExactReals
import QbitNova.Library.Transition

/-! # Every client gets the answer to its own request

The daemon serves one connection after the other, while clients connect, send and leave
whenever they like. For each connection the bytes that were sent, are under way or have been
read are the same bytes in the same order; from this it follows that what a client prints is
the answer to what it asked for, whatever the other clients and peers do.
-/
namespace QbitNova.Service
open CText LittleEndian DeviceWire DeviceIo Quantum Tools

section Transfers
variable {σ : Type} {env : Schedule} {size : ℕ} {store : σ → ℕ → (completed count : ℕ) → completed + count ≤ size → σ}

theorem wait_completed (s : Io σ) : (waitUntilReady env s).completed = s.completed := by
  unfold waitUntilReady
  dsimp only
  split_ifs <;> first | rfl | (split <;> first | rfl | (split_ifs <;> rfl))

theorem step_moved {s t : Io σ} (h : step env size store s = some t) : t.completed = s.completed ∨
    ∃ count, env.answer s.transfers = .moved count ∧ t.completed = s.completed + min count.val (size - s.completed) := by
  unfold step at h
  cases hphase : s.phase with
  | returned status =>
    rw [hphase] at h
    cases h
  | waiting =>
    rw [hphase] at h
    cases h
    exact Or.inl (wait_completed s)
  | transferring =>
    rw [hphase] at h
    obtain rfl := Option.some.inj h
    by_cases hroom : s.completed < size
    · rw [dif_pos hroom]
      unfold transfer
      by_cases hstop : env.stopFlag s.looks = true
      · rw [if_pos hstop]
        exact Or.inl rfl
      · rw [if_neg hstop]
        cases hanswer : env.answer s.transfers with
        | moved count => exact Or.inr ⟨count,rfl,rfl⟩
        | ended | interrupted | wouldBlock | failed => exact Or.inl rfl
    · rw [dif_neg hroom]
      exact Or.inl rfl

/-- What a read has taken so far. -/
def got (io : Io (Input size)) : Bytes := io.data.chunks.flatten

/-- The buffer begins with what was taken. -/
structure Reads (io : Io (Input size)) : Prop where
  filled : Filled io.data.buffer (got io)
  length : (got io).length = io.completed
  bounded : io.completed ≤ size

theorem reads_start (env : Schedule) (setup : Setup) (buffer : Frame size) :
    Reads (start env setup ⟨buffer, []⟩) ∧ got (start env setup ⟨buffer, []⟩ : Io (Input size)) = [] := by
  obtain ⟨hcompleted,hdata,-⟩ := start_completed env setup (⟨buffer, []⟩ : Input size)
  have hgot : got (start env setup ⟨buffer, []⟩ : Io (Input size)) = [] := by
    rw [got,hdata]
    rfl
  refine ⟨⟨?_,?_,?_⟩,hgot⟩
  · rw [hgot]
    exact Filled.nil _
  · rw [hgot,hcompleted]
    rfl
  · rw [hcompleted]
    exact Nat.zero_le size

theorem map_range_getD (queue : Bytes) {count : ℕ} (h : count ≤ queue.length) :
    (List.range count).map (fun i => queue.getD i 0) = queue.take count := by
  apply List.ext_getElem
  · simp [h]
  · intro i hi _
    have hlt : i < queue.length := by
      rw [List.length_map,List.length_range] at hi
      omega
    simp [hlt]

/-- A pass of a read moves bytes from the stream behind those that were taken. -/
theorem readStep_spec {queue rest : Bytes} {done : Bool} {io next : Io (Input size)}
    (h : readStep env queue io = some (next, rest)) (hio : Reads io)
    (havailable : readable queue done (env.answer io.transfers)) :
    Reads next ∧ got next ++ rest = got io ++ queue ∧
      (next.phase = .returned .ok → next.data.buffer.val = got next ∧ next.completed = size) := by
  obtain ⟨next',hstep,heq⟩ := Option.map_eq_some_iff.mp h
  obtain ⟨rfl,rfl⟩ := Prod.mk.inj heq
  have same : ∀ t : Io (Input size), t.completed = io.completed → t.data = io.data →
      Reads t ∧ got t ++ queue.drop (t.completed - io.completed) = got io ++ queue := by
    intro t hcompleted hdata
    refine ⟨⟨?_,?_,?_⟩,?_⟩
    · rw [got,hdata]
      exact hio.filled
    · rw [got,hdata,hcompleted]
      exact hio.length
    · rw [hcompleted]
      exact hio.bounded
    · rw [got,hdata,hcompleted,Nat.sub_self,List.drop_zero]
      rfl
  cases step_move hstep with
  | finish hphase hfull ht =>
    subst ht
    obtain ⟨hreads,hbytes⟩ := same { io with phase := .returned .ok } rfl rfl
    refine ⟨hreads,hbytes,fun _ => ?_⟩
    have hsize : io.completed = size := Nat.le_antisymm hio.bounded hfull
    exact ⟨hio.filled.eq (hio.length.trans hsize),hsize⟩
  | moved count hroom hnext hevents hcompleted hdata hdeadline =>
    have hcount : min count.val (size - io.completed) ≤ queue.length := by
      rcases step_moved hstep with hsame | ⟨count',hanswer,hcompleted'⟩
      · have hpos := count.pos
        omega
      · rw [hanswer] at havailable
        have hle : count'.val ≤ queue.length := havailable
        omega
    have hgot : got next' = got io ++ queue.take (min count.val (size - io.completed)) := by
      rw [got,hdata,Input.store]
      simp only [List.flatten_append,List.flatten_cons,List.flatten_nil,List.append_nil]
      rw [map_range_getD queue hcount]
      rfl
    refine ⟨⟨?_,?_,?_⟩,?_,?_⟩
    · rw [hgot,hdata,← map_range_getD queue hcount]
      exact hio.filled.write _ hio.length.symm (by rw [List.length_map,List.length_range]; omega)
    · rw [hgot,hcompleted,List.length_append,hio.length,List.length_take,Nat.min_eq_left hcount]
    · omega
    · rw [hgot,hcompleted,Nat.add_sub_cancel_left,List.append_assoc,List.take_append_drop]
    · intro hphase
      rw [hnext] at hphase
      cases hphase
  | delayed e hq hmoved hasks hevents hcompleted hdata hdeadline hdelay =>
    obtain ⟨hreads,hbytes⟩ := same _ hcompleted hdata
    exact ⟨hreads,hbytes,fun hphase => absurd hphase (hdelay.running _)⟩
  | quit e status hfails hends hmoved hasks hnext hevents hcompleted hdata =>
    obtain ⟨hreads,hbytes⟩ := same _ hcompleted hdata
    refine ⟨hreads,hbytes,fun hphase => ?_⟩
    rw [hnext] at hphase
    exact absurd (Phase.returned.inj hphase) hfails

theorem writeStep_sent {buffer : Frame size} {sent queue rest : Bytes} {io next : Io Bytes}
    (h : writeStep env buffer queue io = some (next, rest)) (hsent : sent ++ queue = buffer.val.take io.completed) :
    sent ++ rest = buffer.val.take next.completed := by
  obtain ⟨next',hstep,heq⟩ := Option.map_eq_some_iff.mp h
  obtain ⟨rfl,rfl⟩ := Prod.mk.inj heq
  have hmono : io.completed ≤ next'.completed := by
    rcases step_moved hstep with hsame | ⟨count,-,hcompleted⟩ <;> omega
  rw [← List.append_assoc,hsent,← List.take_add,Nat.add_sub_cancel' hmono]

theorem writeStep_done {buffer : Frame size} {queue rest : Bytes} {io next : Io Bytes}
    (h : writeStep env buffer queue io = some (next, rest)) (hphase : next.phase = .returned .ok) :
    buffer.val.take next.completed = buffer.val := by
  obtain ⟨next',hstep,heq⟩ := Option.map_eq_some_iff.mp h
  obtain ⟨rfl,rfl⟩ := Prod.mk.inj heq
  cases step_move hstep with
  | finish hphase hfull ht =>
    subst ht
    exact List.take_of_length_le (buffer.property.le.trans hfull)
  | moved count hroom hnext hevents hcompleted hdata hdeadline =>
    rw [hnext] at hphase
    cases hphase
  | delayed e hq hmoved hasks hevents hcompleted hdata hdeadline hdelay => exact absurd hphase (hdelay.running _)
  | quit e status hfails hends hmoved hasks hnext hevents hcompleted hdata =>
    rw [hnext] at hphase
    exact absurd (Phase.returned.inj hphase) hfails

end Transfers

section Connections

/-- The wire of a client that still runs. -/
def Client.wire : Client → Option (QCPUDeviceRequest × RequestWire)
  | .connecting request wire | .writing request wire _ | .shutdown request wire | .reading request wire _ =>
    some (request, wire)
  | _ => none

/-- What a client has handed to its socket. -/
def Client.sent : Client → Bytes
  | .writing _ wire io => wire.val.take io.completed
  | .shutdown _ wire | .reading _ wire _ => wire.val
  | _ => []

/-- What it has read from it. -/
def Client.received : Client → Bytes
  | .reading _ _ io => got io
  | _ => []

/-- Whether there is no connection yet. -/
def Client.apart : Client → Bool
  | .idle | .connecting .. => true
  | _ => false

/-- How far the daemon is with a connection. -/
inductive Stage where
  | before
  | reading (io : Io (Input qcpuDeviceRequestWireSize))
  | answering (wire : RequestWire)
  | answered (frame : ResponseWire)
  | writing (frame : ResponseWire) (io : Io Bytes)
  | after

/-- The connection the daemon is busy with, and how far it is. -/
def Place.current : Place → Option (ℕ × Stage)
  | .accepted i _ => some (i, .before)
  | .reading i _ io => some (i, .reading io)
  | .answering i _ wire => some (i, .answering wire)
  | .answered i _ frame => some (i, .answered frame)
  | .writing i _ frame io => some (i, .writing frame io)
  | .served i _ _ => some (i, .after)
  | _ => none

def System.stage (s : System) (i : ℕ) : Stage :=
  if i ∈ s.backlog then .before
  else match s.place.current with
  | some (j, stage) => if j = i then stage else .after
  | none => .after

/-- The connections the daemon is not done with, in the order in which they were made. -/
def System.pending (s : System) : List ℕ := (s.place.current.map Prod.fst).toList ++ s.backlog

variable {D : Type} [Scalars D] (store : D → Binary64)

/-- A frame that answers the bytes of a request. -/
def AnswerTo (wire : RequestWire) (frame : ResponseWire) : Prop :=
  ∃ (connection : Connection) (allocations : Allocations), qcpuDeviceEncodeResponse connection.responseWire
    (answerRequest store allocations connection.request wire.val) = (.ok, frame)

/-- Nothing, or the head of one answer. -/
def AnswerHead (wire : RequestWire) (bytes : Bytes) : Prop := bytes = [] ∨ ∃ frame, AnswerTo store wire frame ∧ bytes <+: frame.val

/-- What the two sides of a connection and the bytes under way have to do with each other. -/
def Agree (wire : RequestWire) (c : Client) (channel : Channel) : Stage → Prop
  | .before => channel.toDaemon = c.sent ∧ c.received ++ channel.toClient = []
  | .reading io => Reads io ∧ got io ++ channel.toDaemon = c.sent ∧ c.received ++ channel.toClient = []
  | .answering read => read = wire ∧ c.received ++ channel.toClient = []
  | .answered frame => AnswerTo store wire frame ∧ c.received ++ channel.toClient = []
  | .writing frame io => AnswerTo store wire frame ∧ c.received ++ channel.toClient = frame.val.take io.completed
  | .after => AnswerHead store wire (c.received ++ channel.toClient)

/-- The request is one that arguments can spell out, and the bytes are those of the request. -/
structure Asks (request : QCPUDeviceRequest) (wire : RequestWire) : Prop where
  spelled : ∃ args path, clientRequest (str "qnova-device-client") args = .ok (path, request)
  encoded : ∃ buffer, qcpuDeviceEncodeRequest buffer request = (.ok, wire)

/-- What a client printed answers what it asked for. -/
def Answered (request : QCPUDeviceRequest) (printed : Option QCPUDeviceResponse) (code : ℕ) : Prop :=
  ∀ response, printed = some response → (∃ allocations, response = processRequest store allocations request) ∧
    (code = 0 ↔ response.status = QCPUDeviceStatus.ok.code)

/-- What holds of a client and its connection at every moment. -/
structure Fair (c : Client) (channel : Channel) (stage : Stage) : Prop where
  unused : c.apart = true → channel.toDaemon = [] ∧ channel.toClient = []
  asks : ∀ request wire, c.wire = some (request, wire) → Asks request wire
  reads : ∀ request wire io, c = .reading request wire io → Reads io
  agree : ∀ request wire, c.apart = false → c.wire = some (request, wire) → Agree store wire c channel stage
  answered : ∀ request printed code, c = .exited (some request) printed code → Answered store request printed code

/-- What holds in every state. -/
structure Served (s : System) : Prop where
  distinct : s.pending.Nodup
  joined : ∀ i ∈ s.pending, (s.client i).apart = false
  fair : ∀ i, Fair store (s.client i) (s.channel i) (s.stage i)

variable {store}

section Rules
variable {s t : System}

theorem Fair.queues {c : Client} {channel channel' : Channel} {stage : Stage} (h : Fair store c channel stage)
    (hto : channel'.toDaemon = channel.toDaemon) (hfrom : channel'.toClient = channel.toClient) :
    Fair store c channel' stage := by
  refine ⟨fun hapart => ?_,h.asks,h.reads,fun request wire hapart hwire => ?_,h.answered⟩
  · rw [hto,hfrom]
    exact h.unused hapart
  · have hagree := h.agree request wire hapart hwire
    cases stage <;> simpa only [Agree,hto,hfrom] using hagree

/-- A connection the daemon has not looked at is one it has answered with nothing. -/
theorem Fair.dropped {c : Client} {channel : Channel} (h : Fair store c channel .before) : Fair store c channel .after :=
  ⟨h.unused,h.asks,h.reads,fun request wire hapart hwire => Or.inl (h.agree request wire hapart hwire).2,h.answered⟩

theorem current_none {p : Place} (h : p.connection = none) : p.current = none := by
  cases p <;> first | rfl | cases h

theorem stage_of_mem {i : ℕ} (h : i ∈ s.backlog) : s.stage i = .before := if_pos h

theorem stage_current {i : ℕ} {stage : Stage} (h : Served store s) (hcurrent : s.place.current = some (i, stage)) :
    i ∉ s.backlog ∧ s.stage i = stage := by
  have hdistinct := h.distinct
  rw [System.pending,hcurrent] at hdistinct
  have hfresh : i ∉ s.backlog := (List.nodup_cons.mp hdistinct).1
  refine ⟨hfresh,?_⟩
  rw [System.stage,if_neg hfresh,hcurrent]
  exact if_pos rfl

theorem Served.rest (h : Served store s) (hidle : s.place.connection = none) (hidle' : t.place.connection = none)
    (hbacklog : t.backlog = s.backlog) (hclient : t.client = s.client) (hchannel : t.channel = s.channel) :
    Served store t := by
  have hcurrent := current_none hidle
  have hcurrent' := current_none hidle'
  refine ⟨?_,?_,fun i => ?_⟩
  · have hdistinct := h.distinct
    rw [System.pending,hcurrent] at hdistinct
    rw [System.pending,hcurrent',hbacklog]
    exact hdistinct
  · intro i hi
    rw [System.pending,hcurrent',hbacklog] at hi
    rw [hclient]
    apply h.joined i
    rw [System.pending,hcurrent]
    exact hi
  · have hstage : t.stage i = s.stage i := by rw [System.stage,System.stage,hbacklog,hcurrent,hcurrent']
    rw [hstage,hclient,hchannel]
    exact h.fair i

theorem Served.advance {i : ℕ} {stage stage' : Stage} {channel : Channel} (h : Served store s)
    (hcurrent : s.place.current = some (i, stage)) (hcurrent' : t.place.current = some (i, stage'))
    (hbacklog : t.backlog = s.backlog) (hclient : t.client = s.client)
    (hchannel : t.channel = Function.update s.channel i channel)
    (hfair : Fair store (s.client i) (s.channel i) stage → Fair store (s.client i) channel stage') :
    Served store t := by
  obtain ⟨hfresh,hstage⟩ := stage_current h hcurrent
  have hpending : t.pending = s.pending := by rw [System.pending,System.pending,hcurrent,hcurrent',hbacklog]; rfl
  refine ⟨hpending ▸ h.distinct,?_,fun j => ?_⟩
  · rw [hpending,hclient]
    exact h.joined
  · rw [hclient]
    by_cases hj : j = i
    · subst hj
      have hstage' : t.stage j = stage' := by
        rw [System.stage,hbacklog,if_neg hfresh,hcurrent']
        exact if_pos rfl
      rw [hstage',hchannel,Function.update_self]
      exact hfair (hstage ▸ h.fair j)
    · have hstage' : t.stage j = s.stage j := by
        rw [System.stage,System.stage,hbacklog,hcurrent,hcurrent']
        simp [Ne.symm hj]
      rw [hstage',hchannel,Function.update_of_ne hj]
      exact h.fair j

theorem Served.close (h : Served store s) (fd : ℕ) : Served store (s.close fd) := by
  obtain ⟨hunmoved,-,hbacklog⟩ := close_spec s fd
  have hsub : List.Sublist (s.close fd).pending s.pending := by
    rw [System.pending,System.pending,hunmoved.place]
    rcases hbacklog with hbacklog | hbacklog <;> rw [hbacklog]
    rw [List.append_nil]
    exact List.sublist_append_left _ _
  refine ⟨h.distinct.sublist hsub,?_,fun i => ?_⟩
  · intro i hi
    rw [hunmoved.client]
    exact h.joined i (hsub.subset hi)
  · rw [hunmoved.client]
    refine Fair.queues ?_ (hunmoved.toDaemon i) (hunmoved.toClient i)
    rcases hbacklog with hbacklog | hbacklog
    · have hstage : (s.close fd).stage i = s.stage i := by rw [System.stage,System.stage,hbacklog,hunmoved.place]
      rw [hstage]
      exact h.fair i
    · by_cases hi : i ∈ s.backlog
      · have hstage : (s.close fd).stage i = .after := by
          rw [System.stage,hbacklog,if_neg List.not_mem_nil,hunmoved.place]
          cases hcurrent : s.place.current with
          | none => rfl
          | some current =>
            obtain ⟨j,stage⟩ := current
            have hj : j ≠ i := by
              rintro rfl
              exact (stage_current h hcurrent).1 hi
            exact if_neg hj
        rw [hstage]
        exact (stage_of_mem hi ▸ h.fair i).dropped
      · have hstage : (s.close fd).stage i = s.stage i := by
          rw [System.stage,System.stage,hbacklog,hunmoved.place,if_neg hi,if_neg List.not_mem_nil]
        rw [hstage]
        exact h.fair i

theorem Served.release {i : ℕ} (h : Served store s) (hcurrent : s.place.current = some (i, .after)) {place : Place}
    (hidle : place.connection = none) : Served store (s.goto place) := by
  have hcurrent' : (s.goto place).place.current = none := current_none hidle
  have hsub : List.Sublist (s.goto place).pending s.pending := by
    rw [System.pending,System.pending,hcurrent']
    exact List.sublist_append_right _ _
  refine ⟨h.distinct.sublist hsub,fun j hj => h.joined j (hsub.subset hj),fun j => ?_⟩
  have hstage : (s.goto place).stage j = s.stage j := by
    rw [System.stage,System.stage,hcurrent,hcurrent']
    simp only [ite_self]
    rfl
  rw [hstage]
  exact h.fair j

theorem Served.accept {i fd : ℕ} {rest : List ℕ} (h : Served store s) (hplace : s.place.connection = none)
    (hbacklog : s.backlog = i :: rest) (fds : ℕ → Option Descriptor) :
    Served store { s.goto (.accepted i fd) with fds := fds, backlog := rest } := by
  have hcurrent := current_none hplace
  have hpending : System.pending { s.goto (.accepted i fd) with fds := fds, backlog := rest } = s.pending := by
    rw [System.pending,System.pending,hcurrent,hbacklog]
    rfl
  refine ⟨hpending ▸ h.distinct,hpending ▸ h.joined,fun j => ?_⟩
  have hstage : System.stage { s.goto (.accepted i fd) with fds := fds, backlog := rest } j = s.stage j := by
    unfold System.stage
    rw [hcurrent,hbacklog]
    by_cases hj : j = i
    · subst hj
      simp [Place.current,System.goto]
    · simp [Place.current,System.goto,hj,Ne.symm hj]
  rw [hstage]
  exact h.fair j

end Rules

section Daemon
variable {s t : System}

/-- How far the daemon is after a pass of its read. -/
def readStage (io : Io (Input qcpuDeviceRequestWireSize)) : Stage :=
  match io.phase with
  | .returned .ok => .answering io.data.buffer
  | .returned _ => .after
  | _ => .reading io

def writeStage (frame : ResponseWire) (io : Io Bytes) : Stage :=
  match io.phase with
  | .returned _ => .after
  | _ => .writing frame io

theorem afterRead_current (i fd : ℕ) (io : Io (Input qcpuDeviceRequestWireSize)) :
    (afterRead i fd io).current = some (i, readStage io) := by
  unfold afterRead readStage
  cases io.phase with
  | transferring | waiting => rfl
  | returned status => cases status <;> rfl

theorem afterWrite_current (i fd : ℕ) (frame : ResponseWire) (io : Io Bytes) :
    (afterWrite i fd frame io).current = some (i, writeStage frame io) := by
  unfold afterWrite writeStage
  cases io.phase with
  | transferring | waiting => rfl
  | returned status => cases status <;> rfl

theorem sent_start {c : Client} {request : QCPUDeviceRequest} {wire : RequestWire}
    (h : c.wire = some (request, wire)) : c.sent <+: wire.val := by
  cases c <;> cases h
  · exact List.nil_prefix
  · exact List.take_prefix _ _
  · exact List.prefix_refl _
  · exact List.prefix_refl _

/-- Only the agreement is left to show when the client stays as it is. -/
theorem Fair.move {c : Client} {channel channel' : Channel} {stage stage' : Stage} (h : Fair store c channel stage)
    (hjoined : c.apart = false)
    (hagree : ∀ request wire, c.wire = some (request, wire) → Agree store wire c channel stage →
      Agree store wire c channel' stage') : Fair store c channel' stage' := by
  refine ⟨fun hapart => ?_,h.asks,h.reads,fun request wire _ hwire => ?_,h.answered⟩
  · rw [hjoined] at hapart
    cases hapart
  · exact hagree request wire hwire (h.agree request wire hjoined hwire)

theorem agree_read {c : Client} {channel : Channel} {request : QCPUDeviceRequest} {wire : RequestWire}
    {io : Io (Input qcpuDeviceRequestWireSize)} (hwire : c.wire = some (request, wire)) (hreads : Reads io)
    (hsent : got io ++ channel.toDaemon = c.sent) (hnothing : c.received ++ channel.toClient = [])
    (hdone : io.phase = .returned .ok → io.data.buffer.val = got io ∧ io.completed = qcpuDeviceRequestWireSize) :
    Agree store wire c channel (readStage io) := by
  unfold readStage
  cases hphase : io.phase with
  | transferring | waiting => exact ⟨hreads,hsent,hnothing⟩
  | returned status =>
    cases status with
    | ok =>
      obtain ⟨hbuffer,hfull⟩ := hdone hphase
      refine ⟨Subtype.ext ?_,hnothing⟩
      have htaken : got io <+: c.sent := ⟨channel.toDaemon,hsent⟩
      have hhead := htaken.trans (sent_start hwire)
      rw [hbuffer]
      exact hhead.eq_of_length ((hreads.length.trans hfull).trans wire.property.symm)
    | error | timeout | stopped => exact Or.inl hnothing

theorem agree_write {c : Client} {channel : Channel} {wire : RequestWire} {frame : ResponseWire} {io : Io Bytes}
    (hanswer : AnswerTo store wire frame) (hsent : c.received ++ channel.toClient = frame.val.take io.completed) :
    Agree store wire c channel (writeStage frame io) := by
  unfold writeStage
  cases io.phase with
  | transferring | waiting => exact ⟨hanswer,hsent⟩
  | returned status =>
    refine Or.inr ⟨frame,hanswer,?_⟩
    rw [hsent]
    exact List.take_prefix _ _

theorem served_move (h : Served store s) (hmove : Move store s t) : Served store t := by
  have joined : ∀ {i : ℕ} {stage : Stage}, s.place.current = some (i, stage) → (s.client i).apart = false := by
    intro i stage hcurrent
    apply h.joined i
    rw [System.pending,hcurrent]
    exact List.mem_cons_self
  cases hmove with
  | walk place node hidle hnear => exact h.rest hidle (hnear.connection.trans hidle) rfl rfl rfl
  | socket fd hplace hfree => exact h.rest (by rw [hplace]; rfl) rfl rfl rfl rfl
  | publish hplace => exact h.rest (by rw [hplace]; rfl) rfl rfl rfl rfl
  | retract failed hplace => exact h.rest (by rw [hplace]; rfl) rfl rfl rfl rfl
  | closeSetup bound hplace =>
    have hclosed := (close_spec s s.serverFd.toNat).1.place
    refine (h.close _).rest (by rw [hclosed,hplace]; rfl) ?_ rfl rfl rfl
    cases bound <;> rfl
  | closeServer failed fails hplace =>
    have hclosed := (close_spec s s.serverFd.toNat).1.place
    exact (h.close _).rest (by rw [hclosed,hplace]; rfl) rfl rfl rfl rfl
  | accept i fd rest hplace hlistener hbacklog hfree => exact h.accept (by rw [hplace]; rfl) hbacklog _
  | startRead i fd now buffer hplace =>
    have hcurrent : s.place.current = some (i, .before) := by rw [hplace]; rfl
    obtain ⟨hreads,hgot⟩ := reads_start (now.schedule s.stopRequested) (now.setup fd) buffer
    obtain ⟨-,-,hrunning⟩ := start_completed (now.schedule s.stopRequested) (now.setup fd)
      (⟨buffer, []⟩ : Input qcpuDeviceRequestWireSize)
    refine h.advance hcurrent (afterRead_current i fd _) rfl rfl (Function.update_eq_self _ _).symm fun hfair => ?_
    refine hfair.move (joined hcurrent) fun request wire hwire hagree => ?_
    refine agree_read hwire hreads ?_ hagree.2 fun hphase => absurd hphase hrunning
    rw [hgot,List.nil_append]
    exact hagree.1
  | read i fd io next rest now hplace havailable hstep =>
    have hcurrent : s.place.current = some (i, .reading io) := by rw [hplace]; rfl
    refine h.advance hcurrent (afterRead_current i fd next) rfl rfl rfl fun hfair => ?_
    refine hfair.move (joined hcurrent) fun request wire hwire hagree => ?_
    obtain ⟨hreads,hsent,hnothing⟩ := hagree
    obtain ⟨hreads',hbytes,hdone⟩ := readStep_spec hstep hreads havailable
    exact agree_read hwire hreads' (hbytes.trans hsent) hnothing hdone
  | answer i fd wire connection allocations frame hplace hframe =>
    have hcurrent : s.place.current = some (i, .answering wire) := by rw [hplace]; rfl
    refine h.advance hcurrent (show _ = some (i, .answered frame) from rfl) rfl rfl (Function.update_eq_self _ _).symm fun hfair => ?_
    refine hfair.move (joined hcurrent) fun request wire' hwire hagree => ?_
    obtain ⟨rfl,hnothing⟩ := hagree
    exact ⟨⟨connection,allocations,hframe⟩,hnothing⟩
  | startWrite i fd frame now hplace =>
    have hcurrent : s.place.current = some (i, .answered frame) := by rw [hplace]; rfl
    refine h.advance hcurrent (afterWrite_current i fd frame _) rfl rfl (Function.update_eq_self _ _).symm fun hfair => ?_
    refine hfair.move (joined hcurrent) fun request wire hwire hagree => ?_
    obtain ⟨hanswer,hnothing⟩ := hagree
    refine agree_write hanswer ?_
    rw [(start_completed (now.schedule s.stopRequested) (now.setup fd) []).1,List.take_zero]
    exact hnothing
  | write i fd frame io next rest now hplace hstep =>
    have hcurrent : s.place.current = some (i, .writing frame io) := by rw [hplace]; rfl
    refine h.advance hcurrent (afterWrite_current i fd frame next) rfl rfl rfl fun hfair => ?_
    refine hfair.move (joined hcurrent) fun request wire hwire hagree => ?_
    obtain ⟨hanswer,hsent⟩ := hagree
    exact agree_write hanswer (writeStep_sent hstep hsent)
  | closeClient i fd result hplace =>
    have hclosed := (close_spec s fd).1.place
    exact (h.close fd).release (by rw [hclosed,hplace]; rfl) rfl

end Daemon

section Clients
variable {s t : System} {i : ℕ}

theorem Served.settle {c : Client} {channel : Channel} (h : Served store s)
    (hapart : c.apart = true → (s.client i).apart = true) (hfair : Fair store c channel (s.stage i)) :
    Served store ({ s with channel := Function.update s.channel i channel }.settle i c) := by
  refine ⟨h.distinct,fun j hj => ?_,fun j => ?_⟩
  · have hjoined := h.joined j hj
    by_cases hij : j = i
    · subst hij
      have hclient : ({ s with channel := Function.update s.channel j channel }.settle j c).client j = c :=
        Function.update_self _ _ _
      rw [hclient]
      by_contra hne
      rw [hapart (by simpa using hne)] at hjoined
      cases hjoined
    · have hclient : ({ s with channel := Function.update s.channel i channel }.settle i c).client j = s.client j :=
        Function.update_of_ne hij _ _
      rw [hclient]
      exact hjoined
  · by_cases hij : j = i
    · subst hij
      have hclient : ({ s with channel := Function.update s.channel j channel }.settle j c).client j = c :=
        Function.update_self _ _ _
      rw [hclient]
      refine hfair.queues ?_ ?_ <;> cases c <;> simp [System.settle]
    · have hclient : ({ s with channel := Function.update s.channel i channel }.settle i c).client j = s.client j :=
        Function.update_of_ne hij _ _
      have hchannel : ({ s with channel := Function.update s.channel i channel }.settle i c).channel j = s.channel j := by
        simp [System.settle,Function.update_of_ne hij]
      rw [hclient,hchannel]
      exact h.fair j

theorem settle_self (s : System) (i : ℕ) (c : Client) :
    { s with channel := Function.update s.channel i (s.channel i) }.settle i c = s.settle i c := by
  rw [Function.update_eq_self]

theorem Served.connect {c : Client} (h : Served store s) (hapart : (s.client i).apart = true) (hjoined : c.apart = false)
    (hfair : Fair store c (s.channel i) .before) :
    Served store { s.settle i c with backlog := s.backlog ++ [i] } := by
  have hfresh : i ∉ s.pending := by
    intro hmem
    rw [h.joined i hmem] at hapart
    cases hapart
  have hpending : System.pending { s.settle i c with backlog := s.backlog ++ [i] } = s.pending ++ [i] := by
    rw [System.pending,System.pending,List.append_assoc]
    rfl
  have hself : (s.settle i c).client i = c := Function.update_self _ _ _
  have hother : ∀ j, j ≠ i → (s.settle i c).client j = s.client j := fun j hj => Function.update_of_ne hj _ _
  refine ⟨?_,fun j hj => ?_,fun j => ?_⟩
  · rw [hpending,List.nodup_append]
    refine ⟨h.distinct,by simp,?_⟩
    rintro a ha b hb rfl
    exact hfresh (List.mem_singleton.mp hb ▸ ha)
  · rw [hpending,List.mem_append,List.mem_singleton] at hj
    rcases hj with hj | rfl
    · by_cases hij : j = i
      · exact absurd (hij ▸ hj) hfresh
      · exact (congrArg Client.apart (hother j hij)).trans (h.joined j hj)
    · exact (congrArg Client.apart hself).trans hjoined
  · by_cases hij : j = i
    · subst hij
      have hstage : System.stage { s.settle j c with backlog := s.backlog ++ [j] } j = .before := stage_of_mem (by simp)
      rw [hstage]
      show Fair store ((s.settle j c).client j) ((s.settle j c).channel j) .before
      rw [hself]
      refine hfair.queues ?_ ?_ <;> cases c <;> simp [System.settle]
    · have hstage : System.stage { s.settle i c with backlog := s.backlog ++ [i] } j = s.stage j := by
        unfold System.stage
        simp only [List.mem_append,List.mem_singleton,hij,or_false]
        rfl
      have hchannel : (s.settle i c).channel j = s.channel j := Function.update_of_ne hij _ _
      rw [hstage]
      show Fair store ((s.settle i c).client j) ((s.settle i c).channel j) (s.stage j)
      rw [hother j hij,hchannel]
      exact h.fair j

theorem fair_exited {request : Option QCPUDeviceRequest} {code : ℕ} {channel : Channel} {stage : Stage} :
    Fair store (.exited request none code) channel stage := by
  refine ⟨nofun,nofun,nofun,nofun,?_⟩
  rintro r printed code' ⟨⟩
  exact nofun

/-- What the daemon knows stays true if the client goes on with the same bytes. -/
theorem Agree.client {wire : RequestWire} {c c' : Client} {channel channel' : Channel} {stage : Stage}
    (h : Agree store wire c channel stage)
    (hsent : ∀ taken, taken ++ channel.toDaemon = c.sent → taken ++ channel'.toDaemon = c'.sent)
    (hreceived : c'.received ++ channel'.toClient = c.received ++ channel.toClient) :
    Agree store wire c' channel' stage := by
  cases stage with
  | before => exact ⟨hsent [] h.1,hreceived.trans h.2⟩
  | reading io => exact ⟨h.1,hsent _ h.2.1,hreceived.trans h.2.2⟩
  | answering read => exact ⟨h.1,hreceived.trans h.2⟩
  | answered frame => exact ⟨h.1,hreceived.trans h.2⟩
  | writing frame io => exact ⟨h.1,hreceived.trans h.2⟩
  | after =>
    have hhead : AnswerHead store wire (c'.received ++ channel'.toClient) := by
      rw [hreceived]
      exact h
    exact hhead

/-- A client that has read a whole frame has read an answer to its request. -/
theorem Agree.answer {wire : RequestWire} {c : Client} {channel : Channel} {stage : Stage}
    (h : Agree store wire c channel stage) (hlength : c.received.length = qcpuDeviceResponseWireSize) :
    ∃ frame, AnswerTo store wire frame ∧ c.received = frame.val := by
  have nothing : c.received ++ channel.toClient ≠ [] := by
    intro hnil
    rw [(List.append_eq_nil_iff.mp hnil).1] at hlength
    cases hlength
  have whole : ∀ {frame : ResponseWire}, c.received ++ channel.toClient <+: frame.val → c.received = frame.val :=
    fun {frame} hhead => ((List.prefix_append _ _).trans hhead).eq_of_length (hlength.trans frame.property.symm)
  cases stage with
  | before => exact absurd h.2 nothing
  | reading io => exact absurd h.2.2 nothing
  | answering read => exact absurd h.2 nothing
  | answered frame => exact absurd h.2 nothing
  | writing frame io => exact ⟨frame,h.1,whole (h.2 ▸ List.take_prefix _ _)⟩
  | after =>
    rcases h with hnil | ⟨frame,hanswer,hhead⟩
    · exact absurd hnil nothing
    · exact ⟨frame,hanswer,whole hhead⟩

theorem Agree.head {wire : RequestWire} {c : Client} {channel : Channel} {stage : Stage}
    (h : Agree store wire c channel stage) : AnswerHead store wire (c.received ++ channel.toClient) := by
  cases stage with
  | before => exact Or.inl h.2
  | reading io => exact Or.inl h.2.2
  | answering read => exact Or.inl h.2
  | answered frame => exact Or.inl h.2
  | writing frame io => exact Or.inr ⟨frame,h.1,h.2 ▸ List.take_prefix _ _⟩
  | after => exact h

theorem AnswerTo.processed {request : QCPUDeviceRequest} {wire : RequestWire} {frame : ResponseWire}
    (h : AnswerTo store wire frame) (hasks : Asks request wire) : ∃ allocations output,
      qcpuDeviceEncodeResponse output (processRequest store allocations request) = (.ok, frame) := by
  obtain ⟨connection,allocations,hframe⟩ := h
  obtain ⟨⟨args,path,hargs⟩,buffer,hwire⟩ := hasks
  have hheader : headerStatus request.magic qcpuDeviceRequestMagic request.version = .ok :=
    (headerStatus_ok _ _ _).mpr (clientRequest_header hargs)
  have hdecoded := decodeRequest_encode connection.request request buffer
  rw [hwire,hheader] at hdecoded
  rw [answerRequest,hdecoded] at hframe
  exact ⟨allocations,connection.responseWire,hframe⟩

theorem AnswerTo.decoded {request : QCPUDeviceRequest} {wire : RequestWire} {frame : ResponseWire}
    (h : AnswerTo store wire frame) (hasks : Asks request wire) {old response : QCPUDeviceResponse}
    (hdecode : qcpuDeviceDecodeResponse old frame.val = (.ok, response)) :
    ∃ allocations, response = processRequest store allocations request := by
  obtain ⟨allocations,output,hframe⟩ := h.processed hasks
  have hback := decodeResponse_encode old (processRequest store allocations request) output
  rw [hframe,hdecode] at hback
  exact ⟨allocations,congrArg Prod.snd hback⟩

theorem fair_afterWrite {request : QCPUDeviceRequest} {wire : RequestWire} {io : Io Bytes} {channel : Channel}
    {stage : Stage} (hasks : Asks request wire)
    (hwriting : Agree store wire (.writing request wire io) channel stage)
    (hdone : io.phase = .returned .ok → wire.val.take io.completed = wire.val) :
    Fair store (clientAfterWrite request wire io) channel stage := by
  have hexited : Fair store (.exited (some request) none 1) channel stage := fair_exited
  have hasks' : ∀ r w, some (request, wire) = some (r, w) → Asks r w := by
    rintro r w ⟨⟩
    exact hasks
  unfold clientAfterWrite
  cases hphase : io.phase with
  | transferring | waiting =>
    refine ⟨nofun,hasks',nofun,?_,nofun⟩
    rintro r w - ⟨⟩
    exact hwriting
  | returned status =>
    cases status with
    | ok =>
      refine ⟨nofun,hasks',nofun,?_,nofun⟩
      rintro r w - ⟨⟩
      refine hwriting.client (fun taken htaken => ?_) rfl
      exact htaken.trans (hdone hphase)
    | error | timeout | stopped => exact hexited

theorem fair_afterRead {request : QCPUDeviceRequest} {wire : RequestWire} {old : QCPUDeviceResponse}
    {io : Io (Input qcpuDeviceResponseWireSize)} {channel : Channel} {stage : Stage} (hasks : Asks request wire)
    (hreads : Reads io) (hreading : Agree store wire (.reading request wire io) channel stage)
    (hdone : io.phase = .returned .ok → io.data.buffer.val = got io ∧ io.completed = qcpuDeviceResponseWireSize) :
    Fair store (clientAfterRead request wire old io) channel stage := by
  have hexited : Fair store (.exited (some request) none 1) channel stage := fair_exited
  unfold clientAfterRead
  cases hphase : io.phase with
  | transferring | waiting =>
    refine ⟨nofun,?_,?_,?_,nofun⟩
    · rintro r w ⟨⟩
      exact hasks
    · rintro r w io' ⟨⟩
      exact hreads
    · rintro r w - ⟨⟩
      exact hreading
  | returned status =>
    cases status with
    | error | timeout | stopped => exact hexited
    | ok =>
      obtain ⟨hbuffer,hfull⟩ := hdone hphase
      obtain ⟨frame,hanswer,hframe⟩ := hreading.answer (hreads.length.trans hfull)
      have hbytes : io.data.buffer.val = frame.val := hbuffer.trans hframe
      dsimp only
      rcases hdecode : qcpuDeviceDecodeResponse old io.data.buffer.val with ⟨status,response⟩
      cases status with
      | ok =>
        refine ⟨nofun,nofun,nofun,nofun,?_⟩
        rintro r printed code ⟨⟩ r ⟨⟩
        rw [hbytes] at hdecode
        refine ⟨hanswer.decoded hasks hdecode,?_⟩
        split_ifs with hstatus <;> simp [hstatus]
      | badMagic | badVersion | badCommand | range | kernel | io => exact hexited

theorem clientAfterWrite_stays (request : QCPUDeviceRequest) (wire : RequestWire) (io : Io Bytes) :
    (clientAfterWrite request wire io).apart = false := by
  unfold clientAfterWrite
  split <;> rfl

theorem clientAfterRead_stays (request : QCPUDeviceRequest) (wire : RequestWire) (old : QCPUDeviceResponse)
    (io : Io (Input qcpuDeviceResponseWireSize)) : (clientAfterRead request wire old io).apart = false := by
  unfold clientAfterRead
  split
  · split <;> rfl
  · rfl
  · rfl

theorem served_client (h : Served store s) {e : ClientEvent} (he : s.clientStep i e = some t) : Served store t := by
  have hfair := h.fair i
  revert he
  fun_cases System.clientStep s i e with
  | case1 args buffer hclient =>
    rintro ⟨⟩
    rw [hclient] at hfair
    rw [← settle_self]
    refine h.settle (fun _ => by rw [hclient]; rfl) ?_
    split
    · exact fair_exited
    · next request hrequest =>
      show Fair store (.connecting request _) _ _
      refine ⟨fun _ => hfair.unused rfl,?_,by simp,by simp [Client.apart],by simp⟩
      rintro r w ⟨⟩
      exact ⟨⟨args,_,hrequest⟩,buffer,rfl⟩
  | case2 request wire now fd hclient hlistening =>
    rintro ⟨⟩
    rw [hclient] at hfair
    have hasks := hfair.asks request wire rfl
    obtain ⟨hto,hfrom⟩ := hfair.unused rfl
    obtain ⟨hcompleted,-,hrunning⟩ := start_completed (now.schedule false) (now.setup fd) ([] : Bytes)
    refine h.connect (by rw [hclient]; rfl) ?_ (fair_afterWrite hasks ⟨?_,?_⟩ fun hphase => absurd hphase hrunning)
    · exact clientAfterWrite_stays _ _ _
    · rw [hto,Client.sent,hcompleted,List.take_zero]
    · rw [hfrom]
      rfl
  | case4 request wire hclient =>
    rintro ⟨⟩
    rw [hclient] at hfair
    rw [← settle_self]
    exact h.settle (by simp [Client.apart]) fair_exited
  | case5 request wire io now hclient hwritable =>
    intro he
    obtain ⟨⟨next,rest⟩,hstep,rfl⟩ := Option.map_eq_some_iff.mp he
    rw [hclient] at hfair
    have hagree := hfair.agree request wire rfl rfl
    have hspec : ∀ taken, taken ++ (s.channel i).toDaemon = wire.val.take io.completed →
        taken ++ rest = wire.val.take next.completed := fun taken htaken => writeStep_sent hstep htaken
    exact h.settle (by simp [clientAfterWrite_stays])
      (fair_afterWrite (hfair.asks request wire rfl) (hagree.client hspec rfl) (writeStep_done hstep))
  | case7 request wire fails now fd buffer old hclient =>
    rintro ⟨⟩
    rw [hclient] at hfair
    have hasks := hfair.asks request wire rfl
    cases fails with
    | true =>
      show Served store (s.settle i (.exited (some request) none 1))
      rw [← settle_self]
      exact h.settle (by simp [Client.apart]) fair_exited
    | false =>
      have hagree := hfair.agree request wire rfl rfl
      obtain ⟨hreads,hgot⟩ := reads_start (now.schedule false) (now.setup fd) buffer
      obtain ⟨-,-,hrunning⟩ := start_completed (now.schedule false) (now.setup fd)
        (⟨buffer, []⟩ : Input qcpuDeviceResponseWireSize)
      refine h.settle (by simp [clientAfterRead_stays])
        (fair_afterRead hasks hreads (hagree.client (fun _ h => h) ?_) fun hphase => absurd hphase hrunning)
      rw [Client.received,hgot]
      rfl
  | case8 request wire io now old hclient hreadable =>
    intro he
    obtain ⟨⟨next,rest⟩,hstep,rfl⟩ := Option.map_eq_some_iff.mp he
    rw [hclient] at hfair
    have hagree := hfair.agree request wire rfl rfl
    obtain ⟨hreads,hbytes,hdone⟩ := readStep_spec hstep (hfair.reads request wire io rfl) hreadable
    exact h.settle (by simp [clientAfterRead_stays])
      (fair_afterRead (hfair.asks request wire rfl) hreads (hagree.client (fun _ h => h) hbytes) hdone)
  | case3 | case6 | case9 | case10 =>
    intro he
    cases he

theorem served_peer (h : Served store s) {e : PeerEvent} (he : s.peerStep i e = some t) : Served store t := by
  have fair_peer : ∀ channel stage, Fair store .peer channel stage := fun _ _ => ⟨nofun,nofun,nofun,nofun,nofun⟩
  have free : ∀ channel, s.client i = .peer → Served store { s with channel := Function.update s.channel i channel } := by
    intro channel hclient
    have hsettled := h.settle (i := i) (c := .peer) nofun (fair_peer channel _)
    have heq : { s with channel := Function.update s.channel i channel }.settle i .peer =
        { s with channel := Function.update s.channel i channel } := by
      unfold System.settle
      simp only [Function.update_self,Function.update_idem]
      rw [← hclient,Function.update_eq_self]
    rwa [heq] at hsettled
  revert he
  fun_cases System.peerStep s i e with
  | case1 hclient hlistening =>
    rintro ⟨⟩
    exact h.connect (by rw [hclient]; rfl) rfl (fair_peer _ _)
  | case3 bytes hclient =>
    rintro ⟨⟩
    exact free _ hclient
  | case4 count hclient =>
    rintro ⟨⟩
    exact free _ hclient
  | case5 hclient =>
    rintro ⟨⟩
    exact free _ hclient
  | case2 | case6 =>
    intro he
    cases he

theorem served_step (h : Served store s) {e : Event} (he : s.step store e = some t) : Served store t := by
  cases e with
  | daemon e => exact served_move h (daemon_move he)
  | client i e => exact served_client h he
  | peer i e => exact served_peer h he
  | meddle node =>
    cases he
    exact ⟨h.distinct,h.joined,h.fair⟩
  | signal =>
    obtain ⟨-,he⟩ := Option.ite_none_right_eq_some.mp he
    obtain rfl := Option.some.inj he
    have hstopped : Served store s.requestStop := ⟨h.distinct,h.joined,h.fair⟩
    unfold System.handleStopSignal
    split_ifs
    · exact hstopped.close _
    · exact hstopped

theorem served_initial (args : List Bytes) (others : ℕ → Bool) (node : Option Node) :
    Served store (System.initial args others node) := by
  have hcurrent : (System.initial args others node).place.current = none := by
    rcases initial_place args others node with hplace | hplace <;> rw [hplace] <;> rfl
  have hpending : (System.initial args others node).pending = [] := by
    rw [System.pending,hcurrent]
    rfl
  refine ⟨by rw [hpending]; exact List.nodup_nil,?_,fun i => ⟨fun _ => ⟨rfl,rfl⟩,nofun,nofun,nofun,nofun⟩⟩
  rw [hpending]
  exact nofun

end Clients

section Launches
variable {s t : System} {i : ℕ}

/-- The request of a client that was started. -/
def Client.request : Client → Option QCPUDeviceRequest
  | .connecting request _ | .writing request _ _ | .shutdown request _ | .reading request _ _ => some request
  | .exited request _ _ => request
  | .idle | .peer => none

/-- The request is what the arguments spell out with which the client was started, once. -/
def Asked (events : List Event) (i : ℕ) (request : QCPUDeviceRequest) : Prop :=
  ∃ args path, (∀ args', (∃ buffer, Event.client i (.launch args' buffer) ∈ events) ↔ args' = args) ∧
    clientRequest (str "qnova-device-client") args = .ok (path, request)

def Event.launches (i : ℕ) (e : Event) : Prop := ∃ args buffer, e = .client i (.launch args buffer)

/-- A client goes on without a start, or does nothing. -/
structure Continues (i : ℕ) (s t : System) : Prop where
  request : (t.client i).request = (s.client i).request
  started : s.client i ≠ .idle → t.client i ≠ .idle

theorem Continues.same (h : t.client = s.client) : Continues i s t := by
  refine ⟨?_,fun hstarted => ?_⟩
  · rw [h]
  · rwa [h]

theorem Continues.settle {j : ℕ} {c : Client} {channel : ℕ → Channel} {backlog : List ℕ}
    {request : Option QCPUDeviceRequest} (hclient : (s.client j).request = request)
    (hc : c.request = request ∧ c ≠ .idle) :
    Continues i s { s.settle j c with channel := channel, backlog := backlog } := by
  by_cases hij : i = j
  · subst hij
    have hself : (s.settle i c).client i = c := Function.update_self _ _ _
    refine ⟨?_,fun _ => ?_⟩
    · exact (congrArg Client.request hself).trans (hc.1.trans hclient.symm)
    · exact hself.symm ▸ hc.2
  · have hother : (s.settle j c).client i = s.client i := Function.update_of_ne hij _ _
    refine ⟨?_,fun hrest => ?_⟩
    · exact congrArg Client.request hother
    · exact hother.symm ▸ hrest

theorem exited_request (request : QCPUDeviceRequest) :
    (Client.exited (some request) none 1).request = some request ∧ Client.exited (some request) none 1 ≠ .idle :=
  ⟨rfl,nofun⟩

theorem clientAfterWrite_request (request : QCPUDeviceRequest) (wire : RequestWire) (io : Io Bytes) :
    (clientAfterWrite request wire io).request = some request ∧ clientAfterWrite request wire io ≠ .idle := by
  unfold clientAfterWrite
  split <;> exact ⟨rfl,nofun⟩

theorem clientAfterRead_request (request : QCPUDeviceRequest) (wire : RequestWire) (old : QCPUDeviceResponse)
    (io : Io (Input qcpuDeviceResponseWireSize)) :
    (clientAfterRead request wire old io).request = some request ∧ clientAfterRead request wire old io ≠ .idle := by
  unfold clientAfterRead
  split
  · split <;> exact ⟨rfl,nofun⟩
  · exact ⟨rfl,nofun⟩
  · exact ⟨rfl,nofun⟩

theorem move_client (h : Move store s t) : t.client = s.client := by
  cases h with
  | closeSetup | closeClient | closeServer => exact (close_spec s _).1.client
  | walk | socket | publish | accept | startRead | read | answer | startWrite | write | retract => rfl

theorem signal_client (s : System) : s.handleStopSignal.client = s.client := by
  unfold System.handleStopSignal
  split_ifs
  · exact (close_spec s.requestStop _).1.client
  · rfl

theorem peer_continues {j : ℕ} {e : PeerEvent} (he : s.peerStep j e = some t) : Continues i s t := by
  revert he
  fun_cases System.peerStep s j e with
  | case1 hclient hlistening =>
    rintro ⟨⟩
    refine .settle (congrArg Client.request hclient) ⟨rfl,?_⟩
    rintro ⟨⟩
  | case3 | case4 | case5 =>
    rintro ⟨⟩
    exact .same rfl
  | case2 | case6 =>
    intro he
    cases he

/-- A step of a client is its start, or it goes on with the request it has. -/
theorem client_continues {j : ℕ} {e : ClientEvent} (he : s.clientStep j e = some t) :
    (∃ args buffer, e = .launch args buffer ∧ s.client j = .idle ∧ t.client j ≠ .idle ∧
      (∀ request, (t.client j).request = some request → ∃ path,
        clientRequest (str "qnova-device-client") args = .ok (path, request)) ∧ ∀ i ≠ j, t.client i = s.client i) ∨
    (∀ args buffer, e ≠ .launch args buffer) ∧ ∀ i, Continues i s t := by
  revert he
  fun_cases System.clientStep s j e with
  | case1 args buffer hclient =>
    rintro ⟨⟩
    refine Or.inl ⟨args,buffer,rfl,hclient,?_⟩
    have hself : ∀ c, (s.settle j c).client j = c := fun c => Function.update_self _ _ _
    have hother : ∀ c, ∀ i ≠ j, (s.settle j c).client i = s.client i := fun c i hi => Function.update_of_ne hi _ _
    refine ⟨?_,?_,hother _⟩
    · rw [hself]
      split
      · rintro ⟨⟩
      · split <;> rintro ⟨⟩
    · rw [hself]
      cases hrequest : clientRequest (str "qnova-device-client") args with
      | error message => rintro request ⟨⟩
      | ok found =>
        obtain ⟨path,found⟩ := found
        simp only
        split
        · rintro request ⟨⟩
          exact ⟨path,rfl⟩
        · rintro request ⟨⟩
          exact ⟨path,rfl⟩
  | case2 request wire now fd hclient hlistening =>
    rintro ⟨⟩
    exact Or.inr ⟨by rintro args buffer ⟨⟩,fun i =>
      .settle (congrArg Client.request hclient) (clientAfterWrite_request request wire _)⟩
  | case4 request wire hclient =>
    rintro ⟨⟩
    exact Or.inr ⟨by rintro args buffer ⟨⟩,fun i => .settle (congrArg Client.request hclient) (exited_request request)⟩
  | case5 request wire io now hclient hwritable =>
    intro he
    obtain ⟨⟨next,rest⟩,-,rfl⟩ := Option.map_eq_some_iff.mp he
    exact Or.inr ⟨by rintro args buffer ⟨⟩,fun i =>
      .settle (congrArg Client.request hclient) (clientAfterWrite_request request wire next)⟩
  | case7 request wire fails now fd buffer old hclient =>
    rintro ⟨⟩
    refine Or.inr ⟨by rintro args buffer ⟨⟩,fun i => ?_⟩
    cases fails with
    | true => exact .settle (congrArg Client.request hclient) (exited_request request)
    | false => exact .settle (congrArg Client.request hclient) (clientAfterRead_request request wire old _)
  | case8 request wire io now old hclient hreadable =>
    intro he
    obtain ⟨⟨next,rest⟩,-,rfl⟩ := Option.map_eq_some_iff.mp he
    exact Or.inr ⟨by rintro args buffer ⟨⟩,fun i =>
      .settle (congrArg Client.request hclient) (clientAfterRead_request request wire old next)⟩
  | case3 | case6 | case9 | case10 =>
    intro he
    cases he

/-- A step starts a client with a request of its arguments, or the client goes on. -/
theorem step_launches {e : Event} (he : s.step store e = some t) (i : ℕ) :
    (∃ args buffer, e = .client i (.launch args buffer) ∧ s.client i = .idle ∧ t.client i ≠ .idle ∧
      ∀ request, (t.client i).request = some request → ∃ path,
        clientRequest (str "qnova-device-client") args = .ok (path, request)) ∨
    ¬ e.launches i ∧ Continues i s t := by
  cases e with
  | daemon d => exact Or.inr ⟨nofun,.same (move_client (daemon_move he))⟩
  | signal =>
    obtain ⟨-,he⟩ := Option.ite_none_right_eq_some.mp he
    obtain rfl := Option.some.inj he
    exact Or.inr ⟨nofun,.same (signal_client s)⟩
  | meddle node =>
    cases he
    exact Or.inr ⟨nofun,.same rfl⟩
  | peer j e => exact Or.inr ⟨nofun,peer_continues he⟩
  | client j e =>
    rcases client_continues he with ⟨args,buffer,rfl,hidle,hstarted,hrequest,hother⟩ | ⟨hnone,hcontinues⟩
    · by_cases hij : i = j
      · subst hij
        exact Or.inl ⟨args,buffer,rfl,hidle,hstarted,hrequest⟩
      · refine Or.inr ⟨?_,?_,?_⟩
        · rintro ⟨args',buffer',heq⟩
          cases heq
          exact hij rfl
        · rw [hother i hij]
        · rw [hother i hij]
          exact id
    · refine Or.inr ⟨?_,hcontinues i⟩
      rintro ⟨args,buffer,heq⟩
      cases heq
      exact hnone args buffer rfl

theorem started_run {events : List Event} (hstarted : s.client i ≠ .idle)
    (h : Transition.run (System.step store) s events = some t) :
    (t.client i).request = (s.client i).request ∧ ∀ e ∈ events, ¬ e.launches i := by
  induction events generalizing s with
  | nil =>
    obtain rfl := Option.some.inj h
    exact ⟨rfl,fun _ he => absurd he List.not_mem_nil⟩
  | cons e events ih =>
    obtain ⟨m,he,hrest⟩ := Transition.run_cons _ h
    rcases step_launches he i with ⟨args,buffer,-,hidle,-⟩ | ⟨hnone,hcontinues⟩
    · exact absurd hidle hstarted
    · obtain ⟨hrequest,hnever⟩ := ih (hcontinues.started hstarted) hrest
      exact ⟨hrequest.trans hcontinues.request,List.forall_mem_cons.mpr ⟨hnone,hnever⟩⟩

theorem asked_of_run {events : List Event} {request : QCPUDeviceRequest} (hidle : s.client i = .idle)
    (h : Transition.run (System.step store) s events = some t) (hrequest : (t.client i).request = some request) :
    Asked events i request := by
  induction events generalizing s with
  | nil =>
    obtain rfl := Option.some.inj h
    rw [hidle] at hrequest
    cases hrequest
  | cons e events ih =>
    obtain ⟨m,he,hrest⟩ := Transition.run_cons _ h
    rcases step_launches he i with ⟨args,buffer,rfl,-,hstarted,hspelled⟩ | ⟨hnone,hcontinues⟩
    · obtain ⟨hkept,hnever⟩ := started_run hstarted hrest
      obtain ⟨path,hpath⟩ := hspelled request (hkept.symm.trans hrequest)
      refine ⟨args,path,fun args' => ⟨?_,?_⟩,hpath⟩
      · rintro ⟨buffer',hmem⟩
        rcases List.mem_cons.mp hmem with heq | hmem
        · cases heq
          rfl
        · exact absurd ⟨args',buffer',rfl⟩ (hnever _ hmem)
      · rintro rfl
        exact ⟨buffer,List.mem_cons_self⟩
    · have hidle' : m.client i = .idle := by
        by_contra hstarted
        have hkept := (started_run hstarted hrest).1
        rw [hrequest,hcontinues.request,hidle] at hkept
        cases hkept
      obtain ⟨args,path,honly,hpath⟩ := ih hidle' hrest
      refine ⟨args,path,fun args' => ?_,hpath⟩
      rw [← honly args']
      refine exists_congr fun buffer => ?_
      rw [List.mem_cons,or_iff_right]
      exact fun heq => hnone ⟨args',buffer,heq.symm⟩

end Launches

end Connections

/-- What a client prints is the answer to the request that the arguments of its start spell out, and
its exit code tells the status of that answer; until then the bytes it has read and those on their way
to it are the head of such an answer. Nothing that other clients, peers without a program or
signals do can change this. -/
theorem clients_answered {D : Type} [Scalars D] (store : D → Binary64) {args : List Bytes} {others : ℕ → Bool}
    {node : Option Node} {events : List Event} {s : System}
    (h : Transition.run (System.step store) (System.initial args others node) events = some s) (i : ℕ)
    (request : QCPUDeviceRequest) :
    (∀ response code, s.client i = .exited (some request) (some response) code → Asked events i request ∧
      (∃ allocations, response = processRequest store allocations request) ∧
      (code = 0 ↔ response.status = QCPUDeviceStatus.ok.code)) ∧
    ∀ wire io, s.client i = .reading request wire io → Asked events i request ∧
      (got io ++ (s.channel i).toClient = [] ∨ ∃ allocations output, got io ++ (s.channel i).toClient <+:
        (qcpuDeviceEncodeResponse output (processRequest store allocations request)).2.val) := by
  have hserved : Served store s :=
    Transition.run_invariant (fun _ _ _ hs he => served_step hs he) (served_initial args others node) h
  have hfair := hserved.fair i
  have hasked : (s.client i).request = some request → Asked events i request := asked_of_run rfl h
  constructor
  · intro response code hclient
    exact ⟨hasked (by rw [hclient]; rfl),hfair.answered _ _ _ hclient response rfl⟩
  · intro wire io hclient
    refine ⟨hasked (by rw [hclient]; rfl),?_⟩
    rw [hclient] at hfair
    have hasks := hfair.asks request wire rfl
    rcases (hfair.agree request wire rfl rfl).head with hnil | ⟨frame,hanswer,hhead⟩
    · exact Or.inl hnil
    · obtain ⟨allocations,output,hframe⟩ := hanswer.processed hasks
      exact Or.inr ⟨allocations,output,by rw [hframe]; exact hhead⟩

/-- A run in which a client asks for the status and is answered. -/
def statusRun : List Event :=
  let whole (size : ℕ+) : Now := { answer := .moved size }
  setupRun ++ [.client 0 (.launch [str "--socket", str "qcpu0", str "status"] (blank _)),
    .client 0 (.connect {} 5), .daemon (.accept 4), .client 0 (.write (whole 24)), .client 0 (.write {}),
    .client 0 (.shutdown false {} 5 (blank _) responseInit),
    .daemon (.readStarted {} (blank _)), .daemon (.read (whole 24)), .daemon (.read {}),
    .daemon (.answer ⟨⟨0, 0, 0, 0, 0, 0⟩, blank _⟩ ⟨true, true⟩), .daemon (.writeStarted {}),
    .daemon (.write (whole 56)), .daemon (.write {}), .client 0 (.read (whole 56) responseInit),
    .client 0 (.read {} responseInit)]

theorem clients_answered_status : ∃ s : System, Transition.run (System.step fun _ : ℝ => ⟨0⟩)
      (System.initial [str "--socket", str "qcpu0"] (fun fd => fd < 3) none) statusRun = some s ∧
    ∃ request response, s.client 0 = .exited (some request) (some response) 0 ∧
      response.status = QCPUDeviceStatus.ok.code := by
  have hclient : (Transition.run (System.step fun _ : ℝ => ⟨0⟩)
      (System.initial [str "--socket", str "qcpu0"] (fun fd => fd < 3) none) statusRun).map (fun s => s.client 0) =
      some (.exited (some ⟨qcpuDeviceRequestMagic, qcpuDeviceProtocolVersion, qcpuDeviceCommandStatus, 0, 0, 0⟩)
        (some responseInit) 0) := rfl
  obtain ⟨s,hrun,hexited⟩ := Option.map_eq_some_iff.mp hclient
  have hanswered := ((clients_answered _ hrun 0 _).1 _ _ hexited).2.2
  exact ⟨s,hrun,_,_,hexited,hanswered.mp rfl⟩

end QbitNova.Service
