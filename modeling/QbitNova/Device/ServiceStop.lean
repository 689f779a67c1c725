import QbitNova.Device.Service
import QbitNova.Library.ExactReals
import QbitNova.Library.Transition

/-! # What the daemon holds, and how it ends

The handler of the stop signals closes a number it once learned, and main closes the same
number later. Both are safe because no descriptor is opened between the two. Once a stop is
requested the daemon moves no more bytes, and a daemon whose handler knows the listener is gone
after a few steps; without a stop, and without an error of `accept`, no client can make it leave
its loop.
-/
namespace QbitNova.Service
open CText LittleEndian DeviceWire DeviceIo Quantum Tools
variable {D : Type} [Scalars D] {store : D → Binary64} {s t : System}

section Frame

/-- Places of the main loop that lead back to `accept`. -/
def Place.serving : Place → Bool
  | .notAccepted interrupted => interrupted
  | .retract _ => false
  | p => p.published

theorem afterRead_near (i fd : ℕ) (io : Io (Input qcpuDeviceRequestWireSize)) : (afterRead i fd io).connection = some (i, fd) ∧
    (afterRead i fd io).holdsServer = true ∧ (afterRead i fd io).published = true := by
  unfold afterRead
  split <;> exact ⟨rfl,rfl,rfl⟩

theorem afterWrite_near (i fd : ℕ) (frame : ResponseWire) (io : Io Bytes) :
    (afterWrite i fd frame io).connection = some (i, fd) ∧ (afterWrite i fd frame io).holdsServer = true ∧
      (afterWrite i fd frame io).published = true := by
  unfold afterWrite
  split <;> exact ⟨rfl,rfl,rfl⟩

theorem afterRead_serving (i fd : ℕ) (io : Io (Input qcpuDeviceRequestWireSize)) : (afterRead i fd io).serving = true := by
  unfold afterRead
  split <;> rfl

theorem afterWrite_serving (i fd : ℕ) (frame : ResponseWire) (io : Io Bytes) : (afterWrite i fd frame io).serving = true := by
  unfold afterWrite
  split <;> rfl

end Frame

section Descriptors
variable {others : ℕ → Bool}

theorem opened_iff {fds : ℕ → Option Descriptor} {fd n : ℕ} (hfree : fds fd = none) (d x : Descriptor) :
    Function.update fds fd (some d) n = some x ↔ fds n = some x ∨ n = fd ∧ x = d := by
  by_cases hn : n = fd
  · subst hn
    simp [hfree,eq_comm]
  · simp [hn]

theorem freed_iff (fds : ℕ → Option Descriptor) (fd n : ℕ) (x : Descriptor) :
    Function.update fds fd none n = some x ↔ fds n = some x ∧ n ≠ fd := by
  by_cases hn : n = fd
  · subst hn
    simp
  · simp [hn]

/-- Every open descriptor has a place in the program that will close it. -/
structure Tidy (others : ℕ → Bool) (s : System) : Prop where
  others : ∀ fd, s.fds fd = some .other ↔ others fd = true
  clients : ∀ fd i, s.fds fd = some (.client i) ↔ s.place.connection = some (i, fd)
  listener : ∀ fd, s.fds fd = some .listener → s.place.holdsServer = true ∧ s.serverFd = fd
  held : s.place.holdsServer = true → 0 ≤ s.serverFd ∧ (s.fds s.serverFd.toNat = some .listener ∨
    s.fds s.serverFd.toNat = none ∧ s.stopRequested = true)
  published : s.serverFdForSignal = if s.place.published then s.serverFd else -1

/-- Nothing changes for the descriptors between places that are near. -/
theorem Tidy.near (h : Tidy others s) (hnear : s.place.Near t.place) (hstop : t.stopRequested = s.stopRequested)
    (hserver : t.serverFd = s.serverFd) (hsignal : t.serverFdForSignal = s.serverFdForSignal) (hfds : t.fds = s.fds) :
    Tidy others t := by
  refine ⟨?_,?_,?_,?_,?_⟩
  · rw [hfds]
    exact h.others
  · rw [hfds,hnear.connection]
    exact h.clients
  · rw [hfds,hnear.holdsServer,hserver]
    exact h.listener
  · rw [hfds,hnear.holdsServer,hserver,hstop]
    exact h.held
  · rw [hsignal,hnear.published,hserver]
    exact h.published

theorem SameDaemon.tidy (hsame : SameDaemon s t) (h : Tidy others s) : Tidy others t :=
  h.near (hsame.place.symm ▸ ⟨rfl,rfl,rfl⟩) hsame.stopRequested hsame.serverFd hsame.serverFdForSignal hsame.fds

theorem Tidy.serverFd_free (h : Tidy others s) (hholds : s.place.holdsServer = true) :
    others s.serverFd.toNat = false ∧ ∀ i, s.place.connection ≠ some (i, s.serverFd.toNat) := by
  have hheld := (h.held hholds).2
  constructor
  · by_contra hother
    have hfd := (h.others _).mpr (by simpa using hother)
    rcases hheld with hlistener | ⟨hnone,-⟩
    · rw [hfd] at hlistener
      cases hlistener
    · rw [hfd] at hnone
      cases hnone
  · intro i hconnection
    have hfd := (h.clients _ i).mpr hconnection
    rcases hheld with hlistener | ⟨hnone,-⟩
    · rw [hfd] at hlistener
      cases hlistener
    · rw [hfd] at hnone
      cases hnone

theorem Tidy.freed (h : Tidy others s) (hholds : s.place.holdsServer = true) :
    (∀ fd, Function.update s.fds s.serverFd.toNat none fd = some .other ↔ others fd = true) ∧
    (∀ fd i, Function.update s.fds s.serverFd.toNat none fd = some (.client i) ↔ s.place.connection = some (i, fd)) ∧
    ∀ fd, Function.update s.fds s.serverFd.toNat none fd ≠ some .listener := by
  obtain ⟨hother,hconnection⟩ := h.serverFd_free hholds
  refine ⟨fun fd => ?_,fun fd i => ?_,fun fd => ?_⟩
  · rw [freed_iff,h.others,and_iff_left_iff_imp]
    rintro hfd rfl
    rw [hother] at hfd
    cases hfd
  · rw [freed_iff,h.clients,and_iff_left_iff_imp]
    rintro hfd rfl
    exact hconnection i hfd
  · rw [ne_eq,freed_iff,not_and_not_right]
    intro hlistener
    have hserver := (h.listener fd hlistener).2
    omega

theorem Tidy.closeServer (h : Tidy others s) (hholds : s.place.holdsServer = true) (hidle : s.place.connection = none)
    (hhidden : s.place.published = false) {place : Place} (hplace : place.holdsServer = false)
    (hconnection : place.connection = none) (hpublished : place.published = false) :
    Tidy others ((s.close s.serverFd.toNat).goto place) := by
  obtain ⟨hunmoved,hfds,-⟩ := close_spec s s.serverFd.toNat
  obtain ⟨hothers,hclients,hlistener⟩ := h.freed hholds
  have hsignal := h.published
  rw [hhidden] at hsignal
  refine ⟨?_,?_,?_,?_,?_⟩
  · show ∀ fd, (s.close s.serverFd.toNat).fds fd = _ ↔ _
    rw [hfds]
    exact hothers
  · show ∀ fd i, (s.close s.serverFd.toNat).fds fd = _ ↔ place.connection = _
    rw [hfds,hconnection,← hidle]
    exact hclients
  · show ∀ fd, (s.close s.serverFd.toNat).fds fd = _ → _
    rw [hfds]
    exact fun fd hfd => absurd hfd (hlistener fd)
  · show place.holdsServer = true → _
    rw [hplace]
    exact nofun
  · show (s.close s.serverFd.toNat).serverFdForSignal = if place.published then _ else -1
    rw [hunmoved.serverFdForSignal,hpublished,hsignal]
    rfl

theorem tidy_move (h : Tidy others s) (hmove : Move store s t) : Tidy others t := by
  cases hmove with
  | walk place node hidle hnear => exact h.near hnear rfl rfl rfl rfl
  | socket fd hplace hfree =>
    have hnone : ∀ n, s.fds n ≠ some .listener := by
      intro n hlistener
      have hholds := (h.listener n hlistener).1
      rw [hplace] at hholds
      cases hholds
    have hsignal := h.published
    have hclients := h.clients
    rw [hplace] at hsignal hclients
    refine ⟨fun n => (opened_iff hfree _ _).trans ?_,fun n i => (opened_iff hfree _ _).trans ?_,
      fun n hlistener => ⟨rfl,?_⟩,fun _ => ⟨Int.natCast_nonneg fd,Or.inl (Function.update_self _ _ _)⟩,hsignal⟩
    · simpa using h.others n
    · simpa [System.goto,Place.connection] using hclients n i
    · rcases (opened_iff hfree _ _).mp hlistener with hold | ⟨rfl,-⟩
      · exact absurd hold (hnone n)
      · rfl
  | publish hplace =>
    refine ⟨h.others,?_,fun n hn => ⟨rfl,(h.listener n hn).2⟩,fun _ => h.held (by rw [hplace]; rfl),rfl⟩
    have hclients := h.clients
    rwa [hplace] at hclients
  | retract failed hplace =>
    refine ⟨h.others,?_,fun n hn => ⟨rfl,(h.listener n hn).2⟩,fun _ => h.held (by rw [hplace]; rfl),rfl⟩
    have hclients := h.clients
    rwa [hplace] at hclients
  | closeSetup bound hplace =>
    apply h.closeServer <;> first | (rw [hplace]; rfl) | (cases bound <;> rfl)
  | closeServer failed fails hplace => apply h.closeServer <;> first | (rw [hplace]; rfl) | rfl
  | accept i fd rest hplace hlistener hbacklog hfree =>
    have hother : fd ≠ s.serverFd.toNat := by
      rintro rfl
      rw [hfree] at hlistener
      cases hlistener
    have hsignal := h.published
    have hclients := h.clients
    rw [hplace] at hsignal hclients
    have hheld := h.held (by rw [hplace]; rfl)
    refine ⟨fun n => (opened_iff hfree _ _).trans ?_,fun n j => (opened_iff hfree _ _).trans ?_,
      fun n hn => ⟨rfl,?_⟩,fun _ => ⟨hheld.1,Or.inl ?_⟩,hsignal⟩
    · simpa using h.others n
    · rw [hclients]
      simp [System.goto,Place.connection,and_comm,eq_comm]
    · rcases (opened_iff hfree _ _).mp hn with hold | ⟨-,hlistens⟩
      · exact (h.listener n hold).2
      · cases hlistens
    · exact (Function.update_of_ne hother.symm _ _).trans hlistener
  | startRead i fd now buffer hplace =>
    obtain ⟨hconnection,hholds,hpublished⟩ :=
      afterRead_near i fd (start (now.schedule s.stopRequested) (now.setup fd) ⟨buffer, []⟩)
    exact h.near (hplace ▸ ⟨hconnection,hholds,hpublished⟩) rfl rfl rfl rfl
  | read i fd io next rest now hplace havailable hstep =>
    obtain ⟨hconnection,hholds,hpublished⟩ := afterRead_near i fd next
    exact h.near (hplace ▸ ⟨hconnection,hholds,hpublished⟩) rfl rfl rfl rfl
  | answer i fd wire connection allocations frame hplace hframe =>
    exact h.near (hplace ▸ ⟨rfl,rfl,rfl⟩) rfl rfl rfl rfl
  | startWrite i fd frame now hplace =>
    obtain ⟨hconnection,hholds,hpublished⟩ :=
      afterWrite_near i fd frame (start (now.schedule s.stopRequested) (now.setup fd) [])
    exact h.near (hplace ▸ ⟨hconnection,hholds,hpublished⟩) rfl rfl rfl rfl
  | write i fd frame io next rest now hplace hstep =>
    obtain ⟨hconnection,hholds,hpublished⟩ := afterWrite_near i fd frame next
    exact h.near (hplace ▸ ⟨hconnection,hholds,hpublished⟩) rfl rfl rfl rfl
  | closeClient i fd result hplace =>
    obtain ⟨hunmoved,hfds,-⟩ := close_spec s fd
    have hclient : s.fds fd = some (.client i) := (h.clients fd i).mpr (by rw [hplace]; rfl)
    have hheld := h.held (by rw [hplace]; rfl)
    have hother : s.serverFd.toNat ≠ fd := by
      rintro rfl
      rw [hclient] at hheld
      rcases hheld.2 with hlistener | ⟨hnone,-⟩
      · cases hlistener
      · cases hnone
    have hclosed : ∀ n x, (s.close fd).fds n = some x ↔ s.fds n = some x ∧ n ≠ fd := by
      rw [hfds]
      exact freed_iff s.fds fd
    refine ⟨fun n => (hclosed n _).trans ?_,fun n j => (hclosed n _).trans ?_,
      fun n hn => ⟨rfl,hunmoved.serverFd.trans (h.listener n ((hclosed n _).mp hn).1).2⟩,fun _ => ⟨?_,?_⟩,?_⟩
    · rw [h.others,and_iff_left_iff_imp]
      rintro hn rfl
      rw [(h.others n).mpr hn] at hclient
      cases hclient
    · rw [h.clients,hplace]
      simp only [System.goto,Place.connection,Option.some.injEq,Prod.mk.injEq,reduceCtorEq,iff_false,not_and,
        not_not,and_imp]
      exact fun _ hn => hn.symm
    · exact hunmoved.serverFd.symm ▸ hheld.1
    · show (s.close fd).fds (s.close fd).serverFd.toNat = _ ∨ (s.close fd).fds (s.close fd).serverFd.toNat = none ∧
        (s.close fd).stopRequested = true
      rw [hunmoved.serverFd,hunmoved.stopRequested,hfds,Function.update_of_ne hother]
      exact hheld.2
    · show (s.close fd).serverFdForSignal = (s.close fd).serverFd
      rw [hunmoved.serverFdForSignal,hunmoved.serverFd,h.published,hplace]
      rfl

theorem holdsServer_of_published {p : Place} (h : p.published = true) : p.holdsServer = true := by
  cases p <;> first | rfl | cases h

theorem tidy_signal (h : Tidy others s) : Tidy others s.handleStopSignal := by
  have hstopped : Tidy others s.requestStop :=
    ⟨h.others,h.clients,h.listener,fun hholds => ⟨(h.held hholds).1,(h.held hholds).2.imp id fun hnone => ⟨hnone.1,rfl⟩⟩,
      h.published⟩
  unfold System.handleStopSignal
  split_ifs with hknown
  · have hpublished : s.place.published = true := by
      by_contra hhidden
      have hsignal := h.published
      rw [if_neg hhidden] at hsignal
      omega
    have hsignal : s.serverFdForSignal = s.serverFd := by
      rw [h.published,if_pos hpublished]
    have hholds := holdsServer_of_published hpublished
    obtain ⟨hunmoved,hfds,-⟩ := close_spec s.requestStop s.serverFdForSignal.toNat
    obtain ⟨hothers,hclients,hlistener⟩ := hstopped.freed hholds
    rw [hsignal] at hunmoved hfds ⊢
    refine ⟨?_,?_,?_,fun _ => ⟨?_,Or.inr ⟨?_,?_⟩⟩,?_⟩
    · rw [hfds]
      exact hothers
    · rw [hfds,hunmoved.place]
      exact hclients
    · rw [hfds]
      exact fun fd hfd => absurd hfd (hlistener fd)
    · rw [hunmoved.serverFd]
      exact (h.held hholds).1
    · rw [hfds,hunmoved.serverFd]
      exact Function.update_self _ _ _
    · exact hunmoved.stopRequested
    · rw [hunmoved.serverFdForSignal,hunmoved.place,hunmoved.serverFd]
      exact h.published
  · exact hstopped

theorem tidy_step (h : Tidy others s) {e : Event} (he : s.step store e = some t) : Tidy others t := by
  rcases step_cases he with ⟨d,-,hd⟩ | ⟨-,-,rfl⟩ | ⟨-,-,hsame,-⟩
  · exact tidy_move h (daemon_move hd)
  · exact tidy_signal h
  · exact hsame.tidy h

theorem tidy_initial (args : List Bytes) (others : ℕ → Bool) (node : Option Node) :
    Tidy others (System.initial args others node) := by
  have hplace := initial_place args others node
  have hconnection : (System.initial args others node).place.connection = none := by
    rcases hplace with hplace | hplace <;> rw [hplace] <;> rfl
  have hholds : (System.initial args others node).place.holdsServer = false := by
    rcases hplace with hplace | hplace <;> rw [hplace] <;> rfl
  have hpublished : (System.initial args others node).place.published = false := by
    rcases hplace with hplace | hplace <;> rw [hplace] <;> rfl
  have hfds : ∀ fd, (System.initial args others node).fds fd = if others fd then some .other else none := fun _ => rfl
  refine ⟨fun fd => ?_,fun fd i => ?_,fun fd => ?_,?_,?_⟩
  · rw [hfds]
    split_ifs with hother <;> simp [hother]
  · rw [hfds,hconnection]
    split_ifs <;> simp
  · rw [hfds]
    split_ifs <;> simp
  · rw [hholds]
    exact nofun
  · rw [hpublished]
    rfl

end Descriptors

/-- In every reachable state the daemon has open what its process had before, the connection
it serves, and the listener from `socket` to `close` unless a signal came. The handler closes
the listener or a number that is free, and an exit leaves nothing open. -/
theorem descriptors_kept {args : List Bytes} {others : ℕ → Bool} {node : Option Node} {events : List Event}
    (h : Transition.run (System.step store) (System.initial args others node) events = some s) :
    (∀ fd, s.fds fd = some .other ↔ others fd = true) ∧
    (∀ fd i, s.fds fd = some (.client i) ↔ s.place.connection = some (i, fd)) ∧
    (∀ fd, s.fds fd = some .listener → s.place.holdsServer = true ∧ s.serverFd = fd) ∧
    (s.place.holdsServer = true → s.stopRequested = false → s.fds s.serverFd.toNat = some .listener) ∧
    (s.serverFdForSignal ≥ 0 → s.fds s.serverFdForSignal.toNat = some .listener ∨
      s.fds s.serverFdForSignal.toNat = none) ∧
    ∀ code, s.place = .exited code → ∀ fd, s.fds fd = if others fd then some .other else none := by
  have htidy : Tidy others s :=
    Transition.run_invariant (fun _ _ _ hs he => tidy_step hs he) (tidy_initial args others node) h
  refine ⟨htidy.others,htidy.clients,htidy.listener,fun hholds hstop => ?_,fun hknown => ?_,fun code hexit fd => ?_⟩
  · rcases (htidy.held hholds).2 with hlistener | ⟨-,hstopped⟩
    · exact hlistener
    · rw [hstop] at hstopped
      cases hstopped
  · have hsignal := htidy.published
    by_cases hpublished : s.place.published = true
    · rw [if_pos hpublished] at hsignal
      rw [hsignal]
      exact (htidy.held (holdsServer_of_published hpublished)).2.imp id And.left
    · rw [if_neg hpublished] at hsignal
      omega
  · cases hfd : s.fds fd with
    | none =>
      rw [if_neg]
      intro hother
      rw [(htidy.others fd).mpr hother] at hfd
      cases hfd
    | some descriptor =>
      cases descriptor with
      | other => rw [if_pos ((htidy.others fd).mp hfd)]
      | listener =>
        have hholds := (htidy.listener fd hfd).1
        rw [hexit] at hholds
        cases hholds
      | client i =>
        have hconnection := (htidy.clients fd i).mp hfd
        rw [hexit] at hconnection
        cases hconnection

/-- What the daemon does when a signal interrupts its `accept`. -/
def shutdownRun : List Event :=
  [.daemon (.acceptFailed true), .daemon .stopChecked, .daemon .retract, .daemon (.closeServer false),
    .daemon (.unlink false)]

theorem descriptors_kept_shutdown : ∃ s : System, Transition.run (System.step fun _ : ℝ => ⟨0⟩)
      (System.initial [str "--socket", str "qcpu0"] (fun fd => fd < 3) none) (setupRun ++ .signal :: shutdownRun) = some s ∧
    s.place = .exited 0 ∧ ∀ fd, s.fds fd = if fd < 3 then some .other else none := by
  have hplace : (Transition.run (System.step fun _ : ℝ => ⟨0⟩) (System.initial [str "--socket", str "qcpu0"]
      (fun fd => fd < 3) none) (setupRun ++ .signal :: shutdownRun)).map System.place = some (.exited 0) := rfl
  obtain ⟨s,hrun,hexited⟩ := Option.map_eq_some_iff.mp hplace
  obtain ⟨-,-,-,-,-,hfds⟩ := descriptors_kept hrun
  exact ⟨s,hrun,hexited,fun fd => by simpa using hfds 0 hexited fd⟩

section SocketPath

/-- Nobody else touches the socket path, and what main unlinks is gone. -/
def Event.undisturbed : Event → Bool
  | .meddle _ => false
  | .daemon (.unlink fails) | .daemon (.unlinkSetup fails) => !fails
  | _ => true

/-- Nothing is in the way of the daemon, or a socket of its own user. -/
def Replaceable (first : Option Node) : Prop := first = none ∨ first = some ⟨true, true⟩

/-- What is found at the path, given what was there at first. -/
def PathAt (first : Option Node) : Place → Option Node → Prop
  | .handlers, node | .lstat, node => node = first
  | .unlinkOld, node => node = first ∧ first = some ⟨true, true⟩
  | .socket, node | .bind, node | .closeSetup false, node => node = none ∧ Replaceable first
  | .exited code, node => (node = first ∨ node = none ∧ Replaceable first) ∧ (code = 0 → node = none)
  | _, node => node = some ⟨true, true⟩ ∧ Replaceable first

variable {first : Option Node}

theorem pathAt_published {p : Place} (h : p.published = true) (found : Option Node) :
    PathAt first p found ↔ found = some ⟨true, true⟩ ∧ Replaceable first := by
  cases p <;> first | rfl | cases h

theorem path_daemon {d : DaemonEvent} (h : PathAt first s.place s.node) (hd : (Event.daemon d).undisturbed = true)
    (he : s.daemon store d = some t) : PathAt first t.place t.node := by
  revert he
  fun_cases System.daemon store s d with
  | case1 fails hplace =>
    intro he
    obtain rfl := Option.some.inj he
    rw [hplace] at h
    cases fails with
    | true => exact ⟨Or.inl h,(absurd · one_ne_zero)⟩
    | false => exact h
  | case2 fails hplace =>
    intro he
    obtain rfl := Option.some.inj he
    rw [hplace] at h
    replace h : s.node = first := h
    clear he hd
    simp only [System.goto]
    generalize s.node = found at h ⊢
    cases fails with
    | true => exact ⟨Or.inl h,(absurd · one_ne_zero)⟩
    | false =>
      cases found with
      | none => exact ⟨rfl,Or.inl h.symm⟩
      | some found =>
        obtain ⟨isSocket,isOwn⟩ := found
        cases isSocket <;> cases isOwn
        · exact ⟨Or.inl h,(absurd · one_ne_zero)⟩
        · exact ⟨Or.inl h,(absurd · one_ne_zero)⟩
        · exact ⟨Or.inl h,(absurd · one_ne_zero)⟩
        · exact ⟨h,h.symm⟩
  | case3 fails hplace =>
    intro he
    obtain rfl := Option.some.inj he
    rw [hplace] at h
    cases fails with
    | true => exact ⟨Or.inl h.1,(absurd · one_ne_zero)⟩
    | false => exact ⟨rfl,Or.inr h.2⟩
  | case4 hplace =>
    intro he
    obtain rfl := Option.some.inj he
    rw [hplace] at h
    exact ⟨Or.inr h,fun _ => h.1⟩
  | case5 fd hplace =>
    intro he
    obtain rfl := Option.some.inj he
    rw [hplace] at h
    exact h
  | case8 fails hplace =>
    intro he
    obtain rfl := Option.some.inj he
    rw [hplace] at h
    cases fails with
    | true => exact h
    | false => exact ⟨rfl,h.2⟩
  | case9 fails hplace | case10 fails hplace =>
    intro he
    obtain rfl := Option.some.inj he
    rw [hplace] at h
    cases fails <;> exact h
  | case11 hplace | case14 fd hplace | case18 interrupted hplace | case29 failed hplace =>
    intro he
    obtain rfl := Option.some.inj he
    rw [hplace] at h
    exact h
  | case12 bound hplace =>
    intro he
    obtain rfl := Option.some.inj he
    rw [hplace] at h
    have hnode := (close_spec s s.serverFd.toNat).1.node
    show PathAt first (if bound then .unlinkSetup else .exited 1) (s.close s.serverFd.toNat).node
    rw [hnode]
    cases bound with
    | true => exact h
    | false => exact ⟨Or.inr h,(absurd · one_ne_zero)⟩
  | case13 fails hplace =>
    intro he
    obtain rfl := Option.some.inj he
    rw [hplace] at h
    cases fails with
    | true => cases hd
    | false => exact ⟨Or.inr ⟨rfl,h.2⟩,fun _ => rfl⟩
  | case19 interrupted hplace | case28 result hplace =>
    intro he
    obtain rfl := Option.some.inj he
    rw [hplace] at h
    refine (pathAt_published ?_ _).mpr h
    show Place.published (if _ then _ else _) = true
    split_ifs <;> rfl
  | case20 i fd now buffer hplace =>
    intro he
    obtain rfl := Option.some.inj he
    rw [hplace] at h
    exact (pathAt_published (afterRead_near i fd _).2.2 _).mpr h
  | case21 i fd io now hplace =>
    intro he
    obtain ⟨next,-,rfl⟩ := Option.map_eq_some_iff.mp he
    rw [hplace] at h
    exact (pathAt_published (afterRead_near i fd _).2.2 _).mpr h
  | case23 i fd wire connection allocations hplace =>
    intro he
    obtain rfl := Option.some.inj he
    rw [hplace] at h
    exact h
  | case24 i fd frame now hplace =>
    intro he
    obtain rfl := Option.some.inj he
    rw [hplace] at h
    exact (pathAt_published (afterWrite_near i fd frame _).2.2 _).mpr h
  | case25 i fd frame io now hplace =>
    intro he
    obtain ⟨next,-,rfl⟩ := Option.map_eq_some_iff.mp he
    rw [hplace] at h
    exact (pathAt_published (afterWrite_near i fd frame _).2.2 _).mpr h
  | case27 i fd result hplace =>
    intro he
    obtain rfl := Option.some.inj he
    rw [hplace] at h
    show PathAt first _ (s.close fd).node
    rw [(close_spec s fd).1.node]
    exact h
  | case30 failed fails hplace =>
    intro he
    obtain rfl := Option.some.inj he
    rw [hplace] at h
    show PathAt first _ (s.close s.serverFd.toNat).node
    rw [(close_spec s s.serverFd.toNat).1.node]
    exact h
  | case31 failed fails hplace =>
    intro he
    obtain rfl := Option.some.inj he
    rw [hplace] at h
    cases fails with
    | true => cases hd
    | false => exact ⟨Or.inr ⟨rfl,h.2⟩,fun _ => rfl⟩
  | case6 | case7 | case15 | case16 | case17 | case22 | case26 | case32 =>
    intro he
    cases he

theorem signal_unmoved (s : System) : s.handleStopSignal.once = s.once ∧ s.handleStopSignal.place = s.place ∧
    s.handleStopSignal.node = s.node ∧ s.handleStopSignal.stopRequested = true := by
  unfold System.handleStopSignal
  split_ifs
  · have hunmoved := (close_spec s.requestStop s.serverFdForSignal.toNat).1
    exact ⟨hunmoved.once,hunmoved.place,hunmoved.node,hunmoved.stopRequested⟩
  · exact ⟨rfl,rfl,rfl,rfl⟩

theorem path_step {e : Event} (h : PathAt first s.place s.node) (hquiet : e.undisturbed = true)
    (he : s.step store e = some t) : PathAt first t.place t.node := by
  rcases step_cases he with ⟨d,rfl,hd⟩ | ⟨-,-,rfl⟩ | ⟨-,-,hsame,hnode⟩
  · exact path_daemon h hquiet hd
  · obtain ⟨-,hplace,hnode,-⟩ := signal_unmoved s
    rw [hplace,hnode]
    exact h
  · rcases hnode with hnode | ⟨node,rfl⟩
    · rw [hsame.place,hnode]
      exact h
    · cases hquiet

/-- As long as nobody else touches the path and unlinking works, the daemon leaves what is not a
socket of its user alone and does not come up then; while it serves its socket is there, and
when it has gone the path is empty or as it was. -/
theorem path_kept {args : List Bytes} {others : ℕ → Bool} {events : List Event}
    (h : Transition.run (System.step store) (System.initial args others first) events = some s)
    (hquiet : ∀ e ∈ events, e.undisturbed = true) :
    (first ≠ none → first ≠ some ⟨true, true⟩ → s.node = first ∧ s.place.holdsServer = false) ∧
    (s.place.published = true → s.node = some ⟨true, true⟩) ∧
    ∀ code, s.place = .exited code → (s.node = none ∨ s.node = first) ∧ (code = 0 → s.node = none) := by
  have hinitial : PathAt first (System.initial args others first).place (System.initial args others first).node := by
    rcases initial_place args others first with hplace | hplace <;> rw [hplace]
    · rfl
    · exact ⟨Or.inl rfl,nofun⟩
  have hpath : PathAt first s.place s.node := Transition.run_invariant_of_events
    (I := fun s => PathAt first s.place s.node) (fun _ _ _ hs hP he => path_step hs hP he) hinitial hquiet h
  refine ⟨fun hsome hunsafe => ?_,fun hpublished => ((pathAt_published hpublished _).mp hpath).1,fun code hexit => ?_⟩
  · have hrefused : ¬ Replaceable first := by
      rintro (hnone | hown)
      · exact hsome hnone
      · exact hunsafe hown
    cases hplace : s.place <;> rw [hplace] at hpath
    case handlers | lstat => exact ⟨hpath,rfl⟩
    case unlinkOld => exact absurd hpath.2 hunsafe
    case exited => exact ⟨hpath.1.resolve_right fun hnone => hrefused hnone.2,rfl⟩
    case closeSetup bound => cases bound <;> exact absurd hpath.2 hrefused
    all_goals exact absurd hpath.2 hrefused
  · rw [hexit] at hpath
    exact ⟨hpath.1.symm.imp And.left id,hpath.2⟩

theorem path_kept_shutdown : ∃ s : System, Transition.run (System.step fun _ : ℝ => ⟨0⟩)
      (System.initial [str "--socket", str "qcpu0"] (fun fd => fd < 3) none) (setupRun ++ .signal :: shutdownRun) = some s ∧
    s.place = .exited 0 ∧ s.node = none := by
  have hplace : (Transition.run (System.step fun _ : ℝ => ⟨0⟩) (System.initial [str "--socket", str "qcpu0"]
      (fun fd => fd < 3) none) (setupRun ++ .signal :: shutdownRun)).map System.place = some (.exited 0) := rfl
  obtain ⟨s,hrun,hexited⟩ := Option.map_eq_some_iff.mp hplace
  obtain ⟨-,-,hnode⟩ := path_kept hrun (by decide)
  exact ⟨s,hrun,hexited,(hnode 0 hexited).2 rfl⟩

end SocketPath

section Stop

theorem step_stopped {σ : Type} {env : Schedule} {size : ℕ}
    {store : σ → ℕ → (completed count : ℕ) → completed + count ≤ size → σ} {io next : Io σ}
    (hstop : ∀ looks, env.stopFlag looks = true) (h : step env size store io = some next) :
    next.completed = io.completed ∧ ∃ status, next.phase = .returned status ∧ (io.completed < size → status ≠ .ok) := by
  unfold step at h
  cases hphase : io.phase with
  | returned status =>
    rw [hphase] at h
    cases h
  | waiting =>
    rw [hphase] at h
    obtain rfl := Option.some.inj h
    unfold waitUntilReady
    rw [if_pos (hstop _)]
    exact ⟨rfl,.stopped,rfl,fun _ => by decide⟩
  | transferring =>
    rw [hphase] at h
    obtain rfl := Option.some.inj h
    by_cases hroom : io.completed < size
    · rw [dif_pos hroom]
      unfold transfer
      rw [if_pos (hstop _)]
      exact ⟨rfl,.stopped,rfl,fun _ => by decide⟩
    · rw [dif_neg hroom]
      exact ⟨rfl,.ok,rfl,fun hlt => absurd hlt hroom⟩

/-- How many more steps the daemon can take once a stop is requested. -/
def Place.rank : Place → ℕ
  | .exited _ => 0
  | .unlink _ | .unlinkSetup => 1
  | .closeServer _ | .closeSetup _ => 2
  | .retract _ => 3
  | .notAccepted _ => 4
  | .closed result => if result = 0 then 12 else 4
  | .served _ _ result => if result = 0 then 13 else 5
  | .writing _ _ _ io => if io.completed < qcpuDeviceResponseWireSize then 6 else 14
  | .answered .. => 7
  | .answering .. => 8
  | .reading .. => 9
  | .accepted .. => 10
  | .accept => 11
  | .publish => 12
  | .listen => 13
  | .chmod => 14
  | .bind => 15
  | .socket => 16
  | .unlinkOld => 17
  | .lstat => 18
  | .handlers => 19

/-- A returned call leads on to the next part of the program. -/
theorem afterRead_rank {i fd : ℕ} {io : Io (Input qcpuDeviceRequestWireSize)} {status : Status}
    (h : io.phase = .returned status) : (afterRead i fd io).rank ≤ 8 := by
  unfold afterRead
  rw [h]
  cases status <;> simp [Place.rank]

theorem afterRead_le (i fd : ℕ) (io : Io (Input qcpuDeviceRequestWireSize)) : (afterRead i fd io).rank ≤ 9 := by
  unfold afterRead
  split <;> simp [Place.rank]

theorem afterWrite_rank {i fd : ℕ} {frame : ResponseWire} {io : Io Bytes} {status : Status}
    (h : io.phase = .returned status) : (afterWrite i fd frame io).rank ≤ if status = .ok then 13 else 5 := by
  unfold afterWrite
  rw [h]
  cases status <;> simp [Place.rank]

theorem afterWrite_start (i fd : ℕ) (frame : ResponseWire) (now : Now) (s : System) :
    (afterWrite i fd frame (start (now.schedule s.stopRequested) (now.setup fd) [])).rank ≤ 6 := by
  obtain ⟨hcompleted,-,hrunning⟩ := start_completed (now.schedule s.stopRequested) (now.setup fd) ([] : Bytes)
  unfold afterWrite
  split
  · contradiction
  · simp [Place.rank]
  · simp [Place.rank,hcompleted]

/-- Bytes under way are where they were. -/
def SameBytes (s t : System) : Prop :=
  ∀ i, (t.channel i).toDaemon = (s.channel i).toDaemon ∧ (t.channel i).toClient = (s.channel i).toClient

theorem SameBytes.update {i : ℕ} {channel : Channel} (ht : t.channel = Function.update s.channel i channel)
    (hto : channel.toDaemon = (s.channel i).toDaemon) (hfrom : channel.toClient = (s.channel i).toClient) :
    SameBytes s t := by
  intro j
  rw [ht]
  by_cases hj : j = i
  · subst hj
    rw [Function.update_self]
    exact ⟨hto,hfrom⟩
  · rw [Function.update_of_ne hj]
    exact ⟨rfl,rfl⟩

/-- Once a stop is requested every step of the daemon leads towards its exit and moves no byte. -/
theorem stop_daemon (hstop : s.stopRequested = true) {d : DaemonEvent} (he : s.daemon store d = some t) :
    t.place.rank < s.place.rank ∧ t.stopRequested = true ∧ SameBytes s t := by
  have same : ∀ {u : System}, u.channel = s.channel → SameBytes s u := fun {u} h i => by rw [h]; exact ⟨rfl,rfl⟩
  revert he
  fun_cases System.daemon store s d with
  | case1 fails hplace | case9 fails hplace | case10 fails hplace =>
    intro he
    obtain rfl := Option.some.inj he
    refine ⟨?_,hstop,same rfl⟩
    rw [hplace]
    cases fails <;> simp [System.goto,Place.rank]
  | case2 fails hplace =>
    intro he
    obtain rfl := Option.some.inj he
    refine ⟨?_,hstop,same rfl⟩
    rw [hplace]
    show Place.rank _ < 18
    split
    · simp [System.goto,Place.rank]
    · split_ifs <;> simp [System.goto,Place.rank]
    · simp [System.goto,Place.rank]
  | case3 fails hplace | case8 fails hplace =>
    intro he
    obtain rfl := Option.some.inj he
    cases fails <;> exact ⟨by simp [hplace,System.goto,Place.rank],hstop,same rfl⟩
  | case4 hplace | case5 fd hplace | case11 hplace | case13 fails hplace | case14 fd hplace
  | case18 interrupted hplace | case29 failed hplace | case31 failed fails hplace =>
    intro he
    obtain rfl := Option.some.inj he
    exact ⟨by simp [hplace,System.goto,Place.rank],hstop,same rfl⟩
  | case12 bound hplace =>
    intro he
    obtain rfl := Option.some.inj he
    have hunmoved := (close_spec s s.serverFd.toNat).1
    refine ⟨?_,hunmoved.stopRequested.trans hstop,fun i => ⟨hunmoved.toDaemon i,hunmoved.toClient i⟩⟩
    rw [hplace]
    cases bound <;> simp [System.goto,Place.rank]
  | case30 failed fails hplace =>
    intro he
    obtain rfl := Option.some.inj he
    have hunmoved := (close_spec s s.serverFd.toNat).1
    refine ⟨?_,hunmoved.stopRequested.trans hstop,fun i => ⟨hunmoved.toDaemon i,hunmoved.toClient i⟩⟩
    rw [hplace]
    exact Nat.lt_succ_self 1
  | case19 interrupted hplace =>
    intro he
    obtain rfl := Option.some.inj he
    refine ⟨?_,hstop,same rfl⟩
    rw [hplace,hstop]
    exact Nat.lt_succ_self 3
  | case20 i fd now buffer hplace =>
    intro he
    obtain rfl := Option.some.inj he
    refine ⟨?_,hstop,same rfl⟩
    rw [hplace]
    exact (afterRead_le i fd _).trans_lt (by simp [Place.rank])
  | case21 i fd io now hplace =>
    intro he
    obtain ⟨next,hstep,rfl⟩ := Option.map_eq_some_iff.mp he
    obtain ⟨next',hpass,rfl⟩ := Option.map_eq_some_iff.mp hstep
    obtain ⟨hcompleted,status,hphase,-⟩ := step_stopped (fun _ => hstop) hpass
    refine ⟨?_,hstop,SameBytes.update rfl ?_ rfl⟩
    · rw [hplace]
      exact (afterRead_rank hphase).trans_lt (by simp [Place.rank])
    · show ((s.channel i).toDaemon.drop (next'.completed - io.completed)) = _
      rw [hcompleted,Nat.sub_self,List.drop_zero]
  | case23 i fd wire connection allocations hplace =>
    intro he
    obtain rfl := Option.some.inj he
    refine ⟨?_,hstop,same rfl⟩
    rw [hplace]
    exact Nat.lt_succ_self 7
  | case24 i fd frame now hplace =>
    intro he
    obtain rfl := Option.some.inj he
    refine ⟨?_,hstop,same rfl⟩
    rw [hplace]
    exact (afterWrite_start i fd frame now s).trans_lt (by simp [Place.rank])
  | case25 i fd frame io now hplace =>
    intro he
    obtain ⟨next,hstep,rfl⟩ := Option.map_eq_some_iff.mp he
    obtain ⟨next',hpass,rfl⟩ := Option.map_eq_some_iff.mp hstep
    obtain ⟨hcompleted,status,hphase,hfull⟩ := step_stopped (fun _ => hstop) hpass
    refine ⟨?_,hstop,SameBytes.update rfl rfl ?_⟩
    · rw [hplace]
      refine (afterWrite_rank hphase).trans_lt ?_
      by_cases hroom : io.completed < qcpuDeviceResponseWireSize
      · rw [if_neg (hfull hroom),Place.rank,if_pos hroom]
        decide
      · rw [Place.rank,if_neg hroom]
        split_ifs <;> decide
    · show (s.channel i).toClient ++ (frame.val.drop io.completed).take (next'.completed - io.completed) = _
      rw [hcompleted,Nat.sub_self,List.take_zero,List.append_nil]
  | case27 i fd result hplace =>
    intro he
    obtain rfl := Option.some.inj he
    have hunmoved := (close_spec s fd).1
    refine ⟨?_,hunmoved.stopRequested.trans hstop,fun i => ⟨hunmoved.toDaemon i,hunmoved.toClient i⟩⟩
    rw [hplace]
    show (if result = 0 then 12 else 4) < if result = 0 then 13 else 5
    split_ifs <;> simp
  | case28 result hplace =>
    intro he
    obtain rfl := Option.some.inj he
    refine ⟨?_,hstop,same rfl⟩
    rw [hplace,hstop]
    show Place.rank (if result ≠ 0 then _ else _) < if result = 0 then 12 else 4
    by_cases hresult : result = 0
    · rw [if_neg (not_not.mpr hresult),if_pos hresult]
      split_ifs <;> simp [Place.rank]
    · rw [if_pos hresult,if_neg hresult]
      split_ifs <;> simp_all [Place.rank]
  | case6 | case7 | case15 | case16 | case17 | case22 | case26 | case32 =>
    intro he
    cases he

def Event.isDaemon : Event → Bool
  | .daemon _ => true
  | _ => false

theorem stop_step (hstop : s.stopRequested = true) {e : Event} (he : s.step store e = some t) :
    t.stopRequested = true ∧ t.place.rank + (if e.isDaemon then 1 else 0) ≤ s.place.rank := by
  rcases step_cases he with ⟨d,rfl,hd⟩ | ⟨rfl,-,rfl⟩ | ⟨hother,-,hsame,-⟩
  · obtain ⟨hrank,hstopped,-⟩ := stop_daemon hstop hd
    exact ⟨hstopped,hrank⟩
  · obtain ⟨-,hplace,-,hstopped⟩ := signal_unmoved s
    exact ⟨hstopped,by rw [hplace]; exact le_rfl⟩
  · refine ⟨hsame.stopRequested.trans hstop,?_⟩
    rw [hsame.place]
    cases e with
    | daemon d => exact absurd rfl (hother d)
    | signal | client | peer | meddle => exact le_rfl

theorem stop_run {events : List Event} (hstop : s.stopRequested = true)
    (h : Transition.run (System.step store) s events = some t) :
    t.stopRequested = true ∧ t.place.rank + (events.filter Event.isDaemon).length ≤ s.place.rank := by
  induction events generalizing s with
  | nil =>
    obtain rfl := Option.some.inj h
    exact ⟨hstop,le_rfl⟩
  | cons e events ih =>
    obtain ⟨m,he,hrest⟩ := Transition.run_cons _ h
    obtain ⟨hstopped,hstep⟩ := stop_step hstop he
    obtain ⟨hlast,hrun⟩ := ih hstopped hrest
    refine ⟨hlast,?_⟩
    rw [List.filter_cons]
    split_ifs at hstep ⊢
    · rw [List.length_cons]
      omega
    · omega

/-- Nothing makes the call of `accept` return: the listener is open, nobody has connected and no
signal was caught in the call. -/
def System.waits (s : System) : Bool :=
  match s.place with
  | .accept => s.fds s.serverFd.toNat == some .listener && s.backlog.isEmpty && !s.acceptInterrupted
  | _ => false

/-- A stop was requested and there is no listener, nor will there be one again. -/
structure Closed (s : System) : Prop where
  stop : s.stopRequested = true
  passed : s.place.rank < 16
  gone : ∀ fd, s.fds fd ≠ some .listener

theorem close_gone (s : System) (fd : ℕ) (h : ∀ n, s.fds n ≠ some .listener) (n : ℕ) :
    (s.close fd).fds n ≠ some .listener := by
  rw [(close_spec s fd).2.1,ne_eq,freed_iff]
  exact fun hn => h n hn.1

theorem closed_daemon (h : Closed s) {d : DaemonEvent} (hd : s.daemon store d = some t) : Closed t := by
  obtain ⟨hrank,hstop,-⟩ := stop_daemon h.stop hd
  refine ⟨hstop,hrank.trans h.passed,?_⟩
  cases daemon_move hd with
  | socket fd hplace hfree =>
    have hpassed := h.passed
    rw [hplace] at hpassed
    exact absurd hpassed (lt_irrefl 16)
  | accept i fd rest hplace hlistener hbacklog hfree => exact absurd hlistener (h.gone _)
  | closeSetup | closeServer | closeClient => exact close_gone s _ h.gone
  | walk | publish | retract | startRead | read | answer | startWrite | write => exact h.gone

theorem closed_step (h : Closed s) {e : Event} (he : s.step store e = some t) : Closed t := by
  rcases step_cases he with ⟨d,-,hd⟩ | ⟨-,-,rfl⟩ | ⟨-,-,hsame,-⟩
  · exact closed_daemon h hd
  · obtain ⟨-,hplace,-,hstopped⟩ := signal_unmoved s
    refine ⟨hstopped,hplace ▸ h.passed,fun fd => ?_⟩
    unfold System.handleStopSignal
    split_ifs
    · exact close_gone s.requestStop _ h.gone fd
    · exact h.gone fd
  · exact ⟨hsame.stopRequested.trans h.stop,hsame.place ▸ h.passed,hsame.fds ▸ h.gone⟩

theorem Closed.not_waits (h : Closed s) : s.waits = false := by
  unfold System.waits
  cases s.place with
  | accept =>
    have hlistener : (s.fds s.serverFd.toNat == some .listener) = false := beq_eq_false_iff_ne.mpr (h.gone _)
    simp only [hlistener,Bool.false_and]
  | _ => rfl

theorem accept_listener {fd : ℕ} (h : s.daemon store (.accept fd) = some t) : ∃ n, s.fds n = some .listener := by
  cases hplace : s.place <;> simp only [System.daemon,hplace,reduceCtorEq] at h
  split at h
  · next hlistener hbacklog => exact ⟨_,hlistener⟩
  · cases h

/-- Nobody is taken in any more. -/
theorem closed_run {events : List Event} (h : Closed s) (hrun : Transition.run (System.step store) s events = some t) :
    Closed t ∧ ∀ fd, Event.daemon (.accept fd) ∉ events := by
  induction events generalizing s with
  | nil =>
    obtain rfl := Option.some.inj hrun
    exact ⟨h,fun _ => List.not_mem_nil⟩
  | cons e events ih =>
    obtain ⟨m,he,hrest⟩ := Transition.run_cons _ hrun
    obtain ⟨hlast,hnone⟩ := ih (closed_step h he) hrest
    refine ⟨hlast,fun fd hmem => ?_⟩
    rcases List.mem_cons.mp hmem with rfl | hmem
    · obtain ⟨n,hlistener⟩ := accept_listener he
      exact h.gone n hlistener
    · exact hnone fd hmem

/-- A call in the loop of the daemon has not returned yet. -/
def Place.Running : Place → Prop
  | .reading _ _ io => ∀ status, io.phase ≠ .returned status
  | .writing _ _ _ io => ∀ status, io.phase ≠ .returned status
  | _ => True

theorem running_of_idle {p : Place} (h : p.connection = none) : p.Running := by
  cases p <;> trivial

theorem running_move (h : Move store s t) : t.place.Running := by
  have read : ∀ i fd io, (afterRead i fd io).Running := by
    intro i fd io
    unfold afterRead
    split
    · trivial
    · trivial
    · next hrunning => exact fun status => hrunning status
  have write : ∀ i fd frame io, (afterWrite i fd frame io).Running := by
    intro i fd frame io
    unfold afterWrite
    split
    · trivial
    · trivial
    · next hrunning => exact fun status => hrunning status
  cases h with
  | walk place node hidle hnear => exact running_of_idle (hnear.connection.trans hidle)
  | closeSetup bound => cases bound <;> trivial
  | startRead => exact read _ _ _
  | read => exact read _ _ _
  | startWrite => exact write _ _ _ _
  | write => exact write _ _ _ _
  | socket | publish | accept | answer | closeClient | retract | closeServer => trivial

theorem running_step (h : s.place.Running) {e : Event} (he : s.step store e = some t) : t.place.Running := by
  rcases step_cases he with ⟨d,-,hd⟩ | ⟨-,-,rfl⟩ | ⟨-,-,hsame,-⟩
  · exact running_move (daemon_move hd)
  · rw [(signal_unmoved s).2.1]
    exact h
  · rw [hsame.place]
    exact h

/-- A system call of a daemon that does not wait, with what it may answer. -/
def Place.onward : Place → DaemonEvent
  | .handlers => .handlers true
  | .lstat => .lstat true
  | .unlinkOld => .unlinkOld true
  | .socket => .socket none
  | .bind => .bind true
  | .chmod => .chmod true
  | .listen => .listen true
  | .publish => .publish
  | .closeSetup _ => .closeSetup
  | .unlinkSetup => .unlinkSetup true
  | .accept => .acceptFailed false
  | .notAccepted _ => .stopChecked
  | .accepted .. => .readStarted {} (blank _)
  | .reading .. => .read { answer := .interrupted }
  | .answering .. => .answer ⟨⟨0, 0, 0, 0, 0, 0⟩, blank _⟩ ⟨false, false⟩
  | .answered .. => .writeStarted {}
  | .writing .. => .write { answer := .interrupted }
  | .served .. => .closeClient
  | .closed _ => .resultChecked
  | .retract _ => .retract
  | .closeServer _ => .closeServer false
  | .unlink _ | .exited _ => .unlink false

/-- A daemon that has not exited can go on. -/
theorem daemon_enabled (store : D → Binary64) (h : s.place.Running) (hexited : ∀ code, s.place ≠ .exited code) :
    ∃ u, s.daemon store s.place.onward = some u := by
  have running : ∀ {σ : Type} (env : Schedule) {size : ℕ}
      (store : σ → ℕ → (completed count : ℕ) → completed + count ≤ size → σ) {io : Io σ}, (∀ status, io.phase ≠ .returned status) → ∃ next, step env size store io = some next := by
    intro σ env size store io hio
    cases hstep : step env size store io with
    | none =>
      obtain ⟨status,hstatus⟩ := step_none hstep
      exact absurd hstatus (hio status)
    | some next => exact ⟨next,rfl⟩
  unfold System.daemon
  cases hplace : s.place
  case exited code => exact absurd hplace (hexited code)
  case reading i fd io =>
    rw [hplace] at h
    obtain ⟨next,hstep⟩ := running (Now.schedule { answer := .interrupted } s.stopRequested)
      (Input.store fun _ j => (s.channel i).toDaemon.getD j 0) h
    rw [← Option.isSome_iff_exists]
    simp only [Place.onward]
    rw [if_pos (show readable _ _ .interrupted from trivial),readStep,hstep]
    rfl
  case writing i fd frame io =>
    rw [hplace] at h
    obtain ⟨next,hstep⟩ := running (Now.schedule { answer := .interrupted } s.stopRequested) (sendStore frame) h
    rw [← Option.isSome_iff_exists]
    simp only [Place.onward]
    rw [if_pos (show writable _ .interrupted from trivial),writeStep,hstep]
    rfl
  all_goals exact ⟨_,rfl⟩

/-- A signal that comes before the handler knows the listener is remembered, but the daemon
waits for a client all the same. -/
example : (Transition.run (System.step fun _ : ℝ => ⟨0⟩) (System.initial [str "--socket", str "qcpu0"]
      (fun fd => fd < 3) none) (.daemon (.handlers false) :: .signal :: setupRun.tail)).map
      (fun s => (s.stopRequested, s.waits)) = some (true, true) := rfl

end Stop

section Available

/-- No signal comes, and `accept` fails only if it is interrupted. -/
def Event.harmless : Event → Bool
  | .signal | .daemon (.acceptFailed false) => false
  | _ => true

/-- The daemon is in its loop, and no signal came. -/
structure Available (s : System) : Prop where
  serving : s.place.serving = true
  once : s.once = false
  stop : s.stopRequested = false

theorem serving_published {p : Place} (h : p.serving = true) : p.published = true := by
  cases p <;> first | rfl | exact h

theorem available_daemon (h : Available s) {d : DaemonEvent} (hd : (Event.daemon d).harmless = true)
    (he : s.daemon store d = some t) : Available t := by
  have hserving := h.serving
  have hidle := serving_published hserving
  revert he
  fun_cases System.daemon store s d with
  | case14 fd hplace =>
    intro he
    obtain rfl := Option.some.inj he
    exact ⟨rfl,h.once,h.stop⟩
  | case18 interrupted hplace =>
    intro he
    obtain rfl := Option.some.inj he
    refine ⟨?_,h.once,h.stop⟩
    cases interrupted with
    | true => rfl
    | false => cases hd
  | case19 interrupted hplace =>
    intro he
    obtain rfl := Option.some.inj he
    refine ⟨?_,h.once,h.stop⟩
    rw [hplace] at hserving
    rw [h.stop,show interrupted = true from hserving]
    rfl
  | case20 i fd now buffer hplace =>
    intro he
    obtain rfl := Option.some.inj he
    exact ⟨afterRead_serving i fd _,h.once,h.stop⟩
  | case21 i fd io now hplace =>
    intro he
    obtain ⟨next,-,rfl⟩ := Option.map_eq_some_iff.mp he
    exact ⟨afterRead_serving i fd _,h.once,h.stop⟩
  | case23 i fd wire connection allocations hplace =>
    intro he
    obtain rfl := Option.some.inj he
    exact ⟨rfl,h.once,h.stop⟩
  | case24 i fd frame now hplace =>
    intro he
    obtain rfl := Option.some.inj he
    exact ⟨afterWrite_serving i fd frame _,h.once,h.stop⟩
  | case25 i fd frame io now hplace =>
    intro he
    obtain ⟨next,-,rfl⟩ := Option.map_eq_some_iff.mp he
    exact ⟨afterWrite_serving i fd frame _,h.once,h.stop⟩
  | case27 i fd result hplace =>
    intro he
    obtain rfl := Option.some.inj he
    have hunmoved := (close_spec s fd).1
    exact ⟨rfl,hunmoved.once.trans h.once,hunmoved.stopRequested.trans h.stop⟩
  | case28 result hplace =>
    intro he
    obtain rfl := Option.some.inj he
    refine ⟨?_,h.once,h.stop⟩
    rw [h.once,h.stop]
    show Place.serving (if result ≠ 0 then _ else _) = true
    split_ifs <;> first | rfl | contradiction
  | case6 | case7 | case15 | case16 | case17 | case22 | case26 | case32 =>
    intro he
    cases he
  | case29 failed hplace =>
    rw [hplace] at hserving
    cases hserving
  | case1 fails hplace | case2 fails hplace | case3 fails hplace | case4 hplace | case5 fd hplace | case8 fails hplace
  | case9 fails hplace | case10 fails hplace | case11 hplace | case12 bound hplace | case13 fails hplace
  | case30 failed fails hplace | case31 failed fails hplace =>
    rw [hplace] at hidle
    cases hidle

theorem available_step (h : Available s) {e : Event} (hharmless : e.harmless = true) (he : s.step store e = some t) :
    Available t := by
  rcases step_cases he with ⟨d,rfl,hd⟩ | ⟨rfl,-,-⟩ | ⟨-,-,hsame,-⟩
  · exact available_daemon h hharmless hd
  · cases hharmless
  · exact ⟨hsame.place ▸ h.serving,hsame.once.trans h.once,hsame.stopRequested.trans h.stop⟩

/-- A daemon that serves any number of clients stays in its loop with its listener open, whatever
clients and peers send, leave out or break off, as long as no signal comes and `accept` does
not fail. -/
theorem daemon_available {args : List Bytes} {others : ℕ → Bool} {node : Option Node} {before after : List Event}
    (hbefore : Transition.run (System.step store) (System.initial args others node) before = some s)
    (hafter : Transition.run (System.step store) s after = some t) (hserving : s.place.serving = true)
    (honce : s.once = false) (hstop : s.stopRequested = false) (hharmless : ∀ e ∈ after, e.harmless = true) :
    t.place.serving = true ∧ t.listening = true := by
  have hlast : Available t := Transition.run_invariant_of_events (fun _ _ _ hs hP he => available_step hs hP he)
    ⟨hserving,honce,hstop⟩ hharmless hafter
  have htidy : Tidy others t := Transition.run_invariant (fun _ _ _ hs he => tidy_step hs he)
    (Transition.run_invariant (fun _ _ _ hs he => tidy_step hs he) (tidy_initial args others node) hbefore) hafter
  have hpublished := serving_published hlast.serving
  refine ⟨hlast.serving,?_⟩
  rcases (htidy.held (holdsServer_of_published hpublished)).2 with hlistener | ⟨-,hstopped⟩
  · rw [System.listening,hlistener]
    cases hp : t.place <;> first | rfl | (rw [hp] at hpublished; cases hpublished)
  · rw [hlast.stop] at hstopped
    cases hstopped

/-- A peer connects and leaves without a request. -/
def rudeRun : List Event :=
  [.peer 0 .connect, .daemon (.accept 4), .peer 0 .close, .daemon (.readStarted {} (blank _)),
    .daemon (.read { answer := .ended }), .daemon .closeClient, .daemon .resultChecked]

theorem daemon_available_rude : ∃ s t : System, Transition.run (System.step fun _ : ℝ => ⟨0⟩)
      (System.initial [str "--socket", str "qcpu0"] (fun fd => fd < 3) none) setupRun = some s ∧
    Transition.run (System.step fun _ : ℝ => ⟨0⟩) s rudeRun = some t ∧ t.listening = true := by
  have hstate : (Transition.run (System.step fun _ : ℝ => ⟨0⟩) (System.initial [str "--socket", str "qcpu0"]
      (fun fd => fd < 3) none) setupRun).map (fun s => (s.place.serving, s.once, s.stopRequested,
        (Transition.run (System.step fun _ : ℝ => ⟨0⟩) s rudeRun).isSome)) = some (true, false, false, true) := rfl
  obtain ⟨s,hrun,hs⟩ := Option.map_eq_some_iff.mp hstate
  simp only [Prod.mk.injEq] at hs
  obtain ⟨hserving,honce,hstop,hsome⟩ := hs
  obtain ⟨t,ht⟩ := Option.isSome_iff_exists.mp hsome
  exact ⟨s,t,hrun,ht,(daemon_available hrun ht hserving honce hstop (by decide)).2⟩

end Available

end QbitNova.Service
