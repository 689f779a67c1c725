import QbitNova.Device.AdapterRuns
import Mathlib.Data.List.Nodup

/-! # Descriptors of adapter exchanges

A number stays with the exchange that connected it from the `socket` call to its own
`close`. Since `finish` withdraws the number from the adapter before the descriptor is
closed, whatever a cancel finds there is still open and still belongs to the exchange
that is inside.
-/
namespace QbitNova.AdapterSystem
open Adapter LittleEndian Frontend DeviceWire Rounding

/-- The descriptor table says of each exchange what its phase says. -/
def Owned (fds : ℕ → Option Owner) (phase : ℕ → Phase) : Prop :=
  ∀ fd call, fds fd = some (.exchange call) ↔ (phase call).holds = some fd

/-- What was connected is still held or was closed; what was closed belongs to an exchange
that returned. -/
structure Ledger (phase : ℕ → Phase) (connects closes : List (ℕ × ℕ)) : Prop where
  connects : ∀ call fd, (call, fd) ∈ connects ↔ (phase call).connected = some fd ∨ (call, fd) ∈ closes
  closed : ∀ call fd, (call, fd) ∈ closes → ∃ result response, phase call = .returned result response
  once : closes.Nodup

section
variable {fds : ℕ → Option Owner} {phase : ℕ → Phase} {connects closes : List (ℕ × ℕ)} {call fd : ℕ} {p : Phase}

theorem Owned.update (h : Owned fds phase) (hp : p.holds = (phase call).holds) :
    Owned fds (Function.update phase call p) := by
  intro f c
  rw [h f c]
  by_cases hc : c = call
  · subst hc
    rw [Function.update_self,hp]
  · rw [Function.update_of_ne hc]

/-- A free number is taken by an exchange. -/
theorem Owned.take (h : Owned fds phase) (hfree : fds fd = none) (hbefore : (phase call).holds = none)
    (hafter : p.holds = some fd) :
    Owned (Function.update fds fd (some (.exchange call))) (Function.update phase call p) := by
  intro f c
  by_cases hf : f = fd <;> by_cases hc : c = call
  · subst hf hc
    simp [hafter]
  · subst hf
    rw [Function.update_self,Function.update_of_ne hc,← h f c,hfree]
    simp [Ne.symm hc]
  · subst hc
    rw [Function.update_of_ne hf,Function.update_self,h f c,hbefore,hafter]
    simp [Ne.symm hf]
  · rw [Function.update_of_ne hf,Function.update_of_ne hc]
    exact h f c

/-- The number an exchange held becomes free. -/
theorem Owned.drop (h : Owned fds phase) (hbefore : (phase call).holds = some fd) (hafter : p.holds = none) :
    Owned (Function.update fds fd none) (Function.update phase call p) := by
  have hheld : fds fd = some (.exchange call) := (h fd call).mpr hbefore
  intro f c
  by_cases hf : f = fd <;> by_cases hc : c = call
  · subst hf hc
    simp [hafter]
  · subst hf
    rw [Function.update_self,Function.update_of_ne hc,← h f c,hheld]
    simp [Ne.symm hc]
  · subst hc
    rw [Function.update_of_ne hf,Function.update_self,h f c,hbefore,hafter]
    simp [Ne.symm hf]
  · rw [Function.update_of_ne hf,Function.update_of_ne hc]
    exact h f c

/-- Unrelated threads use numbers no exchange holds. -/
theorem Owned.other (h : Owned fds phase) {entry : Option Owner} (hbefore : ∀ c, fds fd ≠ some (.exchange c))
    (hafter : ∀ c, entry ≠ some (.exchange c)) : Owned (Function.update fds fd entry) phase := by
  intro f c
  by_cases hf : f = fd
  · subst hf
    rw [Function.update_self,← h f c]
    exact ⟨fun he => absurd he (hafter c),fun he => absurd he (hbefore c)⟩
  · rw [Function.update_of_ne hf]
    exact h f c

theorem Ledger.not_closed (h : Ledger phase connects closes)
    (hphase : ∀ result response, phase call ≠ .returned result response) (fd : ℕ) : (call, fd) ∉ closes := by
  intro hmem
  obtain ⟨result,response,hreturned⟩ := h.closed call fd hmem
  exact hphase result response hreturned

theorem Ledger.closed_update (h : Ledger phase connects closes)
    (hphase : ∀ result response, phase call ≠ .returned result response) (c f : ℕ) (hmem : (c, f) ∈ closes) :
    ∃ result response, Function.update phase call p c = .returned result response := by
  have hc : c ≠ call := by
    rintro rfl
    exact h.not_closed hphase f hmem
  rw [Function.update_of_ne hc]
  exact h.closed c f hmem

theorem Ledger.update (h : Ledger phase connects closes) (hp : p.connected = (phase call).connected)
    (hphase : ∀ result response, phase call ≠ .returned result response) :
    Ledger (Function.update phase call p) connects closes := by
  refine ⟨fun c f => ?_,h.closed_update hphase,h.once⟩
  rw [h.connects c f]
  by_cases hc : c = call
  · subst hc
    rw [Function.update_self,hp]
  · rw [Function.update_of_ne hc]

theorem Ledger.connect (h : Ledger phase connects closes) (hbefore : (phase call).connected = none)
    (hafter : p.connected = some fd) (hphase : ∀ result response, phase call ≠ .returned result response) :
    Ledger (Function.update phase call p) ((call, fd) :: connects) closes := by
  refine ⟨fun c f => ?_,h.closed_update hphase,h.once⟩
  rw [List.mem_cons,h.connects c f]
  by_cases hc : c = call
  · subst hc
    rw [Function.update_self,hbefore,hafter]
    simp [eq_comm]
  · rw [Function.update_of_ne hc]
    simp [hc]

theorem Ledger.close (h : Ledger phase connects closes) {result : ℤ} {response : Response}
    (hphase : phase call = .close fd result response) :
    Ledger (Function.update phase call (.returned result response)) connects ((call, fd) :: closes) := by
  have hopen : ∀ result response, phase call ≠ .returned result response := by simp [hphase]
  refine ⟨fun c f => ?_,fun c f hmem => ?_,List.nodup_cons.mpr ⟨h.not_closed hopen fd,h.once⟩⟩
  · rw [List.mem_cons,h.connects c f]
    by_cases hc : c = call
    · subst hc
      rw [Function.update_self,hphase]
      simp [Phase.connected,Phase.registered,eq_comm]
    · rw [Function.update_of_ne hc]
      simp [hc]
  · rcases List.mem_cons.mp hmem with heq | hmem
    · cases heq
      exact ⟨result,response,Function.update_self ..⟩
    · exact h.closed_update hopen c f hmem

end

/-- The table and the record of descriptors agree with the phases. -/
structure Descriptors (s : System) : Prop where
  owned : Owned s.fds s.phase
  ledger : Ledger s.phase s.connects s.closes

section
variable {s t : System}

theorem not_returned {phase : Phase} (h : phase.inside = true) (result : ℤ) (response : Response) :
    phase ≠ .returned result response := by
  rintro rfl
  cases h

theorem leavePhase_holds (fd : Option ℕ) (result : ℤ) (response : Response) :
    (leavePhase fd result response).holds = fd ∧ (leavePhase fd result response).connected = fd := by
  cases fd <;> exact ⟨rfl,rfl⟩

theorem move_descriptors (h : Descriptors s) (hmove : Move s t) : Descriptors t := by
  cases hmove with
  | enter request hphase =>
    exact ⟨h.owned.update (by rw [hphase]; rfl),h.ledger.update (by rw [hphase]; rfl) (by simp [hphase])⟩
  | reject hphase =>
    exact ⟨h.owned.update (by rw [hphase]; rfl),h.ledger.update (by rw [hphase]; rfl) (by simp [hphase])⟩
  | begin hphase hfree =>
    exact ⟨h.owned.update (by rw [hphase]; rfl),h.ledger.update (by rw [hphase]; rfl) (by simp [hphase])⟩
  | refuse hphase =>
    exact ⟨h.owned.update (by rw [hphase]; rfl),h.ledger.update (by rw [hphase]; rfl) (by simp [hphase])⟩
  | quiet hlike hresult =>
    exact ⟨h.owned.update hlike.holds,h.ledger.update hlike.connected (not_returned hlike.inside.1)⟩
  | socket hphase hfd =>
    exact ⟨h.owned.take hfd (by rw [hphase]; rfl) rfl,h.ledger.update (by rw [hphase]; rfl) (by simp [hphase])⟩
  | abort hphase hresult =>
    exact ⟨h.owned.drop (by rw [hphase]; rfl) rfl,h.ledger.update (by rw [hphase]; rfl) (by simp [hphase])⟩
  | connected hphase =>
    exact ⟨h.owned.update (by rw [hphase]; rfl),h.ledger.connect (by rw [hphase]; rfl) rfl (by simp [hphase])⟩
  | registered hphase =>
    refine ⟨h.owned.update ?_,h.ledger.update ?_ (by simp [hphase])⟩
    · rw [hphase]
      split_ifs <;> rfl
    · rw [hphase]
      split_ifs <;> rfl
  | asked hlike hresult =>
    exact ⟨h.owned.update hlike.holds,h.ledger.update hlike.connected (not_returned hlike.inside.1)⟩
  | finish hphase =>
    refine ⟨h.owned.update ?_,h.ledger.update ?_ (by simp [hphase])⟩
    · rw [hphase]
      exact (leavePhase_holds _ _ _).1
    · rw [hphase]
      exact (leavePhase_holds _ _ _).2
  | close hphase => exact ⟨h.owned.drop (by rw [hphase]; rfl) rfl,h.ledger.close hphase⟩
  | cancel => exact ⟨h.owned,h.ledger⟩
  | openOther hfd => exact ⟨h.owned.other (by simp [hfd]) (by simp),h.ledger⟩
  | closeOther hfd => exact ⟨h.owned.other (by simp [hfd]) (by simp),h.ledger⟩

theorem initial_descriptors (others : ℕ → Bool) : Descriptors (System.initial others) := by
  refine ⟨fun fd call => ?_,fun call fd => ?_,fun call fd hmem => ?_,List.nodup_nil⟩
  · simp only [System.initial,Phase.holds,Phase.connected,Phase.registered]
    split_ifs <;> simp
  · simp [System.initial,Phase.connected,Phase.registered]
  · cases hmem

end

section
variable {bits : ℕ} {longDouble : Faithful bits} {s : System}

theorem reachable_descriptors (h : Reachable longDouble s) : Shared s (holder s.sections) ∧ Descriptors s := by
  obtain ⟨others,events,hrun⟩ := h
  refine Transition.run_invariant (I := fun s => Shared s (holder s.sections) ∧ Descriptors s)
    (fun s e t hs hstep => ?_) ⟨.free rfl fun _ => rfl,initial_descriptors others⟩ hrun
  exact ⟨move_shared hs.1 (step_move hstep),move_descriptors hs.2 (step_move hstep)⟩

theorem connected_of_registered {phase : Phase} {fd : ℕ} (h : phase.registered = some fd) :
    phase.connected = some fd := by
  cases phase with
  | register | close => cases h
  | _ => exact h

theorem holds_of_connected {phase : Phase} {fd : ℕ} (h : phase.connected = some fd) : phase.holds = some fd := by
  cases phase with
  | connecting => cases h
  | _ => exact h

theorem connected_not_returned {phase : Phase} {fd : ℕ} (h : phase.connected = some fd) (result : ℤ)
    (response : Response) : phase ≠ .returned result response := by
  rintro rfl
  cases h

theorem activeFd_nonneg {phase : Phase} (h : phase.activeFd ≥ 0) : phase.registered = some phase.activeFd.toNat := by
  unfold Phase.activeFd at h ⊢
  cases hregistered : phase.registered with
  | none =>
    rw [hregistered] at h
    cases h
  | some fd => rfl

/-- What is shut down is the connection of the exchange that is inside. -/
theorem shutdown_connected (hshared : Shared s (holder s.sections)) {e : Event} {fd : ℕ}
    (h : shutdownOf s e = some fd) :
    ∃ call, (s.phase call).inside = true ∧ (∀ other, (s.phase other).inside = true → other = call) ∧
      (s.phase call).connected = some fd := by
  cases e with
  | cancel =>
    generalize holder s.sections = entry at hshared
    cases hshared with
    | free hadapter _ =>
      rw [shutdownOf,hadapter] at h
      cases h
    | @held call canceled hadapter hinside halone =>
      rw [shutdownOf,hadapter] at h
      simp only [QcpuQcpudAdapter.cancel,↓reduceIte,Option.ite_none_right_eq_some] at h
      obtain ⟨hfd,heq⟩ := h
      refine ⟨call,hinside,halone,connected_of_registered ?_⟩
      rw [activeFd_nonneg hfd]
      exact heq
  | registerFd call =>
    simp only [shutdownOf] at h
    split at h
    · rename_i wire fd' hphase
      have hinside : (s.phase call).inside = true := by rw [hphase]; rfl
      obtain ⟨canceled,-,-,halone⟩ := hshared.inside hinside
      simp only [QcpuQcpudAdapter.registerFd,Option.ite_none_right_eq_some] at h
      refine ⟨call,hinside,halone,?_⟩
      rw [hphase]
      exact h.2
    · cases h
  | _ => cases h

/-- Whatever a cancel or a registration shuts down is open, was connected by the exchange
that is inside, the only one, and has not been closed; each connected descriptor is closed once,
by its own exchange, which holds it until then. -/
theorem shutdown_sound (hreach : Reachable longDouble s) :
    (∀ e t fd, step longDouble s e = some t → shutdownOf s e = some fd → ∃ call, (s.phase call).inside = true ∧
      (∀ other, (s.phase other).inside = true → other = call) ∧ s.fds fd = some (.exchange call) ∧
      (call, fd) ∈ s.connects ∧ (call, fd) ∉ s.closes) ∧
    (∀ call fd result response, s.phase call = .close fd result response → s.fds fd = some (.exchange call)) ∧
    (∀ call fd, (call, fd) ∈ s.closes → (call, fd) ∈ s.connects) ∧
    ∀ call fd, (call, fd) ∈ s.connects →
      ((∀ result response, s.phase call ≠ .returned result response) ∧ s.fds fd = some (.exchange call) ∧
        s.closes.count (call, fd) = 0) ∨
      ((∃ result response, s.phase call = .returned result response) ∧ s.closes.count (call, fd) = 1) := by
  obtain ⟨hshared,howned,hledger⟩ := reachable_descriptors hreach
  refine ⟨fun e t fd hstep hshutdown => ?_,fun call fd result response hphase => ?_,fun call fd hmem => ?_,
    fun call fd hmem => ?_⟩
  · obtain ⟨call,hinside,halone,hconnected⟩ := shutdown_connected hshared hshutdown
    refine ⟨call,hinside,halone,(howned fd call).mpr (holds_of_connected hconnected),?_,?_⟩
    · exact (hledger.connects call fd).mpr (Or.inl hconnected)
    · exact hledger.not_closed (not_returned hinside) fd
  · exact (howned fd call).mpr (by rw [hphase]; rfl)
  · exact (hledger.connects call fd).mpr (Or.inr hmem)
  · rcases (hledger.connects call fd).mp hmem with hconnected | hclosed
    · have hopen := connected_not_returned hconnected
      refine Or.inl ⟨hopen,(howned fd call).mpr (holds_of_connected hconnected),?_⟩
      exact List.count_eq_zero_of_not_mem (hledger.not_closed hopen fd)
    · exact Or.inr ⟨hledger.closed call fd hclosed,List.count_eq_one_of_mem hledger.once hclosed⟩

end

/-- A cancel between the registration and the write shuts down the descriptor that was just
connected. -/
theorem shutdown_sound_registered : ∃ s : System, Reachable (unrounded 64) s ∧ shutdownOf s .cancel = some 5 ∧
    s.fds 5 = some (.exchange 0) := by
  have hreach : Reachable (unrounded 64) _ := ⟨fun fd => fd < 5,
    [.call 0 (some ⟨0, 1, 1, 0, 0, 0⟩), .begin 0, .prepare 0 zeroWire 9, .socket 0 5, .connected 0, .registerFd 0],rfl⟩
  obtain ⟨call,hinside,halone,hopen,-⟩ := (shutdown_sound hreach).1 .cancel _ 5 rfl rfl
  obtain rfl := halone 0 rfl
  exact ⟨_,hreach,rfl,hopen⟩

end QbitNova.AdapterSystem
