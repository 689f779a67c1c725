import QbitNova.Device.AdapterRuns

/-! # Cancellation of adapter exchanges

The flag that a cancel sets is reset by `begin` and `finish` only. Every way out of an
exchange goes through `finish`, so the flag it finds there says whether a cancel ran
since its `begin`, whatever result the exchange had computed before.
-/
namespace QbitNova.AdapterSystem
open Adapter LittleEndian Frontend DeviceWire Rounding

/-- The result an exchange has after its `finish`. -/
def Phase.answer? : Phase → Option ℤ
  | .close _ result _ => some result
  | .returned result _ => some result
  | _ => none

/-- The sections show one `begin` and one `finish` of the exchange; it was canceled exactly
if a cancel ran between the two. -/
def Completed (call : ℕ) (result : ℤ) (sections : List Section) : Prop :=
  sections.count (.began call) = 1 ∧ sections.count (.finished call) = 1 ∧
    ∃ after between before, sections = after ++ .finished call :: (between ++ .began call :: before) ∧
      (result = -ecanceled ↔ .canceled ∈ between)

/-- What the sections say of an exchange in a phase. -/
def History (call : ℕ) (sections : List Section) (phase : Phase) : Prop :=
  (phase.inside = false ∧ .began call ∉ sections ∧ .finished call ∉ sections) ∨
  (phase.inside = true ∧ sections.count (.began call) = 1 ∧ .finished call ∉ sections) ∨
  ∃ result, phase.answer? = some result ∧ Completed call result sections

section
variable {s t : System} {call : ℕ} {phase : Phase} {sections : List Section}

theorem holder_spec {canceled : Bool} (h : holder sections = some (call, canceled)) :
    ∃ between before, sections = between ++ .began call :: before ∧ (canceled = true ↔ .canceled ∈ between) := by
  induction sections generalizing canceled with
  | nil => cases h
  | cons entry rest ih =>
    have hskip : ∀ {flag : Bool}, holder rest = some (call, flag) → entry ≠ .canceled → flag = canceled →
        ∃ between before, entry :: rest = between ++ .began call :: before ∧
          (canceled = true ↔ .canceled ∈ between) := by
      rintro flag hrest hne rfl
      obtain ⟨between,before,rfl,hiff⟩ := ih hrest
      exact ⟨entry :: between,before,rfl,hiff.trans (by simp [hne.symm])⟩
    cases entry with
    | began other =>
      cases h
      exact ⟨[],rest,rfl,by simp⟩
    | finished other => cases h
    | canceled =>
      obtain ⟨found,hrest,hfound⟩ := Option.map_eq_some_iff.mp h
      cases hfound
      obtain ⟨between,before,rfl,-⟩ := @ih found.2 (by rw [hrest])
      exact ⟨.canceled :: between,before,rfl,by simp⟩
    | refused other => exact hskip h (by simp) rfl
    | registered other => exact hskip h (by simp) rfl
    | asked other => exact hskip h (by simp) rfl

theorem History.congr {p p' : Phase} (h : History call sections p) (hinside : p'.inside = p.inside)
    (hanswer : p.answer? = none ∨ p'.answer? = p.answer?) : History call sections p' := by
  rcases h with h | h | ⟨result,hresult,h⟩
  · exact Or.inl ⟨hinside.trans h.1,h.2⟩
  · exact Or.inr (Or.inl ⟨hinside.trans h.1,h.2⟩)
  · rcases hanswer with hnone | hsame
    · rw [hnone] at hresult
      cases hresult
    · exact Or.inr (Or.inr ⟨result,hsame.trans hresult,h⟩)

/-- A section of another exchange, or one in the middle, changes nothing. -/
theorem History.cons {entry : Section} (h : History call sections phase) (hbegan : entry ≠ .began call)
    (hfinished : entry ≠ .finished call) : History call (entry :: sections) phase := by
  rcases h with ⟨h,hb,hf⟩ | ⟨h,hb,hf⟩ | ⟨result,hresult,hb,hf,after,between,before,rfl,hiff⟩
  · exact Or.inl ⟨h,by simp [hb,hbegan.symm],by simp [hf,hfinished.symm]⟩
  · exact Or.inr (Or.inl ⟨h,by rw [List.count_cons_of_ne hbegan]; exact hb,by simp [hf,hfinished.symm]⟩)
  · refine Or.inr (Or.inr ⟨result,hresult,?_,?_,entry :: after,between,before,rfl,hiff⟩)
    · rw [List.count_cons_of_ne hbegan]
      exact hb
    · rw [List.count_cons_of_ne hfinished]
      exact hf

theorem result_inside (h : phase.result? = some (-ecanceled)) : phase.inside = true := by
  cases phase with
  | finish => rfl
  | _ => cases h

theorem cancel_keeps {a : QcpuQcpudAdapter} (h : a.cancelRequested = true) : a.cancel.2.cancelRequested = true := by
  unfold QcpuQcpudAdapter.cancel
  by_cases hactive : a.active = true
  · rw [if_pos hactive]
  · rw [if_neg hactive]
    exact h

/-- A result of -ECANCELED is carried into `finish` only while the request is pending. -/
def ResultsFlagged (s : System) : Prop :=
  ∀ call, (s.phase call).result? = some (-ecanceled) → s.adapter.cancelRequested = true

theorem move_results (hshared : Shared s (holder s.sections)) (h : ResultsFlagged s) (hmove : Move s t) :
    ResultsFlagged t := by
  have hshared' := move_shared hshared hmove
  have hkeep : ∀ {call phase}, t.phase = (s.goto call phase).phase →
      t.adapter.cancelRequested = s.adapter.cancelRequested →
      (phase.result? = some (-ecanceled) → s.adapter.cancelRequested = true) → ResultsFlagged t := by
    intro call phase hphase hflag hown c
    rw [hflag]
    rcases phase_cases hphase c with ⟨-,hc⟩ | ⟨-,hc⟩
    · rw [hc]
      exact hown
    · rw [hc]
      exact h c
  cases hmove with
  | enter request hphase => exact hkeep rfl rfl (fun h => by cases h)
  | reject hphase => exact hkeep rfl rfl (fun h => by cases h)
  | @begin call request hphase hfree =>
    intro c hc
    obtain ⟨canceled,hentry,-⟩ := hshared'.inside (result_inside hc)
    cases hentry
    have hprepare : ((s.goto call (.prepare request)).phase call).result? = some (-ecanceled) := hc
    rw [goto_self] at hprepare
    cases hprepare
  | refuse hphase => exact hkeep rfl rfl (fun h => by cases h)
  | quiet hlike hresult => exact hkeep rfl rfl (fun h => absurd h hresult)
  | socket hphase hfd => exact hkeep rfl rfl (fun h => by cases h)
  | abort hphase hresult => exact hkeep rfl rfl (fun h => absurd (Option.some.inj h) hresult)
  | connected hphase => exact hkeep rfl rfl (fun h => by cases h)
  | registered hphase =>
    refine hkeep rfl rfl ?_
    split_ifs with hflag
    · exact fun _ => hflag
    · exact fun h => by cases h
  | asked hlike hresult => exact hkeep rfl rfl (fun h => hresult (Option.some.inj h))
  | finish hphase =>
    intro c hc
    obtain ⟨canceled,hentry,-⟩ := hshared'.inside (result_inside hc)
    cases hentry
  | close hphase => exact hkeep rfl rfl (fun h => by cases h)
  | cancel =>
    exact fun c hc => cancel_keeps (h c hc)
  | openOther hfd => exact h
  | closeOther hfd => exact h

theorem answer_of_inside (h : phase.inside = true) : phase.answer? = none := by
  cases phase with
  | close => cases h
  | returned => cases h
  | _ => rfl

theorem leavePhase_answer (fd : Option ℕ) (result : ℤ) (response : Response) :
    (leavePhase fd result response).answer? = some result := by
  cases fd <;> rfl

/-- At its `finish` an exchange gets the answer its history asks for. -/
theorem completed_of_finish {fd : Option ℕ} {result : ℤ} {response : Response}
    (hshared : Shared s (holder s.sections)) (hresults : ResultsFlagged s)
    (h : History call s.sections (s.phase call)) (hphase : s.phase call = .finish fd result response) :
    Completed call (if s.adapter.cancelRequested then -ecanceled else result) (.finished call :: s.sections) := by
  have hinside : (s.phase call).inside = true := by rw [hphase]; rfl
  obtain ⟨canceled,hentry,hadapter,-⟩ := hshared.inside hinside
  obtain ⟨between,before,hsections,hiff⟩ := holder_spec hentry
  have hflag : s.adapter.cancelRequested = canceled := by rw [hadapter]
  rcases h with ⟨hout,-⟩ | ⟨-,hbegan,hfinished⟩ | ⟨answer,hanswer,-⟩
  · rw [hinside] at hout
    cases hout
  · refine ⟨?_,?_,[],between,before,by rw [hsections]; rfl,?_⟩
    · rw [List.count_cons_of_ne (by simp)]
      exact hbegan
    · rw [List.count_cons_self,List.count_eq_zero_of_not_mem hfinished]
    · rw [hflag,← hiff]
      split_ifs with hcanceled
      · simp [hcanceled]
      · refine ⟨fun hresult => ?_,fun h => absurd h hcanceled⟩
        rw [← hflag]
        exact hresults call (by rw [hphase,Phase.result?,hresult])
  · rw [answer_of_inside hinside] at hanswer
    cases hanswer

theorem move_history (hshared : Shared s (holder s.sections)) (hresults : ResultsFlagged s)
    (h : ∀ call, History call s.sections (s.phase call)) (hmove : Move s t) (c : ℕ) :
    History c t.sections (t.phase c) := by
  have hkeep : ∀ {call phase}, t.phase = (s.goto call phase).phase → t.sections = s.sections →
      phase.inside = (s.phase call).inside → (s.phase call).answer? = none ∨ phase.answer? = (s.phase call).answer? →
      History c t.sections (t.phase c) := by
    intro call phase hphase hsections hinside hanswer
    rw [hsections]
    rcases phase_cases hphase c with ⟨rfl,hc⟩ | ⟨-,hc⟩
    · rw [hc]
      exact (h c).congr hinside hanswer
    · rw [hc]
      exact h c
  have hnote : ∀ {call phase entry}, t.phase = (s.goto call phase).phase → t.sections = entry :: s.sections →
      entry ≠ .began c → entry ≠ .finished c →
      phase.inside = (s.phase call).inside → (s.phase call).answer? = none ∨ phase.answer? = (s.phase call).answer? →
      History c t.sections (t.phase c) := by
    intro call phase entry hphase hsections hbegan hfinished hinside hanswer
    rw [hsections]
    rcases phase_cases hphase c with ⟨rfl,hc⟩ | ⟨-,hc⟩
    · rw [hc]
      exact ((h c).congr hinside hanswer).cons hbegan hfinished
    · rw [hc]
      exact (h c).cons hbegan hfinished
  cases hmove with
  | enter request hphase => exact hkeep rfl rfl (by rw [hphase]; rfl) (Or.inl (by rw [hphase]; rfl))
  | reject hphase => exact hkeep rfl rfl (by rw [hphase]; rfl) (Or.inl (by rw [hphase]; rfl))
  | @begin call request hphase hfree =>
    rcases phase_cases (t := s.goto call (.prepare request)) rfl c with ⟨rfl,hc⟩ | ⟨hne,hc⟩
    · rcases h c with ⟨-,hb,hf⟩ | ⟨hin,-⟩ | ⟨result,hanswer,-⟩
      · refine Or.inr (Or.inl ⟨congrArg Phase.inside hc,?_,by simp [hf]⟩)
        rw [List.count_cons_self,List.count_eq_zero_of_not_mem hb]
      · rw [hphase] at hin
        cases hin
      · rw [hphase] at hanswer
        cases hanswer
    · exact hc.symm ▸ (h c).cons (by simpa using hne.symm) (by simp)
  | refuse hphase => exact hnote rfl rfl (by simp) (by simp) (by rw [hphase]; rfl) (Or.inl (by rw [hphase]; rfl))
  | quiet hlike hresult =>
    exact hkeep rfl rfl (hlike.inside.2.trans hlike.inside.1.symm) (Or.inl (answer_of_inside hlike.inside.1))
  | socket hphase hfd => exact hkeep rfl rfl (by rw [hphase]; rfl) (Or.inl (by rw [hphase]; rfl))
  | abort hphase hresult => exact hkeep rfl rfl (by rw [hphase]; rfl) (Or.inl (by rw [hphase]; rfl))
  | connected hphase => exact hkeep rfl rfl (by rw [hphase]; rfl) (Or.inl (by rw [hphase]; rfl))
  | registered hphase =>
    refine hnote rfl rfl (by simp) (by simp) ?_ (Or.inl (by rw [hphase]; rfl))
    rw [hphase]
    split_ifs <;> rfl
  | asked hlike hresult =>
    exact hnote rfl rfl (by simp) (by simp) (hlike.inside.2.trans hlike.inside.1.symm)
      (Or.inl (answer_of_inside hlike.inside.1))
  | @finish call fd result response hphase =>
    rcases phase_cases (t := s.goto call (leavePhase fd (if s.adapter.cancelRequested then -ecanceled else result) response))
      rfl c with ⟨rfl,hc⟩ | ⟨hne,hc⟩
    · refine Or.inr (Or.inr ⟨_,?_,completed_of_finish hshared hresults (h c) hphase⟩)
      exact (congrArg Phase.answer? hc).trans (leavePhase_answer _ _ _)
    · exact hc.symm ▸ (h c).cons (by simp) (by simpa using hne.symm)
  | close hphase => exact hkeep rfl rfl (by rw [hphase]; rfl) (Or.inr (by rw [hphase]; rfl))
  | cancel => exact (h c).cons (by simp) (by simp)
  | openOther hfd => exact h c
  | closeOther hfd => exact h c

end

/-- Everything the next section finds is consistent with the sections that ran. -/
structure Consistent (s : System) : Prop where
  shared : Shared s (holder s.sections)
  results : ResultsFlagged s
  history : ∀ call, History call s.sections (s.phase call)

section
variable {bits : ℕ} {longDouble : Faithful bits} {s t : System}

theorem initial_consistent (others : ℕ → Bool) : Consistent (System.initial others) := by
  refine ⟨.free rfl fun _ => rfl,?_,fun call => Or.inl ⟨rfl,by simp [System.initial],by simp [System.initial]⟩⟩
  intro call h
  cases h

theorem move_consistent (h : Consistent s) (hmove : Move s t) : Consistent t :=
  ⟨move_shared h.shared hmove,move_results h.shared h.results hmove,
    move_history h.shared h.results h.history hmove⟩

theorem reachable_consistent (h : Reachable longDouble s) : Consistent s := by
  obtain ⟨others,events,hrun⟩ := h
  exact Transition.run_invariant (fun _ _ _ hs hstep => move_consistent hs (step_move hstep))
    (initial_consistent others) hrun

/-- The system without the record of its sections, which no step reads. -/
def System.unrecorded (s : System) : System := { s with sections := [] }

theorem step_unrecorded (s : System) (e : Event) :
    (step longDouble s e).map System.unrecorded = (step longDouble s.unrecorded e).map System.unrecorded := by
  cases e with
  | cancel => rfl
  | openOther fd =>
    simp only [step,System.unrecorded]
    split <;> rfl
  | closeOther fd =>
    simp only [step,System.unrecorded]
    split <;> rfl
  | begin call =>
    cases hactive : s.adapter.active with
    | true =>
      simp only [step,System.unrecorded,begin_busy hactive]
      split <;> rfl
    | false =>
      simp only [step,System.unrecorded,begin_free hactive]
      split <;> rfl
  | _ =>
    simp only [step,System.unrecorded]
    split <;> rfl

theorem run_unrecorded (events : List Event) (h : s.unrecorded = t.unrecorded) :
    (Transition.run (step longDouble) s events).map System.unrecorded =
      (Transition.run (step longDouble) t events).map System.unrecorded := by
  induction events generalizing s t with
  | nil => exact congrArg some h
  | cons e rest ih =>
    have hstep : (step longDouble s e).map System.unrecorded = (step longDouble t e).map System.unrecorded := by
      rw [step_unrecorded s e,step_unrecorded t e,h]
    rw [Transition.run,Transition.run]
    cases hs : step longDouble s e with
    | none =>
      rw [hs] at hstep
      rw [Option.map_eq_none_iff.mp hstep.symm]
    | some s' =>
      rw [hs] at hstep
      obtain ⟨t',ht,htt⟩ := Option.map_eq_some_iff.mp hstep.symm
      rw [ht]
      exact ih htt.symm

/-- Canceling an adapter that is not in use. -/
theorem cancel_free {a : QcpuQcpudAdapter} (h : a = {}) : a.cancel = (none, a) := by
  rw [h]
  rfl

/-- An exchange that got past `begin` runs `finish` once and answers -ECANCELED exactly if a
cancel ran in between; `finish` leaves the adapter free. While an exchange is inside a
second one is refused and changes nothing; a cancel outside of all exchanges is not
noticed by any later one. -/
theorem cancellation_sound (hreach : Reachable longDouble s) :
    (∀ call result response, s.phase call = .returned result response → .began call ∈ s.sections →
      Completed call result s.sections) ∧
    (∀ call t, step longDouble s (.finish call) = some t → t.adapter = ⟨-1, false, false⟩) ∧
    (∀ call other t, (s.phase other).inside = true → step longDouble s (.begin call) = some t →
      t.phase call = .returned (-ebusy) {} ∧ t.adapter = s.adapter) ∧
    (∀ t, (∀ call, (s.phase call).inside = false) → step longDouble s .cancel = some t → ∀ events,
      (Transition.run (step longDouble) t events).map System.unrecorded =
        (Transition.run (step longDouble) s events).map System.unrecorded) := by
  have hconsistent := reachable_consistent hreach
  refine ⟨fun call result response hphase hbegan => ?_,fun call t hstep => ?_,fun call other t hinside hstep => ?_,
    fun t houtside hstep events => ?_⟩
  · rcases hconsistent.history call with ⟨-,hno,-⟩ | ⟨hin,-⟩ | ⟨answer,hanswer,hcompleted⟩
    · exact absurd hbegan hno
    · rw [hphase] at hin
      cases hin
    · rw [hphase] at hanswer
      cases hanswer
      exact hcompleted
  · simp only [step] at hstep
    split at hstep
    · cases hstep
      rfl
    · cases hstep
  · obtain ⟨canceled,-,hadapter,-⟩ := hconsistent.shared.inside hinside
    have hactive : s.adapter.active = true := by rw [hadapter]
    simp only [step,begin_busy hactive] at hstep
    split at hstep
    · cases hstep
      exact ⟨goto_self s call _,rfl⟩
    · cases hstep
  · refine run_unrecorded events ?_
    cases hstep
    have hfree : s.adapter = {} := by
      have hshared := hconsistent.shared
      generalize holder s.sections = entry at hshared
      cases hshared with
      | free hadapter _ => exact hadapter
      | held _ hinside _ =>
        rw [houtside] at hinside
        cases hinside
    simp only [System.unrecorded,cancel_free hfree]

end

/-- A cancel that runs before the exchange has connected is answered -ECANCELED although the
command is unknown as well. -/
theorem cancellation_sound_prepared : ∃ s : System, Reachable (unrounded 64) s ∧
    s.phase 0 = .returned (-ecanceled) {} ∧ Completed 0 (-ecanceled) s.sections := by
  have hreach : Reachable (unrounded 64) _ := ⟨fun _ => false,
    [.call 0 (some ⟨0, 0, 0, 0, 0, 0⟩), .begin 0, .cancel, .prepare 0 zeroWire 0, .finish 0],rfl⟩
  exact ⟨_,hreach,rfl,(cancellation_sound hreach).1 0 (-ecanceled) {} rfl (by decide)⟩

end QbitNova.AdapterSystem
