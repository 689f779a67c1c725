import Mathlib.Logic.Relation
import Mathlib.Data.List.Basic

/-! # Runs of event-driven and deterministic transition systems

A partial step function consumes one scheduled event at a time; an event that is
not enabled has no successor. Invariants are proved for one step and transported
along every schedule, either unconditionally or along schedules whose steps all
meet a condition on the state they are taken in.
-/
namespace Transition

section Events
variable {S E : Type*} (step : S → E → Option S)

/-- The state reached by a whole schedule, if each of its events is enabled in turn. -/
def run (s : S) : List E → Option S
  | [] => some s
  | e :: es => (step s e).bind (fun t => run t es)

@[simp] theorem run_nil (s : S) : run step s [] = some s := rfl

theorem run_cons {s t : S} {e : E} {es : List E} (h : run step s (e :: es) = some t) :
    ∃ m, step s e = some m ∧ run step m es = some t := Option.bind_eq_some_iff.mp h

/-- A schedule that can be run can be run up to any point of it. -/
theorem run_take {s t : S} {es : List E} (h : run step s es = some t) (n : ℕ) :
    ∃ m, run step s (es.take n) = some m := by
  induction es generalizing s n with
  | nil => exact ⟨t,by rwa [List.take_nil]⟩
  | cons e es ih =>
    cases n with
    | zero => exact ⟨s,rfl⟩
    | succ n =>
      obtain ⟨m,hm,hr⟩ := run_cons step h
      obtain ⟨u,hu⟩ := ih hr n
      exact ⟨u,Option.bind_eq_some_iff.mpr ⟨m,hm,hu⟩⟩

theorem run_concat {s t u : S} {es : List E} {e : E} (h : run step s es = some t) (he : step t e = some u) :
    run step s (es ++ [e]) = some u := by
  induction es generalizing s with
  | nil =>
    obtain rfl := Option.some.inj h
    exact Option.bind_eq_some_iff.mpr ⟨u,he,rfl⟩
  | cons e' es ih =>
    obtain ⟨m,hm,hr⟩ := run_cons step h
    exact Option.bind_eq_some_iff.mpr ⟨m,hm,ih hr⟩

/-- Every step of the schedule is taken in a state that meets the condition. -/
def Meets (cond : S → E → Prop) (s : S) : List E → Prop
  | [] => True
  | e :: es => cond s e ∧ ∀ t, step s e = some t → Meets cond t es

variable {step}

/-- One preserved step gives a preserved run. -/
theorem run_invariant {I : S → Prop} (hstep : ∀ s e t, I s → step s e = some t → I t)
    {s t : S} {es : List E} (hs : I s) (hr : run step s es = some t) : I t := by
  induction es generalizing s with
  | nil => exact Option.some.inj hr ▸ hs
  | cons e es ih =>
    obtain ⟨m,hm,hr⟩ := run_cons step hr
    exact ih (hstep s e m hs hm) hr

theorem Meets.cons {cond : S → E → Prop} {s t : S} {e : E} {es : List E} (hc : cond s e)
    (he : step s e = some t) (h : Meets step cond t es) : Meets step cond s (e :: es) := by
  refine ⟨hc,fun u hu => ?_⟩
  rw [he] at hu
  cases hu
  exact h

theorem run_invariant_of_meets {I : S → Prop} {cond : S → E → Prop}
    (hstep : ∀ s e t, I s → cond s e → step s e = some t → I t)
    {s t : S} {es : List E} (hs : I s) (hc : Meets step cond s es)
    (hr : run step s es = some t) : I t := by
  induction es generalizing s with
  | nil => exact Option.some.inj hr ▸ hs
  | cons e es ih =>
    obtain ⟨m,hm,hr⟩ := run_cons step hr
    exact ih (hstep s e m hs hc.1 hm) (hc.2 m hm) hr

theorem run_invariant_of_events {I : S → Prop} {P : E → Prop} (hstep : ∀ s e t, I s → P e → step s e = some t → I t)
    {s t : S} {es : List E} (hs : I s) (hes : ∀ e ∈ es, P e) (hr : run step s es = some t) : I t := by
  induction es generalizing s with
  | nil => exact Option.some.inj hr ▸ hs
  | cons e es ih =>
    obtain ⟨m,hm,hr⟩ := run_cons step hr
    exact ih (hstep s e m hs (hes e List.mem_cons_self) hm) (fun e' he' => hes e' (List.mem_cons_of_mem _ he')) hr

/-- Two conditions that agree in every state of an invariant are met by the same schedules. -/
theorem meets_congr {I : S → Prop} {p q : S → E → Prop} (hstep : ∀ s e t, I s → step s e = some t → I t)
    (hiff : ∀ s e, I s → (p s e ↔ q s e)) {s : S} (hs : I s) (es : List E) :
    Meets step p s es ↔ Meets step q s es := by
  induction es generalizing s with
  | nil => exact Iff.rfl
  | cons e es ih =>
    apply and_congr (hiff s e hs)
    apply forall_congr'
    intro t
    apply imp_congr_right
    intro he
    exact ih (hstep s e t hs he)

end Events

section Deterministic
variable {S : Type*} (step : S → Option S)

/-- Iterate until no step is possible; `none` when the fuel does not suffice. -/
def halt : ℕ → S → Option S
  | 0, _ => none
  | fuel + 1, s => match step s with
    | none => some s
    | some t => halt fuel t

/-- Finitely many steps lead from one state to another. -/
def Reaches : S → S → Prop := Relation.ReflTransGen (fun s t => step s = some t)

variable {step}

theorem Reaches.refl (s : S) : Reaches step s s := Relation.ReflTransGen.refl

theorem Reaches.trans {s t u : S} (h : Reaches step s t) (h' : Reaches step t u) :
    Reaches step s u := Relation.ReflTransGen.trans h h'

theorem Reaches.single {s t : S} (h : step s = some t) : Reaches step s t :=
  Relation.ReflTransGen.single h

theorem Reaches.head {s t u : S} (h : step s = some t) (h' : Reaches step t u) :
    Reaches step s u := Relation.ReflTransGen.head h h'

/-- A reachable halted state is the result for every sufficiently large fuel. -/
theorem halt_of_reaches {s t : S} (h : Reaches step s t) (ht : step t = none) :
    ∃ fuel, ∀ extra, halt step (fuel + extra) s = some t := by
  induction h using Relation.ReflTransGen.head_induction_on with
  | refl => exact ⟨1,fun extra => by rw [Nat.add_comm]; simp only [halt,ht]⟩
  | head hs _ ih =>
    obtain ⟨fuel,hf⟩ := ih
    refine ⟨fuel+1,fun extra => ?_⟩
    rw [Nat.add_right_comm]
    simp only [halt,hs]
    exact hf extra

/-- What holds at the start and is kept by a step holds wherever the run comes. -/
theorem Reaches.invariant {I : S → Prop} (hstep : ∀ s t, I s → step s = some t → I t) {s t : S} (hs : I s)
    (h : Reaches step s t) : I t := by
  induction h with
  | refl => exact hs
  | tail _ ht ih => exact hstep _ _ ih ht

theorem reaches_of_halt {s t : S} {fuel : ℕ} (h : halt step fuel s = some t) : Reaches step s t ∧ step t = none := by
  induction fuel generalizing s with
  | zero => cases h
  | succ fuel ih =>
    simp only [halt] at h
    cases hs : step s with
    | none =>
      rw [hs] at h
      cases h
      exact ⟨Reaches.refl _,hs⟩
    | some m =>
      rw [hs] at h
      obtain ⟨hm,ht⟩ := ih h
      exact ⟨Reaches.head hs hm,ht⟩

/-- A run halts if every step of it ends it or decreases a well-founded measure. -/
theorem reaches_halted {α : Type*} {r : α → α → Prop} (hwf : WellFounded r) (measure : S → α)
    (hstep : ∀ s t, step s = some t → step t = none ∨ r (measure t) (measure s)) (s : S) :
    ∃ t, Reaches step s t ∧ step t = none := by
  induction s using (InvImage.wf measure hwf).induction with
  | _ s ih =>
    cases hs : step s with
    | none => exact ⟨s,Reaches.refl s,hs⟩
    | some m =>
      rcases hstep s m hs with hm | hm
      · exact ⟨m,Reaches.single hs,hm⟩
      · obtain ⟨t,ht,hhalt⟩ := ih m hm
        exact ⟨t,Reaches.head hs ht,hhalt⟩

end Deterministic

end Transition
