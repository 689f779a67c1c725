import Mathlib.Logic.Function.Iterate

/-! # Pre- and postconditions of structured commands

Commands over arbitrary actions and tests: sequences, guarded commands and loops of a fixed
number of rounds. An assertion is any predicate of the state, and the invariant of a loop may
speak of the rounds already made. The rules derive exactly the triples that hold.
-/
namespace QbitNova.Triples

inductive Command (α β : Type) where
  | skip
  | perform (action : α)
  | sequence (first second : Command α β)
  | guarded (condition : β) (body : Command α β)
  | rounds (count : ℕ) (body : Command α β)

variable {σ α β : Type} (act : α → σ → σ) (test : β → σ → Bool)

/-- The state a command ends in. -/
def run : Command α β → σ → σ
  | .skip, s => s
  | .perform action, s => act action s
  | .sequence first second, s => run second (run first s)
  | .guarded condition body, s => if test condition s = true then run body s else s
  | .rounds count body, s => (run body)^[count] s

/-- The rules, one for each form of command, and the rule of consequence. -/
inductive Derives : (σ → Prop) → Command α β → (σ → Prop) → Prop
  | skip (P : σ → Prop) : Derives P .skip P
  | perform (action : α) (Q : σ → Prop) : Derives (fun s => Q (act action s)) (.perform action) Q
  | sequence {P Q R : σ → Prop} {first second : Command α β} :
      Derives P first R → Derives R second Q → Derives P (.sequence first second) Q
  | guarded {P Q : σ → Prop} {condition : β} {body : Command α β} :
      Derives (fun s => P s ∧ test condition s = true) body Q → (∀ s, P s → ¬ test condition s = true → Q s) →
        Derives P (.guarded condition body) Q
  | rounds {count : ℕ} {body : Command α β} (invariant : ℕ → σ → Prop) :
      (∀ i < count, Derives (invariant i) body (invariant (i + 1))) →
        Derives (invariant 0) (.rounds count body) (invariant count)
  | consequence {P P' Q Q' : σ → Prop} {c : Command α β} :
      (∀ s, P s → P' s) → Derives P' c Q' → (∀ s, Q' s → Q s) → Derives P c Q

variable {act test} {P P' Q : σ → Prop} {c : Command α β}

theorem Derives.strengthen (h : Derives act test P' c Q) (hpre : ∀ s, P s → P' s) : Derives act test P c Q :=
  .consequence hpre h fun _ => id

/-- What is derived holds. -/
theorem Derives.sound (h : Derives act test P c Q) {s : σ} (hs : P s) : Q (run act test c s) := by
  induction h generalizing s with
  | skip P => exact hs
  | perform action Q => exact hs
  | sequence _ _ ihfirst ihsecond => exact ihsecond (ihfirst hs)
  | guarded _ hfails ih =>
    unfold run
    split
    · next htest => exact ih ⟨hs,htest⟩
    · next htest => exact hfails s hs htest
  | @rounds count body invariant _ ih =>
    have hrounds : ∀ i ≤ count, invariant i ((run act test body)^[i] s) := by
      intro i hi
      induction i with
      | zero => exact hs
      | succ i ihi =>
        rw [Function.iterate_succ_apply']
        exact ih i hi (ihi (Nat.le_of_succ_le hi))
    exact hrounds count (Nat.le_refl count)
  | consequence hpre _ hpost ih => exact hpost _ (ih (hpre s hs))

variable (act test)

/-- The weakest precondition of every command can be derived. -/
theorem derives_weakest (c : Command α β) (Q : σ → Prop) : Derives act test (fun s => Q (run act test c s)) c Q := by
  induction c generalizing Q with
  | skip => exact .skip Q
  | perform action => exact .perform action Q
  | sequence first second ihfirst ihsecond => exact .sequence (ihfirst fun s => Q (run act test second s)) (ihsecond Q)
  | guarded condition body ih =>
    apply Derives.guarded
    · apply (ih Q).strengthen
      rintro s ⟨hQ,htest⟩
      rwa [run,if_pos htest] at hQ
    · intro s hQ htest
      rwa [run,if_neg htest] at hQ
  | rounds count body ih =>
    let left : ℕ → σ → Prop := fun i s => Q ((run act test body)^[count - i] s)
    have hloop : Derives act test (left 0) (.rounds count body) (left count) := by
      apply Derives.rounds
      intro i hi
      apply (ih _).strengthen
      intro s hQ
      have hnext : count - i = count - (i + 1) + 1 := by omega
      simp only [left,hnext,Function.iterate_succ_apply] at hQ
      exact hQ
    refine Derives.consequence (fun s hQ => hQ) hloop fun s hQ => ?_
    simpa only [left,Nat.sub_self,Function.iterate_zero_apply] using hQ

/-- The rules are sound and complete. -/
theorem derives_iff : Derives act test P c Q ↔ ∀ s, P s → Q (run act test c s) :=
  ⟨fun h _ => h.sound,fun h => (derives_weakest act test c Q).strengthen h⟩

end QbitNova.Triples
