import QbitNova.Library.Triples
import QbitNova.Language.CompilerCorrect

/-! # Reasoning about NOVA programs

A tree is a structured command over the actions of the VM: a check prints its complaint and
guards its body, a repeat makes as many rounds as its count says. The rules for commands are
sound and complete for what the machine does with the compiled program, which knows neither
blocks nor rounds.
-/
namespace QbitNova.Language
open CText Triples

/-- The condition of a check: a variable, an operator and a number. -/
abbrev Test := Bytes × Bytes × ℤ

section
variable {D : Type} [Doubles D]

def Test.holds (t : Test) (s : Session D) : Bool := (s.vm.evalCheck t.1 t.2.1 t.2.2).1

/-- The structured command of a tree. -/
def commandOf : Node → Command Action Test
  | .null => .skip
  | .node type value left _ body next =>
    .sequence
      (match type with
        | .say => .perform (.say left.text)
        | .letBinding => .perform (.setVar value left.text)
        | .qbit => .perform (.createQbit value left.text)
        | .hadamard => .perform (.hadamard value)
        | .measure => .perform (.measure value)
        | .entangle => .perform (.entangle value left.text)
        | .cnot => .perform (.cnot value left.text)
        | .qmsg => .perform (.qmsg left.text)
        | .encodeQmsg => .perform (.encode value)
        | .decodeQmsg => .perform (.decode value)
        | .check =>
          let condition := conditionOf left
          .sequence (.perform (.check condition.1 condition.2.1 condition.2.2)) (.guarded condition (commandOf body))
        | .repeatLoop => .rounds (atoi value).toNat (commandOf body)
        | .action => .perform (.safeAction value)
        | .block => commandOf body
        | _ => .skip)
      (commandOf next)

variable (rand : ℕ → ℤ)

/-- The actions of the VM and its conditions, as the rules take them. -/
abbrev DerivesFor (P : Session D → Prop) (c : Command Action Test) (Q : Session D → Prop) : Prop :=
  Derives (fun action s => s.perform rand action) Test.holds P c Q

/-- Testing a condition changes no variable, so it can be asked for again. -/
theorem holds_perform_check (t : Test) (s : Session D) :
    t.holds (s.perform rand (.check t.1 t.2.1 t.2.2)) = t.holds s := by
  have hvars : (s.vm.evalCheck t.1 t.2.1 t.2.2).2.vars = s.vm.vars := by
    unfold VM.evalCheck
    split
    · rfl
    · split <;> rfl
  have heval : ∀ vm : VM D, vm.vars = s.vm.vars →
      (vm.evalCheck t.1 t.2.1 t.2.2).1 = (s.vm.evalCheck t.1 t.2.1 t.2.2).1 := by
    intro vm hvm
    unfold VM.evalCheck VM.findVar
    rw [hvm]
    split
    · rfl
    · split <;> rfl
  exact heval _ hvars

theorem run_commandOf (n : Node) (s : Session D) :
    run (fun action s => s.perform rand action) Test.holds (commandOf n) s = exec rand n s := by
  induction n generalizing s with
  | null => rfl
  | node type value left right body next ihleft ihright ihbody ihnext =>
    have hbody : run (fun action (s : Session D) => s.perform rand action) Test.holds (commandOf body) =
        exec rand body := by
      funext s
      exact ihbody s
    have hthen : ∀ c t, run (fun action s => s.perform rand action) Test.holds c s = t →
        run (fun action s => s.perform rand action) Test.holds (.sequence c (commandOf next)) s = exec rand next t := by
      rintro c t rfl
      exact ihnext _
    cases type with
    | check =>
      apply hthen
      simp only [run,holds_perform_check rand (conditionOf left) s,hbody]
      rfl
    | repeatLoop =>
      apply hthen
      simp only [run,hbody]
    | block => exact hthen _ _ (ihbody s)
    | _ => exact hthen _ _ rfl

theorem Derives.exec {P Q : Session D → Prop} {n : Node} (h : DerivesFor rand P (commandOf n) Q) {s : Session D}
    (hs : P s) : Q (exec rand n s) := by
  rw [← run_commandOf]
  exact h.sound hs

/-- A run starts with the banner printed and no action performed. -/
def StartsFrom (P : VM D → Prop) (s : Session D) : Prop := ∃ vm, P vm ∧ s = ⟨vm.print banner, []⟩

/-- What can be derived of a program is what holds of every run of its compiled code. -/
theorem derives_iff_runs (root : Node) (hwf : root.WellFormed) (hdepth : root.repeatDepth ≤ maxRepeats)
    (hfit : root.LexemesFit) (hroom : (codeOf root).length ≤ maxInstr) (P : VM D → Prop) (Q : Session D → Prop) :
    DerivesFor rand (StartsFrom P) (commandOf root) Q ↔
      ∃ code, compile root [] = .ok code ∧ ∀ vm, P vm →
        ∃ fuel session, (∀ extra, runBytecode rand code (fuel + extra) vm = some session) ∧ Q session := by
  have hcompile : compile root [] = .ok (codeOf root) := by simpa using compile_eq root [] hwf hfit (by simpa using hroom)
  have hrun := fun vm : VM D => run_codeOf rand root vm (fits_of_repeatDepth rand root _ hdepth)
  rw [DerivesFor,derives_iff]
  simp only [run_commandOf]
  constructor
  · intro h
    refine ⟨_,hcompile,fun vm hvm => ?_⟩
    obtain ⟨fuel,hfuel⟩ := hrun vm
    exact ⟨fuel,_,hfuel,h _ ⟨vm,hvm,rfl⟩⟩
  · rintro ⟨code,hcode,h⟩ s ⟨vm,hvm,rfl⟩
    obtain rfl := Except.ok.inj (hcompile.symm.trans hcode)
    obtain ⟨fuel,hfuel⟩ := hrun vm
    obtain ⟨fuel',session,hfuel',hsession⟩ := h vm hvm
    have heq := (hfuel fuel').symm.trans ((congrArg (runBytecode rand _ · vm) (Nat.add_comm fuel fuel')).trans (hfuel' fuel))
    rw [Option.some.inj heq]
    exact hsession

end

theorem derives_iff_runs_nested : nestedProgram.WellFormed ∧ nestedProgram.repeatDepth ≤ maxRepeats ∧
    nestedProgram.LexemesFit ∧ (codeOf nestedProgram).length ≤ maxInstr ∧
    (@DerivesFor ℤ wholeDoubles (fun _ => 0) (StartsFrom fun vm => vm.vars = []) (commandOf nestedProgram)
        (fun s => s.actions.length = 7) ↔
      ∃ code, compile nestedProgram [] = .ok code ∧ ∀ vm, vm.vars = [] →
        ∃ fuel session, (∀ extra, @runBytecode ℤ wholeDoubles (fun _ => 0) code (fuel + extra) vm = some session) ∧
          session.actions.length = 7) := by
  have hwf : nestedProgram.WellFormed := by simp [nestedProgram,Node.WellFormed,newNode]
  have hdepth : nestedProgram.repeatDepth ≤ maxRepeats := by decide
  have hfit : nestedProgram.LexemesFit := by
    simp only [nestedProgram,Node.LexemesFit,newNode]
    decide
  have hroom : (codeOf nestedProgram).length ≤ maxInstr := by decide
  exact ⟨hwf,hdepth,hfit,hroom,@derives_iff_runs ℤ wholeDoubles (fun _ => 0) nestedProgram hwf hdepth hfit hroom _ _⟩

end QbitNova.Language
