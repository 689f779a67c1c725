import QbitNova.Library.BitGates
import QbitNova.Quantum.KernelRuns

/-! # Lists of kernel gates

Each gate acts on the entries of the array by one action on a bit. A list of gates acts by
the composition of these, so that what holds of the actions holds of the loops: in exact
arithmetic a list followed by its reverse changes nothing, and gates on different qubits
can be exchanged.
-/
namespace QbitNova.Quantum
open Sweep Scalars ExactReals

/-- The calls that apply a gate. -/
inductive GateCall where
  | h (qubit : ℕ)
  | x (qubit : ℕ)
  | cx (control target : ℕ)
  deriving DecidableEq, Repr

namespace GateCall

def call : GateCall → KernelCall
  | .h qubit => .applyH qubit
  | .x qubit => .applyX qubit
  | .cx control target => .applyCx control target

def qubits : GateCall → List ℕ
  | .h qubit => [qubit]
  | .x qubit => [qubit]
  | .cx control target => [control, target]

/-- The operands are qubits of a kernel of that size, and those of cx are not the same. -/
structure Valid (n : ℕ) (g : GateCall) : Prop where
  inRange : ∀ q ∈ g.qubits, q < n
  distinct : g.qubits.Nodup

/-- Where a gate acts at all. -/
def condition (n : ℕ) : GateCall → ℕ → Bool
  | .h _ => fun _ => true
  | .x _ => fun _ => true
  | .cx control _ => (Nat.testBit · (n - 1 - control))

/-- The bit whose pairs a gate works on. -/
def bit (n : ℕ) : GateCall → ℕ
  | .h qubit => n - 1 - qubit
  | .x qubit => n - 1 - qubit
  | .cx _ target => n - 1 - target

def pair {D : Type} [Scalars D] : GateCall → Amplitude D → Amplitude D → Amplitude D × Amplitude D
  | .h _ => hadamardPair
  | .x _ => flipPair
  | .cx _ _ => flipPair

/-- What a gate does to the entries of the array. -/
def act {D : Type} [Scalars D] (n : ℕ) (g : GateCall) : (ℕ → Amplitude D) → ℕ → Amplitude D :=
  pairAct (g.condition n) (g.bit n) g.pair

variable {n : ℕ} {g g' : GateCall}

theorem bit_lt (h : g.Valid n) : g.bit n < n := by
  have hrange := h.inRange
  cases g <;> simp only [qubits,List.mem_cons,forall_eq_or_imp,List.not_mem_nil] at hrange <;> simp only [bit] <;> omega

/-- A gate does not change the bit that decides where it acts. -/
theorem condition_bit (h : g.Valid n) (i : ℕ) : g.condition n (i ^^^ 2 ^ g.bit n) = g.condition n i := by
  cases g with
  | h qubit => rfl
  | x qubit => rfl
  | cx control target =>
    have hrange := h.inRange
    have hne := h.distinct
    simp only [qubits,List.mem_cons,forall_eq_or_imp,List.nodup_cons] at hrange hne
    simp only [condition,bit]
    rw [testBit_xor_two_pow,if_neg (by simp at hne; omega)]

theorem condition_other (h : g.Valid n) (h' : g'.Valid n) (hdisjoint : List.Disjoint g.qubits g'.qubits) (i : ℕ) :
    g.condition n (i ^^^ 2 ^ g'.bit n) = g.condition n i := by
  cases g with
  | h qubit => rfl
  | x qubit => rfl
  | cx control target =>
    have hc : control < n := h.inRange control (by simp [qubits])
    have hbit : g'.bit n ≠ n - 1 - control := by
      intro heq
      have hrange := h'.inRange
      have hnot := hdisjoint (show control ∈ [control, target] by simp)
      cases g' <;> simp [qubits,bit] at hrange hnot heq <;> omega
    simp only [condition]
    rw [testBit_xor_two_pow,if_neg hbit]

theorem bit_ne (h : g.Valid n) (h' : g'.Valid n) (hdisjoint : List.Disjoint g.qubits g'.qubits) :
    g.bit n ≠ g'.bit n := by
  intro heq
  have hrange := h.inRange
  have hrange' := h'.inRange
  cases g <;> cases g' <;> simp [qubits,bit] at hrange hrange' hdisjoint heq <;> omega

end GateCall

section Pairs

theorem involutory_hadamardPair : Involutory (hadamardPair : Amplitude ℝ → Amplitude ℝ → _) := by
  intro x y
  have hroot := rootTwo_mul_self
  have hne := rootTwo_ne_zero
  unfold rootTwo at hroot hne
  simp only [hadamardPair,Amplitude.add,Amplitude.sub,Amplitude.scale,add_eq,sub_eq,mul_eq,div_eq,sqrt_eq,ofInt_eq,
    Int.cast_one,Int.cast_ofNat]
  have hscale : ∀ s d : ℝ, ((s + d) * (1 / Real.sqrt 2) + (s - d) * (1 / Real.sqrt 2)) * (1 / Real.sqrt 2) = s ∧
      ((s + d) * (1 / Real.sqrt 2) - (s - d) * (1 / Real.sqrt 2)) * (1 / Real.sqrt 2) = d := by
    intro s d
    constructor
    · field_simp
      linear_combination (-s) * hroot
    · field_simp
      linear_combination (-d) * hroot
  obtain ⟨xre,xim⟩ := x
  obtain ⟨yre,yim⟩ := y
  simp only [(hscale _ _).1,(hscale _ _).2]

theorem exchanges_hadamardPair : Exchanges (hadamardPair : Amplitude ℝ → Amplitude ℝ → _) hadamardPair := by
  constructor <;> intro x y z w <;>
    simp only [hadamardPair,Amplitude.add,Amplitude.sub,Amplitude.scale,add_eq,sub_eq,mul_eq] <;>
    congr 2 <;> ring

end Pairs

section Actions
variable {n : ℕ} {g g' : GateCall}

theorem GateCall.act_act (h : g.Valid n) (v : ℕ → Amplitude ℝ) : g.act n (g.act n v) = v := by
  apply pairAct_pairAct (g.condition_bit h)
  cases g with
  | h qubit => exact involutory_hadamardPair
  | x qubit => exact involutory_flipPair
  | cx control target => exact involutory_flipPair

theorem GateCall.act_comm (h : g.Valid n) (h' : g'.Valid n) (hdisjoint : List.Disjoint g.qubits g'.qubits)
    (v : ℕ → Amplitude ℝ) : g.act n (g'.act n v) = g'.act n (g.act n v) := by
  apply pairAct_comm (bit_ne h h' hdisjoint) (condition_other h h' hdisjoint) (condition_other h' h hdisjoint.symm)
  cases g with
  | x qubit => exact exchanges_flipPair _
  | cx control target => exact exchanges_flipPair _
  | h qubit =>
    cases g' with
    | h qubit' => exact exchanges_hadamardPair
    | x qubit' => exact (exchanges_flipPair _).symm
    | cx control target => exact (exchanges_flipPair _).symm

/-- The action of a list of gates. -/
def actAll {D : Type} [Scalars D] (n : ℕ) (gates : List GateCall) (v : ℕ → Amplitude D) : ℕ → Amplitude D :=
  gates.foldl (fun v g => g.act n v) v

theorem actAll_append {D : Type} [Scalars D] (gates gates' : List GateCall) (v : ℕ → Amplitude D) :
    actAll n (gates ++ gates') v = actAll n gates' (actAll n gates v) := List.foldl_append

theorem actAll_reverse {gates : List GateCall} (h : ∀ g ∈ gates, g.Valid n) (v : ℕ → Amplitude ℝ) :
    actAll n (gates ++ gates.reverse) v = v := by
  induction gates generalizing v with
  | nil => rfl
  | cons g gates ih =>
    have hg : g.Valid n := h g (List.mem_cons_self ..)
    have hinner := ih (fun g' hg' => h g' (List.mem_cons_of_mem _ hg')) (g.act n v)
    rw [List.reverse_cons,List.cons_append,← List.append_assoc]
    calc actAll n (g :: (gates ++ gates.reverse ++ [g])) v
        = g.act n (actAll n (gates ++ gates.reverse) (g.act n v)) := actAll_append (gates ++ gates.reverse) [g] _
      _ = g.act n (g.act n v) := by rw [hinner]
      _ = v := g.act_act hg v

theorem actAll_exchange (before after : List GateCall) (h : g.Valid n) (h' : g'.Valid n)
    (hdisjoint : List.Disjoint g.qubits g'.qubits) (v : ℕ → Amplitude ℝ) :
    actAll n (before ++ g' :: g :: after) v = actAll n (before ++ g :: g' :: after) v := by
  rw [actAll_append,actAll_append]
  show actAll n after (g.act n (g'.act n _)) = actAll n after (g'.act n (g.act n _))
  rw [GateCall.act_comm h h' hdisjoint]

end Actions

section Runs
variable {D : Type} [Scalars D] {k : QCPUKernel D} {g : GateCall}

/-- Every call of a sequence returns without an error. -/
def Succeed (k : QCPUKernel D) : List KernelCall → Prop
  | [] => True
  | call :: calls => (call.perform k).1 = .ok ∧ Succeed (call.perform k).2 calls

theorem perform_act (hr : k.Ready) (h : g.Valid k.qubitCount) : ∃ k', g.call.perform k = (.ok, k') ∧ GateFrame k k' ∧
    ∀ j < 2 ^ k.qubitCount, entry k'.amplitudes j = g.act k.qubitCount (entry k.amplitudes) j := by
  cases g with
  | h qubit =>
    obtain ⟨k',happly,hframe,-,hentry⟩ := applyH_spec hr (h.inRange qubit (by simp [GateCall.qubits]))
    refine ⟨k',happly,hframe,fun j hj => (hentry j hj).trans ?_⟩
    simp only [qubitMask_eq,GateCall.act,pairAct,GateCall.condition,↓reduceIte]
    rfl
  | x qubit =>
    obtain ⟨k',happly,hframe,-,hentry⟩ := applyX_spec hr (h.inRange qubit (by simp [GateCall.qubits]))
    refine ⟨k',happly,hframe,fun j hj => (hentry j hj).trans ?_⟩
    rw [qubitMask_eq,GateCall.act,GateCall.pair,pairAct_flipPair]
    rfl
  | cx control target =>
    have hne : control ≠ target := by simpa [GateCall.qubits] using h.distinct
    obtain ⟨k',happly,hframe,-,hentry⟩ := applyCx_spec hr (h.inRange control (by simp [GateCall.qubits]))
      (h.inRange target (by simp [GateCall.qubits])) hne
    refine ⟨k',happly,hframe,fun j hj => (hentry j hj).trans ?_⟩
    rw [qubitMask_eq,← apply_ite (entry k.amplitudes),GateCall.act,GateCall.pair,pairAct_flipPair]
    rfl

/-- The operands are checked before anything is done. -/
theorem valid_of_ok (h : (g.call.perform k).1 = .ok) : k.Ready ∧ g.Valid k.qubitCount := by
  by_cases hr : k.Ready
  · refine ⟨hr,?_⟩
    cases g with
    | h qubit =>
      simp only [GateCall.call,KernelCall.perform,qcpuKernelApplyH] at h
      rw [qcpuKernelReady_iff.mpr hr,if_neg (by simp)] at h
      split_ifs at h with hq
      exact ⟨by simpa [GateCall.qubits] using hq,List.nodup_singleton _⟩
    | x qubit =>
      simp only [GateCall.call,KernelCall.perform,qcpuKernelApplyX] at h
      rw [qcpuKernelReady_iff.mpr hr,if_neg (by simp)] at h
      split_ifs at h with hq
      exact ⟨by simpa [GateCall.qubits] using hq,List.nodup_singleton _⟩
    | cx control target =>
      simp only [GateCall.call,KernelCall.perform,qcpuKernelApplyCx] at h
      rw [qcpuKernelReady_iff.mpr hr,if_neg (by simp)] at h
      split_ifs at h with hq
      simp only [not_or,not_le,ge_iff_le] at hq
      exact ⟨by simpa [GateCall.qubits] using ⟨hq.1,hq.2.1⟩,by simpa [GateCall.qubits] using hq.2.2⟩
  · have hready : qcpuKernelReady k = false := by rwa [Bool.eq_false_iff,ne_eq,qcpuKernelReady_iff]
    cases g <;>
      simp [GateCall.call,KernelCall.perform,qcpuKernelApplyH,qcpuKernelApplyX,qcpuKernelApplyCx,hready] at h

theorem actAll_congr {n : ℕ} {gates : List GateCall} (h : ∀ g ∈ gates, g.Valid n) {v w : ℕ → Amplitude D}
    (hvw : ∀ i < 2 ^ n, v i = w i) : ∀ i < 2 ^ n, actAll n gates v i = actAll n gates w i := by
  induction gates generalizing v w with
  | nil => exact hvw
  | cons g gates ih =>
    have hg : g.Valid n := h g (List.mem_cons_self ..)
    exact ih (fun g' hg' => h g' (List.mem_cons_of_mem _ hg')) fun i hi => pairAct_congr (g.bit_lt hg) hvw hi

theorem runCalls_act (hr : k.Ready) {gates : List GateCall} (h : ∀ g ∈ gates, g.Valid k.qubitCount) :
    Succeed k (gates.map GateCall.call) ∧
      (runCalls k (gates.map GateCall.call)).amplitudes.length = 2 ^ k.qubitCount ∧
      ∀ j < 2 ^ k.qubitCount, entry (runCalls k (gates.map GateCall.call)).amplitudes j =
        actAll k.qubitCount gates (entry k.amplitudes) j := by
  induction gates generalizing k with
  | nil => exact ⟨trivial,hr.length,fun j _ => rfl⟩
  | cons g gates ih =>
    obtain ⟨k',hperform,hframe,hentry⟩ := perform_act hr (h g (List.mem_cons_self ..))
    have hrest : ∀ g' ∈ gates, g'.Valid k.qubitCount := fun g' hg' => h g' (List.mem_cons_of_mem _ hg')
    obtain ⟨hsucceed,hlen,hrun⟩ := ih (hframe.ready hr) (hframe.qubits.symm ▸ hrest)
    rw [hframe.qubits] at hlen hrun
    have hcalls : runCalls k ((g :: gates).map GateCall.call) = runCalls k' (gates.map GateCall.call) := by
      rw [List.map_cons,runCalls,List.foldl_cons,hperform]
      rfl
    rw [hcalls]
    refine ⟨⟨by rw [hperform],by rw [hperform]; exact hsucceed⟩,hlen,fun j hj => (hrun j hj).trans ?_⟩
    exact actAll_congr hrest hentry j hj

theorem valid_of_succeed (hr : k.Ready) {gates : List GateCall} (h : Succeed k (gates.map GateCall.call)) :
    ∀ g ∈ gates, g.Valid k.qubitCount := by
  induction gates generalizing k with
  | nil => simp
  | cons g gates ih =>
    have hg := (valid_of_ok h.1).2
    obtain ⟨k',hperform,hframe,-⟩ := perform_act hr hg
    have hrest := h.2
    rw [hperform] at hrest
    have hvalid := ih (hframe.ready hr) hrest
    rw [hframe.qubits] at hvalid
    exact List.forall_mem_cons.mpr ⟨hg,hvalid⟩

end Runs

/-- Lists of gates that act alike leave the same array. -/
theorem amplitudes_eq {k : QCPUKernel ℝ} (hr : k.Ready) {gates gates' : List GateCall}
    (h : ∀ g ∈ gates, g.Valid k.qubitCount) (h' : ∀ g ∈ gates', g.Valid k.qubitCount)
    (heq : actAll k.qubitCount gates (entry k.amplitudes) = actAll k.qubitCount gates' (entry k.amplitudes)) :
    (runCalls k (gates.map GateCall.call)).amplitudes = (runCalls k (gates'.map GateCall.call)).amplitudes := by
  obtain ⟨-,hlen,hrun⟩ := runCalls_act hr h
  obtain ⟨-,hlen',hrun'⟩ := runCalls_act hr h'
  refine ext_entry (hlen.trans hlen'.symm) fun j hj => ?_
  rw [hlen] at hj
  rw [hrun j hj,hrun' j hj,heq]

/-- A list of gates that all succeed can be undone by the same calls in reverse order, and two
neighbours in it on different qubits can change places. -/
theorem gates_reverse_and_exchange {k : QCPUKernel ℝ} (hr : k.Ready) {gates : List GateCall}
    (hok : Succeed k (gates.map GateCall.call)) :
    (Succeed k ((gates ++ gates.reverse).map GateCall.call) ∧
      (runCalls k ((gates ++ gates.reverse).map GateCall.call)).amplitudes = k.amplitudes) ∧
    ∀ before g g' after, gates = before ++ g :: g' :: after → List.Disjoint g.qubits g'.qubits →
      Succeed k ((before ++ g' :: g :: after).map GateCall.call) ∧
      (runCalls k ((before ++ g' :: g :: after).map GateCall.call)).amplitudes =
        (runCalls k (gates.map GateCall.call)).amplitudes := by
  have hvalid := valid_of_succeed hr hok
  constructor
  · have hboth : ∀ g ∈ gates ++ gates.reverse, g.Valid k.qubitCount := by
      intro g hg
      rw [List.mem_append,List.mem_reverse,or_self] at hg
      exact hvalid g hg
    have hnone : ∀ g ∈ ([] : List GateCall), g.Valid k.qubitCount := fun g hg => (by cases hg)
    exact ⟨(runCalls_act hr hboth).1,amplitudes_eq hr hboth hnone (actAll_reverse hvalid _)⟩
  · rintro before g g' after rfl hdisjoint
    have hexchanged : ∀ f ∈ before ++ g' :: g :: after, f.Valid k.qubitCount := by
      intro f hf
      apply hvalid
      simp only [List.mem_append,List.mem_cons] at hf ⊢
      tauto
    refine ⟨(runCalls_act hr hexchanged).1,amplitudes_eq hr hexchanged hvalid ?_⟩
    exact actAll_exchange before after (hvalid g (by simp)) (hvalid g' (by simp)) hdisjoint _

noncomputable def threeQubits : QCPUKernel ℝ :=
  ⟨3, 8, [⟨1, 0⟩, ⟨0, 1⟩, ⟨0, 0⟩, ⟨-1, 0⟩, ⟨0, 0⟩, ⟨0, 0⟩, ⟨0, -1⟩, ⟨1, 1⟩], 1, false, 0, rfl⟩

theorem gates_reverse_and_exchange_threeQubits :
    (runCalls threeQubits ([.h 0, .cx 0 2, .x 1, .x 1, .cx 0 2, .h 0].map GateCall.call)).amplitudes =
      threeQubits.amplitudes ∧
    (runCalls threeQubits ([.h 0, .x 1, .cx 0 2].map GateCall.call)).amplitudes =
      (runCalls threeQubits ([.h 0, .cx 0 2, .x 1].map GateCall.call)).amplitudes := by
  have hr : threeQubits.Ready := ⟨by decide,rfl⟩
  have hvalid : ∀ g ∈ [.h 0, .cx 0 2, .x 1], GateCall.Valid threeQubits.qubitCount g := by
    intro g hg
    fin_cases hg <;> exact ⟨by decide,by decide⟩
  have h := gates_reverse_and_exchange hr (runCalls_act hr hvalid).1
  exact ⟨h.1.2,(h.2 [.h 0] (.cx 0 2) (.x 1) [] rfl (by simp [GateCall.qubits])).2⟩

end QbitNova.Quantum
