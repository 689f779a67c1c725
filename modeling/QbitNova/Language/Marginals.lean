import QbitNova.Language.Lookup
import QbitNova.Quantum.Entrywise
import Mathlib.Tactic.IntervalCases

/-! # Two qbits of the byte VM beside a state vector

The byte VM keeps a pair of amplitudes for each qbit and a link instead of a joint state:
a cnot copies the pair of the control to the target. The same statements are run on a
kernel of two qubits. The probabilities of the VM are those of the kernel as long as the
copy is what a controlled X does to the target, and no gate follows an entangling one.
-/
namespace QbitNova.TwoQbits
open CText Sweep Scalars ExactReals Quantum Transition QbitNova.Language

/-- The states of a single qbit; a Hadamard gate permutes them. -/
inductive Label where
  | zero | one | plus | minus
  deriving DecidableEq, Repr

namespace Label

def text : Label → Bytes
  | zero => str "|0>"
  | one => str "|1>"
  | plus => str "|+>"
  | minus => str "|->"

/-- The amplitude of |0> and of |1>. -/
noncomputable def amp : Label → Bool → ℝ
  | zero, bit => if bit then 0 else 1
  | one, bit => if bit then 1 else 0
  | plus, _ => 1 / rootTwo
  | minus, bit => if bit then -1 / rootTwo else 1 / rootTwo

def hadamard : Label → Label
  | zero => plus
  | one => minus
  | plus => zero
  | minus => one

end Label

/-- The statements of the two qbits; a cnot acts on the qbit that is not its control. -/
inductive Gate where
  | declare (q : Fin 2) (state : Label)
  | hadamard (q : Fin 2)
  | cnot (control : Fin 2)
  deriving DecidableEq, Repr

def other (q : Fin 2) : Fin 2 := 1 - q

theorem other_ne (q : Fin 2) : other q ≠ q := by fin_cases q <;> decide

theorem eq_or_eq_other (q c : Fin 2) : q = c ∨ q = other c := by fin_cases q <;> fin_cases c <;> decide

def Gate.action (name : Fin 2 → Bytes) : Gate → Action
  | .declare q state => .createQbit (name q) state.text
  | .hadamard q => .hadamard (name q)
  | .cnot control => .cnot (name control) (name (other control))

/-- Bring a qubit in |0> to a declared state. -/
noncomputable def prepared (k : QCPUKernel ℝ) (q : ℕ) : Label → QCPUKernel ℝ
  | .zero => k
  | .one => (qcpuKernelApplyX k q).2
  | .plus => (qcpuKernelApplyH k q).2
  | .minus => (qcpuKernelApplyH (qcpuKernelApplyX k q).2 q).2

noncomputable def Gate.apply (k : QCPUKernel ℝ) : Gate → QCPUKernel ℝ
  | .declare q state => prepared k q state
  | .hadamard q => (qcpuKernelApplyH k q).2
  | .cnot control => (qcpuKernelApplyCx k control (other control)).2

/-- The state vector after the statements. -/
noncomputable def vector (seed : UInt64) (gates : List Gate) : QCPUKernel ℝ :=
  gates.foldl Gate.apply (qcpuKernelInit true .cleared 2 seed).2

/-- The probability that a qubit of the vector reads 0. -/
noncomputable def marginal (k : QCPUKernel ℝ) (q : ℕ) : ℝ :=
  ∑ i ∈ Finset.range (2 ^ k.qubitCount) with i &&& qcpuQubitMask k q = 0, (entry k.amplitudes i).weight

section Vector
variable {k : QCPUKernel ℝ} {f : Fin 2 → Label}

/-- A kernel of two qubits in any state. -/
structure Pair (k : QCPUKernel ℝ) : Prop where
  ready : k.Ready
  qubits : k.qubitCount = 2

/-- The index of the basis state with the given bits. -/
def index (b : Fin 2 → Bool) : ℕ := 2 * (b 0).toNat + (b 1).toNat

/-- Each qubit of the kernel is in a state of its own. -/
structure Separate (k : QCPUKernel ℝ) (f : Fin 2 → Label) : Prop extends Pair k where
  entries : ∀ b, entry k.amplitudes (index b) = ⟨(f 0).amp (b 0) * (f 1).amp (b 1), 0⟩

/-- The two basis states in which a qubit reads 0. -/
theorem marginal_eq (h : Pair k) (q : Fin 2) :
    marginal k q = (entry k.amplitudes (index fun _ => false)).weight +
      (entry k.amplitudes (index (Function.update (fun _ => false) (other q) true))).weight := by
  unfold marginal
  rw [qubitMask_eq,h.qubits,Finset.sum_filter]
  fin_cases q <;> simp [Finset.sum_range_succ,index,other]

/-- The sign the upper entry has in the two results of a Hadamard gate. -/
noncomputable def bitSign (bit : Bool) : ℝ := if bit then -1 else 1

theorem Label.amp_hadamard (l : Label) (bit : Bool) :
    l.hadamard.amp bit = (l.amp false + bitSign bit * l.amp true) / rootTwo := by
  have hroot := rootTwo_mul_self
  have hne := rootTwo_ne_zero
  cases l <;> cases bit <;> simp only [Label.hadamard,Label.amp,bitSign,Bool.false_eq_true,↓reduceIte]
  all_goals field_simp
  all_goals nlinarith

/-- The amplitudes of a state add up to one. -/
theorem Label.norm (l : Label) : l.amp false * l.amp false + l.amp true * l.amp true = 1 := by
  have hroot := rootTwo_mul_self
  have hne := rootTwo_ne_zero
  cases l <;> simp only [Label.amp,Bool.false_eq_true,↓reduceIte]
  all_goals field_simp
  all_goals nlinarith

theorem Pair.lt (h : Pair k) (q : Fin 2) : (q : ℕ) < k.qubitCount := q.isLt.trans_eq h.qubits.symm

theorem Pair.of_frame {k' : QCPUKernel ℝ} (h : Pair k) (hframe : GateFrame k k') : Pair k' :=
  ⟨hframe.ready h.ready,hframe.qubits.trans h.qubits⟩

theorem index_lt (b : Fin 2 → Bool) : index b < 4 := by
  have hfirst := (b 0).toNat_le
  have hsecond := (b 1).toNat_le
  unfold index
  omega

theorem testBit_index (b : Fin 2 → Bool) (q : Fin 2) : (index b).testBit (1 - q) = b q := by
  have hupper : ∀ x y : Bool, (2 * x.toNat + y.toNat).testBit 1 = x := by decide
  have hlower : ∀ x y : Bool, (2 * x.toNat + y.toNat).testBit 0 = y := by decide
  fin_cases q
  · exact hupper (b 0) (b 1)
  · exact hlower (b 0) (b 1)

theorem index_flip (b : Fin 2 → Bool) (q : Fin 2) : index b ^^^ 2 ^ (1 - (q : ℕ)) = index (Function.update b q (!b q)) := by
  unfold index
  fin_cases q <;> cases hx : b 0 <;> cases hy : b 1 <;> simp [hx,hy]

theorem update_bit {b : Fin 2 → Bool} {q : Fin 2} {x : Bool} (h : b q = x) : Function.update b q x = b := by
  rw [← h,Function.update_eq_self]

theorem applyH_pair (h : Pair k) (q : Fin 2) : Pair (qcpuKernelApplyH k q).2 ∧ ∀ b,
    entry (qcpuKernelApplyH k q).2.amplitudes (index b) =
      hadamardSum (entry k.amplitudes (index (Function.update b q false)))
        (entry k.amplitudes (index (Function.update b q true))) (bitSign (b q)) := by
  obtain ⟨k',happly,hframe,-,hentry⟩ := applyH_spec h.ready (h.lt q)
  simp only [qubitMask_eq,h.qubits] at hentry
  rw [happly]
  refine ⟨h.of_frame hframe,fun b => ?_⟩
  rw [hentry _ (index_lt b),testBit_index,index_flip]
  cases hq : b q with
  | true => rw [if_pos rfl,update_bit hq,hadamardPair_eq,Bool.not_true,bitSign,if_pos rfl]
  | false => rw [if_neg Bool.false_ne_true,update_bit hq,hadamardPair_eq,Bool.not_false,bitSign,if_neg Bool.false_ne_true]

theorem applyX_pair (h : Pair k) (q : Fin 2) : Pair (qcpuKernelApplyX k q).2 ∧ ∀ b,
    entry (qcpuKernelApplyX k q).2.amplitudes (index b) = entry k.amplitudes (index (Function.update b q (!b q))) := by
  obtain ⟨k',happly,hframe,-,hentry⟩ := applyX_spec h.ready (h.lt q)
  simp only [qubitMask_eq,h.qubits] at hentry
  rw [happly]
  refine ⟨h.of_frame hframe,fun b => ?_⟩
  rw [hentry _ (index_lt b),index_flip]

theorem applyCx_pair (h : Pair k) (c : Fin 2) : Pair (qcpuKernelApplyCx k c (other c)).2 ∧ ∀ b,
    entry (qcpuKernelApplyCx k c (other c)).2.amplitudes (index b) =
      entry k.amplitudes (index (if b c then Function.update b (other c) (!b (other c)) else b)) := by
  obtain ⟨k',happly,hframe,-,hentry⟩ := applyCx_spec h.ready (h.lt c) (h.lt (other c)) (by fin_cases c <;> decide)
  simp only [qubitMask_eq,h.qubits] at hentry
  rw [happly]
  refine ⟨h.of_frame hframe,fun b => ?_⟩
  rw [hentry _ (index_lt b),testBit_index,index_flip]
  split_ifs <;> rfl

theorem Separate.applyH (h : Separate k f) (q : Fin 2) :
    Separate (qcpuKernelApplyH k q).2 (Function.update f q (f q).hadamard) := by
  obtain ⟨hpair,hentry⟩ := applyH_pair h.toPair q
  refine ⟨hpair,fun b => ?_⟩
  rw [hentry,h.entries,h.entries]
  fin_cases q <;> simp [hadamardSum,Label.amp_hadamard] <;> ring

theorem Separate.applyX (h : Separate k f) {q : Fin 2} (hq : f q = .zero) :
    Separate (qcpuKernelApplyX k q).2 (Function.update f q .one) := by
  obtain ⟨hpair,hentry⟩ := applyX_pair h.toPair q
  have hflip : ∀ bit, Label.zero.amp (!bit) = Label.one.amp bit := by
    intro bit
    cases bit <;> rfl
  refine ⟨hpair,fun b => ?_⟩
  rw [hentry,h.entries]
  fin_cases q
  · have hq : f 0 = .zero := hq
    simp [hq,hflip]
  · have hq : f 1 = .zero := hq
    simp [hq,hflip]

theorem Separate.prepared (h : Separate k f) {q : Fin 2} (hq : f q = .zero) (state : Label) :
    Separate (prepared k q state) (Function.update f q state) := by
  cases state with
  | zero =>
    have hsame : Function.update f q .zero = f := by rw [← hq,Function.update_eq_self]
    rw [hsame]
    exact h
  | one => exact h.applyX hq
  | plus =>
    have hh := h.applyH q
    rwa [hq] at hh
  | minus =>
    have hh := (h.applyX hq).applyH q
    rwa [Function.update_self,Function.update_idem] at hh

/-- Control and target for which the target of a controlled X ends in the state of the control. -/
def Copies (control target : Label) : Prop :=
  control = .zero ∧ target = .zero ∨ control = .one ∧ target = .zero ∨ control = .plus ∧ target = .plus

instance (control target : Label) : Decidable (Copies control target) :=
  inferInstanceAs (Decidable (_ ∨ _))

theorem Copies.amp {x y : Label} (h : Copies x y) (upper lower : Bool) :
    x.amp upper * y.amp (if upper then !lower else lower) = x.amp upper * x.amp lower := by
  rcases h with ⟨rfl,rfl⟩ | ⟨rfl,rfl⟩ | ⟨rfl,rfl⟩ <;> cases upper <;> cases lower <;> simp [Label.amp]

theorem Separate.applyCx (h : Separate k f) {c : Fin 2} (hc : Copies (f c) (f (other c))) :
    Separate (qcpuKernelApplyCx k c (other c)).2 (Function.update f (other c) (f c)) := by
  obtain ⟨hpair,hentry⟩ := applyCx_pair h.toPair c
  refine ⟨hpair,fun b => ?_⟩
  rw [hentry,h.entries]
  fin_cases c
  · have hamp := Copies.amp (show Copies (f 0) (f 1) from hc) (b 0) (b 1)
    cases hb : b 0 <;> simp_all [other]
  · have hamp := Copies.amp (show Copies (f 1) (f 0) from hc) (b 1) (b 0)
    cases hb : b 1 <;> simp_all [other,mul_comm]

theorem weight_product (x y : ℝ) : (⟨x * y, 0⟩ : Amplitude ℝ).weight = x * x * (y * y) := by
  rw [weight_eq]
  ring

/-- A qubit in a state of its own reads 0 with the probability of that state. -/
theorem Separate.marginal_eq (h : Separate k f) (q : Fin 2) : marginal k q = (f q).amp false * (f q).amp false := by
  have hnorm := (f (other q)).norm
  rw [TwoQbits.marginal_eq h.toPair,h.entries,h.entries,weight_product,weight_product]
  fin_cases q
  · have hnorm : (f 1).amp false * (f 1).amp false + (f 1).amp true * (f 1).amp true = 1 := hnorm
    have hsum : (f 0).amp false * (f 0).amp false * ((f 1).amp false * (f 1).amp false) +
        (f 0).amp false * (f 0).amp false * ((f 1).amp true * (f 1).amp true) =
        (f 0).amp false * (f 0).amp false := by
      rw [← mul_add,hnorm,mul_one]
    simpa [other] using hsum
  · have hnorm : (f 0).amp false * (f 0).amp false + (f 0).amp true * (f 0).amp true = 1 := hnorm
    have hsum : (f 0).amp false * (f 0).amp false * ((f 1).amp false * (f 1).amp false) +
        (f 0).amp true * (f 0).amp true * ((f 1).amp false * (f 1).amp false) =
        (f 1).amp false * (f 1).amp false := by
      rw [← add_mul,hnorm,one_mul]
    simpa [other] using hsum

def Superposed (l : Label) : Prop := l = .plus ∨ l = .minus

theorem Superposed.half {l : Label} (h : Superposed l) (bit : Bool) : l.amp bit * l.amp bit = 1 / 2 := by
  have hroot := rootTwo_mul_self
  have hne := rootTwo_ne_zero
  rcases h with rfl | rfl <;> cases bit <;> simp only [Label.amp,Bool.false_eq_true,↓reduceIte] <;> field_simp <;> nlinarith

/-- A controlled X with its control in superposition leaves both qubits undecided. -/
theorem Separate.entangled (h : Separate k f) {c : Fin 2} (hc : Superposed (f c)) (q : Fin 2) :
    marginal (qcpuKernelApplyCx k c (other c)).2 q = 1 / 2 := by
  obtain ⟨hpair,hentry⟩ := applyCx_pair h.toPair c
  have hnorm := (f (other c)).norm
  have hfalse := hc.half false
  have htrue := hc.half true
  rw [TwoQbits.marginal_eq hpair,hentry,hentry,h.entries,h.entries,weight_product,weight_product]
  fin_cases c <;> fin_cases q <;> simp_all [other] <;> linarith

end Vector

section Lookup
variable {D : Type} [Doubles D] {vm : VM D} {n m : Bytes}

/-- The pair of a qbit that is found. -/
def Shows (vm : VM D) (n : Bytes) (a b : D) : Prop := ∃ e, vm.qbit? n = some e ∧ e.a = a ∧ e.b = b

omit [Doubles D] in
theorem Shows.found {a b : D} (h : Shows vm n a b) : ∃ i, vm.findQbit n = some i := by
  obtain ⟨e,he,-⟩ := h
  obtain ⟨i,hi,-⟩ := Option.bind_eq_some_iff.mp he
  exact ⟨i,hi⟩

theorem shows_hadamard (rand : ℕ → ℤ) {a b : D} (h : Shows vm n a b) :
    Shows (vm.act rand (.hadamard n)) n (div (add a b) (sqrt (ofInt 2))) (div (sub a b) (sqrt (ofInt 2))) ∧
      ∀ m, m ≠ n → (vm.act rand (.hadamard n)).qbit? m = vm.qbit? m := by
  obtain ⟨e,he,rfl,rfl⟩ := h
  have hturned := qbit?_hadamard rand he
  exact ⟨⟨turned e,(hturned n).trans (if_pos rfl),rfl,rfl⟩,fun m hm => (hturned m).trans (if_neg hm)⟩

/-- A cnot gives the target the pair of the control. -/
theorem shows_cnot (rand : ℕ → ℤ) {c t : Bytes} (hne : c ≠ t) {a b a' b' : D} (hc : Shows vm c a b)
    (ht : Shows vm t a' b') :
    Shows (vm.act rand (.cnot c t)) c a b ∧ Shows (vm.act rand (.cnot c t)) t a b := by
  obtain ⟨i,hi⟩ := hc.found
  obtain ⟨j,hj⟩ := ht.found
  obtain ⟨control,hcontrol,rfl,rfl⟩ := hc
  obtain ⟨target,htarget,-,-⟩ := ht
  have hact : ∀ m, (vm.act rand (.cnot c t)).qbit? m = (vm.link i j c t).qbit? m := by
    intro m
    apply qbit?_congr
    rw [VM.act,VM.cnotQbits,hi,hj]
    rfl
  have hlinked := qbit?_link hi hj hcontrol htarget
  refine ⟨⟨_,(hact c).trans ((hlinked c).trans ((if_neg hne).trans (if_pos rfl))),rfl,rfl⟩,
    ⟨_,(hact t).trans ((hlinked t).trans (if_pos rfl)),rfl,rfl⟩⟩

end Lookup
/-- What the statements so far say about the qbits: which are declared, and the state each
of them is in, unless a cnot has entangled them. -/
structure Shape where
  declared : Fin 2 → Bool
  state : Option (Fin 2 → Label)

def Shape.fresh : Shape := ⟨fun _ => false, some fun _ => .zero⟩

def InBasis (l : Label) : Prop := l = .zero ∨ l = .one

instance (l : Label) : Decidable (Superposed l) := inferInstanceAs (Decidable (_ ∨ _))
instance (l : Label) : Decidable (InBasis l) := inferInstanceAs (Decidable (_ ∨ _))

/-- The statements under which the pairs of the VM stay right: one declaration of each qbit
before its gates, no gate on entangled qbits, and a cnot only where the copy is what it does
or where it entangles a superposed control with a target in a basis state. -/
def Shape.step (s : Shape) (gate : Gate) : Option Shape :=
  match gate, s.state with
  | _, none => none
  | .declare q state, some f =>
    if s.declared q then none
    else some ⟨Function.update s.declared q true, some (Function.update f q state)⟩
  | .hadamard q, some f =>
    if s.declared q then some { s with state := some (Function.update f q (f q).hadamard) } else none
  | .cnot c, some f =>
    if s.declared 0 && s.declared 1 then
      if Copies (f c) (f (other c)) then some { s with state := some (Function.update f (other c) (f c)) }
      else if Superposed (f c) ∧ InBasis (f (other c)) then some { s with state := none }
      else none
    else none

section Tracks
variable {name : Fin 2 → Bytes} {s s' : Shape} {vm : VM ℝ} {k : QCPUKernel ℝ} {rand : ℕ → ℤ}

/-- The VM and the vector are in the state the statements describe. -/
structure Tracks (name : Fin 2 → Bytes) (s : Shape) (vm : VM ℝ) (k : QCPUKernel ℝ) : Prop where
  room : vm.qbits.length = (s.declared 0).toNat + (s.declared 1).toNat
  absent : ∀ q, s.declared q = false → vm.findQbit (name q) = none
  separate : ∀ f, s.state = some f → Separate k f ∧ ∀ q, (s.declared q = false → f q = .zero) ∧
    (s.declared q = true → Shows vm (name q) ((f q).amp false) ((f q).amp true))
  entangled : s.state = none → Pair k ∧ ∀ q, s.declared q = true ∧ marginal k q = 1 / 2 ∧
    ∃ l, Superposed l ∧ Shows vm (name q) (l.amp false) (l.amp true)

/-- What the VM shows is what the vector gives. -/
theorem Tracks.agree (h : Tracks name s vm k) {q : Fin 2} {e : VMQbit ℝ} (he : vm.qbit? (name q) = some e) :
    e.a * e.a = marginal k q := by
  have hshown : ∀ {a b : ℝ}, Shows vm (name q) a b → e.a = a := by
    rintro a b ⟨e',he',rfl,-⟩
    rw [Option.some.inj (he.symm.trans he')]
  cases hs : s.state with
  | none =>
    obtain ⟨-,hq⟩ := h.entangled hs
    obtain ⟨-,hmarginal,l,hl,hshows⟩ := hq q
    rw [hshown hshows,hl.half,hmarginal]
  | some f =>
    obtain ⟨hseparate,hq⟩ := h.separate f hs
    cases hd : s.declared q with
    | false =>
      rw [VM.qbit?,h.absent q hd] at he
      cases he
    | true => rw [hshown ((hq q).2 hd),hseparate.marginal_eq]

theorem names_length (vm : VM ℝ) : vm.qbits.length = vm.names.length := (List.length_map _).symm

theorem findQbit_none (vm : VM ℝ) (n : Bytes) : vm.findQbit n = none ↔ n ∉ vm.names := by
  rw [← findQbit_isSome,Option.not_isSome_iff_eq_none]

theorem name_ne (hname : name 0 ≠ name 1) {q q' : Fin 2} (h : q ≠ q') : name q ≠ name q' := by
  fin_cases q <;> fin_cases q'
  · exact absurd rfl h
  · exact hname
  · exact hname.symm
  · exact absurd rfl h

theorem declared_le (d : Fin 2 → Bool) : (d 0).toNat + (d 1).toNat ≤ 2 := by
  have hfirst := (d 0).toNat_le
  have hsecond := (d 1).toNat_le
  omega

theorem declared_update {d : Fin 2 → Bool} {q : Fin 2} (h : d q = false) :
    (Function.update d q true 0).toNat + (Function.update d q true 1).toNat = (d 0).toNat + (d 1).toNat + 1 := by
  fin_cases q
  · have h : d 0 = false := h
    simp [h,Nat.add_comm]
  · have h : d 1 = false := h
    simp [h]

theorem Tracks.kept (h : Tracks name s vm k) {vm' : VM ℝ} (hnames : vm'.names = vm.names) :
    vm'.qbits.length = (s.declared 0).toNat + (s.declared 1).toNat ∧
      ∀ q, s.declared q = false → vm'.findQbit (name q) = none := by
  refine ⟨?_,fun q hd => ?_⟩
  · rw [names_length,hnames,← names_length,h.room]
  · rw [findQbit_congr hnames]
    exact h.absent q hd

variable [NumberText]

/-- The pair of a declared state is the one its text stands for. -/
theorem stateOf_text (l : Label) : VM.stateOf l.text = some (l.amp false, l.amp true) := by
  simp only [VM.stateOf,ofInt_eq,div_eq,sqrt_eq,Int.cast_one,Int.cast_zero,Int.cast_ofNat,Int.cast_neg]
  cases l with
  | zero => exact if_pos rfl
  | one => rw [if_neg (by decide)]; exact if_pos rfl
  | plus => rw [if_neg (by decide),if_neg (by decide)]; exact if_pos rfl
  | minus => rw [if_neg (by decide),if_neg (by decide),if_neg (by decide)]; exact if_pos rfl

theorem Tracks.declare (hname : name 0 ≠ name 1) (h : Tracks name s vm k) {f : Fin 2 → Label} (hs : s.state = some f)
    {q : Fin 2} (hd : s.declared q = false) (l : Label) :
    Tracks name ⟨Function.update s.declared q true, some (Function.update f q l)⟩
      (vm.act rand (.createQbit (name q) l.text)) (prepared k q l) := by
  obtain ⟨hseparate,hq⟩ := h.separate f hs
  have hnew := (findQbit_none vm (name q)).mp (h.absent q hd)
  have hroom : vm.qbits.length < maxVmQbits := by
    have hle := declared_le s.declared
    rw [h.room]
    unfold maxVmQbits
    omega
  have hnames : (vm.act rand (.createQbit (name q) l.text)).names = vm.names ++ [name q] := by
    rw [act_names,namesAfter,if_neg]
    rw [← names_length]
    rintro (hmem | hfull)
    · exact hnew hmem
    · exact hfull hroom
  have hqbit : ∀ m, (vm.act rand (.createQbit (name q) l.text)).qbit? m =
      if m = name q then some ⟨name q, l.amp false, l.amp true, false, -1, []⟩ else vm.qbit? m := by
    intro m
    rw [VM.act,qbit?_createQbit,qbit?_eq_none.mpr (h.absent q hd),declaredAs,stateOf_text]
    exact if_congr (and_iff_left fun _ => hroom) rfl rfl
  refine ⟨?_,fun q' hd' => ?_,?_,fun hnone => (Option.some_ne_none _ hnone).elim⟩
  · rw [names_length,hnames,List.length_append,List.length_singleton,← names_length,h.room,declared_update hd]
  · have hd' : Function.update s.declared q true q' = false := hd'
    by_cases hqq : q' = q
    · subst hqq
      rw [Function.update_self] at hd'
      cases hd'
    · rw [Function.update_of_ne hqq] at hd'
      rw [findQbit_none,hnames,List.mem_append,List.mem_singleton,not_or]
      exact ⟨(findQbit_none vm _).mp (h.absent q' hd'),name_ne hname hqq⟩
  · rintro _ ⟨rfl⟩
    refine ⟨hseparate.prepared ((hq q).1 hd) l,fun q' => ?_⟩
    show (Function.update s.declared q true q' = false → _) ∧ (Function.update s.declared q true q' = true → _)
    by_cases hqq : q' = q
    · subst hqq
      rw [Function.update_self,Function.update_self]
      exact ⟨fun hfalse => absurd hfalse (by decide),fun _ => ⟨_,(hqbit _).trans (if_pos rfl),rfl,rfl⟩⟩
    · rw [Function.update_of_ne hqq,Function.update_of_ne hqq]
      refine ⟨(hq q').1,fun hd' => ?_⟩
      obtain ⟨e,he,ha,hb⟩ := (hq q').2 hd'
      exact ⟨e,(hqbit _).trans ((if_neg (name_ne hname hqq)).trans he),ha,hb⟩

theorem Tracks.hadamard (hname : name 0 ≠ name 1) (h : Tracks name s vm k) {f : Fin 2 → Label} (hs : s.state = some f)
    {q : Fin 2} (hd : s.declared q = true) :
    Tracks name { s with state := some (Function.update f q (f q).hadamard) }
      (vm.act rand (.hadamard (name q))) (qcpuKernelApplyH k q).2 := by
  obtain ⟨hseparate,hq⟩ := h.separate f hs
  obtain ⟨hroom,habsent⟩ := h.kept (act_names rand vm (.hadamard (name q)))
  obtain ⟨hown,hothers⟩ := shows_hadamard rand ((hq q).2 hd)
  refine ⟨hroom,habsent,?_,nofun⟩
  rintro _ ⟨rfl⟩
  refine ⟨hseparate.applyH q,fun q' => ?_⟩
  by_cases hqq : q' = q
  · subst hqq
    rw [Function.update_self]
    refine ⟨fun hd' => absurd (hd.symm.trans hd') (by decide),fun _ => ?_⟩
    rw [Label.amp_hadamard,Label.amp_hadamard]
    simpa [bitSign,sub_eq_add_neg,rootTwo] using hown
  · rw [Function.update_of_ne hqq]
    refine ⟨(hq q').1,fun hd' => ?_⟩
    obtain ⟨e,he,ha,hb⟩ := (hq q').2 hd'
    exact ⟨e,(hothers _ (name_ne hname hqq)).trans he,ha,hb⟩

/-- Both qbits show the state of the control after a cnot. -/
theorem Tracks.copied (hname : name 0 ≠ name 1) (h : Tracks name s vm k) {f : Fin 2 → Label} (hs : s.state = some f)
    (hd : ∀ q, s.declared q = true) (rand : ℕ → ℤ) (c q : Fin 2) :
    Shows (vm.act rand (.cnot (name c) (name (other c)))) (name q) ((f c).amp false) ((f c).amp true) := by
  obtain ⟨-,hq⟩ := h.separate f hs
  obtain ⟨hcontrol,htarget⟩ := shows_cnot rand (name_ne hname (other_ne c).symm) ((hq c).2 (hd c))
    ((hq (other c)).2 (hd (other c)))
  rcases eq_or_eq_other q c with rfl | rfl
  · exact hcontrol
  · exact htarget

theorem Tracks.cnot (hname : name 0 ≠ name 1) (h : Tracks name s vm k) {f : Fin 2 → Label} (hs : s.state = some f)
    (hd : ∀ q, s.declared q = true) {c : Fin 2} (hc : Copies (f c) (f (other c))) :
    Tracks name { s with state := some (Function.update f (other c) (f c)) }
      (vm.act rand (.cnot (name c) (name (other c)))) (qcpuKernelApplyCx k c (other c)).2 := by
  obtain ⟨hseparate,-⟩ := h.separate f hs
  obtain ⟨hroom,habsent⟩ := h.kept (act_names rand vm (.cnot (name c) (name (other c))))
  refine ⟨hroom,habsent,?_,nofun⟩
  rintro _ ⟨rfl⟩
  refine ⟨hseparate.applyCx hc,fun q => ⟨fun hd' => ?_,fun _ => ?_⟩⟩
  · have hd' : s.declared q = false := hd'
    rw [hd q] at hd'
    cases hd'
  · have hsame : Function.update f (other c) (f c) q = f c := by
      rcases eq_or_eq_other q c with rfl | rfl
      · rw [Function.update_of_ne (other_ne q).symm]
      · rw [Function.update_self]
    rw [hsame]
    exact h.copied hname hs hd rand c q

theorem Tracks.cnotEntangled (hname : name 0 ≠ name 1) (h : Tracks name s vm k) {f : Fin 2 → Label}
    (hs : s.state = some f) (hd : ∀ q, s.declared q = true) {c : Fin 2} (hc : Superposed (f c)) :
    Tracks name { s with state := none }
      (vm.act rand (.cnot (name c) (name (other c)))) (qcpuKernelApplyCx k c (other c)).2 := by
  obtain ⟨hseparate,-⟩ := h.separate f hs
  obtain ⟨hroom,habsent⟩ := h.kept (act_names rand vm (.cnot (name c) (name (other c))))
  refine ⟨hroom,habsent,nofun,fun _ => ⟨(applyCx_pair hseparate.toPair c).1,fun q => ⟨hd q,?_,f c,hc,?_⟩⟩⟩
  · exact hseparate.entangled hc q
  · exact h.copied hname hs hd rand c q

theorem Tracks.step (hname : name 0 ≠ name 1) (h : Tracks name s vm k) {gate : Gate} (hstep : s.step gate = some s') :
    Tracks name s' (vm.act rand (gate.action name)) (gate.apply k) := by
  cases hs : s.state with
  | none => simp only [Shape.step,hs] at hstep; cases hstep
  | some f =>
    cases gate with
    | declare q l =>
      simp only [Shape.step,hs] at hstep
      split_ifs at hstep with hd
      cases hstep
      exact h.declare hname hs (Bool.not_eq_true _ ▸ hd) l
    | hadamard q =>
      simp only [Shape.step,hs] at hstep
      split_ifs at hstep with hd
      cases hstep
      exact h.hadamard hname hs hd
    | cnot c =>
      simp only [Shape.step,hs] at hstep
      split_ifs at hstep with hd hc he
      all_goals
        cases hstep
        rw [Bool.and_eq_true] at hd
        have hboth : ∀ q, s.declared q = true := by
          intro q
          fin_cases q
          exacts [hd.1,hd.2]
      · exact h.cnot hname hs hboth hc
      · exact h.cnotEntangled hname hs hboth he.1

/-- The VM after the statements. -/
noncomputable def runVM (name : Fin 2 → Bytes) (rand : ℕ → ℤ) (gates : List Gate) : VM ℝ :=
  gates.foldl (fun vm gate => vm.act rand (gate.action name)) (emptyVM ℝ)

theorem Tracks.run (hname : name 0 ≠ name 1) (rand : ℕ → ℤ) (h : Tracks name s vm k) {gates : List Gate}
    (hrun : Transition.run Shape.step s gates = some s') :
    Tracks name s' (gates.foldl (fun vm gate => vm.act rand (gate.action name)) vm) (gates.foldl Gate.apply k) := by
  induction gates generalizing s vm k with
  | nil => exact Option.some.inj hrun ▸ h
  | cons gate gates ih =>
    obtain ⟨m,hm,hrest⟩ := run_cons _ hrun
    exact ih (h.step hname hm) hrest

omit [NumberText] in
theorem tracks_fresh (name : Fin 2 → Bytes) (seed : UInt64) :
    Tracks name .fresh (emptyVM ℝ) (qcpuKernelInit true .cleared 2 seed).2 := by
  obtain ⟨k,hinit,hready,hqubits,-,-,hentry⟩ := init_spec (.cleared : QCPUKernel ℝ) (show 0 < 2 by decide) (by decide) seed
  rw [hqubits] at hentry
  rw [hinit]
  refine ⟨rfl,fun _ _ => rfl,?_,nofun⟩
  rintro _ ⟨rfl⟩
  refine ⟨⟨⟨hready,hqubits⟩,fun b => ?_⟩,fun q => ⟨fun _ => rfl,nofun⟩⟩
  rw [hentry _ (index_lt b)]
  unfold index
  cases b 0 <;> cases b 1 <;> simp [Label.amp,Amplitude.one,Amplitude.zero]

omit [NumberText] in
/-- A declaration that was let through is on record. -/
theorem step_declared {gate : Gate} (hstep : s.step gate = some s') {q : Fin 2}
    (h : s.declared q = true ∨ ∃ l, gate = .declare q l) : s'.declared q = true := by
  cases hs : s.state with
  | none => simp only [Shape.step,hs] at hstep; cases hstep
  | some f =>
    cases gate with
    | declare q' l =>
      simp only [Shape.step,hs] at hstep
      split_ifs at hstep
      cases hstep
      by_cases hq : q = q'
      · subst hq
        exact Function.update_self ..
      · refine (Function.update_of_ne hq ..).trans (h.resolve_right ?_)
        rintro ⟨_,⟨⟩⟩
        exact hq rfl
    | hadamard q' =>
      simp only [Shape.step,hs] at hstep
      split_ifs at hstep
      cases hstep
      exact h.resolve_right nofun
    | cnot c =>
      simp only [Shape.step,hs] at hstep
      split_ifs at hstep
      all_goals
        cases hstep
        exact h.resolve_right nofun

omit [NumberText] in
theorem run_declared {gates : List Gate} (hrun : Transition.run Shape.step s gates = some s') {q : Fin 2}
    (h : s.declared q = true ∨ ∃ l, .declare q l ∈ gates) : s'.declared q = true := by
  induction gates generalizing s with
  | nil =>
    cases hrun
    exact h.resolve_right nofun
  | cons gate gates ih =>
    obtain ⟨m,hm,hrest⟩ := run_cons _ hrun
    apply ih hrest
    rcases h with hd | ⟨l,hl⟩
    · exact Or.inl (step_declared hm (Or.inl hd))
    · rcases List.mem_cons.mp hl with hhead | htail
      · exact Or.inl (step_declared hm (Or.inr ⟨l,hhead.symm⟩))
      · exact Or.inr ⟨l,htail⟩

omit [NumberText] in
theorem Tracks.exists (h : Tracks name s vm k) {q : Fin 2} (hd : s.declared q = true) :
    ∃ e, vm.qbit? (name q) = some e := by
  cases hs : s.state with
  | none =>
    obtain ⟨-,-,l,-,e,he,-⟩ := (h.entangled hs).2 q
    exact ⟨e,he⟩
  | some f =>
    obtain ⟨e,he,-⟩ := ((h.separate f hs).2 q).2 hd
    exact ⟨e,he⟩

/-- As long as the statements meet the condition, the probability with which the VM would read
0 is the one of the state vector, for each qbit and after each statement. -/
theorem marginals_agree (hname : name 0 ≠ name 1) (rand : ℕ → ℤ) (seed : UInt64) {gates : List Gate}
    (h : Transition.run Shape.step .fresh gates = some s) (n : ℕ) (q : Fin 2) :
    ((∃ l, .declare q l ∈ gates.take n) → ∃ e, (runVM name rand (gates.take n)).qbit? (name q) = some e) ∧
      ∀ e, (runVM name rand (gates.take n)).qbit? (name q) = some e →
        e.a * e.a = marginal (vector seed (gates.take n)) q := by
  obtain ⟨m,hm⟩ := run_take _ h n
  have htracks := (tracks_fresh name seed).run hname rand hm
  exact ⟨fun hl => htracks.exists (run_declared hm (Or.inr hl)),fun e he => htracks.agree he⟩

end Tracks

def pairNames : Fin 2 → Bytes := ![str "q", str "p"]

/-- The Bell sequence of the examples meets the condition. -/
theorem marginals_agree_bell : letI := noNumbers
    ∃ e, (runVM pairNames (fun _ => 0) [.declare 0 .zero, .declare 1 .zero, .hadamard 0, .cnot 0]).qbit? (str "p") =
      some e ∧ e.a * e.a = marginal (vector 1 [.declare 0 .zero, .declare 1 .zero, .hadamard 0, .cnot 0]) 1 := by
  let _ := noNumbers
  have hname : pairNames 0 ≠ pairNames 1 := by decide
  have hrun : ∃ s, Transition.run Shape.step .fresh [.declare 0 .zero, .declare 1 .zero, .hadamard 0, .cnot 0] = some s :=
    ⟨_,rfl⟩
  obtain ⟨s,hs⟩ := hrun
  obtain ⟨hexists,hagree⟩ := marginals_agree hname (fun _ => 0) 1 hs 4 1
  obtain ⟨e,he⟩ := hexists ⟨.zero,by decide⟩
  exact ⟨e,he,hagree e he⟩

/-- With the control in |0> the target keeps its |1>, but the VM gives it the |0> of the control. -/
theorem marginals_differ : letI := noNumbers
    ∃ e, (runVM pairNames (fun _ => 0) [.declare 0 .zero, .declare 1 .one, .cnot 0]).qbit? (str "p") = some e ∧
      e.a * e.a = 1 ∧ marginal (vector 1 [.declare 0 .zero, .declare 1 .one, .cnot 0]) 1 = 0 := by
  let _ := noNumbers
  have hname : pairNames 0 ≠ pairNames 1 := by decide
  let f : Fin 2 → Label := Function.update (Function.update (fun _ => .zero) 0 .zero) 1 .one
  have hrun : ∃ s, Transition.run Shape.step .fresh [.declare 0 .zero, .declare 1 .one] = some s ∧ s.state = some f ∧
      ∀ q, s.declared q = true := ⟨_,rfl,rfl,by decide⟩
  obtain ⟨s,hs,hstate,hdeclared⟩ := hrun
  have htracks := (tracks_fresh pairNames 1).run hname (fun _ => 0) hs
  obtain ⟨e,he,ha,-⟩ := htracks.copied hname hstate hdeclared (fun _ => 0) 0 1
  obtain ⟨hpair,hentry⟩ := applyCx_pair (htracks.separate f hstate).1.toPair 0
  refine ⟨e,he,?_,?_⟩
  · rw [ha]
    simp [f,Label.amp]
  · refine (marginal_eq hpair 1).trans ?_
    rw [hentry,hentry,(htracks.separate f hstate).1.entries,(htracks.separate f hstate).1.entries]
    simp [f,other,Label.amp,weight_eq]

end QbitNova.TwoQbits
