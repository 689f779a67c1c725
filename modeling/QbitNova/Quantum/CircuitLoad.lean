import QbitNova.Quantum.Circuit
import QbitNova.Library.Checks

/-! # Which circuit files are safe to run

Operands are checked against the count in force at their line, but a later line may
declare another count, and the two operands of cx are compared only by the simulator.
Followed line by line, this gives exactly the files whose recorded operations all fit
the final count.
-/
namespace QbitNova.CircuitVM
open CText Sweep Scalars Quantum Checks

/-- The qubits an operation works on. -/
def Op.operands (o : Op) : List ℤ :=
  match o.op with
  | .cx => [o.a, o.b]
  | .swap => [o.a, o.b]
  | _ => [o.a]

/-- The operation can be run on a number of qubits. -/
structure Op.Fits (n : ℤ) (o : Op) : Prop where
  inRange : ∀ q ∈ o.operands, 0 ≤ q ∧ q < n
  distinct : o.op = .cx → o.a ≠ o.b

/-- What a circuit that is simulated or exported should satisfy. -/
structure Safe (c : Circuit) : Prop where
  operands : ∀ o ∈ c.ops, ∀ q ∈ o.operands, 0 ≤ q ∧ q < c.nq
  distinct : ∀ o ∈ c.ops, o.op = .cx → o.a ≠ o.b
  defined : ∀ (D : Type) [Scalars D] (phase : Amplitude D) (allocated : Bool),
    simulate phase allocated c ≠ .error .undefinedShift ∧ simulate phase allocated c ≠ .error .outOfBounds
  runs : ∀ (D : Type) [Scalars D] (phase : Amplitude D), ∃ amp, simulate phase true c = .ok amp

section Running
variable {D : Type} [Scalars D] {amp : List (Amplitude D)} {n : ℤ}

theorem gSingle_runs (hlen : amp.length = 2 ^ n.toNat) {q : ℤ} (hq : 0 ≤ q ∧ q < n) (m00 m01 m10 m11 : Amplitude D) :
    ∃ amp', gSingle amp n q m00 m01 m10 m11 = .ok amp' ∧ amp'.length = 2 ^ n.toNat := by
  rw [gSingle,if_neg (by omega),pairLoop_ok hlen (by omega)]
  exact ⟨_,rfl,by rw [length_pairSweep,hlen]⟩

theorem gCx_runs (hlen : amp.length = 2 ^ n.toNat) {c t : ℤ} (hc : 0 ≤ c ∧ c < n) (ht : 0 ≤ t ∧ t < n)
    (hne : c ≠ t) : ∃ amp', gCx amp n c t = .ok amp' ∧ amp'.length = 2 ^ n.toNat := by
  rw [gCx,if_neg hne]
  simp only []
  rw [if_neg (by omega),pairLoop_ok hlen (by omega)]
  exact ⟨_,rfl,by rw [length_pairSweep,hlen]⟩

theorem gSwap_runs (hlen : amp.length = 2 ^ n.toNat) {a b : ℤ} (ha : 0 ≤ a ∧ a < n) (hb : 0 ≤ b ∧ b < n) :
    ∃ amp', gSwap amp n a b = .ok amp' ∧ amp'.length = 2 ^ n.toNat := by
  by_cases hab : a = b
  · rw [gSwap,if_pos hab]
    exact ⟨amp,rfl,hlen⟩
  · obtain ⟨first,hfirst,hlen⟩ := gCx_runs hlen ha hb hab
    obtain ⟨second,hsecond,hlen⟩ := gCx_runs hlen hb ha (Ne.symm hab)
    obtain ⟨third,hthird,hlen⟩ := gCx_runs hlen ha hb hab
    refine ⟨third,?_,hlen⟩
    rw [gSwap,if_neg hab,hfirst]
    simp only [bind,Except.bind,hsecond]
    exact hthird

/-- An operation that fits runs and keeps the size of the array. -/
theorem applyOp_runs (phase : Amplitude D) (hlen : amp.length = 2 ^ n.toNat) {o : Op} (ho : o.Fits n) :
    ∃ amp', applyOp phase n amp o = .ok amp' ∧ amp'.length = 2 ^ n.toNat := by
  obtain ⟨op,a,b⟩ := o
  have ha : 0 ≤ a ∧ a < n := ho.inRange a (by cases op <;> simp [Op.operands])
  cases op with
  | cx => exact gCx_runs hlen ha (ho.inRange b (by simp [Op.operands])) (ho.distinct rfl)
  | swap => exact gSwap_runs hlen ha (ho.inRange b (by simp [Op.operands]))
  | _ => exact gSingle_runs hlen ha _ _ _ _

theorem foldlM_runs (phase : Amplitude D) (hlen : amp.length = 2 ^ n.toNat) {ops : List Op}
    (hops : ∀ o ∈ ops, o.Fits n) : ∃ amp', ops.foldlM (applyOp phase n) amp = .ok amp' := by
  induction ops generalizing amp with
  | nil => exact ⟨amp,rfl⟩
  | cons o ops ih =>
    obtain ⟨next,hnext,hlen⟩ := applyOp_runs phase hlen (hops o (List.mem_cons_self ..))
    obtain ⟨last,hlast⟩ := ih hlen fun o ho => hops o (List.mem_cons_of_mem _ ho)
    exact ⟨last,by rw [List.foldlM_cons,hnext]; exact hlast⟩

end Running

theorem safe_iff {c : Circuit} (hn : 0 ≤ c.nq) : Safe c ↔ ∀ o ∈ c.ops, o.Fits c.nq := by
  constructor
  · exact fun h o ho => ⟨h.operands o ho,h.distinct o ho⟩
  · intro h
    have hruns : ∀ (D : Type) [Scalars D] (phase : Amplitude D), ∃ amp, simulate phase true c = .ok amp := by
      intro D _ phase
      rw [simulate,if_neg (by omega),if_neg (by simp)]
      exact foldlM_runs phase (by rw [length_basisVector,Nat.one_shiftLeft]) h
    refine ⟨fun o ho => (h o ho).inRange,fun o ho => (h o ho).distinct,fun D _ phase allocated => ?_,hruns⟩
    cases allocated with
    | false =>
      rw [simulate,if_neg (by omega),if_pos (by simp),fail]
      exact ⟨by simp,by simp⟩
    | true =>
      obtain ⟨amp,hamp⟩ := hruns D phase
      rw [hamp]
      exact ⟨by simp,by simp⟩

section Files

/-- The line declares a count. -/
def Scanned.declares (s : Scanned) : Bool := s.got ≥ 1 && s.kw == str "qubits"

/-- The count in force after a line. -/
def Scanned.countAfter (s : Scanned) (current : ℤ) : ℤ := if s.declares then s.q1 else current

/-- The count the last declaration of the lines leaves. -/
def finalCount (current : ℤ) (file : List Scanned) : ℤ := file.foldl (fun n s => s.countAfter n) current

/-- What a line asks of the final count: a ghz that it is not below the one in force at
the line, a gate that it exceeds each operand; and a cx names two qubits. -/
def Scanned.fits (final current : ℤ) (s : Scanned) : Bool :=
  if s.got < 1 then true
  else if s.kw = str "ghz" then current ≤ final
  else if (singleGates.lookup s.kw).isSome then s.q1 < final
  else if (doubleGates.lookup s.kw).isSome then
    s.q1 < final && s.q2 < final && (s.kw != str "cx" || s.q1 != s.q2)
  else true

/-- Every line of a file fits the final count. -/
def linesFit (final : ℤ) : ℤ → List Scanned → Bool
  | _, [] => true
  | current, s :: rest => s.fits final current && linesFit final (s.countAfter current) rest

/-- A file that never declares a count too small for an earlier line and never gives
cx one qubit twice. -/
def fileFits (narrow : ℤ → ℤ) (text : Bytes) : Bool :=
  linesFit (finalCount 0 (statements narrow text)) 0 (statements narrow text)

theorem chainOps_fits {final q : ℤ} {remaining : ℕ} (hq : 0 ≤ q) :
    (∀ o ∈ chainOps q remaining, o.Fits final) ↔ (0 < remaining → q + remaining < final) := by
  induction remaining generalizing q with
  | zero => simp [chainOps]
  | succ remaining ih =>
    have hhead : (⟨.cx, q, q + 1⟩ : Op).Fits final ↔ q + 1 < final := by
      constructor
      · exact fun h => (h.inRange (q + 1) (by simp [Op.operands])).2
      · intro h
        refine ⟨?_,fun _ => (by simp)⟩
        simp only [Op.operands,List.mem_cons,List.not_mem_nil,or_false,forall_eq_or_imp,forall_eq]
        omega
    rw [chainOps,List.forall_mem_cons,hhead,ih (by omega)]
    push_cast
    constructor
    · intro h _
      by_cases hr : 0 < remaining
      · have := h.2 hr
        omega
      · omega
    · intro h
      have := h (by omega)
      exact ⟨by omega,fun _ => by omega⟩

theorem mem_of_lookup {α : Type*} {table : List (Bytes × α)} {kw : Bytes} {op : α} (h : table.lookup kw = some op) :
    (kw, op) ∈ table := by
  obtain ⟨before,after,he,-⟩ := List.lookup_eq_some_iff.mp h
  rw [he]
  simp

theorem requireQubit_ok {c : Circuit} {q : ℤ} {u : Unit} (h : requireQubit c q = .ok u) : 0 ≤ q ∧ q < c.nq := by
  unfold requireQubit fail at h
  split_ifs at h with hq
  omega

/-- What one line did: the count it left and the operations it recorded. -/
structure Recorded (s : Scanned) (c c' : Circuit) : Prop where
  count : c'.nq = s.countAfter c.nq
  nonneg : 0 ≤ c'.nq
  ops : ∃ recorded, c'.ops = c.ops ++ recorded ∧
    ∀ final, (∀ o ∈ recorded, o.Fits final) ↔ s.fits final c.nq = true

theorem recorded_single {c c' : Circuit} {s : Scanned} (hgot : ¬ s.got < 1) (hqubits : s.kw ≠ str "qubits")
    (hghz : s.kw ≠ str "ghz") {op : OpName} (hop : singleGates.lookup s.kw = some op) (hn : 0 ≤ c.nq)
    (hrange : 0 ≤ s.q1 ∧ s.q1 < c.nq) (h : addOp c op s.q1 0 = .ok c') : Recorded s c c' := by
  obtain rfl := addOp_eq h
  have hcount : s.countAfter c.nq = c.nq := by simp [Scanned.countAfter,Scanned.declares,hqubits]
  have hname : ∀ entry ∈ singleGates, Op.operands ⟨entry.2, s.q1, 0⟩ = [s.q1] ∧ entry.2 ≠ .cx := by
    simp [singleGates,Op.operands]
  obtain ⟨hoperands,hcx⟩ := hname _ (mem_of_lookup hop)
  refine ⟨hcount.symm,hn,_,rfl,fun final => ?_⟩
  rw [Scanned.fits,if_neg hgot,if_neg hghz,if_pos (by rw [hop]; rfl),decide_eq_true_eq,List.forall_mem_singleton]
  constructor
  · exact fun hf => (hf.inRange s.q1 (by rw [hoperands]; exact List.mem_singleton_self _)).2
  · intro hf
    refine ⟨fun q hq => ?_,fun he => absurd he hcx⟩
    rw [hoperands,List.mem_singleton] at hq
    omega

theorem recorded_double {c c' : Circuit} {s : Scanned} (hgot : ¬ s.got < 1) (hqubits : s.kw ≠ str "qubits")
    (hghz : s.kw ≠ str "ghz") (hnone : singleGates.lookup s.kw = none) {op : OpName}
    (hop : doubleGates.lookup s.kw = some op) (hn : 0 ≤ c.nq) (hfirst : 0 ≤ s.q1 ∧ s.q1 < c.nq)
    (hsecond : 0 ≤ s.q2 ∧ s.q2 < c.nq) (h : addOp c op s.q1 s.q2 = .ok c') : Recorded s c c' := by
  obtain rfl := addOp_eq h
  have hcount : s.countAfter c.nq = c.nq := by simp [Scanned.countAfter,Scanned.declares,hqubits]
  have hname : ∀ entry ∈ doubleGates, Op.operands ⟨entry.2, s.q1, s.q2⟩ = [s.q1, s.q2] ∧
      (entry.2 = .cx ↔ entry.1 = str "cx") := by
    intro entry hentry
    rcases List.mem_cons.mp hentry with rfl | hentry
    · exact ⟨rfl,by simp⟩
    · rcases List.mem_singleton.mp hentry with rfl
      exact ⟨rfl,by decide⟩
  obtain ⟨hoperands,hcx⟩ := hname _ (mem_of_lookup hop)
  have hcx : op = .cx ↔ s.kw = str "cx" := hcx
  refine ⟨hcount.symm,hn,_,rfl,fun final => ?_⟩
  rw [Scanned.fits,if_neg hgot,if_neg hghz,if_neg (by rw [hnone]; simp),if_pos (by rw [hop]; rfl),
    List.forall_mem_singleton]
  simp only [Bool.and_eq_true,Bool.or_eq_true,decide_eq_true_eq,bne_iff_ne]
  constructor
  · intro hf
    refine ⟨⟨(hf.inRange s.q1 (by rw [hoperands]; simp)).2,(hf.inRange s.q2 (by rw [hoperands]; simp)).2⟩,?_⟩
    by_cases hkw : s.kw = str "cx"
    · exact Or.inr (hf.distinct (hcx.mpr hkw))
    · exact Or.inl hkw
  · rintro ⟨⟨hq1,hq2⟩,hne⟩
    refine ⟨fun q hq => ?_,fun he => hne.resolve_left (not_not.mpr (hcx.mp he))⟩
    rw [hoperands] at hq
    rcases List.mem_cons.mp hq with rfl | hq
    · exact ⟨hfirst.1,hq1⟩
    · rw [List.mem_singleton.mp hq]
      exact ⟨hsecond.1,hq2⟩

theorem recorded_ghz {c c' : Circuit} {s : Scanned} (hgot : ¬ s.got < 1) (hghz : s.kw = str "ghz")
    (hn : 0 ≤ c.nq) (h : addGhz c = .ok c') : Recorded s c c' := by
  obtain ⟨htwo,rfl⟩ := addGhz_eq h
  have hcount : s.countAfter c.nq = c.nq := by
    rw [Scanned.countAfter,Scanned.declares,hghz]
    simp [show str "ghz" ≠ str "qubits" by decide]
  refine ⟨hcount.symm,hn,_,rfl,fun final => ?_⟩
  have hfirst : (⟨.h, 0, 0⟩ : Op).Fits final ↔ 0 < final := by
    constructor
    · exact fun hf => (hf.inRange 0 (by simp [Op.operands])).2
    · exact fun hf => ⟨by simpa [Op.operands] using hf,by simp⟩
  rw [Scanned.fits,if_neg hgot,if_pos hghz,decide_eq_true_eq,List.forall_mem_cons,hfirst,chainOps_fits (le_refl 0)]
  constructor
  · intro hf
    have := hf.2 (by omega)
    omega
  · exact fun hf => ⟨by omega,fun _ => by omega⟩

/-- A line that records nothing. -/
theorem recorded_nothing {c c' : Circuit} {s : Scanned} (hops : c'.ops = c.ops)
    (hcount : c'.nq = s.countAfter c.nq) (hn : 0 ≤ c'.nq) (hfits : ∀ final, s.fits final c.nq = true) :
    Recorded s c c' := ⟨hcount,hn,[],by rw [hops,List.append_nil],fun final => by simp [hfits final]⟩

theorem loadScanned_recorded {c c' : Circuit} {s : Scanned} (h : loadScanned c s = .ok c') (hn : 0 ≤ c.nq) :
    Recorded s c c' := by
  unfold loadScanned fail at h
  by_cases hgot : s.got < 1
  · rw [if_pos hgot] at h
    cases h
    refine recorded_nothing rfl ?_ hn fun final => by rw [Scanned.fits,if_pos hgot]
    simp [Scanned.countAfter,Scanned.declares,show s.got = 0 by omega]
  rw [if_neg hgot] at h
  by_cases hqubits : s.kw = str "qubits"
  · rw [if_pos hqubits] at h
    obtain ⟨-,h⟩ := passed h
    obtain ⟨hcount,h⟩ := passed h
    cases h
    have hdeclares : s.declares = true := by simp [Scanned.declares,hqubits]; omega
    refine recorded_nothing rfl (by simp [Scanned.countAfter,hdeclares]) (show 0 ≤ s.q1 by omega) fun final => ?_
    rw [Scanned.fits,if_neg hgot,hqubits]
    rfl
  rw [if_neg hqubits] at h
  by_cases hghz : s.kw = str "ghz"
  · rw [if_pos hghz] at h
    exact recorded_ghz hgot hghz hn (passed h).2
  rw [if_neg hghz] at h
  cases hsingle : singleGates.lookup s.kw with
  | some op =>
    simp only [hsingle] at h
    obtain ⟨-,h⟩ := passed h
    cases hrange : requireQubit c s.q1 with
    | error stop => rw [hrange] at h; cases h
    | ok u =>
      rw [hrange] at h
      exact recorded_single hgot hqubits hghz hsingle hn (requireQubit_ok hrange) h
  | none =>
    simp only [hsingle] at h
    cases hdouble : doubleGates.lookup s.kw with
    | some op =>
      simp only [hdouble] at h
      obtain ⟨-,h⟩ := passed h
      cases hfirst : requireQubit c s.q1 with
      | error stop => rw [hfirst] at h; cases h
      | ok u =>
        rw [hfirst] at h
        cases hsecond : requireQubit c s.q2 with
        | error stop => simp only [bind,Except.bind,hsecond] at h; cases h
        | ok u =>
          simp only [bind,Except.bind,hsecond] at h
          exact recorded_double hgot hqubits hghz hsingle hdouble hn (requireQubit_ok hfirst)
            (requireQubit_ok hsecond) h
    | none =>
      simp only [hdouble] at h
      by_cases hmeasure : s.kw = str "measure"
      · rw [if_pos hmeasure] at h
        obtain ⟨-,h⟩ := passed h
        cases h
        refine recorded_nothing rfl (by simp [Scanned.countAfter,Scanned.declares,hqubits]) hn fun final => ?_
        rw [Scanned.fits,if_neg hgot,if_neg hghz,if_neg (by rw [hsingle]; simp),if_neg (by rw [hdouble]; simp)]
      · rw [if_neg hmeasure] at h
        cases h

theorem loadLines_spec {c c' : Circuit} {file : List Scanned} (h : file.foldlM loadScanned c = .ok c')
    (hn : 0 ≤ c.nq) : c'.nq = finalCount c.nq file ∧ 0 ≤ c'.nq ∧ ∃ recorded, c'.ops = c.ops ++ recorded ∧
      ∀ final, (∀ o ∈ recorded, o.Fits final) ↔ linesFit final c.nq file = true := by
  induction file generalizing c with
  | nil =>
    cases h
    exact ⟨rfl,hn,[],(List.append_nil _).symm,by simp [linesFit]⟩
  | cons s rest ih =>
    rw [List.foldlM_cons] at h
    cases hload : loadScanned c s with
    | error stop => rw [hload] at h; cases h
    | ok next =>
      rw [hload] at h
      obtain ⟨hcount,hpos,first,hfirst,hfits⟩ := loadScanned_recorded hload hn
      obtain ⟨hfinal,hlast,others,hothers,hrest⟩ := ih h hpos
      refine ⟨?_,hlast,first ++ others,?_,fun final => ?_⟩
      · rw [hfinal,hcount]
        rfl
      · rw [hothers,hfirst,List.append_assoc]
      · rw [linesFit,Bool.and_eq_true,← hfits final,← hcount,← hrest final,List.forall_mem_append]

/-- A file that main goes on with is safe exactly when its lines fit the final count. -/
theorem safe_iff_fileFits {narrow : ℤ → ℤ} {text : Bytes} {c : Circuit}
    (h : mainCircuit narrow (some text) = .ok c) : Safe c ↔ fileFits narrow text = true := by
  have hload : (statements narrow text).foldlM loadScanned {} = .ok c := by
    unfold mainCircuit fail at h
    rw [loadCircuit] at h
    cases hl : (statements narrow text).foldlM loadScanned {} with
    | error stop => rw [hl] at h; cases h
    | ok loaded =>
      rw [hl] at h
      simp only [bind,Except.bind] at h
      split_ifs at h
      exact h
  obtain ⟨hfinal,hpos,recorded,hops,hfits⟩ := loadLines_spec hload (le_refl 0)
  rw [safe_iff hpos,hops,hfinal]
  exact hfits _

/-- A count declared after a gate that it does not cover; and a cx on one qubit, which
only the simulator refuses. -/
def shrunkFile : Bytes := str "qubits 2\nh 1\nqubits 1\n"
def sameQubitFile : Bytes := str "qubits 1\ncx 0 0\n"

theorem accepted_files_not_safe :
    (mainCircuit id (some shrunkFile) = .ok ⟨1, false, [⟨.h, 1, 0⟩]⟩ ∧ ¬ Safe ⟨1, false, [⟨.h, 1, 0⟩]⟩ ∧
      ∀ (D : Type) [Scalars D] (phase : Amplitude D),
        simulate phase true ⟨1, false, [⟨.h, 1, 0⟩]⟩ = .error .undefinedShift) ∧
    (mainCircuit id (some sameQubitFile) = .ok ⟨1, false, [⟨.cx, 0, 0⟩]⟩ ∧ ¬ Safe ⟨1, false, [⟨.cx, 0, 0⟩]⟩ ∧
      ∀ (D : Type) [Scalars D] (phase : Amplitude D),
        simulate phase true ⟨1, false, [⟨.cx, 0, 0⟩]⟩ = fail "cx control and target cannot be same") := by
  refine ⟨⟨by decide,fun h => ?_,fun D _ phase => rfl⟩,by decide,fun h => ?_,fun D _ phase => rfl⟩
  · have := h.operands ⟨.h, 1, 0⟩ (by decide) 1 (by decide)
    exact absurd this.2 (by decide)
  · exact h.distinct ⟨.cx, 0, 0⟩ (by decide) rfl rfl

/-- Redeclaring a larger count is fine. -/
def grownFile : Bytes := str "qubits 2\nghz\nqubits 3\ncx 2 0\nmeasure\n"

theorem safe_iff_fileFits_grown :
    mainCircuit id (some grownFile) = .ok ⟨3, true, [⟨.h, 0, 0⟩, ⟨.cx, 0, 1⟩, ⟨.cx, 2, 0⟩]⟩ ∧
      Safe ⟨3, true, [⟨.h, 0, 0⟩, ⟨.cx, 0, 1⟩, ⟨.cx, 2, 0⟩]⟩ := by
  have h : mainCircuit id (some grownFile) = .ok ⟨3, true, [⟨.h, 0, 0⟩, ⟨.cx, 0, 1⟩, ⟨.cx, 2, 0⟩]⟩ := by decide
  exact ⟨h,(safe_iff_fileFits h).mpr (by decide)⟩

end Files

end QbitNova.CircuitVM
