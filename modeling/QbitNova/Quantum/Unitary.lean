import QbitNova.Library.Registers
import QbitNova.Quantum.CircuitGates
import Mathlib.Analysis.SpecialFunctions.Trigonometric.Basic

/-! # The circuit VM computes the unitary of its circuit

What a circuit means is a unitary matrix on the basis states of its qubits, the product of
the textbook matrices of its gates. In exact arithmetic the loops over the array of
amplitudes multiply the state vector by that matrix, one factor for each operation.
-/
namespace QbitNova.CircuitVM
open Matrix Registers Sweep Scalars Quantum

section Textbook

/-- A matrix on one bit, row by row. -/
def bitMatrix (m00 m01 m10 m11 : ℂ) : Matrix Bool Bool ℂ :=
  Matrix.of fun i j => if i then (if j then m11 else m10) else if j then m01 else m00

/-- Orthonormal rows make a unitary matrix. -/
theorem bitMatrix_mem_unitaryGroup {m00 m01 m10 m11 : ℂ} (hfirst : m00 * star m00 + m01 * star m01 = 1)
    (hsecond : m10 * star m10 + m11 * star m11 = 1) (hrows : m00 * star m10 + m01 * star m11 = 0) :
    bitMatrix m00 m01 m10 m11 ∈ unitaryGroup Bool ℂ := by
  have hcolumns : m10 * star m00 + m11 * star m01 = 0 := by
    have h := congrArg star hrows
    simpa [mul_comm] using h
  rw [mem_unitaryGroup_iff]
  ext i j
  rw [Matrix.mul_apply,Fintype.sum_bool,star_apply,star_apply,add_comm]
  cases i <;> cases j
  · exact hfirst
  · exact hrows
  · exact hcolumns
  · exact hsecond

/-- Two phases on the diagonal. -/
theorem diagonal_mem_unitaryGroup {p : ℂ} (hp : p * star p = 1) : bitMatrix 1 0 0 p ∈ unitaryGroup Bool ℂ :=
  bitMatrix_mem_unitaryGroup (by simp) (by simpa using hp) (by simp)

noncomputable def invRootTwo : ℂ := ((1 / ExactReals.rootTwo : ℝ) : ℂ)

theorem invRootTwo_sq : invRootTwo * star invRootTwo = 1 / 2 := by
  rw [invRootTwo,Complex.star_def,Complex.conj_ofReal,← Complex.ofReal_mul,div_mul_div_comm,
    ExactReals.rootTwo_mul_self]
  norm_num

noncomputable def hadamardGate : unitaryGroup Bool ℂ :=
  ⟨bitMatrix invRootTwo invRootTwo invRootTwo (-invRootTwo),bitMatrix_mem_unitaryGroup
    (by rw [invRootTwo_sq]; norm_num) (by rw [star_neg,neg_mul_neg,invRootTwo_sq]; norm_num)
    (by rw [star_neg,mul_neg,add_neg_cancel])⟩

noncomputable def pauliX : unitaryGroup Bool ℂ :=
  ⟨bitMatrix 0 1 1 0,bitMatrix_mem_unitaryGroup (by simp) (by simp) (by simp)⟩

noncomputable def pauliY : unitaryGroup Bool ℂ :=
  ⟨bitMatrix 0 (-Complex.I) Complex.I 0,bitMatrix_mem_unitaryGroup (by simp) (by simp) (by simp)⟩

noncomputable def pauliZ : unitaryGroup Bool ℂ := ⟨bitMatrix 1 0 0 (-1),diagonal_mem_unitaryGroup (by simp)⟩

noncomputable def phaseS : unitaryGroup Bool ℂ := ⟨bitMatrix 1 0 0 Complex.I,diagonal_mem_unitaryGroup (by simp)⟩

theorem exp_mul_star (θ : ℝ) : Complex.exp (θ * Complex.I) * star (Complex.exp (θ * Complex.I)) = 1 := by
  rw [Complex.star_def,Complex.mul_conj,Complex.normSq_eq_norm_sq,Complex.norm_exp_ofReal_mul_I]
  norm_num

noncomputable def phaseT : unitaryGroup Bool ℂ :=
  ⟨bitMatrix 1 0 0 (Complex.exp ((Real.pi / 4 : ℝ) * Complex.I)),diagonal_mem_unitaryGroup (exp_mul_star _)⟩

end Textbook

section Meaning
variable {n : ℕ} {o : Op}

theorem Op.mem_operands (o : Op) : o.a ∈ o.operands := by
  unfold Op.operands
  split <;> simp

/-- The first qubit of an operation that fits. -/
def Op.Fits.first (h : o.Fits n) : Fin n :=
  ⟨o.a.toNat,by
    have hrange := h.inRange o.a o.mem_operands
    omega⟩

/-- The second qubit of an operation on two qubits that fits. -/
def Op.Fits.second (h : o.Fits n) (hmem : o.b ∈ o.operands) : Fin n :=
  ⟨o.b.toNat,by
    have hrange := h.inRange o.b hmem
    omega⟩

theorem Op.Fits.first_eq (h : o.Fits n) : ((h.first : ℕ) : ℤ) = o.a :=
  Int.toNat_of_nonneg (h.inRange o.a o.mem_operands).1

theorem Op.Fits.second_eq (h : o.Fits n) (hmem : o.b ∈ o.operands) : ((h.second hmem : ℕ) : ℤ) = o.b :=
  Int.toNat_of_nonneg (h.inRange o.b hmem).1

theorem Op.Fits.first_ne_second (h : o.Fits n) (hmem : o.b ∈ o.operands) (hcx : o.op = .cx) :
    h.first ≠ h.second hmem := by
  intro heq
  apply h.distinct hcx
  rw [← h.first_eq,← h.second_eq hmem,heq]

/-- The unitary of an operation: its textbook gate at its place. -/
noncomputable def Op.unitary (o : Op) (h : o.Fits n) : unitaryGroup (Fin n → Bool) ℂ :=
  match ho : o.op with
  | .h => place h.first hadamardGate
  | .x => place h.first pauliX
  | .y => place h.first pauliY
  | .z => place h.first pauliZ
  | .s => place h.first phaseS
  | .t => place h.first phaseT
  | .cx => permute (controlledFlip (h.first_ne_second (by simp [Op.operands,ho]) ho))
  | .swap => permute (exchange h.first (h.second (by simp [Op.operands,ho])))

/-- The unitary of a circuit; what is done first is the rightmost factor. -/
noncomputable def unitaryOf : (ops : List Op) → (∀ o ∈ ops, o.Fits n) → unitaryGroup (Fin n → Bool) ℂ
  | [], _ => 1
  | o :: ops, h =>
    unitaryOf ops (fun o ho => h o (List.mem_cons_of_mem _ ho)) * o.unitary (h o List.mem_cons_self)

end Meaning

section Refinement
variable {n : ℕ} {amp amp' : List (Amplitude ℝ)}

def complexOf (z : Amplitude ℝ) : ℂ := ⟨z.re, z.im⟩

/-- The state vector an array of amplitudes stands for. -/
noncomputable def stateOf (n : ℕ) (amp : List (Amplitude ℝ)) (x : Fin n → Bool) : ℂ := complexOf (entry amp (bigEndian x))

theorem complexOf_mul (x y : Amplitude ℝ) : complexOf (Amplitude.mul x y) = complexOf x * complexOf y := rfl

theorem complexOf_add (x y : Amplitude ℝ) : complexOf (x.add y) = complexOf x + complexOf y := rfl

theorem complexOf_real (r : ℝ) : complexOf (Amplitude.real r) = (r : ℂ) := by
  apply Complex.ext
  · rfl
  · simp [complexOf,Amplitude.real]

theorem complexOf_zero : complexOf (.zero : Amplitude ℝ) = 0 := by apply Complex.ext <;> simp [complexOf,Amplitude.zero]

theorem complexOf_one : complexOf (.one : Amplitude ℝ) = 1 := by apply Complex.ext <;> simp [complexOf,Amplitude.one]

theorem complexOf_iUnit : complexOf (iUnit : Amplitude ℝ) = Complex.I := by
  apply Complex.ext <;> simp [complexOf,iUnit]

theorem complexOf_minusIUnit : complexOf (minusIUnit : Amplitude ℝ) = -Complex.I := by
  apply Complex.ext <;> simp [complexOf,minusIUnit]

/-- Flipping the bit of a qubit. -/
theorem bigEndian_flip (x : Fin n → Bool) (q : Fin n) :
    bigEndian x ^^^ 2 ^ (n - 1 - (q : ℕ)) = bigEndian (Function.update x q (!x q)) := by
  refine eq_bigEndian (xor_two_pow_lt (bigEndian_lt x) (by omega)) fun p => ?_
  rw [testBit_xor_two_pow,testBit_bigEndian]
  by_cases hp : p = q
  · subst hp
    rw [if_pos rfl,Function.update_self]
  · have hne : (p : ℕ) ≠ q := fun h => hp (Fin.ext h)
    rw [if_neg (by omega),Function.update_of_ne hp]

/-- The loop of the single-qubit gates multiplies by the matrix at its place. -/
theorem stateOf_single {q : Fin n} {m00 m01 m10 m11 : Amplitude ℝ}
    (h : Acts n (pairAct (fun _ => true) (n - 1 - q) (matrixPair m00 m01 m10 m11)) amp amp') :
    stateOf n amp' =
      onPlace q (bitMatrix (complexOf m00) (complexOf m01) (complexOf m10) (complexOf m11)) *ᵥ stateOf n amp := by
  funext x
  rw [onPlace_mulVec,Fintype.sum_bool,stateOf,h.entry_eq _ (bigEndian_lt x),pairAct,if_pos rfl,testBit_bigEndian,
    bigEndian_flip]
  have hself := Function.update_eq_self q x
  cases hx : x q <;> rw [hx] at hself
  · simp only [Bool.not_false,Bool.false_eq_true,if_false,matrixPair,complexOf_add,complexOf_mul]
    rw [hself,add_comm]
    rfl
  · simp only [Bool.not_true,if_true,matrixPair,complexOf_add,complexOf_mul]
    rw [hself,add_comm]
    rfl

theorem stateOf_cx {c t : Fin n} (hne : c ≠ t)
    (h : Acts n (pairAct (Nat.testBit · (n - 1 - c)) (n - 1 - t) flipPair) amp amp') :
    stateOf n amp' = (permute (controlledFlip hne) : unitaryGroup (Fin n → Bool) ℂ).val *ᵥ stateOf n amp := by
  rw [permute,permMatrix_mulVec]
  funext x
  rw [stateOf,h.moved (bigEndian_lt x),Function.comp_apply,stateOf]
  apply congrArg (fun i => complexOf (entry amp i))
  have hflip : controlledFlip hne x = Function.update x t (x t ^^ x c) := rfl
  rw [hflip,flipWhere,testBit_bigEndian,bigEndian_flip]
  cases x c with
  | false => rw [if_neg Bool.false_ne_true,Bool.xor_false,Function.update_eq_self]
  | true => rw [if_pos rfl,Bool.xor_true]

theorem stateOf_swap {a b : Fin n}
    (h : Acts n (fun v j => v (exchangeBits (n - 1 - a) (n - 1 - b) j)) amp amp') :
    stateOf n amp' = (permute (exchange a b) : unitaryGroup (Fin n → Bool) ℂ).val *ᵥ stateOf n amp := by
  rw [permute,permMatrix_mulVec]
  funext x
  rw [stateOf,h.entry_eq _ (bigEndian_lt x),Function.comp_apply,stateOf]
  apply congrArg (fun i => complexOf (entry amp i))
  refine eq_bigEndian (exchangeBits_lt (by omega) (by omega) (bigEndian_lt x)) fun q => ?_
  have hexchange : exchange a b x q = x (Equiv.swap a b q) := rfl
  have hposition : Equiv.swap (n - 1 - (a : ℕ)) (n - 1 - (b : ℕ)) (n - 1 - (q : ℕ)) =
      n - 1 - (Equiv.swap a b q : Fin n) := by
    rw [Equiv.swap_apply_def,Equiv.swap_apply_def]
    simp only [Fin.ext_iff]
    split_ifs <;> omega
  rw [testBit_exchangeBits,hposition,testBit_bigEndian,hexchange]

/-- The number the library computes for a quarter of a half turn. -/
theorem complexOf_eighthTurn : complexOf eighthTurn = Complex.exp ((Real.pi / 4 : ℝ) * Complex.I) := by
  have hroot : 1 / ExactReals.rootTwo = Real.sqrt 2 / 2 := by
    rw [ExactReals.rootTwo,div_eq_div_iff (by positivity) (by norm_num),Real.mul_self_sqrt (by norm_num),one_mul]
  rw [Complex.exp_mul_I,← Complex.ofReal_cos,← Complex.ofReal_sin,Real.cos_pi_div_four,Real.sin_pi_div_four]
  apply Complex.ext <;> simp [complexOf,eighthTurn,hroot]

/-- What one operation owes: it multiplies the state by a unitary. -/
structure Multiplies (n : ℕ) (u : unitaryGroup (Fin n → Bool) ℂ) (amp amp' : List (Amplitude ℝ)) : Prop where
  length : amp'.length = 2 ^ n
  state : stateOf n amp' = u.val *ᵥ stateOf n amp

theorem gSingle_multiplies (hlen : amp.length = 2 ^ n) (q : Fin n) {m00 m01 m10 m11 : Amplitude ℝ}
    {u : unitaryGroup Bool ℂ}
    (hu : bitMatrix (complexOf m00) (complexOf m01) (complexOf m10) (complexOf m11) = u.val) :
    ∃ amp', gSingle amp n (q : ℕ) m00 m01 m10 m11 = .ok amp' ∧ Multiplies n (place q u) amp amp' := by
  obtain ⟨amp',hrun,hacts⟩ := gSingle_acts hlen q.isLt m00 m01 m10 m11
  refine ⟨amp',hrun,hacts.length,?_⟩
  rw [stateOf_single hacts,hu]
  rfl

theorem gCx_multiplies (hlen : amp.length = 2 ^ n) {c t : Fin n} (hne : c ≠ t) :
    ∃ amp', gCx amp n (c : ℕ) (t : ℕ) = .ok amp' ∧ Multiplies n (permute (controlledFlip hne)) amp amp' := by
  obtain ⟨amp',hrun,hacts⟩ := gCx_acts hlen c.isLt t.isLt fun h => hne (Fin.ext h)
  exact ⟨amp',hrun,hacts.length,stateOf_cx hne hacts⟩

theorem gSwap_multiplies (hlen : amp.length = 2 ^ n) (a b : Fin n) :
    ∃ amp', gSwap amp n (a : ℕ) (b : ℕ) = .ok amp' ∧ Multiplies n (permute (exchange a b)) amp amp' := by
  obtain ⟨amp',hrun,hacts⟩ := gSwap_acts hlen a.isLt b.isLt
  exact ⟨amp',hrun,hacts.length,stateOf_swap hacts⟩

/-- The entries the VM writes down for a Hadamard gate. -/
theorem hadamardGate_eq {r : ℝ} (hr : r = 1 / Real.sqrt 2) :
    bitMatrix (complexOf (Amplitude.real r)) (complexOf (Amplitude.real r)) (complexOf (Amplitude.real r))
      (complexOf (Amplitude.real (Scalars.mul (ofInt (-1)) r))) = hadamardGate.val := by
  have hneg : Scalars.mul (ofInt (-1)) r = -r := by simp
  rw [hneg]
  simp only [complexOf_real,hr,Complex.ofReal_neg]
  rfl

theorem pauliX_eq : bitMatrix (complexOf .zero) (complexOf .one) (complexOf .one) (complexOf .zero) = pauliX.val := by
  rw [complexOf_zero,complexOf_one]
  rfl

theorem pauliY_eq :
    bitMatrix (complexOf .zero) (complexOf minusIUnit) (complexOf iUnit) (complexOf .zero) = pauliY.val := by
  rw [complexOf_zero,complexOf_minusIUnit,complexOf_iUnit]
  rfl

/-- The gates that put a phase on the basis state one. -/
theorem diagonal_eq (p : Amplitude ℝ) :
    bitMatrix (complexOf .one) (complexOf .zero) (complexOf .zero) (complexOf p) = bitMatrix 1 0 0 (complexOf p) := by
  rw [complexOf_zero,complexOf_one]

theorem pauliZ_eq : bitMatrix (complexOf .one) (complexOf .zero) (complexOf .zero)
    (complexOf (Amplitude.real (ofInt (-1)))) = pauliZ.val := by
  rw [diagonal_eq,complexOf_real]
  simp [pauliZ]

theorem phaseS_eq : bitMatrix (complexOf .one) (complexOf .zero) (complexOf .zero) (complexOf iUnit) = phaseS.val := by
  rw [diagonal_eq,complexOf_iUnit]
  rfl

theorem phaseT_eq :
    bitMatrix (complexOf .one) (complexOf .zero) (complexOf .zero) (complexOf eighthTurn) = phaseT.val := by
  rw [diagonal_eq,complexOf_eighthTurn]
  rfl

theorem applyOp_multiplies (hlen : amp.length = 2 ^ n) {o : Op} (ho : o.Fits n) :
    ∃ amp', applyOp eighthTurn n amp o = .ok amp' ∧ Multiplies n (o.unitary ho) amp amp' := by
  have hfirst := ho.first_eq
  have single : ∀ {m00 m01 m10 m11 : Amplitude ℝ} {u : unitaryGroup Bool ℂ},
      bitMatrix (complexOf m00) (complexOf m01) (complexOf m10) (complexOf m11) = u.val →
      ∃ amp', gSingle amp n o.a m00 m01 m10 m11 = .ok amp' ∧ Multiplies n (place ho.first u) amp amp' := by
    intro m00 m01 m10 m11 u hu
    rw [← hfirst]
    exact gSingle_multiplies hlen ho.first hu
  obtain ⟨op,a,b⟩ := o
  cases op with
  | h => exact single (hadamardGate_eq (by simp))
  | x => exact single pauliX_eq
  | y => exact single pauliY_eq
  | z => exact single pauliZ_eq
  | s => exact single phaseS_eq
  | t => exact single phaseT_eq
  | cx =>
    have hmem : b ∈ Op.operands ⟨.cx, a, b⟩ := by simp [Op.operands]
    have hgate := gCx_multiplies hlen (ho.first_ne_second hmem rfl)
    rw [hfirst,ho.second_eq hmem] at hgate
    exact hgate
  | swap =>
    have hmem : b ∈ Op.operands ⟨.swap, a, b⟩ := by simp [Op.operands]
    have hgate := gSwap_multiplies hlen ho.first (ho.second hmem)
    rw [hfirst,ho.second_eq hmem] at hgate
    exact hgate

theorem foldlM_multiplies (hlen : amp.length = 2 ^ n) {ops : List Op} (hops : ∀ o ∈ ops, o.Fits n) :
    ∃ amp', ops.foldlM (applyOp eighthTurn n) amp = .ok amp' ∧ Multiplies n (unitaryOf ops hops) amp amp' := by
  induction ops generalizing amp with
  | nil => exact ⟨amp,rfl,hlen,by rw [unitaryOf,UnitaryGroup.one_val,one_mulVec]⟩
  | cons o ops ih =>
    obtain ⟨next,hnext,hfirst⟩ := applyOp_multiplies hlen (hops o List.mem_cons_self)
    obtain ⟨last,hlast,hrest⟩ := ih hfirst.length fun o ho => hops o (List.mem_cons_of_mem _ ho)
    refine ⟨last,by rw [List.foldlM_cons,hnext]; exact hlast,hrest.length,?_⟩
    rw [hrest.state,hfirst.state,mulVec_mulVec,unitaryOf,UnitaryGroup.mul_val]

/-- The basis state in which all qubits are zero. -/
noncomputable def ketZero (n : ℕ) : (Fin n → Bool) → ℂ := Pi.single (fun _ => false) 1

theorem stateOf_basisVector (n : ℕ) : stateOf n (basisVector (2 ^ n) 0) = ketZero n := by
  funext x
  rw [stateOf,entry_basisVector (Nat.two_pow_pos n) (bigEndian_lt x),ketZero]
  by_cases hx : x = fun _ => false
  · subst hx
    rw [if_pos bigEndian_zero,complexOf_one,Pi.single_eq_same]
  · have hne : bigEndian x ≠ 0 := by
      intro h
      apply hx
      funext q
      rw [← testBit_bigEndian x q,h,Nat.zero_testBit]
    rw [if_neg hne,complexOf_zero,Pi.single_eq_of_ne hx]

/-- What the code adds up for an entry is the squared magnitude of the state there. -/
theorem weight_stateOf (amp : List (Amplitude ℝ)) (x : Fin n → Bool) :
    (entry amp (bigEndian x)).weight = ‖stateOf n amp x‖ ^ 2 := by
  rw [stateOf,← Complex.normSq_eq_norm_sq,Complex.normSq_apply,weight_eq,sq,sq]
  rfl

/-- A circuit whose operands fit runs, and from the state zero it leaves the state that its
unitary makes of it; so the outcomes of a measurement have the probabilities of that state. -/
theorem simulate_unitary {c : Circuit} (hn : c.nq = n) (hops : ∀ o ∈ c.ops, o.Fits n) :
    ∃ amp, simulate eighthTurn true c = .ok amp ∧ amp.length = 2 ^ n ∧
      stateOf n amp = (unitaryOf c.ops hops).val *ᵥ ketZero n ∧
      ∀ x : Fin n → Bool, (entry amp (bigEndian x)).weight =
        ‖((unitaryOf c.ops hops).val *ᵥ ketZero n) x‖ ^ 2 := by
  have hlen : (basisVector (1 <<< n) 0 : List (Amplitude ℝ)).length = 2 ^ n := by
    rw [length_basisVector,Nat.one_shiftLeft]
  obtain ⟨amp,hrun,hmultiplies⟩ := foldlM_multiplies hlen hops
  have hstate : stateOf n amp = (unitaryOf c.ops hops).val *ᵥ ketZero n := by
    rw [hmultiplies.state,Nat.one_shiftLeft,stateOf_basisVector]
  refine ⟨amp,?_,hmultiplies.length,hstate,fun x => ?_⟩
  · rw [simulate,hn]
    rw [if_neg (by omega),if_neg (by simp)]
    exact hrun
  · rw [← hstate,weight_stateOf]

theorem simulate_unitary_bell : ∃ amp, simulate eighthTurn true ⟨2, false, [⟨.h, 0, 0⟩, ⟨.cx, 0, 1⟩]⟩ = .ok amp ∧
    amp.length = 4 := by
  have hops : ∀ o ∈ [(⟨.h, 0, 0⟩ : Op), ⟨.cx, 0, 1⟩], o.Fits (2 : ℕ) := by
    intro o ho
    fin_cases ho <;> exact ⟨by decide,by decide⟩
  obtain ⟨amp,hrun,hlen,-⟩ := simulate_unitary (c := ⟨2, false, [⟨.h, 0, 0⟩, ⟨.cx, 0, 1⟩]⟩) rfl hops
  exact ⟨amp,hrun,hlen⟩

end Refinement

end QbitNova.CircuitVM
