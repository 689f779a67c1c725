import QbitNova.Library.BitGates
import QbitNova.Quantum.CircuitLoad
import QbitNova.Quantum.Exact
import QbitNova.Quantum.Simulators

/-! # The gates of the circuit VM as actions

All single-qubit gates share one loop with a matrix of four entries, and a swap is three
passes of the cx loop. Both loops act on one bit of the indices: the three passes exchange
two bits, and a unitary matrix keeps the sum of the squared magnitudes.
-/
namespace QbitNova.CircuitVM
open Sweep Scalars Quantum

section Entries
variable {D : Type} [Scalars D] {amp : List (Amplitude D)} {n : ℕ}

/-- What a loop of the circuit VM leaves behind: an array of the same size whose entries
are those of an action. -/
structure Acts (n : ℕ) (act : (ℕ → Amplitude D) → ℕ → Amplitude D) (amp amp' : List (Amplitude D)) : Prop where
  length : amp'.length = 2 ^ n
  entry_eq : ∀ j < 2 ^ n, entry amp' j = act (entry amp) j

theorem pairLoop_acts (hlen : amp.length = 2 ^ n) {q : ℕ} (hq : q < n) {selected extra : ℕ → Bool}
    (hselected : ∀ i, selected i = (extra i && !i.testBit (n - 1 - q)))
    (hextra : ∀ i, extra (i ^^^ 2 ^ (n - 1 - q)) = extra i)
    (pair : Amplitude D → Amplitude D → Amplitude D × Amplitude D) :
    ∃ amp', pairLoop amp n (n - 1 - q) selected pair = .ok amp' ∧
      Acts n (pairAct extra (n - 1 - q) pair) amp amp' := by
  have hcast : amp.length = 2 ^ (n : ℤ).toNat := by rw [Int.toNat_natCast,hlen]
  rw [pairLoop_ok hcast (by omega),toNat_position,Nat.one_shiftLeft]
  refine ⟨_,rfl,by rw [length_pairSweep,hlen],fun j hj => ?_⟩
  exact entry_bitSweep (by omega) hselected hextra hlen pair hj

/-- The pair of entries a matrix makes of another. -/
def matrixPair (m00 m01 m10 m11 x y : Amplitude D) : Amplitude D × Amplitude D :=
  ((Amplitude.mul m00 x).add (Amplitude.mul m01 y), (Amplitude.mul m10 x).add (Amplitude.mul m11 y))

theorem gSingle_acts (hlen : amp.length = 2 ^ n) {q : ℕ} (hq : q < n) (m00 m01 m10 m11 : Amplitude D) :
    ∃ amp', gSingle amp n q m00 m01 m10 m11 = .ok amp' ∧
      Acts n (pairAct (fun _ => true) (n - 1 - q) (matrixPair m00 m01 m10 m11)) amp amp' := by
  rw [gSingle,if_neg (by omega)]
  refine pairLoop_acts hlen hq (fun i => ?_) (fun _ => rfl) _
  rw [bitAt_position,Bool.true_and]

theorem gCx_acts (hlen : amp.length = 2 ^ n) {c t : ℕ} (hc : c < n) (ht : t < n) (hne : c ≠ t) :
    ∃ amp', gCx amp n c t = .ok amp' ∧
      Acts n (pairAct (Nat.testBit · (n - 1 - c)) (n - 1 - t) flipPair) amp amp' := by
  rw [gCx,if_neg (by omega)]
  simp only []
  rw [if_neg (by omega)]
  refine pairLoop_acts hlen ht (fun i => ?_) (fun i => ?_) _
  · rw [bitAt_position,bitAt_position]
  · rw [testBit_xor_two_pow,if_neg (by omega)]

/-- The entries a pass of the cx loop moves. -/
theorem Acts.moved {c t : ℕ} {amp' : List (Amplitude D)}
    (h : Acts n (pairAct (Nat.testBit · c) t flipPair) amp amp') {j : ℕ} (hj : j < 2 ^ n) :
    entry amp' j = entry amp (flipWhere (Nat.testBit · c) t j) := (h.entry_eq j hj).trans (pairAct_flipPair j)

theorem gSwap_acts (hlen : amp.length = 2 ^ n) {a b : ℕ} (ha : a < n) (hb : b < n) :
    ∃ amp', gSwap amp n a b = .ok amp' ∧
      Acts n (fun v j => v (exchangeBits (n - 1 - a) (n - 1 - b) j)) amp amp' := by
  by_cases hab : a = b
  · rw [gSwap,if_pos (by omega)]
    refine ⟨amp,rfl,hlen,fun j _ => ?_⟩
    rw [hab,exchangeBits_self]
  · obtain ⟨first,hfirst,hacts⟩ := gCx_acts hlen ha hb hab
    obtain ⟨second,hsecond,hacts'⟩ := gCx_acts hacts.length hb ha (Ne.symm hab)
    obtain ⟨third,hthird,hacts''⟩ := gCx_acts hacts'.length ha hb hab
    refine ⟨third,?_,hacts''.length,fun j hj => ?_⟩
    · rw [gSwap,if_neg (by omega),hfirst]
      simp only [bind,Except.bind,hsecond]
      exact hthird
    · have hj' : flipWhere (Nat.testBit · (n - 1 - a)) (n - 1 - b) j < 2 ^ n := flipWhere_lt (by omega) hj
      have hj'' : flipWhere (Nat.testBit · (n - 1 - b)) (n - 1 - a) _ < 2 ^ n := flipWhere_lt (by omega) hj'
      rw [hacts''.moved hj,hacts'.moved hj',hacts.moved hj'',flipWhere_three (by omega)]

/-- A swap puts at each index the entry of the index with the two bits exchanged; the order of
its operands does not matter, and done twice it changes nothing. -/
theorem gSwap_exchanges (hlen : amp.length = 2 ^ n) {a b : ℕ} (ha : a < n) (hb : b < n) :
    (∀ i j, (exchangeBits (n - 1 - a) (n - 1 - b) i).testBit j = i.testBit (Equiv.swap (n - 1 - a) (n - 1 - b) j)) ∧
    ∃ swapped, gSwap amp n a b = .ok swapped ∧ swapped.length = 2 ^ n ∧
      (∀ i < 2 ^ n, entry swapped i = entry amp (exchangeBits (n - 1 - a) (n - 1 - b) i)) ∧
      gSwap amp n b a = .ok swapped ∧ gSwap swapped n a b = .ok amp := by
  obtain ⟨swapped,hswap,hacts⟩ := gSwap_acts hlen ha hb
  obtain ⟨mirrored,hmirror,hmirrored⟩ := gSwap_acts hlen hb ha
  obtain ⟨back,hback,hreturned⟩ := gSwap_acts hacts.length ha hb
  have hsame : mirrored = swapped := by
    refine ext_entry (hmirrored.length.trans hacts.length.symm) fun i hi => ?_
    rw [hmirrored.length] at hi
    rw [hmirrored.entry_eq i hi,hacts.entry_eq i hi,exchangeBits_comm]
  have hrestored : back = amp := by
    refine ext_entry (hreturned.length.trans hlen.symm) fun i hi => ?_
    rw [hreturned.length] at hi
    rw [hreturned.entry_eq i hi,hacts.entry_eq _ (exchangeBits_lt (by omega) (by omega) hi),exchangeBits_exchangeBits]
  exact ⟨testBit_exchangeBits _ _,swapped,hswap,hacts.length,hacts.entry_eq,hsame ▸ hmirror,hrestored ▸ hback⟩

end Entries

noncomputable def eightEntries : List (Amplitude ℝ) :=
  [⟨1, 0⟩, ⟨0, 1⟩, ⟨0, 0⟩, ⟨-1, 0⟩, ⟨0, 0⟩, ⟨0, 0⟩, ⟨0, -1⟩, ⟨1, 1⟩]

theorem gSwap_exchanges_eightEntries : ∃ swapped, gSwap eightEntries 3 0 2 = .ok swapped ∧
    entry swapped 4 = ⟨0, 1⟩ ∧ gSwap eightEntries 3 2 0 = .ok swapped ∧ gSwap swapped 3 0 2 = .ok eightEntries := by
  have hlen : eightEntries.length = 2 ^ 3 := rfl
  obtain ⟨-,swapped,hswap,-,hentry,hmirror,hback⟩ :=
    gSwap_exchanges hlen (show 0 < 3 by decide) (show 2 < 3 by decide)
  exact ⟨swapped,hswap,hentry 4 (by decide),hmirror,hback⟩

section Norm
variable {n : ℕ} {amp : List (Amplitude ℝ)} {phase : Amplitude ℝ}

/-- The matrix keeps the sum of the squared magnitudes of any two entries. -/
def KeepsWeight (m00 m01 m10 m11 : Amplitude ℝ) : Prop :=
  ∀ x y, (matrixPair m00 m01 m10 m11 x y).1.weight + (matrixPair m00 m01 m10 m11 x y).2.weight = x.weight + y.weight

theorem weight_mul (x y : Amplitude ℝ) : (Amplitude.mul x y).weight = x.weight * y.weight := by
  simp only [weight_eq,Amplitude.mul,ExactReals.sub_eq,ExactReals.add_eq,ExactReals.mul_eq]
  ring

theorem mul_zero_add (x y : Amplitude ℝ) : (Amplitude.mul .zero x).add y = y := by
  simp [Amplitude.mul,Amplitude.add,Amplitude.zero]

theorem add_mul_zero (x y : Amplitude ℝ) : Amplitude.add x (Amplitude.mul .zero y) = x := by
  simp [Amplitude.mul,Amplitude.add,Amplitude.zero]

/-- Two phases on the diagonal. -/
theorem keepsWeight_diagonal {p q : Amplitude ℝ} (hp : p.weight = 1) (hq : q.weight = 1) :
    KeepsWeight p .zero .zero q := by
  intro x y
  simp only [matrixPair,mul_zero_add,add_mul_zero,weight_mul,hp,hq,one_mul]

/-- Two phases off the diagonal. -/
theorem keepsWeight_antidiagonal {p q : Amplitude ℝ} (hp : p.weight = 1) (hq : q.weight = 1) :
    KeepsWeight .zero p q .zero := by
  intro x y
  simp only [matrixPair,mul_zero_add,add_mul_zero,weight_mul,hp,hq,one_mul,add_comm]

theorem keepsWeight_hadamard {s : ℝ} (hs : s ^ 2 = 1 / 2) :
    KeepsWeight (Amplitude.real s) (Amplitude.real s) (Amplitude.real s) (Amplitude.real (Scalars.mul (ofInt (-1)) s)) := by
  intro x y
  simp only [matrixPair,Amplitude.real,Amplitude.mul,Amplitude.add,weight_eq,ExactReals.sub_eq,ExactReals.add_eq,
    ExactReals.mul_eq,ExactReals.ofInt_eq,Int.cast_zero,Int.cast_neg,Int.cast_one]
  linear_combination 2 * (x.re ^ 2 + x.im ^ 2 + y.re ^ 2 + y.im ^ 2) * hs

/-- A gate leaves an array of the same size and the same norm. -/
structure KeepsNorm (n : ℕ) (amp amp' : List (Amplitude ℝ)) : Prop where
  length : amp'.length = 2 ^ n
  norm : (amp'.map Amplitude.weight).sum = (amp.map Amplitude.weight).sum

theorem Acts.keepsNorm (hlen : amp.length = 2 ^ n) {extra : ℕ → Bool} {b : ℕ} (hb : b < n)
    (hextra : ∀ i, extra (i ^^^ 2 ^ b) = extra i) {pair : Amplitude ℝ → Amplitude ℝ → Amplitude ℝ × Amplitude ℝ}
    (hpair : ∀ x y, (pair x y).1.weight + (pair x y).2.weight = x.weight + y.weight) {amp' : List (Amplitude ℝ)}
    (h : Acts n (pairAct extra b pair) amp amp') : KeepsNorm n amp amp' := by
  refine ⟨h.length,?_⟩
  have hentries : ∀ i ∈ Finset.range (2 ^ n), (entry amp' i).weight = (pairAct extra b pair (entry amp) i).weight :=
    fun i hi => by rw [h.entry_eq i (Finset.mem_range.mp hi)]
  rw [sum_map_entry,sum_map_entry,h.length,hlen,Finset.sum_congr rfl hentries]
  exact sum_pairAct hb hextra hpair

theorem gSingle_keepsNorm (hlen : amp.length = 2 ^ n) {q : ℕ} (hq : q < n) {m00 m01 m10 m11 : Amplitude ℝ}
    (h : KeepsWeight m00 m01 m10 m11) : ∃ amp', gSingle amp n q m00 m01 m10 m11 = .ok amp' ∧ KeepsNorm n amp amp' := by
  obtain ⟨amp',hrun,hacts⟩ := gSingle_acts hlen hq m00 m01 m10 m11
  exact ⟨amp',hrun,hacts.keepsNorm hlen (by omega) (fun _ => rfl) h⟩

theorem gCx_keepsNorm (hlen : amp.length = 2 ^ n) {c t : ℕ} (hc : c < n) (ht : t < n) (hne : c ≠ t) :
    ∃ amp', gCx amp n c t = .ok amp' ∧ KeepsNorm n amp amp' := by
  obtain ⟨amp',hrun,hacts⟩ := gCx_acts hlen hc ht hne
  refine ⟨amp',hrun,hacts.keepsNorm hlen (by omega) (fun i => ?_) fun x y => add_comm _ _⟩
  rw [testBit_xor_two_pow,if_neg (by omega)]

theorem gSwap_keepsNorm (hlen : amp.length = 2 ^ n) {a b : ℕ} (ha : a < n) (hb : b < n) :
    ∃ amp', gSwap amp n a b = .ok amp' ∧ KeepsNorm n amp amp' := by
  obtain ⟨amp',hrun,hacts⟩ := gSwap_acts hlen ha hb
  refine ⟨amp',hrun,hacts.length,?_⟩
  rw [sum_map_entry,sum_map_entry,hacts.length,hlen]
  have hlt : ∀ i < 2 ^ n, exchangeBits (n - 1 - a) (n - 1 - b) i < 2 ^ n :=
    fun i hi => exchangeBits_lt (by omega) (by omega) hi
  refine ExactReals.sum_eq_of_pairs hlt (fun i _ => exchangeBits_exchangeBits _ _ i) fun i hi => ?_
  rw [hacts.entry_eq i hi,hacts.entry_eq _ (hlt i hi),exchangeBits_exchangeBits,add_comm]

theorem weight_unit : (iUnit : Amplitude ℝ).weight = 1 ∧ (minusIUnit : Amplitude ℝ).weight = 1 ∧
    (Amplitude.real (ofInt (-1)) : Amplitude ℝ).weight = 1 := by
  simp [iUnit,minusIUnit,Amplitude.real,weight_eq]

theorem applyOp_keepsNorm (hphase : phase.weight = 1) (hlen : amp.length = 2 ^ n) {o : Op} (ho : o.Fits n) :
    ∃ amp', applyOp phase n amp o = .ok amp' ∧ KeepsNorm n amp amp' := by
  obtain ⟨op,a,b⟩ := o
  have hmem : a ∈ Op.operands ⟨op, a, b⟩ := by cases op <;> simp [Op.operands]
  obtain ⟨hnonneg,ha⟩ := ho.inRange a hmem
  lift a to ℕ using hnonneg
  have ha : a < n := by exact_mod_cast ha
  cases op with
  | h =>
    refine gSingle_keepsNorm hlen ha (keepsWeight_hadamard ?_)
    simp
  | x => exact gSingle_keepsNorm hlen ha (keepsWeight_antidiagonal weight_one weight_one)
  | y => exact gSingle_keepsNorm hlen ha (keepsWeight_antidiagonal weight_unit.2.1 weight_unit.1)
  | z => exact gSingle_keepsNorm hlen ha (keepsWeight_diagonal weight_one weight_unit.2.2)
  | s => exact gSingle_keepsNorm hlen ha (keepsWeight_diagonal weight_one weight_unit.1)
  | t => exact gSingle_keepsNorm hlen ha (keepsWeight_diagonal weight_one hphase)
  | cx =>
    obtain ⟨hnonneg,hb⟩ := ho.inRange b (by simp [Op.operands])
    lift b to ℕ using hnonneg
    have hne : (a : ℤ) ≠ b := ho.distinct rfl
    exact gCx_keepsNorm hlen ha (by exact_mod_cast hb) (by exact_mod_cast hne)
  | swap =>
    obtain ⟨hnonneg,hb⟩ := ho.inRange b (by simp [Op.operands])
    lift b to ℕ using hnonneg
    exact gSwap_keepsNorm hlen ha (by exact_mod_cast hb)

theorem foldlM_keepsNorm (hphase : phase.weight = 1) (hlen : amp.length = 2 ^ n) {ops : List Op}
    (hops : ∀ o ∈ ops, o.Fits n) : ∃ amp', ops.foldlM (applyOp phase n) amp = .ok amp' ∧ KeepsNorm n amp amp' := by
  induction ops generalizing amp with
  | nil => exact ⟨amp,rfl,hlen,rfl⟩
  | cons o ops ih =>
    obtain ⟨next,hnext,hkept⟩ := applyOp_keepsNorm hphase hlen (hops o (List.mem_cons_self ..))
    obtain ⟨last,hlast,hkept'⟩ := ih hkept.length fun o ho => hops o (List.mem_cons_of_mem _ ho)
    exact ⟨last,by rw [List.foldlM_cons,hnext]; exact hlast,hkept'.length,hkept'.norm.trans hkept.norm⟩

theorem norm_basisVector {size index : ℕ} (h : index < size) :
    ((basisVector size index : List (Amplitude ℝ)).map Amplitude.weight).sum = 1 := by
  rw [sum_map_entry,length_basisVector]
  exact sum_weight_basis h fun j hj => entry_basisVector h hj

/-- The state has norm one before and after each operation of a circuit whose operands fit, and
the operations the ghz macro records are among those that fit. -/
theorem simulate_normalized (hphase : phase.weight = 1) {c : Circuit} (hn : c.nq = n)
    (hops : ∀ o ∈ c.ops, o.Fits n) :
    (∀ done rest, c.ops = done ++ rest → ∃ amp, simulate phase true { c with ops := done } = .ok amp ∧
      amp.length = 2 ^ n ∧ (amp.map Amplitude.weight).sum = 1) ∧
    ∀ c', addGhz c = .ok c' → ∀ o ∈ c'.ops, o.Fits n := by
  constructor
  · intro done rest happend
    have hdone : ∀ o ∈ done, o.Fits n := fun o ho => hops o (happend ▸ List.mem_append_left _ ho)
    have hlen : (basisVector (1 <<< n) 0 : List (Amplitude ℝ)).length = 2 ^ n := by
      rw [length_basisVector,Nat.one_shiftLeft]
    obtain ⟨amp,hrun,hkept⟩ := foldlM_keepsNorm hphase hlen hdone
    refine ⟨amp,?_,hkept.length,?_⟩
    · rw [simulate]
      simp only [hn]
      rw [if_neg (by omega),if_neg (by simp)]
      exact hrun
    · rw [hkept.norm]
      exact norm_basisVector (by rw [Nat.one_shiftLeft]; exact Nat.two_pow_pos n)
  · intro c' hghz o ho
    obtain ⟨htwo,rfl⟩ := addGhz_eq hghz
    rw [hn] at htwo ho
    rcases List.mem_append.mp ho with ho | ho
    · exact hops o ho
    · rcases List.mem_cons.mp ho with rfl | ho
      · refine ⟨?_,fun h => (by cases h)⟩
        simp only [Op.operands,List.mem_singleton,forall_eq]
        omega
      · exact (chainOps_fits le_rfl).mpr (fun _ => by omega) o ho

/-- `exp(i*pi/4)` -/
noncomputable def eighthTurn : Amplitude ℝ := ⟨1 / ExactReals.rootTwo, 1 / ExactReals.rootTwo⟩

def mixedCircuit : Circuit := ⟨2, true, [⟨.h, 0, 0⟩, ⟨.t, 0, 0⟩, ⟨.cx, 0, 1⟩, ⟨.y, 1, 0⟩, ⟨.swap, 1, 0⟩]⟩

theorem simulate_normalized_mixed : eighthTurn.weight = 1 ∧
    ∃ amp, simulate eighthTurn true { mixedCircuit with ops := [⟨.h, 0, 0⟩, ⟨.t, 0, 0⟩, ⟨.cx, 0, 1⟩] } = .ok amp ∧
      amp.length = 4 ∧ (amp.map Amplitude.weight).sum = 1 := by
  have hphase : eighthTurn.weight = 1 := by
    rw [weight_eq,eighthTurn,div_pow,sq ExactReals.rootTwo,ExactReals.rootTwo_mul_self]
    norm_num
  have hops : ∀ o ∈ mixedCircuit.ops, o.Fits (2 : ℕ) := by
    intro o ho
    fin_cases ho <;> exact ⟨by decide,by decide⟩
  exact ⟨hphase,(simulate_normalized hphase rfl hops).1 _ [⟨.y, 1, 0⟩, ⟨.swap, 1, 0⟩] rfl⟩

end Norm

end QbitNova.CircuitVM
