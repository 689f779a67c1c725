import QbitNova.Language.VMInvariant

/-! # The message register

The byte VM keeps one message as text and, once encoded, as a string of bits. Decoding
prints the text and never looks at the bits, so that what it prints is what the register
shows rests on an invariant between the two buffers and the three flags. The register is
a state machine of its own, which every action of the VM drives.
-/
namespace QbitNova.Language
open CText Transition

/-- The buffers and flags of the message. -/
structure Register where
  text : Bytes
  bits : Bytes
  loaded : Bool
  encoded : Bool
  measured : Bool
  deriving DecidableEq, Repr

/-- What an action does to the register. -/
def Register.after (r : Register) : Action → Register
  | .qmsg message => if message = [] then r else ⟨message.take 127, [], true, false, false⟩
  | .encode target =>
    if target = str "qmsg" ∧ r.loaded = true then { r with bits := VM.textBits r.text 0, encoded := true, measured := false }
    else r
  | .measure name => if name = str "qmsg" ∧ r.encoded = true then { r with measured := true } else r
  | _ => r

def VM.register {D : Type} (vm : VM D) : Register :=
  ⟨vm.qmsgText, vm.qmsgBits, vm.qmsgLoaded, vm.qmsgEncoded, vm.qmsgMeasured⟩

section
variable {D : Type} (vm : VM D)

@[simp] theorem register_print (text : Bytes) : (vm.print text).register = vm.register := rfl
@[simp] theorem register_modifyQbit (q : ℕ) (f : VMQbit D → VMQbit D) :
    (vm.modifyQbit q f).register = vm.register := rfl

theorem register_setVar (name : Bytes) (value : D) : (vm.setVar name value).register = vm.register := by
  unfold VM.setVar
  split
  · rfl
  · split_ifs <;> rfl

theorem register_link (source target : ℕ) (a b : Bytes) : (vm.link source target a b).register = vm.register := by
  unfold VM.link
  simp only []
  split <;> rfl

theorem register_cnotQbits (a b : Bytes) : (vm.cnotQbits a b).register = vm.register := by
  unfold VM.cnotQbits
  split
  · exact register_link vm _ _ a b
  · rfl

theorem register_entangleQbits (a b : Bytes) : (vm.entangleQbits a b).register = vm.register := by
  unfold VM.entangleQbits
  split
  · exact register_link vm _ _ a b
  · rfl

theorem register_onQbit (name : Bytes) {gate : VM D → ℕ → VM D} (h : ∀ q, (gate vm q).register = vm.register) :
    (vm.onQbit name gate).register = vm.register := by
  unfold VM.onQbit
  split
  · exact h _
  · rfl

theorem register_runSafeAction (action : Bytes) : (vm.runSafeAction action).register = vm.register := by
  unfold VM.runSafeAction
  split <;> rfl

theorem register_qmsgSet (message : Bytes) : (vm.qmsgSet message).register = vm.register.after (.qmsg message) := by
  simp only [VM.qmsgSet,Register.after]
  split_ifs <;> rfl

theorem register_qmsgEncode : vm.qmsgEncode.register = vm.register.after (.encode (str "qmsg")) := by
  cases h : vm.qmsgLoaded <;> simp [VM.qmsgEncode,Register.after,VM.register,VM.print,h]

theorem register_qmsgMeasure : vm.qmsgMeasure.register = vm.register.after (.measure (str "qmsg")) := by
  cases h : vm.qmsgEncoded <;> simp [VM.qmsgMeasure,Register.after,VM.register,VM.print,h]

theorem register_qmsgDecode : vm.qmsgDecode.register = vm.register := by
  unfold VM.qmsgDecode
  split_ifs <;> rfl

variable [Doubles D]

theorem register_prepare (q : ℕ) (state : Bytes) : (vm.prepare q state).register = vm.register := by
  unfold VM.prepare
  split <;> rfl

theorem register_createQbit (name state : Bytes) : (vm.createQbit name state).register = vm.register := by
  unfold VM.createQbit
  split
  · exact register_prepare vm _ state
  · split_ifs
    · rfl
    · exact register_prepare _ _ state

theorem register_measureLinked (rand : ℕ → ℤ) (q : ℕ) : (vm.measureLinked rand q).register = vm.register := by
  unfold VM.measureLinked
  split
  · rfl
  · simp only []
    split_ifs
    · rfl
    · split <;> rfl

theorem register_vmSay (value : Bytes) : (vm.vmSay value).register = vm.register := by
  unfold VM.vmSay VM.qmsgPrintRegister VM.printQbit
  split_ifs
  · rfl
  · rfl
  · split
    · split_ifs <;> rfl
    · split <;> rfl

theorem register_evalCheck (name operator : Bytes) (value : ℤ) :
    (vm.evalCheck name operator value).2.register = vm.register := by
  unfold VM.evalCheck
  split
  · rfl
  · split <;> rfl

/-- Every action of the VM drives the register. -/
theorem register_act (rand : ℕ → ℤ) (action : Action) :
    (vm.act rand action).register = vm.register.after action := by
  cases action with
  | say value => exact register_vmSay vm value
  | setVar name text => exact register_setVar vm name _
  | createQbit name state => exact register_createQbit vm name state
  | hadamard name => exact register_onQbit vm name fun q => rfl
  | cnot control target => exact register_cnotQbits vm control target
  | entangle left right => exact register_entangleQbits vm left right
  | check name operator value => exact register_evalCheck vm name operator value
  | safeAction name => exact register_runSafeAction vm name
  | qmsg message => exact register_qmsgSet vm message
  | measure name =>
    simp only [VM.act]
    split_ifs with h
    · subst h
      exact register_qmsgMeasure vm
    · rw [register_onQbit vm name (register_measureLinked vm rand)]
      simp only [Register.after,h,false_and,↓reduceIte]
  | encode target =>
    simp only [VM.act]
    split_ifs with h
    · subst h
      exact register_qmsgEncode vm
    · simp only [register_print,Register.after,h,false_and,↓reduceIte]
  | decode target =>
    simp only [VM.act]
    split_ifs
    · exact register_qmsgDecode vm
    · rfl

end

/-- The bits of a text: eight characters to a byte, the most significant bit first. -/
def expansion (text : Bytes) : Bytes :=
  text.flatMap fun c => (List.range 8).map fun i => if c.toNat.testBit (7 - i) then 49 else 48

theorem byteBits_eq (c : UInt8) :
    VM.byteBits c = (List.range 8).map fun i => if c.toNat.testBit (7 - i) then 49 else 48 := by
  simp [VM.byteBits,List.range_succ,Nat.testBit_eq_decide_div_mod_eq,Nat.shiftRight_eq_div_pow]

/-- The encoding loop gets to the end of every text the buffer can hold. -/
theorem textBits_eq {text : Bytes} {position : ℕ} (h : position + 8 * text.length ≤ qmsgMaxBits - 9) :
    VM.textBits text position = expansion text := by
  induction text generalizing position with
  | nil => rfl
  | cons c rest ih =>
    simp only [List.length_cons] at h
    rw [VM.textBits,if_pos (by omega),ih (by omega),byteBits_eq]
    rfl

theorem length_expansion (text : Bytes) : (expansion text).length = 8 * text.length := by
  simp [expansion,List.length_flatMap,Nat.mul_comm]

/-- The byte that eight bit characters spell. -/
def groupValue (bits : Bytes) : UInt8 := UInt8.ofNat (bits.foldl (fun n b => 2 * n + (b.toNat - 48)) 0)

/-- Bit characters read by eights. -/
def regroup : Bytes → Bytes
  | b7 :: b6 :: b5 :: b4 :: b3 :: b2 :: b1 :: b0 :: rest => groupValue [b7, b6, b5, b4, b3, b2, b1, b0] :: regroup rest
  | _ => []

theorem bitCharacter (n k : ℕ) : (if n.testBit k then (49 : UInt8) else 48).toNat - 48 = n / 2^k % 2 := by
  rw [Nat.testBit_eq_decide_div_mod_eq]
  rcases Nat.mod_two_eq_zero_or_one (n / 2^k) with h | h <;> simp [h]

/-- One more bit of a number, from the top. -/
theorem bit_below (n k : ℕ) : 2 * (n / 2^(k + 1)) + n / 2^k % 2 = n / 2^k := by
  rw [Nat.pow_succ,← Nat.div_div_eq_div_mul]
  exact Nat.div_add_mod _ 2

theorem groupValue_bits (c : UInt8) :
    groupValue ((List.range 8).map fun i => if c.toNat.testBit (7 - i) then 49 else 48) = c := by
  have hbits : 2 * (2 * (2 * (2 * (2 * (2 * (2 * (2 * 0 + c.toNat / 2^7 % 2) + c.toNat / 2^6 % 2) + c.toNat / 2^5 % 2) +
      c.toNat / 2^4 % 2) + c.toNat / 2^3 % 2) + c.toNat / 2^2 % 2) + c.toNat / 2^1 % 2) + c.toNat / 2^0 % 2 = c.toNat := by
    have htop : 2 * 0 + c.toNat / 2^7 % 2 = c.toNat / 2^7 := by
      have hbelow := bit_below c.toNat 7
      rwa [show c.toNat / 2^(7 + 1) = 0 from Nat.div_eq_of_lt c.toNat_lt] at hbelow
    rw [htop,bit_below _ 6,bit_below _ 5,bit_below _ 4,bit_below _ 3,bit_below _ 2,bit_below _ 1,
      bit_below _ 0,pow_zero,Nat.div_one]
  simp only [groupValue,List.range_succ,List.range_zero,List.nil_append,List.cons_append,List.map_cons,List.map_nil,
    List.foldl_cons,List.foldl_nil,bitCharacter]
  rw [show _ = c.toNat from hbits]
  exact UInt8.ofNat_toNat

theorem regroup_expansion (text : Bytes) : regroup (expansion text) = text := by
  induction text with
  | nil => rfl
  | cons c rest ih =>
    have hgroup : regroup (expansion (c :: rest)) = groupValue ((List.range 8).map fun i =>
        if c.toNat.testBit (7 - i) then 49 else 48) :: regroup (expansion rest) := rfl
    rw [hgroup,groupValue_bits,ih]

/-- The bytes a text shows between bar and bracket: those that follow a bar. -/
def shown : Bytes → Bytes
  | [] => []
  | c :: rest => if c = 124 then rest.take 1 ++ shown rest else shown rest

theorem shown_skip {plain : Bytes} (h : ∀ c ∈ plain, c ≠ 124) (rest : Bytes) : shown (plain ++ rest) = shown rest := by
  induction plain with
  | nil => rfl
  | cons c plain ih =>
    rw [List.cons_append,shown,if_neg (h c List.mem_cons_self)]
    exact ih fun d hd => h d (List.mem_cons_of_mem c hd)

/-- A printed number has no bar in it. -/
theorem decimal_plain (n : ℕ) : ∀ c ∈ decimal n, c ≠ 124 := by
  intro c hc
  obtain ⟨d,hd,rfl⟩ : ∃ d ∈ (toString n).toList, d.toUInt8 = c := List.mem_map.mp hc
  rw [Nat.toString_eq_repr,Nat.toList_repr] at hd
  have hdigit := Nat.isDigit_of_mem_toDigits (by decide) (by decide) hd
  simp only [Char.isDigit,Bool.and_eq_true,decide_eq_true_eq,ge_iff_le,UInt32.le_iff_toNat_le] at hdigit
  intro hbar
  have hval : d.val.toNat % 256 = 124 := congrArg UInt8.toNat hbar
  have hmax : d.val.toNat ≤ 57 := hdigit.2
  omega

/-- One cell of the printed register, of `total` cells. -/
def registerCell (total : ℕ) (cell : UInt8 × ℕ) : Bytes :=
  str "q" ++ decimal cell.2 ++ str "=|" ++ [cell.1] ++ str ">" ++
    if (cell.2 + 1) % 8 = 0 ∨ cell.2 + 1 = total then str "\n" else str " "

theorem registerText_eq (bits : Bytes) : VM.registerText bits = bits.zipIdx.flatMap (registerCell bits.length) := rfl

theorem shown_registerCell (total : ℕ) {bit : UInt8} (i : ℕ) (hbit : bit ≠ 124) (rest : Bytes) :
    shown (registerCell total (bit, i) ++ rest) = bit :: shown rest := by
  have hplain : ∀ c ∈ str "q" ++ decimal i ++ str "=", c ≠ 124 := by
    intro c hc
    rw [List.mem_append,List.mem_append] at hc
    rcases hc with (hc | hc) | hc
    · rw [List.mem_singleton.mp hc]
      decide
    · exact decimal_plain i c hc
    · rw [List.mem_singleton.mp hc]
      decide
  obtain ⟨ending,hcell,hending⟩ : ∃ ending : Bytes, registerCell total (bit, i) =
      str "q" ++ decimal i ++ str "=|" ++ [bit] ++ str ">" ++ ending ∧ ending.all (· != 124) = true := by
    refine ⟨_,rfl,?_⟩
    split_ifs <;> rfl
  have htail : ∀ c ∈ bit :: (str ">" ++ ending), c ≠ 124 := by
    intro c hc
    rcases List.mem_cons.mp hc with rfl | hc
    · exact hbit
    · rcases List.mem_cons.mp hc with rfl | hc
      · decide
      · exact bne_iff_ne.mp (List.all_eq_true.mp hending c hc)
  have hsplit : registerCell total (bit, i) ++ rest =
      (str "q" ++ decimal i ++ str "=") ++ (124 :: ((bit :: (str ">" ++ ending)) ++ rest)) := by
    rw [hcell,show str "=|" = str "=" ++ [124] from rfl]
    simp only [List.append_assoc,List.cons_append,List.nil_append]
  rw [hsplit,shown_skip hplain,shown,if_pos rfl,shown_skip htail]
  rfl

/-- The printed register shows the bits in order. -/
theorem shown_registerText {bits : Bytes} (h : ∀ b ∈ bits, b ≠ 124) : shown (VM.registerText bits) = bits := by
  have hcells : ∀ (total k : ℕ) (cells : Bytes), (∀ b ∈ cells, b ≠ 124) →
      shown ((cells.zipIdx k).flatMap (registerCell total)) = cells := by
    intro total k cells hcells
    induction cells generalizing k with
    | nil => rfl
    | cons b cells ih =>
      rw [List.zipIdx_cons,List.flatMap_cons,shown_registerCell total k (hcells b List.mem_cons_self)]
      rw [ih (k + 1) fun c hc => hcells c (List.mem_cons_of_mem b hc)]
  rw [registerText_eq]
  exact hcells bits.length 0 bits h

theorem expansion_plain (text : Bytes) : ∀ b ∈ expansion text, b ≠ 124 := by
  intro b hb
  obtain ⟨c,-,hb⟩ := List.mem_flatMap.mp hb
  obtain ⟨i,-,rfl⟩ := List.mem_map.mp hb
  split_ifs <;> decide

/-- The message of the last load that was not refused. -/
def lastLoaded (past : List Action) : Option Bytes :=
  past.foldl (fun last action => match action with
    | .qmsg message => if message = [] then last else some message
    | _ => last) none

/-- What the register is worth after a history. -/
structure Register.Holds (past : List Action) (r : Register) : Prop where
  measured : r.measured = true → r.encoded = true
  encoded : r.encoded = true → r.loaded = true
  bits : r.encoded = true → r.bits = expansion r.text
  last : r.loaded = true → ∃ message, lastLoaded past = some message ∧ r.text = message.take 127

theorem lastLoaded_concat (past : List Action) (action : Action) : lastLoaded (past ++ [action]) =
    match action with
    | .qmsg message => if message = [] then lastLoaded past else some message
    | _ => lastLoaded past := by
  simp only [lastLoaded,List.foldl_append,List.foldl_cons,List.foldl_nil]

theorem Register.Holds.short {past : List Action} {r : Register} (h : r.Holds past) (hloaded : r.loaded = true) :
    r.text.length ≤ 127 := by
  obtain ⟨message,-,htext⟩ := h.last hloaded
  rw [htext,List.length_take]
  omega

theorem Register.Holds.after {past : List Action} {r : Register} (h : r.Holds past) (action : Action) :
    (r.after action).Holds (past ++ [action]) := by
  have hlast := lastLoaded_concat past action
  cases action with
  | qmsg message =>
    simp only [Register.after]
    split_ifs with hempty
    · simp only [if_pos hempty] at hlast
      exact ⟨h.measured,h.encoded,h.bits,by rw [hlast]; exact h.last⟩
    · simp only [if_neg hempty] at hlast
      exact ⟨nofun,nofun,nofun,fun _ => ⟨message,hlast,rfl⟩⟩
  | encode target =>
    simp only [] at hlast
    simp only [Register.after]
    split_ifs with hencode
    · have hshort := h.short hencode.2
      refine ⟨nofun,fun _ => hencode.2,fun _ => textBits_eq ?_,fun hl => by rw [hlast]; exact h.last hl⟩
      simp only [qmsgMaxBits,qmsgMaxChars]
      omega
    · exact ⟨h.measured,h.encoded,h.bits,by rw [hlast]; exact h.last⟩
  | measure name =>
    simp only [] at hlast
    simp only [Register.after]
    split_ifs with hmeasure
    · exact ⟨fun _ => hmeasure.2,h.encoded,h.bits,by rw [hlast]; exact h.last⟩
    · exact ⟨h.measured,h.encoded,h.bits,by rw [hlast]; exact h.last⟩
  | _ => exact ⟨h.measured,h.encoded,h.bits,by rw [hlast]; exact h.last⟩

section
variable {D : Type} [Doubles D]

/-- The states of a process that runs programs one after the other, with the actions performed
since it started, oldest first. -/
inductive VM.ArisesBy : List Action → VM D → Prop
  | boot : VM.ArisesBy [] (emptyVM D)
  | run {past : List Action} {vm : VM D} {rand : ℕ → ℤ} {code : List Instruction} {m : Machine D}
      (h : VM.ArisesBy past vm) (hr : Reaches (step rand code) ⟨0, [], ⟨vm.print banner, []⟩, false⟩ m) :
      VM.ArisesBy (past ++ m.session.actions) m.session.vm

theorem VM.ArisesBy.holds {past : List Action} {vm : VM D} (h : VM.ArisesBy past vm) : vm.register.Holds past := by
  induction h with
  | boot => exact ⟨nofun,nofun,nofun,nofun⟩
  | @run past vm rand code m _ hr ih =>
    refine hr.invariant (I := fun m => m.session.vm.register.Holds (past ++ m.session.actions)) ?_ ?_
    · intro m m' hm hstep
      rcases step_session hstep with hs | ⟨ins,action,-,-,hs⟩ | ⟨text,hs⟩
      · rw [hs]
        exact hm
      · rw [hs,Session.perform,register_act,← List.append_assoc]
        exact hm.after action
      · rw [hs,register_print]
        exact hm
    · rw [register_print,List.append_nil]
      exact ih

/-- In every state of every process the flags imply each other, the encoded bits are those of
the text, what the register shows regroups to what decoding prints, and that is the last
message loaded, cut to the buffer. -/
theorem message_register {past : List Action} {vm : VM D} (h : VM.ArisesBy past vm) :
    (vm.qmsgMeasured = true → vm.qmsgEncoded = true) ∧ (vm.qmsgEncoded = true → vm.qmsgLoaded = true) ∧
    (vm.qmsgEncoded = true →
      vm.qmsgText.length ≤ 127 ∧ vm.qmsgBits = expansion vm.qmsgText ∧ vm.qmsgBits.length < qmsgMaxBits ∧
      (vm.vmSay (str "qmsg")).output =
        vm.output ++ (str "[QMSG] virtual qbit register:\n" ++ VM.registerText vm.qmsgBits) ∧
      regroup (shown (VM.registerText vm.qmsgBits)) = vm.qmsgText ∧
      (∃ warning, vm.qmsgDecode.output =
        vm.output ++ warning ++ (str "[QMSG] decoded message: " ++ vm.qmsgText ++ str "\n")) ∧
      ∃ message, lastLoaded past = some message ∧ vm.qmsgText = message.take 127) := by
  have hholds := h.holds
  refine ⟨hholds.measured,hholds.encoded,fun hencoded => ?_⟩
  have hloaded := hholds.encoded hencoded
  have hshort : vm.qmsgText.length ≤ 127 := hholds.short hloaded
  have hbits : vm.qmsgBits = expansion vm.qmsgText := hholds.bits hencoded
  refine ⟨hshort,hbits,?_,?_,?_,?_,hholds.last hloaded⟩
  · rw [hbits,length_expansion,qmsgMaxBits,qmsgMaxChars]
    omega
  · rw [VM.vmSay,if_pos rfl,VM.qmsgPrintRegister,hencoded]
    rfl
  · rw [hbits,shown_registerText (expansion_plain _),regroup_expansion]
  · unfold VM.qmsgDecode
    rw [hencoded]
    cases vm.qmsgMeasured with
    | true => exact ⟨[],by simp [VM.print]⟩
    | false => exact ⟨str "[QMSG WARN] decoding before measure\n",by simp [VM.print]⟩

end

/-- Load a message, have an empty one refused, encode and measure. -/
def messageProgram : List Instruction :=
  [⟨.qmsg, str "Hi", [], 0⟩, ⟨.qmsg, [], [], 0⟩, ⟨.encodeQmsg, str "qmsg", [], 0⟩, ⟨.measure, str "qmsg", [], 0⟩]

theorem message_register_measured : letI := wholeDoubles
    ∃ past, ∃ vm : VM ℤ, VM.ArisesBy past vm ∧ vm.qmsgMeasured = true ∧ vm.qmsgText = str "Hi" ∧
      regroup (shown (VM.registerText vm.qmsgBits)) = vm.qmsgText := by
  let := wholeDoubles
  obtain ⟨m,hm⟩ : ∃ m, halt (step (D := ℤ) (fun _ => 0) messageProgram) 5
      ⟨0, [], ⟨(emptyVM ℤ).print banner, []⟩, false⟩ = some m := ⟨_,rfl⟩
  have harises : VM.ArisesBy _ m.session.vm := .run .boot (reaches_of_halt hm).1
  obtain rfl := Option.some.inj hm
  exact ⟨_,_,harises,rfl,rfl,((message_register harises).2.2 rfl).2.2.2.2.1⟩

end QbitNova.Language
