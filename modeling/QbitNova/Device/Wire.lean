import QbitNova.Library.LittleEndian

/-! # The qcpud wire protocol: records, frames and the two codecs

Frames are written and read at the literal offsets of the C codec. The norm is
carried as its 64-bit pattern, so NaN patterns are ordinary values here.
-/
namespace QbitNova.DeviceWire
open LittleEndian

def qcpuDeviceProtocolVersion : UInt16 := 1
def qcpuDeviceRequestMagic : UInt32 := 0x51445631
def qcpuDeviceResponseMagic : UInt32 := 0x51525631
def qcpuDeviceMaxQubits : UInt32 := 20
def qcpuDeviceMaxShots : UInt32 := 100
@[simp] abbrev qcpuDeviceRequestWireSize : ℕ := 24
@[simp] abbrev qcpuDeviceResponseWireSize : ℕ := 56

def qcpuDeviceCommandStatus : UInt16 := 1
def qcpuDeviceCommandRunGhz : UInt16 := 2

inductive QCPUDeviceStatus where
  | ok | badMagic | badVersion | badCommand | range | kernel | io
  deriving DecidableEq, Repr

/-- The numbers of the C enumeration. -/
def QCPUDeviceStatus.code : QCPUDeviceStatus → UInt16
  | .ok => 0
  | .badMagic => 1
  | .badVersion => 2
  | .badCommand => 3
  | .range => 4
  | .kernel => 5
  | .io => 6

/-- A `double` as its object representation. -/
structure Binary64 where
  bits : UInt64
  deriving DecidableEq, Repr

def doubleToU64 (value : Binary64) : UInt64 := value.bits
def u64ToDouble (bits : UInt64) : Binary64 := ⟨bits⟩

structure QCPUDeviceRequest where
  magic : UInt32
  version : UInt16
  command : UInt16
  qubits : UInt32
  shots : UInt32
  seed : UInt64
  deriving DecidableEq, Repr

structure QCPUDeviceResponse where
  magic : UInt32
  version : UInt16
  status : UInt16
  flags : UInt32
  qubits : UInt32
  basisStates : UInt64
  shots : UInt64
  measuredState : UInt64
  invalidResults : UInt64
  norm : Binary64
  deriving DecidableEq, Repr

def putU16Le (value : UInt16) : List UInt8 := [(value &&& 0xff).toUInt8, (value >>> 8).toUInt8]

def putU32Le (value : UInt32) : List UInt8 :=
  [(value &&& 0xff).toUInt8, ((value >>> 8) &&& 0xff).toUInt8,
    ((value >>> 16) &&& 0xff).toUInt8, (value >>> 24).toUInt8]

def putU64Le (value : UInt64) : List UInt8 :=
  (List.range 8).map (fun index => (value >>> (UInt64.ofNat (index * 8))).toUInt8)

def getU16Le (input : List UInt8) : UInt16 :=
  (input.getD 0 0).toUInt16 ||| ((input.getD 1 0).toUInt16 <<< 8)

def getU32Le (input : List UInt8) : UInt32 :=
  (input.getD 0 0).toUInt32 ||| ((input.getD 1 0).toUInt32 <<< 8) |||
    ((input.getD 2 0).toUInt32 <<< 16) ||| ((input.getD 3 0).toUInt32 <<< 24)

def getU64Le (input : List UInt8) : UInt64 :=
  (List.range 8).foldl
    (fun value index => value ||| ((input.getD index 0).toUInt64 <<< (UInt64.ofNat (index * 8)))) 0

@[simp] theorem length_putU16Le (v : UInt16) : (putU16Le v).length = 2 := rfl
@[simp] theorem length_putU32Le (v : UInt32) : (putU32Le v).length = 4 := rfl
@[simp] theorem length_putU64Le (v : UInt64) : (putU64Le v).length = 8 := rfl

theorem drop_putU16Le (v : UInt16) {k : ℕ} (h : 2 ≤ k) : (putU16Le v).drop k = [] :=
  List.drop_of_length_le h
theorem drop_putU32Le (v : UInt32) {k : ℕ} (h : 4 ≤ k) : (putU32Le v).drop k = [] :=
  List.drop_of_length_le h
theorem drop_putU64Le (v : UInt64) {k : ℕ} (h : 8 ≤ k) : (putU64Le v).drop k = [] :=
  List.drop_of_length_le h

theorem putU16Le_eq (v : UInt16) : putU16Le v = digits 2 v.toNat := by
  have h := v.toNat_lt
  simp only [putU16Le,digits,List.cons.injEq,and_true]
  constructor <;> apply UInt8.toNat_inj.mp <;>
    simp [UInt8.toNat_ofNat',Nat.shiftRight_eq_div_pow,Nat.and_two_pow_sub_one_eq_mod _ 8]

theorem putU32Le_eq (v : UInt32) : putU32Le v = digits 4 v.toNat := by
  have h := v.toNat_lt
  simp only [putU32Le,digits,List.cons.injEq,and_true]
  refine ⟨?_,?_,?_,?_⟩ <;> apply UInt8.toNat_inj.mp <;>
    simp [UInt8.toNat_ofNat',Nat.shiftRight_eq_div_pow,Nat.and_two_pow_sub_one_eq_mod _ 8,
      Nat.div_div_eq_div_mul]

theorem putU64Le_eq (v : UInt64) : putU64Le v = digits 8 v.toNat := by
  have h := v.toNat_lt
  simp only [putU64Le,show List.range 8 = [0,1,2,3,4,5,6,7] from rfl,List.map_cons,List.map_nil,digits,
    List.cons.injEq,and_true]
  refine ⟨?_,?_,?_,?_,?_,?_,?_,?_⟩ <;> apply UInt8.toNat_inj.mp <;>
    simp [UInt8.toNat_ofNat',Nat.shiftRight_eq_div_pow,Nat.div_div_eq_div_mul]

/-- A byte shifted below the width of the target type loses nothing. -/
theorem byte_shift_mod (b : UInt8) {k w : ℕ} (h : k + 8 ≤ w) :
    b.toNat <<< k % 2 ^ w = b.toNat <<< k := by
  apply Nat.mod_eq_of_lt
  rw [Nat.shiftLeft_eq]
  calc b.toNat * 2 ^ k < 2 ^ 8 * 2 ^ k := Nat.mul_lt_mul_of_pos_right b.toNat_lt (Nat.two_pow_pos k)
    _ = 2 ^ (k + 8) := by rw [← pow_add,Nat.add_comm]
    _ ≤ 2 ^ w := Nat.pow_le_pow_right (by decide) h

theorem getU16Le_toNat {input : List UInt8} (h : 2 ≤ input.length) :
    (getU16Le input).toNat = value (input.take 2) := by
  match input, h with
  | b0 :: b1 :: rest, _ =>
    have hs1 : b1.toNat <<< 8 % 65536 = b1.toNat <<< 8 := byte_shift_mod b1 (w := 16) (by decide)
    have hv1 : value [b0] ||| b1.toNat <<< 8 = value [b0,b1] := value_or_shift [b0] b1
    have hb : (getU16Le (b0 :: b1 :: rest)).toNat = value [b0] ||| b1.toNat <<< 8 := by
      simp [getU16Le,value,hs1]
    rw [hb,hv1]
    rfl

theorem getU32Le_toNat {input : List UInt8} (h : 4 ≤ input.length) :
    (getU32Le input).toNat = value (input.take 4) := by
  match input, h with
  | b0 :: b1 :: b2 :: b3 :: rest, _ =>
    have hs1 : b1.toNat <<< 8 % 4294967296 = b1.toNat <<< 8 := byte_shift_mod b1 (w := 32) (by decide)
    have hs2 : b2.toNat <<< 16 % 4294967296 = b2.toNat <<< 16 := byte_shift_mod b2 (w := 32) (by decide)
    have hs3 : b3.toNat <<< 24 % 4294967296 = b3.toNat <<< 24 := byte_shift_mod b3 (w := 32) (by decide)
    have hv1 : value [b0] ||| b1.toNat <<< 8 = value [b0,b1] := value_or_shift [b0] b1
    have hv2 : value [b0,b1] ||| b2.toNat <<< 16 = value [b0,b1,b2] := value_or_shift [b0,b1] b2
    have hv3 : value [b0,b1,b2] ||| b3.toNat <<< 24 = value [b0,b1,b2,b3] := value_or_shift [b0,b1,b2] b3
    have hb : (getU32Le (b0 :: b1 :: b2 :: b3 :: rest)).toNat =
        ((value [b0] ||| b1.toNat <<< 8) ||| b2.toNat <<< 16) ||| b3.toNat <<< 24 := by
      simp [getU32Le,value,hs1,hs2,hs3]
    rw [hb,hv1,hv2,hv3]
    rfl

/-- The or-loop of the 64-bit reader collects one more digit in each round. -/
theorem getU64Le_loop {input : List UInt8} (h : 8 ≤ input.length) {k : ℕ} (hk : k ≤ 8) :
    ((List.range k).foldl (fun value index => value |||
      ((input.getD index 0).toUInt64 <<< (UInt64.ofNat (index * 8)))) (0 : UInt64)).toNat =
      value (input.take k) := by
  induction k with
  | zero => simp [value]
  | succ k ih =>
    have hlen : (input.take k).length = k := by rw [List.length_take]; omega
    have hshift : (UInt64.ofNat (k * 8)).toNat % 64 = k * 8 := by
      rw [UInt64.toNat_ofNat']
      omega
    rw [List.range_succ,List.foldl_append,List.foldl_cons,List.foldl_nil,UInt64.toNat_or,
      UInt64.toNat_shiftLeft,ih (by omega),hshift,UInt8.toNat_toUInt64,
      byte_shift_mod _ (by omega),take_succ_getD (by omega)]
    have hv := value_or_shift (input.take k) (input.getD k 0)
    rwa [hlen] at hv

theorem getU64Le_toNat {input : List UInt8} (h : 8 ≤ input.length) :
    (getU64Le input).toNat = value (input.take 8) := getU64Le_loop h le_rfl

/-- Reading the bytes just written gives the field back, whatever follows it. -/
@[simp] theorem getU16Le_put (v : UInt16) (rest : List UInt8) : getU16Le (putU16Le v ++ rest) = v := by
  apply UInt16.toNat_inj.mp
  have hl := length_putU16Le v
  rw [getU16Le_toNat (by simp),List.take_left' hl,putU16Le_eq,value_digits]
  exact Nat.mod_eq_of_lt v.toNat_lt

@[simp] theorem getU32Le_put (v : UInt32) (rest : List UInt8) : getU32Le (putU32Le v ++ rest) = v := by
  apply UInt32.toNat_inj.mp
  have hl := length_putU32Le v
  rw [getU32Le_toNat (by simp),List.take_left' hl,putU32Le_eq,value_digits]
  exact Nat.mod_eq_of_lt v.toNat_lt

@[simp] theorem getU64Le_put (v : UInt64) (rest : List UInt8) : getU64Le (putU64Le v ++ rest) = v := by
  apply UInt64.toNat_inj.mp
  have hl := length_putU64Le v
  rw [getU64Le_toNat (by simp),List.take_left' hl,putU64Le_eq,value_digits]
  exact Nat.mod_eq_of_lt v.toNat_lt

/-- Writing a field just read restores its bytes. -/
theorem putU16Le_get {input : List UInt8} (h : 2 ≤ input.length) :
    putU16Le (getU16Le input) = input.take 2 := by
  have hd := digits_value (input.take 2)
  rw [List.length_take,Nat.min_eq_left h] at hd
  rw [putU16Le_eq,getU16Le_toNat h,hd]

theorem putU32Le_get {input : List UInt8} (h : 4 ≤ input.length) :
    putU32Le (getU32Le input) = input.take 4 := by
  have hd := digits_value (input.take 4)
  rw [List.length_take,Nat.min_eq_left h] at hd
  rw [putU32Le_eq,getU32Le_toNat h,hd]

theorem putU64Le_get {input : List UInt8} (h : 8 ≤ input.length) :
    putU64Le (getU64Le input) = input.take 8 := by
  have hd := digits_value (input.take 8)
  rw [List.length_take,Nat.min_eq_left h] at hd
  rw [putU64Le_eq,getU64Le_toNat h,hd]

def qcpuDeviceEncodeRequest (output : Frame qcpuDeviceRequestWireSize) (request : QCPUDeviceRequest) :
    QCPUDeviceStatus × Frame qcpuDeviceRequestWireSize :=
  let output := output.write 0 (putU32Le request.magic) (by simp)
  let output := output.write 4 (putU16Le request.version) (by simp)
  let output := output.write 6 (putU16Le request.command) (by simp)
  let output := output.write 8 (putU32Le request.qubits) (by simp)
  let output := output.write 12 (putU32Le request.shots) (by simp)
  let output := output.write 16 (putU64Le request.seed) (by simp)
  (.ok, output)

/-- The record is the caller's; a frame of another size leaves it as it was. -/
def qcpuDeviceDecodeRequest (request : QCPUDeviceRequest) (input : List UInt8) :
    QCPUDeviceStatus × QCPUDeviceRequest :=
  if input.length ≠ qcpuDeviceRequestWireSize then (.io, request)
  else
    let request : QCPUDeviceRequest :=
      { magic := getU32Le (input.drop 0)
        version := getU16Le (input.drop 4)
        command := getU16Le (input.drop 6)
        qubits := getU32Le (input.drop 8)
        shots := getU32Le (input.drop 12)
        seed := getU64Le (input.drop 16) }
    if request.magic ≠ qcpuDeviceRequestMagic then (.badMagic, request)
    else if request.version ≠ qcpuDeviceProtocolVersion then (.badVersion, request)
    else (.ok, request)

def qcpuDeviceEncodeResponse (output : Frame qcpuDeviceResponseWireSize) (response : QCPUDeviceResponse) :
    QCPUDeviceStatus × Frame qcpuDeviceResponseWireSize :=
  let output := output.write 0 (putU32Le response.magic) (by simp)
  let output := output.write 4 (putU16Le response.version) (by simp)
  let output := output.write 6 (putU16Le response.status) (by simp)
  let output := output.write 8 (putU32Le response.flags) (by simp)
  let output := output.write 12 (putU32Le response.qubits) (by simp)
  let output := output.write 16 (putU64Le response.basisStates) (by simp)
  let output := output.write 24 (putU64Le response.shots) (by simp)
  let output := output.write 32 (putU64Le response.measuredState) (by simp)
  let output := output.write 40 (putU64Le response.invalidResults) (by simp)
  let output := output.write 48 (putU64Le (doubleToU64 response.norm)) (by simp)
  (.ok, output)

def qcpuDeviceDecodeResponse (response : QCPUDeviceResponse) (input : List UInt8) :
    QCPUDeviceStatus × QCPUDeviceResponse :=
  if input.length ≠ qcpuDeviceResponseWireSize then (.io, response)
  else
    let response : QCPUDeviceResponse :=
      { magic := getU32Le (input.drop 0)
        version := getU16Le (input.drop 4)
        status := getU16Le (input.drop 6)
        flags := getU32Le (input.drop 8)
        qubits := getU32Le (input.drop 12)
        basisStates := getU64Le (input.drop 16)
        shots := getU64Le (input.drop 24)
        measuredState := getU64Le (input.drop 32)
        invalidResults := getU64Le (input.drop 40)
        norm := u64ToDouble (getU64Le (input.drop 48)) }
    if response.magic ≠ qcpuDeviceResponseMagic then (.badMagic, response)
    else if response.version ≠ qcpuDeviceProtocolVersion then (.badVersion, response)
    else (.ok, response)

/-- The request frame is the concatenation of its fields, whatever the buffer held before. -/
def requestBytes (r : QCPUDeviceRequest) : List UInt8 :=
  putU32Le r.magic ++ (putU16Le r.version ++ (putU16Le r.command ++ (putU32Le r.qubits ++
    (putU32Le r.shots ++ putU64Le r.seed))))

def responseBytes (r : QCPUDeviceResponse) : List UInt8 :=
  putU32Le r.magic ++ (putU16Le r.version ++ (putU16Le r.status ++ (putU32Le r.flags ++
    (putU32Le r.qubits ++ (putU64Le r.basisStates ++ (putU64Le r.shots ++ (putU64Le r.measuredState ++
      (putU64Le r.invalidResults ++ putU64Le (doubleToU64 r.norm)))))))))

theorem encodeRequest_bytes (output : Frame qcpuDeviceRequestWireSize) (r : QCPUDeviceRequest) :
    (qcpuDeviceEncodeRequest output r).2.val = requestBytes r := by
  have h0 := (Filled.nil output).write (putU32Le r.magic) rfl (by simp)
  have h4 := h0.write (putU16Le r.version) rfl (by simp)
  have h6 := h4.write (putU16Le r.command) rfl (by simp)
  have h8 := h6.write (putU32Le r.qubits) rfl (by simp)
  have h12 := h8.write (putU32Le r.shots) rfl (by simp)
  have h16 := h12.write (putU64Le r.seed) rfl (by simp)
  refine (h16.eq (by simp)).trans ?_
  simp only [requestBytes,List.append_assoc,List.nil_append]

theorem encodeResponse_bytes (output : Frame qcpuDeviceResponseWireSize) (r : QCPUDeviceResponse) :
    (qcpuDeviceEncodeResponse output r).2.val = responseBytes r := by
  have h0 := (Filled.nil output).write (putU32Le r.magic) rfl (by simp)
  have h4 := h0.write (putU16Le r.version) rfl (by simp)
  have h6 := h4.write (putU16Le r.status) rfl (by simp)
  have h8 := h6.write (putU32Le r.flags) rfl (by simp)
  have h12 := h8.write (putU32Le r.qubits) rfl (by simp)
  have h16 := h12.write (putU64Le r.basisStates) rfl (by simp)
  have h24 := h16.write (putU64Le r.shots) rfl (by simp)
  have h32 := h24.write (putU64Le r.measuredState) rfl (by simp)
  have h40 := h32.write (putU64Le r.invalidResults) rfl (by simp)
  have h48 := h40.write (putU64Le (doubleToU64 r.norm)) rfl (by simp)
  refine (h48.eq (by simp)).trans ?_
  simp only [responseBytes,List.append_assoc,List.nil_append]

/-- The header check both decoders end with; the magic is looked at first. -/
def headerStatus (magic expected : UInt32) (version : UInt16) : QCPUDeviceStatus :=
  if magic ≠ expected then .badMagic
  else if version ≠ qcpuDeviceProtocolVersion then .badVersion
  else .ok

theorem decodeRequest_eq (old : QCPUDeviceRequest) {input : List UInt8}
    (h : input.length = qcpuDeviceRequestWireSize) :
    qcpuDeviceDecodeRequest old input =
      (headerStatus (getU32Le input) qcpuDeviceRequestMagic (getU16Le (input.drop 4)),
        ⟨getU32Le input, getU16Le (input.drop 4), getU16Le (input.drop 6), getU32Le (input.drop 8),
          getU32Le (input.drop 12), getU64Le (input.drop 16)⟩) := by
  simp only [qcpuDeviceDecodeRequest,headerStatus,h,ne_eq,not_true_eq_false,↓reduceIte,List.drop_zero]
  split_ifs <;> rfl

theorem decodeResponse_eq (old : QCPUDeviceResponse) {input : List UInt8}
    (h : input.length = qcpuDeviceResponseWireSize) :
    qcpuDeviceDecodeResponse old input =
      (headerStatus (getU32Le input) qcpuDeviceResponseMagic (getU16Le (input.drop 4)),
        ⟨getU32Le input, getU16Le (input.drop 4), getU16Le (input.drop 6), getU32Le (input.drop 8),
          getU32Le (input.drop 12), getU64Le (input.drop 16), getU64Le (input.drop 24),
          getU64Le (input.drop 32), getU64Le (input.drop 40), u64ToDouble (getU64Le (input.drop 48))⟩) := by
  simp only [qcpuDeviceDecodeResponse,headerStatus,h,ne_eq,not_true_eq_false,↓reduceIte,List.drop_zero]
  split_ifs <;> rfl

theorem decodeRequest_wrong_size (old : QCPUDeviceRequest) {input : List UInt8}
    (h : input.length ≠ qcpuDeviceRequestWireSize) : qcpuDeviceDecodeRequest old input = (.io, old) := by
  simp only [qcpuDeviceDecodeRequest,if_pos h]

theorem decodeResponse_wrong_size (old : QCPUDeviceResponse) {input : List UInt8}
    (h : input.length ≠ qcpuDeviceResponseWireSize) : qcpuDeviceDecodeResponse old input = (.io, old) := by
  simp only [qcpuDeviceDecodeResponse,if_pos h]

/-- Decoding an encoded request restores every field. -/
theorem decodeRequest_encode (old r : QCPUDeviceRequest) (output : Frame qcpuDeviceRequestWireSize) :
    qcpuDeviceDecodeRequest old (qcpuDeviceEncodeRequest output r).2.val =
      (headerStatus r.magic qcpuDeviceRequestMagic r.version, r) := by
  rw [decodeRequest_eq old (qcpuDeviceEncodeRequest output r).2.property,encodeRequest_bytes]
  have hseed := getU64Le_put r.seed []
  rw [List.append_nil] at hseed
  simp [requestBytes,List.drop_append,drop_putU16Le,drop_putU32Le,hseed]

theorem decodeResponse_encode (old r : QCPUDeviceResponse) (output : Frame qcpuDeviceResponseWireSize) :
    qcpuDeviceDecodeResponse old (qcpuDeviceEncodeResponse output r).2.val =
      (headerStatus r.magic qcpuDeviceResponseMagic r.version, r) := by
  rw [decodeResponse_eq old (qcpuDeviceEncodeResponse output r).2.property,encodeResponse_bytes]
  have hnorm := getU64Le_put (doubleToU64 r.norm) []
  rw [List.append_nil] at hnorm
  simp [responseBytes,List.drop_append,drop_putU16Le,drop_putU32Le,drop_putU64Le,hnorm,u64ToDouble]
  rfl

/-- Cutting a segment off the front of what is left at `off`. -/
theorem take_append_drop_drop (input : List UInt8) (off k : ℕ) :
    (input.drop off).take k ++ input.drop (off + k) = input.drop off := by
  rw [← List.drop_drop,List.take_append_drop]

theorem requestBytes_decode (old : QCPUDeviceRequest) {input : List UInt8}
    (h : input.length = qcpuDeviceRequestWireSize) :
    requestBytes (qcpuDeviceDecodeRequest old input).2 = input := by
  rw [decodeRequest_eq old h]
  have hlast : (input.drop 16).take 8 = input.drop 16 := List.take_of_length_le (by simp [h])
  simp only [requestBytes]
  rw [putU32Le_get (by simp [h]),putU16Le_get (by simp [h]),putU16Le_get (by simp [h]),
    putU32Le_get (by simp [h]),putU32Le_get (by simp [h]),putU64Le_get (by simp [h]),hlast,
    take_append_drop_drop input 12 4,take_append_drop_drop input 8 4,take_append_drop_drop input 6 2,
    take_append_drop_drop input 4 2,List.take_append_drop]

theorem responseBytes_decode (old : QCPUDeviceResponse) {input : List UInt8}
    (h : input.length = qcpuDeviceResponseWireSize) :
    responseBytes (qcpuDeviceDecodeResponse old input).2 = input := by
  rw [decodeResponse_eq old h]
  have hlast : (input.drop 48).take 8 = input.drop 48 := List.take_of_length_le (by simp [h])
  simp only [responseBytes,doubleToU64,u64ToDouble]
  rw [putU32Le_get (by simp [h]),putU16Le_get (by simp [h]),putU16Le_get (by simp [h]),
    putU32Le_get (by simp [h]),putU32Le_get (by simp [h]),putU64Le_get (by simp [h]),
    putU64Le_get (by simp [h]),putU64Le_get (by simp [h]),putU64Le_get (by simp [h]),
    putU64Le_get (by simp [h]),hlast,
    take_append_drop_drop input 40 8,take_append_drop_drop input 32 8,take_append_drop_drop input 24 8,
    take_append_drop_drop input 16 8,take_append_drop_drop input 12 4,take_append_drop_drop input 8 4,
    take_append_drop_drop input 6 2,take_append_drop_drop input 4 2,List.take_append_drop]

theorem headerStatus_ok (magic expected : UInt32) (version : UInt16) :
    headerStatus magic expected version = .ok ↔ magic = expected ∧ version = qcpuDeviceProtocolVersion := by
  unfold headerStatus
  split_ifs with hm hv <;> simp_all

theorem headerStatus_badMagic (magic expected : UInt32) (version : UInt16) :
    headerStatus magic expected version = .badMagic ↔ magic ≠ expected := by
  unfold headerStatus
  split_ifs with hm hv <;> simp_all

theorem headerStatus_badVersion (magic expected : UInt32) (version : UInt16) :
    headerStatus magic expected version = .badVersion ↔
      magic = expected ∧ version ≠ qcpuDeviceProtocolVersion := by
  unfold headerStatus
  split_ifs with hm hv <;> simp_all

/-- What a codec owes for records `R` over frames of `n` bytes. `header r` is the
pair of the magic and version fields of `r`; records the decoder fills in belong
to the caller, and so do the buffers the encoder writes. -/
structure CodecLaws {R : Type} {n : ℕ} (encode : Frame n → R → QCPUDeviceStatus × Frame n)
    (decode : R → List UInt8 → QCPUDeviceStatus × R) (header : R → UInt32 × UInt16)
    (expected : UInt32) : Prop where
  encode_ok : ∀ output r, (encode output r).1 = .ok
  restores : ∀ old output r, (decode old (encode output r).2.val).2 = r
  status_ok : ∀ old output r, (decode old (encode output r).2.val).1 = .ok ↔
    (header r).1 = expected ∧ (header r).2 = qcpuDeviceProtocolVersion
  status_badMagic : ∀ old output r, (decode old (encode output r).2.val).1 = .badMagic ↔
    (header r).1 ≠ expected
  status_badVersion : ∀ old output r, (decode old (encode output r).2.val).1 = .badVersion ↔
    (header r).1 = expected ∧ (header r).2 ≠ qcpuDeviceProtocolVersion
  restores_frame : ∀ old output (frame : Frame n), (encode output (decode old frame.val).2).2 = frame
  wrong_size : ∀ old (frame : List UInt8), frame.length ≠ n → decode old frame = (.io, old)

theorem request_laws : CodecLaws qcpuDeviceEncodeRequest qcpuDeviceDecodeRequest
    (fun r => (r.magic, r.version)) qcpuDeviceRequestMagic where
  encode_ok _ _ := rfl
  restores old output r := by rw [decodeRequest_encode]
  status_ok old output r := by rw [decodeRequest_encode]; exact headerStatus_ok _ _ _
  status_badMagic old output r := by rw [decodeRequest_encode]; exact headerStatus_badMagic _ _ _
  status_badVersion old output r := by rw [decodeRequest_encode]; exact headerStatus_badVersion _ _ _
  restores_frame old output frame :=
    Subtype.ext ((encodeRequest_bytes output _).trans (requestBytes_decode old frame.property))
  wrong_size old frame h := decodeRequest_wrong_size old h

theorem response_laws : CodecLaws qcpuDeviceEncodeResponse qcpuDeviceDecodeResponse
    (fun r => (r.magic, r.version)) qcpuDeviceResponseMagic where
  encode_ok _ _ := rfl
  restores old output r := by rw [decodeResponse_encode]
  status_ok old output r := by rw [decodeResponse_encode]; exact headerStatus_ok _ _ _
  status_badMagic old output r := by rw [decodeResponse_encode]; exact headerStatus_badMagic _ _ _
  status_badVersion old output r := by rw [decodeResponse_encode]; exact headerStatus_badVersion _ _ _
  restores_frame old output frame :=
    Subtype.ext ((encodeResponse_bytes output _).trans (responseBytes_decode old frame.property))
  wrong_size old frame h := decodeResponse_wrong_size old h

/-- Both codecs are mutually inverse on whole frames, classify the header with
the magic first, and answer a frame of any other size without touching the record. -/
theorem codecs_inverse :
    CodecLaws qcpuDeviceEncodeRequest qcpuDeviceDecodeRequest
      (fun r => (r.magic, r.version)) qcpuDeviceRequestMagic ∧
    CodecLaws qcpuDeviceEncodeResponse qcpuDeviceDecodeResponse
      (fun r => (r.magic, r.version)) qcpuDeviceResponseMagic := ⟨request_laws,response_laws⟩

end QbitNova.DeviceWire
