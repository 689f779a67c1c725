import QbitNova.Device.Wire
import QbitNova.Library.Checks
import QbitNova.Library.Numerals

/-! # The arguments of the tools

The client and the kernel tool read their numbers with `strtoull` and then look at what it
left. The three parsers differ in the base, in whether they take a minus sign and in the
largest number; each is compared with the texts that it is meant to accept.
-/
namespace QbitNova.Tools
open CText DeviceWire

/-- The number an argument stands for, or the message with which the tool gives up. -/
def parseNumber (base : ℕ) (signed : Bool) (maximum : ℕ) (label text : Bytes) : Except Bytes ℕ :=
  let negative := (text.dropWhile isspace).head? = some 45
  let conversion := strtoull text base
  if (!signed ∧ negative) ∨ conversion.outOfRange ∨ !conversion.converted ∨ conversion.rest ≠ [] ∨
      conversion.value > maximum then .error (str "ERROR: invalid " ++ label ++ str ": " ++ text ++ [10])
  else .ok conversion.value

def parseUnsigned (text : Bytes) (maximum : ℕ) (label : Bytes) : Except Bytes ℕ := parseNumber 0 false maximum label text

def parseSize (text label : Bytes) : Except Bytes ℕ := parseNumber 10 false (2 ^ 64 - 1) label text

def parseSeed (text : Bytes) : Except Bytes ℕ := parseNumber 0 true (2 ^ 64 - 1) (str "seed") text

/-- What the device client sends, and where, for the arguments behind the name of the program. -/
def clientRequest (program : Bytes) (args : List Bytes) : Except Bytes (Bytes × QCPUDeviceRequest) :=
  let usage := str "USAGE:\n  " ++ program ++ str " --socket PATH status\n  " ++ program ++
    str " --socket PATH run-ghz QUBITS SHOTS SEED\n"
  let request : QCPUDeviceRequest := ⟨qcpuDeviceRequestMagic, qcpuDeviceProtocolVersion, 0, 0, 0, 0⟩
  match args with
  | socket :: socketPath :: command :: rest =>
    if socket ≠ str "--socket" then .error usage
    else if command = str "status" then
      if rest ≠ [] then .error (str "ERROR: status takes no arguments\n")
      else .ok (socketPath, { request with command := qcpuDeviceCommandStatus })
    else if command = str "run-ghz" then
      match rest with
      | [qubits, shots, seed] => do
        let qubits ← parseUnsigned qubits qcpuDeviceMaxQubits.toNat (str "qubit count")
        let shots ← parseUnsigned shots qcpuDeviceMaxShots.toNat (str "shot count")
        let seed ← parseUnsigned seed (2 ^ 64 - 1) (str "seed")
        return (socketPath,
          { request with
            command := qcpuDeviceCommandRunGhz
            qubits := UInt32.ofNat qubits
            shots := UInt32.ofNat shots
            seed := UInt64.ofNat seed })
      | _ => .error (str "ERROR: run-ghz requires QUBITS SHOTS SEED\n")
    else .error (str "ERROR: unknown command: " ++ command ++ [10])
  | _ => .error usage

/-- The socket path of the daemon and whether it serves one client only. -/
def daemonArguments (program : Bytes) (args : List Bytes) : Except Bytes (Bytes × Bool) :=
  let checked (socket socketPath : Bytes) (option : Option Bytes) : Except Bytes (Bytes × Bool) :=
    if socket ≠ str "--socket" then .error (str "ERROR: --socket is required\n")
    else match option with
    | some word =>
      if word ≠ str "--once" then .error (str "ERROR: unsupported option: " ++ word ++ [10])
      else if socketPath.length ≥ 108 then .error (str "ERROR: socket path too long\n")
      else .ok (socketPath, true)
    | none =>
      if socketPath.length ≥ 108 then .error (str "ERROR: socket path too long\n") else .ok (socketPath, false)
  match args with
  | [socket, socketPath] => checked socket socketPath none
  | [socket, socketPath, option] => checked socket socketPath (some option)
  | _ => .error (str "USAGE: " ++ program ++ str " --socket PATH [--once]\n")

/-- The size of the register, the number of shots and the seed of the kernel tool. -/
structure KernelArguments where
  qubitCount : ℕ := 3
  shots : ℕ := 20
  seed : UInt64 := 424242
  deriving DecidableEq, Repr

/-- An argument that may be missing. -/
def argumentOr (default : ℕ) (parse : Bytes → Except Bytes ℕ) : Option Bytes → Except Bytes ℕ
  | some text => parse text
  | none => .ok default

def kernelArguments (program : Bytes) (args : List Bytes) : Except Bytes KernelArguments :=
  if args.length > 3 then .error (str "USAGE: " ++ program ++ str " [qubits] [shots] [seed]\n")
  else do
    let qubitCount ← argumentOr 3 (fun text => parseSize text (str "qubit count")) args[0]?
    let shots ← argumentOr 20 (fun text => parseSize text (str "shot count")) args[1]?
    let seed ← argumentOr 424242 parseSeed args[2]?
    return ⟨qubitCount, shots, UInt64.ofNat seed⟩

example : parseUnsigned (str " +0x14") 20 (str "qubit count") = .ok 20 := by decide
example : parseSize (str "010") (str "shot count") = .ok 10 := by decide
example : parseSeed (str "-1") = .ok 18446744073709551615 := by decide

section
variable {base maximum v : ℕ} {label text : Bytes}

/-- The texts of a number that the parser for a base lets pass. -/
structure Accepts (base : ℕ) (signed : Bool) (maximum : ℕ) (text : Bytes) (v : ℕ) : Prop where
  spelled : ∃ blanks signs numeral n, text = blanks ++ (signs ++ numeral) ∧ blank blanks = true ∧ Signs signs ∧
    (signed = false → signs ≠ [45]) ∧ Numeral base numeral n ∧ n < 2 ^ 64 ∧ v = signedValue signs n
  small : v ≤ maximum

/-- Behind the blanks a text starts with its sign. -/
theorem head_minus_iff {blanks signs numeral : Bytes} {n : ℕ} (hbase : base ≤ 36) (hblank : blank blanks = true)
    (hsigns : Signs signs) (hnumeral : Numeral base numeral n) :
    ((blanks ++ (signs ++ numeral)).dropWhile isspace).head? = some 45 ↔ signs = [45] := by
  rw [dropWhile_signed hbase hblank hsigns hnumeral]
  obtain ⟨c,rest,rfl,hc⟩ := hnumeral.head hbase
  rcases hsigns with rfl | rfl | rfl
  · simp only [List.nil_append,List.head?_cons,Option.some.injEq]
    refine ⟨?_,nofun⟩
    rintro rfl
    rw [not_digit (by simp)] at hc
    omega
  · simp
  · simp

theorem parseNumber_whole_iff (signed : Bool) : parseNumber base signed maximum label text = .ok v ↔
    (signed = false → (text.dropWhile isspace).head? ≠ some 45) ∧ (strtoull text base).Whole v ∧ v ≤ maximum := by
  unfold parseNumber
  dsimp only
  constructor
  · intro h
    obtain ⟨hpassed,hvalue⟩ := Checks.passed h
    cases hvalue
    simp only [not_or,not_and,Bool.not_eq_true,Bool.not_eq_eq_eq_not,Bool.not_true,not_not,
      not_lt] at hpassed
    obtain ⟨hminus,hrange,hconverted,hrest,hsmall⟩ := hpassed
    exact ⟨hminus,⟨by simpa using hconverted,hrange,hrest,rfl⟩,hsmall⟩
  · rintro ⟨hminus,⟨hconverted,hrange,hrest,rfl⟩,hsmall⟩
    rw [if_neg]
    rintro (⟨hsigned,hnegative⟩ | h | h | h | h)
    · exact hminus (by simpa using hsigned) hnegative
    · rw [hrange] at h
      cases h
    · rw [hconverted] at h
      cases h
    · exact h hrest
    · omega

theorem parseNumber_ok_iff (hbase : base ≤ 36) (signed : Bool) :
    parseNumber base signed maximum label text = .ok v ↔ Accepts base signed maximum text v := by
  rw [parseNumber_whole_iff,strtoull_whole_iff hbase]
  constructor
  · rintro ⟨hminus,⟨blanks,signs,numeral,n,rfl,hblank,hsigns,hnumeral,hn,hv⟩,hsmall⟩
    have hsigned : signed = false → signs ≠ [45] := fun hfalse hneg =>
      hminus hfalse ((head_minus_iff hbase hblank hsigns hnumeral).mpr hneg)
    exact ⟨⟨blanks,signs,numeral,n,rfl,hblank,hsigns,hsigned,hnumeral,hn,hv⟩,hsmall⟩
  · rintro ⟨⟨blanks,signs,numeral,n,rfl,hblank,hsigns,hsigned,hnumeral,hn,hv⟩,hsmall⟩
    refine ⟨fun hfalse hneg => ?_,⟨blanks,signs,numeral,n,rfl,hblank,hsigns,hnumeral,hn,hv⟩,hsmall⟩
    exact hsigned hfalse ((head_minus_iff hbase hblank hsigns hnumeral).mp hneg)

theorem clientRequest_header {program path : Bytes} {args : List Bytes} {request : QCPUDeviceRequest}
    (h : clientRequest program args = .ok (path, request)) :
    request.magic = qcpuDeviceRequestMagic ∧ request.version = qcpuDeviceProtocolVersion := by
  unfold clientRequest at h
  dsimp only at h
  split at h
  · obtain ⟨-,h⟩ := Checks.passed h
    split_ifs at h
    · cases h
      exact ⟨rfl,rfl⟩
    · split at h
      · simp only [bind,Except.bind,pure,Except.pure] at h
        split at h
        · cases h
        · split at h
          · cases h
          · split at h
            · cases h
            · cases h
              exact ⟨rfl,rfl⟩
      · cases h
  · cases h

/-- The parsers of the tools accept exactly the numbers written in their notation: blanks,
a sign and a numeral, which is one of the C language for the client and for seeds and a
decimal one for sizes. Only a seed may be negative, and stands for its residue then. -/
theorem parsers_accept (text label : Bytes) (maximum v : ℕ) :
    (parseUnsigned text maximum label = .ok v ↔ Accepts 0 false maximum text v) ∧
    (parseSize text label = .ok v ↔ Accepts 10 false (2 ^ 64 - 1) text v) ∧
    (parseSeed text = .ok v ↔ Accepts 0 true (2 ^ 64 - 1) text v) :=
  ⟨parseNumber_ok_iff (by decide) false,parseNumber_ok_iff (by decide) false,parseNumber_ok_iff (by decide) true⟩

/-- An argument that is there is read, one that is not has its default. -/
def Given (reads : Bytes → ℕ → Prop) (default : ℕ) : Option Bytes → ℕ → Prop
  | some text, v => reads text v
  | none, v => v = default

theorem argumentOr_ok_iff {parse : Bytes → Except Bytes ℕ} {reads : Bytes → ℕ → Prop}
    (h : ∀ text v, parse text = .ok v ↔ reads text v) (default : ℕ) (arg : Option Bytes) (v : ℕ) :
    argumentOr default parse arg = .ok v ↔ Given reads default arg v := by
  cases arg with
  | some text => exact h text v
  | none => simp [argumentOr,Given,eq_comm]

/-- The kernel tool takes up to three arguments: two sizes and a seed. -/
theorem kernelArguments_ok_iff (program : Bytes) (args : List Bytes) (k : KernelArguments) :
    kernelArguments program args = .ok k ↔ args.length ≤ 3 ∧
      Given (Accepts 10 false (2 ^ 64 - 1)) 3 args[0]? k.qubitCount ∧
      Given (Accepts 10 false (2 ^ 64 - 1)) 20 args[1]? k.shots ∧
      ∃ seed, Given (Accepts 0 true (2 ^ 64 - 1)) 424242 args[2]? seed ∧ k.seed = UInt64.ofNat seed := by
  have size : ∀ label text v, parseSize text label = .ok v ↔ Accepts 10 false (2 ^ 64 - 1) text v :=
    fun label text v => parseNumber_ok_iff (by decide) false
  have seed : ∀ text v, parseSeed text = .ok v ↔ Accepts 0 true (2 ^ 64 - 1) text v :=
    fun text v => parseNumber_ok_iff (by decide) true
  unfold kernelArguments
  by_cases hmany : args.length > 3
  · rw [if_pos hmany]
    exact iff_of_false nofun fun h => absurd h.1 (by omega)
  · rw [if_neg hmany]
    simp only [bind,Checks.bind_ok_iff,pure,Except.pure,argumentOr_ok_iff (size _),argumentOr_ok_iff seed,Except.ok.injEq]
    constructor
    · rintro ⟨qubitCount,hqubits,shots,hshots,seed,hseed,rfl⟩
      exact ⟨by omega,hqubits,hshots,seed,hseed,rfl⟩
    · rintro ⟨-,hqubits,hshots,seed,hseed,heq⟩
      refine ⟨_,hqubits,_,hshots,seed,hseed,?_⟩
      rw [← heq]

end

end QbitNova.Tools
