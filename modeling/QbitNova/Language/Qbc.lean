import QbitNova.Library.LittleEndian
import QbitNova.Language.Compiler

/-! # Program files

A program file holds the number of instructions and their records as they lie in memory:
a 32-bit opcode, two arguments of 64 bytes and a 32-bit value. The loader reads into the
two globals without looking at what was read; reading past the array has no meaning in C.
What was saved is loaded back as it was, over whatever the array held.
-/
namespace QbitNova.Qbc
open CText LittleEndian QbitNova.Language

def countBytes : ℕ := 4
def instructionBytes : ℕ := 136
def codeBytes : ℕ := maxInstr * instructionBytes

/-- The globals of the compiler, as they lie in memory. -/
structure Globals where
  instrCount : Frame countBytes
  bytecode : Frame codeBytes

/-- Four bytes as an `int`. -/
def toInt (bytes : Bytes) : ℤ := (value bytes : ℤ).bmod (2 ^ 32)

def Globals.count (g : Globals) : ℤ := toInt g.instrCount.val

/-- The records in use. -/
def Globals.instructions (g : Globals) : Bytes := g.bytecode.val.take (instructionBytes * g.count.toNat)

inductive LoadFault where
  | outOfBounds
  deriving DecidableEq, Repr

/-- The first read of a load: as many bytes of the count as the file has. -/
def Globals.readCount (g : Globals) (content : Bytes) : Globals :=
  { g with instrCount := g.instrCount.write 0 (content.take countBytes) (by rw [List.length_take]; omega) }

/-- The bytes the second read stores; the count becomes a `size_t` when it is passed on. Where more
is asked for than the file has, as by a negative count, all the rest is stored, as the C standard
documents `fread`; glibc then stores only what it has buffered. -/
def recordsRead (count : ℤ) (content : Bytes) : Bytes :=
  (content.drop countBytes).take (instructionBytes * (count % 2 ^ 64).toNat)

/-- The second read, into the array. -/
def Globals.readRecords (g : Globals) (read : Bytes) (h : read.length ≤ codeBytes) : Globals :=
  { g with bytecode := g.bytecode.write 0 read (by rwa [Nat.zero_add]) }

@[simp] theorem Globals.readCount_bytecode (g : Globals) (content : Bytes) :
    (g.readCount content).bytecode = g.bytecode := rfl
@[simp] theorem Globals.readRecords_count (g : Globals) (read : Bytes) (h : read.length ≤ codeBytes) :
    (g.readRecords read h).count = g.count := rfl
@[simp] theorem Globals.readRecords_val (g : Globals) (read : Bytes) (h : read.length ≤ codeBytes) :
    (g.readRecords read h).bytecode.val = overwrite g.bytecode.val 0 read := rfl

def loadedMessage (filename : Bytes) (count : ℤ) : Bytes :=
  str "QBC loaded: " ++ filename ++ str " (" ++ decimal count ++ str " instructions)\n"

/-- Load a file, `none` if it cannot be opened: what is returned, the globals after the call
and what was printed. -/
def loadQbc (filename : Bytes) (file : Option Bytes) (g : Globals) : Except LoadFault (Bool × Globals × Bytes) :=
  match file with
  | none => .ok (false, g, str "Error: cannot read QBC file: " ++ filename ++ str "\n")
  | some content =>
    let g := g.readCount content
    let read := recordsRead g.count content
    if h : read.length ≤ codeBytes then
      .ok (true, g.readRecords read h, loadedMessage filename g.count)
    else .error .outOfBounds

/-- The number of instructions a file announces. -/
def fileCount (content : Bytes) : ℤ := toInt (content.take countBytes)

/-- A count within the array, with as many complete records behind it. -/
structure WellFormed (content : Bytes) : Prop where
  counted : countBytes ≤ content.length
  nonneg : 0 ≤ fileCount content
  fits : fileCount content ≤ maxInstr
  complete : countBytes + instructionBytes * (fileCount content).toNat ≤ content.length

/-- What a load should do: take over a well-formed file, and refuse every other one with
both globals as they were. -/
structure LoadsOrRefuses (file : Option Bytes) (g : Globals)
    (outcome : Except LoadFault (Bool × Globals × Bytes)) : Prop where
  loads : ∀ content, file = some content → WellFormed content → ∃ g' printed, outcome = .ok (true, g', printed) ∧
    g'.count = fileCount content ∧
    g'.instructions = (content.drop countBytes).take (instructionBytes * (fileCount content).toNat)
  refuses : (∀ content, file = some content → ¬ WellFormed content) → ∃ printed, outcome = .ok (false, g, printed)

theorem overwrite_all {buf xs : Bytes} (h : xs.length = buf.length) : overwrite buf 0 xs = xs := by
  rw [overwrite,List.take_zero,List.nil_append,Nat.zero_add,h,List.drop_length,List.append_nil]

theorem take_overwrite (buf xs : Bytes) : (overwrite buf 0 xs).take xs.length = xs := by
  rw [overwrite,List.take_zero,List.nil_append,List.take_left]

/-- A file that can be opened is never refused. -/
theorem loadQbc_opened (filename content : Bytes) (g g' : Globals) (printed : Bytes) :
    loadQbc filename (some content) g ≠ .ok (false, g', printed) := by
  intro h
  simp only [loadQbc] at h
  split_ifs at h
  simp only [Except.ok.injEq,Prod.mk.injEq,Bool.true_eq_false,false_and] at h

theorem readCount_count {content : Bytes} (h : countBytes ≤ content.length) (g : Globals) :
    (g.readCount content).count = fileCount content := by
  have hlen : (content.take countBytes).length = countBytes := by
    rw [List.length_take]
    exact Nat.min_eq_left h
  show toInt (overwrite g.instrCount.val 0 (content.take countBytes)) = _
  rw [overwrite_all (hlen.trans g.instrCount.property.symm)]
  rfl

theorem WellFormed.recordsRead {content : Bytes} (hw : WellFormed content) :
    recordsRead (fileCount content) content =
        (content.drop countBytes).take (instructionBytes * (fileCount content).toNat) ∧
      (recordsRead (fileCount content) content).length = instructionBytes * (fileCount content).toNat ∧
      instructionBytes * (fileCount content).toNat ≤ codeBytes := by
  have hnonneg := hw.nonneg
  have hfits := hw.fits
  have hcomplete := hw.complete
  have hsize : fileCount content % 2 ^ 64 = fileCount content := by
    apply Int.emod_eq_of_lt hnonneg
    unfold maxInstr at hfits
    omega
  have hread : Qbc.recordsRead (fileCount content) content =
      (content.drop countBytes).take (instructionBytes * (fileCount content).toNat) := by
    rw [Qbc.recordsRead,hsize]
  refine ⟨hread,?_,?_⟩
  · rw [hread,List.length_take,List.length_drop]
    omega
  · rw [codeBytes,Nat.mul_comm]
    exact Nat.mul_le_mul_right _ (by omega)

theorem loadQbc_wellFormed (filename : Bytes) {content : Bytes} (hw : WellFormed content) (g : Globals) :
    ∃ g' printed, loadQbc filename (some content) g = .ok (true, g', printed) ∧ g'.count = fileCount content ∧
      g'.instructions = (content.drop countBytes).take (instructionBytes * (fileCount content).toNat) := by
  obtain ⟨hread,hlen,hroom⟩ := hw.recordsRead
  have hcount := readCount_count hw.counted g
  have hfits : (recordsRead (g.readCount content).count content).length ≤ codeBytes := by
    rw [hcount,hlen]
    exact hroom
  have hload : loadQbc filename (some content) g = .ok (true, (g.readCount content).readRecords _ hfits,
      loadedMessage filename (g.readCount content).count) := by
    simp only [loadQbc]
    rw [dif_pos hfits]
  refine ⟨_,_,hload,?_,?_⟩
  · rw [Globals.readRecords_count,hcount]
  · rw [Globals.instructions,Globals.readRecords_count,Globals.readRecords_val,Globals.readCount_bytecode,hcount,
      ← hread,← hlen]
    exact take_overwrite _ _

/-- A load does what it should exactly if the file cannot be opened or is well formed. -/
theorem loadQbc_iff (filename : Bytes) (file : Option Bytes) (g : Globals) :
    LoadsOrRefuses file g (loadQbc filename file g) ↔ ∀ content, file = some content → WellFormed content := by
  cases file with
  | none =>
    refine ⟨fun _ => nofun,fun _ => ⟨nofun,fun _ => ⟨_,rfl⟩⟩⟩
  | some content =>
    constructor
    · rintro h _ ⟨rfl⟩
      by_contra hw
      obtain ⟨printed,hp⟩ := h.refuses fun _ hc => Option.some.inj hc ▸ hw
      exact loadQbc_opened filename content g g printed hp
    · intro h
      have hw := h content rfl
      refine ⟨?_,fun hnone => absurd hw (hnone content rfl)⟩
      rintro _ ⟨rfl⟩ -
      exact loadQbc_wellFormed filename hw g

/-- The globals of a process that has compiled nothing yet. -/
def blank : Globals :=
  ⟨⟨List.replicate countBytes 0, List.length_replicate⟩, ⟨List.replicate codeBytes 0, List.length_replicate⟩⟩

/-- A file that announces two instructions and ends there. -/
def announced : Bytes := [2, 0, 0, 0]

/-- An empty file is not refused; a file that ends after its count is taken for a program, with
whatever the array held before. -/
theorem truncated_files_loaded :
    (¬ WellFormed [] ∧ ¬ LoadsOrRefuses (some []) blank (loadQbc (str "p.qbc") (some []) blank)) ∧
    ¬ WellFormed announced ∧ ∃ g', loadQbc (str "p.qbc") (some announced) blank =
      .ok (true, g', str "QBC loaded: p.qbc (2 instructions)\n") ∧ g'.count = 2 ∧
      g'.bytecode.val = blank.bytecode.val := by
  have hempty : ¬ WellFormed [] := fun h => absurd h.counted (by decide)
  refine ⟨⟨hempty,fun h => ?_⟩,fun h => absurd h.complete (by decide),?_⟩
  · obtain ⟨printed,hp⟩ := h.refuses fun _ hc => Option.some.inj hc ▸ hempty
    exact loadQbc_opened (str "p.qbc") [] blank blank printed hp
  · have hcount : (blank.readCount announced).count = 2 := by
      rw [readCount_count (by decide) blank]
      decide
    have hread : recordsRead (blank.readCount announced).count announced = [] := List.take_nil
    have hfits : (recordsRead (blank.readCount announced).count announced).length ≤ codeBytes := by
      rw [hread]
      exact Nat.zero_le _
    have hload : loadQbc (str "p.qbc") (some announced) blank = .ok (true, (blank.readCount announced).readRecords _ hfits,
        loadedMessage (str "p.qbc") (blank.readCount announced).count) := by
      simp only [loadQbc]
      rw [dif_pos hfits]
    have hmessage : loadedMessage (str "p.qbc") (blank.readCount announced).count =
        str "QBC loaded: p.qbc (2 instructions)\n" := by
      rw [hcount]
      decide
    rw [hmessage] at hload
    refine ⟨_,hload,?_,?_⟩
    · rw [Globals.readRecords_count,hcount]
    · rw [Globals.readRecords_val,hread,Globals.readCount_bytecode,overwrite]
      simp

/-- An instruction as it lies in memory: any opcode, any bytes in the argument fields. -/
structure Record where
  op : UInt32
  arg1 : Frame 64
  arg2 : Frame 64
  value : UInt32

/-- The 136 bytes of a record. -/
def Record.bytes (r : Record) : Bytes := digits 4 r.op.toNat ++ r.arg1.val ++ r.arg2.val ++ digits 4 r.value.toNat

@[simp] theorem Record.length_bytes (r : Record) : r.bytes.length = instructionBytes := by
  simp only [Record.bytes,List.length_append,length_digits,r.arg1.property,r.arg2.property]
  rfl

def opOf (code : ℤ) : OpCode :=
  if code < 0 then .unknown code
  else ([.say, .letVar, .qbit, .hadamard, .measure, .entangle, .cnot, .check, .repeatLoop, .block, .endBlock, .safeAction,
    .qmsg, .encodeQmsg, .decodeQmsg] : List OpCode).getD code.toNat (.unknown code)

/-- The instruction that `run_bytecode` finds in its local copy of a record. A field without a NUL
runs on into what lies behind it: the rest of the copy, then `beyond`. -/
def instructionOf (beyond record : Bytes) : Instruction :=
  ⟨opOf (toInt (record.take 4)), cText (record.drop 4 ++ beyond), cText (record.drop 68 ++ beyond),
    toInt (record.drop 132)⟩

/-- The copy of the record at an index of the array. -/
def Globals.recordAt (g : Globals) (i : ℕ) : Bytes :=
  (g.bytecode.val.drop (instructionBytes * i)).take instructionBytes

/-- The instructions in use. -/
def Globals.program (g : Globals) (beyond : Bytes) : List Instruction :=
  (List.range g.count.toNat).map fun i => instructionOf beyond (g.recordAt i)

/-- `run_bytecode(bytecode, instr_count)`. -/
def Globals.run {D : Type} [Doubles D] (g : Globals) (beyond : Bytes) (rand : ℕ → ℤ) (fuel : ℕ) (vm : VM D) :
    Option (Session D) := runBytecode rand (g.program beyond) fuel vm

inductive SaveFault where
  | outOfBounds
  deriving DecidableEq, Repr

def savedMessage (filename : Bytes) (count : ℤ) : Bytes :=
  str "QBC saved: " ++ filename ++ str " (" ++ decimal count ++ str " instructions)\n"

/-- Save to a file that can be opened or not: what is written and what is printed. The count
becomes a `size_t` when it is passed on. -/
def saveQbc (filename : Bytes) (opened : Bool) (g : Globals) : Except SaveFault (Option Bytes × Bytes) :=
  if !opened then .ok (none, str "Error: cannot write QBC file: " ++ filename ++ str "\n")
  else if instructionBytes * (g.count % 2 ^ 64).toNat ≤ codeBytes then
    .ok (some (g.instrCount.val ++ g.bytecode.val.take (instructionBytes * (g.count % 2 ^ 64).toNat)),
      savedMessage filename g.count)
  else .error .outOfBounds

/-- The globals hold a program, in front of whatever else the array holds. -/
structure Globals.Holds (g : Globals) (program : List Record) : Prop where
  count : g.count = program.length
  code : program.flatMap Record.bytes <+: g.bytecode.val

theorem length_records (program : List Record) :
    (program.flatMap Record.bytes).length = instructionBytes * program.length := by
  induction program with
  | nil => rfl
  | cons r program ih =>
    rw [List.flatMap_cons,List.length_append,r.length_bytes,ih,List.length_cons,Nat.mul_succ,Nat.add_comm]

/-- The records of a program, each found at its own offset. -/
theorem records_at (program : List Record) (rest : Bytes) :
    ((List.range program.length).map fun i =>
      ((program.flatMap Record.bytes ++ rest).drop (instructionBytes * i)).take instructionBytes) =
      program.map Record.bytes := by
  induction program with
  | nil => rfl
  | cons r program ih =>
    have hnext : ∀ i, ((r.bytes ++ (program.flatMap Record.bytes ++ rest)).drop (instructionBytes * (i + 1))) =
        (program.flatMap Record.bytes ++ rest).drop (instructionBytes * i) := by
      intro i
      rw [Nat.mul_succ,Nat.add_comm,← r.length_bytes,List.drop_length_add_append]
    rw [List.length_cons,List.range_succ_eq_map,List.map_cons,List.map_cons,List.map_map,List.flatMap_cons,
      List.append_assoc]
    refine congrArg₂ List.cons ?_ ?_
    · rw [Nat.mul_zero,List.drop_zero]
      exact List.take_left' r.length_bytes
    · rw [← ih]
      apply List.map_congr_left
      intro i _
      simp only [Function.comp_apply,Nat.succ_eq_add_one,hnext]

theorem Globals.Holds.program {g : Globals} {program : List Record} (h : g.Holds program) (beyond : Bytes) :
    g.program beyond = program.map fun r => instructionOf beyond r.bytes := by
  obtain ⟨rest,hrest⟩ := h.code
  have hrecords := congrArg (List.map (instructionOf beyond)) (records_at program rest)
  rw [List.map_map,List.map_map] at hrecords
  rw [Globals.program,h.count,Int.toNat_natCast]
  simp only [Globals.recordAt,← hrest]
  exact hrecords

theorem toInt_digits {n : ℕ} (h : n ≤ maxInstr) : toInt (digits countBytes n) = n := by
  have hn : n < 2048 := by
    unfold maxInstr at h
    omega
  have hmod : n % 256 ^ countBytes = n := Nat.mod_eq_of_lt (hn.trans (by decide))
  unfold toInt
  rw [value_digits,hmod]
  apply Int.bmod_eq_of_le
  · exact (by decide : -(((2 ^ 32 : ℕ) : ℤ) / 2) ≤ 0).trans (Int.natCast_nonneg n)
  · exact (Int.ofNat_lt.mpr hn).trans (by decide)

theorem bytes_of_toInt {bytes : Frame countBytes} {n : ℕ} (hn : n ≤ maxInstr) (h : toInt bytes.val = n) :
    bytes.val = digits countBytes n := by
  have hlt : value bytes.val < 4294967296 := by
    have hlt := value_lt bytes.val
    rwa [bytes.property] at hlt
  have hvalue : value bytes.val = n := by
    have hbmod : (n : ℤ) % 4294967296 = (value bytes.val : ℤ) % 4294967296 := by
      rw [← h]
      exact Int.bmod_emod
    unfold maxInstr at hn
    omega
  rw [← digits_value bytes.val,bytes.property,hvalue]

/-- The file format: the count, then the packed records. -/
def qbcFile (program : List Record) : Bytes := digits countBytes program.length ++ program.flatMap Record.bytes

theorem saveQbc_holds (filename : Bytes) {g : Globals} {program : List Record} (h : g.Holds program)
    (hfits : program.length ≤ maxInstr) :
    saveQbc filename true g = .ok (some (qbcFile program), savedMessage filename program.length) := by
  have hsize : g.count % 2 ^ 64 = program.length := by
    rw [h.count]
    apply Int.emod_eq_of_lt (Int.natCast_nonneg _)
    unfold maxInstr at hfits
    omega
  have hroom : instructionBytes * program.length ≤ codeBytes := by
    rw [codeBytes,Nat.mul_comm]
    exact Nat.mul_le_mul_right _ hfits
  have hrecords : g.bytecode.val.take (instructionBytes * program.length) = program.flatMap Record.bytes := by
    rw [← length_records]
    exact (List.prefix_iff_eq_take.mp h.code).symm
  have hcount := bytes_of_toInt hfits h.count
  unfold saveQbc
  rw [if_neg (by decide),hsize,Int.toNat_natCast,if_pos hroom,hrecords,hcount,h.count]
  rfl

theorem fileCount_qbcFile {program : List Record} (hfits : program.length ≤ maxInstr) :
    fileCount (qbcFile program) = program.length := by
  rw [fileCount,qbcFile,List.take_left' (length_digits _ _),toInt_digits hfits]

theorem qbcFile_wellFormed {program : List Record} (hfits : program.length ≤ maxInstr) : WellFormed (qbcFile program) := by
  have hcount := fileCount_qbcFile hfits
  have hlength : (qbcFile program).length = countBytes + instructionBytes * program.length := by
    rw [qbcFile,List.length_append,length_digits,length_records]
  refine ⟨by omega,?_,?_,?_⟩
  · rw [hcount]
    exact Int.natCast_nonneg _
  · rw [hcount]
    exact_mod_cast hfits
  · rw [hcount,Int.toNat_natCast,hlength]

/-- Loading a saved program puts it in front of whatever the array held before. -/
theorem loadQbc_qbcFile (filename : Bytes) {program : List Record} (hfits : program.length ≤ maxInstr)
    (prior : Globals) :
    ∃ loaded printed, loadQbc filename (some (qbcFile program)) prior = .ok (true, loaded, printed) ∧
      loaded.Holds program := by
  obtain ⟨loaded,printed,hload,hcount,hrecords⟩ := loadQbc_wellFormed filename (qbcFile_wellFormed hfits) prior
  rw [fileCount_qbcFile hfits] at hcount hrecords
  refine ⟨loaded,printed,hload,hcount,?_⟩
  have hdrop : (qbcFile program).drop countBytes = program.flatMap Record.bytes :=
    List.drop_left' (length_digits _ _)
  rw [Globals.instructions,hcount,Int.toNat_natCast,hdrop,← length_records,List.take_length] at hrecords
  rw [← hrecords]
  exact List.take_prefix _ _

/-- A program that is saved and loaded back is the same, byte for byte, and runs the same,
whatever the array held before. -/
theorem save_load_run {program : List Record} (hfits : program.length ≤ maxInstr) {g : Globals}
    (hg : g.Holds program) (prior : Globals) (filename : Bytes) :
    ∃ loaded printed, saveQbc filename true g = .ok (some (qbcFile program), savedMessage filename program.length) ∧
      loadQbc filename (some (qbcFile program)) prior = .ok (true, loaded, printed) ∧
      loaded.instrCount = g.instrCount ∧ loaded.instructions = g.instructions ∧
      g.instructions = program.flatMap Record.bytes ∧
      ∀ (D : Type) [Doubles D] (beyond : Bytes) (rand : ℕ → ℤ) (fuel : ℕ) (vm : VM D),
        loaded.run beyond rand fuel vm = g.run beyond rand fuel vm := by
  obtain ⟨loaded,printed,hload,hholds⟩ := loadQbc_qbcFile filename hfits prior
  have hinstructions : ∀ {g' : Globals}, g'.Holds program → g'.instructions = program.flatMap Record.bytes := by
    intro g' h
    rw [Globals.instructions,h.count,Int.toNat_natCast,← length_records]
    exact (List.prefix_iff_eq_take.mp h.code).symm
  refine ⟨loaded,printed,saveQbc_holds filename hg hfits,hload,?_,?_,hinstructions hg,?_⟩
  · apply Subtype.ext
    rw [bytes_of_toInt hfits hholds.count,bytes_of_toInt hfits hg.count]
  · rw [hinstructions hholds,hinstructions hg]
  · intro D _ beyond rand fuel vm
    rw [Globals.run,Globals.run,hholds.program,hg.program]

/-- A say with text behind its NUL, and an opcode that does not exist. -/
def oddProgram : List Record :=
  [⟨0, ⟨[72, 105, 0] ++ List.replicate 61 255, by decide⟩, ⟨List.replicate 64 7, by decide⟩, 3⟩,
    ⟨4000000000, ⟨List.replicate 64 1, by decide⟩, ⟨List.replicate 64 0, by decide⟩, 4294967295⟩]

theorem save_load_run_odd : ∃ g loaded : Globals, ∃ printed, g.Holds oddProgram ∧
    saveQbc (str "p.qbc") true g = .ok (some (qbcFile oddProgram), str "QBC saved: p.qbc (2 instructions)\n") ∧
    loadQbc (str "p.qbc") (some (qbcFile oddProgram)) blank = .ok (true, loaded, printed) ∧
    loaded.instructions = g.instructions := by
  have hfits : oddProgram.length ≤ maxInstr := by decide
  obtain ⟨g,-,-,hg⟩ := loadQbc_qbcFile (str "p.qbc") hfits blank
  obtain ⟨loaded,printed,hsave,hload,-,hsame,-⟩ := save_load_run hfits hg blank (str "p.qbc")
  exact ⟨g,loaded,printed,hg,hsave,hload,hsame⟩

end QbitNova.Qbc
