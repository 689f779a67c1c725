import QbitNova.Library.Doubles

/-! # The primitive actions of the byte VM

Variables and qbits live in two tables of bounded size that are searched from the
front; a pointer into a table is an index. Random numbers come from an arbitrary
stream, of which the state counts the draws. Everything printed is kept.
-/
namespace QbitNova.Language
open CText

def maxVmVars : ℕ := 64
def maxVmQbits : ℕ := 32
def qmsgMaxChars : ℕ := 128
def qmsgMaxBits : ℕ := qmsgMaxChars * 8 + 1

structure VMVar (D : Type) where
  name : Bytes
  value : D

structure VMQbit (D : Type) where
  name : Bytes
  a : D
  b : D
  measured : Bool
  result : ℤ
  entangledWith : Bytes

structure VM (D : Type) where
  vars : List (VMVar D)
  qbits : List (VMQbit D)
  qmsgText : Bytes
  qmsgBits : Bytes
  qmsgLoaded : Bool
  qmsgEncoded : Bool
  qmsgMeasured : Bool
  draws : ℕ
  output : Bytes

/-- The statements that reach the VM, with the arguments they are given. -/
inductive Action where
  | say (value : Bytes)
  | setVar (name text : Bytes)
  | createQbit (name state : Bytes)
  | hadamard (name : Bytes)
  | cnot (control target : Bytes)
  | entangle (left right : Bytes)
  | measure (name : Bytes)
  | check (name operator : Bytes) (value : ℤ)
  | qmsg (message : Bytes)
  | encode (target : Bytes)
  | decode (target : Bytes)
  | safeAction (name : Bytes)
  deriving DecidableEq, Repr

/-- The bytes of a decimal number as printed by `%d` and `%zu`. -/
def decimal (n : ℤ) : Bytes := str (toString n)

namespace VM
variable {D : Type}

def print (vm : VM D) (text : Bytes) : VM D := { vm with output := vm.output ++ text }

def findVar (vm : VM D) (name : Bytes) : Option ℕ := vm.vars.findIdx? (fun v => v.name == name)
def findQbit (vm : VM D) (name : Bytes) : Option ℕ := vm.qbits.findIdx? (fun q => q.name == name)

def modifyQbit (vm : VM D) (q : ℕ) (f : VMQbit D → VMQbit D) : VM D := { vm with qbits := vm.qbits.modify q f }

def setVar (vm : VM D) (name : Bytes) (value : D) : VM D :=
  match vm.findVar name with
  | some v => { vm with vars := vm.vars.modify v (fun entry => { entry with value := value }) }
  | none =>
    if vm.vars.length ≥ maxVmVars then vm.print (str "[VM ERROR] variable limit reached\n")
    else { vm with vars := vm.vars ++ [⟨name, value⟩] }

variable [Doubles D]
open Doubles Scalars

/-- The amplitudes of a state literal; `none` for any other text. -/
def stateOf (state : Bytes) : Option (D × D) :=
  let root := div (ofInt 1) (sqrt (ofInt 2) : D)
  if state = str "|0>" then some (ofInt 1, ofInt 0)
  else if state = str "|1>" then some (ofInt 0, ofInt 1)
  else if state = str "|+>" then some (root, root)
  else if state = str "|->" then some (root, div (ofInt (-1)) (sqrt (ofInt 2)))
  else none

/-- Put a declared state into the qbit at an index. -/
def prepare (vm : VM D) (q : ℕ) (state : Bytes) : VM D :=
  match stateOf state with
  | some (a, b) => vm.modifyQbit q (fun entry => { entry with a := a, b := b, measured := false, result := -1 })
  | none =>
    (vm.print (str "[VM ERROR] unknown qbit state: " ++ state ++ str "\n")).modifyQbit q
      (fun entry => { entry with a := ofInt 1, b := ofInt 0, measured := false, result := -1 })

def createQbit (vm : VM D) (name state : Bytes) : VM D :=
  match vm.findQbit name with
  | some q => vm.prepare q state
  | none =>
    if vm.qbits.length ≥ maxVmQbits then vm.print (str "[VM ERROR] qbit limit reached\n")
    else
      let added : VM D := { vm with qbits := vm.qbits ++ [⟨name, ofInt 0, ofInt 0, false, 0, []⟩] }
      added.prepare vm.qbits.length state

def printQbit (vm : VM D) (q : VMQbit D) : VM D :=
  if q.measured then vm.print (str "|" ++ decimal q.result ++ str ">\n")
  else vm.print (str "|0>=" ++ formatFixed3 q.a ++ str " |1>=" ++ formatFixed3 q.b ++ str "\n")

def hadamard (vm : VM D) (q : ℕ) : VM D :=
  vm.modifyQbit q (fun entry =>
    { entry with
      a := div (add entry.a entry.b) (sqrt (ofInt 2))
      b := div (sub entry.a entry.b) (sqrt (ofInt 2))
      measured := false
      result := -1 })

/-- The basis pair of a measured bit. -/
def collapse (result : ℤ) (entry : VMQbit D) : VMQbit D :=
  { entry with
    result := result
    measured := true
    a := if result = 0 then ofInt 1 else ofInt 0
    b := if result = 0 then ofInt 0 else ofInt 1 }

/-- The outcome of measuring a qbit with a given draw. -/
def outcome (draw : ℤ) (q : VMQbit D) : ℤ :=
  if lt (mul q.a q.a) (div (ofInt draw) (ofInt randMax)) then 1 else 0

/-- Measure a qbit and collapse the qbit it is linked to. -/
def measureLinked (rand : ℕ → ℤ) (vm : VM D) (q : ℕ) : VM D :=
  match vm.qbits[q]? with
  | none => vm
  | some entry =>
    let result := outcome (rand vm.draws) entry
    let drawn : VM D := { vm with draws := vm.draws + 1 }
    let vm := drawn.modifyQbit q (collapse result)
    if entry.entangledWith = [] then vm
    else match vm.findQbit entry.entangledWith with
    | none => vm
    | some partner =>
      (vm.modifyQbit partner (collapse result)).print (str "[QCORE] entangled collapse " ++ entry.name ++
        str " -> " ++ entry.entangledWith ++ str " = |" ++ decimal result ++ str ">\n")

/-- The common part of cnot and entangle: link the two qbits and copy the amplitudes. -/
def link (vm : VM D) (source target : ℕ) (sourceName targetName : Bytes) : VM D :=
  let vm := vm.modifyQbit source (fun entry => { entry with entangledWith := targetName })
  let vm := vm.modifyQbit target (fun entry => { entry with entangledWith := sourceName })
  match vm.qbits[source]? with
  | none => vm
  | some origin => vm.modifyQbit target (fun entry =>
      { entry with a := origin.a, b := origin.b, measured := false, result := 0 })

def cnotQbits (vm : VM D) (controlName targetName : Bytes) : VM D :=
  match vm.findQbit controlName, vm.findQbit targetName with
  | some control, some target =>
    (vm.link control target controlName targetName).print
      (str "[QCORE] CNOT " ++ controlName ++ str " -> " ++ targetName ++ str "\n")
  | _, _ =>
    vm.print (str "[QCORE ERROR] cannot CNOT missing qbit: " ++ controlName ++ str " " ++ targetName ++ str "\n")

def entangleQbits (vm : VM D) (leftName rightName : Bytes) : VM D :=
  match vm.findQbit leftName, vm.findQbit rightName with
  | some left, some right =>
    (vm.link left right leftName rightName).print
      (str "[QCORE] entangled " ++ leftName ++ str " <-> " ++ rightName ++ str "\n")
  | _, _ =>
    vm.print (str "[QCORE ERROR] cannot entangle missing qbit: " ++ leftName ++ str " " ++ rightName ++ str "\n")

def qmsgSet (vm : VM D) (message : Bytes) : VM D :=
  if message = [] then vm.print (str "[QMSG ERROR] empty message\n")
  else
    let text := message.take (qmsgMaxChars - 1)
    let loaded : VM D := { vm with
      qmsgText := text
      qmsgBits := []
      qmsgLoaded := true
      qmsgEncoded := false
      qmsgMeasured := false }
    loaded.print (str "[QMSG] message loaded: " ++ text ++ str "\n")

/-- The eight bits of a byte, most significant first, as characters. -/
def byteBits (c : UInt8) : Bytes :=
  [7, 6, 5, 4, 3, 2, 1, 0].map (fun b => if (c.toNat >>> b) % 2 = 1 then 49 else 48)

/-- The bits of a text, as long as the buffer has room for another byte. -/
def textBits : Bytes → ℕ → Bytes
  | [], _ => []
  | c :: rest, position => if position < qmsgMaxBits - 9 then byteBits c ++ textBits rest (position + 8) else []

def qmsgEncode (vm : VM D) : VM D :=
  if !vm.qmsgLoaded then vm.print (str "[QMSG ERROR] no qmsg loaded\n")
  else
    let bits := textBits vm.qmsgText 0
    let encoded : VM D := { vm with qmsgBits := bits, qmsgEncoded := true, qmsgMeasured := false }
    encoded.print (str "[QMSG] bits: " ++ bits ++ str "\n[QMSG] virtual qbit packet created: " ++
      decimal bits.length ++ str " bits\n")

def qmsgMeasure (vm : VM D) : VM D :=
  if !vm.qmsgEncoded then vm.print (str "[QMSG ERROR] qmsg must be encoded before measure\n")
  else
    let measured : VM D := { vm with qmsgMeasured := true }
    measured.print (str "[QMSG] measured virtual qbit packet: " ++ decimal vm.qmsgBits.length ++ str " bits\n")

/-- The register view: eight cells to a line. -/
def registerText (bits : Bytes) : Bytes :=
  bits.zipIdx.flatMap (fun (bit, i) =>
    str "q" ++ decimal i ++ str "=|" ++ [bit] ++ str ">" ++
      if (i + 1) % 8 = 0 ∨ i + 1 = bits.length then str "\n" else str " ")

def qmsgPrintRegister (vm : VM D) : VM D :=
  if !vm.qmsgEncoded then vm.print (str "[QMSG ERROR] qmsg must be encoded before register view\n")
  else vm.print (str "[QMSG] virtual qbit register:\n" ++ registerText vm.qmsgBits)

def qmsgDecode (vm : VM D) : VM D :=
  if !vm.qmsgEncoded then vm.print (str "[QMSG ERROR] qmsg must be encoded before decode\n")
  else
    let warned := if !vm.qmsgMeasured then vm.print (str "[QMSG WARN] decoding before measure\n") else vm
    warned.print (str "[QMSG] decoded message: " ++ vm.qmsgText ++ str "\n")

def vmSay (vm : VM D) (value : Bytes) : VM D :=
  if value = str "qmsg" then vm.qmsgPrintRegister
  else match (vm.findQbit value).bind (vm.qbits[·]?) with
  | some q => vm.printQbit q
  | none => match (vm.findVar value).bind (vm.vars[·]?) with
    | some v => vm.print (formatG v.value ++ str "\n")
    | none => vm.print (value ++ str "\n")

/-- The actions the adapter lets through, with what it prints for each. -/
def allowedActions : List (Bytes × Bytes) :=
  [(str "led_on", str "LED_ON"), (str "led_off", str "LED_OFF"), (str "servo_up", str "SERVO_UP"),
    (str "servo_down", str "SERVO_DOWN"), (str "buzzer_beep", str "BUZZER_BEEP")]

def runSafeAction (vm : VM D) (action : Bytes) : VM D :=
  match allowedActions.lookup action with
  | some shown =>
    (vm.print (str "[ADAPTER_SIM] " ++ shown ++ str " allowed\n")).print
      (str "[SAFE_ACTION] dispatched through adapter contract: " ++ action ++ str "\n")
  | none => vm.print (str "[ADAPTER_BLOCKED] Unknown or unsafe action blocked: " ++ action ++ str "\n")

/-- The comparison of a check; `none` for an unknown operator. -/
def compare (operator : Bytes) (lhs rhs : D) : Option Bool :=
  if operator = str ">" then some (lt rhs lhs)
  else if operator = str "<" then some (lt lhs rhs)
  else if operator = str "==" then some (eq lhs rhs)
  else if operator = str ">=" then some (le rhs lhs)
  else if operator = str "<=" then some (le lhs rhs)
  else none

/-- Whether a check passes, and the VM after its messages. -/
def evalCheck (vm : VM D) (name operator : Bytes) (value : ℤ) : Bool × VM D :=
  match (vm.findVar name).bind (vm.vars[·]?) with
  | none => (false, vm.print (str "[VM ERROR] variable not found for check: " ++ name ++ str "\n"))
  | some v => match compare operator v.value (ofInt value) with
    | some pass => (pass, vm)
    | none => (false, vm.print (str "[VM ERROR] unknown check operator: " ++ operator ++ str "\n"))

/-- A gate on a named qbit, or the message that there is none. -/
def onQbit (vm : VM D) (name : Bytes) (gate : VM D → ℕ → VM D) : VM D :=
  match vm.findQbit name with
  | some q => gate vm q
  | none => vm.print (str "[VM ERROR] qbit not found: " ++ name ++ str "\n")

/-- Run one action. -/
def act (rand : ℕ → ℤ) (vm : VM D) : Action → VM D
  | .say value => vm.vmSay value
  | .setVar name text => vm.setVar name (atof text)
  | .createQbit name state => vm.createQbit name state
  | .hadamard name => vm.onQbit name hadamard
  | .cnot control target => vm.cnotQbits control target
  | .entangle left right => vm.entangleQbits left right
  | .measure name => if name = str "qmsg" then vm.qmsgMeasure else vm.onQbit name (measureLinked rand)
  | .check name operator value => (vm.evalCheck name operator value).2
  | .qmsg message => vm.qmsgSet message
  | .encode target =>
    if target = str "qmsg" then vm.qmsgEncode
    else vm.print (str "[QMSG ERROR] unknown encode target: " ++ target ++ str "\n")
  | .decode target =>
    if target = str "qmsg" then vm.qmsgDecode
    else vm.print (str "[QMSG ERROR] unknown decode target: " ++ target ++ str "\n")
  | .safeAction name => vm.runSafeAction name

end VM

end QbitNova.Language
