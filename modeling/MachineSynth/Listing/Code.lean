import MachineSynth.Listing.Form
import MachineSynth.Bytecode.Method

/-! Code of a method, one form an instruction; registers are referred to by name. -/
namespace MachineSynth
namespace Listing

def findRegister (name : String) (i : Nat) : List Register → Option Nat
  | [] => none
  | r :: rest =>
    match findRegister name (i + 1) rest with
    | some j => some j
    | none => if r.name = name then some i else none

def Form.register (regs : List Register) (f : Form) (i : Nat) : Read RegisterId := do
  let name ← f.symbol i
  if name = "this" then return RegisterId.unused
  match findRegister name 0 regs with
  | some j => return UInt64.ofNat j
  | none => complain (f.spanAt i) (.unknownRegister name)

def Form.registers (regs : List Register) (f : Form) (start : Nat) : Nat → Read (List RegisterId)
  | 0 => return []
  | n + 1 => do
    let r ← f.register regs start
    return r :: (← f.registers regs (start + 1) n)

def binaryOps : List (String × BinaryOp) :=
  [("add", .add), ("sub", .sub), ("mul", .mul), ("eq", .eq), ("ne", .ne), ("gt", .gt),
    ("lt", .lt), ("gte", .gte), ("lte", .lte), ("and", .and), ("or", .or), ("xor", .xor),
    ("land", .land), ("lor", .lor)]

abbrev InsnReader := List Register → Form → Read Insn

def readBinary (op : BinaryOp) : InsnReader := fun regs f => do
  return .binary op (← f.register regs 1) (← f.register regs 2) (← f.register regs 3)

def registerReaders : List (String × Int × InsnReader) :=
  [("nop", 0, fun _ _ => return .nop),
    ("goto", 1, fun _ f => do return .goto (← f.word 1 32)),
    ("if", 2, fun regs f => do return .branch (← f.register regs 1) (← f.word 2 32)),
    ("num", 2, fun regs f => do return .num (← f.register regs 1) (← f.register regs 2)),
    ("assign", 2, fun regs f => do return .assign (← f.register regs 1) (← f.register regs 2)),
    ("shl", 3, fun regs f => do
      return .shift false (← f.register regs 1) (← f.register regs 2) (← f.register regs 3)),
    ("shr", 3, fun regs f => do
      return .shift true (← f.register regs 1) (← f.register regs 2) (← f.register regs 3)),
    ("concat", 3, fun regs f => do
      return .concat (← f.register regs 1) (← f.register regs 2) (← f.register regs 3)),
    ("inc", 1, fun regs f => do return .count false (← f.register regs 1)),
    ("dec", 1, fun regs f => do return .count true (← f.register regs 1)),
    ("bit-range", 4, fun regs f => do
      return .bitRange (← f.register regs 1) (← f.register regs 2) (← f.register regs 3)
        (← f.register regs 4)),
    ("not", 2, fun regs f => do
      return .invert false (← f.register regs 1) (← f.register regs 2)),
    ("lnot", 2, fun regs f => do
      return .invert true (← f.register regs 1) (← f.register regs 2))]

/-- The instructions on members, arrays, memory and channels. -/
def accessReaders : List (String × Int × InsnReader) :=
  [("member-read", 3, fun regs f => do
      return .memberRead (← f.register regs 1) (← f.register regs 2) (← f.symbol 3)),
    ("member-write", 3, fun regs f => do
      return .memberWrite (← f.register regs 1) (← f.symbol 2) (← f.register regs 3)),
    ("array-read", 3, fun regs f => do
      return .arrayRead (← f.register regs 1) (← f.register regs 2) (← f.register regs 3)),
    ("array-write", 3, fun regs f => do
      return .arrayWrite (← f.register regs 1) (← f.register regs 2) (← f.register regs 3)),
    ("memory-read", 2, fun regs f => do
      return .memoryRead (← f.register regs 1) (← f.register regs 2)),
    ("memory-write", 2, fun regs f => do
      return .memoryWrite (← f.register regs 1) (← f.register regs 2)),
    ("channel-read", 2, fun regs f => do
      return .channelRead (← f.register regs 1) (← f.register regs 2)),
    ("channel-write", 2, fun regs f => do
      return .channelWrite (← f.register regs 1) (← f.register regs 2))]

def binaryReaders : List (String × Int × InsnReader) :=
  binaryOps.map fun (name, op) => (name, 3, readBinary op)

def fixedReaders : List (String × Int × InsnReader) :=
  registerReaders ++ binaryReaders ++ accessReaders

def readLoadObject : InsnReader := fun regs f =>
  if f.items.length = 3 then do
    return .loadObject (← f.register regs 1) (← f.register regs 2) ""
  else if f.items.length = 4 then do
    return .loadObject (← f.register regs 1) (← f.register regs 2) (← f.symbol 3)
  else complain f.span .expectedLoadObject

def readCall : InsnReader := fun regs f =>
  if f.items.length < 3 then complain f.span .expectedCall
  else do
    return .call (← f.register regs 1) (← f.symbol 2)
      (← f.registers regs 3 (f.items.length - 3))

def readCallDone : InsnReader := fun regs f => do
  return .callDone (← f.registers regs 1 (f.items.length - 1))

def insnRule (regs : List Register) (read : InsnReader) : Rule Cause Insn := fun t items =>
  (read regs ⟨t.span, items⟩).mapError .at

def insnRules (regs : List Register) : Dispatch Cause Insn :=
  let fixed := fixedReaders.foldl
    (fun d (name, n, read) => d.addArity name n (insnRule regs read))
    ⟨Located.span, .mismatch, []⟩
  [("load-obj", readLoadObject), ("call", readCall), ("call-done", readCallDone)].foldl
    (fun d (name, read) => d.add name (insnRule regs read)) fixed

/-- Reads instructions of a method with `size` of them; a jump may go to the end of the method. -/
def readInsns (regs : List Register) (size : Nat) : List Located → Read (List Insn)
  | [] => return []
  | t :: rest => do
    let insn ← (insnRules regs).apply t
    let target := insn.jumpTarget?.getD 0
    if size < target.toNat then complain t.span (.jumpOutOfRange target)
    return insn :: (← readInsns regs size rest)

end Listing
end MachineSynth
