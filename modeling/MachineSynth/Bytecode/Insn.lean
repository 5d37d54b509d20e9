import MachineSynth.Bytecode.Register

/-! Bytecode instructions over the registers of a method. -/
namespace MachineSynth

inductive BinaryOp
  | add | sub | mul | eq | ne | gt | lt | gte | lte | and | or | xor | land | lor
  /-- A number that stands for no operator. -/
  | unknown (code : UInt8)
deriving DecidableEq, Repr, Inhabited

namespace BinaryOp

/-- The operators in the order of their numbers, with their signs. -/
def table : List (BinaryOp × String) :=
  [(add, "+"), (sub, "-"), (mul, "*"), (eq, "=="), (ne, "!="), (gt, ">"), (lt, "<"), (gte, ">="),
    (lte, "<="), (and, "&"), (or, "|"), (xor, "^"), (land, "&&"), (lor, "||")]

def ofCode (code : UInt8) : BinaryOp :=
  match table[code.toNat]? with
  | some (op, _) => op
  | none => unknown code

def code : BinaryOp → UInt8
  | unknown c => c
  | op => UInt8.ofNat (table.findIdx (·.1 = op))

def text : BinaryOp → String
  | unknown c => s!"op#{c}"
  | op => (table.lookup op).getD ""

def isComparison : BinaryOp → Bool
  | eq | ne | gt | lt | gte | lte => true
  | _ => false

end BinaryOp

inductive Insn
  | nop
  | goto (target : UInt64)
  /-- Jumps if the condition holds, else falls through. -/
  | branch (cond : RegisterId) (target : UInt64)
  /-- Materialises a constant. -/
  | num (target source : RegisterId)
  | assign (target source : RegisterId)
  | binary (op : BinaryOp) (target left right : RegisterId)
  | shift (right : Bool) (target source amount : RegisterId)
  | concat (target left right : RegisterId)
  /-- Adds one to, or takes one from, a register in place. -/
  | count (down : Bool) (operand : RegisterId)
  | bitRange (target source msb lsb : RegisterId)
  | invert (logical : Bool) (target source : RegisterId)
  /-- Loads the object named `label` in an object; with no label, the enclosing object. -/
  | loadObject (target object : RegisterId) (label : String)
  | memberRead (target object : RegisterId) (label : String)
  | memberWrite (object : RegisterId) (label : String) (source : RegisterId)
  | arrayRead (target object index : RegisterId)
  | arrayWrite (object index source : RegisterId)
  | memoryRead (target index : RegisterId)
  | memoryWrite (index source : RegisterId)
  | channelRead (target object : RegisterId)
  | channelWrite (object source : RegisterId)
  | call (object : RegisterId) (label : String) (args : List RegisterId)
  /-- Binds the results of the call just before. -/
  | callDone (returns : List RegisterId)
deriving DecidableEq, Repr, Inhabited

namespace Insn

def uses : Insn → List RegisterId
  | nop | goto _ | callDone _ => []
  | branch cond _ => [cond]
  | num _ source | assign _ source | invert _ _ source => [source]
  | binary _ _ left right | concat _ left right => [left, right]
  | shift _ _ source amount => [source, amount]
  | count _ operand => [operand]
  | bitRange _ source msb lsb => [source, msb, lsb]
  | loadObject _ object _ | memberRead _ object _ => RegisterId.ifUsed object
  | memberWrite object _ source => RegisterId.ifUsed object ++ [source]
  | arrayRead _ object index => [object, index]
  | arrayWrite object index source => [object, index, source]
  | memoryRead _ index => [index]
  | memoryWrite index source => [index, source]
  | channelRead _ object => [object]
  | channelWrite object source => [object, source]
  | call object _ args => RegisterId.ifUsed object ++ args

def definitions : Insn → List RegisterId
  | num target _ | assign target _ | binary _ target _ _ | shift _ target _ _
  | concat target _ _ | count _ target | bitRange target _ _ _ | invert _ target _
  | loadObject target _ _ | memberRead target _ _ | arrayRead target _ _ | memoryRead target _
  | channelRead target _ => [target]
  | callDone returns => returns
  | nop | goto _ | branch _ _ | memberWrite _ _ _ | arrayWrite _ _ _ | memoryWrite _ _
  | channelWrite _ _ | call _ _ _ => []

def jumpTarget? : Insn → Option UInt64
  | goto target | branch _ target => some target
  | _ => none

def text (file : List Register) (insn : Insn) : String :=
  let r := Register.nameIn file
  let o := Register.objectNameIn file
  let rs := Register.namesIn file
  match insn with
  | nop => "nop"
  | goto target => s!"goto {target}"
  | branch cond target => s!"if {r cond} goto {target}"
  | num target source => s!"{r target} = num {r source}"
  | assign target source => s!"{r target} = {r source}"
  | binary op target left right => s!"{r target} = {r left} {op.text} {r right}"
  | shift right target source amount =>
    s!"{r target} = {r source} " ++ (if right then ">>" else "<<") ++ s!" {r amount}"
  | concat target left right => s!"{r target} = {r left} :: {r right}"
  | count down operand => (if down then "--" else "++") ++ r operand
  | bitRange target source msb lsb => s!"{r target} = {r source}[{r msb}:{r lsb}]"
  | invert logical target source =>
    s!"{r target} = " ++ (if logical then "!" else "~") ++ r source
  | loadObject target object label =>
    if label = "" then s!"{r target} = load_obj this"
    else s!"{r target} = load_obj {o object}.{label}"
  | memberRead target object label => s!"{r target} = {o object}.{label}"
  | memberWrite object label source => s!"{o object}.{label} = {r source}"
  | arrayRead target object index => s!"{r target} = {r object}[{r index}]"
  | arrayWrite object index source => s!"{r object}[{r index}] = {r source}"
  | memoryRead target index => s!"{r target} = *{r index}"
  | memoryWrite index source => s!"*{r index} = {r source}"
  | channelRead target object => s!"{r target} = {r object}.read()"
  | channelWrite object source => s!"{r object}.write({r source})"
  | call object label args => s!"funcall {o object}.{label}({rs args})"
  | callDone returns => s!"funcall_done ({rs returns})"

end Insn
end MachineSynth
