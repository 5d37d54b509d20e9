import MachineSynth.Bytecode.Insn

/-! Methods: declarations, a register file and code. -/
namespace MachineSynth

/-- The declared type of an argument or return value. -/
inductive DeclType
  | int
  | bool
  | object
  | string
deriving DecidableEq, Repr, Inhabited

namespace DeclType

def name : DeclType → String
  | int => "int"
  | bool => "bool"
  | object => "object"
  | string => "string"

def ofCode? (code : UInt8) : Option DeclType := [int, bool, object, string][code.toNat]?

def nameOfCode (code : UInt8) : String :=
  match ofCode? code with
  | some t => t.name
  | none => s!"type#{code}"

end DeclType

structure VarDecl where
  name : String
  type : DeclType
  width : UInt64
deriving DecidableEq, Repr, Inhabited

/-- What synthesis is told about a method. -/
structure Marks where
  /-- Entry of a thread that runs when data arrive. -/
  dataFlowEntry : Bool
  /-- Entry called from outside the design. -/
  extEntry : Bool
  /-- Reads an input port of the design. -/
  extInput : Bool
  /-- Writes an output port of the design. -/
  extOutput : Bool
  /-- The name of the port; that of the method if empty. -/
  port : String
deriving DecidableEq, Repr

namespace Marks

def none : Marks := ⟨false, false, false, false, ""⟩

instance : Inhabited Marks := ⟨none⟩

def isPort (m : Marks) : Bool := m.extInput || m.extOutput

end Marks

/-- A method. Its registers are those of the arguments, then those of the return values, then
its locals. -/
structure Method where
  name : String
  args : List VarDecl
  returns : List VarDecl
  registers : List Register
  code : List Insn
  /-- The built-in operation that implements the method, if any. -/
  native : String
  /-- The method of the same object that implements this one in a design, if any. -/
  alt : String
  /-- The external module that implements the method, if any. -/
  imported : String
  marks : Marks
deriving DecidableEq, Repr, Inhabited

namespace Method

/-- A method that is a built-in operation of the same name. -/
def ofNative (op : String) : Method := ⟨op, [], [], [], [], op, "", "", .none⟩

def isNative (m : Method) : Bool := m.native != "" || m.alt != ""

def isImported (m : Method) : Bool := m.imported != ""

def builtinNames : List String := ["print", "assert", "wait", "load", "store"]

/-- Whether the method is an operation that objects have without declaring it. -/
def isBuiltin (m : Method) : Bool :=
  builtinNames.contains m.name && m.native = m.name && m.alt = "" && !m.isImported && m.code.isEmpty

def register? (m : Method) (r : RegisterId) : Option Register := m.registers[r.toNat]?

def returnRegister (m : Method) (i : UInt64) : RegisterId := UInt64.ofNat m.args.length + i

def registerFlag (m : Method) (i : Nat) : String :=
  if i < m.args.length then "a"
  else if i < m.args.length + m.returns.length then "r"
  else ""

def text (m : Method) : String :=
  let code := m.code.mapIdx fun i insn => s!"  {i}:{insn.text m.registers}\n"
  let regs := m.registers.mapIdx fun i reg => s!"  r{i}{m.registerFlag i}:{reg.text}\n"
  "method insns\n" ++ String.join code ++ String.join regs

end Method
end MachineSynth
