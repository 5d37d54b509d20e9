import MachineSynth.Rtl.Image
import MachineSynth.Term.Printer

/-! The text of a design: one term for each module and each channel. -/
namespace MachineSynth
namespace Image

def num (n : Nat) : Term String := .symbol (toString n)

def nums (ns : List Nat) : Term String := .list (ns.map num)

def typeTerm (t : Rtl.ValueType) : Term String :=
  .list [.symbol (if t.signed then "INT" else "UINT"), .symbol (toString t.width)]

/-- A register without a name is written as an empty list. -/
def registerTerm (r : Rtl.Register) : Term String :=
  let initial := match r.initial with
    | some v => .symbol (toString v)
    | none => .list []
  .list [.symbol "REGISTER", num r.id, .symbol (if r.name = "" then "()" else r.name),
    .symbol r.kind.name, typeTerm r.type, initial]

def arrayTerm (a : Rtl.ArrayShape) : Term String :=
  .list [.symbol "ARRAY", .symbol (toString a.addressWidth), typeTerm a.data,
    .symbol (if a.external then "EXTERNAL" else "INTERNAL")]

def resourceTerm (r : Resource) : Term String :=
  .list ([.symbol "RESOURCE", num r.id, .symbol r.kind, .list (r.inputs.map typeTerm),
      .list (r.outputs.map typeTerm),
      .list (.symbol "PARAMS" :: r.params.map fun (k, v) => .list [.symbol k, .symbol v])] ++
    r.array.toList.map arrayTerm ++
    r.parent.toList.map (fun p =>
      .list [.symbol "PARENT-RESOURCE", num p.module, num p.table, num p.resource]) ++
    r.callee.toList.map fun c => .list [.symbol "CALLEE-TABLE", num c.module, num c.table])

def insnTerm (i : Insn) : Term String :=
  .list [.symbol "INSN", num i.id, .symbol i.kind, num i.resource,
    .list (if i.operand = "" then [] else [.symbol i.operand]), nums i.targets, nums i.inputs,
    nums i.outputs]

def stateTerm (s : State) : Term String :=
  .list (.symbol "STATE" :: num s.id :: s.insns.map insnTerm)

def tableTerm (t : Table) : Term String :=
  .list ([.symbol "TABLE", num t.id, .symbol t.name,
      .list (.symbol "REGISTERS" :: t.registers.map registerTerm),
      .list (.symbol "RESOURCES" :: t.resources.map resourceTerm)] ++
    t.initial.toList.map (fun s => .list [.symbol "INITIAL", num s]) ++ t.states.map stateTerm)

def moduleTerm (m : Module) : Term String :=
  .list ([.symbol "MODULE", num m.id, .symbol m.name] ++
    m.parent.toList.map (fun p => .list [.symbol "PARENT", num p]) ++ m.tables.map tableTerm)

def endTerm : Option ResourceRef → Term String
  | none => .list []
  | some r => nums [r.module, r.table, r.resource]

def channelTerm (c : Channel) : Term String :=
  .list [.symbol "CHANNEL", num c.id, typeTerm c.type, endTerm c.writer, endTerm c.reader]

def terms (i : Image) : List (Term String) := i.modules.map moduleTerm ++ i.channels.map channelTerm

/-- Every term starts a line; lists nested up to three deep stay on one. -/
def text (i : Image) : Bytes := i.terms.flatMap fun t => t.encode.format 3 ++ utf8 ['\n']

end Image

def Rtl.Design.text (d : Rtl.Design) : Bytes := d.image.text

end MachineSynth
