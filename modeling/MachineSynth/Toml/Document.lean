import MachineSynth.Toml.Value

/-! Documents: what the statements of settings text make together. A table that is only spoken of on
the way to something else is implicit, and may still be defined once. Part of the program alone: no
result is about it. -/
namespace MachineSynth
namespace Toml

inductive Node
  | string (s : String)
  | integer (n : Int64)
  | other
  | array (items : List Node)
  | table (entries : List (String × Node))
  /-- The tables of one name, the last of which comes first. -/
  | tables (all : List (List (String × Node)))
deriving Repr, Inhabited

abbrev Entries := List (String × Node)

structure Document where
  entries : Entries
  implicit : List Key
  /-- Keys whose latest value is an array. -/
  arrays : List Key
  /-- Every key in the order in which it was written, the last first. -/
  written : List Key
  /-- The table that keys belong to now. -/
  context : Key
deriving Repr

namespace Document

def empty : Document := ⟨[], [], [], [], []⟩

def put (name : String) (n : Node) : Entries → Entries
  | [] => [(name, n)]
  | (k, v) :: rest => if k = name then (k, n) :: rest else (k, v) :: put name n rest

/-- Changes the entries of the table at a key; of tables of one name the last is meant. -/
def update (f : Entries → Option Entries) : Key → Entries → Option Entries
  | [], es => f es
  | k :: rest, es => do
    match es.lookup k with
    | some (.table inner) => return put k (.table (← update f rest inner)) es
    | some (.tables (last :: before)) => return put k (.tables ((← update f rest last) :: before)) es
    | _ => none

def inside? : Key → Entries → Option Entries
  | [], es => some es
  | k :: rest, es =>
    match es.lookup k with
    | some (.table inner) => inside? rest inner
    | some (.tables (last :: _)) => inside? rest last
    | _ => none

def markImplicit (d : Document) (k : Key) : Document := { d with implicit := k :: d.implicit }

def unmark (d : Document) (k : Key) : Document :=
  { d with implicit := d.implicit.filter (· ≠ k) }

/-- Notes whether the latest value of a key is an array. -/
def setKind (d : Document) (k : Key) (isArray : Bool) : Document :=
  { d with arrays := if isArray then k :: d.arrays else d.arrays.filter (· ≠ k) }

/-- The key that has the kind of what stands under a name in the current table. An empty name
speaks for the table itself. -/
def kindKey (d : Document) (name : String) : Key :=
  if name = "" && d.context ≠ [] then d.context else d.context ++ [name]

/-- Sets a name in the current table. What is defined cannot be set again, unless it is implicit:
then an array gives way, and a table is defined as it is. -/
def setValue (d : Document) (name : String) (n : Node) : Option Document := do
  let key := d.context ++ [name]
  let es ← inside? d.context d.entries
  let set : Option Document := do
    return { d with entries := ← update (some ∘ put name n) d.context d.entries }
  if (es.lookup name).isNone then set
  else if !d.implicit.contains key then none
  else if d.arrays.contains key then return (← set).unmark key
  else return d.unmark key

/-- Makes the tables above a key that are missing, as implicit ones. -/
def makeParents (d : Document) (above : Key) : Key → Option Document
  | [] => some d
  | k :: rest => do
    let es ← inside? above d.entries
    let d ← match es.lookup k with
      | none =>
        let entries ← update (some ∘ put k (.table [])) above d.entries
        pure ({ d with entries := entries }.markImplicit (above ++ [k]))
      | some (.table _) => pure d
      | some (.tables (_ :: _)) => pure d
      | _ => none
    makeParents d (above ++ [k]) rest

def addTable (name : String) (es : Entries) : Option Entries :=
  match es.lookup name with
  | none => some (put name (.tables [[]]) es)
  | some (.tables all) => some (put name (.tables ([] :: all)) es)
  | _ => none

/-- Goes into the table of a key: a new one of its name, or the only one. -/
def enter (d : Document) (key : Key) (several : Bool) : Option Document := do
  let above := key.dropLast
  let name := key.getLast?.getD ""
  let d ← d.makeParents [] above
  let d := { d with context := above }
  let d ← if several then do
      let entries ← update (addTable name) above d.entries
      pure { d with entries := entries }
    else d.setValue name (.table [])
  return { d with context := key }

/-- Goes down through the parts of a dotted key but the last. -/
def descend (d : Document) : Key → Option Document
  | [] => some d
  | k :: rest => do
    let key := d.context ++ [k]
    descend (← (d.markImplicit key).enter key false) rest

def note (d : Document) (k : Key) : Document := { d with written := k :: d.written }

/-- Sets an entry below a dotted key, in tables made for it. -/
def putDeep (n : Node) : Key → Entries → Option Entries
  | [], es => some es
  | [k], es => some (put k n es)
  | k :: rest, es =>
    match es.lookup k with
    | none => do return put k (.table (← putDeep n rest [])) es
    | some (.table inner) => do return put k (.table (← putDeep n rest inner)) es
    | _ => none

def isArray : Value → Bool
  | .array _ => true
  | _ => false

mutual

/-- The node of a value, given under a name in the current table. -/
def value (d : Document) (name : String) (inArray : Bool) : Value → Option (Node × Document)
  | .string s => some (.string s, d)
  | .integer n => some (.integer n, d)
  | .other => some (.other, d)
  | .array items => do
    let (ns, d) ← values (d.setKind (d.kindKey name) true) name items
    return (.array ns, d)
  | .table es => do
    let outer := d.context
    let key := outer ++ [name]
    let d ← (d.markImplicit key).enter key inArray
    let (ns, d) ← fill d key [] es
    return (.table ns, { d with context := outer })

def values (d : Document) (name : String) : List Value → Option (List Node × Document)
  | [] => some ([], d)
  | v :: rest => do
    let (n, d) ← value d name true v
    let (ns, d) ← values d name rest
    return (n :: ns, d)

/-- Sets the entries of a table in braces. -/
def fill (d : Document) (key : Key) (done : Entries) :
    List (Key × Value) → Option (Entries × Document)
  | [] => some (done, d)
  | (k, v) :: rest => do
    let name := k.getLast?.getD ""
    let d ← { d with context := key }.descend k.dropLast
    let kind := d.kindKey name
    let (n, d) ← value (d.note (d.context ++ [name])) name false v
    let d := (← d.setValue name n).setKind kind (isArray v)
    fill d key (← putDeep n k done) rest

end

/-- Sets a dotted key in the current table. -/
def assign (d : Document) (k : Key) (v : Value) : Option Document := do
  let outer := d.context
  let name := k.getLast?.getD ""
  let d ← d.descend k.dropLast
  let kind := d.kindKey name
  let (n, d) ← value (d.note (d.context ++ [name])) name false v
  let d := (← d.setValue name n).setKind kind (isArray v)
  return { d with context := outer }

def add (d : Document) : Statement → Option Document
  | .table k => do return ((← d.enter k false).setKind k false).note k
  | .arrayTable k => do return ((← d.enter k true).setKind k false).note k
  | .assign k v => d.assign k v

def ofStatements? (ss : List Statement) : Option Document := ss.foldlM add empty

def keys (d : Document) : List Key := d.written.reverse

end Document
end Toml
end MachineSynth
