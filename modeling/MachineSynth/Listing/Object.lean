import MachineSynth.Listing.Method
import MachineSynth.Bytecode.Machine

/-! Listings: the objects a text declares, numbered in the order in which they appear. -/
namespace MachineSynth
namespace Listing

def readNum (f : Form) : Read Value := do
  let width ← f.word 2 64
  match (f.symbol 3).toOption.bind (Numeral.natural? 64) with
  | some init =>
    return .num width (Int64.ofNat init) ((← f.flags 4 ["const"]).contains "const")
  | none => return .num width 0 ((← f.flags 3 ["const"]).contains "const")

def readEnum (f : Form) : Read Value := do
  let ordinal ← f.number 2 64
  return .enum 0 (Int64.ofNat ordinal) ((← f.flags 3 ["const"]).contains "const")

def readArray (name : String) (f : Form) : Read Object := do
  let width ← f.word 2 64
  let length ← f.word 3 32
  let flags ← f.flags 4 ["axi-master", "axi-slave"]
  return { Object.array name width length with
    axiMaster := flags.contains "axi-master", axiSlave := flags.contains "axi-slave" }

def readChannel (name : String) (f : Form) : Read Object :=
  if f.items.length = 3 then do return .channel name (← f.word 2 64)
  else complain f.span .expectedChannel

def readThread (name : String) (f : Form) : Read ThreadDecl :=
  if f.items.length = 3 then do return ⟨name, ← f.symbol 2⟩
  else complain f.span .expectedThread

/-- Whether a declaration may use the name of the given slot: threads may always, and a method may
replace a built-in one. -/
def mayRedeclare (existing : Value) (kind : String) : Bool :=
  match kind, existing with
  | "thread", _ => true
  | "method", .method m => m.isBuiltin
  | _, _ => false

def checkName (o : Object) (f : Form) (name : String) : Read Unit :=
  match o.lookup? name with
  | none => return
  | some v =>
    if mayRedeclare v f.head then return else complain (f.spanAt 1) (.duplicateMember name)

/-- An object being read: itself, and the objects below it, which take the numbers after its own. -/
structure Family where
  object : Object
  below : List Object

namespace Family

/-- Adds a member object, with all below it, to the object of number `id`. -/
def adopt (c : Family) (id : Nat) (name : String) (member : Family) : Family :=
  ⟨c.object.set name (.object (id + 1 + c.below.length)),
    c.below ++ member.object :: member.below⟩

def objects (c : Family) : List Object := c.object :: c.below

end Family

mutual

def readMembers (id : Nat) (c : Family) : List Located → Read Family
  | [] => return c
  | t :: rest => do
    let c ← readMember id c t
    readMembers id c rest

def readMember (id : Nat) (c : Family) : Located → Read Family
  | .list span (.symbol s kind :: second :: rest) => do
    let f : Form := ⟨span, .symbol s kind :: second :: rest⟩
    let name ← f.symbol 1
    checkName c.object f name
    match kind with
    | "num" => return { c with object := c.object.set name (← readNum f) }
    | "enum" => return { c with object := c.object.set name (← readEnum f) }
    | "array" => return c.adopt id name ⟨← readArray name f, []⟩
    | "channel" => return c.adopt id name ⟨← readChannel name f, []⟩
    | "object" =>
      return c.adopt id name (← readMembers (id + 1 + c.below.length) ⟨.plain name, []⟩ rest)
    | "thread" =>
      return { c with object.threads := c.object.threads ++ [← readThread name f] }
    | "method" => return { c with object := c.object.addMethod (← readMethod name rest) }
    | _ => complain (f.spanAt 0) (.unknownMember kind)
  | t => complain t.span .expectedMember

end

/-- Reads the top-level object, which takes the number zero. -/
def readTop : Located → Read Family
  | .list span (.symbol s head :: name :: members) =>
    if head = "object" then do
      let n ← Form.symbol ⟨span, .symbol s head :: name :: members⟩ 1
      readMembers 0 ⟨.plain n, []⟩ members
    else complain span .expectedObject
  | t => complain t.span .expectedObject

/-- The machine a source declares; its top-level object has number zero. -/
def load (source : Source) : Except SyntaxError Machine := do
  match ← source.term with
  | none => .error ⟨source, Span.ofLength 0 source.length, Cause.expectedObject.message⟩
  | some t =>
    match readTop t with
    | .ok c => return ⟨c.objects⟩
    | .error e => .error ⟨source, e.span, e.cause.message⟩

end Listing
end MachineSynth
