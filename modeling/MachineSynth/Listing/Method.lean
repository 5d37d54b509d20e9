import MachineSynth.Listing.Code

/-! Method declarations of a listing: clauses for arguments, return values, marks, registers and
code. -/
namespace MachineSynth
namespace Listing

def readType (f : Form) (i : Nat) : Read (DeclType × UInt64) := do
  let kind ← f.symbol i
  match kind with
  | "int" => return (.int, ← f.word (i + 1) 64)
  | "bool" => return (.bool, 0)
  | "object" => return (.object, 0)
  | "string" => return (.string, 0)
  | _ => complain (f.spanAt i) (.unknownType kind)

/-- An argument has a name, a return value has none. -/
def readDecl (named : Bool) : Located → Read VarDecl
  | .list span (first :: rest) => do
    let f : Form := ⟨span, first :: rest⟩
    if named then
      let name ← f.symbol 0
      let (type, width) ← readType f 1
      return ⟨name, type, width⟩
    else
      let (type, width) ← readType f 0
      return ⟨"", type, width⟩
  | t => complain t.span .expectedDeclaration

def readDecls (named : Bool) : List Located → Read (List VarDecl)
  | [] => return []
  | t :: rest => do
    let d ← readDecl named t
    return d :: (← readDecls named rest)

def readMark : Located → Read (String × String)
  | .symbol _ key => return (key, "")
  | .list _ [.symbol _ key, .symbol _ port] => return (key, port)
  | t => complain t.span .expectedKeyValue

def readMarks (marks : Marks) : List Located → Read Marks
  | [] => return marks
  | t :: rest => do
    let (key, port) ← readMark t
    let marks ←
      match key with
      | "data-flow-entry" => pure { marks with dataFlowEntry := true }
      | "ext-entry" => pure { marks with extEntry := true }
      | "ext-input" => pure { marks with extInput := true, port := port }
      | "ext-output" => pure { marks with extOutput := true, port := port }
      | _ => complain t.span (.unknownMark key)
    readMarks marks rest

def readRegister (f : Form) : Read Register := do
  let name ← f.symbol 0
  let kind ← f.symbol 1
  match kind with
  | "num" => return ⟨name, .num, ← f.word 2 64, false, 0⟩
  | "enum" => return ⟨name, .enum, 0, false, 0⟩
  | "object" => return ⟨name, .object, 0, false, 0⟩
  | "const" =>
    let width ← f.word 2 64
    return ⟨name, .num, width, true, ← f.integer 3⟩
  | _ => complain (f.spanAt 1) (.unknownRegisterKind kind)

def readForms : List Located → Read (List Form)
  | [] => return []
  | .symbol span _ :: _ => complain span .expectedRegister
  | .list span items :: rest => do return ⟨span, items⟩ :: (← readForms rest)

/-- Adds the local registers to those declared already. A name may not be used twice, and `this`
not at all. -/
def addLocals (regs : List Register) : List Form → Read (List Register)
  | [] => return regs
  | f :: rest => do
    let r ← readRegister f
    if r.name = "this" || (findRegister r.name 0 regs).isSome then
      complain f.span (.duplicateRegister r.name)
    addLocals (regs ++ [r]) rest

def declRegister (name : String) (d : VarDecl) : Register :=
  match d.type with
  | .int => ⟨name, .num, d.width, false, 0⟩
  | .bool => ⟨name, .enum, 0, false, 0⟩
  | _ => ⟨name, .object, 0, false, 0⟩

/-- The registers of the arguments, under their names, and then those of the return values. -/
def declRegisters (m : Method) : List Register :=
  m.args.map (fun d => declRegister d.name d) ++
    m.returns.mapIdx (fun i d => declRegister s!"$ret{i}" d)

/-- What the clauses of a method say; a later clause replaces an earlier one of its kind, but
marks add up. -/
structure Clauses where
  method : Method
  locals : List Form
  code : List Located

def readClause (c : Clauses) (f : Form) (arguments : List Located) : Read Clauses :=
  match f.head with
  | "args" => do return { c with method.args := ← readDecls true arguments }
  | "returns" => do return { c with method.returns := ← readDecls false arguments }
  | "annotate" => do return { c with method.marks := ← readMarks c.method.marks arguments }
  | "native" => do return { c with method.native := ← f.name }
  | "alt" => do return { c with method.alt := ← f.name }
  | "import" => do return { c with method.imported := ← f.name }
  | "regs" => do return { c with locals := ← readForms arguments }
  | "code" => return { c with code := arguments }
  | kind => complain (f.spanAt 0) (.unknownClause kind)

def readClauses (c : Clauses) : List Located → Read Clauses
  | [] => return c
  | .list span (.symbol s head :: arguments) :: rest => do
    let c ← readClause c ⟨span, .symbol s head :: arguments⟩ arguments
    readClauses c rest
  | t :: _ => complain t.span .expectedClause

def readMethod (name : String) (clauses : List Located) : Read Method := do
  let c ← readClauses ⟨⟨name, [], [], [], [], "", "", "", .none⟩, [], []⟩ clauses
  let regs ← addLocals (declRegisters c.method) c.locals
  let code ← readInsns regs c.code.length c.code
  return { c.method with registers := regs, code := code }

end Listing
end MachineSynth
