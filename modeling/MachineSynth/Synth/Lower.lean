import MachineSynth.Synth.Context

/-! Lowering of single instructions. Each takes one state, a negated comparison two; what needs no
work of its own leaves no state here. -/
namespace MachineSynth
namespace Synth
namespace Lower

def operatorKind? : BinaryOp → Option String
  | .add => some "add"
  | .sub => some "sub"
  | .mul => some "mul"
  | .eq | .ne => some "eq"
  | .gt | .lt | .gte | .lte => some "gt"
  | .and | .land => some "and"
  | .or | .lor => some "or"
  | .xor => some "xor"
  | .unknown _ => none

def swapsOperands (op : BinaryOp) : Bool := op = .lt || op = .gte

/-- Whether an operator is the negation of what its resource computes. -/
def negatesResult (op : BinaryOp) : Bool := op = .ne || op = .gte || op = .lte

def operatorType (s : Site) (op : BinaryOp) (target left : RegisterId) : Rtl.ValueType :=
  match s.method.register? (if op.isComparison then left else target) with
  | some reg => if reg.kind = .num then .unsigned reg.width else .truth
  | none => .truth

/-- Makes a register of the method stand for a new constant. -/
def bindConstant (r : RegisterId) (width : UInt64) (value : Int64) : Lower Unit := do
  bind r (← build (·.constant width value))

def num (s : Site) (target source : RegisterId) : Lower Unit :=
  match s.method.register? source with
  | some reg =>
    if reg.kind = .num then bindConstant target reg.width reg.initial
    else fault (.nonNumeric source)
  | none => fault (.nonNumeric source)

def assign (s : Site) (target source : RegisterId) : Lower Unit := do
  let t ← register s target
  let r ← register s source
  emit (← resource Pool.assign) "" [r] [t]

def invert (source target : Nat) : Lower Unit := do
  emit (← resource (·.operator "bit-inv" .truth)) "" [source] [target]

def binary (s : Site) (op : BinaryOp) (target left right : RegisterId) : Lower Unit := do
  match operatorKind? op with
  | none => fault (.unknownOperator op.text)
  | some kind =>
    let unit ← resource (·.operator kind (operatorType s op target left))
    let l ← register s left
    let r ← register s right
    let inputs := if swapsOperands op then [r, l] else [l, r]
    let t ← register s target
    if negatesResult op then
      let result ← build (·.storage "t_" 0)
      emit unit "" inputs [result]
      invert result t
    else emit unit "" inputs [t]

def constantOf (s : Site) (r : RegisterId) (what : String) : Lower Int64 :=
  match (s.method.register? r).bind (·.const) with
  | some v => return v
  | none => fault (.notConstant what s.objectName s.method.name)

def shift (s : Site) (right : Bool) (target source amount : RegisterId) : Lower Unit := do
  let n ← constantOf s amount "shift amount"
  let r ← register s source
  let unit ← resource (·.operator "shift" .truth)
  let c ← build (·.constant 32 n)
  let t ← register s target
  emit unit (if right then "right" else "left") [r, c] [t]

def concat (s : Site) (target left right : RegisterId) : Lower Unit := do
  let l ← register s left
  let r ← register s right
  let unit ← resource (·.operator "bit-concat" .truth)
  let t ← register s target
  emit unit "" [l, r] [t]

def bitRange (s : Site) (target source msb lsb : RegisterId) : Lower Unit := do
  let hi ← constantOf s msb "bit range msb"
  let lo ← constantOf s lsb "bit range lsb"
  let r ← register s source
  let unit ← resource (·.operator "bit-sel" .truth)
  let h ← build (·.constant 32 hi)
  let l ← build (·.constant 32 lo)
  let t ← register s target
  emit unit "" [r, h, l] [t]

def count (s : Site) (down : Bool) (operand : RegisterId) : Lower Unit := do
  let width := ((s.method.register? operand).map (·.width)).getD 0
  let r ← register s operand
  let unit ← resource (·.operator (if down then "sub" else "add") (.unsigned width))
  let one ← build (·.constant width 1)
  emit unit "" [r, one] [r]

/-- Registers the resource that holds a shared entity. -/
def addOwner (e : Entity) (r : Nat) : Lower Unit := do
  let b := (← get).builder
  let links ← ofExcept (b.links.addOwner e (b.pool.ref r))
  modify fun l => { l with builder := { l.builder with links := links } }

/-- Registers a resource that accesses a shared entity. -/
def addAccessor (e : Entity) (r : Nat) : Lower Unit :=
  build fun b => ((), { b with links := b.links.addAccessor e (b.pool.ref r) })

/-- A member that only this thread accesses is kept in a register of the table. -/
def privateMember (s : Site) (e : Entity) (width : UInt64) (initial : Int64) (r : RegisterId)
    (write : Bool) : Lower Unit := do
  let member ← build (·.memberRegister e width initial)
  let own ← register s r
  let unit ← resource Pool.assign
  if write then emit unit "" [own] [member] else emit unit "" [member] [own]

def sharedMember (s : Site) (e : Entity) (width : UInt64) (r : RegisterId) (write : Bool) :
    Lower Unit := do
  let isOwner := (s.owners.get e).isOwner s.thread
  let unit ← resource (·.sharedMember e isOwner write)
  if isOwner then
    build fun b => ((), { b with pool := b.pool.update unit (·.setWidth width) })
    addOwner e unit
  else addAccessor e unit
  let own ← register s r
  if write then emit unit "" [own] [] else emit unit "" [] [own]

def storedMember (s : Site) (e : Entity) (width : UInt64) (value : Int64) (const : Bool)
    (r : RegisterId) (write : Bool) : Lower Unit :=
  if const then
    if write then fault (.writeToConstant (s.machine.name e.object) e.member)
    else bindConstant r width value
  else if (s.owners.get e).isShared then sharedMember s e width r write
  else privateMember s e width value r write

def memberAccess (s : Site) (insn : Insn) (label : String) (r : RegisterId) (write : Bool) :
    Lower Unit := do
  let (owner, walker) ← ofExcept ((← get).walker.access s.machine insn)
  modify fun l => { l with walker := walker }
  match (s.machine.object? owner).bind (·.lookup? label) with
  | none => error (.memberNotFound (s.machine.name owner) label)
  | some (.object _) =>
    if write then fault (.writeToObject (s.machine.name owner) label) else return
  | some (.method _) => fault (.accessToMethod (s.machine.name owner) label)
  | some (.num width value const) => storedMember s ⟨owner, label⟩ width value const r write
  | some (.enum _ ordinal const) => storedMember s ⟨owner, label⟩ 0 ordinal const r write

/-- A state that reads or writes an array. -/
def indexed (s : Site) (unit : Nat) (index r : RegisterId) (write : Bool) : Lower Unit := do
  let i ← register s index
  let own ← register s r
  if write then emit unit "write" [i, own] [] else emit unit "read" [i] [own]

/-- The resource of an array: its own where one thread accesses it and none moves it, else that of
its owner or an access to that. -/
def arrayResource (s : Site) (id : Nat) (o : Object) (write : Bool) : Lower Nat := do
  let ownership := s.owners.get (.whole id)
  if !ownership.isShared && !ownership.isMoved then resource (·.privateArray id o)
  else if ownership.isOwner s.thread then
    let unit ← resource (·.sharedArray id o true false)
    addOwner (.whole id) unit
    return unit
  else
    let unit ← resource (·.sharedArray id o false write)
    addAccessor (.whole id) unit
    return unit

def heldObject (s : Site) (r : RegisterId) : Lower (Option (Nat × Object)) := do
  let w := (← get).walker
  return (w.objectOf? r).bind fun id => (s.machine.object? id).map (id, ·)

def arrayAccess (s : Site) (array index r : RegisterId) (write : Bool) : Lower Unit := do
  match ← heldObject s array with
  | some (id, o) =>
    if o.isArray then indexed s (← arrayResource s id o write) index r write
    else fault (.arrayExpected s.objectName s.method.name)
  | none => fault (.arrayExpected s.objectName s.method.name)

def memoryAccess (s : Site) (index r : RegisterId) (write : Bool) : Lower Unit := do
  indexed s (← resource Pool.externalMemory) index r write

def channelAccess (s : Site) (channel r : RegisterId) (write : Bool) : Lower Unit := do
  match ← heldObject s channel with
  | some (id, o) =>
    if o.isChannel then
      let unit ← resource (·.channel id write o.width)
      let own ← register s r
      if write then emit unit "" [own] [] else emit unit "" [] [own]
      build fun b => ((), { b with
        channels := b.channels.add id o.name o.width
          (if write then channelWriteKind else channelReadKind) (b.pool.ref unit) })
    else fault (.channelExpected s.objectName s.method.name)
  | none => fault (.channelExpected s.objectName s.method.name)

/-- A transfer of an array goes over its port, which accesses the memory of the array's owner if
it has one. -/
def transfer (s : Site) (id : Nat) (o : Object) (args : List RegisterId) (store : Bool) :
    Lower Unit := do
  if o.isArray then
    let unit ← resource (·.arrayPort id o true)
    if (s.owners.get (.whole id)).owner.isSome then addAccessor (.whole id) unit
    let inputs ← registers s args
    emit unit (if store then "write" else "read") inputs []
  else fault (.transferExpected o.name)

def nativeCall (s : Site) (id : Nat) (o : Object) (f : Method) (args : List RegisterId) :
    Lower Unit := do
  match f.native with
  | "print" =>
    let unit ← resource (·.ofKind "print")
    emit unit "" (← registers s args) []
  | "assert" =>
    let unit ← resource (·.ofKind "assert")
    emit unit "" (← registers s args) []
  | "wait" =>
    let unit ← resource (·.ofKind "wait-cycles")
    let inputs ← registers s args
    if inputs.isEmpty then emit unit "" [← build (·.constant 32 1)] []
    else emit unit "" inputs []
  | "load" => transfer s id o args false
  | "store" => transfer s id o args true
  | _ => error (.unsupportedNative o.name f.name)

/-- What a call on an object leads to; a call without a label leads nowhere. -/
def calleeOf (s : Site) (id : Nat) (o : Object) (label : String) : Option Callee :=
  let outside := id != s.object
  let member := if outside then (s.machine.memberNames s.object id).head?.getD o.name else ""
  if label = "" then none else some ⟨id, label, outside, member⟩

/-- A call leaves a placeholder with the arguments, to which the results are added. -/
def call (s : Site) (object : RegisterId) (label : String) (args : List RegisterId) :
    Lower Unit := do
  match ← heldObject s object with
  | none => fault (.unresolvedCallee label s.objectName s.method.name)
  | some (id, o) =>
    match (← get).walker.isNativeCall s.machine object label, o.method? label with
    | true, some f => nativeCall s id o f args
    | _, _ =>
      let unit ← resource Pool.pseudo
      let inputs ← registers s args
      push [← insn unit "" inputs []] none (calleeOf s id o label)

/-- The results go to the only instruction of the state just before. -/
def callDone (s : Site) (returns : List RegisterId) : Lower Unit := do
  match (← get).states.getLast? with
  | some ⟨id, [i], jump, callee⟩ =>
    let outputs ← registers s returns
    modify fun l => { l with states := l.states.dropLast ++
      [⟨id, [{ i with outputs := i.outputs ++ outputs }], jump, callee⟩] }
  | _ => fault (.doneWithoutCall s.objectName s.method.name)

def branch (s : Site) (cond : RegisterId) (target : UInt64) : Lower Unit := do
  let unit ← resource Pool.transition
  let c ← register s cond
  push [← insn unit "" [c] []] (some (.branch cond target)) none

def loadObject (s : Site) (target object : RegisterId) (label : String) : Lower Unit := do
  let walker ← ofExcept ((← get).walker.load s.machine target object label)
  modify fun l => { l with walker := walker }

def instruction (s : Site) (i : Insn) : Lower Unit :=
  match i with
  | .nop => return
  | .goto _ => push [] (some i) none
  | .branch cond target => branch s cond target
  | .num target source => num s target source
  | .assign target source => assign s target source
  | .binary op target left right => binary s op target left right
  | .shift right target source amount => shift s right target source amount
  | .concat target left right => concat s target left right
  | .count down operand => count s down operand
  | .bitRange target source msb lsb => bitRange s target source msb lsb
  | .invert _ target source => do
    let r ← register s source
    let t ← register s target
    invert r t
  | .loadObject target object label => loadObject s target object label
  | .memberRead target _ label => memberAccess s i label target false
  | .memberWrite _ label source => memberAccess s i label source true
  | .arrayRead target object index => arrayAccess s object index target false
  | .arrayWrite object index source => arrayAccess s object index source true
  | .memoryRead target index => memoryAccess s index target false
  | .memoryWrite index source => memoryAccess s index source true
  | .channelRead target object => channelAccess s object target false
  | .channelWrite object source => channelAccess s object source true
  | .call object label args => call s object label args
  | .callDone returns => callDone s returns

end Lower
end Synth
end MachineSynth
