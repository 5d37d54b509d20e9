import MachineSynth.Text.Numeral

/-! Command lines: which command is meant, with which options. Part of the program alone: no result
is about it. -/
namespace MachineSynth

inductive FlagKind
  /-- Takes a truth value, which is true when left out. -/
  | switch
  | text
  | number
deriving DecidableEq, Repr

structure Flag where
  name : String
  short : Option Char
  kind : FlagKind
deriving DecidableEq, Repr

namespace Flag

def verbose : Flag := ⟨"verbose", some 'v', .switch⟩

def config : Flag := ⟨"config", none, .text⟩

def help : Flag := ⟨"help", some 'h', .switch⟩

def version : Flag := ⟨"version", none, .switch⟩

def depth : Flag := ⟨"max-inline-depth", none, .number⟩

def noDescriptions : Flag := ⟨"no-descriptions", none, .switch⟩

def common : List Flag := [verbose, config, help]

def synth : List Flag :=
  common ++ [⟨"output", some 'o', .text⟩, ⟨"format", none, .text⟩, ⟨"hdl", none, .text⟩,
    ⟨"opt", none, .text⟩, ⟨"backend", none, .text⟩, ⟨"output-dir", none, .text⟩, depth]

def truth? (s : String) : Option Bool :=
  if ["1", "t", "T", "true", "TRUE", "True"].contains s then some true
  else if ["0", "f", "F", "false", "FALSE", "False"].contains s then some false
  else none

def number? (s : String) : Option UInt64 :=
  match Numeral.magnitude? s.toList with
  | some n => if s ≠ "" && n < 0x10000000000000000 then some (UInt64.ofNat n) else none
  | none => none

def admits (f : Flag) (value : String) : Bool :=
  match f.kind with
  | .switch => (truth? value).isSome
  | .text => true
  | .number => (number? value).isSome

end Flag

/-- The flags that were given, with their values, and the other arguments. -/
structure Given where
  flags : List (String × String)
  args : List String
deriving DecidableEq, Repr

namespace Given

def empty : Given := ⟨[], []⟩

def addFlag (g : Given) (name value : String) : Given := { g with flags := (name, value) :: g.flags }

def addArg (g : Given) (a : String) : Given := { g with args := a :: g.args }

def all (g : Given) (name : String) : List String :=
  (g.flags.filter (·.1 = name)).map (·.2)

/-- A text without the returns that stand before line breaks. -/
def dropReturns : List Char → List Char
  | '\r' :: '\n' :: rest => '\n' :: dropReturns rest
  | c :: rest => c :: dropReturns rest
  | [] => []

/-- The values of a flag that makes a list. A list of one empty value is empty, and line breaks are
without returns. -/
def list (g : Given) (name : String) : List String :=
  if g.all name = [""] then []
  else (g.all name).map fun v => String.ofList (dropReturns v.toList)

def last? (g : Given) (name : String) : Option String := (g.all name).getLast?

def isOn (g : Given) (f : Flag) : Bool := ((g.last? f.name).bind Flag.truth?).getD false

def startsFlag (s : String) : Bool := s.toList.head? = some '-' && 1 < s.length

def splitValue (cs : List Char) : String × Option String :=
  (String.ofList (cs.takeWhile (· ≠ '=')),
    match cs.dropWhile (· ≠ '=') with
    | _ :: v => some (String.ofList v)
    | [] => none)

/-- A long flag, without its dashes, and whether the next argument was its value. -/
def long? (flags : List Flag) (cs : List Char) (next : Option String) :
    Option ((String × String) × Bool) := do
  if cs.head? = some '-' || cs.head? = some '=' then none
  let (name, value) := splitValue cs
  let f ← flags.find? (·.name = name)
  let (v, used) ← match value with
    | some v => some (v, false)
    | none => if f.kind = .switch then some ("true", false) else next.map (·, true)
  if f.admits v then some ((name, v), used) else none

/-- The start of flags that are for whoever tests the program, and mean nothing to it. -/
def testMark : List Char := "test.".toList

/-- Short flags, without their dash, and whether the next argument was a value. -/
def shorts? (flags : List Flag) (next : Option String) :
    List Char → Option (List (String × String) × Bool)
  | [] => some ([], false)
  | c :: rest => do
    if testMark.isPrefixOf (c :: rest) then return ([], false)
    let f ← flags.find? (·.short = some c)
    let only (v : String) (used : Bool) : Option (List (String × String) × Bool) :=
      if f.admits v then some ([(f.name, v)], used) else none
    match rest with
    | '=' :: v :: more => only (String.ofList (v :: more)) false
    | _ =>
      if f.kind = .switch then do
        let (fs, used) ← shorts? flags next rest
        return ((f.name, "true") :: fs, used)
      else if rest ≠ [] then only (String.ofList rest) false
      else do only (← next) true

/-- The flags and arguments of a command line; `skip` tells that the first is already used. -/
def read? (flags : List Flag) : Bool → List String → Option Given
  | _, [] => some empty
  | true, _ :: rest => read? flags false rest
  | false, s :: rest =>
    if !startsFlag s then (read? flags false rest).map (·.addArg s)
    else if s = "--" then some ⟨[], rest⟩
    else
      match s.toList with
      | _ :: '-' :: cs => do
        let ((name, v), used) ← long? flags cs rest.head?
        return (← read? flags used rest).addFlag name v
      | _ :: cs => do
        let (fs, used) ← shorts? flags rest.head? cs
        return fs.foldr (fun (n, v) g => g.addFlag n v) (← read? flags used rest)
      | [] => none

end Given

/-- What the synthesizer is asked to do. -/
structure Options where
  file : String
  config : String
  output : String
  format : String
  /-- Files to generate. -/
  generate : List String
  /-- Passes to run. -/
  passes : List String
  backend : Option String
  outputDir : Option String
  maxInlineDepth : Option UInt64
deriving DecidableEq, Repr

inductive Invocation
  | help
  /-- Help on something that is no command. -/
  | unknownTopic
  | version
  | synth (o : Options)
  | inspect (o : Options)
  | dump (file : String)
deriving DecidableEq, Repr

namespace Invocation

def commands : List String := ["completion", "dump", "help", "inspect", "synth"]

def shells : List String := ["bash", "fish", "powershell", "zsh"]

def rootFlags : List Flag := [.version, .verbose, .config]

/-- The flags that may stand before the name of a command of a command. -/
def inheritedFlags : List Flag := [.verbose, .config]

/-- Whether the argument after a flag is its value; that of an unknown flag is. -/
def takesNext (known : List Flag) (s : String) : Bool :=
  match s.toList with
  | '-' :: '-' :: cs =>
    !cs.contains '=' && !known.any fun f => f.kind = .switch && f.name = String.ofList cs
  | ['-', c] => c ≠ '=' && c.toNat < 128 && !known.any fun f => f.kind = .switch && f.short = some c
  | _ => false

def isPlain (s : String) : Bool := s.toList.head? ≠ some '-'

/-- The first argument that is neither a flag nor the value of one. -/
def commandName? (known : List Flag) : List String → Option String
  | [] => none
  | s :: rest =>
    if s = "--" then none
    else if takesNext known s then
      match rest with
      | [] => none
      | [_] => none
      | _ :: rest => commandName? known rest
    else if s ≠ "" && isPlain s then some s
    else commandName? known rest

def dropName (known : List Flag) (name : String) : List String → List String
  | [] => []
  | s :: rest =>
    if s = "--" then s :: rest
    else if takesNext known s then
      match rest with
      | [] => [s]
      | v :: rest => s :: v :: dropName known name rest
    else if isPlain s && s = name then rest
    else s :: dropName known name rest

def options (g : Given) (file : String) : Options :=
  { file := file, config := (g.last? "config").getD "", output := (g.last? "output").getD ""
    format := (g.last? "format").getD "sexp", generate := g.list "hdl", passes := g.list "opt"
    backend := g.last? "backend", outputDir := g.last? "output-dir"
    maxInlineDepth := (g.last? "max-inline-depth").bind Flag.number? }

def ofFile? (flags : List Flag) (args : List String) (f : Options → Invocation) :
    Option Invocation := do
  let g ← Given.read? flags false args
  if g.isOn .help then return .help
  match g.args with
  | [file] => return f (options g file)
  | _ => none

def ofTopic? (args : List String) : Option Invocation := do
  let g ← Given.read? Flag.common false args
  if g.isOn .help then return .help
  match commandName? rootFlags g.args with
  | some topic => return if commands.contains topic then .help else .unknownTopic
  | none => return .help

/-- How a shell completes command lines, which the help tells; a shell takes no arguments. -/
def ofShell? (args : List String) : Option Invocation := do
  match (commandName? inheritedFlags args).filter shells.contains with
  | some shell =>
    let g ← Given.read? (.noDescriptions :: Flag.common) false (dropName inheritedFlags shell args)
    if g.isOn .help || g.args.isEmpty then return .help else none
  | none =>
    let _ ← Given.read? Flag.common false args
    return .help

/-- What a command line asks for, if it is well formed. -/
def ofArgs? (args : List String) : Option Invocation :=
  match commandName? rootFlags args with
  | none => do
    let g ← Given.read? (.version :: Flag.common) false args
    return if !g.isOn .help && g.isOn .version then .version else .help
  | some name =>
    let rest := dropName rootFlags name args
    if name = "synth" then ofFile? Flag.synth rest .synth
    else if name = "inspect" then ofFile? (Flag.common ++ [.depth]) rest .inspect
    else if name = "dump" then ofFile? Flag.common rest fun o => .dump o.file
    else if name = "help" then ofTopic? rest
    else if name = "completion" then ofShell? rest
    else none

end Invocation
end MachineSynth
