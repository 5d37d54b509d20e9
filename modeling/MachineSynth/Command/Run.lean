import MachineSynth.Command.Backend
import MachineSynth.Command.Options
import MachineSynth.Listing.Object
import MachineSynth.Rtl.Codec
import MachineSynth.Rtl.Restore
import MachineSynth.Rtl.Summary
import MachineSynth.Rtl.Text
import MachineSynth.Synth.Design

/-! The commands. Each prints what it has to say and ends with an exit status. Part of the program
alone: no result is about it. -/
namespace MachineSynth

/-- The forms in which a design is written. -/
inductive Format
  | text
  | binary
deriving DecidableEq, Repr

namespace Format

def ofName? (name : String) : Option Format :=
  if name = "sexp" then some .text else if name = "cbor" then some .binary else none

def extension : Format → String
  | text => ".iroha"
  | binary => ".cbor"

def encode (f : Format) (i : Image) : Bytes :=
  match f with
  | text => i.text
  | binary => i.bytes

/-- The name of a design file, where none is asked for. -/
def outputName (f : Format) (listing : String) : String :=
  Path.stem (Path.base listing) ++ f.extension

end Format

namespace Command

/-- The statuses that commands end with. -/
inductive Status
  | ok
  /-- A malformed command line, or a design that cannot be synthesized. -/
  | failed
  /-- Settings or options that make no sense, a damaged file, or a fault. -/
  | refused
  | fileFailed
  | syntaxFailed
  | backendFailed
deriving DecidableEq, Repr

def Status.code : Status → UInt8
  | ok => 0
  | failed => 1
  | refused => 2
  | fileFailed => 3
  | syntaxFailed => 4
  | backendFailed => 5

variable {m : Type → Type} [Monad m]

/-- A command that may end early. -/
abbrev Act (m : Type → Type) := ExceptT Status m

def complain {α : Type} (h : Host m) (message : String) (s : Status) : Act m α := do
  h.print (message ++ "\n")
  throw s

/-- Reports an error in the log and ends. -/
def logged {α : Type} (h : Host m) (message : String) (s : Status) : Act m α := do
  h.log message
  throw s

def settings (h : Host m) (o : Options) : Act m Settings := do
  let found ← if o.config = "" then h.nearestSettings "." else h.settingsFile o.config
  match found with
  | .error e => complain h e.message .refused
  | .ok s => return { s with
      backend := o.backend.getD s.backend
      outputDir := o.outputDir.getD s.outputDir
      maxInlineDepth := o.maxInlineDepth.getD s.maxInlineDepth }

def readFile (h : Host m) (path : String) : Act m Bytes := do
  match ← h.read path with
  | .ok data => return data
  | .error f => complain h f.text .fileFailed

def readMachine (h : Host m) (path : String) : Act m Machine := do
  let data ← readFile h path
  match Listing.load (Source.ofBytes path ⟨data.toArray⟩) with
  | .ok machine => return machine
  | .error e =>
    match e.report with
    | .ok report => h.print report; throw .syntaxFailed
    | .error _ => throw .refused

def synthesize (h : Host m) (s : Settings) (machine : Machine) : Act m Image := do
  match Synth.synthesize machine 0 s.maxInlineDepth.toNat with
  | .ok done => return done.design.image
  | .error (.error e) => logged h e.message .failed
  | .error (.fault _) => throw .refused

def format (h : Host m) (o : Options) : Act m Format := do
  match Format.ofName? o.format with
  | none => complain h s!"unknown format \"{o.format}\"" .refused
  | some f =>
    if f = .binary && !(o.generate.isEmpty && o.passes.isEmpty) then
      complain h "the backend requires the sexp format" .refused
    else return f

def needBackend (h : Host m) (x : m (Except BackendError Unit)) : Act m Unit := do
  match ← x with
  | .ok () => return ()
  | .error e => logged h e.message .backendFailed

def synth (h : Host m) (o : Options) : Act m Unit := do
  let s ← settings h o
  let f ← format h o
  let image ← synthesize h s (← readMachine h o.file)
  let path := s.outputPath (if o.output = "" then f.outputName o.file else o.output)
  match ← h.write path (f.encode image) with
  | .error e => complain h e.text .fileFailed
  | .ok () =>
    let b : Backend := ⟨s.backend, s.searchPaths, s.marker⟩
    needBackend h (b.optimizeAll h path o.passes)
    needBackend h (b.generateAll h path (o.generate.map s.outputPath))

def inspect (h : Host m) (o : Options) : Act m Unit := do
  let s ← settings h o
  let image ← synthesize h s (← readMachine h o.file)
  h.print (Summary.render image.summary ++ "\n")
  h.print s!"{image.modules.length} modules, {image.channels.length} channels\n"

def dump (h : Host m) (file : String) : Act m Unit := do
  if Path.extension file = ".cbor" then
    match Image.ofBytes? (← readFile h file) with
    | none => complain h "iroha: unmarshal snapshot" .refused
    | some i =>
      match i.restore with
      | .ok d => h.print (String.ofList (decodeFrom d.text.toByteArray 0))
      | .error (.fault _) => throw .refused
      | .error e => complain h e.message .refused
  else h.print (← readMachine h file).dump

def usage : String :=
  "Usage:\n  karuta [command]\n\nCommands:\n" ++
  "  dump      print the contents of a bytecode listing or design snapshot\n" ++
  "  inspect   summarize the design synthesized from a bytecode listing\n" ++
  "  synth     synthesize a design from a bytecode listing\n"

def perform (h : Host m) (version : String) : Invocation → Act m Unit
  | .help => h.print usage
  | .unknownTopic => return ()
  | .version => h.print s!"karuta {version}\n"
  | .synth o => synth h o
  | .inspect o => inspect h o
  | .dump file => dump h file

/-- Does what a command line asks for. -/
def run (h : Host m) (version : String) (args : List String) : m Status := do
  match Invocation.ofArgs? args with
  | none => return .failed
  | some i =>
    match ← (perform h version i).run with
    | .ok () => return .ok
    | .error s => return s

end Command
end MachineSynth
