import MachineSynth.Command.Host
import MachineSynth.Text.Quoted

/-! The backend: a program that turns a design file into hardware descriptions. Part of the program
alone: no result is about it. -/
namespace MachineSynth

structure Backend where
  program : String
  searchDirs : List String
  /-- Printed before the name of each generated file, unless empty. -/
  marker : String
deriving DecidableEq, Repr

inductive BackendError
  | notConfigured
  | failed (program cause : String)
  | file (failure : FileFailure)
deriving DecidableEq, Repr

namespace BackendError

def message : BackendError → String
  | notConfigured => "no backend configured"
  | failed program cause => s!"backend {program} failed: {cause}"
  | file f => f.text

end BackendError

namespace Backend

/-- Small letters for capital ones, as far as extensions need them. -/
def lower (c : Char) : Char := if c = 'İ' then 'i' else c.toLower

/-- The flag for what a file is to hold, by its extension; empty for a design. -/
def language (file : String) : String :=
  let ext := String.ofList ((Path.extension file).toList.map lower)
  if ext = ".html" || ext = ".htm" then "-h"
  else if ext = ".cc" || ext = ".cpp" then "-c"
  else if ext = ".iroha" then ""
  else "-v"

/-- Why a program does not run that is in no directory of programs. The root is one by itself. -/
def notFound (program : String) : String :=
  let why :=
    if program = "/" then FileError.isDirectory.text else "executable file not found in $PATH"
  s!"exec: {Quoted.encode program}: {why}"

def args (b : Backend) (design : String) (extra : List String) : List String :=
  "--iroha" :: b.searchDirs.flatMap (["-I", ·]) ++ design :: extra

variable {m : Type → Type} [Monad m]

def run (h : Host m) (b : Backend) (design : String) (extra : List String) :
    m (Except BackendError Unit) := do
  if b.program = "" then return .error .notConfigured
  match ← h.run b.program (b.args design extra) with
  | some cause => return .error (.failed b.program cause)
  | none => return .ok ()

def generate (h : Host m) (b : Backend) (design out : String) : m (Except BackendError Unit) := do
  let flags := if language out = "" then [] else [language out]
  match ← b.run h design (flags ++ ["-s", "-o", out]) with
  | .error e => return .error e
  | .ok () =>
    if b.marker ≠ "" then h.print s!"{b.marker}{out}\n"
    return .ok ()

/-- Has the backend change a design file in one pass. -/
def optimize (h : Host m) (b : Backend) (design pass : String) : m (Except BackendError Unit) := do
  let scratch := design ++ "~"
  match ← b.run h design ["-opt", pass, "-o", scratch] with
  | .error e => return .error e
  | .ok () =>
    match ← h.rename scratch design with
    | .error f => return .error (.file f)
    | .ok () => return .ok ()

/-- Does something for each element until it fails. -/
def each {α : Type} (f : α → m (Except BackendError Unit)) : List α → m (Except BackendError Unit)
  | [] => return .ok ()
  | x :: rest => do
    match ← f x with
    | .error e => return .error e
    | .ok () => each f rest

/-- Runs passes one after the other. -/
def optimizeAll (h : Host m) (b : Backend) (design : String) (passes : List String) :
    m (Except BackendError Unit) :=
  each (b.optimize h design) passes

/-- Generates files one after the other. -/
def generateAll (h : Host m) (b : Backend) (design : String) (outs : List String) :
    m (Except BackendError Unit) :=
  each (b.generate h design) outs

end Backend
end MachineSynth
