import MachineSynth.Command.Backend

/-! A machine as a value: commands run on it leave behind what they did. Part of the program alone:
no result is about it. -/
namespace MachineSynth

/-- What a program does when it is run: it prints, then fails or writes the file that its last
argument names. -/
structure Script where
  prints : String
  fails : Option String
  writes : Option Bytes
deriving DecidableEq, Repr

structure World where
  store : Store
  output : String
  /-- Errors in the log. -/
  errors : List String
  /-- Programs that were run, with their arguments. -/
  calls : List (List String)

namespace World

def start (store : Store) : World := ⟨store, "", [], []⟩

def say (w : World) (s : String) : World := { w with output := w.output ++ s }

def change (w : World) (f : Store → Except FileFailure Store) : Except FileFailure Unit × World :=
  match f w.store with
  | .ok s => (.ok (), { w with store := s })
  | .error e => (.error e, w)

def follow (s : Script) (program : String) (args : List String) (w : World) :
    Option String × World :=
  let w := { w.say s.prints with calls := w.calls ++ [program :: args] }
  match s.fails, s.writes with
  | some cause, _ => (some cause, w)
  | none, none => (none, w)
  | none, some data =>
    match w.change (·.write (args.getLast?.getD "") data) with
    | (.ok (), w) => (none, w)
    | (.error f, w) => (some f.text, w)

/-- A machine on which programs follow scripts. -/
def host (workDir : String) (script : Store → String → List String → Script) : Host (StateM World)
    where
  workDir := workDir
  read p := return (← get).store.read p
  present p := return ((← get).store.find p).isOk
  write p data := modifyGet (·.change (·.write p data))
  rename old new := modifyGet (·.change (·.rename old new))
  run program args := modifyGet fun w => w.follow (script w.store program args) program args
  print s := modify (·.say s)
  log s := modify fun w => { w with errors := w.errors ++ [s] }

def plainPrograms : List (String × (List String → Script)) :=
  [("echo", fun args => ⟨" ".intercalate args ++ "\n", none, none⟩),
   ("true", fun _ => ⟨"", none, none⟩),
   ("false", fun _ => ⟨"", some "exit status 1", none⟩)]

/-- Where a plain machine has its programs; a name without a slash means one of the first. -/
def programDirs : List (List String) := [["usr", "bin"], ["bin"]]

/-- The programs of a plain machine by their places. -/
def installed : List (List String × (List String → Script)) :=
  programDirs.flatMap fun dir => plainPrograms.map fun (name, f) => (dir ++ [name], f)

/-- The directories that every plain machine has. -/
def systemDirs : List String :=
  ["bin", "boot", "dev", "etc", "home", "lib", "media", "mnt", "opt", "proc", "root", "run", "sbin",
   "srv", "sys", "tmp", "usr", "var"]

/-- Adds what every plain machine has: directories, programs and an empty file. -/
def plainStore (store : Store) : Store :=
  let s := systemDirs.foldl (fun s d => s.makeDirectory [d]) store
  let s := installed.foldl (fun s (place, _) => s.put place []) s
  s.put ["dev", "null"] []

/-- The program at a path. Other files are not executable, and no argument has a zero in it. -/
def programAt (store : Store) (path : String) (args : List String) : Except FileError Script := do
  if args.any (·.toList.contains (Char.ofNat 0)) then throw .invalid
  let place ← store.locate path
  match installed.lookup place, store.entry? place with
  | some f, _ => return f args
  | none, some _ => throw .denied
  | none, none => throw .absent

def plain (store : Store) (program : String) (args : List String) : Script :=
  let start (path : String) : Script :=
    match programAt store path args with
    | .ok s => s
    | .error e => ⟨"", some s!"fork/exec {path}: {e.text}", none⟩
  if Path.base program ≠ program then start program
  else if (plainPrograms.lookup program).isSome then start ("/usr/bin/" ++ program)
  else ⟨"", some (Backend.notFound program), none⟩

end World
end MachineSynth
