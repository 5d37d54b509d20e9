import MachineSynth.Command.Run

/-! The program: commands on the files of this machine. Part of the program alone: no result is
about it. -/
namespace MachineSynth

def FileError.ofSystem (e : IO.Error) : FileError :=
  match e with
  | .noFileOrDirectory .. => .absent
  | .permissionDenied .. => .denied
  | .inappropriateType .. => .isDirectory
  | .alreadyExists .. => .taken
  | .invalidArgument .. => .invalid
  | _ => .notDirectory

def attempt {α : Type} (action : String) (paths : List String) (x : IO α) :
    IO (Except FileFailure α) := do
  match ← x.toBaseIO with
  | .ok a => return .ok a
  | .error e => return .error ⟨action, paths, .ofSystem e⟩

/-- The machine itself. It starts no other programs. -/
def systemHost (workDir : String) : Host IO where
  workDir := workDir
  read p := attempt "open" [p] do return (← IO.FS.readBinFile p).data.toList
  present p := do
    match ← (IO.FS.readBinFile p).toBaseIO with
    | .ok _ => return true
    | .error e => return FileError.ofSystem e ≠ .absent
  write p data := attempt "open" [p] (IO.FS.writeBinFile p ⟨data.toArray⟩)
  rename old new := attempt "rename" [old, new] (IO.FS.rename old new)
  run program _ := return some (Backend.notFound program)
  print s := IO.print s
  log s := IO.eprintln s

end MachineSynth

open MachineSynth in
def main (args : List String) : IO UInt32 := do
  let workDir := (← IO.currentDir).toString
  let status ← Command.run (systemHost workDir) "1.0" args
  return status.code.toUInt32
