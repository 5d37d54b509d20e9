import MachineSynth.Settings

/-! What a command needs of the machine it runs on. Part of the program alone: no result is about
it. -/
namespace MachineSynth

/-- Files, programs and output, in a monad of the caller's choice. -/
structure Host (m : Type → Type) where
  workDir : String
  read : String → m (Except FileFailure Bytes)
  /-- Whether there is a file or directory of that path. -/
  present : String → m Bool
  write : String → Bytes → m (Except FileFailure Unit)
  rename : String → String → m (Except FileFailure Unit)
  /-- Runs a program; the answer tells what went wrong. -/
  run : String → List String → m (Option String)
  print : String → m Unit
  /-- Reports an error in the log. -/
  log : String → m Unit

namespace Host

variable {m : Type → Type} [Monad m]

/-- The settings in a file; paths in them start in the given directory. -/
def settingsAt (h : Host m) (path dir : String) : m (Except SettingsError Settings) := do
  match ← h.read path with
  | .ok text => return Settings.parse h.workDir dir text
  | .error f => return .error (.unreadable path f)

def settingsIn (h : Host m) (dir : String) : m (Except SettingsError Settings) :=
  h.settingsAt (Path.join dir Settings.fileName) dir

def settingsFile (h : Host m) (path : String) : m (Except SettingsError Settings) :=
  h.settingsAt path (Path.dir path)

def firstSettings (h : Host m) : List String → m (Except SettingsError Settings)
  | [] => return .ok .default
  | d :: rest => do
    if ← h.present (Path.join d Settings.fileName) then h.settingsIn d else h.firstSettings rest

def nearestSettings (h : Host m) (start : String) : m (Except SettingsError Settings) :=
  h.firstSettings (Settings.candidates h.workDir start)

end Host
end MachineSynth
