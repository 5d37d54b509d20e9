import MachineSynth.Cbor.Item
import MachineSynth.Files.Path

/-! Files and directories as a value, and the ways in which using them fails. Part of the program
alone: no result is about it. -/
namespace MachineSynth

inductive FileError
  | absent
  | notDirectory
  | isDirectory
  | taken
  | denied
  | tooLong
  | invalid
deriving DecidableEq, Repr, Inhabited

namespace FileError

def text : FileError → String
  | absent => "no such file or directory"
  | notDirectory => "not a directory"
  | isDirectory => "is a directory"
  | taken => "file exists"
  | denied => "permission denied"
  | tooLong => "file name too long"
  | invalid => "invalid argument"

end FileError

/-- What was tried, with which paths, and why it failed. -/
structure FileFailure where
  action : String
  paths : List String
  error : FileError
deriving DecidableEq, Repr

namespace FileFailure

def text (f : FileFailure) : String :=
  " ".intercalate (f.action :: f.paths) ++ ": " ++ f.error.text

end FileFailure

inductive Entry
  | directory
  | file (data : Bytes)
deriving DecidableEq, Repr

/-- Entries by the parts of their paths. The root is always a directory. -/
structure Store where
  entries : List (List String × Entry)
  /-- Where paths start that are not absolute. -/
  workDir : String
deriving Repr

namespace Store

def entry? (s : Store) (place : List String) : Option Entry :=
  if place = [] then some .directory else s.entries.lookup place

def set (s : Store) (place : List String) (e : Entry) : Store :=
  { s with entries := (place, e) :: s.entries.filter (·.1 ≠ place) }

def erase (s : Store) (place : List String) : Store :=
  { s with entries := s.entries.filter (·.1 ≠ place) }

def placeOf (p : String) : List String := (Path.parts p).filter (· ≠ "")

/-- Every place above the given one, and itself. -/
def ancestors (place : List String) : List (List String) :=
  (List.range place.length).map fun n => place.take (n + 1)

def makeDirectory (s : Store) (place : List String) : Store :=
  (ancestors place).foldl (fun s p => if (s.entry? p).isSome then s else s.set p .directory) s

def put (s : Store) (place : List String) (data : Bytes) : Store :=
  (s.makeDirectory place.dropLast).set place (.file data)

def step (s : Store) (place : List String) (part : String) : Except FileError (List String) :=
  match s.entry? place with
  | none => .error .absent
  | some (.file _) => .error .notDirectory
  | some .directory =>
    if part = "" || part = "." then .ok place
    else if part = ".." then .ok place.dropLast
    else if 255 < part.utf8ByteSize then .error .tooLong
    else .ok (place ++ [part])

/-- The place that parts lead to from where the path starts. -/
def walk (s : Store) (p : String) (parts : List String) : Except FileError (List String) :=
  parts.foldlM s.step (if Path.isAbsolute p then [] else placeOf s.workDir)

/-- What keeps a text from being a path: a zero in it, a length of 4096 bytes or more, or that it
is empty. -/
def check (p : String) : Except FileError Unit :=
  if p.toList.contains (Char.ofNat 0) then .error .invalid
  else if 4096 ≤ p.utf8ByteSize then .error .tooLong
  else if p = "" then .error .absent
  else .ok ()

/-- The place that a path leads to; there need not be anything. -/
def locate (s : Store) (p : String) : Except FileError (List String) := do
  check p
  s.walk p (Path.parts p)

def find (s : Store) (p : String) : Except FileError Entry := do
  match s.entry? (← s.locate p) with
  | some e => .ok e
  | none => .error .absent

def read (s : Store) (p : String) : Except FileFailure Bytes :=
  match s.find p with
  | .ok (.file data) => .ok data
  | .ok .directory => .error ⟨"read", [p], .isDirectory⟩
  | .error e => .error ⟨"open", [p], e⟩

/-- Where a file can be written. A path that ends in a slash is never a file. -/
def target (s : Store) (p : String) : Except FileError (List String) := do
  check p
  let place ←
    if (Path.parts p).getLast? = some "" then
      let _ ← s.walk p (Path.parts p).dropLast
      .error .isDirectory
    else s.locate p
  match s.entry? place with
  | some .directory => .error .isDirectory
  | _ => .ok place

def write (s : Store) (p : String) (data : Bytes) : Except FileFailure Store :=
  match s.target p with
  | .ok place => .ok (s.set place (.file data))
  | .error e => .error ⟨"open", [p], e⟩

/-- Gives an entry another path, where it takes the place of a file. -/
def rename (s : Store) (old new : String) : Except FileFailure Store :=
  let moved : Except FileError Store := do
    let source ← s.locate old
    let e ← s.find old
    let target ← s.locate new
    match e, s.entry? target with
    | _, some .directory => if source = target && old ≠ new then .ok s else .error .taken
    | .directory, some (.file _) => .error .notDirectory
    | .file data, _ => .ok ((s.erase source).set target (.file data))
    | .directory, none =>
      if source.isPrefixOf target then .error .invalid
      else .ok { s with entries := s.entries.map fun (p, x) =>
        (if source.isPrefixOf p then target ++ p.drop source.length else p, x) }
  match moved with
  | .ok s => .ok s
  | .error e => .error ⟨"rename", [old, new], e⟩

/-- A store with the given files and directories, whose paths start in the working directory. -/
def ofFiles (workDir : String) (dirs : List String) (files : List (String × Bytes)) : Store :=
  let place (p : String) := placeOf (Path.join workDir p)
  let s := (dirs.map place).foldl makeDirectory (makeDirectory ⟨[], workDir⟩ (placeOf workDir))
  files.foldl (fun s (p, data) => s.put (place p) data) s

/-- The files in the working directory and below, by their paths from there. -/
def files (s : Store) : List (String × Bytes) :=
  let top := placeOf s.workDir
  s.entries.filterMap fun (p, e) =>
    match e with
    | .file data =>
      if top.isPrefixOf p then some ("/".intercalate (p.drop top.length), data) else none
    | .directory => none

/-- The files that are new or not as they were, and those that are gone. -/
def changes (old new : Store) : List (String × Option Bytes) :=
  (new.files.filter fun (p, data) => old.files.lookup p ≠ some data).map
      (fun (p, data) => (p, some data)) ++
    (old.files.filter fun (p, _) => (new.files.lookup p).isNone).map fun (p, _) => (p, none)

end Store
end MachineSynth
