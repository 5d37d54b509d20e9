import MachineSynth.Files.Store
import MachineSynth.Toml.Document
import MachineSynth.Toml.Reader

/-! Settings of the synthesizer, of the program that it hands designs to, and of where generated
files go. Part of the program alone: no result is about it. -/
namespace MachineSynth

structure Settings where
  /-- The program that designs are handed to. -/
  backend : String
  /-- Directories in which that program looks for modules. -/
  searchDirs : List String
  outputDir : String
  /-- Printed before the name of each generated file. -/
  marker : String
  maxInlineDepth : UInt64
  /-- The directory of the settings file; other paths start there. -/
  dir : String
deriving DecidableEq, Repr, Inhabited

inductive SettingsError
  | unreadable (path : String) (failure : FileFailure)
  | malformed (dir : String)
  | unknownKey (key : Toml.Key) (dir : String)
deriving DecidableEq, Repr

namespace Settings

def fileName : String := "karuta.toml"

end Settings

namespace SettingsError

def message : SettingsError → String
  | unreadable path f => s!"cannot read {path}: {f.text}"
  | malformed dir => s!"parse error in {Path.join dir Settings.fileName}"
  | unknownKey key dir => s!"unknown key {key.text} in {Path.join dir Settings.fileName}"

end SettingsError

namespace Settings

/-- The settings that nothing is said about. -/
def blank : Settings := ⟨"", [], "", "", 0, ""⟩

/-- Settings with the usual program and depth where none are given. -/
def withDefaults (s : Settings) : Settings :=
  { s with
    backend := if s.backend = "" then "iroha" else s.backend
    maxInlineDepth := if s.maxInlineDepth = 0 then 32 else s.maxInlineDepth }

def default : Settings := blank.withDefaults

/-- The small letter for a letter of a name. Two letters outside ASCII have a small letter in it:
the sign for kelvin and the long s. -/
def fold (c : Char) : Char :=
  if c = '\u212a' then 'k' else if c = '\u017f' then 's' else c.toLower

/-- Whether two names differ at most in case. -/
def sameName (a b : String) : Bool := a.toList.map fold = b.toList.map fold

def stringOf : Toml.Node → Option String
  | .string s => some s
  | _ => none

def asStrings (n : Toml.Node) (f : List String → Settings) : Option Settings :=
  match n with
  | .array items => (items.mapM stringOf).map f
  | _ => none

def asNumber (n : Toml.Node) (f : UInt64 → Settings) : Option Settings :=
  match n with
  | .integer i => some (f i.toUInt64)
  | _ => none

/-- How a key sets something; none for an unknown key. -/
abbrev Setter := Settings → Toml.Node → Option Settings

def sections : List (String × List (String × Setter)) :=
  [("backend",
      [("path", fun s n => (stringOf n).map fun v => { s with backend := v }),
       ("search-dirs", fun s n => asStrings n fun v => { s with searchDirs := v })]),
   ("output",
      [("dir", fun s n => (stringOf n).map fun v => { s with outputDir := v }),
       ("marker", fun s n => (stringOf n).map fun v => { s with marker := v })]),
   ("synth", [("max-inline-depth", fun s n => asNumber n fun v => { s with maxInlineDepth := v })])]

/-- What has a name: exactly that one, or else one that differs in case. -/
def named {α : Type} (xs : List (String × α)) (name : String) : Option α :=
  match xs.lookup name with
  | some x => some x
  | none => (xs.find? (sameName ·.1 name)).map (·.2)

def takeSection (section_ : String) (keys : List (String × Setter)) :
    List Toml.Key → Toml.Entries → Settings → Option (List Toml.Key × Settings)
  | known, [], s => some (known, s)
  | known, (name, n) :: rest, s =>
    match named keys name with
    | none => takeSection section_ keys known rest s
    | some set => do takeSection section_ keys ([section_, name] :: known) rest (← set s n)

def takeAll : List Toml.Key → Toml.Entries → Settings → Option (List Toml.Key × Settings)
  | known, [], s => some (known, s)
  | known, (name, n) :: rest, s =>
    match named sections name, n with
    | none, _ => takeAll known rest s
    | some keys, .table es => do
      let (known, s) ← takeSection name keys ([name] :: known) es s
      takeAll known rest s
    | some _, _ => none

/-- The settings in a text that lies in a directory. -/
def parse (workDir dir : String) (text : Bytes) : Except SettingsError Settings :=
  match (Toml.read? text).bind Toml.Document.ofStatements? with
  | none => .error (.malformed dir)
  | some d =>
    match takeAll [] d.entries blank with
    | none => .error (.malformed dir)
    | some (known, s) =>
      match d.keys.find? (!known.contains ·) with
      | some k => .error (.unknownKey k dir)
      | none => .ok { s with dir := Path.absolute workDir dir }.withDefaults

/-- A path that starts in the directory of the settings. -/
def resolve (s : Settings) (p : String) : String :=
  if Path.isAbsolute p || s.dir = "" then p else Path.join s.dir p

def searchPaths (s : Settings) : List String := s.searchDirs.map s.resolve

/-- Where a generated file goes. -/
def outputPath (s : Settings) (name : String) : String :=
  if Path.isAbsolute name || s.outputDir = "" then name
  else Path.join (s.resolve s.outputDir) name

/-- The directories from an absolute path up to the root. -/
def upward : Nat → String → List String
  | 0, _ => []
  | fuel + 1, d => if Path.dir d = d then [d] else d :: upward fuel (Path.dir d)

/-- The places where settings are looked for, from a directory up. -/
def candidates (workDir start : String) : List String :=
  let d := Path.absolute workDir start
  upward (d.length + 1) d

end Settings
end MachineSynth
