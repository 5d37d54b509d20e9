/-! Paths: texts whose parts are separated by slashes. All but `absolute` look at the text only.
Part of the program alone: no result is about it. -/
namespace MachineSynth
namespace Path

/-- The parts between slashes, empty ones included. -/
def parts (p : String) : List String := p.splitOn "/"

def isAbsolute (p : String) : Bool := p.toList.head? = some '/'

/-- Adds a part to cleaned parts, the last of which comes first. A step up takes one away; with
none left it stays, unless the path is absolute. -/
def push (rooted : Bool) (stack : List String) (part : String) : List String :=
  if part = "" || part = "." then stack
  else if part = ".." then
    match stack with
    | [] => if rooted then [] else [".."]
    | top :: rest => if top = ".." then ".." :: top :: rest else rest
  else part :: stack

/-- The shortest path of the same meaning; a path of nothing is a dot. -/
def clean (p : String) : String :=
  let rooted := isAbsolute p
  let kept := "/".intercalate ((parts p).foldl (push rooted) []).reverse
  if rooted then "/" ++ kept else if kept = "" then "." else kept

/-- A path below another one. -/
def join (dir p : String) : String :=
  if dir = "" then (if p = "" then "" else clean p) else clean (dir ++ "/" ++ p)

def base (p : String) : String :=
  if p = "" then "."
  else ((parts p).filter (· ≠ "")).getLast?.getD "/"

def dir (p : String) : String := clean ("/".intercalate ((parts p).dropLast ++ [""]))

/-- The last part from its last dot on; empty if it has none. -/
def extension (p : String) : String :=
  let last := ((parts p).getLast?.getD "").toList.reverse
  if last.contains '.' then String.ofList ('.' :: (last.takeWhile (· ≠ '.')).reverse) else ""

def stem (p : String) : String :=
  String.ofList (p.toList.take (p.length - (extension p).length))

/-- The path from the root, for one that starts in a directory. -/
def absolute (workDir p : String) : String := if isAbsolute p then clean p else join workDir p

end Path
end MachineSynth
