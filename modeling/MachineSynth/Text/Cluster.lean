import MachineSynth.Text.BreakClass

/-! Clusters: the runs of code points that a reader sees as one character. Part of the program
alone: no result is about it. -/
namespace MachineSynth

/-- What the text read so far ends in, as far as it matters for the next character. -/
inductive ClusterEnd
  | other
  | carriageReturn
  | control
  | prepended
  | lead
  | vowel
  | trail
  /-- A picture, perhaps with marks. -/
  | picture
  /-- The same and a joiner. -/
  | joinedPicture
  /-- The first half of a flag. -/
  | halfFlag
deriving DecidableEq, Repr

namespace ClusterEnd

/-- Whether a character belongs to the cluster before it. -/
def joins : ClusterEnd → BreakClass → Bool
  | .carriageReturn, c => c = .lineFeed
  | .control, _ => false
  | _, .carriageReturn => false
  | _, .lineFeed => false
  | _, .control => false
  | _, .extend => true
  | _, .joiner => true
  | _, .spacing => true
  | .prepended, _ => true
  | .lead, c => c = .lead || c = .vowel || c = .openSyllable || c = .closedSyllable
  | .vowel, c => c = .vowel || c = .trail
  | .trail, c => c = .trail
  | .joinedPicture, c => c = .picture
  | .halfFlag, c => c = .regional
  | _, _ => false

/-- What the text ends in after one more character. -/
def next (e : ClusterEnd) : BreakClass → ClusterEnd
  | .carriageReturn => .carriageReturn
  | .lineFeed => .control
  | .control => .control
  | .extend => if e = .picture then .picture else .other
  | .joiner => if e = .picture then .joinedPicture else .other
  | .prepended => .prepended
  | .regional => if e = .halfFlag then .other else .halfFlag
  | .picture => .picture
  | .lead => .lead
  | .vowel => .vowel
  | .openSyllable => .vowel
  | .trail => .trail
  | .closedSyllable => .trail
  | .spacing => .other
  | .other => .other

end ClusterEnd

def cutClusters : ClusterEnd → List Char → List Char × List (List Char)
  | _, [] => ([], [])
  | e, c :: rest =>
    let k := BreakClass.ofChar c
    let (more, others) := cutClusters (e.next k) rest
    if e.joins k then (c :: more, others) else ([], (c :: more) :: others)

def clusters (cs : List Char) : List (List Char) :=
  let (first, others) := cutClusters .other cs
  if first = [] then others else first :: others

end MachineSynth
