/-! Source texts: a name and the code points read from a file's bytes. -/
namespace MachineSynth

/-- The code points of a byte sequence from position `i` on. A byte that starts no well-formed
UTF-8 sequence stands for one replacement character. -/
def decodeFrom (bytes : ByteArray) (i : Nat) : List Char :=
  if i < bytes.size then
    match bytes.utf8DecodeChar? i with
    | some c => c :: decodeFrom bytes (i + c.utf8Size)
    | none => '\uFFFD' :: decodeFrom bytes (i + 1)
  else []
termination_by bytes.size - i
decreasing_by
  · have := c.utf8Size_pos
    omega
  · omega

/-- The text of a file, with the name it is reported under. -/
structure Source where
  name : String
  text : List Char
deriving DecidableEq, Repr, Inhabited

namespace Source

def ofBytes (name : String) (bytes : ByteArray) : Source := ⟨name, decodeFrom bytes 0⟩

def ofString (name text : String) : Source := ⟨name, text.toList⟩

/-- The number of code points; spans count these. -/
def length (s : Source) : Nat := s.text.length

end Source
end MachineSynth
