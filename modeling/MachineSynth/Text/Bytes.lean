/-! Bytes, and texts as bytes. -/
namespace MachineSynth

abbrev Bytes := List UInt8

/-- The bytes of some code points. -/
def utf8 (cs : List Char) : Bytes := cs.flatMap String.utf8EncodeChar

end MachineSynth
