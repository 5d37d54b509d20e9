/-! Sets of code points, written as ranges with both ends in them. Part of the program alone: no
result is about it. -/
namespace MachineSynth

abbrev Ranges := List (Nat × Nat)

namespace Ranges

def contains (rs : Ranges) (n : Nat) : Bool := rs.any fun r => r.1 ≤ n && n ≤ r.2

end Ranges
end MachineSynth
