/-! Bit sets: finite sets of naturals, kept as words of 64 bits. -/
namespace MachineSynth

/-- Element `64 * w + b` is in the set if bit `b` of word `w` is one. -/
structure BitSet where
  words : List (BitVec 64)
deriving DecidableEq, Repr

namespace BitSet

def empty : BitSet := ⟨[]⟩

instance : Inhabited BitSet := ⟨empty⟩

def word (s : BitSet) (w : Nat) : BitVec 64 := s.words.getD w 0

def contains (s : BitSet) (v : Nat) : Bool := (s.word (v / 64)).getLsbD (v % 64)

/-- Sets a bit of word `w`, appending zero words until there is one. -/
def setBit (b : Nat) : Nat → List (BitVec 64) → List (BitVec 64)
  | 0, [] => [BitVec.twoPow 64 b]
  | w + 1, [] => 0 :: setBit b w []
  | 0, x :: xs => (x ||| BitVec.twoPow 64 b) :: xs
  | w + 1, x :: xs => x :: setBit b w xs

def clearBit (b : Nat) : Nat → List (BitVec 64) → List (BitVec 64)
  | _, [] => []
  | 0, x :: xs => (x &&& ~~~ BitVec.twoPow 64 b) :: xs
  | w + 1, x :: xs => x :: clearBit b w xs

def insert (s : BitSet) (v : Nat) : BitSet := ⟨setBit (v % 64) (v / 64) s.words⟩

def insertAll (s : BitSet) (vs : List Nat) : BitSet := vs.foldl insert s

def erase (s : BitSet) (v : Nat) : BitSet := ⟨clearBit (v % 64) (v / 64) s.words⟩

def unionWords : List (BitVec 64) → List (BitVec 64) → List (BitVec 64)
  | [], ys => ys
  | xs, [] => xs
  | x :: xs, y :: ys => (x ||| y) :: unionWords xs ys

def union (s t : BitSet) : BitSet := ⟨unionWords s.words t.words⟩

/-- Whether a value was absent before it was inserted. -/
def grows (s : BitSet) (v : Nat) : Bool := (s.insert v).word (v / 64) != s.word (v / 64)

def anyGrowth : List (BitVec 64) → List (BitVec 64) → Bool
  | _, [] => false
  | [], y :: ys => y != 0 || anyGrowth [] ys
  | x :: xs, y :: ys => (x ||| y) != x || anyGrowth xs ys

/-- Whether a union with `t` adds an element. -/
def growsBy (s t : BitSet) : Bool := anyGrowth s.words t.words

def ones (x : BitVec 64) : List Nat := (List.range 64).filter x.getLsbD

def onesFrom (base : Nat) : List (BitVec 64) → List Nat
  | [] => []
  | x :: xs => (ones x).map (base + ·) ++ onesFrom (base + 64) xs

def toList (s : BitSet) : List Nat := onesFrom 0 s.words

theorem toNat_clearLowest_lt {x : BitVec 64} (h : x ≠ 0) : (x &&& (x - 1)).toNat < x.toNat := by
  have hpos : x.toNat ≠ 0 := fun h0 => h (BitVec.eq_of_toNat_eq h0)
  have hle : (1 : BitVec 64) ≤ x := BitVec.le_def.mpr (Nat.one_le_iff_ne_zero.mpr hpos)
  have hsub : (x - 1).toNat = x.toNat - 1 := BitVec.toNat_sub_of_le hle
  have hand : (x &&& (x - 1)).toNat ≤ (x - 1).toNat := by
    rw [BitVec.toNat_and]
    exact Nat.and_le_right
  omega

/-- Shows the elements of words to `f`, the lowest first, until `f` is done; those of the first word
start at `base`. The lowest one of a word is cleared once it has been shown. -/
def visit {m : Type → Type} [Monad m] {β : Type} (f : Nat → β → m (ForInStep β)) (base : Nat) :
    List (BitVec 64) → β → m β
  | [], b => pure b
  | x :: xs, b =>
    if h : x = 0 then visit f (base + 64) xs b
    else do
      match ← f (base + x.ctz.toNat) b with
      | .done b => return b
      | .yield b => visit f base ((x &&& (x - 1)) :: xs) b
termination_by words => (words.length, (words.headD 0).toNat)
decreasing_by
  · exact Prod.Lex.left _ _ (Nat.lt_succ_self _)
  · exact Prod.Lex.right _ (toNat_clearLowest_lt h)

instance {m : Type → Type} [Monad m] : ForIn m BitSet Nat := ⟨fun s b f => visit f 0 s.words b⟩

def first (s : BitSet) (n : Nat) : List Nat := Id.run do
  let mut vs := []
  for v in s do
    if vs.length = n then break
    vs := vs ++ [v]
  return vs

/-- The number of elements, word by word. -/
def count (s : BitSet) : Nat :=
  (s.words.map fun x => (List.range 64).countP x.getLsbD).foldr (· + ·) 0

def text (s : BitSet) : String := "[" ++ ", ".intercalate (s.toList.map toString) ++ "]"

end BitSet
end MachineSynth
