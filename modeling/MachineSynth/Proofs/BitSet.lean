import Mathlib
import MachineSynth.BitSet

/-! Bit sets as sets: what inserting an element does, and what the list of elements holds. -/
namespace MachineSynth
namespace BitSet

theorem getD_setBit (b w w' : Nat) (words : List (BitVec 64)) :
    (setBit b w words).getD w' 0 =
      if w' = w then words.getD w 0 ||| BitVec.twoPow 64 b else words.getD w' 0 := by
  fun_induction setBit b w words generalizing w' <;> cases w' <;> simp_all

theorem contains_insert (s : BitSet) (v v' : Nat) :
    (s.insert v).contains v' = (decide (v' = v) || s.contains v') := by
  have hlt : v % 64 < 64 := Nat.mod_lt _ (by decide)
  simp only [contains, word, insert, getD_setBit]
  split
  · rename_i hw
    have hiff : (v % 64 = v' % 64) ↔ v' = v := by omega
    rw [BitVec.getLsbD_or, BitVec.getLsbD_twoPow, hw]
    simp [hlt, hiff, Bool.or_comm]
  · rename_i hw
    have hne : v' ≠ v := by
      rintro rfl
      exact hw rfl
    simp [hne]

theorem mem_ones {x : BitVec 64} {b : Nat} : b ∈ ones x ↔ x.getLsbD b = true := by
  simp only [ones, List.mem_filter, List.mem_range, and_iff_right_iff_imp]
  exact BitVec.lt_of_getLsbD

theorem mem_onesFrom {words : List (BitVec 64)} {base v : Nat} :
    v ∈ onesFrom base words ↔
      base ≤ v ∧ (words.getD ((v - base) / 64) 0).getLsbD ((v - base) % 64) = true := by
  induction words generalizing base with
  | nil => simp [onesFrom]
  | cons x xs ih =>
    simp only [onesFrom, List.mem_append, List.mem_map, mem_ones, ih]
    constructor
    · rintro (⟨b, hb, rfl⟩ | ⟨hle, hbit⟩)
      · have hlt := BitVec.lt_of_getLsbD hb
        refine ⟨by omega, ?_⟩
        rwa [Nat.add_sub_cancel_left, Nat.div_eq_of_lt hlt, List.getD_cons_zero,
          Nat.mod_eq_of_lt hlt]
      · have hdiv : (v - base) / 64 = (v - (base + 64)) / 64 + 1 := by omega
        have hmod : (v - base) % 64 = (v - (base + 64)) % 64 := by omega
        refine ⟨by omega, ?_⟩
        rwa [hdiv, List.getD_cons_succ, hmod]
    · rintro ⟨hle, hbit⟩
      by_cases hlt : v - base < 64
      · refine .inl ⟨v - base, ?_, by omega⟩
        rwa [Nat.div_eq_of_lt hlt, List.getD_cons_zero, Nat.mod_eq_of_lt hlt] at hbit
      · have hdiv : (v - base) / 64 = (v - (base + 64)) / 64 + 1 := by omega
        have hmod : (v - base) % 64 = (v - (base + 64)) % 64 := by omega
        rw [hdiv, hmod, List.getD_cons_succ] at hbit
        exact .inr ⟨by omega, hbit⟩

theorem sorted_ones (x : BitVec 64) : (ones x).Pairwise (· < ·) :=
  List.Pairwise.filter _ List.pairwise_lt_range

theorem sorted_onesFrom (base : Nat) (words : List (BitVec 64)) :
    (onesFrom base words).Pairwise (· < ·) := by
  induction words generalizing base with
  | nil => exact .nil
  | cons x xs ih =>
    refine List.pairwise_append.mpr ⟨?_, ih (base + 64), fun a ha b hb => ?_⟩
    · exact (sorted_ones x).map _ fun _ _ h => Nat.add_lt_add_left h base
    · obtain ⟨i, hi, rfl⟩ := List.mem_map.mp ha
      have hlt : i < 64 := BitVec.lt_of_getLsbD (mem_ones.mp hi)
      have hle : base + 64 ≤ b := (mem_onesFrom.mp hb).1
      omega

theorem mem_toList {s : BitSet} {v : Nat} : v ∈ s.toList ↔ s.contains v = true := by
  rw [toList, mem_onesFrom]
  simp [contains, word]

theorem sorted_toList (s : BitSet) : s.toList.Pairwise (· < ·) := sorted_onesFrom 0 s.words

end BitSet
end MachineSynth
