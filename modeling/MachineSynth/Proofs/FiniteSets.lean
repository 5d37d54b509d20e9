import Mathlib
import MachineSynth.Proofs.BitSet

/-! Finite sets: what a bit set answers is what the finite set of its elements answers, and
operations on sets with names keep it so. -/
namespace MachineSynth
namespace BitSet

section Words

variable {x : BitVec 64}

theorem getLsbD_twoPow_sub_one {n : Nat} (h : n < 64) (i : Nat) :
    (BitVec.twoPow 64 n - 1).getLsbD i = decide (i < n) := by
  have hone : (1 : BitVec 64) ≤ BitVec.twoPow 64 n := by
    rw [BitVec.le_def, BitVec.toNat_twoPow_of_lt h]
    exact Nat.one_le_two_pow
  rw [← BitVec.testBit_toNat, BitVec.toNat_sub_of_le hone, BitVec.toNat_twoPow_of_lt h]
  exact Nat.testBit_two_pow_sub_one _ _

/-- One less than a word: its lowest one goes, and ones come below it. -/
theorem sub_one_eq (h : x ≠ 0) :
    x - 1 = (x &&& ~~~ BitVec.twoPow 64 x.ctz.toNat) ||| (BitVec.twoPow 64 x.ctz.toNat - 1) := by
  have hlowest : x.getLsbD x.ctz.toNat = true := BitVec.getLsbD_true_ctz_of_ne_zero h
  have hlt : x.ctz.toNat < 64 := BitVec.lt_of_getLsbD hlowest
  have hbelow : ∀ i, i < x.ctz.toNat → x.getLsbD i = false :=
    fun i hi => BitVec.getLsbD_false_of_lt_ctz hi
  generalize x.ctz.toNat = n at *
  have hsplit : x = (x &&& ~~~ BitVec.twoPow 64 n) + BitVec.twoPow 64 n := by
    rw [BitVec.add_eq_or_of_and_eq_zero _ _ (by rw [BitVec.and_assoc]; simp)]
    refine BitVec.eq_of_getLsbD_eq fun i hi => ?_
    by_cases hin : i = n
    · subst hin
      rw [hlowest, BitVec.getLsbD_or, BitVec.getLsbD_twoPow]
      simp [hlt]
    · simp [hi, hin]
  have hdisjoint : (x &&& ~~~ BitVec.twoPow 64 n) &&& (BitVec.twoPow 64 n - 1) = 0#64 := by
    refine BitVec.eq_of_getLsbD_eq fun i hi => ?_
    by_cases hin : i < n
    · simp [hbelow i hin]
    · simp only [BitVec.getLsbD_and, getLsbD_twoPow_sub_one hlt, hin, decide_false,
        Bool.and_false, BitVec.getLsbD_zero]
  calc x - 1 = (x &&& ~~~ BitVec.twoPow 64 n) + BitVec.twoPow 64 n - 1 := by rw [← hsplit]
    _ = (x &&& ~~~ BitVec.twoPow 64 n) + (BitVec.twoPow 64 n - 1) := add_sub_assoc _ _ _
    _ = _ := BitVec.add_eq_or_of_and_eq_zero _ _ hdisjoint

theorem getLsbD_clearLowest (h : x ≠ 0) (i : Nat) :
    (x &&& (x - 1)).getLsbD i = (x.getLsbD i && decide (i ≠ x.ctz.toNat)) := by
  have hlt : x.ctz.toNat < 64 :=
    BitVec.lt_of_getLsbD (BitVec.getLsbD_true_ctz_of_ne_zero h)
  rw [sub_one_eq h, BitVec.getLsbD_and, BitVec.getLsbD_or, BitVec.getLsbD_and,
    getLsbD_twoPow_sub_one hlt]
  by_cases hi : i < 64
  · rcases Nat.lt_trichotomy i x.ctz.toNat with hlow | heq | hhigh
    · simp [BitVec.getLsbD_false_of_lt_ctz hlow]
    · simp [heq, hlt]
    · have hne : ¬ i = x.ctz.toNat := by omega
      have hnot : ¬ i < x.ctz.toNat := by omega
      simp [hi, hne, hnot]
  · simp [BitVec.getLsbD_of_ge x i (by omega)]

theorem ones_eq_cons (h : x ≠ 0) : ones x = x.ctz.toNat :: ones (x &&& (x - 1)) := by
  have hmem : ∀ i, i ∈ ones (x &&& (x - 1)) ↔ i ∈ ones x ∧ i ≠ x.ctz.toNat := by
    intro i
    rw [mem_ones, mem_ones, getLsbD_clearLowest h, Bool.and_eq_true, decide_eq_true_eq]
  have hlowest : x.ctz.toNat ∈ ones x := mem_ones.mpr (BitVec.getLsbD_true_ctz_of_ne_zero h)
  have hsorted : (x.ctz.toNat :: ones (x &&& (x - 1))).Pairwise (· < ·) := by
    refine List.pairwise_cons.mpr ⟨fun i hi => ?_, sorted_ones _⟩
    obtain ⟨hi, hne⟩ := (hmem i).mp hi
    refine lt_of_le_of_ne (not_lt.mp fun hlt => ?_) hne.symm
    rw [mem_ones, BitVec.getLsbD_false_of_lt_ctz hlt] at hi
    cases hi
  refine List.Perm.eq_of_pairwise (fun a b _ _ hab hba => absurd hab hba.asymm) (sorted_ones x)
    hsorted ((List.perm_ext_iff_of_nodup (sorted_ones x).nodup hsorted.nodup).mpr fun i => ?_)
  rw [List.mem_cons, hmem]
  by_cases hi : i = x.ctz.toNat
  · simp [hi, hlowest]
  · simp [hi]

theorem ones_zero : ones 0 = [] := by
  refine List.eq_nil_iff_forall_not_mem.mpr fun i hi => ?_
  simp [mem_ones] at hi

end Words

section Visits

variable {m : Type → Type} [Monad m] {β : Type} {f : Nat → β → m (ForInStep β)}

theorem visit_eq (base : Nat) (words : List (BitVec 64)) (b : β) :
    visit f base words b = forIn (onesFrom base words) b f := by
  induction words generalizing base b with
  | nil => rw [visit, onesFrom, List.forIn_nil]
  | cons x xs ih =>
    -- the ones of the first word are shown one after the other
    induction h : ones x generalizing x b with
    | nil =>
      have hx : x = 0 := by
        by_contra hx
        rw [ones_eq_cons hx] at h
        cases h
      rw [visit, dif_pos hx, onesFrom, h, List.map_nil, List.nil_append, ih]
    | cons i rest ihx =>
      have hx : x ≠ 0 := by
        rintro rfl
        rw [ones_zero] at h
        cases h
      obtain ⟨hi, hrest⟩ := List.cons.inj ((ones_eq_cons hx).symm.trans h)
      have hones : onesFrom base (x :: xs) =
          (base + i) :: onesFrom base ((x &&& (x - 1)) :: xs) := by
        simp only [onesFrom, h, hrest, List.map_cons, List.cons_append]
      rw [visit, dif_neg hx, hones, List.forIn_cons, hi]
      refine bind_congr fun step => ?_
      cases step with
      | done b => rfl
      | yield b => exact ihx _ b hrest

/-- A loop over a set is a loop over the list of its elements. -/
theorem forIn_eq_forIn_toList (s : BitSet) (b : β) : forIn s b f = forIn s.toList b f :=
  visit_eq 0 s.words b

end Visits

theorem forIn_collect {n : Nat} (vs ws : List Nat) (h : ws.length ≤ n) :
    Id.run (forIn vs ws fun v ws =>
      if ws.length = n then pure (.done ws) else pure (.yield (ws ++ [v]))) =
      ws ++ vs.take (n - ws.length) := by
  induction vs generalizing ws with
  | nil => simp
  | cons v vs ih =>
    by_cases hfull : ws.length = n
    · simp [hfull]
    · obtain ⟨k, hk⟩ : ∃ k, n - ws.length = k + 1 := ⟨n - ws.length - 1, by omega⟩
      have hlength : (ws ++ [v]).length = ws.length + 1 := by simp
      have hrest : n - (ws ++ [v]).length = k := by omega
      have hnext := ih (ws ++ [v]) (by omega)
      rw [hrest] at hnext
      simp only [List.forIn_cons, hfull, if_false, pure_bind, hnext, hk, List.take_succ_cons,
        List.append_assoc, List.singleton_append]

/-- The loop over a set that stops early has seen the first elements. -/
theorem first_eq_take (s : BitSet) (n : Nat) : s.first n = s.toList.take n := by
  have hfirst := forIn_collect s.toList [] (Nat.zero_le n)
  rw [← forIn_eq_forIn_toList] at hfirst
  exact hfirst

section Membership

variable {s t : BitSet} {v w : Nat}

theorem getD_clearBit (b w w' : Nat) (words : List (BitVec 64)) :
    (clearBit b w words).getD w' 0 =
      if w' = w then words.getD w 0 &&& ~~~ BitVec.twoPow 64 b else words.getD w' 0 := by
  fun_induction clearBit b w words generalizing w' with
  | case1 => simp
  | case2 x xs => cases w' <;> simp
  | case3 w x xs ih =>
    cases w' with
    | zero => simp
    | succ w' => simpa using ih w'

theorem getD_unionWords (xs ys : List (BitVec 64)) (w : Nat) :
    (unionWords xs ys).getD w 0 = xs.getD w 0 ||| ys.getD w 0 := by
  fun_induction unionWords xs ys generalizing w <;> cases w <;> simp_all

theorem contains_insertAll (s : BitSet) (vs : List Nat) (v : Nat) :
    (s.insertAll vs).contains v = (decide (v ∈ vs) || s.contains v) := by
  induction vs generalizing s with
  | nil => simp [insertAll]
  | cons w vs ih =>
    have hstep : s.insertAll (w :: vs) = (s.insert w).insertAll vs := rfl
    rw [hstep, ih, contains_insert, ← Bool.or_assoc]
    congr 1
    simp [Bool.or_comm]

theorem contains_erase (s : BitSet) (v w : Nat) :
    (s.erase v).contains w = (!decide (w = v) && s.contains w) := by
  have hlt : v % 64 < 64 := Nat.mod_lt _ (by decide)
  have hlt' : w % 64 < 64 := Nat.mod_lt _ (by decide)
  simp only [contains, word, erase, getD_clearBit]
  split
  · rename_i hword
    have hiff : v % 64 = w % 64 ↔ w = v := by omega
    rw [BitVec.getLsbD_and, BitVec.getLsbD_not, BitVec.getLsbD_twoPow, hword]
    simp [hlt, hlt', hiff, Bool.and_comm]
  · rename_i hword
    have hne : w ≠ v := by
      rintro rfl
      exact hword rfl
    simp [hne]

theorem contains_union (s t : BitSet) (v : Nat) :
    (s.union t).contains v = (s.contains v || t.contains v) := by
  simp only [contains, word, union, getD_unionWords, BitVec.getLsbD_or]

theorem or_eq_left_iff {x y : BitVec 64} :
    x ||| y = x ↔ ∀ i, y.getLsbD i = true → x.getLsbD i = true := by
  constructor
  · intro h i hi
    rw [← h, BitVec.getLsbD_or, hi, Bool.or_true]
  · refine fun h => BitVec.eq_of_getLsbD_eq fun i _ => ?_
    rw [BitVec.getLsbD_or]
    cases hy : y.getLsbD i with
    | false => rw [Bool.or_false]
    | true => rw [h i hy, Bool.or_true]

/-- A value that is inserted changes its word just if it was absent. -/
theorem grows_eq (s : BitSet) (v : Nat) : s.grows v = !s.contains v := by
  have hlt : v % 64 < 64 := Nat.mod_lt _ (by decide)
  have hword : (s.insert v).word (v / 64) = s.word (v / 64) ||| BitVec.twoPow 64 (v % 64) := by
    simp only [word, insert, getD_setBit, if_true]
  have hkept : s.word (v / 64) ||| BitVec.twoPow 64 (v % 64) = s.word (v / 64) ↔
      s.contains v = true := by
    rw [or_eq_left_iff]
    refine ⟨fun h => h (v % 64) (by simp [hlt]), fun h i hi => ?_⟩
    obtain rfl : v % 64 = i := by simpa [hlt] using hi
    exact h
  rw [grows, hword, Bool.eq_iff_iff, bne_iff_ne, ne_eq, hkept]
  simp

theorem anyGrowth_iff {xs ys : List (BitVec 64)} :
    anyGrowth xs ys = true ↔ ∃ w, xs.getD w 0 ||| ys.getD w 0 ≠ xs.getD w 0 := by
  fun_induction anyGrowth xs ys with
  | case1 => simp
  | case2 y ys ih =>
    rw [Bool.or_eq_true, bne_iff_ne, ih]
    exact Iff.trans (by simp) Nat.or_exists_add_one
  | case3 x xs y ys ih =>
    rw [Bool.or_eq_true, bne_iff_ne, ih]
    exact Iff.trans (by simp) Nat.or_exists_add_one

/-- A union changes a word just if it brings a new element. -/
theorem growsBy_iff : s.growsBy t = true ↔ ∃ v, t.contains v = true ∧ s.contains v = false := by
  simp only [growsBy, anyGrowth_iff, ne_eq, or_eq_left_iff, not_forall, exists_prop,
    Bool.not_eq_true]
  constructor
  · rintro ⟨w, i, ht, hs⟩
    have hlt : i < 64 := BitVec.lt_of_getLsbD ht
    have hword : (64 * w + i) / 64 = w := by omega
    have hbit : (64 * w + i) % 64 = i := by omega
    exact ⟨64 * w + i, by rwa [contains, word, hword, hbit], by rwa [contains, word, hword, hbit]⟩
  · rintro ⟨v, ht, hs⟩
    exact ⟨v / 64, v % 64, ht, hs⟩

end Membership

/-! ### The set of the elements -/

def elements (s : BitSet) : Finset Nat := s.toList.toFinset

section Elements

variable (s t : BitSet) (v : Nat)

@[simp] theorem mem_elements {s : BitSet} {v : Nat} : v ∈ s.elements ↔ s.contains v = true := by
  rw [elements, List.mem_toFinset, mem_toList]

theorem elements_empty : empty.elements = ∅ := rfl

theorem elements_insert : (s.insert v).elements = Insert.insert v s.elements := by
  ext w
  simp [contains_insert]

theorem elements_insertAll (vs : List Nat) :
    (s.insertAll vs).elements = s.elements ∪ vs.toFinset := by
  ext w
  simp [contains_insertAll, or_comm]

theorem elements_erase : (s.erase v).elements = s.elements.erase v := by
  ext w
  simp [contains_erase]

theorem elements_union : (s.union t).elements = s.elements ∪ t.elements := by
  ext w
  simp [contains_union]

theorem toList_eq_sort : s.toList = s.elements.sort :=
  ((List.toFinset_sort (· ≤ ·) s.sorted_toList.nodup).mpr
    (s.sorted_toList.imp fun h => h.le)).symm

theorem length_onesFrom (base : Nat) (words : List (BitVec 64)) : (onesFrom base words).length =
    (words.map fun x => (List.range 64).countP x.getLsbD).foldr (· + ·) 0 := by
  induction words generalizing base with
  | nil => rfl
  | cons x xs ih =>
    rw [onesFrom, List.length_append, List.length_map, ih, ones, ← List.countP_eq_length_filter]
    rfl

theorem count_eq_card : s.count = s.elements.card := by
  rw [elements, List.toFinset_card_of_nodup s.sorted_toList.nodup, toList, length_onesFrom, count]

theorem grows_eq_decide : s.grows v = decide (v ∉ s.elements) := by
  simp [grows_eq]

theorem growsBy_eq_decide : s.growsBy t = decide (s.elements ⊂ s.elements ∪ t.elements) := by
  rw [Bool.eq_iff_iff, growsBy_iff, decide_eq_true_eq, Finset.ssubset_iff_of_subset
    Finset.subset_union_left]
  simp only [Finset.mem_union, mem_elements]
  refine exists_congr fun v => ?_
  cases s.contains v <;> simp

/-- What a set answers when it stands for a finite set. -/
structure Represents (s : BitSet) (S : Finset Nat) : Prop where
  contains : ∀ v, s.contains v = decide (v ∈ S)
  count : s.count = S.card
  toList : s.toList = S.sort
  ascending : s.toList.Pairwise (· < ·)
  /-- A loop goes through the elements in this order, for as long as it is not ended. -/
  loop : ∀ {m : Type → Type} [Monad m] {β : Type} (b : β) (f : Nat → β → m (ForInStep β)),
    forIn s b f = forIn S.sort b f
  first : ∀ n, s.first n = S.sort.take n

theorem represents_elements : s.Represents s.elements where
  contains v := by simp
  count := s.count_eq_card
  toList := s.toList_eq_sort
  ascending := s.sorted_toList
  loop b f := by rw [forIn_eq_forIn_toList, toList_eq_sort]
  first n := by rw [first_eq_take, toList_eq_sort]

end Elements

/-! ### Sets with names -/

/-- An operation on sets with names. -/
inductive Op (ι : Type)
  | insert (x : ι) (v : Nat)
  | insertAll (x : ι) (vs : List Nat)
  | erase (x : ι) (v : Nat)
  /-- Adds the elements of `y` to `x`. -/
  | union (x y : ι)
  /-- Makes `y` a copy of `x`. -/
  | clone (x y : ι)

namespace Op

variable {ι : Type} [DecidableEq ι]

def target : Op ι → ι
  | insert x _ | insertAll x _ | erase x _ | union x _ | clone _ x => x

/-- The sets after an operation, and the answer of those operations that have one. -/
def run (sets : ι → BitSet) : Op ι → (ι → BitSet) × Option Bool
  | insert x v => (Function.update sets x ((sets x).insert v), some ((sets x).grows v))
  | insertAll x vs => (Function.update sets x ((sets x).insertAll vs), none)
  | erase x v => (Function.update sets x ((sets x).erase v), none)
  | union x y => (Function.update sets x ((sets x).union (sets y)), some ((sets x).growsBy (sets y)))
  | clone x y => (Function.update sets y (sets x), none)

/-- The same for finite sets: an insertion answers whether the element was absent, a union whether
the set has grown. -/
def meaning (sets : ι → Finset Nat) : Op ι → (ι → Finset Nat) × Option Bool
  | insert x v => (Function.update sets x (Insert.insert v (sets x)), some (decide (v ∉ sets x)))
  | insertAll x vs => (Function.update sets x (sets x ∪ vs.toFinset), none)
  | erase x v => (Function.update sets x ((sets x).erase v), none)
  | union x y => (Function.update sets x (sets x ∪ sets y), some (decide (sets x ⊂ sets x ∪ sets y)))
  | clone x y => (Function.update sets y (sets x), none)

/-- Operations one after the other, with their answers. -/
def runAll {τ : Type} (step : τ → Op ι → τ × Option Bool) (t : τ) :
    List (Op ι) → τ × List (Option Bool)
  | [] => (t, [])
  | op :: ops =>
    let next := step t op
    let rest := runAll step next.1 ops
    (rest.1, next.2 :: rest.2)

theorem elements_update (sets : ι → BitSet) (x : ι) (s : BitSet) :
    (fun y => (Function.update sets x s y).elements) =
      Function.update (fun y => (sets y).elements) x s.elements := by
  funext y
  exact Function.apply_update (fun _ s => s.elements) sets x s y

theorem meaning_elements (sets : ι → BitSet) (op : Op ι) :
    op.meaning (fun x => (sets x).elements) =
      (fun x => ((op.run sets).1 x).elements, (op.run sets).2) := by
  cases op with
  | insert x v => rw [run, elements_update, elements_insert, grows_eq_decide, meaning]
  | insertAll x vs => rw [run, elements_update, elements_insertAll, meaning]
  | erase x v => rw [run, elements_update, elements_erase, meaning]
  | union x y => rw [run, elements_update, elements_union, growsBy_eq_decide, meaning]
  | clone x y => rw [run, elements_update, meaning]

theorem runAll_meaning (sets : ι → BitSet) (ops : List (Op ι)) :
    runAll meaning (fun x => (sets x).elements) ops =
      (fun x => ((runAll run sets ops).1 x).elements, (runAll run sets ops).2) := by
  induction ops generalizing sets with
  | nil => rfl
  | cons op ops ih => simp only [runAll, meaning_elements, ih]

theorem run_of_ne {op : Op ι} {x : ι} (h : x ≠ op.target) (sets : ι → BitSet) :
    (op.run sets).1 x = sets x := by
  cases op <;> exact Function.update_of_ne h _ _

/-- Operations on sets with names, all empty at first, answer as on finite sets, and leave sets that
stand for the finite sets. No operation changes another set than its own. -/
theorem sets_behave (ops : List (Op ι)) :
    (runAll run (fun _ => empty) ops).2 = (runAll meaning (fun _ => ∅) ops).2 ∧
      (∀ x, ((runAll run (fun _ => empty) ops).1 x).Represents
        ((runAll meaning (fun _ => ∅) ops).1 x)) ∧
      ∀ (op : Op ι) (sets : ι → BitSet) (x : ι), x = op.target ∨ (op.run sets).1 x = sets x := by
  have hmeaning := runAll_meaning (fun _ : ι => empty) ops
  simp only [elements_empty] at hmeaning
  rw [hmeaning]
  refine ⟨rfl, fun x => represents_elements _, fun op sets x => ?_⟩
  by_cases hx : x = op.target
  · exact .inl hx
  · exact .inr (run_of_ne hx sets)

end Op
end BitSet
end MachineSynth
