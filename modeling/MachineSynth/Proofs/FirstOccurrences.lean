import Mathlib

/-! First occurrences: the elements of a list in the order in which they come first. -/
namespace MachineSynth
namespace Synth

variable {α β : Type} [BEq α] [LawfulBEq α] {as bs as' bs' : List α}

theorem eraseDups_concat (as : List α) (b : α) :
    (as ++ [b]).eraseDups = if as.contains b then as.eraseDups else as.eraseDups ++ [b] := by
  rw [List.eraseDups_append]
  by_cases hb : b ∈ as <;> simp [List.removeAll, hb, List.eraseDups_cons]

theorem contains_eraseDups (as : List α) (b : α) : as.eraseDups.contains b = as.contains b := by
  rw [Bool.eq_iff_iff, List.contains_iff_mem, List.contains_iff_mem, List.mem_eraseDups]

theorem nodup_eraseDups (as : List α) : as.eraseDups.Nodup := by
  induction as using List.reverseRecOn with
  | nil => simp
  | append_singleton as b ih =>
    rw [eraseDups_concat]
    split
    · exact ih
    · rename_i hb
      refine List.nodup_append.mpr ⟨ih, List.nodup_singleton b, fun x hx y hy => ?_⟩
      obtain rfl := List.mem_singleton.mp hy
      rintro rfl
      exact hb (List.contains_iff_mem.mpr (List.mem_eraseDups.mp hx))

theorem filter_eraseDups (p : α → Bool) (as : List α) :
    (as.filter p).eraseDups = as.eraseDups.filter p := by
  induction as using List.reverseRecOn with
  | nil => simp
  | append_singleton as b ih =>
    rw [List.filter_append, eraseDups_concat]
    cases hp : p b with
    | false => split <;> simp [hp, ih]
    | true =>
      rw [List.filter_cons_of_pos hp, List.filter_nil, eraseDups_concat, ih]
      have hmem : (as.filter p).contains b = as.contains b := by
        rw [Bool.eq_iff_iff]
        simp [hp]
      rw [hmem]
      split <;> simp [hp]

/-- What comes first in two lists together is known from what comes first in each. -/
theorem eraseDups_append_congr (ha : as.eraseDups = as'.eraseDups)
    (hb : bs.eraseDups = bs'.eraseDups) : (as ++ bs).eraseDups = (as' ++ bs').eraseDups := by
  have helem : ∀ x, as.contains x = as'.contains x := by
    intro x
    rw [← contains_eraseDups, ha, contains_eraseDups]
  simp only [List.eraseDups_append, List.removeAll, filter_eraseDups, ha, hb, List.elem_eq_contains,
    helem]

theorem eraseDups_flatMap_congr {f g : β → List α} {xs : List β}
    (h : ∀ x ∈ xs, (f x).eraseDups = (g x).eraseDups) :
    (xs.flatMap f).eraseDups = (xs.flatMap g).eraseDups := by
  induction xs with
  | nil => rfl
  | cons x rest ih =>
    rw [List.flatMap_cons, List.flatMap_cons]
    exact eraseDups_append_congr (h x (by simp)) (ih fun y hy => h y (by simp [hy]))

theorem eraseDups_of_nodup (h : as.Nodup) : as.eraseDups = as := by
  induction as using List.reverseRecOn with
  | nil => rfl
  | append_singleton as b ih =>
    obtain ⟨has, -, hne⟩ := List.nodup_append.mp h
    have hb : as.contains b = false := by
      rw [Bool.eq_false_iff]
      exact fun hmem => hne b (List.contains_iff_mem.mp hmem) b (by simp) rfl
    rw [eraseDups_concat, hb, ih has]
    rfl

/-- A list that repeats one element comes to that element. -/
theorem eraseDups_of_constant {a : α} (hne : as ≠ []) (h : ∀ x ∈ as, x = a) :
    as.eraseDups = [a] := by
  obtain ⟨x, rest, rfl⟩ := List.exists_cons_of_ne_nil hne
  obtain rfl := h x (by simp)
  have hrest : rest.filter (fun b => !b == x) = [] := by
    refine List.filter_eq_nil_iff.mpr fun y hy => ?_
    simp [h y (by simp [hy])]
  rw [List.eraseDups_cons, hrest, List.eraseDups_nil]

theorem length_eraseDups_le_one :
    as.eraseDups.length ≤ 1 ↔ ∀ x ∈ as, ∀ y ∈ as, x = y := by
  constructor
  · intro h x hx y hy
    rw [← List.mem_eraseDups] at hx hy
    obtain ⟨i, hi, rfl⟩ := List.mem_iff_getElem.mp hx
    obtain ⟨j, hj, rfl⟩ := List.mem_iff_getElem.mp hy
    have hij : i = j := by omega
    simp only [hij]
  · intro h
    cases as with
    | nil => simp
    | cons a rest =>
      rw [eraseDups_of_constant (a := a) (by simp) fun x hx => h x hx a (by simp)]
      rfl

end Synth
end MachineSynth
