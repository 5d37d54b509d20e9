import Mathlib
import MachineSynth.Cbor.Decoder
import MachineSynth.Cbor.Reader

/-! Encoding: items that are within the limits of the reader are read back from their bytes. -/
namespace MachineSynth
namespace Cbor

def word : Nat := 0x10000000000000000

/-- An item that can be written and read back, nested in at most `levels` arrays and maps. -/
inductive Readable : Nat → Cbor → Prop
  | unsigned {levels n : Nat} (fits : n < word) : Readable levels (.unsigned n)
  | negative {levels n : Nat} (fits : n < word) : Readable levels (.negative n)
  | text {levels : Nat} {data : Bytes} (fits : data.length < word) : Readable levels (.text [data])
  | simple {levels n : Nat} (short : n < 24) : Readable levels (.simple n)
  | array {levels : Nat} {items : List Cbor} (few : items.length ≤ maxElements)
      (all : ∀ i ∈ items, Readable levels i) : Readable (levels + 1) (.array items)
  | map {levels : Nat} {cells : List Cbor} (even : 2 * (cells.length / 2) = cells.length)
      (few : cells.length / 2 ≤ maxElements) (all : ∀ i ∈ cells, Readable levels i) :
      Readable (levels + 1) (.map cells)

section Numbers

@[simp] theorem length_bigEndian (k n : Nat) : (bigEndian k n).length = k := by
  induction k generalizing n with
  | zero => rfl
  | succ k ih => simp [bigEndian, ih]

/-- The bytes of a number that fits into them stand for the number. -/
theorem ofBigEndian_bigEndian (k n : Nat) : ofBigEndian (bigEndian k n) = n % 256 ^ k := by
  induction k generalizing n with
  | zero => simp [bigEndian, ofBigEndian, Nat.mod_one]
  | succ k ih =>
    have hstep : ofBigEndian (bigEndian (k + 1) n) =
        ofBigEndian (bigEndian k (n / 256)) * 256 + n % 256 := by
      simp [bigEndian, ofBigEndian, List.foldl_append]
    rw [hstep, ih, pow_succ']
    have hmul := Nat.mod_mul (x := n) (a := 256) (b := 256 ^ k)
    omega

theorem number_bigEndian {k n : Nat} (h : n < 256 ^ k) (rest : Bytes) :
    number k (bigEndian k n ++ rest) = some (n, rest) := by
  have hlen := length_bigEndian k n
  simp [number, takeBytes, hlen, ofBigEndian_bigEndian, Nat.mod_eq_of_lt h]

theorem toNat_initial {major info : Nat} (hmajor : major < 8) (hinfo : info < 32) :
    (initial major info).toNat = major * 32 + info := by
  simp only [initial, UInt8.toNat_ofNat']
  omega

theorem readHead_head (major : Nat) {n : Nat} (hmajor : major < 8) (hn : n < word) (rest : Bytes) :
    ∃ info, readHead (head major n ++ rest) = some (⟨major, info, .value n⟩, rest) ∧
      (n < 24 → info = n) := by
  have hfirst : ∀ info : Nat, info < 32 → (initial major info).toNat / 32 = major ∧
      (initial major info).toNat % 32 = info := by
    intro info hinfo
    rw [toNat_initial hmajor hinfo]
    omega
  unfold head
  split
  · rename_i h
    obtain ⟨hdiv, hmod⟩ := hfirst n (by omega)
    exact ⟨n, by simp [readHead, hdiv, hmod, argument, h], fun _ => rfl⟩
  · rename_i h
    have hbytes : ∀ {info k : Nat}, info < 32 → n < 256 ^ k →
        (∀ b : Bytes, argument major info b =
          (number k b).map fun x => (Argument.value x.1, x.2)) →
        readHead (initial major info :: bigEndian k n ++ rest) =
          some (⟨major, info, .value n⟩, rest) := by
      intro info k hinfo hk hargument
      obtain ⟨hdiv, hmod⟩ := hfirst _ hinfo
      simp [readHead, hdiv, hmod, hargument, number_bigEndian hk]
    split
    · rename_i h'
      exact ⟨24, hbytes (by omega) (by omega) fun b => by simp [argument], fun hlt => absurd hlt h⟩
    · split
      · rename_i h'
        exact ⟨25, hbytes (by omega) (by omega) fun b => by simp [argument],
          fun hlt => absurd hlt h⟩
      · split
        · rename_i h'
          exact ⟨26, hbytes (by omega) (by omega) fun b => by simp [argument],
            fun hlt => absurd hlt h⟩
        · have hn' : n < 256 ^ 8 := by unfold word at hn; omega
          exact ⟨27, hbytes (by omega) hn' fun b => by simp [argument],
            fun hlt => absurd hlt h⟩

theorem tagNumber_head {major n : Nat} (hmajor : major < 8) (hne : major ≠ 6) (hn : n < word)
    (rest : Bytes) : tagNumber (head major n ++ rest) = none := by
  obtain ⟨info, h, -⟩ := readHead_head _ hmajor hn rest
  unfold tagNumber
  rw [h]
  split
  · rename_i heq
    simp only [Option.some.injEq, Prod.mk.injEq, Head.mk.injEq] at heq
    exact absurd heq.1.1 hne
  · rfl

end Numbers

theorem Readable.tagNumber_encode {levels : Nat} {i : Cbor} (h : Readable levels i)
    (rest : Bytes) : tagNumber (i.encode ++ rest) = none := by
  have hmax : maxElements < word := by decide
  cases h with
  | unsigned fits => exact tagNumber_head (by omega) (by omega) fits rest
  | negative fits => exact tagNumber_head (by omega) (by omega) fits rest
  | text fits =>
    simp only [encode, List.flatten_singleton, List.append_assoc]
    exact tagNumber_head (by omega) (by omega) fits _
  | simple short =>
    exact tagNumber_head (by omega) (by omega) (short.trans (by decide)) rest
  | array few =>
    simp only [encode, List.append_assoc]
    exact tagNumber_head (by omega) (by omega) (few.trans_lt hmax) _
  | map even few =>
    simp only [encode, List.append_assoc]
    exact tagNumber_head (by omega) (by omega) (few.trans_lt hmax) _

theorem exactly_encodeAll (one : Reader Cbor) (items : List Cbor)
    (h : ∀ i ∈ items, ∀ rest, one (i.encode ++ rest) = some (i, rest)) (rest : Bytes) :
    exactly one items.length (encodeAll items ++ rest) = some (items, rest) := by
  induction items with
  | nil => rfl
  | cons i items ih =>
    have hone := h i (by simp) (encodeAll items ++ rest)
    have hrest := ih fun j hj => h j (List.mem_cons_of_mem _ hj)
    simp only [List.length_cons, exactly, encodeAll, List.append_assoc, hone, hrest,
      Option.bind_eq_bind, Option.bind_some]
    rfl

/-- An item within its levels is read back, and what follows is left. -/
theorem Readable.tagged_encode {levels : Nat} {i : Cbor} (h : Readable levels i) (rest : Bytes) :
    tagged (content levels) (i.encode ++ rest) = some (i, rest) := by
  have hmax : maxElements < word := by decide
  -- No tag stands in front, so the item is read as it is.
  have hplain : ∀ {levels : Nat} {i : Cbor} {rest : Bytes}, Readable levels i →
      (∀ one, (∀ k, levels = k + 1 → one = some (tagged (content k))) →
        plain one (i.encode ++ rest) = some (i, rest)) →
      tagged (content levels) (i.encode ++ rest) = some (i, rest) := by
    intro levels i rest h hone
    have htag := h.tagNumber_encode rest
    cases levels with
    | zero => simp [tagged, htag, content, hone]
    | succ k => simp [tagged, htag, content, hone (some (tagged (content k)))]
  induction h generalizing rest with
  | unsigned fits =>
    refine hplain (.unsigned fits) fun one _ => ?_
    obtain ⟨info, hhead, -⟩ := readHead_head 0 (by omega) fits rest
    simp [plain, encode, hhead]
  | negative fits =>
    refine hplain (.negative fits) fun one _ => ?_
    obtain ⟨info, hhead, -⟩ := readHead_head 1 (by omega) fits rest
    simp [plain, encode, hhead]
  | @text levels data fits =>
    refine hplain (.text fits) fun one _ => ?_
    obtain ⟨info, hhead, -⟩ := readHead_head 3 (by omega) fits (data ++ rest)
    simp [plain, encode, hhead, string, takeBytes]
  | simple short =>
    refine hplain (.simple short) fun one _ => ?_
    obtain ⟨info, hhead, hinfo⟩ := readHead_head 7 (by omega)
      (short.trans (by decide)) rest
    simp [plain, encode, hhead, simpleValue, hinfo short, short]
  | @array levels items few all ih =>
    refine hplain (.array few all) fun one hone => ?_
    obtain ⟨info, hhead, -⟩ := readHead_head 4 (by omega) (few.trans_lt hmax)
      (encodeAll items ++ rest)
    have hitems := exactly_encodeAll (tagged (content levels)) items
      (fun i hi rest => ih i hi rest) rest
    simp [plain, encode, hhead, hone levels rfl, elements, few, hitems]
  | @map levels cells even few all ih =>
    refine hplain (.map even few all) fun one hone => ?_
    obtain ⟨info, hhead, -⟩ := readHead_head 5 (by omega) (few.trans_lt hmax)
      (encodeAll cells ++ rest)
    have hitems := exactly_encodeAll (tagged (content levels)) cells
      (fun i hi rest => ih i hi rest) rest
    simp [plain, encode, hhead, hone levels rfl, elements, few, even, hitems]

/-- What is nested no deeper than the reader allows is read back. -/
theorem Readable.decode_encode {i : Cbor} (h : Readable maxLevels i) :
    decode i.encode = some i := by
  have hread := h.tagged_encode []
  rw [List.append_nil] at hread
  simp [decode, hread]

section Values

theorem textOf_ofString (s : String) : textOf [s.toUTF8.data.toList] = some s := by
  have hvalid : String.fromUTF8? ⟨s.toUTF8.data.toList.toArray⟩ = some s := by
    simp only [String.fromUTF8?, Array.toArray_toList]
    exact dif_pos s.isValidUTF8
  simp only [textOf, List.mapM_cons, hvalid, List.mapM_nil]
  simp [String.join]

@[simp] theorem untag_unsigned (n : Nat) : untag (.unsigned n) = some (.unsigned n) := rfl

@[simp] theorem asString_ofString (s : String) : asString (.ofString s) = some s :=
  textOf_ofString s

@[simp] theorem asString_null : asString null = some "" := rfl

theorem asNat_unsigned {bits n : Nat} (h : n < 2 ^ bits) : asNat bits (.unsigned n) = some n := by
  simp [asNat, untag, isNull, h]

@[simp] theorem asNat_null (bits : Nat) : asNat bits null = some 0 := rfl

@[simp] theorem asBool_ofBool (b : Bool) : asBool (.ofBool b) = some b := by cases b <;> rfl

@[simp] theorem asInt64_ofInt (v : Int64) : asInt64 (.ofInt v.toInt) = some v := by
  have hlow := v.le_toInt
  have hhigh := v.toInt_lt
  cases hv : v.toInt with
  | ofNat n =>
    have hn : n < 2 ^ 63 := by
      rw [hv] at hhigh
      simpa using hhigh
    have hofInt : Int64.ofInt (n : Int) = v := by
      rw [← Int64.ofInt_toInt v, hv]
      rfl
    simp [ofInt, asInt64, asNat_unsigned hn, hofInt]
  | negSucc n =>
    have hn : n < 0x8000000000000000 := by
      rw [hv] at hlow
      have : Int.negSucc n = -(n : Int) - 1 := by omega
      omega
    have hofInt : Int64.ofInt (.negSucc n) = v := by rw [← hv, Int64.ofInt_toInt]
    simp [ofInt, asInt64, untag, hn, hofInt]

theorem asList_array {α β : Type} {f : Decoder β} {g : α → Cbor} {e : α → β} {xs : List α}
    (h : ∀ x ∈ xs, f (g x) = some (e x)) : asList f (.array (xs.map g)) = some (xs.map e) := by
  have hmap : (xs.map g).mapM f = some (xs.map e) := by
    induction xs with
    | nil => rfl
    | cons x rest ih =>
      have hrest := ih fun y hy => h y (List.mem_cons_of_mem _ hy)
      simp [h x (by simp), hrest]
  simpa [asList, untag, isNull] using hmap

@[simp] theorem asList_null {α : Type} (f : Decoder α) : asList f null = some [] := rfl

@[simp] theorem asOption_null {α : Type} (f : Decoder α) : asOption f null = some none := rfl

end Values

end Cbor
end MachineSynth
