import IncrementalParsing.Binary.LittleEndian
import Mathlib.Algebra.Group.Nat.Defs

/-!
# Reading bytes back

Numbers written by `littleEndian` are what `numberAt?` reads, wherever they stand, and what stands in a
piece of some bytes is found there.

## Key results

- `extract_slice`: a slice inside a piece of some bytes is one of the piece
- `numberAt?_slice`: a number inside a piece of some bytes is read in the piece
- `numberAt?_littleEndian`: what is written is read back, but for higher digits
-/

namespace IncrementalParsing

@[simp] theorem length_littleEndian (width n : Nat) : (littleEndian width n).length = width := by
  induction width generalizing n with
  | zero => rfl
  | succ width ih => rw [littleEndian, List.length_cons, ih]

@[simp] theorem size_ofBytes (bytes : List UInt8) : (ofBytes bytes).size = bytes.length := rfl

/-! ## Bytes as arrays -/

@[simp] theorem toList_ofBytes (bytes : List UInt8) : (ofBytes bytes).toList = bytes := by
  -- the loop at index `i` has put the bytes before it into `r`, in reverse
  have hloop : ∀ (left i : Nat) (r : List UInt8), bytes.length - i = left →
      ByteArray.toList.loop (ofBytes bytes) i r = r.reverse ++ bytes.drop i := by
    intro left
    induction left with
    | zero =>
      intro i r h
      unfold ByteArray.toList.loop
      rw [if_neg (by rw [size_ofBytes]; omega), List.drop_of_length_le (by omega), List.append_nil]
    | succ left ih =>
      intro i r h
      have hi : i < bytes.length := by omega
      have hget : (ofBytes bytes).get! i = bytes[i] := by
        simp [ByteArray.get!, ofBytes, hi]
      unfold ByteArray.toList.loop
      rw [if_pos (by rwa [size_ofBytes]), hget, ih (i + 1) _ (by omega), List.reverse_cons,
        List.append_assoc, List.singleton_append, ← List.drop_eq_getElem_cons hi]
  exact hloop _ 0 [] rfl

theorem ofBytes_toList (bytes : ByteArray) : ofBytes bytes.toList = bytes := by
  obtain ⟨⟨list⟩⟩ := bytes
  exact congrArg ofBytes (toList_ofBytes list)

theorem extract_ofBytes (bytes : List UInt8) (i j : Nat) :
    (ofBytes bytes).extract i j = ofBytes ((bytes.drop i).take (j - i)) := by
  apply ByteArray.ext
  rw [ByteArray.data_extract, ofBytes, ofBytes, List.extract_toArray, List.extract_eq_take_drop]

/-- A slice inside a piece of some bytes is one of the piece. -/
theorem extract_slice (a x b : List UInt8) {i j : Nat} (h : j ≤ x.length) :
    (ofBytes (a ++ (x ++ b))).extract (a.length + i) (a.length + j) =
      ofBytes ((x.drop i).take (j - i)) := by
  rw [extract_ofBytes, Nat.add_sub_add_left, ← List.drop_drop, List.drop_left]
  congr 1
  by_cases hi : i ≤ x.length
  · rw [List.drop_append_of_le_length hi, List.take_append_of_le_length]
    rw [List.length_drop]
    omega
  · have hzero : j - i = 0 := by omega
    rw [hzero, List.take_zero, List.take_zero]

/-! ## Numbers -/

theorem byteAt?_list (bytes : List UInt8) (i : Nat) : byteAt? (ofBytes bytes) i = bytes[i]? := by
  unfold byteAt?
  split
  · rename_i h
    rw [size_ofBytes] at h
    rw [List.getElem?_eq_getElem h]
    simp [ByteArray.getElem_eq_getElem_data, ofBytes]
  · rename_i h
    rw [size_ofBytes] at h
    rw [List.getElem?_eq_none (Nat.le_of_not_lt h)]

/-- A number inside a piece of some bytes is read in the piece. -/
theorem numberAt?_slice (a x b : List UInt8) (width k : Nat) (h : k + width ≤ x.length) :
    numberAt? (ofBytes (a ++ (x ++ b))) width (a.length + k) = numberAt? (ofBytes x) width k := by
  induction width generalizing k with
  | zero => rfl
  | succ width ih =>
    have hbyte : byteAt? (ofBytes (a ++ (x ++ b))) (a.length + k) = byteAt? (ofBytes x) k := by
      rw [byteAt?_list, byteAt?_list, List.getElem?_append_right (Nat.le_add_right _ _),
        Nat.add_sub_cancel_left, List.getElem?_append_left (by omega)]
    have hrest := ih (k + 1) (by omega)
    rw [← Nat.add_assoc] at hrest
    rw [numberAt?, numberAt?, hbyte, hrest]

/-- What is written is read back, but for higher digits. -/
theorem numberAt?_littleEndian (width n : Nat) :
    numberAt? (ofBytes (littleEndian width n)) width 0 = some (n % 256 ^ width) := by
  induction width generalizing n with
  | zero => simp [numberAt?, Nat.mod_one]
  | succ width ih =>
    -- the bytes behind the first hold the quotient by 256
    have hrest : numberAt? (ofBytes (littleEndian (width + 1) n)) width 1 =
        some (n / 256 % 256 ^ width) := by
      have := numberAt?_slice [UInt8.ofNat (n % 256)] (littleEndian width (n / 256)) []
        width 0 (by simp)
      rw [ih, List.append_nil] at this
      exact this
    have hbyte : byteAt? (ofBytes (littleEndian (width + 1) n)) 0 = some (UInt8.ofNat (n % 256)) := by
      rw [byteAt?_list]
      rfl
    -- the first byte holds the remainder
    have hlow : (UInt8.ofNat (n % 256)).toNat = n % 256 :=
      UInt8.toNat_ofNat_of_lt (Nat.mod_lt _ (by decide))
    rw [numberAt?, hbyte, Nat.zero_add, hrest, Option.bind_eq_bind, Option.bind_some,
      Option.bind_eq_bind, Option.bind_some]
    simp only [hlow, Option.pure_def, Option.some.injEq]
    rw [Nat.pow_succ', Nat.mod_mul]

/-- A number that stands between other bytes. -/
theorem numberAt?_between (a b : List UInt8) (width n offset : Nat)
    (h : offset = a.length) :
    numberAt? (ofBytes (a ++ (littleEndian width n ++ b))) width offset = some (n % 256 ^ width) := by
  have := numberAt?_slice a (littleEndian width n) b width 0 (by simp)
  rw [numberAt?_littleEndian, Nat.add_zero] at this
  rw [h, this]

/-- Entries of the same size that follow each other: what is read in one of them. -/
theorem numberAt?_flatten (a b : List UInt8) (entries : List (List UInt8))
    {size : Nat} (width : Nat) {i : Nat} (k : Nat)
    (hsize : ∀ e ∈ entries, e.length = size) (hi : i < entries.length) (hk : k + width ≤ size) :
    numberAt? (ofBytes (a ++ (entries.flatten ++ b))) width (a.length + (size * i + k)) =
      numberAt? (ofBytes entries[i]) width k := by
  -- the entries before the one at `i` take `size * i` bytes
  have hfront : (entries.take i).flatten.length = size * i := by
    have hall : ∀ e ∈ entries.take i, e.length = size := fun e he => hsize e (List.mem_of_mem_take he)
    have hlen : (entries.take i).length = i := by
      rw [List.length_take]
      omega
    rw [List.length_flatten, List.map_congr_left hall, List.map_const', List.sum_replicate_nat, hlen,
      Nat.mul_comm]
  have hsplit : entries.flatten = (entries.take i).flatten ++ (entries[i] ++
      (entries.drop (i + 1)).flatten) := by
    conv => lhs; rw [← List.take_append_drop i entries, List.drop_eq_getElem_cons hi]
    rw [List.flatten_append, List.flatten_cons]
  have := numberAt?_slice (a ++ (entries.take i).flatten) entries[i]
    ((entries.drop (i + 1)).flatten ++ b) width k
    (by rw [hsize _ (List.getElem_mem hi)]; exact hk)
  rw [hsplit]
  simpa [hfront, Nat.add_assoc] using this

end IncrementalParsing
