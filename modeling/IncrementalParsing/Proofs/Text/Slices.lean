import IncrementalParsing.Text.Length

/-!
# Lengths of slices

The length of a slice of a text has as many bytes as the slice, and the lengths of slices that follow
each other add up.

## Key results

- `bytes_of`, `bytes_span`: how many bytes a measured length has
- `of_extract_add`: slices that follow each other add up
- `add_sub_cancel`: taking off the front what was added there
-/

namespace IncrementalParsing

namespace Length

/-- A push adds a byte. -/
theorem bytes_foldl_push (bytes : List UInt8) (l : Length) :
    (bytes.foldl push l).bytes = l.bytes + bytes.length := by
  induction bytes generalizing l with
  | nil => rfl
  | cons byte rest ih =>
    rw [List.foldl_cons, ih, List.length_cons]
    simp only [push]
    omega

/-- The length of a text has as many bytes as the text. -/
@[simp] theorem bytes_of (text : ByteArray) : (of text).bytes = text.size := by
  unfold of
  rw [← Array.foldl_toList, bytes_foldl_push, Array.length_toList]
  exact Nat.zero_add _

@[simp] theorem of_empty : of ByteArray.empty = zero := rfl

@[simp] theorem bytes_zero : zero.bytes = 0 := rfl

/-- Slices that follow each other add up. -/
theorem of_extract_add (text : ByteArray) {i j k : Nat} (hij : i ≤ j) (hjk : j ≤ k) :
    of (text.extract i j) + of (text.extract j k) = of (text.extract i k) := by
  rw [← of_append, ← ByteArray.extract_eq_extract_append_extract j hij hjk]

theorem bytes_of_extract {text : ByteArray} {i j : Nat} (h : j ≤ text.size) :
    (of (text.extract i j)).bytes = j - i := by
  rw [bytes_of, ByteArray.size_extract]
  omega

end Length

/-- A boundary of a text lies in it. -/
theorem le_size_of_isBoundary {text : ByteArray} {i : Nat} (h : isBoundary text i = true) :
    i ≤ text.size := by
  unfold isBoundary at h
  split at h
  · omega
  · exact Nat.le_of_eq (by simpa using h)

namespace Length

/-- A span has as many bytes as it covers. -/
@[simp] theorem bytes_span (text : ByteArray) (start stop : Nat) :
    (span text start stop).bytes = stop - start := by
  unfold span
  split
  · rename_i h
    simp only [Bool.and_eq_true] at h
    exact bytes_of_extract (le_size_of_isBoundary h.2)
  · rfl

/-- A span between boundaries measures the slice. -/
theorem span_of_isBoundary {text : ByteArray} {start stop : Nat} (hle : start ≤ stop)
    (hstart : isBoundary text start = true) (hstop : isBoundary text stop = true) :
    span text start stop = of (text.extract start stop) := by
  unfold span
  rw [if_pos (by simp [hle, hstart, hstop])]

/-- Nothing stands between a place and itself. -/
@[simp] theorem span_self (text : ByteArray) (i : Nat) : span text i i = zero := by
  unfold span
  split
  · rw [ByteArray.extract_same]
    rfl
  · rw [Nat.sub_self]
    rfl

/-- Taking off the front what was added there leaves the rest. -/
@[simp] theorem add_sub_cancel (a b : Length) : (a + b) - a = b := by
  obtain ⟨m, p⟩ := a
  obtain ⟨n, q⟩ := b
  simp only [add_def, sub_def, Point.append, Point.drop]
  by_cases h : 0 < q.row
  · have : p.row < p.row + q.row := by omega
    simp [h, this]
  · have hq : q.row = 0 := by omega
    cases q
    simp_all

/-- Going on from a place leads to the same place only over nothing. -/
theorem add_beq_self (a b : Length) : (a + b == a) = (b == zero) := by
  rw [Bool.eq_iff_iff, beq_iff_eq, beq_iff_eq]
  constructor
  · intro h
    calc b = a + b - a := (add_sub_cancel a b).symm
      _ = a + zero - a := by rw [h, add_zero]
      _ = zero := add_sub_cancel a zero
  · rintro rfl
    exact add_zero a

end Length

end IncrementalParsing
