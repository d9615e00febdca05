import IncrementalParsing.Binary.Checksum

/-!
# Checksums as numbers

The check is the remainder of a division of polynomials.  `remainder` computes it on numbers, one bit
at a time, without the table of `checksumByte`.

## Key results

- `checksum_eq`: the check is the remainder of the bytes
-/

namespace IncrementalParsing

/-- One step on numbers: takes the lowest bit off. -/
def remainderBit (n : Nat) : Nat := n / 2 ^^^ n % 2 * 0xEDB88320

/-- As many steps as given. -/
def remainderBits : (count : Nat) → Nat → Nat
  | 0, n => n
  | count + 1, n => remainderBits count (remainderBit n)

/-- The remainder after one more byte. -/
def remainderByte (n : Nat) (byte : UInt8) : Nat :=
  remainderBits 8 ((n ^^^ byte.toNat) &&& 0xFF) ^^^ n >>> 8

/-- The remainder of some bytes. -/
def remainder (bytes : List UInt8) : Nat := bytes.foldl remainderByte 0xFFFFFFFF ^^^ 0xFFFFFFFF

theorem toNat_checksumBit (crc : UInt32) : (checksumBit crc).toNat = remainderBit crc.toNat := by
  unfold checksumBit remainderBit
  have hone : (crc &&& 1).toNat = crc.toNat % 2 := by
    rw [UInt32.toNat_and]
    exact Nat.and_one_is_mod _
  have hhalf : (crc >>> 1).toNat = crc.toNat / 2 := by
    rw [UInt32.toNat_shiftRight]
    exact Nat.shiftRight_eq_div_pow _ 1
  -- the lowest bit decides whether the polynomial is subtracted
  by_cases h : crc.toNat % 2 = 1
  · have hbit : (crc &&& 1 == 1) = true := by
      rw [beq_iff_eq, ← UInt32.toNat_inj, hone, h]
      rfl
    rw [if_pos hbit, UInt32.toNat_xor, hhalf, h, Nat.one_mul]
    rfl
  · have hbit : ¬(crc &&& 1 == 1) = true := by
      rw [beq_iff_eq, ← UInt32.toNat_inj, hone]
      exact h
    rw [if_neg hbit, hhalf, Nat.mod_two_ne_one.mp h, Nat.zero_mul, Nat.xor_zero]

theorem toNat_checksumBits (count : Nat) (crc : UInt32) :
    (checksumBits count crc).toNat = remainderBits count crc.toNat := by
  induction count generalizing crc with
  | zero => rfl
  | succ count ih => rw [checksumBits, remainderBits, ih, toNat_checksumBit]

theorem toNat_checksumByte (crc : UInt32) (byte : UInt8) :
    (checksumByte crc byte).toNat = remainderByte crc.toNat byte := by
  have hlow : ((crc ^^^ byte.toUInt32) &&& 0xFF).toNat = (crc.toNat ^^^ byte.toNat) &&& 0xFF := by
    rw [UInt32.toNat_and, UInt32.toNat_xor, UInt8.toNat_toUInt32]
    rfl
  have hlt : ((crc.toNat ^^^ byte.toNat) &&& 0xFF) < 256 :=
    Nat.lt_succ_of_le Nat.and_le_right
  -- the table holds what eight steps make of each byte
  have htable : checksumTable.getD ((crc.toNat ^^^ byte.toNat) &&& 0xFF) 0 =
      checksumBits 8 (UInt32.ofNat ((crc.toNat ^^^ byte.toNat) &&& 0xFF)) := by
    simp [checksumTable, Array.getD, hlt]
  have hof : (UInt32.ofNat ((crc.toNat ^^^ byte.toNat) &&& 0xFF)).toNat =
      (crc.toNat ^^^ byte.toNat) &&& 0xFF :=
    UInt32.toNat_ofNat_of_lt (Nat.lt_trans hlt (by decide))
  rw [checksumByte, UInt32.toNat_xor, hlow, htable, toNat_checksumBits, hof,
    UInt32.toNat_shiftRight]
  rfl

/-- Going through the bytes of an array is going through their list. -/
theorem foldl_bytes {β : Type} (f : β → UInt8 → β) (init : β) (bytes : ByteArray) :
    bytes.foldl f init = bytes.data.toList.foldl f init := by
  -- the loop at index `j` folds what is left of the list from there
  have hloop : ∀ (i j : Nat) (b : β), bytes.size - j = i →
      Id.run (ByteArray.foldlM.loop (fun b x => (pure (f b x) : Id β)) bytes bytes.size
        (Nat.le_refl _) i j b) = (bytes.data.toList.drop j).foldl f b := by
    intro i
    induction i with
    | zero =>
      intro j b h
      unfold ByteArray.foldlM.loop
      rw [List.drop_of_length_le (Nat.le_of_sub_eq_zero h)]
      split <;> rfl
    | succ i ih =>
      intro j b h
      have hj : j < bytes.size := by omega
      have hdrop : bytes.data.toList.drop j = bytes[j] :: bytes.data.toList.drop (j + 1) := by
        rw [List.drop_eq_getElem_cons (by simpa using hj)]
        rfl
      unfold ByteArray.foldlM.loop
      rw [dif_pos hj, hdrop]
      exact ih (j + 1) (f b bytes[j]) (by omega)
  rw [ByteArray.foldl, ByteArray.foldlM, dif_pos (Nat.le_refl _)]
  exact hloop _ 0 init rfl

/-- The check is the remainder of the bytes. -/
theorem checksum_eq (bytes : ByteArray) : checksum bytes = remainder bytes.data.toList := by
  have hfold : ∀ (l : List UInt8) (crc : UInt32),
      (l.foldl checksumByte crc).toNat = l.foldl remainderByte crc.toNat := by
    intro l
    induction l with
    | nil => intro crc; rfl
    | cons byte rest ih => intro crc; rw [List.foldl_cons, List.foldl_cons, ih, toNat_checksumByte]
  rw [checksum, remainder, foldl_bytes, UInt32.toNat_xor, hfold]
  rfl

/-- The check of a slice is the remainder of its bytes. -/
theorem checksum_extract (bytes : ByteArray) (start stop : Nat) :
    checksum (bytes.extract start stop) = remainder ((bytes.data.toList.take stop).drop start) := by
  rw [checksum_eq, ByteArray.data_extract, Array.toList_extract]
  simp [List.extract, List.drop_take]

end IncrementalParsing
