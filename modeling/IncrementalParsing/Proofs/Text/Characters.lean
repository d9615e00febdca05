import IncrementalParsing.Parse.Lexer
import IncrementalParsing.Proofs.Text.Slices

/-!
# Boundaries of characters

In the bytes of a text a character begins at every boundary but the end, and `Lexer.charWidth` reads
off its first byte how many bytes it takes.

## Key results

- `exists_char_of_isBoundary`: at a boundary before the end a character begins
- `isBoundary_add_charWidth`: where the character at a boundary ends there is a boundary again
-/

namespace IncrementalParsing

/-! ## The bytes of a character -/

/-- The bytes that continue a character are above `0x80`. -/
theorem isContinuation_ofNat {n : Nat} (h : n < 64) :
    isContinuation (UInt8.ofNat (n + 0x80)) = true := by
  revert n
  decide +kernel

/-- A lead byte begins a character of so many bytes. -/
structure Leads (lead : UInt8) (width : Nat) : Prop where
  begins : isContinuation lead = false
  owes : (Utf8.tailShape? lead).map (·.1 + 1) = some width

theorem leads_one {n : Nat} (h : n ≤ 0x7f) : Leads (UInt8.ofNat n) 1 := by
  have hall : ∀ n < 0x80, isContinuation (UInt8.ofNat n) = false ∧
      (Utf8.tailShape? (UInt8.ofNat n)).map (·.1 + 1) = some 1 := by decide +kernel
  exact ⟨(hall n (Nat.lt_succ_of_le h)).1, (hall n (Nat.lt_succ_of_le h)).2⟩

theorem leads_two {n : Nat} (h : n < 32) (hn : 2 ≤ n) : Leads (UInt8.ofNat (n + 0xc0)) 2 := by
  have hall : ∀ n < 32, 2 ≤ n → isContinuation (UInt8.ofNat (n + 0xc0)) = false ∧
      (Utf8.tailShape? (UInt8.ofNat (n + 0xc0))).map (·.1 + 1) = some 2 := by decide +kernel
  exact ⟨(hall n h hn).1, (hall n h hn).2⟩

theorem leads_three {n : Nat} (h : n < 16) : Leads (UInt8.ofNat (n + 0xe0)) 3 := by
  have hall : ∀ n < 16, isContinuation (UInt8.ofNat (n + 0xe0)) = false ∧
      (Utf8.tailShape? (UInt8.ofNat (n + 0xe0))).map (·.1 + 1) = some 3 := by decide +kernel
  exact ⟨(hall n h).1, (hall n h).2⟩

theorem leads_four {n : Nat} (h : n < 5) : Leads (UInt8.ofNat (n + 0xf0)) 4 := by
  have hall : ∀ n < 5, isContinuation (UInt8.ofNat (n + 0xf0)) = false ∧
      (Utf8.tailShape? (UInt8.ofNat (n + 0xf0))).map (·.1 + 1) = some 4 := by decide +kernel
  exact ⟨(hall n h).1, (hall n h).2⟩

/-- The bytes of a character are a lead byte and bytes that continue it. -/
theorem utf8EncodeChar_cases (c : Char) :
    ∃ lead rest, String.utf8EncodeChar c = lead :: rest ∧ Leads lead (rest.length + 1) ∧
      ∀ b ∈ rest, isContinuation b = true := by
  have hmax : c.val.toNat < 0x110000 := by
    obtain h | ⟨-, h⟩ := c.valid
    · exact Nat.lt_trans h (by decide)
    · exact h
  unfold String.utf8EncodeChar
  dsimp only
  -- one, two, three or four bytes, by the size of the code point
  split
  · rename_i h
    exact ⟨_, [], rfl, leads_one h, by simp⟩
  · rename_i h1
    split
    · rename_i h
      refine ⟨_, _, rfl, leads_two (Nat.mod_lt _ (by decide)) (by omega), ?_⟩
      simp only [List.mem_cons, List.not_mem_nil, or_false]
      rintro b rfl
      exact isContinuation_ofNat (Nat.mod_lt _ (by decide))
    · split
      · refine ⟨_, _, rfl, leads_three (Nat.mod_lt _ (by decide)), ?_⟩
        simp only [List.mem_cons, List.not_mem_nil, or_false]
        rintro b (rfl | rfl) <;> exact isContinuation_ofNat (Nat.mod_lt _ (by decide))
      · refine ⟨_, _, rfl, leads_four (by omega), ?_⟩
        simp only [List.mem_cons, List.not_mem_nil, or_false]
        rintro b (rfl | rfl | rfl) <;> exact isContinuation_ofNat (Nat.mod_lt _ (by decide))

/-! ## Boundaries in a row of characters -/

theorem byteAt?_ofBytes (bytes : List UInt8) (i : Nat) :
    byteAt? bytes.toByteArray i = bytes[i]? := by
  unfold byteAt?
  have hsize : bytes.toByteArray.size = bytes.length := by
    rw [ByteArray.size, List.data_toByteArray, List.size_toArray]
  split
  · rename_i h
    rw [hsize] at h
    rw [List.getElem?_eq_getElem h]
    simp [ByteArray.getElem_eq_getElem_data, List.data_toByteArray]
  · rename_i h
    rw [hsize] at h
    rw [List.getElem?_eq_none (Nat.le_of_not_lt h)]

/-- A place is a boundary at the ends and where no byte continues a character. -/
theorem isBoundary_iff {text : ByteArray} {i : Nat} :
    isBoundary text i = true ↔
      i = text.size ∨ (i = 0 ∨ ∃ b, byteAt? text i = some b ∧ isContinuation b = false) ∧
        i ≤ text.size := by
  unfold isBoundary byteAt?
  split
  · rename_i h
    have hne : i ≠ text.size := Nat.ne_of_lt h
    simp [hne, Nat.le_of_lt h]
  · rename_i h
    simp only [beq_iff_eq]
    constructor
    · exact Or.inl
    -- behind the last byte only the end itself is a boundary
    · rintro (h | ⟨h0 | ⟨b, hb, -⟩, hle⟩)
      · exact h
      · omega
      · cases hb

/-- At a boundary in a row of characters, one of them begins. -/
theorem exists_char_of_begins (chars : List Char) {i : Nat}
    (hi : i < (chars.flatMap String.utf8EncodeChar).length)
    (h : i = 0 ∨ ∃ b, (chars.flatMap String.utf8EncodeChar)[i]? = some b ∧
      isContinuation b = false) :
    ∃ before c after, chars = before ++ c :: after ∧
      (before.flatMap String.utf8EncodeChar).length = i := by
  -- the induction is on the characters, by whose bytes the boundary is moved
  induction chars generalizing i with
  | nil => simp at hi
  | cons c rest ih =>
    -- the first character begins here, and else the boundary is one in those behind it
    obtain rfl | hpos := Nat.eq_zero_or_pos i
    · exact ⟨[], c, rest, rfl, rfl⟩
    · obtain rfl | ⟨b, hb, hcont⟩ := h
      · exact absurd hpos (Nat.lt_irrefl 0)
      · obtain ⟨lead, tail, hc, -, htail⟩ := utf8EncodeChar_cases c
        rw [List.flatMap_cons, hc] at hi hb
        by_cases hlt : i < (lead :: tail).length
        · -- inside the first character every byte continues it
          exfalso
          rw [List.getElem?_append_left hlt] at hb
          obtain ⟨k, rfl⟩ := Nat.exists_eq_succ_of_ne_zero (Nat.ne_of_gt hpos)
          rw [Nat.succ_eq_add_one, List.getElem?_cons_succ] at hb
          rw [htail b (List.mem_of_getElem? hb)] at hcont
          cases hcont
        · have hle := Nat.le_of_not_lt hlt
          rw [List.getElem?_append_right hle] at hb
          rw [List.length_append] at hi
          obtain ⟨before, d, after, hrest, hlen⟩ := ih (by omega) (.inr ⟨b, hb, hcont⟩)
          refine ⟨c :: before, d, after, by rw [hrest]; rfl, ?_⟩
          rw [List.flatMap_cons, hc, List.length_append, hlen]
          omega

/-- The bytes of a text are those of its characters. -/
theorem toUTF8_eq (s : String) : s.toUTF8 = (s.toList.flatMap String.utf8EncodeChar).toByteArray := by
  rw [String.toUTF8_eq_toByteArray, ← String.utf8Encode_toList]
  rfl

/-- At a boundary before the end a character begins. -/
theorem exists_char_of_isBoundary {s : String} {i : Nat} (h : isBoundary s.toUTF8 i = true)
    (hi : i < s.toUTF8.size) :
    ∃ before c after, s.toList = before ++ c :: after ∧
      (before.flatMap String.utf8EncodeChar).length = i := by
  have hsize : s.toUTF8.size = (s.toList.flatMap String.utf8EncodeChar).length := by
    rw [toUTF8_eq, ByteArray.size, List.data_toByteArray, List.size_toArray]
  refine exists_char_of_begins _ (hsize ▸ hi) ?_
  -- a boundary in front of the end begins the text, or a character
  obtain rfl | ⟨h0 | ⟨b, hb, hcont⟩, -⟩ := isBoundary_iff.mp h
  · exact absurd hi (Nat.lt_irrefl _)
  · exact .inl h0
  · refine .inr ⟨b, ?_, hcont⟩
    rw [← hb, toUTF8_eq, byteAt?_ofBytes]

/-- The bytes of a text around the character at a boundary, whose first byte says how many it takes. -/
theorem exists_bytes_of_isBoundary {s : String} {i : Nat} (h : isBoundary s.toUTF8 i = true)
    (hi : i < s.toUTF8.size) :
    ∃ (before : List UInt8) (lead : UInt8) (tail : List UInt8) (after : List Char), s.toUTF8 =
        (before ++ lead :: (tail ++ after.flatMap String.utf8EncodeChar)).toByteArray ∧
      before.length = i ∧ Lexer.charWidth s.toUTF8 i = tail.length + 1 ∧
      Leads lead (tail.length + 1) ∧ ∀ b ∈ tail, isContinuation b = true := by
  obtain ⟨before, c, after, hs, hlen⟩ := exists_char_of_isBoundary h hi
  obtain ⟨lead, tail, hc, hlead, htail⟩ := utf8EncodeChar_cases c
  have hbytes : s.toUTF8 = (before.flatMap String.utf8EncodeChar ++ lead :: (tail ++
      after.flatMap String.utf8EncodeChar)).toByteArray := by
    rw [toUTF8_eq, hs, List.flatMap_append, List.flatMap_cons, hc, List.cons_append]
  refine ⟨_, lead, tail, after, hbytes, hlen, ?_, hlead, htail⟩
  -- the width is read off the first byte of the character
  have hat : byteAt? s.toUTF8 i = some lead := by
    rw [hbytes, byteAt?_ofBytes, List.getElem?_append_right (Nat.le_of_eq hlen), hlen, Nat.sub_self]
    rfl
  unfold Lexer.charWidth
  simp only [hat, hlead.begins]
  have howes := hlead.owes
  cases hshape : Utf8.tailShape? lead with
  | none => simp [hshape] at howes
  | some shape =>
    obtain ⟨owed, lo, hi⟩ := shape
    simpa [hshape] using howes

/-- Where the character at a boundary ends there is a boundary again. -/
theorem isBoundary_add_charWidth {s : String} {i : Nat} (h : isBoundary s.toUTF8 i = true)
    (hi : i < s.toUTF8.size) :
    isBoundary s.toUTF8 (i + Lexer.charWidth s.toUTF8 i) = true := by
  obtain ⟨before, lead, tail, after, hbytes, hlen, hwidth, -⟩ := exists_bytes_of_isBoundary h hi
  have hsize : s.toUTF8.size = i + (tail.length + 1) +
      (after.flatMap String.utf8EncodeChar).length := by
    rw [hbytes, ByteArray.size, List.data_toByteArray, List.size_toArray, List.length_append, hlen,
      List.length_cons, List.length_append]
    omega
  rw [hwidth, isBoundary_iff]
  -- behind the last character is the end of the text
  cases after with
  | nil =>
    left
    rw [hsize]
    rfl
  | cons d rest =>
    obtain ⟨lead', tail', hd, hlead', -⟩ := utf8EncodeChar_cases d
    refine .inr ⟨.inr ⟨lead', ?_, hlead'.begins⟩, by omega⟩
    rw [hbytes, byteAt?_ofBytes, List.getElem?_append_right (by omega), hlen, Nat.add_sub_cancel_left,
      List.getElem?_cons_succ, List.getElem?_append_right (Nat.le_refl _), Nat.sub_self,
      List.flatMap_cons, hd]
    rfl

/-- Inside the character at a boundary there is none. -/
theorem not_isBoundary_inside {s : String} {i k : Nat} (h : isBoundary s.toUTF8 i = true)
    (hi : i < s.toUTF8.size) (hik : i < k) (hk : k < i + Lexer.charWidth s.toUTF8 i) :
    isBoundary s.toUTF8 k = false := by
  obtain ⟨before, lead, tail, after, hbytes, hlen, hwidth, -, htail⟩ :=
    exists_bytes_of_isBoundary h hi
  obtain ⟨d, rfl⟩ : ∃ d, k = i + (d + 1) := ⟨k - i - 1, by omega⟩
  have hlt : d < tail.length := by omega
  -- the byte in question is one of those that go on with the character
  have hat : byteAt? s.toUTF8 (i + (d + 1)) = some tail[d] := by
    rw [hbytes, byteAt?_ofBytes, List.getElem?_append_right (by omega), hlen,
      Nat.add_sub_cancel_left, List.getElem?_cons_succ, List.getElem?_append_left hlt,
      List.getElem?_eq_getElem hlt]
  rw [Bool.eq_false_iff]
  intro hb
  obtain hend | ⟨h0 | ⟨b, hb, hcont⟩, -⟩ := isBoundary_iff.mp hb
  · rw [hend, show byteAt? s.toUTF8 s.toUTF8.size = none from dif_neg (Nat.lt_irrefl _)] at hat
    cases hat
  · omega
  · cases hat.symm.trans hb
    rw [htail _ (List.getElem_mem hlt)] at hcont
    cases hcont

/-- A place that is no boundary is inside a character, where each byte is counted by itself. -/
theorem charWidth_inside {text : ByteArray} {i : Nat} (hi : i < text.size)
    (h : isBoundary text i = false) : Lexer.charWidth text i = 1 := by
  have hbyte : byteAt? text i = some text[i] := dif_pos hi
  -- a place that is no boundary holds a continuation byte
  have hcont : isContinuation text[i] = true := by
    cases hcont : isContinuation text[i] with
    | true => rfl
    | false =>
      rw [isBoundary_iff.mpr (.inr ⟨.inr ⟨_, hbyte, hcont⟩, Nat.le_of_lt hi⟩)] at h
      cases h
  unfold Lexer.charWidth
  rw [hbyte]
  simp only [hcont, if_true]

/-- A character of a text ends in the text. -/
theorem add_charWidth_le {s : String} {i : Nat} (h : i < s.toUTF8.size) :
    i + Lexer.charWidth s.toUTF8 i ≤ s.toUTF8.size := by
  cases hb : isBoundary s.toUTF8 i with
  | true => exact le_size_of_isBoundary (isBoundary_add_charWidth hb h)
  | false =>
    rw [charWidth_inside h hb]
    exact h

end IncrementalParsing
