import IncrementalParsing.Proofs.Text.Characters
import IncrementalParsing.Proofs.Text.Slices
import IncrementalParsing.Text.Edit

/-!
# Places of an edited text

`Edit.Replaces` says that an edit, with the three places it names, describes the change from one text
to another.  `Edit.move` is then what `Edit.map` does to the number of bytes of a place, and what the
texts have in common is the same there.

## Key results

- `replaces_splice`: a splice describes the change that it makes
- `map_before`: a place of the old text is mapped to a place of the new one
- `extract_move`: pieces before and after the edit have the same bytes afterwards
-/

namespace IncrementalParsing

namespace Length

/-- The place after the first `i` bytes of a text. -/
def before (text : ByteArray) (i : Nat) : Length := of (text.extract 0 i)

/-- Nothing is before the beginning of a text. -/
@[simp] theorem before_zero (text : ByteArray) : before text 0 = zero := by
  rw [before, ByteArray.extract_same, of_empty]

/-- Before a byte of the text there are as many bytes as its number says. -/
theorem bytes_before {text : ByteArray} {i : Nat} (h : i ≤ text.size) :
    (before text i).bytes = i := by
  rw [before, bytes_of_extract h, Nat.sub_zero]

/-- What is before a place is what is before an earlier one and what is between the two. -/
theorem before_add (text : ByteArray) {i j : Nat} (h : i ≤ j) :
    before text i + of (text.extract i j) = before text j :=
  of_extract_add text (Nat.zero_le i) h

/-- What lies between two places. -/
theorem before_sub (text : ByteArray) {i j : Nat} (h : i ≤ j) :
    before text j - before text i = of (text.extract i j) := by
  rw [← before_add text h, add_sub_cancel]

/-- Before the end is the whole text. -/
theorem before_size (text : ByteArray) : before text text.size = of text := by
  rw [before, ByteArray.extract_zero_size]

end Length

/-! ## Boundaries -/

/-- A character begins where the text begins. -/
@[simp] theorem isBoundary_zero (text : ByteArray) : isBoundary text 0 = true :=
  isBoundary_iff.mpr (.inr ⟨.inl rfl, Nat.zero_le _⟩)

/-- One could begin where the text ends. -/
@[simp] theorem isBoundary_size (text : ByteArray) : isBoundary text text.size = true :=
  isBoundary_iff.mpr (.inl rfl)

/-- Moving back to a boundary. -/
theorem floorBoundary_spec (text : ByteArray) (i : Nat) :
    isBoundary text (floorBoundary text i) = true ∧ floorBoundary text i ≤ i := by
  induction i with
  | zero => exact ⟨isBoundary_zero text, Nat.le_refl 0⟩
  | succ i ih =>
    rw [floorBoundary]
    split
    · rename_i h
      exact ⟨h, Nat.le_refl _⟩
    · exact ⟨ih.1, Nat.le_succ_of_le ih.2⟩

/-- Later places do not go back further. -/
theorem floorBoundary_mono (text : ByteArray) {i j : Nat} (h : i ≤ j) :
    floorBoundary text i ≤ floorBoundary text j := by
  induction j with
  | zero =>
    obtain rfl := Nat.le_zero.mp h
    exact Nat.le_refl _
  | succ j ih =>
    -- the place one further is its own boundary, or has that of the place before
    obtain rfl | hlt := Nat.eq_or_lt_of_le h
    · exact Nat.le_refl _
    · have hle := ih (Nat.le_of_lt_succ hlt)
      rw [floorBoundary.eq_2 text j]
      split
      · have := (floorBoundary_spec text i).2
        omega
      · exact hle

/-- The bytes of a part are those of the text. -/
theorem byteAt?_extract {text : ByteArray} {i j k : Nat} (h : i + k < j) (hj : j ≤ text.size) :
    byteAt? (text.extract i j) k = byteAt? text (i + k) := by
  unfold byteAt?
  have hsize : k < (text.extract i j).size := by
    rw [ByteArray.size_extract]
    omega
  rw [dif_pos hsize, dif_pos (Nat.lt_of_lt_of_le h hj), ByteArray.getElem_extract]

/-- In two texts one after the other the bytes of the first come first, -/
theorem byteAt?_append_left {a b : ByteArray} {i : Nat} (h : i < a.size) :
    byteAt? (a ++ b) i = byteAt? a i := by
  unfold byteAt?
  have hsize : i < (a ++ b).size := by
    rw [ByteArray.size_append]
    omega
  rw [dif_pos h, dif_pos hsize, ByteArray.getElem_append_left h]

/-- and those of the second behind them. -/
theorem byteAt?_append_right {a b : ByteArray} (i : Nat) :
    byteAt? (a ++ b) (a.size + i) = byteAt? b i := by
  unfold byteAt?
  by_cases h : i < b.size
  · have hsize : a.size + i < (a ++ b).size := by
      rw [ByteArray.size_append]
      omega
    rw [dif_pos h, dif_pos hsize, ByteArray.getElem_append_right (Nat.le_add_right _ _)]
    simp only [Nat.add_sub_cancel_left]
  · have hsize : ¬a.size + i < (a ++ b).size := by
      rw [ByteArray.size_append]
      omega
    rw [dif_neg h, dif_neg hsize]

/-- Where there is a byte, the text has not ended. -/
theorem lt_size_of_byteAt? {text : ByteArray} {i : Nat} {b : UInt8} (h : byteAt? text i = some b) :
    i < text.size := by
  unfold byteAt? at h
  split at h
  · assumption
  · cases h

/-- Whether a byte inside a text is at a boundary depends on the byte alone. -/
theorem isBoundary_congr {text text' : ByteArray} {i i' : Nat} (hi : 0 < i)
    (h : byteAt? text i = byteAt? text' i') (hb : isBoundary text i = true)
    (hsize : i ≠ text.size) : isBoundary text' i' = true := by
  obtain hend | ⟨h0 | ⟨b, hbyte, hcont⟩, -⟩ := isBoundary_iff.mp hb
  · exact absurd hend hsize
  · omega
  · rw [h] at hbyte
    exact isBoundary_iff.mpr (.inr ⟨.inr ⟨b, hbyte, hcont⟩, Nat.le_of_lt (lt_size_of_byteAt? hbyte)⟩)

/-- No byte that continues a character comes first. -/
def Begins (text : ByteArray) : Prop := ∀ b, byteAt? text 0 = some b → isContinuation b = false

/-- The encoding of a text begins with a character. -/
theorem begins_toUTF8 (s : String) : Begins s.toUTF8 := by
  intro b h
  obtain ⟨before, c, after, hs, hlen⟩ :=
    exists_char_of_isBoundary (isBoundary_zero s.toUTF8) (lt_size_of_byteAt? h)
  obtain ⟨lead, tail, hc, hlead, -⟩ := utf8EncodeChar_cases c
  -- the first byte is the first of the first character
  have hfirst : byteAt? s.toUTF8 0 = some lead := by
    rw [toUTF8_eq, byteAt?_ofBytes, hs, List.flatMap_append, List.eq_nil_of_length_eq_zero hlen,
      List.nil_append, List.flatMap_cons, hc]
    rfl
  rw [h] at hfirst
  cases hfirst
  exact hlead.begins

/-- From a boundary on no byte that continues a character comes first. -/
theorem begins_extract {text : ByteArray} {i : Nat} (ht : Begins text)
    (h : isBoundary text i = true) : Begins (text.extract i text.size) := by
  intro b hb
  have hlt := lt_size_of_byteAt? hb
  rw [ByteArray.size_extract] at hlt
  rw [byteAt?_extract (by omega) (Nat.le_refl _)] at hb
  -- the boundary is the end, the start, or in front of a byte that continues nothing
  obtain rfl | ⟨rfl | ⟨x, hx, hcont⟩, -⟩ := isBoundary_iff.mp h
  · omega
  · exact ht b hb
  · rw [Nat.add_zero, hx] at hb
    cases hb
    exact hcont

/-- So do two such texts together. -/
theorem begins_append {a b : ByteArray} (ha : Begins a) (hb : Begins b) : Begins (a ++ b) := by
  intro x hx
  by_cases h : 0 < a.size
  · rw [byteAt?_append_left h] at hx
    exact ha x hx
  · have hempty : a.size + 0 = 0 := by omega
    rw [← hempty, byteAt?_append_right] at hx
    exact hb x hx

/-- Where two texts meet there is a boundary. -/
theorem isBoundary_append {a b : ByteArray} (hb : Begins b) : isBoundary (a ++ b) a.size = true := by
  rw [isBoundary_iff, ByteArray.size_append]
  by_cases h : b.size = 0
  · left
    omega
  · right
    refine ⟨.inr ?_, by omega⟩
    have hlt : 0 < b.size := Nat.pos_of_ne_zero h
    have hfirst : byteAt? b 0 = some b[0] := dif_pos hlt
    refine ⟨b[0], ?_, hb _ hfirst⟩
    rw [← hfirst, ← byteAt?_append_right (a := a) 0, Nat.add_zero]

namespace Edit

/-- An edit turns one text into another. -/
structure Replaces (e : Edit) (text text' : ByteArray) : Prop where
  start_boundary : isBoundary text e.startByte = true
  oldEnd_boundary : isBoundary text e.oldEndByte = true
  start_boundary' : isBoundary text' e.startByte = true
  newEnd_boundary : isBoundary text' e.newEndByte = true
  start_le : e.startByte ≤ e.oldEndByte
  start_le' : e.startByte ≤ e.newEndByte
  size_eq : e.oldEndByte + text'.size = e.newEndByte + text.size
  start_eq : e.start = .before text e.startByte
  oldEnd_eq : e.oldEnd = .before text e.oldEndByte
  newEnd_eq : e.newEnd = .before text' e.newEndByte
  before_eq : text'.extract 0 e.startByte = text.extract 0 e.startByte
  after_eq : text'.extract e.newEndByte text'.size = text.extract e.oldEndByte text.size

variable {e : Edit} {text text' : ByteArray}

/-- The three places of an edit are read back. -/
theorem start_ofLengths (a b c : Length) : (ofLengths a b c).start = a := rfl
/-- This is where the replaced text ended, -/
theorem oldEnd_ofLengths (a b c : Length) : (ofLengths a b c).oldEnd = b := rfl
/-- and where the new text ends. -/
theorem newEnd_ofLengths (a b c : Length) : (ofLengths a b c).newEnd = c := rfl

/-- A splice describes the change that it makes. -/
theorem replaces_splice (s r : String) (start stop : Nat) :
    (splice s.toUTF8 start stop r.toUTF8).Replaces s.toUTF8
      ((splice s.toUTF8 start stop r.toUTF8).apply s.toUTF8 r.toUTF8) := by
  generalize htext : s.toUTF8 = text
  have hbegins : Begins text := htext ▸ begins_toUTF8 s
  -- both ends are pulled back to boundaries before anything is cut
  generalize hi : floorBoundary text (min start text.size) = i
  generalize hj : floorBoundary text (min (max stop start) text.size) = j
  have hile : i ≤ j := by
    rw [← hi, ← hj]
    exact floorBoundary_mono text (by omega)
  have hib : isBoundary text i = true := hi ▸ (floorBoundary_spec text _).1
  have hjb : isBoundary text j = true := hj ▸ (floorBoundary_spec text _).1
  have hjsize : j ≤ text.size := le_size_of_isBoundary hjb
  have hsplice : splice text start stop r.toUTF8 =
      ofLengths (.before text i) (.before text j) (.before text i + .of r.toUTF8) := by
    rw [splice, Length.place, Length.place, hi, hj]
    rfl
  have hstart : (Length.before text i).bytes = i := Length.bytes_before (by omega)
  have hstop : (Length.before text j).bytes = j := Length.bytes_before hjsize
  rw [hsplice]
  -- the new text is what was before, the text put in, and what was after
  have happly : (ofLengths (.before text i) (.before text j)
      (.before text i + .of r.toUTF8)).apply text r.toUTF8 =
      text.extract 0 i ++ r.toUTF8 ++ text.extract j text.size := by
    simp only [apply, ofLengths, hstart, hstop]
  rw [happly]
  have hasize : (text.extract 0 i).size = i := by
    rw [ByteArray.size_extract]
    omega
  have hbsize : (text.extract j text.size).size = text.size - j := by
    rw [ByteArray.size_extract]
    omega
  have hbb := begins_extract hbegins hjb
  have hnew : i + r.toUTF8.size = (text.extract 0 i ++ r.toUTF8).size := by
    rw [ByteArray.size_append, hasize]
  constructor
  · simpa only [ofLengths, hstart] using hib
  · simpa only [ofLengths, hstop] using hjb
  -- the first byte put in, or else the first byte behind, begins a character
  · simp only [ofLengths, hstart]
    rw [ByteArray.append_assoc]
    have := isBoundary_append (a := text.extract 0 i) (begins_append (begins_toUTF8 r) hbb)
    rwa [hasize] at this
  · simp only [ofLengths, hstart, Length.bytes_add, Length.bytes_of]
    rw [hnew]
    exact isBoundary_append hbb
  · simpa only [ofLengths, hstart, hstop] using hile
  · simp only [ofLengths, hstart, Length.bytes_add]
    omega
  · simp only [ofLengths, hstart, hstop, Length.bytes_add, Length.bytes_of, ByteArray.size_append,
      hasize, hbsize]
    omega
  · rw [start_ofLengths]
    simp only [ofLengths, hstart]
  · rw [oldEnd_ofLengths]
    simp only [ofLengths, hstop]
  · rw [newEnd_ofLengths]
    simp only [ofLengths, Length.bytes_add, hstart, Length.bytes_of]
    rw [hnew, Length.before, Length.before, ← Length.of_append,
      ByteArray.extract_append_eq_left (a := text.extract 0 i ++ r.toUTF8) rfl]
  · simp only [ofLengths, hstart]
    rw [ByteArray.append_assoc]
    exact ByteArray.extract_append_eq_left hasize.symm
  · simp only [ofLengths, Length.bytes_add, hstart, hstop, Length.bytes_of]
    rw [hnew]
    exact ByteArray.extract_append_eq_right rfl (ByteArray.size_append ..)

/-! ## Moving places -/

/-- Where the place after `i` bytes lies afterwards. -/
def move (e : Edit) (i : Nat) : Nat :=
  if i ≤ e.startByte then i
  else if e.oldEndByte ≤ i then e.newEndByte + (i - e.oldEndByte)
  else e.newEndByte

/-- A place at or before the start of an edit stays. -/
theorem move_of_le {i : Nat} (h : i ≤ e.startByte) : e.move i = i := if_pos h

/-- One behind the replaced text moves with what follows. -/
theorem move_of_ge {i : Nat} (hs : e.startByte < i) (h : e.oldEndByte ≤ i) :
    e.move i = e.newEndByte + (i - e.oldEndByte) := by
  rw [move, if_neg (Nat.not_le.mpr hs), if_pos h]

/-- The beginning of the text stays. -/
@[simp] theorem move_zero : e.move 0 = 0 := move_of_le (Nat.zero_le _)

/-- An edit keeps the order of places. -/
theorem Replaces.move_mono (h : e.Replaces text text') {i j : Nat} (hij : i ≤ j) :
    e.move i ≤ e.move j := by
  have := h.start_le
  have := h.start_le'
  unfold move
  repeat' split
  all_goals omega

/-- It moves places of the old text to places of the new one. -/
theorem Replaces.move_le_size (h : e.Replaces text text') {i : Nat} (hi : i ≤ text.size) :
    e.move i ≤ text'.size := by
  have := h.size_eq
  have := le_size_of_isBoundary h.start_boundary'
  have := le_size_of_isBoundary h.newEnd_boundary
  unfold move
  split
  · omega
  · split <;> omega

/-- Before the edit the bytes stay. -/
theorem Replaces.extract_before (h : e.Replaces text text') {i j : Nat} (hj : j ≤ e.startByte) :
    text'.extract i j = text.extract i j := by
  have hboth := congrArg (fun b => ByteArray.extract b i j) h.before_eq
  simpa [ByteArray.extract_extract, Nat.min_eq_left hj] using hboth

/-- After the edit the bytes move along. -/
theorem Replaces.extract_after (h : e.Replaces text text') {i j : Nat} (hi : e.oldEndByte ≤ i)
    (hij : i ≤ j) (hj : j ≤ text.size) :
    text'.extract (e.newEndByte + (i - e.oldEndByte)) (e.newEndByte + (j - e.oldEndByte)) =
      text.extract i j := by
  have hsize := h.size_eq
  have hboth := congrArg
    (fun b => ByteArray.extract b (i - e.oldEndByte) (j - e.oldEndByte)) h.after_eq
  simp only [ByteArray.extract_extract] at hboth
  rw [Nat.min_eq_left (by omega), Nat.min_eq_left (by omega)] at hboth
  rw [hboth]
  congr 1 <;> omega

/-- A place of the old text is mapped to a place of the new one. -/
theorem Replaces.map_before (h : e.Replaces text text') {i : Nat} (hi : i ≤ text.size) :
    e.map (.before text i) = .before text' (e.move i) := by
  unfold map move
  rw [Length.bytes_before hi]
  split
  · rename_i hs
    rw [Length.before, Length.before, h.extract_before hs]
  · split
    -- behind the edit the distance from its end is kept
    · rename_i hs ho
      rw [h.newEnd_eq, h.oldEnd_eq, Length.before_sub text ho,
        ← Length.before_add text' (Nat.le_add_right e.newEndByte (i - e.oldEndByte)),
        ← h.extract_after (Nat.le_refl _) ho hi, Nat.sub_self, Nat.add_zero]
    · exact h.newEnd_eq

/-- Texts that agree in a part begin that part with the same byte. -/
theorem byteAt?_eq_of_extract {i j k l : Nat} (h : text'.extract i j = text.extract k l) (hij : i < j)
    (hj : j ≤ text'.size) (hkl : k < l) (hl : l ≤ text.size) :
    byteAt? text' i = byteAt? text k := by
  have hbyte := congrArg (fun b => byteAt? b 0) h
  rwa [byteAt?_extract (by omega) hj, byteAt?_extract (by omega) hl] at hbyte

/-- A boundary of the old text is moved to a boundary of the new one. -/
theorem Replaces.isBoundary_move (h : e.Replaces text text') {i : Nat}
    (hi : isBoundary text i = true) : isBoundary text' (e.move i) = true := by
  have hsize := h.size_eq
  have hle := le_size_of_isBoundary hi
  unfold move
  split
  -- before the change nothing moves, and the byte there is the same
  · rename_i hs
    obtain rfl | hlt := Nat.eq_or_lt_of_le hs
    · exact h.start_boundary'
    · obtain rfl | hpos := Nat.eq_zero_or_pos i
      · exact isBoundary_zero _
      · have := le_size_of_isBoundary h.start_boundary
        have := le_size_of_isBoundary h.start_boundary'
        have hbytes := h.extract_before (i := i) (Nat.le_refl e.startByte)
        exact isBoundary_congr hpos (byteAt?_eq_of_extract hbytes hlt (by omega) hlt
          (by omega)).symm hi (by omega)
  · split
    -- behind the change all moves by the same amount
    · rename_i hs ho
      obtain rfl | hlt := Nat.eq_or_lt_of_le ho
      · rw [Nat.sub_self, Nat.add_zero]
        exact h.newEnd_boundary
      · by_cases hend : i = text.size
        · exact isBoundary_iff.mpr (.inl (by omega))
        · have hbytes := h.extract_after ho hle (Nat.le_refl _)
          exact isBoundary_congr (by omega) (byteAt?_eq_of_extract hbytes (by omega)
            (by omega) (by omega) (Nat.le_refl _)).symm hi (by omega)
    -- inside the change everything goes to where the new text ends
    · exact h.newEnd_boundary

end Edit

end IncrementalParsing
