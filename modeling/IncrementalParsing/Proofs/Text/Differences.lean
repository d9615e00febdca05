import IncrementalParsing.Proofs.Text.Edits

/-!
# The smallest edit between two texts

`Edit.diff` replaces what lies between the common beginning of two texts and the common end of the rest.
Bytes are compared, and characters can have bytes in common, so what is common is cut back to boundaries:
no more than that is lost, and the beginning comes to a boundary of both texts although it is cut back
in only one of them.

## Key results

- `commonPrefix_spec`, `commonSuffix_spec`: how many bytes agree
- `isBoundary_of_extract_eq`: texts that begin alike have the same boundaries there
- `Edit.clamps_splice`: where a splice begins and ends
- `Edit.diff_spec`: the difference of two texts is a splice that leads from one to the other, and no
  smaller part could be replaced
-/

namespace IncrementalParsing

/-! ## Boundaries -/

/-- Moving back stops at the last boundary. -/
theorem le_floorBoundary {text : ByteArray} {i n : Nat} (hb : isBoundary text i = true) (h : i ≤ n) :
    i ≤ floorBoundary text n := by
  refine Nat.le_trans ?_ (floorBoundary_mono text h)
  cases i with
  | zero => exact Nat.zero_le _
  | succ i =>
    have hself : floorBoundary text (i + 1) = i + 1 := by
      rw [floorBoundary, if_pos hb]
    exact Nat.le_of_eq hself.symm

/-- A boundary stays where it is. -/
theorem floorBoundary_of_isBoundary {text : ByteArray} {i : Nat} (h : isBoundary text i = true) :
    floorBoundary text i = i :=
  Nat.le_antisymm (floorBoundary_spec text i).2 (le_floorBoundary h (Nat.le_refl i))

/-- Pieces are the same if their bytes are. -/
theorem extract_eq_iff {a b : ByteArray} {i j n : Nat} (ha : i + n ≤ a.size) (hb : j + n ≤ b.size) :
    a.extract i (i + n) = b.extract j (j + n) ↔ ∀ k < n, byteAt? a (i + k) = byteAt? b (j + k) := by
  constructor
  · intro h k hk
    -- the pieces agree when their bytes do
    have hbyte := congrArg (fun piece => byteAt? piece k) h
    rwa [byteAt?_extract (by omega) ha, byteAt?_extract (by omega) hb] at hbyte
  · intro h
    refine ByteArray.ext_getElem ?_ fun k hk hk' => ?_
    · rw [ByteArray.size_extract, ByteArray.size_extract]
      omega
    · rw [ByteArray.size_extract] at hk
      have hbyte := h k (by omega)
      rw [byteAt?, byteAt?, dif_pos (by omega), dif_pos (by omega), Option.some.injEq] at hbyte
      rw [ByteArray.getElem_extract, ByteArray.getElem_extract]
      exact hbyte

/-- Texts that begin with the same bytes have the same boundaries there: the last character that begins
in them takes as many bytes in both. -/
theorem isBoundary_of_extract_eq {s t : String} {i : Nat}
    (h : s.toUTF8.extract 0 i = t.toUTF8.extract 0 i) (hs : isBoundary s.toUTF8 i = true)
    (ht : i ≤ t.toUTF8.size) : isBoundary t.toUTF8 i = true := by
  have hbytes : ∀ k < i, byteAt? s.toUTF8 k = byteAt? t.toUTF8 k := by
    have hiff := extract_eq_iff (a := s.toUTF8) (b := t.toUTF8) (i := 0) (j := 0) (n := i)
      (by have := le_size_of_isBoundary hs; omega) (by omega)
    simp only [Nat.zero_add] at hiff
    exact hiff.mp h
  obtain ⟨hfloor, hle⟩ := floorBoundary_spec t.toUTF8 i
  generalize hq : floorBoundary t.toUTF8 i = q at hfloor hle
  obtain rfl | hlt := Nat.eq_or_lt_of_le hle
  · exact hfloor
  -- else a character of `t` goes on at `i`; the same one would go on there in `s`
  exfalso
  have hqt : q < t.toUTF8.size := by omega
  have hqs : q < s.toUTF8.size := by
    have := le_size_of_isBoundary hs
    omega
  have hsame := hbytes q hlt
  have hqb : isBoundary s.toUTF8 q = true := by
    obtain rfl | hpos := Nat.eq_zero_or_pos q
    · exact isBoundary_zero _
    · exact isBoundary_congr hpos hsame.symm hfloor (Nat.ne_of_lt hqt)
  have hwidth : Lexer.charWidth s.toUTF8 q = Lexer.charWidth t.toUTF8 q := by
    rw [Lexer.charWidth, Lexer.charWidth, hsame]
  have hnext := isBoundary_add_charWidth hfloor hqt
  obtain ⟨_, _, tail, _, -, -, hpos, -⟩ := exists_bytes_of_isBoundary hfloor hqt
  have hbeyond : i < q + Lexer.charWidth t.toUTF8 q := Nat.lt_of_not_le fun hle => by
    have := le_floorBoundary hnext hle
    omega
  have hinside := not_isBoundary_inside hqb hqs hlt (hwidth ▸ hbeyond)
  rw [hs] at hinside
  cases hinside

/-- What lies between two boundaries of a text is a text. -/
theorem exists_text_between {s : String} {i j : Nat} (hi : isBoundary s.toUTF8 i = true)
    (hj : isBoundary s.toUTF8 j = true) (hij : i ≤ j) :
    ∃ middle : String, middle.toUTF8 = s.toUTF8.extract i j := by
  have hsize : s.toUTF8.size = (s.toList.flatMap String.utf8EncodeChar).length := by
    rw [toUTF8_eq, ByteArray.size, List.data_toByteArray, List.size_toArray]
  -- a text up to a boundary is made of its first characters
  have hfront : ∀ k, isBoundary s.toUTF8 k = true → ∃ front back : List Char,
      s.toList = front ++ back ∧ (front.flatMap String.utf8EncodeChar).length = k := by
    intro k hk
    obtain heq | hlt := Nat.eq_or_lt_of_le (le_size_of_isBoundary hk)
    · exact ⟨s.toList, [], (List.append_nil _).symm, heq ▸ hsize.symm⟩
    · obtain ⟨front, c, back, hs, hlength⟩ := exists_char_of_isBoundary hk hlt
      exact ⟨front, c :: back, hs, hlength⟩
  obtain ⟨front, back, hs, hfrontLength⟩ := hfront i hi
  obtain ⟨front', back', hs', hfrontLength'⟩ := hfront j hj
  obtain ⟨middle, rfl⟩ : ∃ middle, front' = front ++ middle := by
    obtain ⟨middle, rfl, -⟩ | ⟨middle, rfl, -⟩ := List.append_eq_append_iff.mp (hs.symm.trans hs')
    · exact ⟨middle, rfl⟩
    · rw [List.flatMap_append, List.length_append] at hfrontLength
      have hnil : (middle.flatMap String.utf8EncodeChar).length = 0 := by omega
      refine ⟨[], ?_⟩
      -- a character takes at least one byte
      match middle with
      | [] => simp
      | c :: rest =>
        obtain ⟨lead, tail, hc, -⟩ := utf8EncodeChar_cases c
        rw [List.flatMap_cons, hc] at hnil
        cases hnil
  refine ⟨String.ofList middle, ?_⟩
  rw [toUTF8_eq, toUTF8_eq, hs', String.toList_ofList]
  rw [List.flatMap_append, List.length_append] at hfrontLength'
  simp only [List.flatMap_append]
  generalize front.flatMap String.utf8EncodeChar = a at hfrontLength hfrontLength' ⊢
  generalize middle.flatMap String.utf8EncodeChar = b at hfrontLength' ⊢
  generalize back'.flatMap String.utf8EncodeChar = c
  have ha : a.toByteArray.size = i := by rw [List.size_toByteArray, hfrontLength]
  have hab : (a.toByteArray ++ b.toByteArray).size = j := by
    rw [ByteArray.size_append, List.size_toByteArray, List.size_toByteArray, hfrontLength']
  rw [List.toByteArray_append, List.toByteArray_append, ByteArray.extract_append,
    ByteArray.extract_append_eq_right ha.symm (by rw [← ByteArray.size_append, hab]), hab,
    Nat.sub_eq_zero_of_le hij, Nat.sub_self, ByteArray.extract_same, ByteArray.append_empty]

namespace Edit

/-! ## What two texts have in common -/

/-- The bytes that a common beginning is found to have agree, and behind them the texts differ or one of
them ends. -/
theorem commonPrefix_spec {a b : ByteArray} {fuel i : Nat} (ha : i + fuel ≤ a.size)
    (hb : i + fuel ≤ b.size) :
    i ≤ commonPrefix a b fuel i ∧ commonPrefix a b fuel i ≤ i + fuel ∧
      (∀ k, i ≤ k → k < commonPrefix a b fuel i → byteAt? a k = byteAt? b k) ∧
      (commonPrefix a b fuel i < i + fuel →
        byteAt? a (commonPrefix a b fuel i) ≠ byteAt? b (commonPrefix a b fuel i)) := by
  -- the induction is on how many bytes are left to compare
  induction fuel generalizing i with
  | zero =>
    rw [commonPrefix]
    exact ⟨Nat.le_refl i, Nat.le_refl i, fun k _ _ => by omega, fun h => absurd h (Nat.lt_irrefl i)⟩
  | succ fuel ih =>
    have hat : byteAt? a i = some a[i] := dif_pos (by omega)
    have hbt : byteAt? b i = some b[i] := dif_pos (by omega)
    rw [commonPrefix, hat, hbt]
    dsimp only
    split
    · rename_i hsame
      obtain ⟨hle, hup, hagree, hdiffer⟩ := ih (i := i + 1) (by omega) (by omega)
      refine ⟨by omega, by omega, fun k hik hk => ?_, fun h => hdiffer (by omega)⟩
      obtain rfl | hlt := Nat.eq_or_lt_of_le hik
      · rw [hat, hbt, hsame]
      · exact hagree k hlt hk
    · rename_i hdiffer
      refine ⟨Nat.le_refl i, by omega, fun k _ _ => by omega, fun _ hsame => hdiffer ?_⟩
      rw [hat, hbt, Option.some.injEq] at hsame
      exact hsame

/-- The bytes that a common end is found to have agree, and before them the texts differ or there is none
left to compare. -/
theorem commonSuffix_spec {a b : ByteArray} {limit n : Nat} (ha : n + limit ≤ a.size)
    (hb : n + limit ≤ b.size) :
    n ≤ commonSuffix a b limit n ∧ commonSuffix a b limit n ≤ n + limit ∧
      (∀ k, n ≤ k → k < commonSuffix a b limit n →
        byteAt? a (a.size - 1 - k) = byteAt? b (b.size - 1 - k)) ∧
      (commonSuffix a b limit n < n + limit → byteAt? a (a.size - 1 - commonSuffix a b limit n) ≠
        byteAt? b (b.size - 1 - commonSuffix a b limit n)) := by
  -- the induction is on how many bytes are left to compare
  induction limit generalizing n with
  | zero =>
    rw [commonSuffix]
    exact ⟨Nat.le_refl n, Nat.le_refl n, fun k _ _ => by omega, fun h => absurd h (Nat.lt_irrefl n)⟩
  | succ limit ih =>
    have hat : byteAt? a (a.size - 1 - n) = some a[a.size - 1 - n] := dif_pos (by omega)
    have hbt : byteAt? b (b.size - 1 - n) = some b[b.size - 1 - n] := dif_pos (by omega)
    rw [commonSuffix, hat, hbt]
    dsimp only
    split
    · rename_i hsame
      obtain ⟨hle, hup, hagree, hdiffer⟩ := ih (n := n + 1) (by omega) (by omega)
      refine ⟨by omega, by omega, fun k hnk hk => ?_, fun h => hdiffer (by omega)⟩
      obtain rfl | hlt := Nat.eq_or_lt_of_le hnk
      · rw [hat, hbt, hsame]
      · exact hagree k hlt hk
    · rename_i hdiffer
      refine ⟨Nat.le_refl n, by omega, fun k _ _ => by omega, fun _ hsame => hdiffer ?_⟩
      rw [hat, hbt, Option.some.injEq] at hsame
      exact hsame

/-- Cutting back a common end stops at the last place that is a boundary of both texts. -/
theorem floorSuffix_spec (a b : ByteArray) (n : Nat) :
    floorSuffix a b n ≤ n ∧ isBoundary a (a.size - floorSuffix a b n) = true ∧
      isBoundary b (b.size - floorSuffix a b n) = true ∧
      ∀ k ≤ n, isBoundary a (a.size - k) = true → isBoundary b (b.size - k) = true →
        k ≤ floorSuffix a b n := by
  -- the induction is on the length, which is lowered until both texts have a boundary there
  induction n with
  | zero => exact ⟨Nat.le_refl 0, isBoundary_size a, isBoundary_size b, fun k hk _ _ => hk⟩
  | succ n ih =>
    rw [floorSuffix]
    split
    · rename_i hboth
      obtain ⟨ha, hb⟩ := Bool.and_eq_true_iff.mp hboth
      exact ⟨Nat.le_refl _, ha, hb, fun k hk _ _ => hk⟩
    · rename_i hnot
      obtain ⟨hle, ha, hb, hlast⟩ := ih
      refine ⟨Nat.le_succ_of_le hle, ha, hb, fun k hk hka hkb => ?_⟩
      obtain rfl | hlt := Nat.eq_or_lt_of_le hk
      · exact absurd (Bool.and_eq_true_iff.mpr ⟨hka, hkb⟩) hnot
      · exact hlast k (Nat.le_of_lt_succ hlt) hka hkb

/-- What a difference leaves alone at the beginning is common to both texts and ends at a boundary of
both, and there is no longer piece of this kind. -/
theorem head_spec (s t : String) :
    isBoundary s.toUTF8 (head s.toUTF8 t.toUTF8) = true ∧
      isBoundary t.toUTF8 (head s.toUTF8 t.toUTF8) = true ∧
      s.toUTF8.extract 0 (head s.toUTF8 t.toUTF8) = t.toUTF8.extract 0 (head s.toUTF8 t.toUTF8) ∧
      ∀ i, isBoundary s.toUTF8 i = true → isBoundary t.toUTF8 i = true →
        s.toUTF8.extract 0 i = t.toUTF8.extract 0 i → i ≤ head s.toUTF8 t.toUTF8 := by
  obtain ⟨-, hle, hagree, hdiffer⟩ :=
    @commonPrefix_spec s.toUTF8 t.toUTF8 (min s.toUTF8.size t.toUTF8.size) 0 (by omega) (by omega)
  have hiff := fun i (hi : i ≤ min s.toUTF8.size t.toUTF8.size) =>
    extract_eq_iff (a := s.toUTF8) (b := t.toUTF8) (i := 0) (j := 0) (n := i) (by omega) (by omega)
  simp only [Nat.zero_add] at hiff
  unfold head
  generalize commonPrefix s.toUTF8 t.toUTF8 (min s.toUTF8.size t.toUTF8.size) 0 = n
    at hle hagree hdiffer ⊢
  obtain ⟨hfloor, hfloorLe⟩ := floorBoundary_spec s.toUTF8 n
  have hsame := (hiff (floorBoundary s.toUTF8 n) (by omega)).mpr fun k hk =>
    hagree k (Nat.zero_le k) (by omega)
  refine ⟨hfloor, isBoundary_of_extract_eq hsame hfloor (by omega), hsame, fun i hs ht hi => ?_⟩
  have hsLe := le_size_of_isBoundary hs
  have htLe := le_size_of_isBoundary ht
  -- a longer common beginning would agree where the two texts first differ
  refine le_floorBoundary hs (Nat.le_of_not_lt fun hlt => ?_)
  exact hdiffer (by omega) ((hiff i (by omega)).mp hi n hlt)

/-- What a difference leaves alone at the end is common to the rests of both texts and begins at a
boundary of both, and there is no longer piece of this kind. -/
theorem tail_spec (s t : String) :
    head s.toUTF8 t.toUTF8 + tail s.toUTF8 t.toUTF8 ≤ min s.toUTF8.size t.toUTF8.size ∧
      isBoundary s.toUTF8 (s.toUTF8.size - tail s.toUTF8 t.toUTF8) = true ∧
      isBoundary t.toUTF8 (t.toUTF8.size - tail s.toUTF8 t.toUTF8) = true ∧
      s.toUTF8.extract (s.toUTF8.size - tail s.toUTF8 t.toUTF8) s.toUTF8.size =
        t.toUTF8.extract (t.toUTF8.size - tail s.toUTF8 t.toUTF8) t.toUTF8.size ∧
      ∀ n, head s.toUTF8 t.toUTF8 + n ≤ min s.toUTF8.size t.toUTF8.size →
        isBoundary s.toUTF8 (s.toUTF8.size - n) = true →
        isBoundary t.toUTF8 (t.toUTF8.size - n) = true →
        s.toUTF8.extract (s.toUTF8.size - n) s.toUTF8.size =
          t.toUTF8.extract (t.toUTF8.size - n) t.toUTF8.size →
        n ≤ tail s.toUTF8 t.toUTF8 := by
  obtain ⟨hs, ht, -, -⟩ := head_spec s t
  have hsLe := le_size_of_isBoundary hs
  have htLe := le_size_of_isBoundary ht
  unfold tail
  generalize s.toUTF8 = a at *
  generalize t.toUTF8 = b at *
  generalize head a b = i at *
  obtain ⟨-, hle, hagree, hdiffer⟩ :=
    @commonSuffix_spec a b (min a.size b.size - i) 0 (by omega) (by omega)
  -- the bytes are counted from the end, where a piece of `n` bytes begins `n` before it
  have hiff : ∀ n ≤ min a.size b.size,
      (a.extract (a.size - n) a.size = b.extract (b.size - n) b.size ↔
        ∀ k < n, byteAt? a (a.size - 1 - k) = byteAt? b (b.size - 1 - k)) := by
    intro n hn
    have h := extract_eq_iff (a := a) (b := b) (i := a.size - n) (j := b.size - n) (n := n)
      (by omega) (by omega)
    rw [Nat.sub_add_cancel (by omega), Nat.sub_add_cancel (by omega)] at h
    rw [h]
    constructor
    · intro h k hk
      have hbyte := h (n - 1 - k) (by omega)
      rwa [show a.size - n + (n - 1 - k) = a.size - 1 - k by omega,
        show b.size - n + (n - 1 - k) = b.size - 1 - k by omega] at hbyte
    · intro h k hk
      have hbyte := h (n - 1 - k) (by omega)
      rwa [show a.size - 1 - (n - 1 - k) = a.size - n + k by omega,
        show b.size - 1 - (n - 1 - k) = b.size - n + k by omega] at hbyte
  generalize commonSuffix a b (min a.size b.size - i) 0 = n at hle hagree hdiffer ⊢
  obtain ⟨hfloorLe, ha, hb, hlast⟩ := floorSuffix_spec a b n
  refine ⟨by omega, ha, hb, (hiff _ (by omega)).mpr fun k hk => hagree k (Nat.zero_le k) (by omega),
    fun m hm hma hmb hsame => hlast m (Nat.le_of_not_lt fun hlt => ?_) hma hmb⟩
  exact hdiffer (by omega) ((hiff m (by omega)).mp hsame n hlt)

/-! ## Differences as splices -/

/-- No smaller part of the text could have been replaced: the texts have no longer common beginning, and
no longer common end behind that, which comes to boundaries of both. -/
structure IsSmallest (e : Edit) (old new : ByteArray) : Prop where
  beginning : ∀ i, isBoundary old i = true → isBoundary new i = true →
    old.extract 0 i = new.extract 0 i → i ≤ e.startByte
  ending : ∀ n, e.startByte + n ≤ min old.size new.size → isBoundary old (old.size - n) = true →
    isBoundary new (new.size - n) = true →
    old.extract (old.size - n) old.size = new.extract (new.size - n) new.size →
    e.oldEndByte + n ≤ old.size ∧ e.newEndByte + n ≤ new.size

/-- A splice begins and ends at the last boundaries up to the places that are asked for; it ends where it
begins if it is asked to end before. -/
structure Clamps (e : Edit) (text : ByteArray) (start stop : Nat) : Prop where
  start_le : e.startByte ≤ start
  stop_le : e.oldEndByte ≤ max stop start
  start_last : ∀ i, isBoundary text i = true → i ≤ start → i ≤ e.startByte
  stop_last : ∀ i, isBoundary text i = true → i ≤ max stop start → i ≤ e.oldEndByte

theorem bytes_place (text : ByteArray) (i : Nat) :
    (Length.place text i).bytes = floorBoundary text (min i text.size) := by
  have hle := le_size_of_isBoundary (floorBoundary_spec text (min i text.size)).1
  exact Length.bytes_before hle

theorem place_of_isBoundary {text : ByteArray} {i : Nat} (h : isBoundary text i = true) :
    Length.place text i = .before text i := by
  rw [Length.place, Nat.min_eq_left (le_size_of_isBoundary h), floorBoundary_of_isBoundary h,
    Length.before]

theorem clamps_splice (text replacement : ByteArray) (start stop : Nat) :
    (splice text start stop replacement).Clamps text start stop := by
  -- each place is moved back to the last boundary that does not lie behind it
  have hplace : ∀ i, floorBoundary text (min i text.size) ≤ i ∧
      ∀ k, isBoundary text k = true → k ≤ i → k ≤ floorBoundary text (min i text.size) := by
    intro i
    refine ⟨?_, fun k hk hki => le_floorBoundary hk (Nat.le_min.mpr ⟨hki, le_size_of_isBoundary hk⟩)⟩
    have := (floorBoundary_spec text (min i text.size)).2
    omega
  constructor
  all_goals simp only [splice, ofLengths, bytes_place]
  · exact (hplace start).1
  · exact (hplace _).1
  · exact (hplace start).2
  · exact (hplace _).2

/-- Between two texts, what lies between their common beginning and their common end is replaced. -/
theorem diff_eq (s t : String) :
    diff s.toUTF8 t.toUTF8 = ofLengths (.before s.toUTF8 (head s.toUTF8 t.toUTF8))
      (.before s.toUTF8 (s.toUTF8.size - tail s.toUTF8 t.toUTF8))
      (.before t.toUTF8 (t.toUTF8.size - tail s.toUTF8 t.toUTF8)) := by
  obtain ⟨-, hs, ht, -, -⟩ := tail_spec s t
  rw [← place_of_isBoundary (head_spec s t).1, ← place_of_isBoundary hs, ← place_of_isBoundary ht]
  rfl

/-- The difference of two texts is the splice that replaces, between boundaries of characters, a piece of
the old text by a piece of the new one.  It leads from one text to the other, and no smaller piece could
be replaced. -/
theorem diff_spec (old new : String) :
    (diff old.toUTF8 new.toUTF8).Replaces old.toUTF8 new.toUTF8 ∧
      (diff old.toUTF8 new.toUTF8).IsSmallest old.toUTF8 new.toUTF8 ∧
      ∃ middle : String,
        middle.toUTF8 = new.toUTF8.extract (diff old.toUTF8 new.toUTF8).startByte
          (diff old.toUTF8 new.toUTF8).newEndByte ∧
        (diff old.toUTF8 new.toUTF8).apply old.toUTF8 middle.toUTF8 = new.toUTF8 ∧
        diff old.toUTF8 new.toUTF8 = splice old.toUTF8 (diff old.toUTF8 new.toUTF8).startByte
          (diff old.toUTF8 new.toUTF8).oldEndByte middle.toUTF8 := by
  obtain ⟨hhead, hhead', hbegin, hfirst⟩ := head_spec old new
  obtain ⟨hle, htail, htail', hend, hlast⟩ := tail_spec old new
  have hdiff := diff_eq old new
  generalize head old.toUTF8 new.toUTF8 = i at *
  generalize tail old.toUTF8 new.toUTF8 = n at *
  have hstart : (diff old.toUTF8 new.toUTF8).startByte = i := by
    rw [hdiff]
    exact Length.bytes_before (le_size_of_isBoundary hhead)
  have hstop : (diff old.toUTF8 new.toUTF8).oldEndByte = old.toUTF8.size - n := by
    rw [hdiff]
    exact Length.bytes_before (le_size_of_isBoundary htail)
  have hnew : (diff old.toUTF8 new.toUTF8).newEndByte = new.toUTF8.size - n := by
    rw [hdiff]
    exact Length.bytes_before (le_size_of_isBoundary htail')
  obtain ⟨middle, hmiddle⟩ := exists_text_between hhead' htail' (by omega)
  -- the place where the new piece ends is the same whether it is found in the new text or added up
  have hsplice : diff old.toUTF8 new.toUTF8 =
      splice old.toUTF8 i (old.toUTF8.size - n) middle.toUTF8 := by
    rw [hdiff, splice, Nat.max_eq_left (by omega), place_of_isBoundary hhead, place_of_isBoundary htail,
      hmiddle, Length.before, hbegin, ← Length.before, Length.before_add _ (by omega)]
  have happly : (diff old.toUTF8 new.toUTF8).apply old.toUTF8 middle.toUTF8 = new.toUTF8 := by
    rw [apply, hstart, hstop, hmiddle, hbegin, hend,
      ← ByteArray.extract_eq_extract_append_extract i (Nat.zero_le i) (by omega),
      ← ByteArray.extract_eq_extract_append_extract _ (Nat.zero_le _) (Nat.sub_le _ _),
      ByteArray.extract_zero_size]
  refine ⟨?_, ⟨?_, ?_⟩, middle, ?_, happly, ?_⟩
  · have hreplaces := replaces_splice old middle i (old.toUTF8.size - n)
    rwa [← hsplice, happly] at hreplaces
  · rw [hstart]
    exact hfirst
  -- the piece is smallest as what is common to both ends is longest
  · rw [hstart, hstop, hnew]
    intro m hm hold hnew hsame
    have := hlast m hm hold hnew hsame
    omega
  · rw [hstart, hnew, hmiddle]
  · rw [hstart, hstop]
    exact hsplice

end Edit

end IncrementalParsing
