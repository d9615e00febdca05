import IncrementalParsing.Proofs.Table.Loading

/-!
# Reading inside the bytes

Whatever bytes are given and whatever counts their header holds, `Table.load` never asks for a byte that
is not there.  The sections that a header describes follow each other, and the loader goes on only where
they end with the last byte, so every entry of every section stands among the bytes.  A reader that keeps
to them is `Inside`; each reader of the loader is.

## Key results

- `offset_add_sectionSize_le`: a section ends before the last one does
- `inside_load`: a table is read from inside the bytes
-/

namespace IncrementalParsing

namespace Header

/-- Padding only adds bytes. -/
theorem le_alignUp (n : Nat) : n ≤ alignUp n := by
  unfold alignUp size
  omega

/-- Sections end behind where they start. -/
theorem le_endOf (h : Header) (start : Nat) (sections : List Section) :
    start ≤ h.endOf start sections := by
  induction sections generalizing start with
  | nil => exact Nat.le_refl _
  | cons s rest ih =>
    calc start ≤ start + h.sectionSize s := Nat.le_add_right _ _
      _ ≤ alignUp (start + h.sectionSize s) := le_alignUp _
      _ ≤ h.endOf (alignUp (start + h.sectionSize s)) rest := ih _

/-- A section ends before the last one does. -/
theorem offset_add_sectionSize_le (h : Header) (s : Section) :
    h.offset s + h.sectionSize s ≤ h.finish := by
  obtain ⟨rest, hall⟩ : ∃ rest, Section.all = Section.all.takeWhile (· != s) ++ s :: rest := by
    cases s <;> exact ⟨_, rfl⟩
  have hfinish : h.finish = h.endOf (alignUp (h.offset s + h.sectionSize s)) rest := by
    rw [finish, hall, endOf, List.foldl_append, List.foldl_cons]
    rfl
  rw [hfinish]
  exact Nat.le_trans (le_alignUp _) (h.le_endOf _ rest)

/-- An entry ends before its section does. -/
theorem entry_le (h : Header) (s : Section) {i : Nat} (hi : i < h.entryCount s) :
    h.offset s + (entrySize s * i + entrySize s) ≤ h.finish := by
  have hle : entrySize s * i + entrySize s ≤ h.sectionSize s := by
    rw [sectionSize, Nat.mul_comm (h.entryCount s), ← Nat.mul_succ]
    exact Nat.mul_le_mul_left _ hi
  exact Nat.le_trans (Nat.add_le_add_left hle _) (h.offset_add_sectionSize_le s)

end Header

/-- Numbers among the bytes are read. -/
theorem exists_numberAt? {bytes : ByteArray} (width offset : Nat)
    (h : offset + width ≤ bytes.size) : ∃ n, numberAt? bytes width offset = some n := by
  induction width generalizing offset with
  | zero => exact ⟨0, rfl⟩
  | succ width ih =>
    obtain ⟨n, hn⟩ := ih (offset + 1) (by omega)
    have hbyte : byteAt? bytes offset = some bytes[offset] := dif_pos (by omega)
    rw [numberAt?, hbyte, hn]
    exact ⟨_, rfl⟩

/-- A header is read wherever there are enough bytes for one. -/
theorem Header.exists_decode? {bytes : ByteArray} (h : size ≤ bytes.size) :
    ∃ header, decode? bytes = some header := by
  -- every number of the header lies inside it
  have hread : ∀ width offset, offset + width ≤ size → ∃ n, numberAt? bytes width offset = some n :=
    fun width offset hle => exists_numberAt? width offset (Nat.le_trans hle h)
  unfold size at hread
  obtain ⟨_, h0⟩ := hread 4 4 (by omega)
  obtain ⟨_, h1⟩ := hread 4 8 (by omega)
  obtain ⟨_, h2⟩ := hread 4 12 (by omega)
  obtain ⟨_, h3⟩ := hread 4 16 (by omega)
  obtain ⟨_, h4⟩ := hread 4 20 (by omega)
  obtain ⟨_, h5⟩ := hread 4 24 (by omega)
  obtain ⟨_, h6⟩ := hread 4 28 (by omega)
  obtain ⟨_, h7⟩ := hread 4 32 (by omega)
  obtain ⟨_, s0⟩ := hread 2 36 (by omega)
  obtain ⟨_, s1⟩ := hread 2 38 (by omega)
  obtain ⟨_, s2⟩ := hread 2 40 (by omega)
  obtain ⟨_, s3⟩ := hread 2 42 (by omega)
  obtain ⟨_, s4⟩ := hread 2 44 (by omega)
  obtain ⟨_, s5⟩ := hread 2 46 (by omega)
  obtain ⟨_, s6⟩ := hread 2 48 (by omega)
  obtain ⟨_, s7⟩ := hread 2 50 (by omega)
  obtain ⟨_, s8⟩ := hread 2 52 (by omega)
  unfold decode?
  rw [if_neg (Nat.not_lt.mpr h)]
  simp only [h0, h1, h2, h3, h4, h5, h6, h7, s0, s1, s2, s3, s4, s5, s6, s7, s8,
    Option.bind_eq_bind, Option.bind_some, Option.pure_def]
  exact ⟨_, rfl⟩

/-- What a reader may say that kept to the bytes: none of them was missing, and they are too few for a
header only where there are fewer than a header takes. -/
def LoadFault.Inside : LoadFault → Prop
  | .endsEarly => False
  | .tooShort n => n < Header.size
  | _ => True

namespace Table

/-- A reader keeps to the bytes. -/
def Inside {α : Type} (x : Except LoadFault α) : Prop := ∀ fault, x = .error fault → fault.Inside

/-! ## Readers in a row -/

section

variable {α β γ : Type}

/-- What succeeds has no fault to stand anywhere. -/
theorem inside_ok (a : α) : Inside (.ok a : Except LoadFault α) := fun _ h => by cases h

/-- So has `pure`. -/
theorem inside_pure (a : α) : Inside (pure a : Except LoadFault α) := inside_ok a

/-- A fault that stands inside the bytes may be thrown. -/
theorem inside_throw {fault : LoadFault} (h : fault.Inside) :
    Inside (throw fault : Except LoadFault α) := fun _ heq => by cases heq; exact h

/-- Two reads one after the other have their faults inside if each has. -/
theorem Inside.bind {x : Except LoadFault α} {f : α → Except LoadFault β} (hx : Inside x)
    (hf : ∀ a, x = .ok a → Inside (f a)) : Inside (x >>= f) := by
  cases x with
  | error fault => exact fun _ h => hx _ (by cases h; rfl)
  | ok a => exact hf a rfl

/-- A guard in front of a reader tells it that its condition does not hold. -/
theorem Inside.guard {p : Prop} [Decidable p] {fault : LoadFault} {f : γ → Except LoadFault β}
    {y : Except LoadFault β} (hfault : fault.Inside) (hy : ¬p → Inside y) :
    Inside (if p then (throw fault : Except LoadFault γ) >>= f else y) := by
  by_cases h : p
  · rw [if_pos h]
    exact (inside_throw hfault).bind fun _ h => by cases h
  · rw [if_neg h]
    exact hy h

/-- So has a choice between two. -/
theorem Inside.ite {p : Prop} [Decidable p] {x y : Except LoadFault β} (hx : p → Inside x)
    (hy : ¬p → Inside y) : Inside (if p then x else y) := by
  by_cases h : p
  · rw [if_pos h]
    exact hx h
  · rw [if_neg h]
    exact hy h

/-- So has reading many entries. -/
theorem Inside.readMany {count : Nat} {read : Nat → Except LoadFault α}
    (h : ∀ i < count, Inside (read i)) : Inside (readMany count read) := by
  -- entry by entry, each inside its section
  have hmapM : ∀ is : List Nat, (∀ i ∈ is, Inside (read i)) → Inside (is.mapM read) := by
    intro is
    induction is with
    | nil => exact fun _ => by rw [List.mapM_nil]; exact inside_pure _
    | cons i rest ih =>
      intro h
      rw [List.mapM_cons]
      refine (h i (List.mem_cons_self ..)).bind fun _ _ => ?_
      exact (ih fun j hj => h j (List.mem_cons_of_mem _ hj)).bind fun _ _ => inside_pure _
  exact (hmapM _ fun i hi => h i (List.mem_range.mp hi)).bind fun _ _ => inside_pure _

end

/-! ## Numbers, slices and strings -/

variable {bytes : ByteArray} {h : Header}

/-- A number that lies inside the bytes is read. -/
theorem inside_numberAt {width offset : Nat} (hle : offset + width ≤ bytes.size) :
    Inside (numberAt bytes width offset) := by
  obtain ⟨n, hn⟩ := exists_numberAt? _ _ hle
  rw [numberAt, hn]
  exact inside_ok n

/-- A number in an entry of a section is among the bytes. -/
theorem inside_entry (hfinish : h.finish = bytes.size) (s : Section) {i k width offset : Nat}
    (hi : i < h.entryCount s) (hk : k + width ≤ Header.entrySize s)
    (ho : offset = h.offset s + Header.entrySize s * i + k) : Inside (numberAt bytes width offset) := by
  have hle := h.entry_le s hi
  exact inside_numberAt (by omega)

/-- A slice of a section is among the bytes. -/
theorem inside_sliceAt (hfinish : h.finish = bytes.size) (s : Section) {start stop : Nat}
    (hstart : start ≤ stop) (hstop : stop ≤ h.sectionSize s) :
    Inside (sliceAt bytes (h.offset s + start) (h.offset s + stop)) := by
  have hle := h.offset_add_sectionSize_le s
  refine .ite (fun _ => inside_ok _) fun hoff => absurd ?_ hoff
  rw [Bool.and_eq_true, decide_eq_true_eq, decide_eq_true_eq]
  omega

/-- A text that is not there is no fault of the bytes. -/
theorem inside_stringAt (strings : Array String) (id : Nat) : Inside (stringAt strings id) := by
  unfold stringAt
  split
  · exact inside_ok _
  · exact inside_throw trivial

/-! ## Section by section -/

/-- All bytes that the texts are read from are inside. -/
theorem inside_loadStrings (hfinish : h.finish = bytes.size) : Inside (loadStrings bytes h) := by
  refine .readMany fun i hi => ?_
  -- the entry after the last string holds its end
  have hstart : i < h.entryCount .stringTable := Nat.lt_succ_of_lt hi
  have hstop : i + 1 < h.entryCount .stringTable := Nat.succ_lt_succ hi
  refine (inside_entry hfinish .stringTable hstart (k := 0) (by decide) rfl).bind fun start _ => ?_
  refine (inside_entry hfinish .stringTable hstop (k := 0) (by decide) rfl).bind fun stop _ => ?_
  refine .guard trivial fun hchecked => ?_
  simp only [Bool.or_eq_true, decide_eq_true_eq, not_or, Nat.not_lt] at hchecked
  have hsize : h.sectionSize .stringBlob = h.stringBlobSize := Nat.mul_one _
  refine (inside_sliceAt hfinish .stringBlob hchecked.1 (hsize ▸ hchecked.2)).bind fun slice _ => ?_
  split
  · exact inside_pure _
  · exact inside_throw trivial

/-- Whatever a codec makes of the bytes of an automaton, it gets no others. -/
theorem inside_loadLexemes (codec : Automaton.Codec) (hfinish : h.finish = bytes.size)
    (strings : Array String) : Inside (loadLexemes codec bytes h strings) := by
  refine .readMany fun i hi => .ite (fun _ => inside_pure _) fun _ => ?_
  have hstart : i < h.entryCount .patternTable := Nat.lt_succ_of_lt hi
  have hstop : i + 1 < h.entryCount .patternTable := Nat.succ_lt_succ hi
  refine (inside_entry hfinish .patternTable hstart (k := 0) (by decide) rfl).bind fun id _ => ?_
  refine (inside_entry hfinish .patternTable hstart (k := 4) (by decide) rfl).bind fun start _ => ?_
  refine (inside_entry hfinish .patternTable hstop (k := 4) (by decide)
    (by simp only [Header.entrySize]; omega)).bind fun stop _ => ?_
  refine .guard trivial fun hchecked => ?_
  simp only [Bool.or_eq_true, decide_eq_true_eq, not_or, Nat.not_lt] at hchecked
  refine (inside_stringAt strings id).bind fun pattern _ => ?_
  -- the offsets are checked against the size of the blob, whose entries are bytes
  have hsize : h.sectionSize .patternBlob = h.patternBlobSize := Nat.mul_one _
  refine (inside_sliceAt hfinish .patternBlob hchecked.1 (hsize ▸ hchecked.2)).bind fun slice _ => ?_
  split
  · exact inside_pure _
  · exact inside_throw trivial

/-- A symbol without its token is no fault of the bytes either. -/
theorem inside_lexemeOf (lexemes : Array (Option Lexeme)) (symbol : Nat) (terminal : Bool) (id : Nat) :
    Inside (lexemeOf lexemes symbol terminal id) :=
  .ite (fun _ => inside_ok _) fun _ => .ite (fun _ => inside_ok _) fun _ => inside_throw trivial

/-- The faults of the symbols are inside, -/
theorem inside_loadSymbols (hfinish : h.finish = bytes.size) (strings : Array String)
    (lexemes : Array (Option Lexeme)) : Inside (loadSymbols bytes h strings lexemes) := by
  refine .guard trivial fun _ => .bind (.readMany fun i hi => ?_) fun symbols _ =>
    .ite (fun _ => inside_pure _) fun _ => inside_throw trivial
  -- every read of an entry stays in its eight bytes
  have hentry : ∀ k width, k + width ≤ 8 →
      Inside (numberAt bytes width (h.offset .symbols + 8 * i + k)) :=
    fun k width hk => inside_entry hfinish .symbols hi hk rfl
  refine (hentry 2 1 (by decide)).bind fun flags _ => ?_
  refine (hentry 4 2 (by decide)).bind fun id _ => ?_
  refine (inside_lexemeOf lexemes i _ id).bind fun lexeme _ => ?_
  refine (hentry 0 2 (by decide)).bind fun name _ => ?_
  refine (inside_stringAt strings name).bind fun name _ => ?_
  exact (hentry 6 2 (by decide)).bind fun precedence _ => inside_pure _

/-- those of the fields, -/
theorem inside_loadFields (hfinish : h.finish = bytes.size) (strings : Array String) :
    Inside (loadFields bytes h strings) :=
  .readMany fun _ hi => (inside_entry hfinish .fields hi (k := 0) (by decide) rfl).bind
    fun id _ => inside_stringAt strings id

/-- of the productions, -/
theorem inside_loadProductions (hfinish : h.finish = bytes.size) (symbols : Array SymbolInfo) :
    Inside (loadProductions bytes h symbols) := by
  refine .readMany fun i hi => ?_
  have hentry : ∀ k width, k + width ≤ 8 →
      Inside (numberAt bytes width (h.offset .productions + 8 * i + k)) :=
    fun k width hk => inside_entry hfinish .productions hi hk rfl
  refine (hentry 0 2 (by decide)).bind fun lhs _ => ?_
  refine (hentry 2 2 (by decide)).bind fun size _ => ?_
  refine (hentry 4 4 (by decide)).bind fun first _ => ?_
  refine .guard trivial fun _ => .guard trivial fun hchecked => ?_
  refine .bind (.readMany fun c hc => ?_) fun fields _ => inside_pure _
  -- the fields of a production were checked to lie in their section
  have hfield : first + c < h.entryCount .productionFields := by
    show first + c < h.productionFieldCount
    omega
  refine (inside_entry hfinish .productionFields hfield (k := 0) (by decide) rfl).bind fun field _ => ?_
  exact .guard trivial fun _ => inside_pure _

/-- of the states, -/
theorem inside_loadStates (hfinish : h.finish = bytes.size) : Inside (loadStates bytes h) := by
  refine .guard trivial fun _ => .readMany fun i hi => ?_
  have hentry : ∀ k width, k + width ≤ 8 →
      Inside (numberAt bytes width (h.offset .states + 8 * i + k)) :=
    fun k width hk => inside_entry hfinish .states hi hk rfl
  refine (hentry 0 4 (by decide)).bind fun first _ => ?_
  refine (hentry 4 2 (by decide)).bind fun count _ => ?_
  refine (hentry 6 2 (by decide)).bind fun lexMode _ => ?_
  exact .guard trivial fun _ => .guard trivial fun _ => inside_pure _

/-- of the actions, -/
theorem inside_loadActions (hfinish : h.finish = bytes.size) (symbols : Array SymbolInfo) :
    Inside (loadActions bytes h symbols) := by
  refine .readMany fun i hi => ?_
  -- every read of an entry stays in its eight bytes
  have hentry : ∀ k width, k + width ≤ 8 →
      Inside (numberAt bytes width (h.offset .actions + 8 * i + k)) :=
    fun k width hk => inside_entry hfinish .actions hi hk rfl
  refine (hentry 0 2 (by decide)).bind fun symbol _ => ?_
  refine (hentry 2 1 (by decide)).bind fun kind _ => ?_
  refine (hentry 4 2 (by decide)).bind fun value _ => ?_
  split
  · exact inside_throw trivial
  · split
    · exact inside_pure _
    · exact inside_throw trivial

/-- also where they are given to the states, -/
theorem inside_attachActions (entries : Array StateEntry) (actions : Array (Symbol × Action)) :
    Inside (attachActions entries actions) :=
  .readMany fun _ _ => .ite (fun _ => inside_pure _) fun _ => inside_throw trivial

/-- those of the lex modes, -/
theorem inside_loadLexModes (hfinish : h.finish = bytes.size) (symbols : Array SymbolInfo) :
    Inside (loadLexModes bytes h symbols) := by
  refine .bind (.readMany fun i hi => ?_) fun listed _ => .readMany fun i hi => ?_
  · refine (inside_entry hfinish .lexModeSymbols hi (k := 0) (by decide) rfl).bind fun symbol _ => ?_
    exact .ite (fun _ => inside_pure _) fun _ => inside_throw trivial
  · refine (inside_entry hfinish .lexModes hi (k := 0) (by decide) rfl).bind fun first _ => ?_
    refine (inside_entry hfinish .lexModes hi (k := 4) (by decide) rfl).bind fun count _ => ?_
    exact .guard trivial fun _ => inside_pure _

/-! ## The table as a whole -/

/-- and those of the header. -/
theorem inside_loadHeader (bytes : ByteArray) : Inside (loadHeader bytes) := by
  refine .ite (fun hshort => ?_) fun hshort => .guard trivial fun _ => ?_
  · exact (inside_throw (Nat.lt_trans hshort (by decide))).bind fun _ h => by cases h
  · refine (inside_numberAt (by omega)).bind fun version _ => .guard trivial fun _ => ?_
    split
    · rename_i hnone
      refine inside_throw (Nat.lt_of_not_le fun hle => ?_)
      obtain ⟨header, hsome⟩ := Header.exists_decode? hle
      exact absurd (hnone.symm.trans hsome) (fun h => by cases h)
    · exact .guard trivial fun _ => .guard trivial fun _ => .guard trivial fun _ => inside_pure _

/-- The sections end where the bytes do. -/
theorem finish_of_loadHeader (hload : loadHeader bytes = .ok h) : h.finish = bytes.size := by
  simp only [loadHeader, Except.guard_eq_ok, Except.bind_eq_ok] at hload
  obtain ⟨-, -, version, -, -, hload⟩ := hload
  split at hload
  · cases hload
  · simp only [Except.guard_eq_ok, Except.pure_eq_ok] at hload
    obtain ⟨-, hfinish, -, rfl⟩ := hload
    simpa using hfinish

/-- A table is read from inside the bytes. -/
theorem inside_load (codec : Automaton.Codec) (bytes : ByteArray) :
    Inside (loadWith codec bytes) := by
  refine (inside_loadHeader bytes).bind fun h hload => ?_
  -- the sections were laid out up to the end of the bytes
  have hfinish := finish_of_loadHeader hload
  refine (inside_loadStrings hfinish).bind fun strings _ => ?_
  refine (inside_loadLexemes codec hfinish strings).bind fun lexemes _ => ?_
  refine (inside_loadSymbols hfinish strings lexemes).bind fun symbols _ => ?_
  refine (inside_loadFields hfinish strings).bind fun fields _ => ?_
  refine (inside_loadProductions hfinish symbols).bind fun productions _ => ?_
  refine (inside_loadStates hfinish).bind fun entries _ => ?_
  refine (inside_loadActions hfinish symbols).bind fun actions _ => ?_
  refine (inside_attachActions entries actions).bind fun states _ => ?_
  refine (inside_loadLexModes hfinish symbols).bind fun modes _ => ?_
  refine (inside_stringAt strings h.name).bind fun name _ => ?_
  exact .guard trivial fun _ => inside_pure _

end Table

end IncrementalParsing
