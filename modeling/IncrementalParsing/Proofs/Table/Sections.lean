import IncrementalParsing.Proofs.Rounds
import IncrementalParsing.Proofs.Table.Image
import IncrementalParsing.Table.Loader

/-!
# The entries of a written table

The header that `TableImage.write` writes gives every section the size of what it holds, so that every
entry and every piece of a blob stands where the header says: the bytes are `Laid`.  What reads a
table needs to know no more of them than that.

## Key results

- `sectionSize_headerOf`: the header has the sizes of what was written
- `Laid.entry`, `Laid.slice`: what stands where
- `laid_of_writes`: the bytes that are written are laid out as their header says
-/

namespace IncrementalParsing

namespace TableImage

/-! ## Pieces that follow each other -/

/-- Entries of one size take the size for each of them. -/
theorem length_flatMap_of {α : Type} {f : α → List UInt8} {size : Nat} {xs : List α}
    (h : ∀ x ∈ xs, (f x).length = size) : (xs.flatMap f).length = size * xs.length := by
  induction xs with
  | nil => rfl
  | cons x rest ih =>
    rw [List.flatMap_cons, List.length_append, h x (List.mem_cons_self ..),
      ih fun y hy => h y (List.mem_cons_of_mem _ hy), List.length_cons, Nat.mul_succ, Nat.add_comm]

/-- Entries that take a size for each of their items take it for all items. -/
theorem length_flatMap_sum {α : Type} {f : α → List UInt8} {count : α → Nat} {size : Nat}
    {xs : List α} (h : ∀ x, (f x).length = size * count x) :
    (xs.flatMap f).length = size * sumOf count xs := by
  induction xs with
  | nil => rfl
  | cons x rest ih => simp [List.flatMap_cons, h, ih, Nat.mul_add]

/-- The first entries are not more than all. -/
theorem sumOf_take_le {α : Type} (f : α → Nat) (xs : List α) (i : Nat) :
    sumOf f (xs.take i) ≤ sumOf f xs := by
  conv => rhs; rw [← List.take_append_drop i xs, sumOf_append]
  exact Nat.le_add_right _ _

/-- One entry more adds what it counts. -/
theorem sumOf_take_succ {α : Type} (f : α → Nat) (xs : List α) {i : Nat} (hi : i < xs.length) :
    sumOf f (xs.take (i + 1)) = sumOf f (xs.take i) + f xs[i] := by
  rw [List.take_succ_eq_append_getElem hi, sumOf_append, sumOf_cons, sumOf_nil, Nat.add_zero]

/-- A piece stands after those before it. -/
theorem take_drop_flatMap {α β : Type} (f : α → List β) (xs : List α) {i : Nat} (hi : i < xs.length) :
    ((xs.flatMap f).drop (sumOf (fun x => (f x).length) (xs.take i))).take (f xs[i]).length =
      f xs[i] := by
  have hsplit : xs.flatMap f = (xs.take i).flatMap f ++ (f xs[i] ++ (xs.drop (i + 1)).flatMap f) := by
    conv => lhs; rw [← List.take_append_drop i xs, List.drop_eq_getElem_cons hi]
    rw [List.flatMap_append, List.flatMap_cons]
  rw [hsplit, ← length_flatMap_sumOf, List.drop_left, List.take_left]

/-- A member of a piece stands after the pieces before it. -/
theorem getElem?_flatMap {α β : Type} (f : α → List β) (xs : List α) {i c : Nat} (hi : i < xs.length)
    (hc : c < (f xs[i]).length) :
    (xs.flatMap f)[sumOf (fun x => (f x).length) (xs.take i) + c]? = (f xs[i])[c]? := by
  rw [← List.getElem?_drop, ← List.getElem?_take_of_lt hc, take_drop_flatMap f xs hi]

/-- There is an offset for each entry. -/
@[simp] theorem length_withOffsets {α : Type} (size : α → Nat) (offset : Nat) (xs : List α) :
    (withOffsets size offset xs).length = xs.length := by
  induction xs generalizing offset with
  | nil => rfl
  | cons x rest ih => rw [withOffsets, List.length_cons, List.length_cons, ih]

/-- It is where the first one begins, and behind all entries before. -/
theorem getElem_withOffsets {α : Type} (size : α → Nat) (offset : Nat) (xs : List α) {i : Nat}
    (hi : i < xs.length) (hi' : i < (withOffsets size offset xs).length) :
    (withOffsets size offset xs)[i] = (xs[i], offset + sumOf size (xs.take i)) := by
  induction xs generalizing offset i with
  | nil => cases hi
  | cons x rest ih =>
    cases i with
    | zero => rfl
    | succ i =>
      simp only [withOffsets, List.getElem_cons_succ, List.take_succ_cons, sumOf_cons]
      rw [ih (offset + size x) (Nat.lt_of_succ_lt_succ hi), Nat.add_assoc]

/-- There is an end for each entry. -/
@[simp] theorem length_ends (offset : Nat) (ns : List Nat) : (ends offset ns).length = ns.length := by
  induction ns generalizing offset with
  | nil => rfl
  | cons n rest ih => rw [ends, List.length_cons, List.length_cons, ih]

/-- A piece starts where those before it end. -/
theorem getElem_ends {α : Type} (size : α → Nat) (offset : Nat) (xs : List α) {i : Nat}
    (hi : i < (offset :: ends offset (xs.map size)).length) :
    (offset :: ends offset (xs.map size))[i] = offset + sumOf size (xs.take i) := by
  induction xs generalizing offset i with
  | nil =>
    obtain rfl : i = 0 := by simpa [ends] using hi
    rfl
  | cons x rest ih =>
    cases i with
    | zero => rfl
    | succ i =>
      simp only [List.map_cons, ends, List.getElem_cons_succ, List.take_succ_cons, sumOf_cons]
      -- each end is the offset of what comes next
      rw [ih (offset + size x), Nat.add_assoc]

/-! ## Automata one after another -/

/-- Where automata start that follow each other from `size` bytes on, and where the last one ends. -/
def patternStarts : (size : Nat) → List PatternEntry → List Nat
  | size, [] => [size]
  | size, p :: rest =>
    let offset := size + (4 - size % 4) % 4
    offset :: patternStarts (offset + p.automaton.length) rest

/-- Patterns have one start more than there are of them: the end of the last. -/
@[simp] theorem length_patternStarts (size : Nat) (ps : List PatternEntry) :
    (patternStarts size ps).length = ps.length + 1 := by
  induction ps generalizing size with
  | nil => rfl
  | cons p rest ih => rw [patternStarts, List.length_cons, ih, List.length_cons]

/-- The entries of the table of patterns, after the first. -/
def patternRows (size : Nat) (ps : List PatternEntry) : List (Nat × Nat) :=
  (ps.map PatternEntry.string ++ [0]).zip (patternStarts size ps)

/-- So have their rows. -/
@[simp] theorem length_patternRows (size : Nat) (ps : List PatternEntry) :
    (patternRows size ps).length = ps.length + 1 := by
  simp [patternRows]

/-- The second section lists the rows. -/
theorem patternSections_snd (size : Nat) (ps : List PatternEntry) :
    (patternSections size ps).2 = (patternRows size ps).flatMap fun row : Nat × Nat =>
      patternEntry row.1 row.2 := by
  unfold patternRows
  induction ps generalizing size with
  | nil => simp [patternSections, patternStarts]
  | cons p rest ih => simp [patternSections, patternStarts, ih]

/-- What stands between two automata is zero. -/
theorem exists_gap (size : Nat) (ps : List PatternEntry) :
    ∃ gap rest, (patternSections size ps).1 = List.replicate gap 0 ++ rest ∧
      (patternStarts size ps)[0]? = some (size + gap) := by
  cases ps with
  | nil => exact ⟨0, [], rfl, rfl⟩
  | cons p rest =>
    exact ⟨(4 - size % 4) % 4, p.automaton ++
      (patternSections (size + (4 - size % 4) % 4 + p.automaton.length) rest).1,
      List.append_assoc .., rfl⟩

/-- An automaton stands where it starts, and zeros follow it up to where the next one does. -/
theorem patternStarts_spec (size : Nat) (ps : List PatternEntry) {i : Nat} (hi : i < ps.length) :
    ∃ start stop gap, (patternStarts size ps)[i]? = some start ∧
      (patternStarts size ps)[i + 1]? = some stop ∧ size ≤ start ∧ start ≤ stop ∧
      stop ≤ size + (patternSections size ps).1.length ∧
      ((patternSections size ps).1.drop (start - size)).take (stop - start) =
        ps[i].automaton ++ List.replicate gap 0 := by
  -- an automaton moves everything behind it by its padding and its length, and the size so far says
  -- where the next one stands
  induction ps generalizing size i with
  | nil => cases hi
  | cons p rest ih =>
    have hstarts : patternStarts size (p :: rest) = (size + (4 - size % 4) % 4) ::
        patternStarts (size + (4 - size % 4) % 4 + p.automaton.length) rest := rfl
    have hblob : (patternSections size (p :: rest)).1 =
        List.replicate ((4 - size % 4) % 4) 0 ++ (p.automaton ++
          (patternSections (size + (4 - size % 4) % 4 + p.automaton.length) rest).1) := by
      rw [patternSections]
      exact List.append_assoc ..
    rw [hstarts, hblob]
    generalize (4 - size % 4) % 4 = gap
    -- behind the first automaton is the padding of the next one, or the end
    cases i with
    | zero =>
      obtain ⟨gap', blob, hgap, hnext⟩ := exists_gap (size + gap + p.automaton.length) rest
      refine ⟨size + gap, _, gap', rfl, hnext, by omega, by omega, ?_, ?_⟩
      · simp only [hgap, List.length_append, List.length_replicate]
        omega
      · have hwidth : size + gap + p.automaton.length + gap' - (size + gap) =
            (p.automaton ++ List.replicate gap' 0).length := by
          rw [List.length_append, List.length_replicate]
          omega
        rw [Nat.add_sub_cancel_left, List.drop_left' List.length_replicate, hgap, hwidth,
          ← List.append_assoc, List.take_left]
        rfl
    | succ i =>
      obtain ⟨start, stop, gap', hstart, hstop, hle, hle', hend, hslice⟩ :=
        ih (size + gap + p.automaton.length) (Nat.lt_of_succ_lt_succ hi)
      refine ⟨start, stop, gap', hstart, hstop, by omega, hle', ?_, ?_⟩
      · simp only [List.length_append, List.length_replicate]
        omega
      · have hdrop : start - size = gap + (p.automaton.length +
            (start - (size + gap + p.automaton.length))) := by omega
        rw [hdrop, ← List.drop_drop, List.drop_left' List.length_replicate, ← List.drop_drop,
          List.drop_left, hslice]
        rfl

/-! ## Lengths of the sections -/

/-- Every entry of a pattern takes 8 bytes, -/
@[simp] theorem length_patternEntry (string offset : Nat) : (patternEntry string offset).length = 8 := by
  simp [patternEntry]

/-- every production, -/
@[simp] theorem length_productionEntry (p : FlatProduction) (first : Nat) :
    (productionEntry p first).length = 8 := by
  simp [productionEntry]

/-- every state, -/
@[simp] theorem length_stateEntry (s : ParserState) (first : Nat) :
    (stateEntry s first).length = 8 := by
  simp [stateEntry]

/-- every action, -/
@[simp] theorem length_actionEntry (entry : Symbol × Action) : (actionEntry entry).length = 8 := by
  simp [actionEntry]

/-- every lex mode, -/
@[simp] theorem length_lexModeEntry (symbols : List Symbol) (first : Nat) :
    (lexModeEntry symbols first).length = 8 := by
  simp [lexModeEntry]

/-- and every symbol. -/
theorem length_symbolEntry {names : Names} {s : FlatSymbol} {entry : List UInt8}
    (h : IsSymbolEntry names s entry) : entry.length = 8 := by
  obtain ⟨name, lexeme, rfl, -⟩ := h
  simp

/-- The entries of the patterns take 8 bytes each, that of the end included. -/
theorem length_patternSections (size : Nat) (patterns : List PatternEntry) :
    (patternSections size patterns).2.length = 8 * (patterns.length + 1) := by
  rw [patternSections_snd, length_flatMap_of fun row _ => length_patternEntry row.1 row.2]
  simp

variable {codec : Automaton.Codec} {g : FlatGrammar} {p : ParserTable} {names : Names}
  {symbols : List (List UInt8)} {fields : List Nat} {name : Nat}

/-- The entries of symbols with names take 8 bytes each. -/
theorem Named.length_entry (hw : Named codec g names symbols fields name) :
    ∀ entry ∈ symbols, entry.length = 8 := by
  intro entry he
  obtain ⟨i, hi, rfl⟩ := List.getElem_of_mem he
  exact length_symbolEntry (hw.entries.get (hw.entries.length_eq ▸ hi) hi)

/-- What a section holds is no longer than the file. -/
theorem length_holds_le (body : Section → List UInt8) (s : Section) :
    (body s).length ≤ (Header.filled body Section.all).length := by
  obtain ⟨rest, hall⟩ := Header.all_eq s
  rw [hall, Header.filled, List.flatMap_append, List.flatMap_cons, List.length_append,
    List.length_append, padTo, List.length_append]
  omega

/-- No section of a table that is written has more bytes than 32 bits count. -/
theorem Writes.length_holds_lt (hw : Writes codec g p names symbols fields name) (s : Section) :
    (holds g p names symbols fields s).length < 256 ^ 4 :=
  Nat.lt_of_le_of_lt (Nat.le_trans (length_holds_le _ s) (Nat.le_add_left ..)) hw.total

/-- The header has the sizes of what is written. -/
theorem sectionSize_headerOf (hw : Named codec g names symbols fields name) (s : Section) :
    (headerOf g p names symbols fields name).sectionSize s =
      (holds g p names symbols fields s).length := by
  -- entries of one size are counted, and the two blobs are as long as they are
  cases s with
  | stringBlob => exact Nat.mul_one _
  | patternBlob => exact Nat.mul_one _
  | stringTable =>
    simp only [holds, stringSections]
    rw [length_flatMap_of fun n _ => length_littleEndian 4 n]
    simp [Header.sectionSize, Header.entryCount, headerOf, header, Header.entrySize, Nat.mul_comm]
  | patternTable =>
    simp only [holds, List.length_append, length_patternEntry, length_patternSections,
      Header.sectionSize, Header.entryCount, headerOf, header, Header.entrySize, Array.length_toList]
    omega
  | symbols =>
    have hflatten := length_flatMap_of (f := id) hw.length_entry
    rw [List.flatMap_id] at hflatten
    simp only [holds, hflatten, ← hw.entries.length_eq, Array.length_toList]
    exact Nat.mul_comm _ _
  | fields =>
    simp only [holds]
    rw [length_flatMap_of fun n _ => length_littleEndian 2 n, ← hw.listed.length_eq,
      Array.length_toList]
    exact Nat.mul_comm _ _
  | productions =>
    simp only [holds]
    rw [length_flatMap_of fun x _ => length_productionEntry x.1 x.2, length_withOffsets]
    exact Nat.mul_comm _ _
  | productionFields =>
    exact (Nat.mul_comm _ _).trans (length_flatMap_sum fun q =>
      length_flatMap_of fun n _ => length_littleEndian 2 _).symm
  | states =>
    simp only [holds]
    rw [length_flatMap_of fun x _ => length_stateEntry x.1 x.2, length_withOffsets]
    exact Nat.mul_comm _ _
  | actions =>
    exact (Nat.mul_comm _ _).trans (length_flatMap_sum fun s =>
      length_flatMap_of fun a _ => length_actionEntry a).symm
  | lexModes =>
    simp only [holds]
    rw [length_flatMap_of fun x _ => length_lexModeEntry x.1 x.2, length_withOffsets]
    exact Nat.mul_comm _ _
  | lexModeSymbols =>
    exact (Nat.mul_comm _ _).trans (length_flatMap_sum fun s =>
      length_flatMap_of fun n _ => length_littleEndian 2 n).symm

/-! ## What stands where -/

/-- Bytes in which each section stands where a header says. -/
structure Laid (bytes : ByteArray) (h : Header) (body : Section → List UInt8) : Prop where
  number : ∀ (s : Section) (width k : Nat), k + width ≤ (body s).length →
    numberAt? bytes width (h.offset s + k) = numberAt? (ofBytes (body s)) width k
  slice : ∀ (s : Section) (i j : Nat), i ≤ j → j ≤ (body s).length →
    Table.sliceAt bytes (h.offset s + i) (h.offset s + j) =
      .ok (ofBytes (((body s).drop i).take (j - i)))

/-- A number is read from its place in an entry of a section. -/
theorem Laid.entry {α : Type} {bytes : ByteArray} {h : Header} {body : Section → List UInt8}
    (hl : Laid bytes h body) {s : Section} {f : α → List UInt8} {xs : List α} {size : Nat}
    (hbody : body s = xs.flatMap f) (hf : ∀ x ∈ xs, (f x).length = size) {i : Nat}
    (hi : i < xs.length) {width n : Nat} {a b : List UInt8}
    (hentry : f xs[i] = a ++ (littleEndian width n ++ b)) (hn : n < 256 ^ width) {offset : Nat}
    (ho : offset = h.offset s + (size * i + a.length)) :
    Table.numberAt bytes width offset = .ok n := by
  have hsize := hf _ (List.getElem_mem hi)
  rw [hentry, List.length_append, List.length_append, length_littleEndian] at hsize
  have hlength := length_flatMap_of hf
  -- the entry ends before its section does
  have hle : size * i + size ≤ size * xs.length := by
    rw [← Nat.mul_succ]
    exact Nat.mul_le_mul_left _ hi
  have hrows : ∀ row ∈ xs.map f, row.length = size := by
    intro row hr
    obtain ⟨x, hx, rfl⟩ := List.mem_map.mp hr
    exact hf x hx
  -- as all entries have one size, the place of the number is known
  have hread := numberAt?_flatten [] [] (xs.map f) width a.length hrows
    (show i < (xs.map f).length by rwa [List.length_map]) (by omega)
  rw [List.nil_append, List.append_nil, List.length_nil, Nat.zero_add, List.getElem_map, hentry,
    numberAt?_between a b width n a.length rfl, Nat.mod_eq_of_lt hn] at hread
  have hread' : numberAt? bytes width (h.offset s + (size * i + a.length)) = some n := by
    rw [hl.number s width _ (by rw [hbody, hlength]; omega), hbody, List.flatMap_def, hread]
  rw [Table.numberAt, ho, hread']

/-- The same where each entry ends with the place of its parts. -/
theorem Laid.offsetEntry {α : Type} {bytes : ByteArray} {h : Header} {body : Section → List UInt8}
    (hl : Laid bytes h body) {s : Section} {f : α → Nat → List UInt8} {count : α → Nat} {xs : List α}
    (hbody : body s = (withOffsets count 0 xs).flatMap fun x : α × Nat => f x.1 x.2)
    (hf : ∀ x first, (f x first).length = 8) {i : Nat} (hi : i < xs.length) {width n : Nat}
    {a b : List UInt8} (hentry : f xs[i] (sumOf count (xs.take i)) = a ++ (littleEndian width n ++ b))
    (hn : n < 256 ^ width) {offset : Nat} (ho : offset = h.offset s + (8 * i + a.length)) :
    Table.numberAt bytes width offset = .ok n := by
  have hi' : i < (withOffsets count 0 xs).length := by rwa [length_withOffsets]
  refine hl.entry (b := b) hbody (fun x _ => hf x.1 x.2) hi' ?_ hn ho
  rw [getElem_withOffsets count 0 xs hi, Nat.zero_add, hentry]

/-- The header is as long as it says. -/
theorem length_headerOf : (headerOf g p names symbols fields name).encode.length = Header.size :=
  Header.length_encode rfl rfl

/-- The bytes that are written are laid out as their header says. -/
theorem laid_of_writes (hw : Writes codec g p names symbols fields name) :
    Laid (ofBytes ((headerOf g p names symbols fields name).encode ++
      Header.filled (holds g p names symbols fields) Section.all))
      (headerOf g p names symbols fields name) (holds g p names symbols fields) where
  number := fun s _ _ hk => Header.numberAt?_section length_headerOf
    (sectionSize_headerOf hw.toNamed) s hk
  slice := fun s _ _ hi hj =>
    Header.sliceAt_section length_headerOf
    (sectionSize_headerOf hw.toNamed) s hi hj

end TableImage

end IncrementalParsing
