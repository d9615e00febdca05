import IncrementalParsing.Proofs.Automaton.Encoding
import IncrementalParsing.Proofs.Grammar.Flattening
import IncrementalParsing.Proofs.Table.Loading
import IncrementalParsing.Proofs.Table.Sections

/-!
# Names and symbols are read back

The bytes of a table are laid out as their header says, so each entry is read as it was written.  Here
this is said of everything that is named: strings, the automata of patterns, symbols and fields.

## Key results

- `loadStrings_eq_ok`, `loadFields_eq_ok`: the strings and the fields that are read
- `loadLexemes_eq_ok`: the automata that are read, given that each is read back by itself
- `loadSymbols_eq_ok`: the symbols that are read
-/

namespace IncrementalParsing

/-- A symbol that is read says the same as the one that was written. -/
structure SymbolInfo.Agrees (names : Names) (info : SymbolInfo) (s : FlatSymbol) : Prop where
  name : info.name = s.name
  terminal : info.terminal = s.terminal
  named : info.named = s.named
  visible : info.visible = s.visible
  extra : info.extra = s.extra
  literal : info.literal = s.lexeme?.any (·.literal)
  immediate : info.immediate = s.lexeme?.any (·.immediate)
  precedence : info.precedence = (s.lexeme?.map (·.precedence)).getD 0
  noLexeme : s.lexeme? = none → info.lexeme = none
  lexeme : ∀ token, s.lexeme? = some token →
    ∃ i, info.lexeme = some i ∧ names.HasPattern i token.pattern

/-- Each pattern is found at its position, with its automaton. -/
def Names.Lexes (names : Names) (lexemes : Array (Option Lexeme)) : Prop :=
  ∀ i pattern, names.HasPattern i pattern → ∃ a, TableImage.automaton? pattern = some a ∧
    lexemes[i]? = some (some ⟨pattern, a⟩)

namespace TableImage

open Table

/-! ## Bits and entries -/

theorem testBit_ofBits (bits : List Bool) (i : Nat) :
    (ofBits bits).testBit i = (bits[i]?).getD false := by
  induction bits generalizing i with
  | nil => simp [ofBits]
  | cons b rest ih =>
    have hdiv : (b.toNat + 2 * ofBits rest) / 2 = ofBits rest := by
      cases b <;> simp only [Bool.toNat_false, Bool.toNat_true] <;> omega
    cases i with
    | zero =>
      cases b <;> simp [ofBits, Nat.testBit_zero, Nat.add_mod]
    | succ i => rw [ofBits, Nat.testBit_succ, hdiv, ih, List.getElem?_cons_succ]

theorem ofBits_lt (bits : List Bool) : ofBits bits < 2 ^ bits.length := by
  induction bits with
  | nil => decide
  | cons b rest ih =>
    rw [ofBits, List.length_cons, Nat.pow_succ]
    cases b <;> simp only [Bool.toNat_false, Bool.toNat_true] <;> omega

/-- A number of 16 bits is read back with its sign. -/
theorem signed16_unsigned16 {n : Int} (h : -32768 ≤ n) (h' : n ≤ 32767) :
    signed16 (unsigned16 n) = n := by
  unfold signed16 unsigned16
  rw [Int.toNat_of_nonneg (Int.emod_nonneg n (by decide)), Int.bmod_def]
  omega

theorem unsigned16_lt (n : Int) : unsigned16 n < 256 ^ 2 := by
  have := Int.emod_lt_of_pos n (show 0 < (65536 : Int) by decide)
  unfold unsigned16
  omega

theorem littleEndian_one (n : Nat) : littleEndian 1 n = [UInt8.ofNat n] := by
  rw [littleEndian, littleEndian]
  congr 1
  exact UInt8.ofNat_mod_size

/-- What is read entry by entry, where each is known. -/
theorem readMany_of_get {α : Type} {count : Nat} {read : Nat → Except LoadFault α} {xs : Array α}
    (hsize : xs.size = count) (h : ∀ i (hi : i < xs.size), read i = .ok xs[i]) :
    readMany count read = .ok xs := by
  rw [readMany_eq_ok, List.forall₂_iff_get]
  refine ⟨by rw [List.length_range, Array.length_toList, hsize], fun i hi hi' => ?_⟩
  simpa using h i (by rwa [Array.length_toList] at hi')

/-- What is read entry by entry, where something is known of each. -/
theorem exists_readMany {α : Type} {count : Nat} {read : Nat → Except LoadFault α}
    {R : Nat → α → Prop} {P : Array α → Prop} (h : ∀ i < count, ∃ x, read i = .ok x ∧ R i x)
    (hP : ∀ xs : Array α, xs.size = count → (∀ i (hi : i < xs.size), R i xs[i]) → P xs) :
    ∃ xs : Array α, readMany count read = .ok xs ∧ P xs := by
  have hentry := fun i : Fin count => h i i.isLt
  -- what each entry reads as is chosen once for all places
  choose x hread hR using hentry
  refine ⟨.ofFn x, readMany_of_get (Array.size_ofFn ..) fun i hi => ?_,
    hP _ (Array.size_ofFn ..) fun i hi => ?_⟩
  · rw [Array.getElem_ofFn]
    exact hread ⟨i, by simpa using hi⟩
  · rw [Array.getElem_ofFn]
    exact hR ⟨i, by simpa using hi⟩

/-- The same where reading goes on with the entries. -/
theorem exists_readMany_bind {α β : Type} {count : Nat} {read : Nat → Except LoadFault α}
    {next : Array α → Except LoadFault β} {R : Nat → α → Prop} {P : β → Prop}
    (h : ∀ i < count, ∃ x, read i = .ok x ∧ R i x)
    (hP : ∀ xs : Array α, xs.size = count → (∀ i (hi : i < xs.size), R i xs[i]) →
      ∃ y, next xs = .ok y ∧ P y) :
    ∃ y, (readMany count read >>= next) = .ok y ∧ P y := by
  obtain ⟨xs, hxs, y, hy, hp⟩ := exists_readMany h hP
  exact ⟨y, Except.bind_eq_ok.mpr ⟨xs, hxs, hy⟩, hp⟩

theorem stringAt_eq_ok {strings : Array String} {id : Nat} {s : String}
    (h : strings[id]? = some s) : stringAt strings id = .ok s := by
  rw [stringAt, h]

variable {codec : Automaton.Codec} {g : FlatGrammar} {p : ParserTable} {names : Names}
  {symbols : List (List UInt8)} {fields : List Nat} {name : Nat} {bytes : ByteArray}

/-! ## Strings -/

/-- A text is read from its bytes. -/
theorem fromUTF8?_toUTF8 (s : String) : String.fromUTF8? (ofBytes s.toUTF8.toList) = some s := by
  rw [ofBytes_toList, String.fromUTF8?]
  exact dif_pos s.isValidUTF8

theorem loadStrings_eq_ok (hw : Writes codec g p names symbols fields name)
    (hl : Laid bytes (headerOf g p names symbols fields name) (holds g p names symbols fields)) :
    loadStrings bytes (headerOf g p names symbols fields name) = .ok names.strings := by
  have hends : (names.strings.toList.map fun s => s.toUTF8.toList).map List.length =
      names.strings.toList.map fun s => s.toUTF8.toList.length := by
    rw [List.map_map]
    rfl
  have hblob : holds g p names symbols fields .stringBlob =
      names.strings.toList.flatMap fun s => s.toUTF8.toList := (List.flatMap_def ..).symm
  have hsize : (holds g p names symbols fields .stringBlob).length =
      sumOf (fun s => s.toUTF8.toList.length) names.strings.toList := by
    rw [hblob, length_flatMap_sumOf]
  have hlt := hw.length_holds_lt .stringBlob
  refine readMany_of_get rfl fun i hi => ?_
  have hi' : i < names.strings.toList.length := by rwa [Array.length_toList]
  -- where the string starts, and where it ends
  have hplace : ∀ j ≤ names.strings.toList.length, numberAt bytes 4
      ((headerOf g p names symbols fields name).offset .stringTable + 4 * j) =
        .ok (sumOf (fun s => s.toUTF8.toList.length) (names.strings.toList.take j)) := by
    intro j hj
    have hj' : j < (0 :: ends 0 (names.strings.toList.map fun s => s.toUTF8.toList.length)).length := by
      rw [List.length_cons, length_ends, List.length_map]
      omega
    have hle := sumOf_take_le (fun s : String => s.toUTF8.toList.length) names.strings.toList j
    refine hl.entry (f := littleEndian 4) (a := []) (b := []) ?_
      (fun n _ => length_littleEndian 4 n) hj' ?_ ?_ rfl
    · rw [← hends]
      rfl
    · rw [getElem_ends, Nat.zero_add, List.append_nil, List.nil_append]
    · omega
  have hstart := hplace i (Nat.le_of_lt hi')
  have hstop := hplace (i + 1) hi'
  have hstep := sumOf_take_succ (fun s : String => s.toUTF8.toList.length) names.strings.toList hi'
  have hstop_le := sumOf_take_le (fun s : String => s.toUTF8.toList.length) names.strings.toList (i + 1)
  -- the bytes between the two places are those of the string
  have hslice := hl.slice .stringBlob
    (sumOf (fun s => s.toUTF8.toList.length) (names.strings.toList.take i)) _
    (hstep ▸ Nat.le_add_right _ _) (Nat.le_trans hstop_le (Nat.le_of_eq hsize.symm))
  rw [hstep, Nat.add_sub_cancel_left, hblob,
    take_drop_flatMap (fun s : String => s.toUTF8.toList) _ hi', ← hstep] at hslice
  simp only [Except.bind_eq_ok, Except.guard_eq_ok]
  refine ⟨_, hstart, _, hstop, ?_, _, hslice, ?_⟩
  · have hcount : (headerOf g p names symbols fields name).stringBlobSize =
        (holds g p names symbols fields .stringBlob).length := rfl
    simp only [Bool.or_eq_true, decide_eq_true_eq, hcount, hsize]
    omega
  · rw [fromUTF8?_toUTF8, Array.getElem_toList]
    rfl

/-! ## Automata -/

/-- What stands in the table of patterns at a position, and in the blob between two positions. -/
theorem pattern_laid (hw : Writes codec g p names symbols fields name)
    (hl : Laid bytes (headerOf g p names symbols fields name) (holds g p names symbols fields))
    {i : Nat} (hi : i < names.patterns.size) :
    ∃ start stop gap,
      numberAt bytes 2 ((headerOf g p names symbols fields name).offset .patternTable + 8 * (i + 1)) =
        .ok names.patterns[i].string ∧
      numberAt bytes 4 ((headerOf g p names symbols fields name).offset .patternTable +
        8 * (i + 1) + 4) = .ok start ∧
      numberAt bytes 4 ((headerOf g p names symbols fields name).offset .patternTable +
        8 * (i + 1) + 12) = .ok stop ∧ start ≤ stop ∧
      stop ≤ (headerOf g p names symbols fields name).patternBlobSize ∧
      sliceAt bytes ((headerOf g p names symbols fields name).offset .patternBlob + start)
        ((headerOf g p names symbols fields name).offset .patternBlob + stop) =
          .ok (ofBytes (names.patterns[i].automaton ++ List.replicate gap 0)) := by
  have hi' : i < names.patterns.toList.length := by rwa [Array.length_toList]
  obtain ⟨start, stop, gap, hstart, hstop, -, hle, hend, hslice⟩ :=
    patternStarts_spec 0 names.patterns.toList hi'
  rw [Nat.zero_add] at hend
  rw [Nat.sub_zero] at hslice
  have hsize : (patternSections 0 names.patterns.toList).1.length < 256 ^ 4 :=
    hw.length_holds_lt .patternBlob
  -- the row of the table at a position, of which the first is not used
  have hbody : holds g p names symbols fields .patternTable =
      ((0, 0) :: patternRows 0 names.patterns.toList).flatMap
        fun row : Nat × Nat => patternEntry row.1 row.2 := by
    rw [List.flatMap_cons, ← patternSections_snd]
    rfl
  have hrow : ∀ j (hj : j + 1 < ((0, 0) :: patternRows 0 names.patterns.toList).length) place,
      (patternStarts 0 names.patterns.toList)[j]? = some place →
      ((0, 0) :: patternRows 0 names.patterns.toList)[j + 1].2 = place := by
    intro j hj place hplace
    obtain ⟨_, hget⟩ := List.getElem?_eq_some_iff.mp hplace
    rw [List.getElem_cons_succ, ← hget]
    simp [patternRows]
  have hlength : ((0, 0) :: patternRows 0 names.patterns.toList).length =
      names.patterns.size + 2 := by
    rw [List.length_cons, length_patternRows, Array.length_toList]
  -- the places in the table are those that the starts were computed for
  have hplace : ∀ j (hj : j + 1 < ((0, 0) :: patternRows 0 names.patterns.toList).length) place,
      (patternStarts 0 names.patterns.toList)[j]? = some place → place < 256 ^ 4 →
      numberAt bytes 4 ((headerOf g p names symbols fields name).offset .patternTable +
        8 * (j + 1) + 4) = .ok place := by
    intro j hj place hget hlt
    refine hl.entry (a := littleEndian 2 ((0, 0) :: patternRows 0 names.patterns.toList)[j + 1].1 ++
      [0, 0]) (b := []) hbody (fun row _ => length_patternEntry row.1 row.2) hj ?_ hlt ?_
    · rw [hrow j hj place hget, List.append_nil]
      rfl
    · simp [Nat.add_assoc]
  refine ⟨start, stop, gap, ?_, hplace i (by omega) start hstart (by omega), ?_, hle, hend, ?_⟩
  · obtain ⟨s, a, hs, -⟩ := hw.sound.patterns names.patterns[i] (Array.getElem_mem hi)
    have hlt := (Array.getElem?_eq_some_iff.mp hs).1
    have hle := hw.sound.strings_le
    have hj : i + 1 < ((0, 0) :: patternRows 0 names.patterns.toList).length := by omega
    refine hl.entry (a := []) (b := [0, 0] ++ littleEndian 4
      ((0, 0) :: patternRows 0 names.patterns.toList)[i + 1].2) hbody
      (fun row _ => length_patternEntry row.1 row.2) hj ?_ ?_ rfl
    · have hstring : ((0, 0) :: patternRows 0 names.patterns.toList)[i + 1].1 =
          names.patterns[i].string := by
        rw [List.getElem_cons_succ]
        simp [patternRows, hi]
      rw [← hstring, List.nil_append, ← List.append_assoc]
      rfl
    · unfold maxCount at hle
      omega
  · have := hplace (i + 1) (by omega) stop hstop (by omega)
    rwa [show ∀ n, n + 8 * (i + 1 + 1) + 4 = n + 8 * (i + 1) + 12 by omega] at this
  · rw [hl.slice .patternBlob start stop hle hend, ← Array.getElem_toList hi, ← hslice]
    rfl

theorem loadLexemes_eq_ok (hw : Writes codec g p names symbols fields name)
    (hl : Laid bytes (headerOf g p names symbols fields name) (holds g p names symbols fields))
    (hautomata : ∀ pattern a, g.UsesPattern pattern → automaton? pattern = some a →
      codec.ReadsBack a) :
    ∃ lexemes, loadLexemes codec bytes (headerOf g p names symbols fields name) names.strings =
      .ok lexemes ∧ names.Lexes lexemes := by
  refine exists_readMany (R := fun i lexeme => ∀ pattern, names.HasPattern i pattern →
    ∃ a, automaton? pattern = some a ∧ lexeme = some ⟨pattern, a⟩) (fun i hi => ?_)
    fun lexemes hsize hlexemes i pattern hpattern => ?_
  · cases i with
    -- entry 0 stands for no lexeme, and any other for the pattern before it
    | zero => exact ⟨none, rfl, fun _ h => absurd h.1 (Nat.lt_irrefl 0)⟩
    | succ i =>
      have hi' : i < names.patterns.size := Nat.lt_of_succ_lt_succ hi
      obtain ⟨start, stop, gap, hid, hstart, hstop, hle, hend, hslice⟩ := pattern_laid hw hl hi'
      obtain ⟨s, a, hs, hused, ha, hencode⟩ :=
        hw.sound.patterns names.patterns[i] (Array.getElem_mem hi')
      refine ⟨some ⟨s, a⟩, ?_, fun pattern hpattern => ?_⟩
      · rw [if_neg (Nat.succ_ne_zero i)]
        simp only [Except.bind_eq_ok, Except.guard_eq_ok]
        refine ⟨_, hid, _, hstart, _, hstop, ?_, s, stringAt_eq_ok hs, _, hslice, ?_⟩
        · simp only [Bool.or_eq_true, decide_eq_true_eq]
          omega
        · rw [toList_ofBytes, hencode, hautomata s a hused ha]
          rfl
      -- the strings of a pattern number are unique, so this is the pattern that was written
      · obtain ⟨-, e, he, hstring⟩ := hpattern
        rw [Nat.add_sub_cancel, Array.getElem?_eq_getElem hi'] at he
        cases he
        cases hs.symm.trans hstring
        exact ⟨a, ha, rfl⟩
  -- a pattern that has a number is among those that were read
  · have hi : i < lexemes.size := by
      obtain ⟨hpos, e, he, -⟩ := hpattern
      have hlt := (Array.getElem?_eq_some_iff.mp he).1
      have hcount : (headerOf g p names symbols fields name).patternCount =
          names.patterns.size + 1 := rfl
      omega
    obtain ⟨a, ha, hlexeme⟩ := hlexemes i hi pattern hpattern
    exact ⟨a, ha, by rw [Array.getElem?_eq_getElem hi, hlexeme]⟩

/-- Every position of a pattern has a lexeme. -/
theorem isSome_of_loadLexemes {h : Header} {strings : Array String} {lexemes : Array (Option Lexeme)}
    (hl : loadLexemes codec bytes h strings = .ok lexemes) {i : Nat} (hpos : 0 < i)
    (hi : i < h.patternCount) : (lexemes.getD i none).isSome = true := by
  obtain ⟨hsize, hget⟩ := readMany_get hl
  have hi' : i < lexemes.size := hsize ▸ hi
  have hread := hget i hi'
  -- only the first place stands for no pattern
  rw [if_neg (Nat.ne_of_gt hpos)] at hread
  simp only [Except.bind_eq_ok, Except.guard_eq_ok] at hread
  obtain ⟨_, -, _, -, _, -, -, _, -, _, -, hread⟩ := hread
  rw [Array.getD_eq_getD_getElem?, Array.getElem?_eq_getElem hi', Option.getD_some]
  split at hread
  · rw [← Except.pure_eq_ok.mp hread]
    rfl
  · cases hread

/-! ## Symbols -/

/-- What lists that agree have at a place. -/
theorem getElem?_of_forall₂ {α β : Type} {R : α → β → Prop} {xs : Array α} {ys : Array β}
    (h : List.Forall₂ R xs.toList ys.toList) (i : Nat) :
    (xs[i]? = none ∧ ys[i]? = none) ∨ ∃ x y, xs[i]? = some x ∧ ys[i]? = some y ∧ R x y := by
  have hlen := h.length_eq
  rw [Array.length_toList, Array.length_toList] at hlen
  by_cases hi : i < xs.size
  · have hi' : i < ys.size := hlen ▸ hi
    refine .inr ⟨xs[i], ys[i], Array.getElem?_eq_getElem hi, Array.getElem?_eq_getElem hi', ?_⟩
    exact h.get (by rwa [Array.length_toList]) (by rwa [Array.length_toList])
  · exact .inl ⟨Array.getElem?_eq_none (by omega), Array.getElem?_eq_none (by omega)⟩

/-- The lexeme of a symbol is one that the loader accepts. -/
theorem lexemeOf_eq_ok (hg : g.Sound) {s : FlatSymbol} (hs : s ∈ g.symbols) {lexemes}
    (hlexemes : ∀ i, 0 < i → i < names.patterns.size + 1 → (lexemes.getD i none).isSome = true)
    (symbol : Nat) {lexeme : Nat} (hnone : s.lexeme? = none → lexeme = 0)
    (hsome : ∀ token, s.lexeme? = some token → names.HasPattern lexeme token.pattern) :
    ∃ found, lexemeOf lexemes symbol s.terminal lexeme = .ok found ∧
      (s.lexeme? = none → found = none) ∧ ∀ token, s.lexeme? = some token →
        ∃ i, found = some i ∧ names.HasPattern i token.pattern := by
  unfold lexemeOf
  -- only a token that is looked for has a lexeme, and this one is a pattern
  cases htoken : s.lexeme? with
  | none =>
    rw [if_pos (hnone htoken)]
    exact ⟨none, rfl, fun _ => rfl, fun _ h => by cases h⟩
  | some token =>
    obtain ⟨hpos, e, he, hstring⟩ := hsome token htoken
    have hlt := (Array.getElem?_eq_some_iff.mp he).1
    have hterminal := (hg.proper s hs token (Option.filter_eq_some_iff.mp htoken).1).1
    rw [if_neg (Nat.ne_of_gt hpos), hterminal, hlexemes lexeme hpos (by omega)]
    refine ⟨some lexeme, rfl, fun h => (by cases h), fun other ho => ?_⟩
    cases ho
    exact ⟨lexeme, rfl, hpos, e, he, hstring⟩

/-- What stands in the entry of a symbol. -/
theorem symbol_laid (hw : Writes codec g p names symbols fields name)
    (hl : Laid bytes (headerOf g p names symbols fields name) (holds g p names symbols fields))
    {i : Nat} (hi : i < g.symbols.size) :
    ∃ id lexeme,
      numberAt bytes 2 ((headerOf g p names symbols fields name).offset .symbols + 8 * i) = .ok id ∧
      numberAt bytes 1 ((headerOf g p names symbols fields name).offset .symbols + 8 * i + 2) =
        .ok (marks g.symbols[i]) ∧
      numberAt bytes 2 ((headerOf g p names symbols fields name).offset .symbols + 8 * i + 4) =
        .ok lexeme ∧
      numberAt bytes 2 ((headerOf g p names symbols fields name).offset .symbols + 8 * i + 6) =
        .ok (precedence g.symbols[i]) ∧
      names.strings[id]? = some g.symbols[i].name ∧ (g.symbols[i].lexeme? = none → lexeme = 0) ∧
      ∀ token, g.symbols[i].lexeme? = some token → names.HasPattern lexeme token.pattern := by
  have hi' : i < symbols.length := by rwa [← hw.entries.length_eq, Array.length_toList]
  obtain ⟨id, lexeme, hentry, hname, hnone, hsome⟩ :=
    hw.entries.get (show i < g.symbols.toList.length by rwa [Array.length_toList]) hi'
  simp only [List.get_eq_getElem, Array.getElem_toList] at hentry hname hnone hsome
  have hstrings := hw.sound.strings_le
  have hpatterns := hw.sound.patterns_lt
  unfold maxCount at hstrings hpatterns
  have hid := (Array.getElem?_eq_some_iff.mp hname).1
  -- a lexeme is 0 or numbers a pattern, of which there are few enough for two bytes
  have hlexeme : lexeme < 65536 := by
    cases htoken : g.symbols[i].lexeme? with
    | none =>
      rw [hnone htoken]
      decide
    | some token =>
      obtain ⟨-, e, he, -⟩ := hsome token htoken
      have := (Array.getElem?_eq_some_iff.mp he).1
      omega
  have hmarks : marks g.symbols[i] < 2 ^ 6 := ofBits_lt _
  have hbody : holds g p names symbols fields .symbols = symbols.flatMap fun entry => entry :=
    List.flatMap_id'.symm
  -- each field is found behind what the entry has before it
  refine ⟨id, lexeme, ?_, ?_, ?_, ?_, hname, hnone, hsome⟩
  · exact hl.entry (a := []) hbody hw.length_entry hi' hentry (by omega) rfl
  · refine hl.entry (a := littleEndian 2 id) (b := 0 :: (littleEndian 2 lexeme ++
      littleEndian 2 (precedence g.symbols[i]))) hbody hw.length_entry hi' ?_ (by omega) ?_
    · rw [hentry, littleEndian_one]
      rfl
    · simp [Nat.add_assoc]
  · refine hl.entry (a := littleEndian 2 id ++ [UInt8.ofNat (marks g.symbols[i]), 0])
      (b := littleEndian 2 (precedence g.symbols[i])) hbody hw.length_entry hi' ?_ hlexeme ?_
    · rw [hentry, List.append_assoc]
    · simp [Nat.add_assoc]
  · refine hl.entry (a := littleEndian 2 id ++ ([UInt8.ofNat (marks g.symbols[i]), 0] ++
      littleEndian 2 lexeme)) (b := []) hbody hw.length_entry hi' ?_ (unsigned16_lt _) ?_
    · rw [hentry, List.append_nil, List.append_assoc, List.append_assoc]
      rfl
    · simp [Nat.add_assoc]

/-- The precedence of a token fits 16 bits. -/
theorem signed16_precedence (hg : g.Sound) {s : FlatSymbol} (hs : s ∈ g.symbols) :
    signed16 (precedence s) = (s.lexeme?.map (·.precedence)).getD 0 := by
  unfold precedence
  cases htoken : s.lexeme? with
  | none => exact signed16_unsigned16 (by decide) (by decide)
  | some token =>
    obtain ⟨-, -, hle, hle'⟩ := hg.proper s hs token (Option.filter_eq_some_iff.mp htoken).1
    exact signed16_unsigned16 hle hle'

/-- What lists that agree say of each of their members. -/
theorem map_of_forall₂ {α β γ : Type} {R : α → β → Prop} {xs : Array α} {ys : Array β}
    (h : List.Forall₂ R xs.toList ys.toList) {f : α → γ} {f' : β → γ}
    (hf : ∀ x y, R x y → f x = f' y) : xs.map f = ys.map f' := by
  refine Array.ext_getElem? fun i => ?_
  rw [Array.getElem?_map, Array.getElem?_map]
  obtain ⟨hx, hy⟩ | ⟨x, y, hx, hy, hxy⟩ := getElem?_of_forall₂ h i
  · rw [hx, hy]
    rfl
  · rw [hx, hy, Option.map_some, Option.map_some, hf x y hxy]

theorem any_of_agrees {infos : Array SymbolInfo}
    (h : List.Forall₂ (SymbolInfo.Agrees names) infos.toList g.symbols.toList)
    {f : SymbolInfo → Bool} {f' : FlatSymbol → Bool}
    (hf : ∀ info s, SymbolInfo.Agrees names info s → f info = f' s) (s : Symbol) :
    (infos[s]?).any f = (g.symbols[s]?).any f' := by
  have hmap := congrArg (·[s]?) (map_of_forall₂ h hf)
  simp only [Array.getElem?_map] at hmap
  cases hx : infos[s]? <;> cases hy : g.symbols[s]? <;> simp_all

theorem any_terminal_of_agrees {infos : Array SymbolInfo}
    (h : List.Forall₂ (SymbolInfo.Agrees names) infos.toList g.symbols.toList) (s : Symbol) :
    (infos[s]?).any (·.terminal) = g.isTerminal s :=
  any_of_agrees h (fun _ _ h => h.terminal) s

theorem loadSymbols_eq_ok (hg : g.Sound) (hw : Writes codec g p names symbols fields name)
    (hl : Laid bytes (headerOf g p names symbols fields name) (holds g p names symbols fields))
    {lexemes : Array (Option Lexeme)}
    (hlexemes : ∀ i, 0 < i → i < names.patterns.size + 1 → (lexemes.getD i none).isSome = true) :
    ∃ infos, loadSymbols bytes (headerOf g p names symbols fields name) names.strings lexemes =
        .ok infos ∧ List.Forall₂ (SymbolInfo.Agrees names) infos.toList g.symbols.toList := by
  obtain ⟨first, hfirst, hterminal, -⟩ := hg.builtIn 0 (by omega)
  obtain ⟨second, hsecond, hterminal', -⟩ := hg.builtIn 1 (by omega)
  have htwo := (Array.getElem?_eq_some_iff.mp hsecond).1
  have hcount : (headerOf g p names symbols fields name).symbolCount = g.symbols.size := rfl
  unfold loadSymbols
  rw [if_neg (by omega)]
  refine exists_readMany_bind (R := fun i info => ∀ s, g.symbols[i]? = some s → info.Agrees names s)
    (fun i hi => ?_) fun infos hsize hagrees => ?_
  · obtain ⟨id, lexeme, hid, hmarks, hlexeme, hprecedence, hname, hnone, hsome⟩ := symbol_laid hw hl hi
    have hs : g.symbols[i] ∈ g.symbols := Array.getElem_mem hi
    obtain ⟨found, hfound, hnone, hsome⟩ := lexemeOf_eq_ok hg hs hlexemes i hnone hsome
    simp only [Except.bind_eq_ok, Except.pure_eq_ok]
    have hbit := testBit_ofBits [g.symbols[i].terminal, g.symbols[i].named, g.symbols[i].visible,
      g.symbols[i].extra, g.symbols[i].lexeme?.any (·.literal),
      g.symbols[i].lexeme?.any (·.immediate)]
    refine ⟨_, ⟨_, hmarks, _, hlexeme, found, ?_, _, hid, _, stringAt_eq_ok hname, _, hprecedence,
      rfl⟩, fun s hs' => ?_⟩
    · rw [← hfound]
      exact congrArg (lexemeOf lexemes i · lexeme) (hbit 0)
    · rw [Array.getElem?_eq_getElem hi] at hs'
      cases hs'
      refine ⟨rfl, hbit 0, hbit 1, hbit 2, hbit 3, hbit 4, hbit 5, ?_, hnone, hsome⟩
      dsimp only
      exact signed16_precedence hg hs
  -- what was read symbol by symbol agrees with the grammar as a whole
  · have hforall : List.Forall₂ (SymbolInfo.Agrees names) infos.toList g.symbols.toList := by
      refine List.forall₂_iff_get.mpr ⟨by rw [Array.length_toList, Array.length_toList, hsize]; rfl,
        fun i hi hi' => ?_⟩
      rw [Array.length_toList] at hi hi'
      exact hagrees i hi _ (Array.getElem?_eq_getElem hi')
    refine ⟨infos, ?_, hforall⟩
    -- the first two are terminals, as they are in the grammar
    have hall : (infos.toList.take 2).all (·.terminal) = true := by
      have h0 := any_terminal_of_agrees hforall 0
      have h1 := any_terminal_of_agrees hforall 1
      rw [FlatGrammar.isTerminal, hfirst] at h0
      rw [FlatGrammar.isTerminal, hsecond] at h1
      rw [← Array.getElem?_toList] at h0 h1
      have hlength : 2 ≤ infos.toList.length := by
        rw [Array.length_toList, hsize, hcount]
        exact htwo
      match hinfos : infos.toList, hlength with
      | a :: b :: rest, _ =>
        rw [hinfos] at h0 h1
        simp only [List.getElem?_cons_zero, List.getElem?_cons_succ, Option.any_some, hterminal,
          hterminal'] at h0 h1
        simp [h0, h1]
    rw [if_pos hall]
    rfl

/-! ## Fields -/

theorem loadFields_eq_ok (hw : Writes codec g p names symbols fields name)
    (hl : Laid bytes (headerOf g p names symbols fields name) (holds g p names symbols fields)) :
    loadFields bytes (headerOf g p names symbols fields name) names.strings = .ok g.fields := by
  have hstrings := hw.sound.strings_le
  unfold maxCount at hstrings
  refine readMany_of_get rfl fun i hi => ?_
  have hi' : i < fields.length := by rwa [← hw.listed.length_eq, Array.length_toList]
  have hname := hw.listed.get (show i < g.fields.toList.length by rwa [Array.length_toList]) hi'
  simp only [List.get_eq_getElem, Array.getElem_toList] at hname
  have hlt := (Array.getElem?_eq_some_iff.mp hname).1
  -- the entry is the number of the name, as it was written
  have hnumber : numberAt bytes 2 ((headerOf g p names symbols fields name).offset .fields + 2 * i) =
      .ok fields[i] :=
    hl.entry (f := littleEndian 2) (a := []) (b := []) rfl (fun n _ => length_littleEndian 2 n) hi'
      (List.append_nil _).symm (by omega) rfl
  exact Except.bind_eq_ok.mpr ⟨_, hnumber, stringAt_eq_ok hname⟩

end TableImage

end IncrementalParsing
