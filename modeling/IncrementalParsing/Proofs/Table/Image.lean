import IncrementalParsing.Proofs.Except
import IncrementalParsing.Proofs.Table.Layout

/-!
# What is written to a table file

`TableImage.write` puts a header in front of what each section holds.  Here it is said what that is
and that every position that it uses is that of the name or the pattern which is meant.

## Key results

- `named_of_nameAll`: the entries of symbols and fields, and the positions of what they name
- `write_eq_ok`: what is written when a table is written
-/

namespace IncrementalParsing

/-- More strings and patterns may be named; those that are keep their positions. -/
structure Names.Grows (names names' : Names) : Prop where
  strings : ∀ (i : Nat) (s : String), names.strings[i]? = some s → names'.strings[i]? = some s
  patterns : ∀ (i : Nat) (e : PatternEntry),
    names.patterns[i]? = some e → names'.patterns[i]? = some e

theorem Names.Grows.refl (names : Names) : names.Grows names := ⟨fun _ _ h => h, fun _ _ h => h⟩

theorem Names.Grows.trans {a b c : Names} (h : a.Grows b) (h' : b.Grows c) : a.Grows c where
  strings := fun i s hs => h'.strings i s (h.strings i s hs)
  patterns := fun i e he => h'.patterns i e (h.patterns i e he)

/-- A text is the pattern of one of the tokens. -/
def FlatGrammar.UsesPattern (g : FlatGrammar) (pattern : String) : Prop :=
  ∃ s ∈ g.symbols, ∃ token, s.lexeme? = some token ∧ token.pattern = pattern

/-- There are few enough strings and patterns, and every pattern is one of the strings, belongs to a
token and has its automaton. -/
structure Names.Sound (codec : Automaton.Codec) (g : FlatGrammar) (names : Names) : Prop where
  strings_le : names.strings.size ≤ TableImage.maxCount
  patterns_lt : names.patterns.size < TableImage.maxCount
  patterns : ∀ e ∈ names.patterns, ∃ s a, names.strings[e.string]? = some s ∧ g.UsesPattern s ∧
    TableImage.automaton? s = some a ∧ e.automaton = codec.encode a

/-- A text is the pattern of a position, which count from one. -/
def Names.HasPattern (names : Names) (i : Nat) (pattern : String) : Prop :=
  0 < i ∧ ∃ e, names.patterns[i - 1]? = some e ∧ names.strings[e.string]? = some pattern

theorem Names.HasPattern.grows {names names' : Names} {i : Nat} {pattern : String}
    (h : names.HasPattern i pattern) (hg : names.Grows names') : names'.HasPattern i pattern :=
  have ⟨hpos, e, he, hs⟩ := h
  ⟨hpos, e, hg.patterns _ e he, hg.strings _ _ hs⟩

namespace TableImage

open StateT

variable {codec : Automaton.Codec} {g : FlatGrammar}

/-! ## Names -/

/-- A string is found where it was named before, or it is named now. -/
theorem string_spec {s : String} {names names' : Names} {i : Nat} (hn : names.Sound codec g)
    (h : (string s).run names = .ok (i, names')) :
    names'.Sound codec g ∧ names.Grows names' ∧ names'.strings[i]? = some s := by
  unfold string at h
  simp only [bind_run_ok, get_run_ok] at h
  obtain ⟨_, _, ⟨rfl, rfl⟩, h⟩ := h
  split at h
  · rename_i j hfound
    obtain ⟨rfl, rfl⟩ := pure_run_ok.mp h
    obtain ⟨hlt, heq, -⟩ := Array.findIdx?_eq_some_iff_getElem.mp hfound
    exact ⟨hn, .refl _, by rw [Array.getElem?_eq_getElem hlt, eq_of_beq heq]⟩
  -- a new string comes after all that are there, which keep their numbers
  · simp only [guard_run_ok, bind_run_ok, set_run_ok, pure_run_ok] at h
    obtain ⟨hlt, _, _, rfl, rfl, rfl⟩ := h
    have hpush : ∀ (j : Nat) (t : String), names.strings[j]? = some t →
        (names.strings.push s)[j]? = some t := by
      intro j t ht
      obtain ⟨hj, -⟩ := Array.getElem?_eq_some_iff.mp ht
      rw [Array.getElem?_push, if_neg (by omega), ht]
    refine ⟨⟨?_, hn.patterns_lt, fun e he => ?_⟩, ⟨hpush, fun _ _ h => h⟩, ?_⟩
    · simp only [Array.size_push]
      omega
    · obtain ⟨t, a, ht, hautomaton⟩ := hn.patterns e he
      exact ⟨t, a, hpush _ _ ht, hautomaton⟩
    · rw [Array.getElem?_push, if_pos rfl]

/-- A pattern is found where it was named before, or it is named now with its automaton. -/
theorem pattern_spec {symbol regex : String} {id : Nat} {names names' : Names} {i : Nat}
    (hn : names.Sound codec g) (hid : names.strings[id]? = some regex) (hused : g.UsesPattern regex)
    (h : (pattern codec symbol regex id).run names = .ok (i, names')) :
    names'.Sound codec g ∧ names.Grows names' ∧ names'.HasPattern i regex := by
  unfold pattern at h
  simp only [bind_run_ok, get_run_ok] at h
  obtain ⟨_, _, ⟨rfl, rfl⟩, h⟩ := h
  split at h
  -- the pattern is there already
  · rename_i j hfound
    obtain ⟨rfl, rfl⟩ := pure_run_ok.mp h
    obtain ⟨hlt, heq, -⟩ := Array.findIdx?_eq_some_iff_getElem.mp hfound
    refine ⟨hn, .refl _, Nat.succ_pos _, names.patterns[j], Array.getElem?_eq_getElem hlt, ?_⟩
    rw [eq_of_beq heq, hid]
  -- a new pattern, which gets the number after all that are there
  · split at h
    · exact (throw_run_ok.mp h).elim
    · rename_i automaton hautomaton
      simp only [guard_run_ok, bind_run_ok, set_run_ok, pure_run_ok] at h
      obtain ⟨hlt, _, _, rfl, rfl, rfl⟩ := h
      refine ⟨⟨hn.strings_le, ?_, fun e he => ?_⟩, ⟨fun _ _ h => h, fun j e he => ?_⟩,
        Nat.succ_pos _, ⟨id, codec.encode automaton⟩, ?_, hid⟩
      · simp only [Array.size_push]
        omega
      · obtain he | rfl := Array.mem_push.mp he
        · exact hn.patterns e he
        · exact ⟨regex, automaton, hid, hused, hautomaton, rfl⟩
      · obtain ⟨hj, -⟩ := Array.getElem?_eq_some_iff.mp he
        rw [Array.getElem?_push, if_neg (by omega), he]
      · rw [Nat.add_sub_cancel, Array.getElem?_push, if_pos rfl]

/-- The marks of a symbol as they are written. -/
def marks (s : FlatSymbol) : Nat :=
  ofBits [s.terminal, s.named, s.visible, s.extra, s.lexeme?.any (·.literal),
    s.lexeme?.any (·.immediate)]

/-- What decides between tokens of the same length, as it is written. -/
def precedence (s : FlatSymbol) : Nat := unsigned16 ((s.lexeme?.map (·.precedence)).getD 0)

/-- An entry of a symbol: the position of its name, its marks, the position of its pattern, which only
a token has, and its precedence. -/
def IsSymbolEntry (names : Names) (s : FlatSymbol) (entry : List UInt8) : Prop :=
  ∃ name lexeme, entry = littleEndian 2 name ++ ([UInt8.ofNat (marks s), 0] ++
      (littleEndian 2 lexeme ++ littleEndian 2 (precedence s))) ∧
    names.strings[name]? = some s.name ∧ (s.lexeme? = none → lexeme = 0) ∧
    ∀ token, s.lexeme? = some token → names.HasPattern lexeme token.pattern

theorem IsSymbolEntry.grows {names names' : Names} {s : FlatSymbol} {entry : List UInt8}
    (h : IsSymbolEntry names s entry) (hg : names.Grows names') : IsSymbolEntry names' s entry :=
  have ⟨name, lexeme, hentry, hname, hnone, hsome⟩ := h
  ⟨name, lexeme, hentry, hg.strings _ _ hname, hnone, fun token ht => (hsome token ht).grows hg⟩

theorem symbolEntry_spec {s : FlatSymbol} (hs : s ∈ g.symbols) {names : Names} {entry : List UInt8}
    {names' : Names} (hn : names.Sound codec g)
    (h : (symbolEntry codec s).run names = .ok (entry, names')) :
    names'.Sound codec g ∧ names.Grows names' ∧ IsSymbolEntry names' s entry := by
  unfold symbolEntry at h
  simp only [bind_run_ok] at h
  obtain ⟨name, names₁, hname, h⟩ := h
  obtain ⟨hn₁, hg₁, hname⟩ := string_spec hn hname
  split at h
  · rename_i token htoken
    simp only [bind_run_ok] at h
    obtain ⟨id, names₂, hid, lexeme, names₃, hlexeme, h⟩ := h
    -- strings that were numbered keep their numbers while later ones come in
    obtain ⟨hn₂, hg₂, hid⟩ := string_spec hn₁ hid
    obtain ⟨hn₃, hg₃, hlexeme⟩ := pattern_spec hn₂ hid ⟨s, hs, token, htoken, rfl⟩ hlexeme
    obtain ⟨rfl, rfl⟩ := pure_run_ok.mp h
    refine ⟨hn₃, hg₁.trans (hg₂.trans hg₃), name, lexeme, ?_,
      hg₃.strings _ _ (hg₂.strings _ _ hname), fun hnone => by simp [hnone] at htoken,
      fun other ho => ?_⟩
    · simp only [List.append_assoc]
      rfl
    · cases htoken.symm.trans ho
      exact hlexeme
  -- a symbol without a token names no lexeme
  · rename_i hnone
    rw [bind_run_ok] at h
    obtain ⟨lexeme, names₂, hlexeme, h⟩ := h
    obtain ⟨rfl, rfl⟩ := pure_run_ok.mp hlexeme
    obtain ⟨rfl, rfl⟩ := pure_run_ok.mp h
    refine ⟨hn₁, hg₁, name, 0, ?_, hname, fun _ => rfl, fun token ht => by simp [hnone] at ht⟩
    simp only [List.append_assoc]
    rfl

/-- The entries of symbols and fields, and the positions of names. -/
structure Named (codec : Automaton.Codec) (g : FlatGrammar) (names : Names)
    (symbols : List (List UInt8)) (fields : List Nat) (name : Nat) : Prop where
  sound : names.Sound codec g
  named : names.strings[name]? = some g.name
  entries : List.Forall₂ (IsSymbolEntry names) g.symbols.toList symbols
  listed : List.Forall₂ (fun field i => names.strings[i]? = some field) g.fields.toList fields

theorem named_of_nameAll {name : Nat} {symbols : List (List UInt8)} {fields : List Nat}
    {names : Names} (h : (nameAll codec g).run ⟨#[], #[]⟩ = .ok ((name, symbols, fields), names)) :
    Named codec g names symbols fields name := by
  unfold nameAll at h
  simp only [bind_run_ok, pure_run_ok, Prod.mk.injEq] at h
  obtain ⟨_, names₁, hname, _, names₂, hsymbols, _, names₃, hfields, ⟨rfl, rfl, rfl⟩, rfl⟩ := h
  have hempty : Names.Sound codec g ⟨#[], #[]⟩ :=
    ⟨Nat.zero_le _, by decide, fun e he => absurd he (Array.not_mem_empty e)⟩
  obtain ⟨hn₁, -, hname⟩ := string_spec hempty hname
  -- the names come in one after the other, and what was named stays named
  obtain ⟨hn₂, hg₂, hentries⟩ := mapM_run_grows (Q := IsSymbolEntry) Names.Grows.refl
    (fun _ _ _ h h' => h.trans h') (fun _ _ _ _ hg h => h.grows hg)
    (fun _ hs _ _ _ => symbolEntry_spec (Array.mem_toList_iff.mp hs)) hn₁ hsymbols
  obtain ⟨hn₃, hg₃, hall⟩ := mapM_run_grows (P := Names.Sound codec g)
    (Q := fun names field i => names.strings[i]? = some field) Names.Grows.refl
    (fun _ _ _ h h' => h.trans h') (fun _ _ _ _ hg h => hg.strings _ _ h)
    (fun _ _ _ _ _ hn h => string_spec hn h) hn₂ hfields
  exact ⟨hn₃, hg₃.strings _ _ (hg₂.strings _ _ hname),
    hentries.imp fun _ _ h => h.grows hg₃, hall⟩

/-! ## The file as a whole -/

/-- What each section holds, given the names that are used. -/
def holds (g : FlatGrammar) (p : ParserTable) (names : Names) (symbols : List (List UInt8))
    (fields : List Nat) : Section → List UInt8
  | .stringBlob => (stringSections names.strings.toList).1
  | .patternBlob => (patternSections 0 names.patterns.toList).1
  | .stringTable => (stringSections names.strings.toList).2
  | .patternTable => patternEntry 0 0 ++ (patternSections 0 names.patterns.toList).2
  | .symbols => symbols.flatten
  | .fields => fields.flatMap (littleEndian 2)
  | .productions => (withOffsets (fun p => p.parts.length) 0 g.productions.toList).flatMap
      fun (p, first) => productionEntry p first
  | .productionFields => g.productions.toList.flatMap fieldEntries
  | .states => (withOffsets (fun s => s.actions.length) 0 p.states.toList).flatMap
      fun (s, first) => stateEntry s first
  | .actions => p.states.toList.flatMap fun s => s.actions.flatMap actionEntry
  | .lexModes => (withOffsets List.length 0 p.lexModes.toList).flatMap
      fun (symbols, first) => lexModeEntry symbols first
  | .lexModeSymbols => p.lexModes.toList.flatMap fun symbols => symbols.flatMap (littleEndian 2)

/-- The header in front of it. -/
def header (g : FlatGrammar) (p : ParserTable) (names : Names) (name check total : Nat)
    (body : Section → List UInt8) : Header where
  magic := Header.tableMagic
  version := Header.currentVersion
  checksum := check
  totalSize := total
  stringBlobSize := (body .stringBlob).length
  patternBlobSize := (body .patternBlob).length
  actionCount := sumOf (fun s => s.actions.length) p.states.toList
  productionFieldCount := sumOf (fun p => p.parts.length) g.productions.toList
  lexModeSymbolCount := sumOf List.length p.lexModes.toList
  stringCount := names.strings.size
  patternCount := names.patterns.size + 1
  symbolCount := g.symbols.size
  fieldCount := g.fields.size
  productionCount := g.productions.toList.length
  stateCount := p.states.toList.length
  lexModeCount := p.lexModes.toList.length
  name := name
  start := g.start
  reserved := List.replicate 10 0

theorem checkCount_eq_ok {what : Counted} {n : Nat} {u : Unit} :
    checkCount what n = .ok u ↔ n ≤ maxCount := by
  unfold checkCount
  split
  · rename_i h
    simp only [reduceCtorEq, false_iff, Nat.not_le]
    exact h
  · rename_i h
    simp only [true_iff]
    omega

theorem forIn_checkCount {α : Type} {what : Counted} {count : α → Nat} {xs : List α} {u : PUnit}
    (h : (forIn xs PUnit.unit fun x _ => do
      checkCount what (count x)
      pure (ForInStep.yield PUnit.unit) : Except CompileFault PUnit) = .ok u) :
    ∀ x ∈ xs, count x ≤ maxCount := by
  induction xs with
  | nil => simp
  | cons x rest ih =>
    simp only [List.forIn_cons, Except.bind_eq_ok, Except.pure_eq_ok] at h
    obtain ⟨_, ⟨_, hx, rfl⟩, hrest⟩ := h
    intro y hy
    obtain rfl | hy := List.mem_cons.mp hy
    · exact checkCount_eq_ok.mp hx
    · exact ih hrest y hy

/-- What is written when a table is written. -/
structure Writes (codec : Automaton.Codec) (g : FlatGrammar) (p : ParserTable) (names : Names)
    (symbols : List (List UInt8)) (fields : List Nat) (name : Nat) : Prop
    extends Named codec g names symbols fields name where
  parts : ∀ q ∈ g.productions.toList, q.parts.length ≤ maxCount
  actions : ∀ s ∈ p.states.toList, s.actions.length ≤ maxCount
  productions : g.productions.toList.length ≤ maxCount
  total : Header.size + (Header.filled (holds g p names symbols fields) Section.all).length < 256 ^ 4

/-- The header that is written in front of what sections hold. -/
def headerOf (g : FlatGrammar) (p : ParserTable) (names : Names) (symbols : List (List UInt8))
    (fields : List Nat) (name : Nat) : Header :=
  header g p names name
    (checksum (ofBytes (Header.filled (holds g p names symbols fields) Section.all)))
    (Header.size + (Header.filled (holds g p names symbols fields) Section.all).length)
    (holds g p names symbols fields)

/-- What is written when a table is written, with the names that were given. -/
theorem exists_writes {p : ParserTable} {bytes : ByteArray} (h : writeWith codec g p = .ok bytes) :
    ∃ names symbols fields name,
      (nameAll codec g).run ⟨#[], #[]⟩ = .ok ((name, symbols, fields), names) ∧
      Writes codec g p names symbols fields name ∧
      bytes = ofBytes ((headerOf g p names symbols fields name).encode ++
        Header.filled (holds g p names symbols fields) Section.all) := by
  unfold writeWith at h
  simp only [Except.bind_eq_ok, Except.guard_eq_ok, Except.pure_eq_ok] at h
  -- every check of the writer was passed
  obtain ⟨⟨⟨name, symbols, fields⟩, names⟩, hnames, _, hparts, _, hactions, htotal, _, hproductions,
    hbytes⟩ := h
  have hfilled : Header.filled (holds g p names symbols fields) Section.all =
      List.flatMap (padTo Header.size) (Section.all.map (holds g p names symbols fields)) := by
    rw [Header.filled, List.flatMap_map]
  refine ⟨names, symbols, fields, name, hnames, ⟨named_of_nameAll hnames, forIn_checkCount hparts,
    forIn_checkCount hactions, checkCount_eq_ok.mp hproductions, ?_⟩, ?_⟩
  · rw [hfilled]
    exact Nat.lt_of_not_le htotal
  · unfold headerOf
    rw [hfilled]
    exact hbytes.symm

theorem write_eq_ok {p : ParserTable} {bytes : ByteArray}
    (h : writeWith codec g p = .ok bytes) :
    ∃ names symbols fields name, Writes codec g p names symbols fields name ∧
      bytes = ofBytes ((headerOf g p names symbols fields name).encode ++
        Header.filled (holds g p names symbols fields) Section.all) := by
  obtain ⟨names, symbols, fields, name, -, hwrites⟩ := exists_writes h
  exact ⟨names, symbols, fields, name, hwrites⟩

theorem forIn_checkCount_of_le {α : Type} {what : Counted} {count : α → Nat} {xs : List α}
    (h : ∀ x ∈ xs, count x ≤ maxCount) :
    (forIn xs PUnit.unit fun x _ => do
      checkCount what (count x)
      pure (ForInStep.yield PUnit.unit) : Except CompileFault PUnit) = .ok PUnit.unit := by
  induction xs with
  | nil => rfl
  | cons x rest ih =>
    rw [List.forIn_cons, Except.bind_eq_ok]
    exact ⟨.yield PUnit.unit, Except.bind_eq_ok.mpr
      ⟨(), checkCount_eq_ok.mpr (h x (List.mem_cons_self ..)), rfl⟩,
      ih fun y hy => h y (List.mem_cons_of_mem _ hy)⟩

/-- A table is written where its parts can be counted. -/
theorem writeWith_of_nameAll {p : ParserTable} {name : Nat}
    {symbols : List (List UInt8)} {fields : List Nat} {names : Names} {body : List UInt8}
    (hnames : (nameAll codec g).run ⟨#[], #[]⟩ = .ok ((name, symbols, fields), names))
    (hbody : Header.filled (holds g p names symbols fields) Section.all = body)
    (hparts : ∀ q ∈ g.productions.toList, q.parts.length ≤ maxCount)
    (hactions : ∀ s ∈ p.states.toList, s.actions.length ≤ maxCount)
    (hproductions : g.productions.toList.length ≤ maxCount)
    (htotal : Header.size + body.length < 0x100000000) :
    writeWith codec g p = .ok (ofBytes ((header g p names name (checksum (ofBytes body))
      (Header.size + body.length) (holds g p names symbols fields)).encode ++ body)) := by
  have hfilled : List.flatMap (padTo Header.size)
      (Section.all.map (holds g p names symbols fields)) = body := by
    rw [← hbody, Header.filled, List.flatMap_map]
  unfold writeWith
  simp only [Except.bind_eq_ok, Except.guard_eq_ok, Except.pure_eq_ok]
  -- each check of the writer is one of the bounds
  refine ⟨_, hnames, _, forIn_checkCount_of_le hparts, _, forIn_checkCount_of_le hactions, ?_,
    (), checkCount_eq_ok.mpr hproductions, ?_⟩
  · change ¬0x100000000 ≤ Header.size + (List.flatMap (padTo Header.size)
      (Section.all.map (holds g p names symbols fields))).length
    rw [hfilled]
    omega
  · rw [← hfilled]
    rfl

/-- The same for the form of this library. -/
theorem write_of_nameAll {p : ParserTable} {name : Nat}
    {symbols : List (List UInt8)} {fields : List Nat} {names : Names} {body : List UInt8}
    (hnames : (nameAll .plain g).run ⟨#[], #[]⟩ = .ok ((name, symbols, fields), names))
    (hbody : Header.filled (holds g p names symbols fields) Section.all = body)
    (hparts : ∀ q ∈ g.productions.toList, q.parts.length ≤ maxCount)
    (hactions : ∀ s ∈ p.states.toList, s.actions.length ≤ maxCount)
    (hproductions : g.productions.toList.length ≤ maxCount)
    (htotal : Header.size + body.length < 0x100000000) :
    write g p = .ok (ofBytes ((header g p names name (checksum (ofBytes body))
      (Header.size + body.length) (holds g p names symbols fields)).encode ++ body)) :=
  writeWith_of_nameAll hnames hbody hparts hactions hproductions htotal

end TableImage

end IncrementalParsing
