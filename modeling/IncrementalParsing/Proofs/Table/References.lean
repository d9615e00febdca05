import IncrementalParsing.Proofs.Lalr.StateGraph
import IncrementalParsing.Proofs.Table.Bounds
import IncrementalParsing.Proofs.Table.Compiled

/-!
# Loaded tables lead nowhere else

In a table that `Table.loadWith` gives, every number that names something names something there is, of the
kind that is meant: `Table.Resolved`.  The actions of a state stand in ascending order of their symbols,
so the one of a symbol is found by halving the row, as well as by going through it.  Nothing of this
depends on the codec by which the automata of tokens are read.

## Key results

- `bisect?_eq_lookup`: in an ascending row, halving finds what going through it finds
- `load_inside_resolved`: with any codec, any bytes give a table without dangling numbers or a
  fault, and nothing is read outside them
-/

namespace IncrementalParsing

namespace Table

/-! ## Finding an action by halving -/

/-- Halves a row of `count` entries from `base` on until one is left: the second half of it is kept
unless that begins after the symbol. -/
def halve (entries : List (Symbol × Action)) (a : Symbol) (base count : Nat) : Nat :=
  if count ≤ 1 then base
  else if (entries[base + count / 2]?).any (a < ·.1) then halve entries a base (count - count / 2)
  else halve entries a (base + count / 2) (count - count / 2)
termination_by count

/-- The action of a symbol in a row that ascends, found by halving. -/
def bisect? (entries : List (Symbol × Action)) (a : Symbol) : Option Action :=
  match entries[halve entries a 0 entries.length]? with
  | some entry => if entry.1 = a then some entry.2 else none
  | none => none

/-- Symbols that ascend from one to the next ascend throughout. -/
theorem pairwise_of_isAscending {symbols : List Symbol} (h : isAscending symbols = true) :
    symbols.Pairwise (· < ·) := by
  induction symbols with
  | nil => exact .nil
  | cons a rest ih =>
    cases rest with
    | nil => exact List.pairwise_singleton ..
    | cons b rest =>
      rw [isAscending, Bool.and_eq_true, decide_eq_true_eq] at h
      have hrest := ih h.2
      refine List.pairwise_cons.mpr ⟨fun c hc => ?_, hrest⟩
      -- the next one is compared, the others follow from it
      obtain rfl | hc := List.mem_cons.mp hc
      · exact h.1
      · exact Nat.lt_trans h.1 ((List.pairwise_cons.mp hrest).1 c hc)

section

variable {entries : List (Symbol × Action)} {a : Symbol}

/-- In a row that ascends, what stands after the entry of a symbol is after the symbol. -/
theorem any_after_iff (h : entries.Pairwise fun x y => x.1 < y.1) {i middle : Nat}
    (hi : i < entries.length) (ha : entries[i].1 = a) (hmiddle : middle < entries.length) :
    (entries[middle]?).any (a < ·.1) = true ↔ i < middle := by
  have hsorted := List.pairwise_iff_getElem.mp h
  rw [List.getElem?_eq_getElem hmiddle, Option.any_some, decide_eq_true_eq, ← ha]
  refine ⟨fun hless => Nat.lt_of_not_le fun hle => ?_, hsorted _ _ hi hmiddle⟩
  obtain rfl | hlt := Nat.eq_or_lt_of_le hle
  · exact Nat.lt_irrefl _ hless
  · exact Nat.lt_asymm hless (hsorted _ _ hmiddle hi hlt)

/-- Halving never loses the entry of the symbol. -/
theorem halve_eq (h : entries.Pairwise fun x y => x.1 < y.1) {i : Nat} (hi : i < entries.length)
    (ha : entries[i].1 = a) {base count : Nat} (hbase : base ≤ i) (hcount : i < base + count)
    (hend : base + count ≤ entries.length) : halve entries a base count = i := by
  -- the induction is on the halving, which keeps the place inside
  induction base, count using halve.induct entries a with
  | case1 base count hle =>
    rw [halve, if_pos hle]
    omega
  | case2 base count hlt hafter ih =>
    rw [halve, if_neg hlt, if_pos hafter]
    have := (any_after_iff h hi ha (by omega)).mp hafter
    exact ih hbase (by omega) (by omega)
  | case3 base count hlt hafter ih =>
    rw [halve, if_neg hlt, if_neg hafter]
    have := mt (any_after_iff h hi ha (by omega)).mpr hafter
    exact ih (by omega) (by omega) (by omega)

/-- In a row that ascends, halving finds what going through it finds. -/
theorem bisect?_eq_lookup (h : entries.Pairwise fun x y => x.1 < y.1) :
    bisect? entries a = entries.lookup a := by
  -- where there is an entry the halving ends at its place
  cases hlookup : entries.lookup a with
  | some action =>
    obtain ⟨i, hi, hentry⟩ := List.getElem_of_mem (StateGraph.mem_of_lookup hlookup)
    have hplace : halve entries a 0 entries.length = i :=
      halve_eq h hi (by rw [hentry]) (Nat.zero_le _) (by omega) (by omega)
    rw [bisect?, hplace, List.getElem?_eq_getElem hi, hentry]
    exact if_pos rfl
  | none =>
    unfold bisect?
    split
    · rename_i entry hentry
      -- an entry for the symbol would have been looked up
      refine if_neg fun heq => ?_
      have hfound := StateGraph.lookup_of_mem h (k := a) (x := entry.2)
        (heq ▸ List.mem_of_getElem? hentry)
      exact absurd (hlookup.symm.trans hfound) (fun h => by cases h)
    · rfl

end

/-! ## What is named is there -/

/-- An action is one for its symbol, and what it names is there. -/
def Allows (t : Table) (a : Symbol) : Action → Prop
  | .shift target => t.isTerminal a = true ∧ target < t.states.size
  | .reduce p => t.isTerminal a = true ∧ p < t.productions.size
  | .accept => a = Symbol.finish
  | .goto target => isRule t.symbols a = true ∧ target < t.states.size

/-- Nothing that a table names is missing. -/
structure Resolved (t : Table) : Prop where
  start : isRule t.symbols t.start = true
  lexeme : ∀ a info, t.symbol? a = some info → info.lexeme.isSome = true → (t.lexeme? a).isSome = true
  lhs : ∀ p ∈ t.productions, isRule t.symbols p.lhs = true
  field : ∀ p ∈ t.productions, ∀ f, some f ∈ p.fields → (t.fieldName? f).isSome = true
  lexMode : ∀ state ∈ t.states, state.lexMode < t.lexModes.size
  modeSymbol : ∀ mode ∈ t.lexModes, ∀ a ∈ mode, t.isTerminal a = true
  allows : ∀ s a action, (a, action) ∈ t.actions s → t.Allows a action
  /-- Halving the row of a state finds what `action?` and `goto?` find by going through it. -/
  bisect : ∀ s a, bisect? (t.actions s) a = (t.actions s).lookup a

section

variable {bytes : ByteArray} {h : Header} {symbols : Array SymbolInfo}

/-- The lexeme that a symbol names is there. -/
theorem lexeme_of_loadSymbols {strings : Array String} {lexemes : Array (Option Lexeme)}
    (hs : loadSymbols bytes h strings lexemes = .ok symbols) {info : SymbolInfo} (hinfo : info ∈ symbols)
    {i : Nat} (hi : info.lexeme = some i) : (lexemes.getD i none).isSome = true := by
  simp only [loadSymbols, Except.guard_eq_ok, Except.bind_eq_ok, Except.ite_throw_eq_ok,
    Except.pure_eq_ok] at hs
  obtain ⟨-, xs, hread, -, rfl⟩ := hs
  obtain ⟨j, -, hentry⟩ := exists_of_mem_readMany hread hinfo
  simp only [Except.bind_eq_ok, Except.pure_eq_ok] at hentry
  obtain ⟨flags, -, id, -, lexeme, hlexeme, name, -, name', -, precedence, -, rfl⟩ := hentry
  cases (show lexeme = some i from hi)
  -- 0 stands for no lexeme, and any other number is checked
  unfold lexemeOf at hlexeme
  split at hlexeme
  · cases hlexeme
  · split at hlexeme
    · rename_i hterminal
      cases hlexeme
      exact (Bool.and_eq_true_iff.mp hterminal).2
    · cases hlexeme

/-- The fields that a production names are there. -/
theorem field_of_loadProductions {productions : Array Production}
    (hs : loadProductions bytes h symbols = .ok productions) {p : Production} (hp : p ∈ productions)
    {f : FieldId} (hf : some f ∈ p.fields) : f ≠ 0 ∧ f ≤ h.fieldCount := by
  obtain ⟨i, -, hread⟩ := exists_of_mem_readMany hs hp
  simp only [Except.guard_eq_ok, Except.bind_eq_ok, Except.pure_eq_ok] at hread
  obtain ⟨lhs, -, size, -, first, -, -, -, fields, hfields, rfl⟩ := hread
  obtain ⟨c, -, hfield⟩ := exists_of_mem_readMany hfields (Array.mem_toList_iff.mp hf)
  simp only [Except.guard_eq_ok, Except.bind_eq_ok, Except.pure_eq_ok] at hfield
  obtain ⟨field, -, hle, heq⟩ := hfield
  -- zero stands for no field
  split at heq
  · cases heq
  · rename_i hne
    cases heq
    exact ⟨hne, Nat.le_of_not_lt hle⟩

/-- There are as many states as were counted, each with a lex mode that was. -/
theorem lexMode_of_attachActions {entries : Array StateEntry} (hs : loadStates bytes h = .ok entries)
    {actions : Array (Symbol × Action)} {states : Array TableState}
    (ha : attachActions entries actions = .ok states) :
    states.size = h.stateCount ∧ ∀ state ∈ states, state.lexMode < h.lexModeCount := by
  simp only [loadStates, Except.guard_eq_ok] at hs
  obtain ⟨-, hs⟩ := hs
  refine ⟨(readMany_get ha).1.trans (readMany_get hs).1, fun state hstate => ?_⟩
  obtain ⟨i, hi, hread⟩ := exists_of_mem_readMany ha hstate
  simp only [Except.ite_throw_eq_ok, Except.pure_eq_ok] at hread
  obtain ⟨-, rfl⟩ := hread
  -- the mode of an entry was checked when the states were read
  have hentry := (readMany_get hs).2 i hi
  simp only [Except.guard_eq_ok, Except.bind_eq_ok, Except.pure_eq_ok] at hentry
  obtain ⟨first, -, count, -, lexMode, -, -, hle, heq⟩ := hentry
  rw [Array.getD_eq_getD_getElem?, Array.getElem?_eq_getElem hi, Option.getD_some, ← heq]
  exact Nat.lt_of_not_le hle

/-- The actions of a state ascend. -/
theorem ascending_of_attachActions {entries : Array StateEntry} {actions : Array (Symbol × Action)}
    {states : Array TableState} (ha : attachActions entries actions = .ok states) {state : TableState}
    (hstate : state ∈ states) : state.actions.Pairwise fun x y => x.1 < y.1 := by
  obtain ⟨i, -, hread⟩ := exists_of_mem_readMany ha hstate
  simp only [Except.ite_throw_eq_ok, Except.pure_eq_ok] at hread
  obtain ⟨hascending, rfl⟩ := hread
  exact List.pairwise_map.mp (pairwise_of_isAscending hascending)

end

/-- Actions are either those of a state or none. -/
theorem actions_cases (t : Table) (s : StateId) :
    t.actions s = [] ∨ ∃ state ∈ t.states, t.actions s = state.actions := by
  unfold actions
  split
  · rename_i state hstate
    exact .inr ⟨state, Array.mem_of_getElem? hstate, rfl⟩
  · exact .inl rfl

/-- Nothing that a loaded table names is missing. -/
theorem resolved_of_load {codec : Automaton.Codec} {bytes : ByteArray} {t : Table}
    (h : loadWith codec bytes = .ok t) : t.Resolved := by
  simp only [loadWith, Except.bind_eq_ok, Except.guard_eq_ok, Except.pure_eq_ok] at h
  obtain ⟨header, -, strings, -, lexemes, -, symbols, hsymbols, fields, hfields, productions,
    hproductions, entries, hentries, actions, hactions, states, hstates, modes, hmodes, name, -,
    hstart, rfl⟩ := h
  have hfieldCount := (readMany_get hfields).1
  have hproductionCount := (readMany_get hproductions).1
  obtain ⟨hstateCount, hlexMode⟩ := lexMode_of_attachActions hentries hstates
  have hmodeCount : modes.size = header.lexModeCount := by
    simp only [loadLexModes, Except.bind_eq_ok] at hmodes
    obtain ⟨listed, -, hread⟩ := hmodes
    exact (readMany_get hread).1
  constructor
  case start => simpa using hstart
  case lexeme =>
    intro a info hinfo hlexeme
    obtain ⟨i, hi⟩ := Option.isSome_iff_exists.mp hlexeme
    -- the check on each symbol is that its lexeme was read
    have hfound := lexeme_of_loadSymbols hsymbols (Array.mem_of_getElem? hinfo) hi
    rw [Array.getD_eq_getD_getElem?] at hfound
    rw [lexeme?, hinfo]
    cases hget : lexemes[i]? with
    | none => simp [hget] at hfound
    | some found => simpa [hi, hget] using hfound
  case lhs => exact fun p hp => lhs_of_loadProductions hproductions hp
  -- a field is a number, of which the first is 1
  case field =>
    intro p hp f hf
    obtain ⟨hne, hle⟩ := field_of_loadProductions hproductions hp hf
    obtain ⟨i, rfl⟩ := Nat.exists_eq_succ_of_ne_zero hne
    simpa [fieldName?, hfieldCount] using Nat.lt_of_succ_le hle
  case lexMode => exact fun state hstate => hmodeCount ▸ hlexMode state hstate
  case modeSymbol => exact fun mode hmode a ha => terminal_of_loadLexModes hmodes hmode ha
  case allows =>
    -- an entry that is found stands in the list of its state, and was checked as it was read
    intro s a action hmem
    obtain hnone | ⟨state, hstate, heq⟩ := actions_cases _ s
    · rw [hnone] at hmem
      cases hmem
    · obtain ⟨info, kind, value, hinfo, hfound⟩ :=
        actionOf?_of_loadActions hactions (mem_of_attachActions hstates hstate (heq ▸ hmem))
      unfold actionOf? at hfound
      split at hfound <;> (try split at hfound) <;> cases hfound <;>
        simp_all [Allows, isTerminal, symbol?, isRule]
  case bisect =>
    intro s a
    obtain hnone | ⟨state, hstate, heq⟩ := actions_cases _ s
    · rw [hnone]
      rfl
    · rw [heq]
      exact bisect?_eq_lookup (ascending_of_attachActions hstates hstate)

/-- Whatever the bytes are, and whichever of them a codec takes for automata, they give a fault or a
table in which nothing that is named is missing, and nothing outside them is read. -/
theorem load_inside_resolved (codec : Automaton.Codec) (bytes : ByteArray) :
    (∃ fault, loadWith codec bytes = .error fault ∧ fault.Inside) ∨
      ∃ t, loadWith codec bytes = .ok t ∧ t.Resolved := by
  cases h : loadWith codec bytes with
  | error fault => exact .inl ⟨fault, rfl, inside_load codec bytes fault h⟩
  | ok t => exact .inr ⟨t, rfl, resolved_of_load h⟩

end Table

end IncrementalParsing
