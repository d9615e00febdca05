import IncrementalParsing.Proofs.Except
import IncrementalParsing.Table.Loader

/-!
# What the loader ensures

A table that `Table.load` gives has been checked: `Table.Checked` says for what.  The two built-in
symbols are terminals, tokens are looked for only if they are terminals, productions build rules,
actions are kept for terminals and gotos for rules.

## Key results

- `readMany_eq_ok`: reading entries succeeds if each entry is read
- `checked_of_load`: what holds of every table that is loaded
-/

namespace IncrementalParsing

/-- Whether an action is taken after a rule was built, not on a token. -/
def Action.isGoto : Action → Bool
  | .goto _ => true
  | _ => false

namespace Table

/-- What is known of every table that was loaded. -/
structure Checked (t : Table) : Prop where
  finish_terminal : t.isTerminal Symbol.finish = true
  error_terminal : t.isTerminal Symbol.error = true
  start_rule : t.isTerminal t.start = false
  mode_terminal : ∀ m, ∀ s ∈ t.modeSymbols m, t.isTerminal s = true
  lhs_rule : ∀ p production, t.production? p = some production →
    t.isTerminal production.lhs = false
  action_terminal : ∀ s a action, t.action? s a = some action → t.isTerminal a = true
  goto_rule : ∀ s a target, t.goto? s a = some target → t.isTerminal a = false
  accept_finish : ∀ s a, t.action? s a = some .accept → a = Symbol.finish

/-! ## Reading entries -/

/-- Reading entries succeeds if each entry is read. -/
theorem readMany_eq_ok {α : Type} {count : Nat} {read : Nat → Except LoadFault α} {xs : Array α} :
    readMany count read = .ok xs ↔
      List.Forall₂ (fun i x => read i = .ok x) (List.range count) xs.toList := by
  unfold readMany
  simp only [Except.bind_eq_ok, Except.pure_eq_ok, Except.mapM_eq_ok]
  constructor
  · rintro ⟨ys, h, rfl⟩
    exact h
  · intro h
    exact ⟨xs.toList, h, by simp⟩

/-- Entries that are read one by one, each at its own place. -/
theorem readMany_get {α : Type} {count : Nat} {read : Nat → Except LoadFault α} {xs : Array α}
    (h : readMany count read = .ok xs) :
    xs.size = count ∧ ∀ i (hi : i < xs.size), read i = .ok xs[i] := by
  have hall := readMany_eq_ok.mp h
  have hlen := hall.length_eq
  rw [List.length_range, Array.length_toList] at hlen
  refine ⟨hlen.symm, fun i hi => ?_⟩
  have hi' : i < (List.range count).length := by rwa [List.length_range, hlen]
  simpa using hall.get hi' (by rwa [Array.length_toList])

/-- Every entry that is given was read somewhere. -/
theorem exists_of_mem_readMany {α : Type} {count : Nat} {read : Nat → Except LoadFault α}
    {xs : Array α} (h : readMany count read = .ok xs) {x : α} (hx : x ∈ xs) :
    ∃ i, i < count ∧ read i = .ok x := by
  obtain ⟨i, hi, rfl⟩ := Array.getElem_of_mem hx
  obtain ⟨hsize, hread⟩ := readMany_get h
  exact ⟨i, hsize ▸ hi, hread i hi⟩

/-! ## Section by section -/

theorem isRule_eq_false_iff {symbols : Array SymbolInfo} {s : Symbol} :
    isRule symbols s = true → (symbols[s]?).any (·.terminal) = false := by
  unfold isRule
  cases symbols[s]? <;> simp

theorem builtIns_of_loadSymbols {bytes : ByteArray} {h : Header} {strings : Array String}
    {lexemes : Array (Option Lexeme)} {symbols : Array SymbolInfo}
    (hs : loadSymbols bytes h strings lexemes = .ok symbols) :
    (symbols[0]?).any (·.terminal) = true ∧ (symbols[1]?).any (·.terminal) = true := by
  simp only [loadSymbols, Except.guard_eq_ok, Except.bind_eq_ok, Except.ite_throw_eq_ok,
    Except.pure_eq_ok] at hs
  obtain ⟨hcount, xs, hread, hall, rfl⟩ := hs
  have hsize : xs.toList.length = h.symbolCount := by
    have := (readMany_eq_ok.mp hread).length_eq
    simpa using this.symm
  rw [← Array.getElem?_toList, ← Array.getElem?_toList]
  -- at least two symbols were counted
  match hx : xs.toList with
  | [] => simp [hx] at hsize; omega
  | [_] => simp [hx] at hsize; omega
  | a :: b :: rest => simpa [hx] using hall

theorem lhs_of_loadProductions {bytes : ByteArray} {h : Header} {symbols : Array SymbolInfo}
    {productions : Array Production} (hs : loadProductions bytes h symbols = .ok productions)
    {p : Production} (hp : p ∈ productions) : isRule symbols p.lhs = true := by
  obtain ⟨i, -, hread⟩ := exists_of_mem_readMany hs hp
  simp only [Except.guard_eq_ok, Except.bind_eq_ok, Except.pure_eq_ok] at hread
  obtain ⟨lhs, -, size, -, first, -, hrule, -, fields, -, rfl⟩ := hread
  simpa using hrule

/-- An action that is read is one for a symbol that there is. -/
theorem actionOf?_of_loadActions {bytes : ByteArray} {h : Header} {symbols : Array SymbolInfo}
    {actions : Array (Symbol × Action)} (hs : loadActions bytes h symbols = .ok actions) {a : Symbol}
    {action : Action} (ha : (a, action) ∈ actions) :
    ∃ info kind value, symbols[a]? = some info ∧
      actionOf? h a info.terminal kind value = some action := by
  -- the action was read from one of the entries
  obtain ⟨i, -, hread⟩ := exists_of_mem_readMany hs ha
  simp only [Except.bind_eq_ok] at hread
  obtain ⟨symbol, -, kind, -, value, -, hread⟩ := hread
  split at hread
  · cases hread
  · rename_i info hinfo
    split at hread
    · rename_i found hfound
      cases Except.pure_eq_ok.mp hread
      exact ⟨info, kind, value, hinfo, hfound⟩
    · cases hread

/-- Actions are kept for terminals, gotos for rules. -/
theorem actions_of_loadActions {bytes : ByteArray} {h : Header} {symbols : Array SymbolInfo}
    {actions : Array (Symbol × Action)} (hs : loadActions bytes h symbols = .ok actions)
    (hend : (symbols[0]?).any (·.terminal) = true) {a : Symbol} {action : Action}
    (ha : (a, action) ∈ actions) :
    (symbols[a]?).any (·.terminal) = (!action.isGoto) ∧
      (action = .accept → a = Symbol.finish) := by
  obtain ⟨info, kind, value, hinfo, hfound⟩ := actionOf?_of_loadActions hs ha
  -- the kind says which action it is, and of what kind the symbol has to be
  unfold actionOf? at hfound
  split at hfound
  · split at hfound <;> cases hfound
    simp_all [Action.isGoto]
  · split at hfound <;> cases hfound
    simp_all [Action.isGoto]
  · split at hfound <;> cases hfound
    subst_vars
    exact ⟨hend, fun _ => rfl⟩
  · split at hfound <;> cases hfound
    simp_all [Action.isGoto]
  · cases hfound

/-- The actions of a state are among those that were read. -/
theorem mem_of_attachActions {entries : Array StateEntry} {actions : Array (Symbol × Action)}
    {states : Array TableState} (hs : attachActions entries actions = .ok states)
    {state : TableState} (hstate : state ∈ states) {x : Symbol × Action}
    (hx : x ∈ state.actions) : x ∈ actions := by
  obtain ⟨i, -, hread⟩ := exists_of_mem_readMany hs hstate
  simp only [Except.ite_throw_eq_ok, Except.pure_eq_ok] at hread
  obtain ⟨-, rfl⟩ := hread
  simp only [Array.mem_toList_iff] at hx
  obtain ⟨k, hk, rfl⟩ := Array.getElem_of_mem hx
  rw [Array.getElem_extract]
  exact Array.getElem_mem _

theorem terminal_of_loadLexModes {bytes : ByteArray} {h : Header} {symbols : Array SymbolInfo}
    {modes : Array (List Symbol)} (hs : loadLexModes bytes h symbols = .ok modes)
    {mode : List Symbol} (hmode : mode ∈ modes) {s : Symbol} (hsym : s ∈ mode) :
    (symbols[s]?).any (·.terminal) = true := by
  simp only [loadLexModes, Except.bind_eq_ok] at hs
  obtain ⟨listed, hlisted, hs⟩ := hs
  obtain ⟨i, -, hread⟩ := exists_of_mem_readMany hs hmode
  simp only [Except.guard_eq_ok, Except.bind_eq_ok, Except.pure_eq_ok] at hread
  obtain ⟨first, -, count, -, -, rfl⟩ := hread
  simp only [Array.mem_toList_iff] at hsym
  -- the mode is a stretch of the list of all, whose entries were checked
  obtain ⟨k, hk, rfl⟩ := Array.getElem_of_mem hsym
  rw [Array.getElem_extract]
  obtain ⟨j, -, hread⟩ := exists_of_mem_readMany hlisted (Array.getElem_mem _)
  simp only [Except.bind_eq_ok, Except.ite_throw_eq_ok, Except.pure_eq_ok] at hread
  obtain ⟨symbol, -, hterminal, hsame⟩ := hread
  exact hsame ▸ hterminal

/-! ## The table as a whole -/

/-- An action that a state has was read. -/
theorem mem_of_lookup_actions {t : Table} {s : StateId} {a : Symbol} {action : Action}
    (h : (t.actions s).lookup a = some action) :
    ∃ state ∈ t.states, (a, action) ∈ state.actions := by
  unfold Table.actions at h
  split at h
  · rename_i state hstate
    rw [List.lookup_eq_some_iff] at h
    obtain ⟨before, rest, heq, -⟩ := h
    exact ⟨state, Array.mem_of_getElem? hstate, by simp [heq]⟩
  · simp at h

/-- What holds of every table that is loaded. -/
theorem checked_of_load {codec : Automaton.Codec} {bytes : ByteArray} {t : Table}
    (h : loadWith codec bytes = .ok t) : t.Checked := by
  simp only [loadWith, Except.bind_eq_ok, Except.guard_eq_ok, Except.pure_eq_ok] at h
  obtain ⟨header, -, strings, -, lexemes, -, symbols, hsymbols, fields, -, productions,
    hproductions, entries, -, actions, hactions, states, hstates, modes, hmodes, name, -,
    hstart, rfl⟩ := h
  -- what was loaded passed all the checks on the way
  obtain ⟨hend, herror⟩ := builtIns_of_loadSymbols hsymbols
  -- what a state stores was checked against the symbol it is stored for
  have hstored : ∀ {s a action}, (Table.actions (⟨header.version, name, header.start, symbols,
      fields, productions, states, modes, lexemes⟩ : Table) s).lookup a = some action →
      (symbols[a]?).any (·.terminal) = (!action.isGoto) ∧
        (action = .accept → a = Symbol.finish) := by
    intro s a action hl
    obtain ⟨state, hstate, hmem⟩ := mem_of_lookup_actions hl
    exact actions_of_loadActions hactions hend (mem_of_attachActions hstates hstate hmem)
  refine ⟨hend, herror, ?_, ?_, ?_, ?_, ?_, ?_⟩
  · exact isRule_eq_false_iff (by simpa using hstart)
  · intro m s hs
    unfold modeSymbols at hs
    cases hm : modes[m]? with
    | none => simp [hm] at hs
    | some mode =>
      simp only [hm, Option.getD_some] at hs
      exact terminal_of_loadLexModes hmodes (Array.mem_of_getElem? hm) hs
  · intro p production hp
    exact isRule_eq_false_iff (lhs_of_loadProductions hproductions (Array.mem_of_getElem? hp))
  · intro s a action ha
    unfold action? at ha
    split at ha
    · cases ha
    · rename_i hgoto
      have := (hstored ha).1
      cases action with
      | goto target => exact absurd ha (hgoto target)
      | _ => exact this
  · intro s a target ha
    unfold goto? at ha
    split at ha
    · rename_i found
      exact (hstored found).1
    · cases ha
  · intro s a ha
    unfold action? at ha
    split at ha
    · cases ha
    · exact (hstored ha).2 rfl

end Table

end IncrementalParsing
