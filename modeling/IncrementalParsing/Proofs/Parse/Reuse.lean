import IncrementalParsing.Proofs.Parse.Ending
import IncrementalParsing.Proofs.Table.ReadBack

/-!
# Parsing again

Parts of an old tree are offered by the walker and nothing else of a parse depends on it.  So a parse
that takes nothing over goes the same way as one without an old tree, step by step.

A part that is taken over can lead elsewhere: its state and lex modes fit, but the token that made the
parser complete it in the earlier parse came after an error was repaired, and is not the next one in
the text.  `Truncated` is a grammar for which a text that is parsed again gives a different tree.

## Key results

- `Language.parse_of_no_reuse`: a parse that takes nothing over is the parse without an old tree
- `Truncated.parse_differs`: a text whose tree is different when it is parsed again from its tree
-/

namespace IncrementalParsing

/-- Nothing among the events is a part of an old tree that was taken over. -/
def Fresh (events : List Event) : Prop :=
  ∀ state symbol start finish total, Event.reuse state symbol start finish total ∉ events

/-- What nothing was taken over in had nothing taken over before. -/
theorem Fresh.of_suffix {events events' : List Event} (h : Fresh events') (hs : events <:+ events') :
    Fresh events :=
  fun state symbol start finish total hmem => h state symbol start finish total (hs.mem hmem)

/-- A parse that has counted no part taken over has none among its events. -/
theorem fresh_of_reused {events : List Event} (h : (Stats.ofEvents events).reused = 0) :
    Fresh events := fun _ _ _ _ _ =>
  Stats.not_mem_of_eq_zero Stats.reused (fun s e => by cases e <;> simp [Stats.add]) h
    fun _ => Nat.succ_pos _

namespace Step

/-- The events so far. -/
def events : Step → List Event
  | .next c => c.events
  | .done _ events => events

/-- The step without the old tree. -/
def alone : Step → Step
  | .next c => .next { c with walker := [] }
  | .done root events => .done root events

end Step

namespace Config

variable {t : Table} {text : ByteArray}

/-- Where a parse stands without its old tree. -/
def alone (c : Config) : Config := { c with walker := [] }

/-! ## Single moves -/

/-- An error is repaired in the same way without the old tree. -/
theorem recover_alone (c : Config) (token : Subtree) :
    c.alone.recover t text token = (c.recover t text token).alone := by
  unfold recover
  simp only [show c.alone.stack = c.stack from rfl, show c.alone.cutLimit = c.cutLimit from rfl]
  cases cutDepth? t c.stack token.symbol c.cutLimit with
  | some depth => rfl
  | none => cases h : token.symbol == Symbol.finish <;> rfl

/-- What is done about a token does not depend on the old tree. -/
theorem act_alone (c : Config) (token : Subtree) :
    c.alone.act t text token = (c.act t text token).alone := by
  -- an action reads neither the old tree nor the walk in it
  unfold act
  simp only [show c.alone.state = c.state from rfl, recover_alone,
    show c.alone.reductions = c.reductions from rfl]
  split
  · rfl
  · split
    · split <;> rfl
    · rfl
  · rfl
  · split <;> rfl

/-- A repair only adds to the events. -/
theorem suffix_recover (c : Config) (token : Subtree) :
    c.events <:+ (c.recover t text token).events := by
  unfold recover
  split
  · exact List.suffix_cons _ _
  · split <;> exact List.suffix_cons _ _

/-- What is done about a token only adds to the events. -/
theorem suffix_act (c : Config) (token : Subtree) :
    c.events <:+ (c.act t text token).events := by
  unfold act
  split
  · exact List.suffix_cons _ _
  · split
    · split
      · exact suffix_recover c token
      · exact List.suffix_cons _ _
    · exact suffix_recover c token
  · exact List.suffix_cons _ _
  · split
    · exact List.suffix_cons _ _
    · exact suffix_recover c token

/-! ## Steps -/

/-- So does fetching a token or a part, -/
theorem suffix_fetch (c : Config) : c.events <:+ (c.fetch t text).2.events := by
  unfold fetch
  split
  · exact List.suffix_cons _ _
  · split <;> exact List.suffix_cons _ _

/-- No part of the old tree is taken over next. -/
def Refrains (t : Table) (c : Config) : Prop :=
  c.errorMode = false → (Walker.next t c.state c.position.bytes c.walker).1 = none

/-- What is found in the text does not depend on the old tree. -/
theorem fetch_alone {c : Config} (h : c.Refrains t) :
    c.alone.fetch t text = ((c.fetch t text).1, (c.fetch t text).2.alone) := by
  unfold fetch
  simp only [show c.alone.errorMode = c.errorMode from rfl]
  split
  · rfl
  · rename_i herror
    have hnone := h (Bool.eq_false_iff.mpr herror)
    rw [show c.alone.walker = [] from rfl, Walker.next]
    -- the walk gives nothing, so the token is scanned in both
    generalize Walker.next t c.state c.position.bytes c.walker = found at hnone
    obtain ⟨offered, walker⟩ := found
    cases hnone
    rfl

/-- Where nothing is taken over, nothing is offered. -/
theorem refrains_of_fresh {c : Config} (h : Fresh (c.fetch t text).2.events) : c.Refrains t := by
  intro herror
  unfold fetch at h
  rw [if_neg (by rw [herror]; exact Bool.false_ne_true)] at h
  split at h
  · rename_i hnext
    rw [hnext]
  · exact absurd (List.mem_cons_self ..) (h _ _ _ _ _)

/-- and so does every step. -/
theorem suffix_step (t : Table) (text : ByteArray) (c : Config) :
    c.events <:+ (c.step t text).events := by
  unfold step
  split
  · exact suffix_act c _
  · dsimp only
    split
    · exact (suffix_fetch c).trans (suffix_act _ _)
    · exact suffix_fetch c

/-- A step that takes nothing over is the step without the old tree. -/
theorem step_alone {c : Config} (h : c.lookahead = none → c.Refrains t) :
    c.alone.step t text = (c.step t text).alone := by
  unfold step
  rw [show c.alone.lookahead = c.lookahead from rfl]
  split
  · exact act_alone c _
  · rename_i hnone
    -- a token that waits was read before, whatever the walk
    rw [fetch_alone (h hnone)]
    dsimp only
    split
    · exact act_alone _ _
    · rfl

/-- So is a step that notes nothing taken over. -/
theorem step_alone_of_fresh {c : Config} (h : Fresh (c.step t text).events) :
    c.alone.step t text = (c.step t text).alone := by
  refine step_alone fun hnone => ?_
  unfold step at h
  rw [hnone] at h
  dsimp only at h
  have hfetch : Fresh (c.fetch t text).2.events := by
    split at h
    · exact h.of_suffix (suffix_act _ _)
    · exact h
  exact refrains_of_fresh hfetch

/-- A parse that takes nothing over goes the same way without the old tree. -/
theorem reaches_alone {c c' : Config} (h : Reaches t text c c') (hf : Fresh c'.events) :
    Reaches t text c.alone c'.alone := by
  induction h with
  | refl => exact .refl
  | @tail b c' _ hm ih =>
    have hm' : b.step t text = .next c' := hm
    have hsuffix := suffix_step t text b
    rw [hm'] at hsuffix
    refine .tail (ih (hf.of_suffix hsuffix)) ?_
    -- no event of the step is one of reuse, since the later ones keep it
    have hfresh : Fresh (b.step t text).events := by
      rw [hm']
      exact hf
    have hstep := step_alone_of_fresh hfresh
    rw [hm'] at hstep
    exact hstep

/-- What a run gives if the step after the given number of others is the last one. -/
def doneAfter? (t : Table) (text : ByteArray) (c : Config) (n : Nat) :
    Option (Subtree × List Event) :=
  (c.after t text n).bind fun c' =>
    match c'.step t text with
    | .done root events => some (root, events.reverse)
    | .next _ => none

/-- A run whose steps are counted gives what `doneAfter?` gives. -/
theorem run_of_doneAfter? {c : Config} {n : Nat} {r : Subtree × List Event}
    (h : c.doneAfter? t text n = some r) : run t text c = some r := by
  obtain ⟨c', hafter, h⟩ := Option.bind_eq_some_iff.mp h
  split at h
  · rename_i root events hdone
    cases h
    exact run_eq_some_iff.mpr ⟨c', events, reaches_iff_after.mpr ⟨n, hafter⟩, hdone, rfl⟩
  · cases h

/-- Where a parse stands before each of its steps, if there are no more of them than the given number. -/
def trail? (t : Table) (text : ByteArray) : Nat → Config → Option (List Config)
  | 0, _ => none
  | n + 1, c =>
    match c.step t text with
    | .done _ _ => some [c]
    | .next c' => (trail? t text n c').map (c :: ·)

/-- Nothing else is reached. -/
theorem mem_trail {n : Nat} {c d : Config} {trail : List Config} (h : trail? t text n c = some trail)
    (hd : Reaches t text c d) : d ∈ trail := by
  induction n generalizing c trail with
  | zero => cases h
  | succ n ih =>
    rw [trail?] at h
    -- the configuration is the first of the trail, or is reached from the second
    obtain rfl | ⟨c', hm, hd⟩ := hd.cases_head
    · split at h
      · cases h
        exact List.mem_cons_self ..
      · obtain ⟨rest, -, rfl⟩ := Option.map_eq_some_iff.mp h
        exact List.mem_cons_self ..
    · rw [show c.step t text = .next c' from hm] at h
      obtain ⟨rest, hrest, rfl⟩ := Option.map_eq_some_iff.mp h
      exact List.mem_cons_of_mem _ (ih hrest hd)

end Config

/-- A parse whose steps can be counted gives what they come to. -/
theorem Language.parse_of_doneAfter? (l : Language) (text : String) (old : Option Tree) {n : Nat}
    {r : Subtree × List Event}
    (h : (Config.start l.table (l.usable? old)).doneAfter? l.table text.toUTF8 n = some r) :
    l.parse text old = some ⟨⟨l, r.1⟩, r.2⟩ := by
  rw [parse, Option.map_eq_some_iff]
  exact ⟨r, Config.run_of_doneAfter? h, rfl⟩

/-- A parse that takes nothing over of the old tree gives what the parse without it gives. -/
theorem Language.parse_of_no_reuse {l : Language} {text : String} {old : Option Tree} {p : Parsed}
    (h : l.parse text old = some p) (hr : p.stats.reused = 0) : l.parse text none = some p := by
  simp only [parse, Option.map_eq_some_iff] at h ⊢
  obtain ⟨⟨root, events⟩, hrun, rfl⟩ := h
  obtain ⟨c, es, hreach, hdone, rfl⟩ := Config.run_eq_some_iff.mp hrun
  have hfresh : Fresh es := fun state symbol start finish total hmem =>
    fresh_of_reused (show (Stats.ofEvents es.reverse).reused = 0 from hr) state symbol start finish
      total (List.mem_reverse.mpr hmem)
  -- the events are kept with the last one first, and those of a step come in front
  have hsuffix := Config.suffix_step l.table text.toUTF8 c
  rw [hdone] at hsuffix
  refine ⟨(root, es.reverse), Config.run_eq_some_iff.mpr ⟨c.alone, es, ?_, ?_, rfl⟩, rfl⟩
  · exact Config.reaches_alone hreach (hfresh.of_suffix hsuffix)
  · have hfresh : Fresh (c.step l.table text.toUTF8).events := by
      rw [hdone]
      exact hfresh
    have hstep := Config.step_alone_of_fresh hfresh
    rw [hdone] at hstep
    exact hstep

/-! ## A part that was completed behind an error -/

namespace Truncated

/-- A rule that is complete after `b`, before the end of the text or a `d`, unless a `c` follows. -/
def grammar : Grammar where
  name := "g"
  rules := [("s", .choice [.symbol "a", .seq [.symbol "a", .string "d"]]),
    ("a", .choice [.string "b", .seq [.string "b", .string "c", .string "d"]])]
  extras := []
  precedences := []
  conflicts := []
  externals := []
  inlined := []
  supertypes := []
  word := none
  reserved := []

/-- The two rules and the three tokens, after the two symbols that every grammar has. -/
def flat : FlatGrammar where
  name := "g"
  symbols := #[⟨"end", none, true, false, false, false⟩, ⟨"ERROR", none, true, true, true, false⟩,
    ⟨"s", none, false, true, true, false⟩, ⟨"a", none, false, true, true, false⟩,
    FlatSymbol.letter "d", FlatSymbol.letter "b", FlatSymbol.letter "c"]
  productions := #[⟨2, [(3, none)], none⟩, ⟨2, [(3, none), (4, none)], none⟩,
    ⟨3, [(5, none)], none⟩, ⟨3, [(5, none), (6, none), (4, none)], none⟩]
  fields := #[]
  start := 2

/-- The states of the table and its lex modes. -/
def parser : ParserTable where
  states := #[⟨[(2, .goto 1), (3, .goto 2), (5, .shift 3)], 1⟩, ⟨[(0, .accept)], 2⟩,
    ⟨[(0, .reduce 0), (4, .shift 4)], 3⟩, ⟨[(0, .reduce 2), (4, .reduce 2), (6, .shift 5)], 4⟩,
    ⟨[(0, .reduce 1)], 2⟩, ⟨[(4, .shift 6)], 3⟩, ⟨[(0, .reduce 3), (4, .reduce 3)], 3⟩]
  lexModes := #[[4, 5, 6], [5], [], [4], [4, 6]]

/-- The texts in the table, with the automata of the tokens. -/
def names : Names := ⟨#["g", "end", "ERROR", "s", "a", "d", "b", "c"],
  #[⟨5, (Automaton.ofByte 100).encode⟩, ⟨6, (Automaton.ofByte 98).encode⟩,
    ⟨7, (Automaton.ofByte 99).encode⟩]⟩

/-- The entries of the symbols. -/
def entries : List (List UInt8) :=
  [[1, 0, 1, 0, 0, 0, 0, 0], [2, 0, 7, 0, 0, 0, 0, 0], [3, 0, 6, 0, 0, 0, 0, 0],
    [4, 0, 6, 0, 0, 0, 0, 0], [5, 0, 21, 0, 1, 0, 0, 0], [6, 0, 21, 0, 2, 0, 0, 0],
    [7, 0, 21, 0, 3, 0, 0, 0]]

/-- Everything after the header. -/
def body : List UInt8 := Header.filled (TableImage.holds flat parser names entries []) Section.all

/-- The whole table as bytes. -/
def bytes : ByteArray :=
  ofBytes ((TableImage.header flat parser names 0 2683560851 (Header.size + body.length)
    (TableImage.holds flat parser names entries [])).encode ++ body)

/-- The table that is read from the bytes. -/
def table : Table where
  version := 1
  name := "g"
  start := 2
  symbols := #[SymbolInfo.plain "end" true false false false none,
    SymbolInfo.plain "ERROR" true true true false none,
    SymbolInfo.plain "s" false true true false none, SymbolInfo.plain "a" false true true false none,
    SymbolInfo.plain "d" true false true true (some 1), SymbolInfo.plain "b" true false true true (some 2),
    SymbolInfo.plain "c" true false true true (some 3)]
  fields := #[]
  productions := #[⟨2, [none]⟩, ⟨2, [none, none]⟩, ⟨3, [none]⟩, ⟨3, [none, none, none]⟩]
  states := parser.states
  lexModes := parser.lexModes
  lexemes := #[none, some ⟨"d", Automaton.ofByte 100⟩, some ⟨"b", Automaton.ofByte 98⟩,
    some ⟨"c", Automaton.ofByte 99⟩]

/-- The grammar is flattened as written above. -/
theorem flatten_grammar : grammar.flatten = .ok flat := by
  cbv

/-- The states are those of the flat grammar. -/
theorem ofGrammar_flat : ParserTable.ofGrammar flat = .ok parser := by
  cbv

/-- The texts are collected in the order in which they are met. -/
theorem nameAll_flat :
    (TableImage.nameAll .plain flat).run ⟨#[], #[]⟩ = .ok ((0, entries, []), names) := by
  cbv

/-- The checksum that stands in the header. -/
theorem checksum_body : checksum (ofBytes body) = 2683560851 := by
  rw [checksum_eq]
  decide +kernel

/-- The table is written as these bytes, -/
theorem write_flat : TableImage.write flat parser = .ok bytes := by
  rw [TableImage.write_of_nameAll nameAll_flat rfl (by decide) (by decide) (by decide)
    (by decide +kernel), ← body, checksum_body, bytes]

/-- it is put together from its parts, -/
theorem ofParts_flat : Table.ofParts flat parser names = table := by
  cbv

/-- and it is loaded from them. -/
theorem load_bytes : Table.load bytes = .ok table := by
  have hsound := Grammar.sound_flatten flatten_grammar
  rw [← ofParts_flat]
  exact TableImage.load_write hsound (ParserTable.proper_of_ofGrammar hsound ofGrammar_flat)
    (by decide) nameAll_flat (by decide) (by decide +kernel) write_flat

/-- So `table` is the table of the grammar. -/
theorem table_grammar : grammar.table = .ok table :=
  Grammar.table_of_parts flatten_grammar ofGrammar_flat write_flat load_bytes

/-- The text `bc` is not in the language, and its tree is different when it is parsed again from the
tree that the first parse gave. -/
theorem parse_differs : grammar.table = .ok table ∧
    ∃ p q, Language.parse ⟨0, table⟩ "bc" none = some p ∧
      Language.parse ⟨0, table⟩ "bc" (some p.tree) = some q ∧ (q.tree == p.tree) = false := by
  -- both runs are made in one evaluation, and only their likeness is read off
  have hshapes : (((Config.start table none).doneAfter? table "bc".toUTF8 5).bind fun p =>
      ((Config.start table (some p.1)).doneAfter? table "bc".toUTF8 3).map fun q =>
        q.1.sameShape p.1) = some false := by
    cbv
  obtain ⟨p, hp, h⟩ := Option.bind_eq_some_iff.mp hshapes
  obtain ⟨q, hq, hdiffer⟩ := Option.map_eq_some_iff.mp h
  refine ⟨table_grammar, ⟨⟨⟨0, table⟩, p.1⟩, p.2⟩, ⟨⟨⟨0, table⟩, q.1⟩, q.2⟩, ?_, ?_, hdiffer⟩
  · rw [Language.parse, Option.map_eq_some_iff]
    exact ⟨p, Config.run_of_doneAfter? hp, rfl⟩
  · rw [Language.parse, Option.map_eq_some_iff]
    exact ⟨q, Config.run_of_doneAfter? hq, rfl⟩

end Truncated

end IncrementalParsing
