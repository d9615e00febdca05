import IncrementalParsing.Proofs.Parse.Contents
import IncrementalParsing.Proofs.Parse.EditedNodes
import IncrementalParsing.Proofs.Parse.Reuse
import IncrementalParsing.Proofs.Table.Structure

/-!
# Fields of extras

An entry that is an extra gets no field of its production.  But what stands in a hidden rule takes the
field of the rule when the rule is replaced, and the extras between its parts take it as well: in
`Noted` a note is the first child in a field.  This can only happen where a production gives a field to
a hidden rule that stands for more than one part, itself or through hidden rules that it consists of.
For all other fields the children in a field stand for symbols of the grammar.

## Key results

- `Subtree.makes_fielded`: extras in whatever a parse makes have only such fields
- `Language.parse_fields`: so it is in every tree of a parse
- `Noted.note_has_field`: a note that has a field
-/

namespace IncrementalParsing

namespace FlatGrammar

variable (g : FlatGrammar)

/-- A rule stands for more than one part, itself or through a hidden rule that it consists of. -/
inductive Wide : Symbol → Prop
  | parts {q : FlatProduction} (hq : q ∈ g.productions) (h : 1 < q.parts.length) : Wide q.lhs
  | part {q : FlatProduction} {s : Symbol} (hq : q ∈ g.productions) (h : q.rhs = [s])
      (hterminal : g.isTerminal s = false) (hvisible : g.isVisible s = false) (hs : Wide s) : Wide q.lhs

/-- A production gives a field to a hidden rule that stands for more than one part. -/
def Hands (field : FieldId) : Prop :=
  ∃ q ∈ g.productions, ∃ part ∈ q.parts, part.2 = some field ∧ g.isTerminal part.1 = false ∧
    g.isVisible part.1 = false ∧ g.Wide part.1

end FlatGrammar

variable {t : Table} {g : FlatGrammar} {items : StateId → Item → Prop} {text : ByteArray}

/-- What the extras in a part have for fields: only those that a hidden rule hands on, and in a rule
that stands for one part there are none. -/
structure Subtree.Fielded (g : FlatGrammar) (n : Subtree) : Prop where
  extras : ∀ c ∈ n.children, c.1.extra = true → ∀ field, c.2 = some field → g.Hands field
  narrow : g.isTerminal n.symbol = false → ¬g.Wide n.symbol → ∀ c ∈ n.children, c.1.extra = false

/-! ## The parts of a production -/

/-- Entries that spell a single symbol are one entry. -/
theorem Spells.eq_singleton {entries : List Entry} {s : Symbol} (h : Spells entries [s]) :
    ∃ e, entries = [e] ∧ e.node.extra = false ∧ e.node.symbol = s := by
  obtain ⟨hsymbols, hfirst, hlast⟩ := h
  match entries, hsymbols with
  | [e], hsymbols =>
    have he := hfirst e rfl
    rw [regularSymbols, List.filter_cons_of_pos (by simp [he])] at hsymbols
    exact ⟨e, rfl, he, List.head_eq_of_cons_eq hsymbols⟩
  | e :: e' :: rest, hsymbols =>
    -- the first and the last entry are two symbols
    have he := hfirst e rfl
    obtain ⟨last, hmem⟩ : ∃ last, (e' :: rest).getLast? = some last :=
      ⟨_, List.getLast?_eq_some_getLast (List.cons_ne_nil _ _)⟩
    have hextra := hlast last (by rw [List.getLast?_cons_cons, hmem]; rfl)
    rw [regularSymbols, List.filter_cons_of_pos (by simp [he]), List.map_cons] at hsymbols
    have hnone := (List.cons_eq_cons.mp hsymbols).2
    rw [List.map_eq_nil_iff, List.filter_eq_nil_iff] at hnone
    exact absurd hextra (by simpa using hnone last (List.mem_of_getLast? hmem))

namespace Build

/-- Extras get no field, and other entries get that of the part which they stand for. -/
theorem field_of_mem_withFields {entries : List Entry} {parts : List (Nat × Option Nat)}
    (hparts : regularSymbols entries = parts.map Prod.fst) {entry : Entry × Option FieldId}
    (h : entry ∈ withFields entries (parts.map Prod.snd)) {field : FieldId}
    (hfield : entry.2 = some field) :
    entry.1.node.extra = false ∧ (entry.1.node.symbol, some field) ∈ parts := by
  -- fields are handed out along the entries, and an extra does not use one up
  induction entries generalizing parts with
  | nil => cases h
  | cons e rest ih =>
    rw [withFields] at h
    cases hextra : e.node.extra with
    -- an extra gets no field
    | true =>
      rw [if_pos hextra] at h
      rw [regularSymbols, List.filter_cons_of_neg (by simp [hextra])] at hparts
      obtain rfl | h := List.mem_cons.mp h
      · cases hfield
      · exact ih hparts h
    | false =>
      rw [if_neg (by simp [hextra])] at h
      rw [regularSymbols, List.filter_cons_of_pos (by simp [hextra]), List.map_cons] at hparts
      cases parts with
      | nil => cases hparts
      | cons part parts =>
        obtain ⟨hsymbol, hrest⟩ := List.cons_eq_cons.mp hparts
        obtain rfl | h := List.mem_cons.mp h
        -- the first part gives its field to the first entry that is no extra
        · refine ⟨hextra, ?_⟩
          have hpart : part = (e.node.symbol, some field) := Prod.ext hsymbol.symm hfield
          exact hpart ▸ List.mem_cons_self ..
        · obtain ⟨hregular, hmem⟩ := ih hrest h
          exact ⟨hregular, List.mem_cons_of_mem _ hmem⟩

/-- Without fields there are none to get. -/
theorem field_of_withFields_nil {entries : List Entry} {entry : Entry × Option FieldId}
    (h : entry ∈ withFields entries []) : entry.2 = none := by
  induction entries with
  | nil => cases h
  | cons e rest ih =>
    rw [withFields] at h
    -- an extra takes no field, and for the others none is left
    split at h
    · obtain rfl | h := List.mem_cons.mp h
      · rfl
      · exact ih h
    · obtain rfl | h := List.mem_cons.mp h
      · rfl
      · exact ih h

end Build

/-! ## The parts that are made -/

namespace Subtree

variable {q : FlatProduction} {entries : List Entry}

/-- An extra in the node of a rule that has a field was in a hidden rule, which handed its field on
unless the extra had it before. -/
theorem hands_of_rule (h : t.Serves g items) (hq : q ∈ g.productions)
    (hspells : Spells entries q.rhs) (hentries : ∀ e ∈ entries, e.node.Fielded g)
    {c : Subtree × Option FieldId}
    (hc : c ∈ Build.children t q.lhs entries (q.parts.map Prod.snd)) (hextra : c.1.extra = true)
    {field : FieldId} (hfield : c.2 = some field) : g.Hands field := by
  have hne := (h.lhs_rule hq).2
  obtain ⟨entry, hentry, hpiece⟩ := (Build.mem_children_iff hne).mp hc
  have he := hentries _ (Build.mem_of_mem_withFields hentry)
  obtain ⟨-, rfl⟩ | ⟨hspliced, inner, hchild, hor⟩ := Build.mem_pieces_iff.mp hpiece
  -- an extra that stands on its own gets no field
  · obtain ⟨hregular, -⟩ := Build.field_of_mem_withFields hspells.symbols hentry hfield
    exact absurd (hextra.symm.trans hregular) (by decide)
  -- one that was in a hidden rule keeps its field, or takes that of the rule
  · obtain ⟨hterminal, hvisible⟩ := Build.hidden_of_isSpliced h.speaks hne hspliced
    cases inner with
    | some own =>
      rw [hor] at hfield
      exact he.extras _ hchild hextra field hfield
    | none =>
      rw [hor, Option.none_or] at hfield
      obtain ⟨-, hpart⟩ := Build.field_of_mem_withFields hspells.symbols hentry hfield
      refine ⟨q, hq, _, hpart, rfl, hterminal, hvisible, ?_⟩
      by_contra hwide
      have hregular := he.narrow hterminal hwide _ hchild
      exact absurd (hextra.symm.trans hregular) (by decide)

/-- A rule that stands for one part leaves no place for extras. -/
theorem narrow_rule (h : t.Serves g items) (hq : q ∈ g.productions)
    (hspells : Spells entries q.rhs) (hentries : ∀ e ∈ entries, e.node.Fielded g)
    (hwide : ¬g.Wide q.lhs) :
    ∀ c ∈ Build.children t q.lhs entries (q.parts.map Prod.snd), c.1.extra = false := by
  intro c hc
  have hne := (h.lhs_rule hq).2
  obtain ⟨entry, hentry, hpiece⟩ := (Build.mem_children_iff hne).mp hc
  have hmem := Build.mem_of_mem_withFields hentry
  have hlength : q.parts.length ≤ 1 := Nat.not_lt.mp fun hlt => hwide (.parts hq hlt)
  -- the row of the rule has at most one symbol
  match hrow : q.rhs with
  | [] =>
    rw [hrow] at hspells
    -- an entry would be the first, which is no extra
    cases entries with
    | nil => cases hmem
    | cons e rest =>
      have hsymbols := hspells.symbols
      rw [regularSymbols, List.filter_cons_of_pos (by simp [hspells.first e rfl])] at hsymbols
      cases hsymbols
  | [s] =>
    rw [hrow] at hspells
    obtain ⟨e, rfl, hextra, hsymbol⟩ := hspells.eq_singleton
    rw [List.mem_singleton] at hmem
    -- the only entry is the child itself, or a hidden rule that is narrow too
    obtain ⟨-, rfl⟩ | ⟨hspliced, inner, hchild, -⟩ := Build.mem_pieces_iff.mp hpiece
    · rw [hmem]
      exact hextra
    · obtain ⟨hterminal, hvisible⟩ := Build.hidden_of_isSpliced h.speaks hne hspliced
      rw [hmem, hsymbol] at hterminal hvisible
      refine (hentries _ (List.mem_singleton.mpr hmem)).narrow ?_ ?_ (c.1, inner) hchild
      · rwa [hmem, hsymbol]
      · rw [hmem, hsymbol]
        exact fun hs => hwide (.part hq hrow hterminal hvisible hs)
  | _ :: _ :: _ =>
    rw [← List.length_map Prod.fst, show q.parts.map Prod.fst = q.rhs from rfl, hrow] at hlength
    exact absurd hlength (by simp)

/-- Extras in whatever a parse makes have only fields that hidden rules hand on. -/
theorem makes_fielded (h : t.Serves g items) : t.Makes g (Fielded g) where
  leaf _ _ _ _ _ := ⟨(fun _ hc => by cases hc), fun _ _ _ hc => by cases hc⟩
  mark n extra _ hn := ⟨hn.extras, hn.narrow⟩
  join a b joined ha hjoined := by
    rw [eq_of_joinErrors hjoined]
    exact ⟨ha.extras, ha.narrow⟩
  error around entries fallback state hentries := by
    refine ⟨Build.forall_mem_children (fun a b joined field ha hjoined hextra => ?_) ?_,
      fun hrule => ?_⟩
    · rw [eq_of_joinErrors hjoined] at hextra
      exact ha hextra
    -- entries of an error have no field, so a field in it comes from a hidden part opened up
    · intro entry hentry c hc hextra field hfield
      have hnone := Build.field_of_withFields_nil hentry
      obtain ⟨-, rfl⟩ | ⟨-, inner, hchild, hor⟩ := Build.mem_pieces_iff.mp hc
      · exact absurd (hfield.symm.trans hnone) (by simp)
      · rw [hnone, Option.or_none] at hor
        rw [hor] at hfield
        exact (hentries _ (Build.mem_of_mem_withFields hentry)).self.extras _ hchild hextra field hfield
    · have herror := h.checked.error_terminal
      rw [h.speaks.terminal] at herror
      exact absurd (herror.symm.trans hrule) (by decide)
  -- an extra that comes out of a hidden part takes the field of that part
  rule q around entries fallback state hq hspells hentries :=
    ⟨fun _ hc hextra _ => hands_of_rule h hq hspells (fun e he => (hentries e he).self) hc hextra,
      fun _ => narrow_rule h hq hspells fun e he => (hentries e he).self⟩

end Subtree

/-! ## Trees -/

/-- The extras in a tree have only fields that a hidden rule hands on, so that all children in any other
field stand for symbols of the grammar. -/
structure Parsed.FieldsStand (g : FlatGrammar) (p : Parsed) : Prop where
  extras : ∀ n, p.tree.Has n → ∀ m ∈ n.stored, m.isExtra = true → ∀ field, m.field? = some field →
    g.Hands field
  byField : ∀ n, p.tree.Has n → ∀ name,
    (∀ field, p.tree.table.fieldId? name = some field → ¬g.Hands field) →
      (∀ m ∈ n.childrenByField name, m.isExtra = false) ∧
        ∀ m, n.childByField? name = some m → m.isExtra = false

/-- What is stored below a node is one of its part's children, in the field that the node has there. -/
theorem Node.mem_children_of_stored {n m : Node} (h : m ∈ n.stored) :
    (m.subtree, m.field?) ∈ n.subtree.children := by
  have hlist : ∀ (children : List (Subtree × Option FieldId)) (position : Length) (index : Nat),
      ∀ p ∈ Place.listFrom position index children, (p.subtree, p.field) ∈ children := by
    intro children
    induction children with
    | nil => exact fun _ _ _ hp => by cases hp
    | cons c rest ih =>
      intro position index p hp
      obtain rfl | hp := List.mem_cons.mp hp
      · exact List.mem_cons_self ..
      · exact List.mem_cons_of_mem _ (ih _ _ p hp)
  exact hlist _ _ _ _ (mem_below h)

namespace Config

variable {c : Config}

/-- Extras beside the start symbol have no field, and those in it only such that are handed on. -/
theorem extras_of_concludes {root : Subtree} {events : List Event}
    (h : c.Concludes t text (Subtree.Fielded g) root events) :
    ∀ d ∈ root.children, d.1.extra = true → ∀ field, d.2 = some field → g.Hands field := by
  cases h with
  | accepted _ hstack =>
    intro d hd hextra field hfield
    obtain ⟨e, he, hd⟩ := List.mem_flatMap.mp hd
    split at hd
    -- the children of the start's own node become the root's
    · exact (hstack e (List.mem_reverse.mp he)).self.extras d hd hextra field hfield
    · rw [List.mem_singleton.mp hd] at hfield
      cases hfield
  | wrapped =>
    intro d hd _ field hfield
    rw [List.mem_singleton.mp hd] at hfield
    cases hfield

end Config

namespace Language

variable {l : Language}

/-- In every tree that a parse with the table of a grammar gives, whether it starts from nothing or from
a tree of the language, extras have only fields that a hidden rule hands on. -/
theorem parse_fields {grammar : Grammar} (hflat : grammar.flatten = .ok g)
    (h : grammar.table = .ok l.table) (text : String) (old : Option Tree)
    (hold : ∀ tree, old = some tree → l.Grown tree) :
    ∃ p, l.parse text old = some p ∧ p.FieldsStand g := by
  obtain ⟨g', items, hflat', hserves⟩ := Grammar.serves_table h
  cases hflat.symm.trans hflat'
  obtain ⟨p, hp⟩ := hserves.exists_parse text old
  have hm := Subtree.makes_fielded hserves
  obtain ⟨c, events, hlinked, hevery, -, hdone, -⟩ :=
    exists_done (Q := fun _ => True) hserves hm
      (fun tree htree => retains_of_grown hserves hm (hold tree htree)) trivial
      (fun _ _ _ _ _ _ => trivial) hp
  obtain ⟨_, _, -, hconcludes⟩ := Config.concludes_of_done hserves hm hlinked hevery hdone
  -- the root is made in another way than the nodes below it
  have hextras : ∀ n, p.tree.Has n → ∀ m ∈ n.stored, m.isExtra = true → ∀ field,
      m.field? = some field → g.Hands field := by
    intro n hn m hstored hextra field hfield
    have hmem := Node.mem_children_of_stored hstored
    obtain hroot | hn := Tree.forall_has (P := Subtree.Every (Subtree.Fielded g))
      (fun _ => Subtree.Every.child) hconcludes.children hn
    · rw [hroot] at hmem
      exact Config.extras_of_concludes hconcludes _ hmem hextra field hfield
    · exact hn.self.extras _ hmem hextra field hfield
  -- what is looked up by name is filtered out of the children
  have hbyField : ∀ n, p.tree.Has n → ∀ name,
      (∀ field, p.tree.table.fieldId? name = some field → ¬g.Hands field) →
        ∀ m ∈ n.childrenByField name, m.isExtra = false := by
    intro n hn name hname m hmem
    rw [Node.childrenByField, hn.tree_eq] at hmem
    split at hmem
    · rename_i field hfield
      obtain ⟨hchild, heq⟩ := List.mem_filter.mp hmem
      by_contra hextra
      exact hname field hfield (hextras n hn m (List.mem_filter.mp hchild).1 (by simpa using hextra)
        field (beq_iff_eq.mp heq))
    · cases hmem
  exact ⟨p, hp, hextras, fun n hn name hname => ⟨hbyField n hn name hname, fun m hmem =>
    hbyField n hn name hname m (List.mem_of_mem_head? hmem)⟩⟩

end Language

/-- A text with two notes, of which the first is taken out.  The hidden rule in the field `f` stands for
two parts and hands the field on to the note between them.  The field `g` is not handed on, and what is
found in it is no note, though one stands before it. -/
theorem Sums.fields_of_notes : ∃ p q m k,
    Language.parse ⟨0, table⟩ "acbcb" none = some p ∧
    Language.parse ⟨0, table⟩ "abcb"
      (some (p.tree.edit (.splice "acbcb".toUTF8 1 2 "".toUTF8))) = some q ∧
    p.FieldsStand flat ∧ q.FieldsStand flat ∧ flat.Hands 1 ∧ ¬flat.Hands 2 ∧
    m ∈ p.tree.node.childrenByField "f" ∧ m.isExtra = true ∧
    p.tree.node.childByField? "g" = some k ∧ k.isExtra = false := by
  have hrun : ((Config.start table none).doneAfter? table "acbcb".toUTF8 8).bind (fun r =>
      (((Tree.node ⟨⟨0, table⟩, r.1⟩).childrenByField "f").find? Node.isExtra).bind fun m =>
        ((Tree.node ⟨⟨0, table⟩, r.1⟩).childByField? "g").map fun k => (m.isExtra, k.isExtra)) =
      some (true, false) := by
    cbv
  obtain ⟨r, hr, hrun⟩ := Option.bind_eq_some_iff.mp hrun
  obtain ⟨m, hm, hrun⟩ := Option.bind_eq_some_iff.mp hrun
  obtain ⟨k, hk, hrun⟩ := Option.map_eq_some_iff.mp hrun
  simp only [Prod.mk.injEq] at hrun
  have hp : Language.parse ⟨0, table⟩ "acbcb" none = some ⟨⟨⟨0, table⟩, r.1⟩, r.2⟩ := by
    rw [Language.parse, Option.map_eq_some_iff]
    exact ⟨r, Config.run_of_doneAfter? hr, rfl⟩
  obtain ⟨p, hp', hfields⟩ := Language.parse_fields (l := ⟨0, table⟩) flatten_grammar table_grammar
    "acbcb" none (fun _ h => by cases h)
  cases hp.symm.trans hp'
  obtain ⟨q, hq, hfields'⟩ := Language.parse_fields (l := ⟨0, table⟩) flatten_grammar table_grammar
    "abcb" (some (Tree.edit ⟨⟨0, table⟩, r.1⟩ (.splice "acbcb".toUTF8 1 2 "".toUTF8)))
    (fun tree htree => by
      cases htree
      exact .edited _ (.parsed (fun _ h => by cases h) hp))
  -- the second production gives its field to a hidden rule with two parts
  have hhands : flat.Hands 1 :=
    ⟨_, Array.mem_of_getElem? (show flat.productions[1]? = _ from rfl), (4, some 1), by decide, rfl,
      by decide, by decide,
      .parts (Array.mem_of_getElem? (show flat.productions[2]? = _ from rfl)) (by decide)⟩
  -- what stands in `g` is a visible rule
  have hkeeps : ∀ q ∈ flat.productions, ∀ part ∈ q.parts, part.2 = some 2 →
      flat.isVisible part.1 = true := by
    decide
  have hnot : ¬flat.Hands 2 := by
    rintro ⟨q, hq, part, hpart, hfield, -, hvisible, -⟩
    exact absurd (hvisible.symm.trans (hkeeps q hq part hpart hfield)) (by decide)
  exact ⟨_, q, m, k, hp, hq, hfields, hfields', hhands, hnot, List.mem_of_find?_eq_some hm, hrun.1, hk,
    hrun.2⟩

/-! ## A field for a hidden rule of two parts -/

namespace Noted

/-- An `a` and a `b` in a field, with notes between them. -/
def grammar : Grammar where
  name := "g"
  rules := [("s", .field "f" (.symbol "_h")), ("_h", .seq [.pattern "a" none, .string "b"]),
    ("note", .string "c")]
  extras := [.symbol "note"]
  precedences := []
  conflicts := []
  externals := []
  inlined := []
  supertypes := []
  word := none
  reserved := []

/-- The two rules, the note and the two other tokens, of which the first is hidden as well. -/
def flat : FlatGrammar where
  name := "g"
  symbols := #[⟨"end", none, true, false, false, false⟩, ⟨"ERROR", none, true, true, true, false⟩,
    ⟨"s", none, false, true, true, false⟩, ⟨"note", some ⟨"c", true, false, 0⟩, true, true, true, true⟩,
    ⟨"_h", none, false, true, false, false⟩,
    ⟨"a", some ⟨"(?:a)", false, false, 0⟩, true, false, false, false⟩, FlatSymbol.letter "b"]
  productions := #[⟨2, [(4, some 1)], none⟩, ⟨4, [(5, none), (6, none)], none⟩]
  fields := #["f"]
  start := 2

def parser : ParserTable where
  states := #[⟨[(2, .goto 1), (4, .goto 2), (5, .shift 3)], 1⟩, ⟨[(0, .accept)], 2⟩,
    ⟨[(0, .reduce 0)], 2⟩, ⟨[(6, .shift 4)], 3⟩, ⟨[(0, .reduce 1)], 2⟩]
  lexModes := #[[3, 5, 6], [3, 5], [3], [3, 6]]

def names : Names := ⟨#["g", "end", "ERROR", "s", "note", "c", "_h", "a", "(?:a)", "b", "f"],
  #[⟨5, (Automaton.ofByte 99).encode⟩, ⟨8, (Automaton.ofByte 97).encode⟩,
    ⟨9, (Automaton.ofByte 98).encode⟩]⟩

/-- The entries of the symbols. -/
def entries : List (List UInt8) :=
  [[1, 0, 1, 0, 0, 0, 0, 0], [2, 0, 7, 0, 0, 0, 0, 0], [3, 0, 6, 0, 0, 0, 0, 0],
    [4, 0, 31, 0, 1, 0, 0, 0], [6, 0, 2, 0, 0, 0, 0, 0], [7, 0, 1, 0, 2, 0, 0, 0],
    [9, 0, 21, 0, 3, 0, 0, 0]]

def table : Table where
  version := 1
  name := "g"
  start := 2
  symbols := #[SymbolInfo.plain "end" true false false false none,
    SymbolInfo.plain "ERROR" true true true false none, SymbolInfo.plain "s" false true true false none,
    ⟨"note", true, true, true, true, true, false, some 1, 0⟩,
    SymbolInfo.plain "_h" false true false false none,
    SymbolInfo.plain "a" true false false false (some 2),
    SymbolInfo.plain "b" true false true true (some 3)]
  fields := #["f"]
  productions := #[⟨2, [some 1]⟩, ⟨4, [none, none]⟩]
  states := parser.states
  lexModes := parser.lexModes
  lexemes := #[none, some ⟨"c", Automaton.ofByte 99⟩, some ⟨"(?:a)", Automaton.ofByte 97⟩,
    some ⟨"b", Automaton.ofByte 98⟩]

theorem flatten_grammar : grammar.flatten = .ok flat := by
  cbv

theorem ofGrammar_flat : ParserTable.ofGrammar flat = .ok parser := by
  cbv

theorem nameAll_flat :
    (TableImage.nameAll .plain flat).run ⟨#[], #[]⟩ = .ok ((0, entries, [10]), names) := by
  cbv

theorem ofParts_flat : Table.ofParts flat parser names = table := by
  cbv

theorem table_grammar : grammar.table = .ok table := by
  rw [← ofParts_flat]
  exact Grammar.table_of_names flatten_grammar ofGrammar_flat nameAll_flat (by decide +kernel)
    (by decide +kernel) (by decide) (by decide) (by decide) (by decide) (by decide +kernel)

/-- A note between the `a` and the `b` has the field of the rule that they make up, and is what is found
in it. -/
theorem note_has_field : grammar.table = .ok table ∧ ∃ p m,
    Language.parse ⟨0, table⟩ "acb" none = some p ∧ m ∈ p.tree.node.stored ∧ m.isExtra = true ∧
    m.field? = some 1 ∧ p.tree.node.childByField? "f" = some m := by
  have hrun : ((Config.start table none).doneAfter? table "acb".toUTF8 5).bind (fun r =>
      ((Tree.node ⟨⟨0, table⟩, r.1⟩).childByField? "f").map fun m => (m.isExtra, m.field?)) =
      some (true, some 1) := by
    cbv
  obtain ⟨r, hr, hrun⟩ := Option.bind_eq_some_iff.mp hrun
  obtain ⟨m, hm, hrun⟩ := Option.map_eq_some_iff.mp hrun
  simp only [Prod.mk.injEq] at hrun
  refine ⟨table_grammar, ⟨⟨⟨0, table⟩, r.1⟩, r.2⟩, m, ?_, ?_, hrun.1, hrun.2, hm⟩
  · rw [Language.parse, Option.map_eq_some_iff]
    exact ⟨r, Config.run_of_doneAfter? hr, rfl⟩
  -- the node that is looked up is one of the stored ones
  · have hmem := List.mem_of_mem_head? hm
    rw [Node.childrenByField] at hmem
    split at hmem
    · exact (List.mem_filter.mp (List.mem_filter.mp hmem).1).1
    · cases hmem

end Noted

end IncrementalParsing
