import IncrementalParsing.Proofs.Parse.ErrorReports

/-!
# Hidden parts

What hidden rules consist of takes their place when a node is built of them, so that only two kinds of
hidden parts are ever stored below a node: tokens, and rules that consist of nothing.  Whoever looks at
visible parts alone therefore misses nothing that lies deeper, and this stays so when a tree is edited.

## Key results

- `Subtree.makes_clear`: in whatever a parse makes, hidden parts have nothing in them
- `Language.clear_of_grown`: nothing is stored below the hidden nodes of a tree of the language, but for
  its root
-/

namespace IncrementalParsing

variable {t : Table} {g : FlatGrammar} {items : StateId → Item → Prop} {text : ByteArray}

namespace Subtree

/-- Hidden parts of a part have nothing in them.  Tokens have neither, but errors are tokens too, and
extras are tokens. -/
structure Clear (t : Table) (n : Subtree) : Prop where
  token : t.isTerminal n.symbol = true → n.symbol ≠ Symbol.error → n.children = []
  extra : n.extra = true → t.isTerminal n.symbol = true
  hidden : ∀ c ∈ n.children, t.isVisible c.1.symbol = false → c.1.children = []

/-- Errors are visible. -/
theorem ne_error_of_hidden (h : t.Serves g items) {s : Symbol} (hs : t.isVisible s = false) :
    s ≠ Symbol.error := by
  rintro rfl
  rw [h.speaks.visible, FlatGrammar.isVisible, h.regular.error] at hs
  cases hs

/-- A hidden part that is kept has nothing in it, since it is a token or an empty rule. -/
theorem Clear.leaf_of_hidden (h : t.Serves g items) {n : Subtree} (hn : n.Clear t)
    (hhidden : t.isVisible n.symbol = false)
    (hkept : n.extra = true ∨ Build.isHiddenRule t n.symbol = false ∨ n.children = []) :
    n.children = [] := by
  have hne := ne_error_of_hidden h hhidden
  obtain hextra | hrule | hnil := hkept
  · exact hn.token (hn.extra hextra) hne
  · refine hn.token ?_ hne
    simpa [Build.isHiddenRule, hhidden] using hrule
  · exact hnil

variable {parent : Symbol} {entries : List Entry} {fields : List (Option FieldId)}

/-- What entries leave in a node has nothing in it where it is hidden. -/
theorem hidden_children (h : t.Serves g items) (hentries : ∀ e ∈ entries, e.node.Clear t) :
    ∀ c ∈ Build.children t parent entries fields,
      t.isVisible c.1.symbol = false → c.1.children = [] := by
  refine Build.forall_mem_children (fun a b joined field ha hjoined => ?_)
    fun entry hentry c hc hhidden => ?_
  · rw [eq_of_joinErrors hjoined]
    exact ha
  -- a child is an entry as it was, or one of a spliced entry's own children
  · have he := hentries _ (Build.mem_of_mem_withFields hentry)
    obtain ⟨hkept, rfl⟩ | ⟨-, inner, hchild, -⟩ := Build.mem_pieces_iff.mp hc
    · refine he.leaf_of_hidden h hhidden ?_
      simp only [Build.isSpliced, isLeaf, Bool.and_eq_false_iff, Bool.or_eq_false_iff,
        Bool.not_eq_false', List.isEmpty_iff] at hkept
      tauto
    · exact he.hidden (c.1, inner) hchild hhidden

/-- In whatever a parse makes, hidden parts have nothing in them. -/
theorem makes_clear (h : t.Serves g items) : t.Makes g (Clear t) where
  leaf token state extra hterminal _ := ⟨fun _ _ => rfl, fun _ => hterminal, fun _ hc => by cases hc⟩
  mark n extra hterminal hn := ⟨hn.token, fun _ => hterminal, hn.hidden⟩
  join a b joined ha hjoined := by
    rw [eq_of_joinErrors hjoined]
    exact ⟨ha.token, ha.extra, ha.hidden⟩
  error around entries fallback state hentries :=
    ⟨fun _ hne => absurd rfl hne, (fun hextra => by cases hextra),
      hidden_children h fun e he => (hentries e he).self⟩
  rule q around entries fallback state hq _ hentries := by
    refine ⟨fun hterminal => ?_, (fun hextra => by cases hextra),
      hidden_children h fun e he => (hentries e he).self⟩
    -- a production's symbol is no token
    exact absurd (hterminal.symm.trans (h.lhs_rule hq).1) (by decide)

/-- An edit changes nothing about what is hidden, and where there is nothing there is nothing after it. -/
theorem Clear.of_alike {n n' : Subtree} (halike : Alike n' n)
    (hchildren : List.Forall₂ (fun c' c => Alike c'.1 c.1) n'.children n.children) (hn : n.Clear t) :
    n'.Clear t := by
  refine ⟨fun hterminal hne => ?_, fun hextra => ?_, fun c' hc' hhidden => ?_⟩
  · rw [halike.symbol] at hterminal hne
    exact halike.empty.mpr (hn.token hterminal hne)
  · rw [halike.extra] at hextra
    rw [halike.symbol]
    exact hn.extra hextra
  · obtain ⟨c, hc, hsame⟩ := exists_of_mem_forall₂ hchildren hc'
    rw [hsame.symbol] at hhidden
    exact hsame.empty.mpr (hn.hidden c hc hhidden)

end Subtree

open Subtree (Clear)

/-- Hidden parts of the root have nothing in them either. -/
theorem Config.clear_of_concludes (h : t.Serves g items) {c : Config} {root : Subtree}
    {events : List Event} (hconcludes : c.Concludes t text (Clear t) root events) :
    root.Every (Clear t) := by
  have hroot : ∀ (children : List (Subtree × Option FieldId)) (token : Subtree),
      (∀ d ∈ children, t.isVisible d.1.symbol = false → d.1.children = []) →
      (buildRoot text t.start children token).Clear t := fun children token hhidden =>
    ⟨fun hterminal => absurd (hterminal.symm.trans h.checked.start_rule) (by decide),
      (fun hextra => by cases hextra), hhidden⟩
  refine ⟨?_, hconcludes.children⟩
  -- the root is the start symbol with extras around it, or wraps an error
  cases hconcludes with
  | accepted hregular hstack =>
    refine hroot _ _ fun d hd hhidden => ?_
    obtain ⟨e, he, hd⟩ := List.mem_flatMap.mp hd
    have he := List.mem_reverse.mp he
    have hclear := (hstack e he).self
    split at hd
    · exact hclear.hidden d hd hhidden
    · rename_i hkept
      rw [List.mem_singleton.mp hd] at hhidden ⊢
      refine hclear.leaf_of_hidden h hhidden (.inl ?_)
      -- the one entry that is no extra is the start symbol
      by_contra hextra
      have hmem : e.node.symbol ∈ regularSymbols c.stack :=
        List.mem_map_of_mem (List.mem_filter.mpr ⟨he, by simp [hextra]⟩)
      rw [hregular, List.mem_singleton] at hmem
      simp [hextra, hmem] at hkept
  | wrapped hsymbol _ =>
    refine hroot _ _ fun d hd hhidden => ?_
    rw [List.mem_singleton.mp hd] at hhidden
    exact absurd hsymbol (Subtree.ne_error_of_hidden h hhidden)

/-! ## Trees -/

/-- Nothing is stored below hidden nodes, but for the root. -/
def Tree.Clear (tree : Tree) : Prop :=
  ∀ n, tree.Has n → ∀ m ∈ n.stored, m.isVisible = false → m.stored = []

namespace Language

variable {l : Language}

/-- The trees of a language have its table. -/
theorem table_of_grown {tree : Tree} (h : l.Grown tree) : tree.table = l.table := by
  induction h with
  | parsed _ hp =>
    simp only [parse, Option.map_eq_some_iff] at hp
    obtain ⟨r, -, rfl⟩ := hp
    rfl
  | edited _ _ ih => exact ih

/-- In a tree of the language hidden parts have nothing in them, but for the root. -/
theorem every_clear_of_grown (h : l.table.Serves g items) {tree : Tree} (hgrown : l.Grown tree) :
    tree.root.Every (Clear l.table) := by
  have hm := Subtree.makes_clear h
  induction hgrown with
  | parsed hold hp _ =>
    obtain ⟨c, events, hlinked, hevery, -, hdone, -⟩ := exists_done (Q := fun _ => True) h hm
      (fun tree htree => retains_of_grown h hm (hold tree htree)) trivial
      (fun _ _ _ _ _ _ => trivial) hp
    obtain ⟨_, _, -, hconcludes⟩ := Config.concludes_of_done h hm hlinked hevery hdone
    exact Config.clear_of_concludes h hconcludes
  | edited e _ ih => exact ih.edit (fun _ _ => Clear.of_alike) e .zero

/-- Nothing is stored below the hidden nodes of a tree of the language, but for its root. -/
theorem clear_of_grown {grammar : Grammar} (h : grammar.table = .ok l.table) {tree : Tree}
    (hgrown : l.Grown tree) : tree.Clear := by
  obtain ⟨g, items, -, hserves⟩ := Grammar.serves_table h
  have hroot := every_clear_of_grown hserves hgrown
  intro n hn m hm hhidden
  -- the node is the root, or stands somewhere below it
  have hclear : n.subtree.Clear l.table := by
    obtain hsame | hinner := Tree.forall_has (P := Subtree.Every (Clear l.table))
      (fun _ => Subtree.Every.child) hroot.child hn
    · exact hsame ▸ hroot.self
    · exact hinner.self
  obtain ⟨⟨c, hc, hsame⟩, -⟩ := exists_child_of_stored hm
  rw [Node.isVisible, Node.symbol, hsame, (Tree.Has.stored hn hm).tree_eq,
    table_of_grown hgrown] at hhidden
  have hnil := hclear.hidden c hc hhidden
  rw [← hsame] at hnil
  rw [Node.stored, Place.below, show m.place.subtree.children = [] from hnil]
  rfl

end Language

end IncrementalParsing
