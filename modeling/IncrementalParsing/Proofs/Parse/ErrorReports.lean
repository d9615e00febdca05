import IncrementalParsing.Proofs.Parse.Contents
import IncrementalParsing.Proofs.Parse.ErrorMarks

/-!
# Errors are reported exactly

A parse with the table of a grammar marks every part for the errors in it, however they come into the
tree: made of a token, cut off the stack, joined with another, spliced with a hidden rule, or left
beside the start symbol.  An error never gets lost once the stack was repaired, so the tree is marked
exactly if there was a repair, and then it has an error to show.

## Key results

- `Subtree.makes_reports`: whatever a parse makes is marked for what it consists of
- `Config.marks_of_moves`: after a repair there is always an error on the stack
- `Language.parse_reports`: repairs, marks, errors in the tree and errors that are listed go together
-/

namespace IncrementalParsing

variable {t : Table} {g : FlatGrammar} {items : StateId → Item → Prop} {text : ByteArray}

open Subtree (Reports)

/-! ## The parts that are made -/

namespace Subtree

/-- A marked part that is kept in the node of a rule is visible. -/
theorem Reports.isVisible (h : t.Serves g items) {n : Subtree} (hn : n.Reports t)
    (hmarked : n.hasError = true)
    (hkept : n.extra = true ∨ Build.isHiddenRule t n.symbol = false ∨ n.children = []) :
    t.isVisible n.symbol = true := by
  have herror : t.isVisible Symbol.error = true := by
    rw [h.speaks.visible, FlatGrammar.isVisible, h.regular.error]
    rfl
  by_cases hne : n.symbol = Symbol.error
  · rw [hne]
    exact herror
  -- a marked part that is no error is not empty, so it is no token
  · have hfilled : n.children ≠ [] := fun hnil => by
      obtain ⟨c, hc, -⟩ := (hn.marked.mp hmarked).resolve_left hne
      rw [hnil] at hc
      cases hc
    have hrule : t.isTerminal n.symbol = false :=
      Bool.eq_false_iff.mpr fun hterminal => hfilled (hn.token hterminal hne)
    obtain hextra | hhidden | hnil := hkept
    · rw [hn.extra hextra] at hrule
      cases hrule
    · simpa [Build.isHiddenRule, hrule] using hhidden
    · exact absurd hnil hfilled

variable {parent : Symbol} {entries : List Entry} {fields : List (Option FieldId)}

/-- An entry is marked just when something is that the entries leave in the node of a rule. -/
theorem marked_iff_children (h : t.Serves g items) (hp : parent ≠ Symbol.error)
    (hentries : ∀ e ∈ entries, e.node.Reports t) :
    (∃ e ∈ entries, e.node.hasError = true) ↔
      ∃ c ∈ Build.children t parent entries fields, c.1.hasError = true := by
  constructor
  · rintro ⟨e, he, hmarked⟩
    obtain ⟨field, hentry⟩ := Build.exists_mem_withFields he fields
    cases hspliced : Build.isSpliced t parent e.node with
    | false =>
      exact ⟨_, (Build.mem_children_iff hp).mpr
        ⟨_, hentry, Build.mem_pieces_iff.mpr (.inl ⟨hspliced, rfl⟩)⟩, hmarked⟩
    | true =>
      -- what is spliced is a hidden rule, and so it is marked for one of its children
      obtain ⟨c, hc, hmarked⟩ := ((hentries e he).marked.mp hmarked).resolve_left
        (Build.ne_error_of_isSpliced h hp hspliced)
      exact ⟨(c.1, c.2.or field), (Build.mem_children_iff hp).mpr
        ⟨_, hentry, Build.mem_pieces_iff.mpr (.inr ⟨hspliced, c.2, hc, rfl⟩)⟩, hmarked⟩
  -- a child is an entry or was in one, which is marked for it then
  · rintro ⟨c, hc, hmarked⟩
    obtain ⟨entry, hentry, hpiece⟩ := (Build.mem_children_iff hp).mp hc
    have he := Build.mem_of_mem_withFields hentry
    refine ⟨entry.1, he, ?_⟩
    obtain ⟨-, rfl⟩ | ⟨-, inner, hchild, -⟩ := Build.mem_pieces_iff.mp hpiece
    · exact hmarked
    · exact (hentries _ he).marked.mpr (.inr ⟨_, hchild, hmarked⟩)

/-- What is marked in the node of a rule is visible. -/
theorem shown_children (h : t.Serves g items) (hp : parent ≠ Symbol.error)
    (hentries : ∀ e ∈ entries, e.node.Reports t) :
    ∀ c ∈ Build.children t parent entries fields, c.1.hasError = true →
      t.isVisible c.1.symbol = true := by
  intro c hc hmarked
  obtain ⟨entry, hentry, hpiece⟩ := (Build.mem_children_iff hp).mp hc
  have he := hentries _ (Build.mem_of_mem_withFields hentry)
  -- a kept child is visible or a leaf, a spliced one gives children that are shown
  obtain ⟨hkept, rfl⟩ | ⟨hspliced, inner, hchild, -⟩ := Build.mem_pieces_iff.mp hpiece
  · refine he.isVisible h hmarked ?_
    simp only [Build.isSpliced, isLeaf, Bool.and_eq_false_iff, Bool.or_eq_false_iff,
      Bool.not_eq_false', List.isEmpty_iff] at hkept
    tauto
  · exact he.shown (Build.ne_error_of_isSpliced h hp hspliced) (c.1, inner) hchild hmarked

/-- Whatever a parse makes is marked for what it consists of. -/
theorem makes_reports (h : t.Serves g items) : t.Makes g (Reports t) where
  -- a token is marked if it is an error, and has no children to be marked for
  leaf token state extra hterminal _ :=
    ⟨by simp [leaf], (fun _ _ hc => by cases hc), fun _ _ => rfl, fun _ => hterminal,
      fun _ hc => by cases hc⟩
  mark n extra hterminal hn := ⟨hn.marked, hn.shown, hn.token, fun _ => hterminal, hn.begins⟩
  join a b joined ha hjoined := by
    rw [eq_of_joinErrors hjoined]
    exact ⟨ha.marked, ha.shown, ha.token, ha.extra, ha.begins⟩
  -- an error is always marked, so nothing is asked of its children
  error around entries fallback state hentries := by
    refine ⟨by simp [buildNode], fun hne => absurd rfl hne, fun _ hne => absurd rfl hne,
      (fun hextra => by cases hextra), ?_⟩
    exact Build.begins_children _ _ fun e he => (hentries e he).self.begins
  rule q around entries fallback state hq _ hentries := by
    obtain ⟨hrule, hne⟩ := h.lhs_rule hq
    -- the nodes in a rule are reported for themselves, and the built one only sums them up
    have hreports : ∀ e ∈ entries, e.node.Reports t := fun e he => (hentries e he).self
    refine ⟨?_, fun _ => shown_children h hne hreports, fun hterminal => ?_,
      (fun hextra => by cases hextra), Build.begins_children _ _ fun e he => (hreports e he).begins⟩
    · rw [show (buildNode t around q.lhs entries (q.parts.map Prod.snd) fallback state).1.hasError
        = (q.lhs == Symbol.error || entries.any (·.node.hasError)) from rfl,
        beq_eq_false_iff_ne.mpr hne, Bool.false_or, List.any_eq_true,
        marked_iff_children h hne hreports]
      exact (or_iff_right hne).symm
    · exact absurd (hterminal.symm.trans hrule) (by decide)

end Subtree

/-! ## Repairs -/

/-- Events that are no repairs leave a parse untroubled. -/
theorem Untroubled.cons {e : Event} {events : List Event} (h : Untroubled events)
    (he : ∀ state recovery start finish, e ≠ .recover state recovery start finish) :
    Untroubled (e :: events) := by
  intro state recovery start finish hmem
  obtain heq | hmem := List.mem_cons.mp hmem
  · exact he _ _ _ _ heq.symm
  · exact h _ _ _ _ hmem

/-- Repairs are counted. -/
theorem recoveries_pos_iff {events : List Event} :
    0 < (Stats.ofEvents events).recoveries ↔ ¬Untroubled events := by
  constructor
  -- the events are added up from the front, so the induction is on what comes last
  · rw [← List.reverse_reverse events]
    generalize events.reverse = events
    induction events with
    | nil => exact fun h => absurd h (Nat.lt_irrefl 0)
    | cons e rest ih =>
      rw [List.reverse_cons, Stats.ofEvents, List.foldl_append, List.foldl_cons, List.foldl_nil]
      intro hpos hu
      have hrest : Untroubled rest.reverse := fun _ _ _ _ hmem =>
        hu _ _ _ _ (List.mem_append_left _ hmem)
      cases e with
      | recover => exact hu _ _ _ _ (List.mem_append_right _ (List.mem_singleton_self _))
      | lex | reuse | shift | extra | reduce | accept => exact ih hpos hrest
  · intro hu
    by_contra hzero
    exact hu (untroubled_of_recoveries (Nat.eq_zero_of_not_pos hzero))

namespace Config

variable {c c' : Config}

/-- After a repair there is an error on the stack. -/
def Marks (c : Config) : Prop := ¬Untroubled c.events → ∃ e ∈ c.stack, e.node.hasError = true

/-- Getting the next token is no repair. -/
theorem marks_of_readies {token : Subtree} (hc : c.Marks) (h : Readies t text c token c') :
    c'.Marks := by
  rw [Marks, (readies_frame h).1]
  intro hu
  refine hc fun hu' => hu ?_
  cases h with
  | waiting => exact hu'
  | lexed => exact hu'.cons fun _ _ _ _ h => by cases h
  | reused => exact hu'.cons fun _ _ _ _ h => by cases h

/-- What is put on top of a stack leaves the errors in it. -/
theorem marks_push (hc : c.Marks) {entry : Entry} (hstack : c'.stack = entry :: c.stack)
    (hevents : Untroubled c.events → Untroubled c'.events) : c'.Marks := by
  intro hu
  obtain ⟨e, he, hmarked⟩ := hc fun hu' => hu (hevents hu')
  exact ⟨e, hstack ▸ List.mem_cons_of_mem _ he, hmarked⟩

/-- A reduction takes the errors among its parts into the node that it builds. -/
theorem marks_reduce (hc : c.Marks) (token : Subtree) (production : Production) :
    (c.reduce t token production).Marks := by
  intro hu
  -- what was repaired before this reduction has marked some entry
  obtain ⟨e, he, hmarked⟩ := hc fun hu' => by
    refine hu ?_
    unfold reduce
    exact hu'.cons fun _ _ _ _ h => by cases h
  unfold reduce
  generalize hpop : c.stack.popChildren production.size = popped
  obtain ⟨parts, trailing, rest⟩ := popped
  dsimp only
  -- the entry stays, goes into the node, or comes off as trailing extra
  obtain he | he | he := (Stack.mem_of_popChildren hpop).mp he
  · exact ⟨e, List.mem_append_right _ (List.mem_cons_of_mem _ he), hmarked⟩
  · refine ⟨_, List.mem_append_right _ (List.mem_cons_self ..), ?_⟩
    change (production.lhs == Symbol.error || parts.any (·.node.hasError)) = true
    rw [Bool.or_eq_true, List.any_eq_true]
    exact .inr ⟨e, he, hmarked⟩
  · exact ⟨_, List.mem_append_left _ (List.mem_reverse.mpr (List.mem_map_of_mem he)), hmarked⟩

theorem marks_of_continues (h : t.Serves g items) (hevery : c.Every (Reports t)) (hc : c.Marks)
    {token : Subtree} (htoken : Reads (Reports t) token) (hgoes : Continues t c token c') :
    c'.Marks := by
  cases hgoes with
  | shift | extra => exact marks_push hc rfl fun hu => hu.cons fun _ _ _ _ h => by cases h
  | reduce => exact marks_reduce hc token _
  -- a cut and a skip put an error on the stack
  | cut => exact fun _ => ⟨_, List.mem_cons_self .., rfl⟩
  | skip hf =>
    have habsorbed := (every_absorb (Subtree.makes_reports h) hevery (htoken.resolve_left hf)).1.self
    exact fun _ => ⟨_, List.mem_cons_self .., habsorbed.marked.mpr (.inl (symbol_absorb c t token))⟩

/-- After a repair there is an error on the stack wherever the parse gets. -/
theorem marks_of_moves (h : t.Serves g items) (hevery : c.Every (Reports t)) (hc : c.Marks)
    (hmoves : Moves t text c c') : c'.Marks := by
  obtain ⟨token, ready, hready, hgoes⟩ | ⟨n, ready, hready, -, -, rfl⟩ := moves_cases hmoves
  · obtain ⟨hevery', htoken⟩ := every_of_readies h.checked (Subtree.makes_reports h).leaf hevery hready
    exact marks_of_continues h hevery' (marks_of_readies hc hready) htoken hgoes
  · exact marks_push (marks_of_readies hc hready) rfl id

/-! ## The root -/

/-- The root of a parse is marked for what it consists of, and if there was a repair it is marked. -/
theorem reports_of_concludes (h : t.Serves g items) (hc : c.Marks) {root : Subtree}
    {events : List Event} (hconcludes : c.Concludes t text (Reports t) root events) :
    root.Reports t ∧ (¬Untroubled events → root.hasError = true) := by
  have hne := h.start_ne_error
  -- a root is no error, so that it is marked only for its children
  have hroot : ∀ (children : List (Subtree × Option FieldId)) (token : Subtree),
      (∀ d ∈ children, d.1.hasError = true → t.isVisible d.1.symbol = true) →
      (buildRoot text t.start children token).Reports t := by
    intro children token hshown
    refine ⟨?_, fun _ => hshown, fun hterminal => ?_, (fun hextra => by cases hextra),
      fun _ _ => Nat.zero_le _⟩
    · change children.any (·.1.hasError) = true ↔ t.start = Symbol.error ∨ _
      rw [List.any_eq_true, or_iff_right hne]
      rfl
    · exact absurd (hterminal.symm.trans h.checked.start_rule) (by decide)
  cases hconcludes with
  | @accepted token hregular hstack =>
    refine ⟨hroot _ _ fun d hd hmarked => ?_, fun hu => ?_⟩
    -- a child of the start symbol is shown for that, and any other entry is an extra
    · obtain ⟨e, he, hd⟩ := List.mem_flatMap.mp hd
      have he := List.mem_reverse.mp he
      have hreports := (hstack e he).self
      split at hd
      · rename_i hspliced
        rw [Bool.and_eq_true, beq_iff_eq] at hspliced
        exact hreports.shown (hspliced.2 ▸ hne) d hd hmarked
      · rename_i hkept
        rw [List.mem_singleton.mp hd] at hmarked ⊢
        refine hreports.isVisible h hmarked (.inl ?_)
        -- the one entry that is no extra is the start symbol
        by_contra hextra
        have hmem : e.node.symbol ∈ regularSymbols c.stack :=
          List.mem_map_of_mem (List.mem_filter.mpr ⟨he, by simp [hextra]⟩)
        rw [hregular, List.mem_singleton] at hmem
        simp [hextra, hmem] at hkept
    -- after a repair some entry is marked, and the root is made of it or of its children
    · obtain ⟨e, he, hmarked⟩ := hc fun hu' => hu (hu'.cons fun _ _ _ _ h => by cases h)
      change (List.flatMap _ _).any _ = true
      rw [List.any_eq_true]
      have hreports := (hstack e he).self
      cases hspliced : !e.node.extra && e.node.symbol == t.start with
      | false =>
        exact ⟨(e.node, none), List.mem_flatMap.mpr ⟨e, List.mem_reverse.mpr he, by simp [hspliced]⟩,
          hmarked⟩
      | true =>
        have hstart : e.node.symbol = t.start := by
          rw [Bool.and_eq_true, beq_iff_eq] at hspliced
          exact hspliced.2
        obtain ⟨d, hd, hmarked⟩ := (hreports.marked.mp hmarked).resolve_left (hstart ▸ hne)
        exact ⟨d, List.mem_flatMap.mpr ⟨e, List.mem_reverse.mpr he, by simpa [hspliced] using hd⟩,
          hmarked⟩
  -- the error around all of the stack is the root's only child
  | @wrapped error token start finish hsymbol herror =>
    have hmarked := herror.self.marked.mpr (.inl hsymbol)
    refine ⟨hroot _ _ fun d hd hmarked' => ?_, fun _ => ?_⟩
    · rw [List.mem_singleton.mp hd]
      refine herror.self.isVisible h hmarked (.inr (.inl ?_))
      simp [Build.isHiddenRule, hsymbol, h.checked.error_terminal]
    · change (List.any [(error, none)] fun c => c.1.hasError) = true
      simp [hmarked]

end Config

/-! ## Trees -/

/-- Errors are reported exactly.  There was a repair if and only if the tree is marked, if and only if an
error is stored in it, if and only if errors are listed.  Every node is marked exactly if it is an error
or one is stored below it.  The ranges that are listed are those of errors; they follow each other in
the order of the text, and every error lies in one of them. -/
structure Parsed.ReportsErrors (p : Parsed) : Prop where
  recoveries : 0 < p.stats.recoveries ↔ p.tree.hasError = true
  stored : p.tree.hasError = true ↔ ∃ n, p.tree.Has n ∧ n.symbol = Symbol.error
  listed : p.tree.hasError = true ↔ p.tree.syntaxErrors ≠ []
  marked : ∀ n, p.tree.Has n →
    (n.hasError = true ↔ ∃ m, n.Above m ∧ m.symbol = Symbol.error)
  ordered : p.tree.syntaxErrors.Pairwise fun a b => a.2 ≤ b.1
  ranges : ∀ range ∈ p.tree.syntaxErrors, range.1 ≤ range.2 ∧
    ∃ n, p.tree.Has n ∧ n.symbol = Symbol.error ∧ range = (n.startByte, n.endByte)
  covered : ∀ n, p.tree.Has n → n.symbol = Symbol.error →
    ∃ range ∈ p.tree.syntaxErrors, range.1 ≤ n.startByte ∧ n.endByte ≤ range.2

/-- Every node of a tree is stored below its root. -/
theorem Tree.Has.above {tree : Tree} {n : Node} (h : tree.Has n) : tree.node.Above n := by
  induction h with
  | root => exact .refl
  | stored _ hm ih => exact ih.tail hm

namespace Language

variable {l : Language}

/-- A parse marks its tree for all that is in it, and for every repair. -/
theorem reports_of_parse (h : l.table.Serves g items) {text : String} {old : Option Tree}
    {p : Parsed} (hold : ∀ tree, old = some tree → l.Grown tree) (hp : l.parse text old = some p) :
    p.tree.Reports ∧ (0 < p.stats.recoveries → p.tree.hasError = true) := by
  have hm := Subtree.makes_reports h
  -- after a repair there is a marked entry on the stack, to the end of the run
  obtain ⟨c, events, hlinked, hevery, hmarks, hdone, hevents⟩ :=
    exists_done (Q := Config.Marks) h hm (fun tree htree => retains_of_grown h hm (hold tree htree))
      (fun hu => absurd (fun _ _ _ _ hmem => by cases hmem) hu)
      (fun c c' _ hevery hc => Config.marks_of_moves h hevery hc) hp
  obtain ⟨token, ready, hready, hconcludes⟩ := Config.concludes_of_done h hm hlinked hevery hdone
  obtain ⟨hroot, hmarked⟩ :=
    Config.reports_of_concludes h (Config.marks_of_readies hmarks hready) hconcludes
  -- all nodes but the root are in the tree's parts, which the parse made
  refine ⟨fun n hn => ?_, fun hpos => hmarked fun hu => ?_⟩
  · have htable : p.tree.table = l.table := by
      simp only [parse, Option.map_eq_some_iff] at hp
      obtain ⟨r, -, rfl⟩ := hp
      rfl
    rw [htable]
    obtain hsame | hn := Tree.forall_has (P := Subtree.Every (Reports l.table))
      (fun _ => Subtree.Every.child) hconcludes.children hn
    · exact hsame ▸ hroot
    · exact hn.self
  · refine recoveries_pos_iff.mp hpos ?_
    rw [hevents]
    exact fun _ _ _ _ hmem => hu _ _ _ _ (List.mem_reverse.mp hmem)

/-- Every parse of a text with the table of a grammar gives a tree whose errors are reported exactly,
whether it starts from nothing or from a tree that belongs to the text. -/
theorem parse_reports {grammar : Grammar} (h : grammar.table = .ok l.table) (text : String)
    (old : Option Tree) (hold : ∀ tree, old = some tree → l.TreeFor text tree) :
    ∃ p, l.parse text old = some p ∧ p.ReportsErrors := by
  obtain ⟨g, items, hflat, hserves⟩ := Grammar.serves_table h
  obtain ⟨p, hp⟩ := hserves.exists_parse text old
  have hgrown : ∀ tree, old = some tree → l.Grown tree := fun tree htree =>
    grown_of_treeFor (hold tree htree)
  obtain ⟨hreports, hrepaired⟩ := reports_of_parse hserves hgrown hp
  have hnested := (kept_of_parse (fun tree htree => kept_of_treeFor (hold tree htree)) hp).nested
  have hderived := (derived_of_parse hserves.sound hserves.checked hserves.speaks hserves.guided
    (fun tree htree => lawful_of_grown hserves.sound hserves.checked hserves.speaks hserves.guided
      (hgrown tree htree)) hp).2
  -- the marks say what is in the tree, and so the three ways to ask for errors agree
  have hstored : p.tree.hasError = true ↔ ∃ n, p.tree.Has n ∧ n.symbol = Symbol.error :=
    (Node.hasError_iff hreports .root).trans
      ⟨fun ⟨m, hm, herror⟩ => ⟨m, Node.has_of_above .root hm, herror⟩,
        fun ⟨m, hm, herror⟩ => ⟨m, hm.above, herror⟩⟩
  refine ⟨p, hp, ⟨hrepaired, fun hmarked => ?_⟩, hstored,
    (Node.errorsBelow_ne_nil_iff hreports .root).symm, fun n hn => Node.hasError_iff hreports hn,
    Node.pairwise_errorsBelow hnested .root, fun range hrange => ?_, fun n hn herror =>
      Node.covered_errorsBelow hreports hnested .root hn.above herror⟩
  -- without a recovery the whole text is derived, and then no node is an error
  · by_contra hzero
    obtain ⟨n, hn, herror⟩ := hstored.mp hmarked
    exact (hderived.untroubled (Nat.eq_zero_of_not_pos hzero)).2 n hn herror
  · obtain ⟨m, hm, herror, rfl⟩ := Node.exists_of_mem_errorsBelow hrange
    exact ⟨m.startByte_le_endByte, m, Node.has_of_above .root hm, herror, rfl⟩

end Language

/-- A text with an error, parsed again after its second letter was replaced: the tree of the whole
text is given back with its error. -/
theorem oneToken_reports : ∃ p q,
    Language.parse ⟨0, OneToken.table⟩ "b a" none = some p ∧
    Language.parse ⟨0, OneToken.table⟩ "b b"
      (some (p.tree.edit (.splice "b a".toUTF8 2 3 "b".toUTF8))) = some q ∧
    p.ReportsErrors ∧ q.ReportsErrors := by
  obtain ⟨p, hp, hreports⟩ := Language.parse_reports (l := ⟨0, OneToken.table⟩) OneToken.table_grammar
    "b a" none (fun _ h => by cases h)
  obtain ⟨q, hq, hreports'⟩ := Language.parse_reports (l := ⟨0, OneToken.table⟩)
    OneToken.table_grammar "b b" (some (p.tree.edit (.splice "b a".toUTF8 2 3 "b".toUTF8)))
    (fun tree htree => by
      cases htree
      -- the second parse is offered the first tree, edited
      exact .edited 2 3 "b" (.parsed (fun _ h => by cases h) hp) (by decide +kernel))
  exact ⟨p, q, hp, hq, hreports, hreports'⟩

end IncrementalParsing
