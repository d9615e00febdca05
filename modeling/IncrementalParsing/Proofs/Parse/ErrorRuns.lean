import IncrementalParsing.Proofs.Parse.FieldsOfExtras
import Mathlib.Data.List.Chain

/-!
# Runs of characters that are no token

Each character that is no token is an error of its own when it is skipped, and a run of them becomes one
error: two that abut, with nothing skipped between them, are joined where a token is skipped and where
an error is made of entries.  They are not joined where a production is reduced and where a stack is
accepted, and need not be: on the stack no two of them abut, and a rule neither begins nor ends with an
error, so that what takes the place of a hidden rule or of the start symbol keeps them apart.  Only an
empty rule leaves nothing, but there is never an extra right below it.

## Key results

- `Build.apart_error`, `Build.apart_rule`: what entries leave in a node is apart
- `Config.parted_of_moves`: a step keeps what is on the stack apart
- `Language.parse_collapses`: in the tree of a parse no two errors abut
-/

namespace IncrementalParsing

variable {t : Table} {g : FlatGrammar} {items : StateId → Item → Prop} {text : ByteArray}

namespace Subtree

/-- Two errors with nothing inside, and with nothing skipped between them. -/
structure Abuts (a b : Subtree) : Prop where
  errors : a.symbol = Symbol.error ∧ b.symbol = Symbol.error
  leaves : a.children = [] ∧ b.children = []
  padding : b.padding.bytes = 0

/-- The parts that are joined are those that abut. -/
theorem isSome_joinErrors {a b : Subtree} : (a.joinErrors? b).isSome = true ↔ a.Abuts b := by
  have hjoin : (a.joinErrors? b).isSome = true ↔ ((((a.isError = true ∧ b.isError = true) ∧
      a.isLeaf = true) ∧ b.isLeaf = true) ∧ (b.padding.bytes == 0) = true) := by
    unfold joinErrors?
    split
    · rename_i h
      simpa using h
    · rename_i h
      simpa using h
  rw [hjoin]
  simp only [isError, isLeaf, beq_iff_eq, List.isEmpty_iff]
  constructor
  · rintro ⟨⟨⟨herrors, ha⟩, hb⟩, hpadding⟩
    exact ⟨herrors, ⟨ha, hb⟩, hpadding⟩
  · rintro ⟨herrors, ⟨ha, hb⟩, hpadding⟩
    exact ⟨⟨⟨herrors, ha⟩, hb⟩, hpadding⟩

/-- No two children that follow each other abut. -/
def Apart (n : Subtree) : Prop := n.children.IsChain fun a b => ¬a.1.Abuts b.1

/-- What a part begins and ends with, and that a rule which consists of nothing has no bytes.  An error
that an error begins with has no field, so it can still be joined with one before it. -/
structure Framed (t : Table) (n : Subtree) : Prop where
  first : ∀ c ∈ n.children.head?, c.1.symbol = Symbol.error → n.symbol = Symbol.error ∧ c.2 = none
  last : ∀ c ∈ n.children.getLast?, c.1.symbol = Symbol.error → n.symbol = Symbol.error
  empty : t.isTerminal n.symbol = false → n.children = [] → n.total.bytes = 0

end Subtree

open Subtree (Abuts Apart Framed)

namespace Table.Serves

/-- Errors are not in any production, so nothing that leads on is one. -/
theorem ne_error_of_leadsTo (h : t.Serves g items) {s target : StateId} {a : Symbol}
    (hlead : t.LeadsTo s a target) : a ≠ Symbol.error := by
  intro heq
  obtain ⟨-, ⟨p, hmem⟩, -⟩ := h.guided.leads _ _ _ hlead
  rw [heq] at hmem
  exact absurd (h.sound.row hmem).1 (by decide)

theorem ne_error_of_isExtra (h : t.Serves g items) {a : Symbol} (ha : t.isExtra a = true) :
    a ≠ Symbol.error := by
  intro heq
  obtain ⟨info, hinfo, -, -, hnone⟩ := h.sound.builtIn Symbol.error (by decide)
  rw [heq, h.speaks.extra, FlatGrammar.isExtra, hinfo] at ha
  simp [hnone] at ha

end Table.Serves

/-! ## What entries leave in a node -/

namespace Build

variable {parent : Symbol} {entries : List Entry} {fields : List (Option FieldId)}

/-- The last piece of entries is that of the last entry. -/
theorem getLast?_flatMap_pieces (parent : Symbol) (entries : List (Entry × Option FieldId)) :
    (entries.flatMap (pieces t parent)).getLast? =
      entries.getLast?.bind fun entry => (pieces t parent entry).getLast? := by
  induction entries using List.reverseRecOn with
  | nil => rfl
  | append_singleton rest entry =>
    rw [List.flatMap_append, List.flatMap_singleton,
      List.getLast?_append_of_ne_nil _ (pieces_ne_nil parent entry), List.getLast?_concat]
    rfl

theorem children_ne_nil (h : entries ≠ []) : children t parent entries fields ≠ [] := by
  intro hnil
  -- joining errors keeps whether there is a first child
  have hhead := map_head?_children (t := t) (f := fun _ => ()) (fun _ _ _ _ _ => rfl) parent entries
    fields
  obtain ⟨e, rest, rfl⟩ := List.exists_cons_of_ne_nil h
  obtain ⟨entry, entries', hfields⟩ := List.exists_cons_of_ne_nil
    (l := withFields (e :: rest) fields) (fun hnil => by
      have hmap := map_fst_withFields (e :: rest) fields
      rw [hnil] at hmap
      cases hmap)
  obtain ⟨c, pieces', hpieces⟩ := List.exists_cons_of_ne_nil (pieces_ne_nil (t := t) parent entry)
  rw [hnil, head?_flatMap_pieces, hfields, List.head?_cons, Option.bind_some, hpieces] at hhead
  cases hhead

/-- An error that begins what an entry stands for in the node of a rule is the entry itself. -/
theorem eq_of_head?_pieces (h : t.Serves g items) (hp : parent ≠ Symbol.error)
    {entry : Entry × Option FieldId} (hframed : entry.1.node.Framed t)
    {c : Subtree × Option FieldId} (hc : c ∈ (pieces t parent entry).head?)
    (herror : c.1.symbol = Symbol.error) : c.1 = entry.1.node := by
  obtain ⟨-, hpieces⟩ | ⟨hspliced, hpieces⟩ := pieces_cases (t := t) parent entry
  · rw [hpieces] at hc
    cases hc
    rfl
  · rw [hpieces, List.head?_map] at hc
    obtain ⟨d, hd, rfl⟩ := Option.map_eq_some_iff.mp hc
    exact absurd (hframed.first d hd herror).1 (ne_error_of_isSpliced h hp hspliced)

theorem eq_of_getLast?_pieces (h : t.Serves g items) (hp : parent ≠ Symbol.error)
    {entry : Entry × Option FieldId} (hframed : entry.1.node.Framed t)
    {c : Subtree × Option FieldId} (hc : c ∈ (pieces t parent entry).getLast?)
    (herror : c.1.symbol = Symbol.error) : c.1 = entry.1.node := by
  obtain ⟨-, hpieces⟩ | ⟨hspliced, hpieces⟩ := pieces_cases (t := t) parent entry
  · rw [hpieces] at hc
    cases hc
    rfl
  · rw [hpieces, List.getLast?_map] at hc
    obtain ⟨d, hd, rfl⟩ := Option.map_eq_some_iff.mp hc
    exact absurd (hframed.last d hd herror) (ne_error_of_isSpliced h hp hspliced)

/-- What a single entry stands for is apart. -/
theorem apart_pieces {entry : Entry × Option FieldId} (h : entry.1.node.Apart) :
    (pieces t parent entry).IsChain fun a b => ¬a.1.Abuts b.1 := by
  obtain ⟨-, hpieces⟩ | ⟨-, hpieces⟩ := pieces_cases (t := t) parent entry
  · rw [hpieces]
    exact .singleton _
  · rw [hpieces, List.isChain_map]
    exact h

/-- What entries stand for is related in a row if it is within each entry, and from each entry to the
next. -/
theorem isChain_flatMap_pieces {R : Subtree × Option FieldId → Subtree × Option FieldId → Prop}
    {entries : List (Entry × Option FieldId)}
    (hwithin : ∀ entry ∈ entries, (pieces t parent entry).IsChain R)
    (hbetween : entries.IsChain fun x y => ∀ a ∈ (pieces t parent x).getLast?,
      ∀ b ∈ (pieces t parent y).head?, R a b) :
    (entries.flatMap (pieces t parent)).IsChain R := by
  rw [List.flatMap_def, List.isChain_flatten, List.isChain_map]
  · refine ⟨fun l hl => ?_, hbetween⟩
    obtain ⟨entry, hentry, rfl⟩ := List.mem_map.mp hl
    exact hwithin entry hentry
  -- no entry stands for nothing
  · intro hnil
    obtain ⟨entry, -, hentry⟩ := List.mem_map.mp hnil
    exact pieces_ne_nil parent entry hentry

/-- Entries that are apart leave children that are apart in the node of a rule. -/
theorem apart_rule (h : t.Serves g items) (hp : parent ≠ Symbol.error)
    (hframed : ∀ e ∈ entries, e.node.Framed t) (hapart : ∀ e ∈ entries, e.node.Apart)
    (hentries : entries.IsChain fun a b => ¬a.node.Abuts b.node) :
    (children t parent entries fields).IsChain fun a b => ¬a.1.Abuts b.1 := by
  rw [children_of_ne_error hp]
  refine isChain_flatMap_pieces
    (fun entry hentry => apart_pieces (hapart _ (mem_of_mem_withFields hentry))) ?_
  rw [← map_fst_withFields entries fields, List.isChain_map] at hentries
  refine hentries.imp_of_mem_imp fun x y hx hy hxy a ha b hb hab => ?_
  -- errors on both sides would be the entries themselves
  have hx := hframed _ (mem_of_mem_withFields hx)
  have hy := hframed _ (mem_of_mem_withFields hy)
  rw [eq_of_getLast?_pieces h hp hx ha hab.errors.1,
    eq_of_head?_pieces h hp hy hb hab.errors.2] at hab
  exact hxy hab

/-- The first piece of an error has no field if it is an error. -/
theorem field_of_head?_pieces {entry : Entry × Option FieldId} (hframed : entry.1.node.Framed t)
    (hfield : entry.2 = none) {c : Subtree × Option FieldId}
    (hc : c ∈ (pieces t parent entry).head?) (herror : c.1.symbol = Symbol.error) : c.2 = none := by
  obtain ⟨-, hpieces⟩ | ⟨-, hpieces⟩ := pieces_cases (t := t) parent entry
  · rw [hpieces] at hc
    cases hc
    exact hfield
  · rw [hpieces, List.head?_map] at hc
    obtain ⟨⟨n, inner⟩, hd, rfl⟩ := Option.map_eq_some_iff.mp hc
    obtain rfl : inner = none := (hframed.first _ hd herror).2
    exact hfield

/-- A child of an error is joined with the one before it if the two abut, unless it has a field. -/
theorem addChild_error (last : Subtree) (field : Option FieldId) (rest : List (Subtree × Option FieldId))
    (child : Subtree × Option FieldId) :
    (∃ joined, last.joinErrors? child.1 = some joined ∧
        addChild Symbol.error ((last, field) :: rest) child = (joined, field) :: rest) ∨
      ((child.2 = none → ¬last.Abuts child.1) ∧
        addChild Symbol.error ((last, field) :: rest) child = child :: (last, field) :: rest) := by
  -- a child with a field is never joined
  cases hfield : child.2 with
  | some _ => exact .inr ⟨(fun h => by cases h), by simp [addChild, hfield]⟩
  | none =>
    cases hjoined : last.joinErrors? child.1 with
    | some joined => exact .inl ⟨joined, rfl, by simp [addChild, hfield, hjoined]⟩
    | none =>
      refine .inr ⟨fun _ habuts => ?_, by simp [addChild, hfield, hjoined]⟩
      have hsome := Subtree.isSome_joinErrors.mpr habuts
      rw [hjoined] at hsome
      cases hsome

/-- Children are apart once they have been added one by one, if those that abut can be joined. -/
theorem apart_foldl (added : List (Subtree × Option FieldId)) :
    ∀ before : List (Subtree × Option FieldId), before.IsChain (fun b a => ¬a.1.Abuts b.1) →
      (before.head?.toList ++ added).IsChain (fun a b => b.2 = none ∨ ¬a.1.Abuts b.1) →
      (added.foldl (addChild Symbol.error) before).IsChain fun b a => ¬a.1.Abuts b.1 := by
  -- the induction is on what is added, for any children that are there already
  induction added with
  | nil => exact fun _ hbefore _ => hbefore
  | cons child rest ih =>
    intro before hbefore hadded
    rw [List.foldl_cons]
    cases before with
    | nil => exact ih _ (.singleton _) hadded
    | cons last before =>
      obtain ⟨hchild, hrest⟩ := List.isChain_cons_cons.mp hadded
      obtain ⟨joined, hjoined, hadd⟩ | ⟨hapart, hadd⟩ := addChild_error last.1 last.2 before child
      · -- the joined error abuts the same as the two that it was made of
        obtain ⟨herror, hleaf, -, heq⟩ := Subtree.spec_of_joinErrors hjoined
        have habuts := Subtree.isSome_joinErrors.mp (Option.isSome_iff_exists.mpr ⟨joined, hjoined⟩)
        rw [hadd]
        refine ih _ ?_ ?_
        · refine List.isChain_cons.mpr ⟨fun a ha hab => ?_, hbefore.tail⟩
          rw [heq] at hab
          exact (List.isChain_cons.mp hbefore).1 a ha ⟨hab.errors, hab.leaves, hab.padding⟩
        -- as the field of what was joined is gone, it may stand before a child without one
        · refine List.isChain_cons.mpr ⟨fun b hb => ?_, hrest.tail⟩
          refine ((List.isChain_cons.mp hrest).1 b hb).imp_right fun hnot hab => hnot ?_
          exact ⟨⟨habuts.errors.2, hab.errors.2⟩, ⟨habuts.leaves.2, hab.leaves.2⟩, hab.padding⟩
      -- a child with a field is not joined, but it did not abut what is before it either
      · rw [hadd]
        refine ih _ (List.isChain_cons_cons.mpr ⟨?_, hbefore⟩) hrest
        exact fun hab => hchild.elim (fun hnone => hapart hnone hab) fun hnot => hnot hab

/-- Entries leave children that are apart in an error. -/
theorem apart_error (hframed : ∀ e ∈ entries, e.node.Framed t) (hapart : ∀ e ∈ entries, e.node.Apart) :
    (children t Symbol.error entries []).IsChain fun a b => ¬a.1.Abuts b.1 := by
  rw [children, List.isChain_reverse]
  refine apart_foldl _ [] .nil ?_
  refine isChain_flatMap_pieces (fun entry hentry => ?_) ?_
  · exact (apart_pieces (hapart _ (mem_of_mem_withFields hentry))).imp fun _ _ => Or.inr
  · -- an error that begins what an entry stands for has no field, so it is joined if need be
    refine (List.pairwise_of_forall_mem_list fun x hx y hy => fun a _ b hb => ?_).isChain
    by_cases herror : b.1.symbol = Symbol.error
    · exact .inl (field_of_head?_pieces (hframed _ (mem_of_mem_withFields hy))
        (field_of_withFields_nil hy) hb herror)
    · exact .inr fun hab => herror hab.errors.2

end Build

/-! ## The parts that are made -/

/-- What an entry of a production's parts stands for is in the row. -/
theorem Spells.mem_row {entries : List Entry} {row : List Symbol} (h : Spells entries row) {e : Entry}
    (he : e ∈ entries) (hextra : e.node.extra = false) : e.node.symbol ∈ row := by
  rw [← h.symbols, regularSymbols]
  exact List.mem_map_of_mem (List.mem_filter.mpr ⟨he, by simp [hextra]⟩)

namespace Subtree

variable {q : FlatProduction} {entries : List Entry}

/-- A part of a production that is no extra is no error. -/
theorem ne_error_of_spells (h : t.Serves g items) (hq : q ∈ g.productions)
    (hspells : Spells entries q.rhs) {e : Entry} (he : e ∈ entries) (hextra : e.node.extra = false) :
    e.node.symbol ≠ Symbol.error := by
  intro heq
  have hmem := hspells.mem_row he hextra
  rw [heq] at hmem
  exact absurd (h.sound.rhs q hq _ hmem).1 (by decide)

/-- The node of a rule neither begins nor ends with an error. -/
theorem framed_rule (h : t.Serves g items) (hq : q ∈ g.productions) (hspells : Spells entries q.rhs)
    (hframed : ∀ e ∈ entries, e.node.Framed t) (fields : List (Option FieldId)) :
    (∀ c ∈ (Build.children t q.lhs entries fields).head?, c.1.symbol ≠ Symbol.error) ∧
      ∀ c ∈ (Build.children t q.lhs entries fields).getLast?, c.1.symbol ≠ Symbol.error := by
  have hne := (h.lhs_rule hq).2
  -- a production mentions no errors
  have hpart : ∀ entry ∈ Build.withFields entries fields, entry.1.node.extra = false →
      entry.1.node.symbol ≠ Symbol.error := fun entry hentry =>
    ne_error_of_spells h hq hspells (Build.mem_of_mem_withFields hentry)
  have hends : ∀ entry ∈ Build.withFields entries fields, entry.1.node.Framed t := fun entry hentry =>
    hframed _ (Build.mem_of_mem_withFields hentry)
  rw [Build.children_of_ne_error hne, Build.head?_flatMap_pieces, Build.getLast?_flatMap_pieces]
  -- the first and the last entry are no extras
  have hfirst := hspells.first
  have hlast := hspells.last
  rw [← Build.map_fst_withFields entries fields, List.head?_map] at hfirst
  rw [← Build.map_fst_withFields entries fields, List.getLast?_map] at hlast
  constructor
  · intro c hc herror
    obtain ⟨entry, hentry, hc⟩ := Option.bind_eq_some_iff.mp hc
    have hmem := List.mem_of_mem_head? hentry
    refine hpart entry hmem (hfirst _ (Option.mem_map_of_mem _ hentry)) ?_
    rwa [← Build.eq_of_head?_pieces h hne (hends entry hmem) hc herror]
  · intro c hc herror
    obtain ⟨entry, hentry, hc⟩ := Option.bind_eq_some_iff.mp hc
    have hmem := List.mem_of_mem_getLast? hentry
    refine hpart entry hmem (hlast _ (Option.mem_map_of_mem _ hentry)) ?_
    rwa [← Build.eq_of_getLast?_pieces h hne (hends entry hmem) hc herror]

/-- Whatever a parse makes is framed. -/
theorem makes_framed (h : t.Serves g items) : t.Makes g (Framed t) where
  leaf token state extra hterminal _ :=
    ⟨(fun _ hc => by cases hc), (fun _ hc => by cases hc),
      fun hrule => absurd (hterminal.symm.trans hrule) (by decide)⟩
  mark n extra _ hn := ⟨hn.first, hn.last, hn.empty⟩
  -- what is joined is an error, and begins and ends like the first of the two
  join a b joined ha hjoined := by
    obtain ⟨herror, -, -, heq⟩ := spec_of_joinErrors hjoined
    rw [heq]
    refine ⟨ha.first, ha.last, fun hrule => ?_⟩
    change t.isTerminal a.symbol = false at hrule
    rw [herror, h.checked.error_terminal] at hrule
    cases hrule
  -- in an error the children have no fields, and this is all that is asked for
  error around entries fallback state hentries := by
    refine ⟨fun c hc herror => ⟨rfl, ?_⟩, fun _ _ _ => rfl, fun hrule => ?_⟩
    · obtain ⟨entry, hentry, d, hd, heq⟩ := Build.exists_piece_of_head?
        (f := fun c => (c.1.symbol, c.2)) (fun a b joined _ hj => by rw [eq_of_joinErrors hj]) hc
      obtain ⟨hsymbol, hfield⟩ := Prod.mk.inj heq
      have hmem := List.mem_of_mem_head? hentry
      rw [hfield]
      exact Build.field_of_head?_pieces (hentries _ (Build.mem_of_mem_withFields hmem)).self
        (Build.field_of_withFields_nil hmem) hd (hsymbol ▸ herror)
    · exact absurd (h.checked.error_terminal.symm.trans hrule) (by decide)
  rule q around entries fallback state hq hspells hentries := by
    obtain ⟨hfirst, hlast⟩ := framed_rule h hq hspells (fun e he => (hentries e he).self)
      (q.parts.map Prod.snd)
    refine ⟨fun c hc herror => absurd herror (hfirst c hc),
      fun c hc herror => absurd herror (hlast c hc), fun _ hnil => ?_⟩
    -- a rule has no children only if it has no parts
    obtain rfl : entries = [] := by
      by_contra hne
      exact Build.children_ne_nil hne hnil
    simp [buildNode, total]

/-- Joining leaves what is inside as it is. -/
theorem Every.joinErrors_apart {a b joined : Subtree} (ha : a.Every Apart)
    (h : a.joinErrors? b = some joined) : joined.Every Apart := by
  rw [eq_of_joinErrors h]
  exact ⟨ha.self, ha.child⟩

end Subtree

/-! ## The stack -/

/-- What can stand right above an entry: two errors that abut do not follow each other, and a rule that
consists of nothing stands above no extra. -/
structure Entry.Clears (t : Table) (above below : Entry) : Prop where
  apart : ¬below.node.Abuts above.node
  empty : above.node.extra = false → t.isTerminal above.node.symbol = false →
    above.node.children = [] → below.node.extra = false

/-- What is no error and not empty can stand above any entry. -/
theorem Entry.clears_of_ne {above below : Entry} (hsymbol : above.node.symbol ≠ Symbol.error)
    (hempty : above.node.extra = true ∨ t.isTerminal above.node.symbol = true ∨
      above.node.children ≠ []) : above.Clears t below where
  apart h := hsymbol h.errors.2
  empty hextra hrule hnil := by
    obtain h | h | h := hempty
    · cases hextra.symm.trans h
    · cases hrule.symm.trans h
    · exact absurd hnil h

theorem Stack.Linked.ne_error (h : t.Serves g items) {s : Stack} (hs : s.Linked t) :
    ∀ e ∈ s, e.node.extra = false → e.node.symbol ≠ Symbol.error := by
  induction hs with
  | nil => exact fun _ he => by cases he
  | regular _ _ hlead ih =>
    exact List.forall_mem_cons.mpr ⟨fun _ => h.ne_error_of_leadsTo hlead, ih⟩
  | extra _ hextra _ ih =>
    exact List.forall_mem_cons.mpr ⟨fun he => (by cases he.symm.trans hextra), ih⟩

namespace Config

variable {c c' : Config}

/-- Errors are apart throughout of everything that a parse holds, and on its stack. -/
structure Parted (t : Table) (c : Config) : Prop where
  every : c.Every Apart
  stack : c.stack.IsChain (Entry.Clears t)

/-- Entries leave parts that are apart throughout, if the node made of them is. -/
theorem every_apart_buildNode {around : Surroundings} {symbol : Symbol} {entries : List Entry}
    {fields : List (Option FieldId)} {fallback : Length} {state : StateId}
    (hentries : ∀ e ∈ entries, e.node.Every Apart)
    (hself : (Build.children t symbol entries fields).IsChain fun a b => ¬a.1.Abuts b.1) :
    (buildNode t around symbol entries fields fallback state).1.Every Apart :=
  ⟨hself, Build.forall_children (P := Subtree.Every Apart)
    (fun _ _ _ ha hjoined => ha.joinErrors_apart hjoined)
    fun e he => ⟨hentries e he, (hentries e he).child⟩⟩

theorem every_apart_errorNode {token : Subtree} {entries : List Entry} {state : StateId}
    (hframed : ∀ e ∈ entries, e.node.Every (Framed t)) (hapart : ∀ e ∈ entries, e.node.Every Apart) :
    (c.errorNode t token entries state).1.Every Apart :=
  every_apart_buildNode hapart
    (Build.apart_error (fun e he => (hframed e he).self) fun e he => (hapart e he).self)

/-- A part that is apart throughout is put on the stack. -/
theorem parted_push (hc : c.Parted t) {n : Subtree} (hn : n.Every Apart) {state : StateId}
    {position : Length} (hclears : ∀ below ∈ c.stack.head?, Entry.Clears t ⟨state, n, position⟩ below)
    (hstack : c'.stack = ⟨state, n, position⟩ :: c.stack) (hwalker : c'.walker = c.walker)
    (hlookahead : c'.lookahead = none) : c'.Parted t where
  every := every_push hc.every hn hstack hwalker hlookahead
  stack := by
    rw [hstack]
    exact List.isChain_cons.mpr ⟨hclears, hc.stack⟩

/-- The node of a production goes where its parts were, with the extras after them above it. -/
theorem parted_reduce (h : t.Serves g items) (hlinked : c.stack.Linked t)
    (hframed : c.Every (Framed t)) (hc : c.Parted t) {token : Subtree} (htoken : Reads Apart token)
    {p : ProductionId} {production : Production}
    (ha : t.action? c.state token.symbol = some (.reduce p))
    (hp : t.production? p = some production) : (c.reduce t token production).Parted t := by
  obtain ⟨⟨q, hq, hlhs, hsupplies⟩, -⟩ :=
    Stack.supplies_of_reduce h.speaks h.guided hlinked ha hp
  obtain ⟨hrule, hne⟩ := h.lhs_rule (Array.mem_of_getElem? hq)
  rw [hlhs] at hne
  have hparts := hsupplies.parts
  generalize hpop : c.stack.popChildren production.size = popped at hparts
  obtain ⟨parts, trailing, rest⟩ := popped
  obtain ⟨hsplit, hparted⟩ := Stack.parted_of_popChildren hpop (by
    rw [← hsupplies.size, ← hparts, regularSymbols, List.length_map])
  -- the stack in the order in which it is taken apart
  have hstack := hc.stack
  rw [hsplit] at hstack
  obtain ⟨htrailing, hlower, -⟩ := List.isChain_append.mp hstack
  obtain ⟨hchain, hrest, -⟩ := List.isChain_append.mp hlower
  have hmem : ∀ e ∈ parts, e ∈ c.stack := fun e he =>
    (Stack.mem_of_popChildren hpop).mpr (.inr (.inl he))
  -- as no two entries abut, neither do the children that they turn into
  have hapart : (Build.children t production.lhs parts production.fields).IsChain
      fun a b => ¬a.1.Abuts b.1 :=
    Build.apart_rule h hne (fun e he => (hframed.stack e (hmem e he)).self)
      (fun e he => (hc.every.stack e (hmem e he)).self)
      ((List.isChain_reverse.mp hchain).imp fun _ _ hclears => hclears.apart)
  refine ⟨⟨fun e he => ?_, fun token' h => by cases h; exact htoken, hc.every.walker⟩, ?_⟩
  · obtain ⟨e', he', hsame⟩ | hbuilt := mem_stack_reduce hpop he
    · exact hsame ▸ hc.every.stack e' he'
    · rw [hbuilt]
      exact every_apart_buildNode (fun e he => hc.every.stack e (hmem e he)) hapart
  · unfold reduce
    rw [hpop]
    refine List.isChain_append.mpr ⟨?_, List.isChain_cons.mpr ⟨fun below hbelow => ?_, hrest⟩, ?_⟩
    · rw [← List.map_reverse, List.isChain_map]
      exact htrailing.imp fun _ _ hclears => ⟨hclears.apart, hclears.empty⟩
    -- below a node without parts are no extras, since these stay above it
    · refine ⟨fun hab => hne hab.errors.2, fun _ _ hnil => ?_⟩
      obtain rfl : parts = [] := by
        by_contra hne
        exact Build.children_ne_nil hne hnil
      exact hparted.last below hbelow
    -- the extras above the node are pushed again, and none of them abuts a rule
    · intro above habove below hbuilt
      cases hbuilt
      obtain ⟨e, he, rfl⟩ := List.mem_map.mp (List.mem_reverse.mp (List.mem_of_mem_getLast? habove))
      refine ⟨fun hab => hne hab.errors.1, fun hregular => ?_⟩
      cases (hparted.trailing e he).symm.trans hregular

/-- A cut is made below the top of the stack. -/
theorem cutLimit_le (c : Config) : c.cutLimit ≤ c.stack.length := by
  unfold cutLimit
  split
  · split
    · exact Nat.min_le_left _ _
    · exact Nat.le_refl _
  · exact Nat.le_refl _

/-- A cut leaves one error, which is not empty, above what is kept. -/
theorem parted_cut (hframed : c.Every (Framed t)) (hc : c.Parted t) {token : Subtree}
    (htoken : Reads Apart token) {depth : Nat} (hd : depth < c.cutLimit) :
    ((c.cut t token depth).renew t).Parted t := by
  have hmem : ∀ e ∈ c.stack.above depth, e ∈ c.stack := fun e he =>
    List.mem_of_mem_take (List.mem_reverse.mp he)
  -- something is cut off, so the error has children and abuts nothing
  have hne : c.stack.above depth ≠ [] := by
    have := cutLimit_le c
    intro hnil
    have hlength := congrArg List.length hnil
    simp only [Stack.above, List.length_reverse, List.length_take, List.length_nil] at hlength
    omega
  refine ⟨⟨fun e he => ?_, fun token' h => by cases h; exact htoken, hc.every.walker⟩, ?_⟩
  · obtain rfl | he := List.mem_cons.mp he
    · have herror : (c.errorNode t token (c.stack.above depth)
          (c.stack.keep depth).state).1.Every Apart :=
        every_apart_errorNode (fun e he => hframed.stack e (hmem e he))
          fun e he => hc.every.stack e (hmem e he)
      exact herror.withExtra herror.self
    · exact hc.every.stack e (List.mem_of_mem_drop he)
  · refine List.isChain_cons.mpr ⟨fun below _ => ⟨fun hab => ?_, fun hextra => by cases hextra⟩,
      hc.stack.drop _⟩
    exact Build.children_ne_nil hne hab.leaves.2

/-- The error that takes a token up does not abut what is below it. -/
theorem parted_skip (h : t.Serves g items) (hlinked : c.stack.Linked t)
    (hframed : c.Every (Framed t)) (hc : c.Parted t) {token : Subtree}
    (htoken : token.Every (Framed t)) (hapart : token.Every Apart) :
    ((c.skip t token).renew t).Parted t := by
  -- of what is skipped, only a token alone has no children and could abut what is below
  have habsorbed : (c.absorb t token).1.Every Apart ∧
      (∀ below ∈ (c.absorb t token).2.2.head?, ¬below.node.Abuts (c.absorb t token).1) ∧
      (c.absorb t token).2.2 <:+ c.stack := by
    have habsorbs := absorbs t c token
    generalize c.absorb t token = absorbed at habsorbs ⊢
    cases habsorbs with
    | bare _ htop =>
      refine ⟨hapart, fun below hbelow hab => ?_, List.suffix_rfl⟩
      -- an entry that is no extra is not an error, as it was shifted or reduced to
      cases hextra : below.node.extra with
      | true => exact htop below hbelow hextra hab.errors.1
      | false => exact hlinked.ne_error h below (List.mem_of_mem_head? hbelow) hextra hab.errors.1
    | alone =>
      refine ⟨every_apart_errorNode (List.forall_mem_singleton.mpr htoken)
        (List.forall_mem_singleton.mpr hapart), fun below _ hab => ?_, List.suffix_rfl⟩
      exact Build.children_ne_nil (List.cons_ne_nil _ _) hab.leaves.2
    | @joined top rest joined hstack _ _ hjoined =>
      -- the joined error begins where the one before it did
      have hchain := hc.stack
      rw [hstack] at hchain
      refine ⟨(hc.every.stack top (by simp [hstack])).joinErrors_apart hjoined,
        fun below hbelow hab => ?_, hstack ▸ List.suffix_cons top rest⟩
      obtain ⟨herror, hleaf, -, heq⟩ := Subtree.spec_of_joinErrors hjoined
      rw [heq] at hab
      exact ((List.isChain_cons.mp hchain).1 below hbelow).apart ⟨hab.errors, hab.leaves, hab.padding⟩
    | @both top rest hstack =>
      have htop : top ∈ c.stack := by simp [hstack]
      refine ⟨every_apart_errorNode
        (List.forall_mem_cons.mpr ⟨hframed.stack top htop, List.forall_mem_singleton.mpr htoken⟩)
        (List.forall_mem_cons.mpr ⟨hc.every.stack top htop, List.forall_mem_singleton.mpr hapart⟩),
        fun below _ hab => ?_, hstack ▸ List.suffix_cons top rest⟩
      exact Build.children_ne_nil (List.cons_ne_nil _ _) hab.leaves.2
  obtain ⟨hself, hbelow, hsuffix⟩ := habsorbed
  refine ⟨⟨fun e he => ?_, (fun _ h => by cases h), hc.every.walker⟩, ?_⟩
  · obtain rfl | he := List.mem_cons.mp he
    · exact hself.withExtra hself.self
    · exact hc.every.stack e (hsuffix.subset he)
  · exact List.isChain_cons.mpr ⟨fun below hmem =>
      ⟨fun hab => hbelow below hmem ⟨hab.errors, hab.leaves, hab.padding⟩,
        fun hextra => by cases hextra⟩, hc.stack.suffix hsuffix⟩

/-- What is done about a token keeps errors apart. -/
theorem parted_of_continues (h : t.Serves g items) (hlinked : c.stack.Linked t)
    (hframed : c.Every (Framed t)) (hc : c.Parted t) {token : Subtree}
    (htoken : Reads (Framed t) token) (hapart : Reads Apart token)
    (hgoes : Continues t c token c') : c'.Parted t := by
  cases hgoes with
  | @shift target ha =>
    -- the end is never shifted, and what is shifted is a token of a production
    have hf : token.symbol ≠ Symbol.finish := fun hf =>
      h.guided.shift_ne h.sound c.state target (hf ▸ ha)
    have hn := hapart.resolve_left hf
    have hpushed : (token.withExtra false).Every Apart := hn.withExtra hn.self
    refine parted_push hc hpushed (fun _ _ => ?_) rfl rfl rfl
    exact Entry.clears_of_ne (h.ne_error_of_leadsTo (.inl ha))
      (.inr (.inl (h.checked.action_terminal _ _ _ ha)))
  | reduce ha hp => exact parted_reduce h hlinked hframed hc hapart ha hp
  | extra _ hf hextra =>
    have hn := hapart.resolve_left hf
    have hpushed : (token.withExtra true).Every Apart := hn.withExtra hn.self
    refine parted_push hc hpushed (fun _ _ => ?_) rfl rfl rfl
    exact Entry.clears_of_ne (h.ne_error_of_isExtra hextra) (.inl rfl)
  | cut hd => exact parted_cut hframed hc hapart hd
  | skip hf =>
    exact parted_skip h hlinked hframed hc (htoken.resolve_left hf) (hapart.resolve_left hf)

/-- A token has nothing in it that could abut. -/
theorem parted_of_readies (ht : t.Checked) {token : Subtree} (hc : c.Parted t)
    (h : Readies t text c token c') : c'.Parted t ∧ Reads Apart token := by
  obtain ⟨hevery, htoken⟩ := every_of_readies ht (fun _ _ _ _ _ => List.IsChain.nil) hc.every h
  exact ⟨⟨hevery, (readies_frame h).1 ▸ hc.stack⟩, htoken⟩

/-- A step keeps errors apart. -/
theorem parted_of_moves (h : t.Serves g items) (hlinked : c.stack.Linked t)
    (hframed : c.Every (Framed t)) (hc : c.Parted t) (hmoves : Moves t text c c') :
    c'.Parted t := by
  obtain ⟨token, ready, hready, hgoes⟩ | ⟨n, ready, hready, hl, hn, rfl⟩ := moves_cases hmoves
  · obtain ⟨hc', hapart⟩ := parted_of_readies h.checked hc hready
    obtain ⟨hframed', htoken⟩ :=
      every_of_readies h.checked (Subtree.makes_framed h).leaf hframed hready
    rw [← (readies_frame hready).1] at hlinked
    exact parted_of_continues h hlinked hframed' hc' htoken hapart hgoes
  · obtain ⟨hc', hapart⟩ := parted_of_readies h.checked hc hready
    obtain ⟨-, htoken⟩ := every_of_readies h.checked (Subtree.makes_framed h).leaf hframed hready
    have hf : n.symbol ≠ Symbol.finish := fun hf => by
      rw [hf, h.checked.finish_terminal] at hn
      cases hn
    -- a part that is taken over leads somewhere and has bytes, so it is neither an error nor empty
    obtain ⟨walker, hnext, -⟩ := takeOver_reused h.checked hready hl hn
    obtain ⟨-, target, htarget⟩ := Subtree.goto_of_isReusable (Walker.reusable_next hnext) hn
    have hbytes := ((Walker.next_spec hnext).2 n rfl).2
    refine parted_push hc' (hapart.resolve_left hf) (fun _ _ => ?_) rfl rfl rfl
    exact Entry.clears_of_ne (h.ne_error_of_leadsTo (.inr htarget))
      (.inr (.inr fun hnil => hbytes ((htoken.resolve_left hf).self.empty hn hnil)))

/-! ## The root -/

/-- Entries that stand for a single symbol are one entry for it, among extras. -/
theorem exists_of_regularSymbols {s : Stack} {a : Symbol} (h : regularSymbols s = [a]) :
    ∃ above e below, s = above ++ e :: below ∧ e.node.extra = false ∧ e.node.symbol = a ∧
      (∀ e' ∈ above, e'.node.extra = true) ∧ ∀ e' ∈ below, e'.node.extra = true := by
  obtain ⟨e, hfilter, hsymbol⟩ := List.map_eq_singleton_iff.mp h
  obtain ⟨above, below, rfl, habove, he, hbelow⟩ := List.filter_eq_cons_iff.mp hfilter
  rw [List.filter_eq_nil_iff] at hbelow
  exact ⟨above, e, below, rfl, by simpa using he, hsymbol, fun e' he' => by simpa using habove e' he',
    fun e' he' => by simpa using hbelow e' he'⟩

/-- The root of a stack that is accepted is apart: in the start symbol nothing begins or ends with an
error, and if it is empty there is nothing before it. -/
theorem apart_acceptedRoot (h : t.Serves g items) (hframed : c.Every (Framed t)) (hc : c.Parted t)
    (hregular : regularSymbols c.stack = [t.start]) (token : Subtree) :
    (c.acceptedRoot t text token).Apart := by
  obtain ⟨above, e, below, hsplit, hextra, hsymbol, habove, hbelow⟩ := exists_of_regularSymbols hregular
  have he : e ∈ c.stack := by simp [hsplit]
  have hstack := hc.stack
  rw [hsplit] at hstack
  obtain ⟨hupper, hlower, -⟩ := List.isChain_append.mp hstack
  obtain ⟨hempty, hlower⟩ := List.isChain_cons.mp hlower
  -- extras are children of the root themselves
  have hextras : ∀ entries : List Entry, (∀ e ∈ entries, e.node.extra = true) →
      (entries.flatMap fun e => if !e.node.extra && e.node.symbol == t.start then e.node.children
        else [(e.node, none)]) = entries.map fun e => (e.node, (none : Option FieldId)) := by
    intro entries hentries
    rw [List.map_eq_flatMap]
    refine List.flatMap_congr fun e he => ?_
    simp [hentries e he]
  have hchildren : (c.acceptedRoot t text token).children =
      below.reverse.map (fun e => (e.node, none)) ++ (e.node.children ++
        above.reverse.map fun e => (e.node, none)) := by
    change (c.stack.reverse.flatMap _) = _
    rw [hsplit, List.reverse_append, List.reverse_cons, List.append_assoc, List.flatMap_append,
      List.singleton_append, List.flatMap_cons, hextras _ fun e he => hbelow e (List.mem_reverse.mp he),
      hextras _ fun e he => habove e (List.mem_reverse.mp he)]
    simp [hextra, hsymbol]
  -- the entries are kept with the last one first
  have hrow : ∀ entries : List Entry, entries.IsChain (Entry.Clears t) →
      (entries.reverse.map fun e => (e.node, (none : Option FieldId))).IsChain
        fun a b => ¬a.1.Abuts b.1 := fun entries hentries => by
    rw [List.isChain_map, List.isChain_reverse]
    exact hentries.imp fun _ _ hclears => hclears.apart
  have hself := (hframed.stack e he).self
  -- the children of the start symbol begin and end with something that is no error
  have hfirst : ∀ d ∈ e.node.children.head?, d.1.symbol ≠ Symbol.error := fun d hd herror =>
    h.start_ne_error (hsymbol ▸ (hself.first d hd herror).1)
  have hlast : ∀ d ∈ e.node.children.getLast?, d.1.symbol ≠ Symbol.error := fun d hd herror =>
    h.start_ne_error (hsymbol ▸ hself.last d hd herror)
  rw [Apart, hchildren]
  by_cases hnil : e.node.children = []
  · -- an extra below an empty start symbol would have been left above it
    obtain rfl : below = [] := by
      cases below with
      | nil => rfl
      | cons b rest =>
        have hregular := (hempty b rfl).empty hextra (hsymbol ▸ h.checked.start_rule) hnil
        cases hregular.symm.trans (hbelow b (List.mem_cons_self ..))
    rw [hnil]
    exact hrow above hupper
  · refine List.isChain_append.mpr ⟨hrow below hlower, List.isChain_append.mpr
      ⟨(hc.every.stack e he).self, hrow above hupper, ?_⟩, ?_⟩
    · exact fun a ha b _ hab => hlast a ha hab.errors.1
    · intro a _ b hb hab
      rw [List.head?_append_of_ne_nil _ hnil] at hb
      exact hfirst b hb hab.errors.2

/-- Everything in the root of a parse is apart, and so is the root. -/
theorem apart_of_done (h : t.Serves g items) (hlinked : c.stack.Linked t)
    (hframed : c.Every (Framed t)) (hc : c.Parted t) {root : Subtree} {events : List Event}
    (hdone : c.step t text = .done root events) :
    root.Apart ∧ ∀ d ∈ root.children, d.1.Every Apart := by
  obtain ⟨token, ready, hready, hstops⟩ := done_cases hdone
  obtain ⟨hc', -⟩ := parted_of_readies h.checked hc hready
  obtain ⟨hframed', -⟩ := every_of_readies h.checked (Subtree.makes_framed h).leaf hframed hready
  rw [← (readies_frame hready).1] at hlinked
  cases hstops with
  | accept ha =>
    have hregular := Stack.regular_of_accept h.guided hlinked ha
    rw [← h.speaks.start] at hregular
    refine ⟨apart_acceptedRoot h hframed' hc' hregular token, fun d hd => ?_⟩
    obtain ⟨e, he, hsame | ⟨field, hd⟩⟩ := mem_acceptedRoot hd
    · exact hsame ▸ hc'.every.stack e he
    · exact (hc'.every.stack e he).child (d.1, field) hd
  -- a root with one child has nothing that could abut
  | wrap =>
    refine ⟨.singleton _, fun d hd => ?_⟩
    rw [List.mem_singleton.mp hd]
    exact every_apart_errorNode (fun e he => hframed'.stack e (List.mem_reverse.mp he))
      fun e he => hc'.every.stack e (List.mem_reverse.mp he)

end Config

/-! ## Trees -/

/-- Below no node of the tree is an error without children directly followed by another one with no
padding. -/
def Parsed.Collapsed (p : Parsed) : Prop :=
  ∀ n, p.tree.Has n → n.stored.IsChain fun a b => ¬a.subtree.Abuts b.subtree

namespace Language

variable {l : Language}

/-- A parse that starts with parts that are apart gives a tree in which everything is. -/
theorem apart_of_parse (h : l.table.Serves g items) {text : String} {old : Option Tree} {p : Parsed}
    (hold : ∀ tree, old = some tree → l.Grown tree ∧ ∀ c ∈ tree.root.children, c.1.Retains Apart)
    (hp : l.parse text old = some p) :
    p.tree.root.Apart ∧ ∀ c ∈ p.tree.root.children, c.1.Every Apart := by
  have hm := Subtree.makes_framed h
  -- at the start there is nothing but the old tree
  have hstart : (Config.start l.table (l.usable? old)).Parted l.table := by
    refine ⟨Config.every_start fun root hroot => ?_, .nil⟩
    obtain ⟨tree, htree, rfl⟩ := exists_of_usable? hroot
    exact (hold tree htree).2
  obtain ⟨c, events, hlinked, hframed, hc, hdone, -⟩ :=
    exists_done h hm (fun tree htree => retains_of_grown h hm (hold tree htree).1) hstart
      (fun _ _ hlinked hframed hc => Config.parted_of_moves h hlinked hframed hc) hp
  exact Config.apart_of_done h hlinked hframed hc hdone

/-- Runs of characters that are no token collapse: with the table of a grammar every text has a parse,
whether it starts from nothing or from a tree of the language that was edited in whatever way, and in its
tree no two errors abut. -/
theorem parse_collapses {grammar : Grammar} (h : grammar.table = .ok l.table) (text : String)
    (old : Option Tree) (hold : ∀ tree, old = some tree → l.Grown tree) :
    ∃ p, l.parse text old = some p ∧ p.Collapsed := by
  obtain ⟨g, items, -, hserves⟩ := Grammar.serves_table h
  obtain ⟨p, hp⟩ := hserves.exists_parse text old
  obtain ⟨hroot, hchildren⟩ := apart_of_parse hserves (fun tree htree => ⟨hold tree htree,
    retains_of_parses (fun _ _ _ hold hp => (apart_of_parse hserves hold hp).2) (hold tree htree)⟩) hp
  refine ⟨p, hp, fun n hn => ?_⟩
  -- the node is the root, or stands below it
  have hapart : n.subtree.Apart := by
    obtain hsame | hn := Tree.forall_has (P := Subtree.Every Apart) (fun _ => Subtree.Every.child)
      hchildren hn
    · exact hsame ▸ hroot
    · exact hn.self
  have hchain := (List.isChain_map (R := fun a b => ¬Abuts a b) Prod.fst).mpr hapart
  rw [← n.map_stored.1] at hchain
  exact (List.isChain_map Node.subtree).mp hchain

end Language

/-- Two letters that are no token, of which the second is then replaced by another. -/
theorem oneToken_collapses : ∃ p q,
    Language.parse ⟨0, OneToken.table⟩ "bb a" none = some p ∧
    Language.parse ⟨0, OneToken.table⟩ "bc a"
      (some (p.tree.edit (.splice "bb a".toUTF8 1 2 "c".toUTF8))) = some q ∧
    p.Collapsed ∧ q.Collapsed := by
  obtain ⟨p, hp, hcollapsed⟩ := Language.parse_collapses (l := ⟨0, OneToken.table⟩)
    OneToken.table_grammar "bb a" none (fun _ h => by cases h)
  obtain ⟨q, hq, hcollapsed'⟩ := Language.parse_collapses (l := ⟨0, OneToken.table⟩)
    OneToken.table_grammar "bc a" (some (p.tree.edit (.splice "bb a".toUTF8 1 2 "c".toUTF8)))
    (fun tree htree => by
      cases htree
      -- the second parse is offered the first tree, edited
      exact .edited _ (.parsed (fun _ h => by cases h) hp))
  exact ⟨p, q, hp, hq, hcollapsed, hcollapsed'⟩

end IncrementalParsing
