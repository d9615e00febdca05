import IncrementalParsing.Proofs.Parse.Damage
import IncrementalParsing.Proofs.Parse.Likeness

/-!
# Where the parts of a node stand

What is built of entries of the stack holds them where they stood: the children of a node, placed one
after the other from where the node stands, are the nodes of its entries at their positions, or what
those consist of where they are hidden.  So nothing that is stored in a tree has moved since it was put
on the stack, and an extra that was put there stays.

## Key results

- `placed_buildNode`, `placed_acceptedRoot`: what is stored in a node, and in the root
- `opens_buildNode`: a node that begins with a token was begun with it
- `Tree.holds_iff`: the nodes of a tree are what is stored in the root
-/

namespace IncrementalParsing

open Subtree (placeAll)

/-! ## Children one after the other -/

namespace Subtree

/-- What children cover together. -/
def totalAll : List (Subtree × Option FieldId) → Length
  | [] => .zero
  | (n, _) :: rest => n.total + totalAll rest

theorem totalAll_append (a b : List (Subtree × Option FieldId)) :
    totalAll (a ++ b) = totalAll a + totalAll b := by
  induction a with
  | nil => exact (Length.zero_add _).symm
  | cons c rest ih => rw [List.cons_append, totalAll, totalAll, ih, Length.add_assoc]

theorem placeAll_append (position : Length) (a b : List (Subtree × Option FieldId)) :
    placeAll position (a ++ b) = placeAll position a ++ placeAll (position + totalAll a) b := by
  induction a generalizing position with
  | nil => rw [totalAll, Length.add_zero]; rfl
  | cons c rest ih =>
    rw [List.cons_append, placeAll, placeAll, ih, totalAll, Length.add_assoc, List.cons_append]

/-- The fields of children do not matter for where they stand. -/
theorem placeAll_map (f : Option FieldId → Option FieldId) (position : Length)
    (children : List (Subtree × Option FieldId)) :
    placeAll position (children.map fun c => (c.1, f c.2)) = placeAll position children ∧
      totalAll (children.map fun c => (c.1, f c.2)) = totalAll children := by
  induction children generalizing position with
  | nil => exact ⟨rfl, rfl⟩
  | cons c rest ih =>
    obtain ⟨hplace, htotal⟩ := ih (position + c.1.total)
    rw [List.map_cons, placeAll, placeAll, totalAll, totalAll, hplace, htotal]
    exact ⟨rfl, rfl⟩

/-- The children of a part as they are listed for nodes. -/
theorem placeAll_eq_map_listFrom (position : Length) (index : Nat)
    (children : List (Subtree × Option FieldId)) :
    placeAll position children =
      (Place.listFrom position index children).map fun p => (p.position, p.subtree) := by
  induction children generalizing position index with
  | nil => rfl
  | cons c rest ih => rw [placeAll, Place.listFrom, List.map_cons, ih]

/-- What is stored in a part at its place, however deep, the part itself included. -/
abbrev Stored : Length × Subtree → Length × Subtree → Prop :=
  Relation.ReflTransGen fun p q => q ∈ p.2.placed p.1

/-- Nothing is stored in a token. -/
theorem Stored.eq_of_leaf {p q : Length × Subtree} (h : Stored p q) (hleaf : p.2.children = []) :
    q = p := by
  obtain rfl | ⟨r, hr, -⟩ := h.cases_head
  · rfl
  · rw [placed, hleaf] at hr
    cases hr

/-! ## Parts that begin with a token -/

mutual

/-- Whether a part begins with a token that is no extra. -/
def opens : Subtree → Bool
  | ⟨_, _, _, children, _, firstMode, _, _, extra, _, _⟩ => !extra && firstOpens firstMode children

/-- Whether the first of some children begins with such a token; without children, whether there is a
token at all. -/
def firstOpens (mode : Option LexMode) : List (Subtree × Option FieldId) → Bool
  | [] => mode.isSome
  | (n, _) :: _ => n.opens

end

theorem opens_iff {n : Subtree} :
    n.opens = true ↔ n.extra = false ∧ firstOpens n.firstMode n.children = true := by
  cases n
  simp [opens]

theorem firstOpens_cons {mode : Option LexMode} {c : Subtree × Option FieldId}
    {rest : List (Subtree × Option FieldId)} : firstOpens mode (c :: rest) = c.1.opens := by
  rw [firstOpens]

/-- What is known of a node on the stack of a parse without errors: it covers what it consists of, it
has a lex mode if it begins with a token, and an extra is a token. -/
structure WellBuilt (t : Table) (n : Subtree) : Prop where
  covers : n.children ≠ [] ∨ t.isTerminal n.symbol = false → totalAll n.children = n.total
  begins : n.opens = true → ∃ mode, n.firstMode = some mode
  token : n.extra = true → n.children = []

theorem wellBuilt_leaf {t : Table} {token : Token} (h : t.isTerminal token.symbol = true)
    (state : StateId) (extra mark : Bool) : WellBuilt t ((leaf token state extra).withExtra mark) := by
  refine ⟨fun hrule => ?_, fun _ => ⟨_, rfl⟩, fun _ => rfl⟩
  obtain hne | hrule := hrule
  · exact absurd rfl hne
  · exact absurd (h.symm.trans hrule) (by decide)

end Subtree

open Subtree (Stored WellBuilt totalAll totalAll_append placeAll_append opens_iff firstOpens_cons)

/-! ## What entries leave -/

namespace Entry

/-- An entry as a part at its place. -/
abbrev part (e : Entry) : Length × Subtree := (e.position, e.node)

/-- What an entry leaves in what is built of it: its node, or what that consists of. -/
def left (spliced : Bool) (e : Entry) : List (Length × Subtree) :=
  if spliced then e.node.placed e.position else [e.part]

variable {e : Entry} {spliced : Bool} {x : Length × Subtree}

/-- What an entry leaves was stored in it. -/
theorem stored_of_left {q : Length × Subtree} (hq : q ∈ e.left spliced) (h : Stored q x) :
    Stored e.part x := by
  rw [left] at hq
  split at hq
  · exact .head hq h
  · rwa [← List.mem_singleton.mp hq]

/-- Extras are left. -/
theorem exists_left_of_stored (hspliced : spliced = true → e.node.extra = false) (h : Stored e.part x)
    (hx : x.2.extra = true) : ∃ q ∈ e.left spliced, Stored q x := by
  rw [left]
  split
  · rename_i htrue
    obtain rfl | ⟨q, hq, hrest⟩ := h.cases_head
    · exact absurd (hx.symm.trans (hspliced htrue)) (by decide)
    · exact ⟨q, hq, hrest⟩
  · exact ⟨e.part, List.mem_singleton_self _, h⟩

end Entry

/-- Entries that follow each other leave their children where they stand. -/
theorem placeAll_flatMap {α : Type} (entry : α → Entry) (f : α → List (Subtree × Option FieldId))
    {xs : List α} {i k : Length} (hrow : Consecutive i k (xs.map entry))
    (htotal : ∀ x ∈ xs, totalAll (f x) = (entry x).node.total) :
    placeAll i (xs.flatMap f) = xs.flatMap (fun x => placeAll (entry x).position (f x)) ∧
      totalAll (xs.flatMap f) = totals (xs.map entry) := by
  induction xs generalizing i with
  | nil => exact ⟨rfl, rfl⟩
  | cons x rest ih =>
    obtain ⟨hx, hrest⟩ := List.forall_mem_cons.mp htotal
    obtain ⟨hposition, hrow⟩ := hrow
    -- the row goes on where this entry has ended
    obtain ⟨hplace, htotals⟩ := ih hrow hrest
    rw [List.flatMap_cons, List.flatMap_cons, placeAll_append, totalAll_append, hx, List.map_cons,
      totals, htotals, ← hposition]
    exact ⟨congrArg _ hplace, rfl⟩

namespace Build

variable {t : Table} {parent : Symbol}

theorem extra_of_isSpliced (hp : parent ≠ Symbol.error) {n : Subtree}
    (h : isSpliced t parent n = true) : n.children ≠ [] ∧ n.extra = false := by
  simp only [isSpliced, Subtree.isLeaf, beq_eq_false_iff_ne.mpr hp, Bool.false_and, Bool.or_false,
    Bool.and_eq_true, Bool.not_eq_true', List.isEmpty_eq_false_iff] at h
  exact ⟨h.1, h.2.1⟩

/-- The children that an entry stands for stand where it does. -/
theorem placeAll_pieces (hp : parent ≠ Symbol.error) (entry : Entry × Option FieldId)
    (h : WellBuilt t entry.1.node) :
    placeAll entry.1.position (pieces t parent entry) =
        entry.1.left (isSpliced t parent entry.1.node) ∧
      totalAll (pieces t parent entry) = entry.1.node.total := by
  obtain ⟨e, field⟩ := entry
  dsimp only at h ⊢
  rw [pieces, Entry.left]
  dsimp only
  split
  -- a spliced entry's children cover what the entry does
  · rename_i hspliced
    obtain ⟨hplace, htotal⟩ := Subtree.placeAll_map (·.or field) e.position e.node.children
    exact ⟨hplace, htotal.trans (h.covers (.inl (extra_of_isSpliced hp hspliced).1))⟩
  · exact ⟨rfl, Length.add_zero _⟩

/-- The children of a node stand where its entries stood. -/
theorem placeAll_children (hp : parent ≠ Symbol.error) {entries : List Entry}
    (fields : List (Option FieldId)) {i k : Length} (hrow : Consecutive i k entries)
    (h : ∀ e ∈ entries, WellBuilt t e.node) :
    placeAll i (children t parent entries fields) =
        entries.flatMap (fun e => e.left (isSpliced t parent e.node)) ∧
      totalAll (children t parent entries fields) = totals entries := by
  have hentries := map_fst_withFields entries fields
  -- pairing the entries with fields keeps the entries
  have hbuilt : ∀ x ∈ withFields entries fields, WellBuilt t x.1.node := fun x hx =>
    h x.1 (hentries ▸ List.mem_map_of_mem hx)
  obtain ⟨hplace, htotal⟩ := placeAll_flatMap Prod.fst (pieces t parent) (hentries.symm ▸ hrow)
    fun x hx => (placeAll_pieces hp x (hbuilt x hx)).2
  rw [children_of_ne_error hp, hplace, htotal, hentries]
  refine ⟨?_, rfl⟩
  conv => rhs; rw [← hentries, List.flatMap_map]
  exact List.flatMap_congr fun x hx => (placeAll_pieces hp x (hbuilt x hx)).1

end Build

/-! ## Nodes -/

section Nodes

variable {t : Table} {around : Surroundings} {symbol : Symbol} {entries : List Entry}
  {fields : List (Option FieldId)} {fallback : Length} {state : StateId} {i k : Length}

/-- What a node is built of stands in it where it stood. -/
theorem placed_buildNode (hs : symbol ≠ Symbol.error) (hrow : Consecutive i k entries)
    (hfallback : entries = [] → fallback = i) (h : ∀ e ∈ entries, WellBuilt t e.node) :
    (buildNode t around symbol entries fields fallback state).1.placed
        (buildNode t around symbol entries fields fallback state).2 =
      entries.flatMap fun e => e.left (Build.isSpliced t symbol e.node) := by
  rw [(consecutive_buildNode around symbol fields fallback state hrow hfallback).1]
  exact (Build.placeAll_children hs fields hrow h).1

/-- A node that begins with a token was begun with an entry that does. -/
theorem opens_buildNode (hs : symbol ≠ Symbol.error)
    (h : (buildNode t around symbol entries fields fallback state).1.opens = true) :
    ∃ e rest, entries = e :: rest ∧ e.node.opens = true := by
  obtain ⟨-, hopens⟩ := opens_iff.mp h
  cases entries with
  | nil => cases hopens
  | cons e rest =>
    refine ⟨e, rest, rfl, ?_⟩
    obtain ⟨field, fields', hfields⟩ : ∃ field fields',
        Build.withFields (e :: rest) fields = (e, field) :: Build.withFields rest fields' := by
      rw [Build.withFields]
      split <;> exact ⟨_, _, rfl⟩
    replace hopens : Subtree.firstOpens _ (Build.children t symbol (e :: rest) fields) = true := hopens
    rw [Build.children_of_ne_error hs, hfields, List.flatMap_cons, Build.pieces] at hopens
    dsimp only at hopens
    -- the first child is the first entry, or the first one of a hidden rule there
    split at hopens
    · rename_i hspliced
      obtain ⟨hne, hextra⟩ := Build.extra_of_isSpliced hs hspliced
      obtain ⟨c, children, hchildren⟩ := List.exists_cons_of_ne_nil hne
      rw [hchildren, List.map_cons, List.cons_append, firstOpens_cons] at hopens
      exact opens_iff.mpr ⟨hextra, by rwa [hchildren, firstOpens_cons]⟩
    · rwa [List.singleton_append, firstOpens_cons] at hopens

/-- The lex mode of a node is that of the token it begins with. -/
theorem firstMode_buildNode {e : Entry} {rest : List Entry} {mode : LexMode}
    (h : e.node.firstMode = some mode) :
    (buildNode t around symbol (e :: rest) fields fallback state).1.firstMode = some mode := by
  change (e :: rest).findSome? (fun e => e.node.firstMode) = some mode
  rw [List.findSome?_cons, h]

theorem wellBuilt_buildNode (hs : symbol ≠ Symbol.error) (hrow : Consecutive i k entries)
    (hfallback : entries = [] → fallback = i) (h : ∀ e ∈ entries, WellBuilt t e.node) :
    WellBuilt t (buildNode t around symbol entries fields fallback state).1 := by
  refine ⟨fun _ => ?_, fun hopens => ?_, fun hextra => by cases hextra⟩
  · rw [Subtree.total, (consecutive_buildNode around symbol fields fallback state hrow hfallback).2.1]
    exact (Build.placeAll_children hs fields hrow h).2.trans (padding_add_sizeOf entries).symm
  · obtain ⟨e, rest, rfl, he⟩ := opens_buildNode hs hopens
    obtain ⟨mode, hmode⟩ := (h e (List.mem_cons_self ..)).begins he
    exact ⟨mode, firstMode_buildNode hmode⟩

/-- What the root is built of stands in it where it stood. -/
theorem placed_acceptedRoot (hstart : t.isTerminal t.start = false) {text : ByteArray} {c : Config}
    {token : Subtree} (hrow : Consecutive .zero k c.stack.reverse)
    (h : ∀ e ∈ c.stack, WellBuilt t e.node) :
    (c.acceptedRoot t text token).placed .zero =
      c.stack.reverse.flatMap fun e => e.left (!e.node.extra && e.node.symbol == t.start) := by
  -- taking the start symbol apart leaves its bytes to its children
  have hleft : ∀ e ∈ c.stack.reverse,
      placeAll e.position (if !e.node.extra && e.node.symbol == t.start then e.node.children
        else [(e.node, none)]) = e.left (!e.node.extra && e.node.symbol == t.start) ∧
      totalAll (if !e.node.extra && e.node.symbol == t.start then e.node.children
        else [(e.node, none)]) = e.node.total := by
    intro e he
    rw [Entry.left]
    split
    · rename_i hsymbol
      rw [Bool.and_eq_true, beq_iff_eq] at hsymbol
      exact ⟨rfl, (h e (List.mem_reverse.mp he)).covers (.inr (hsymbol.2 ▸ hstart))⟩
    · exact ⟨rfl, Length.add_zero _⟩
  rw [← List.map_id c.stack.reverse] at hrow
  refine ((placeAll_flatMap id _ hrow fun e he => (hleft e he).2).1).trans ?_
  exact List.flatMap_congr fun e he => (hleft e he).1

end Nodes

/-! ## Trees -/

namespace Tree

variable {tree : Tree} {x : Length × Subtree}

/-- A part stands in a tree as a node other than the root. -/
def Holds (tree : Tree) (x : Length × Subtree) : Prop :=
  ∃ n, tree.Has n ∧ n.isRoot = false ∧ n.place.position = x.1 ∧ n.subtree = x.2

theorem holds_of_stored {n m : Node} (hn : tree.Has n) (hm : m ∈ n.stored) :
    tree.Holds (m.place.position, m.subtree) :=
  ⟨m, .stored hn hm, (exists_child_of_stored hm).2, rfl, rfl⟩

theorem mem_placed_of_stored {n m : Node} (hm : m ∈ n.stored) :
    (m.place.position, m.subtree) ∈ n.subtree.placed n.place.position := by
  rw [Subtree.placed, Subtree.placeAll_eq_map_listFrom _ 0]
  exact List.mem_map.mpr ⟨m.place, Node.mem_below hm, rfl⟩

/-- What a node consists of stands in the tree as well. -/
theorem holds_of_mem_placed {n : Node} (hn : tree.Has n)
    (hx : x ∈ n.subtree.placed n.place.position) : tree.Holds x := by
  rw [Subtree.placed, Subtree.placeAll_eq_map_listFrom _ 0] at hx
  obtain ⟨p, hp, rfl⟩ := List.mem_map.mp hx
  obtain ⟨m, hm, rfl⟩ := Node.exists_stored (n := n) hp
  exact holds_of_stored hn hm

theorem Holds.placed (h : tree.Holds x) : ∀ q ∈ x.2.placed x.1, tree.Holds q := by
  obtain ⟨n, hn, -, hposition, hsubtree⟩ := h
  intro q hq
  rw [← hposition, ← hsubtree] at hq
  exact holds_of_mem_placed hn hq

/-- The nodes of a tree other than the root are what is stored in the root. -/
theorem holds_iff : tree.Holds x ↔ ∃ q ∈ tree.root.placed .zero, Stored q x := by
  constructor
  · rintro ⟨n, hn, hinner, hposition, hsubtree⟩
    obtain rfl : (n.place.position, n.subtree) = x := Prod.ext hposition hsubtree
    clear hposition hsubtree
    -- the induction is on the way down, whose first step leaves the root
    induction hn with
    | root => cases hinner
    | @stored n m hn hm ih =>
      have hmem := mem_placed_of_stored hm
      cases hn with
      | root => exact ⟨_, hmem, .refl⟩
      | stored _ hn' =>
        obtain ⟨q, hq, hstored⟩ := ih (exists_child_of_stored hn').2
        exact ⟨q, hq, hstored.tail hmem⟩
  · rintro ⟨q, hq, hstored⟩
    -- below a part of the root the tree holds all that is stored there
    induction hstored with
    | refl => exact holds_of_mem_placed .root hq
    | tail _ hx ih => exact ih.placed _ hx

end Tree

end IncrementalParsing
