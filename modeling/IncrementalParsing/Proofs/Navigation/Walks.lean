import IncrementalParsing.Proofs.Navigation.Cursors
import IncrementalParsing.Tree.Outline
import Mathlib.Data.List.Chain

/-!
# Walks through everything below a node

`Cursor.visits` lists where a cursor comes to when it goes down as far as it can, else to the side, else
up until there is something at the side.  An outline is written from such a walk, a report from the
functions on nodes; both tell of the same nodes in the same order.

## Key results

- `Cursor.leads_visits`: the steps of a walk are moves
- `Node.mem_visits_iff`: a walk comes to everything visible below a node
- `Node.pairwise_visits`: a walk goes in the order of the text
- `Cursor.entries_report`: a report tells of the nodes that a walk comes to
- `Language.cursor_agrees`: the functions on cursors and on nodes agree in every tree that belongs to a
  text
-/

namespace IncrementalParsing

/-- A node stands before everything below its children. -/
theorem Node.preorder_eq (n : Node) (depth : Nat) :
    n.preorder depth = (depth, n) :: n.children.flatMap fun c => c.preorder (depth + 1) := by
  rw [preorder]
  conv => rhs; rw [← List.attach_map_subtype_val n.children, List.flatMap_map]

namespace Cursor

variable {c d : Cursor} {i : Nat}

/-! ## The siblings one after the other -/

/-- Behind a child come the visible nodes that stand after it. -/
theorem rest_of_child? (h : c.child? i = some d) : d.rest = (c.node.shown.drop i).map c.push := by
  have hdrop : ∀ {e : Cursor} {j : Nat}, c.child? j = some e →
      (c.node.shown.drop j).map c.push = e :: (c.node.shown.drop (j + 1)).map c.push := by
    intro e j he
    obtain ⟨f, hf, rfl⟩ := Option.map_eq_some_iff.mp he
    obtain ⟨hlt, rfl⟩ := List.getElem?_eq_some_iff.mp hf
    rw [List.drop_eq_getElem_cons hlt]
    rfl
  -- the induction is on the siblings that are left
  fun_induction rest d generalizing i with
  | case1 d hnext =>
    rw [next?_of_child? h] at hnext
    have hlength := List.getElem?_eq_none_iff.mp (Option.map_eq_none_iff.mp hnext)
    rw [hdrop h, List.drop_eq_nil_of_le hlength]
    rfl
  | case2 d e hnext ih =>
    rw [hdrop h, ih (next?_of_child? h ▸ hnext)]

/-- The children of a cursor are its visible nodes, each pushed onto the path. -/
theorem children_eq (c : Cursor) : c.children = c.node.shown.map c.push := by
  unfold children
  split
  · rename_i hnone
    rw [firstChild?_eq] at hnone
    have hlength := List.getElem?_eq_none_iff.mp (Option.map_eq_none_iff.mp hnone)
    rw [List.eq_nil_of_length_eq_zero (Nat.le_zero.mp hlength)]
    rfl
  · rename_i d hd
    exact rest_of_child? (c.firstChild?_eq ▸ hd)

/-- `child?` counts in `children`. -/
theorem getElem?_children (c : Cursor) (i : Nat) : c.children[i]? = c.child? i := by
  rw [children_eq, List.getElem?_map]
  rfl

/-- Their nodes are the children of the node. -/
theorem map_node_children (c : Cursor) : c.children.map node = c.node.children := by
  rw [children_eq, List.map_map, ← Node.map_shown]
  rfl

/-- Every child is reached by its number, -/
theorem exists_child?_of_mem_children (h : d ∈ c.children) : ∃ i, c.child? i = some d := by
  obtain ⟨i, hi⟩ := List.getElem?_of_mem h
  exact ⟨i, getElem?_children c i ▸ hi⟩

/-- is stored in the node, -/
theorem mem_stored_of_mem_children (h : d ∈ c.children) : d.node ∈ c.node.stored :=
  Node.mem_stored_of_mem_children (c.map_node_children ▸ List.mem_map_of_mem h)

/-- is visible, -/
theorem isVisible_of_mem_children (h : d ∈ c.children) : d.node.isVisible = true :=
  Node.isVisible_of_mem_children (c.map_node_children ▸ List.mem_map_of_mem h)

/-- and is one deeper. -/
theorem depth_of_mem_children (h : d ∈ c.children) : d.depth = c.depth + 1 := by
  obtain ⟨i, hi⟩ := exists_child?_of_mem_children h
  rw [depth, below_of_child? hi]
  rfl

/-- What holds of every cursor for which it holds of those at the children holds of all cursors. -/
theorem induction {P : Cursor → Prop} (step : ∀ c, (∀ d ∈ c.children, P d) → P c) (c : Cursor) :
    P c := by
  suffices ∀ (n : Node) (c : Cursor), c.node = n → P c from this c.node c rfl
  intro n
  induction n using Node.induction with
  | step n ih =>
    rintro c rfl
    exact step c fun d hd => ih d.node (mem_stored_of_mem_children hd) d rfl

/-! ## Walking -/

/-- One visits a node and then what its children visit. -/
theorem visits_eq (c : Cursor) : c.visits = c :: c.children.flatMap visits := by
  rw [visits]
  conv => rhs; rw [← List.attach_map_subtype_val c.children, List.flatMap_map]

/-- Where a walk goes on behind everything below the node: to the next sibling of the node, or of the
nearest node on the way that has one. -/
def onward? (c : Cursor) : Option Cursor :=
  match c with
  | ⟨_, []⟩ => none
  | ⟨top, up :: below⟩ => (next? ⟨top, up :: below⟩).or (onward? ⟨up, below⟩)
termination_by c.depth
decreasing_by exact Nat.lt_succ_self _

/-- One step of a walk: down if there is a child, else onward. -/
def advance? (c : Cursor) : Option Cursor := c.firstChild?.or c.onward?

/-- From a child one goes on to the next sibling, and otherwise from where the parent goes on. -/
theorem onward?_of_parent? (h : d.parent? = some c) : d.onward? = d.next?.or c.onward? := by
  obtain ⟨top, below⟩ := d
  cases below with
  | nil => cases h
  | cons up below =>
    cases h
    rw [onward?]

/-- A list of cursors that one walks through step by step, from the first on; behind the last one goes
on to a given place. -/
structure Leads (visits : List Cursor) (first : Cursor) (onward : Option Cursor) : Prop where
  begins : visits.head? = some first
  steps : visits.IsChain fun c d => c.advance? = some d
  ends : ∀ c ∈ visits.getLast?, c.advance? = onward

/-- A single step leads from a cursor to the next. -/
theorem leads_singleton {onward : Option Cursor} (h : c.advance? = onward) : Leads [c] c onward := by
  refine ⟨rfl, .singleton c, fun d hd => ?_⟩
  cases hd
  exact h

/-- Walks that meet make one walk. -/
theorem Leads.append {xs ys : List Cursor} {c d : Cursor} {onward : Option Cursor}
    (hx : Leads xs c (some d)) (hy : Leads ys d onward) : Leads (xs ++ ys) c onward where
  begins := by rw [List.head?_append, hx.begins]; rfl
  steps := by
    refine List.isChain_append.mpr ⟨hx.steps, hy.steps, fun a ha b hb => ?_⟩
    -- the last cursor of the first walk is the one the second begins with
    rw [hx.ends a ha, ← hy.begins]
    exact hb
  ends := by
    cases ys with
    | nil => cases hy.begins
    | cons y ys =>
      rw [List.getLast?_append_cons]
      exact hy.ends

/-- From a child one walks through everything below it and its later siblings, then onward from what
they lie in. -/
theorem leads_flatMap_rest (hparent : d.parent? = some c)
    (h : ∀ e ∈ d.rest, Leads e.visits e e.onward?) : Leads (d.rest.flatMap visits) d c.onward? := by
  fun_induction rest d with
  | case1 d hnext =>
    -- behind the last sibling a walk goes on from what they lie in
    have hd := h d (List.mem_singleton_self d)
    rw [onward?_of_parent? hparent, hnext] at hd
    rw [List.flatMap_singleton]
    exact hd
  | case2 d e hnext ih =>
    have hd := h d (List.mem_cons_self ..)
    rw [onward?_of_parent? hparent, hnext] at hd
    have he : e.parent? = some c := by
      rw [parent?, (level_of_next? hnext).1]
      exact hparent
    rw [List.flatMap_cons]
    exact hd.append (ih he fun x hx => h x (List.mem_cons_of_mem d hx))

/-- One walks from a node through everything below it. -/
theorem leads_visits (c : Cursor) : Leads c.visits c c.onward? := by
  -- on the tree below the cursor
  induction c using induction with
  | step c ih =>
    rw [visits_eq]
    cases hfirst : c.firstChild? with
    | none =>
      have hchildren : c.children = [] := by
        unfold children
        rw [hfirst]
      rw [hchildren]
      exact leads_singleton (by rw [advance?, hfirst]; rfl)
    -- after the node its first child is visited, and then its siblings
    | some d =>
      have hchildren : c.children = d.rest := by
        unfold children
        rw [hfirst]
      have hstart : Leads [c] c (some d) := leads_singleton (by rw [advance?, hfirst]; rfl)
      rw [hchildren]
      refine hstart.append (leads_flatMap_rest ?_ fun e he => ?_)
      · exact parent?_of_child? (c.firstChild?_eq ▸ hfirst)
      · exact ih e (hchildren ▸ he)

/-- What holds of a cursor and is handed down to children holds wherever a walk comes to. -/
theorem forall_visits {P : Cursor → Prop} (hstep : ∀ c, P c → ∀ d ∈ c.children, P d) (hc : P c) :
    ∀ d ∈ c.visits, P d := by
  induction c using induction with
  | step c ih =>
    rw [visits_eq, List.forall_mem_cons]
    refine ⟨hc, fun d hd => ?_⟩
    obtain ⟨e, he, hd⟩ := List.mem_flatMap.mp hd
    exact ih e he (hstep c hc e he) d hd

/-- A walk comes to the nodes of the preorder, with their depths. -/
theorem map_visits (c : Cursor) :
    c.visits.map (fun d => (d.depth, d.node)) = c.node.preorder c.depth := by
  induction c using induction with
  | step c ih =>
    rw [visits_eq, Node.preorder_eq, ← map_node_children, List.map_cons, List.map_flatMap,
      List.flatMap_map]
    congr 1
    refine List.flatMap_congr fun d hd => ?_
    rw [ih d hd, depth_of_mem_children hd]

end Cursor

namespace Node

variable {tree : Tree} {n m : Node}

/-! ## What a walk comes to -/

/-- The node and all that is visible below it, and nothing else, is come to. -/
theorem mem_visits_iff (h : tree.Clear) {c : Cursor} (hc : tree.Has c.node) :
    m ∈ c.visits.map Cursor.node ↔ m = c.node ∨ (Above c.node m ∧ m.isVisible = true) := by
  induction c using Cursor.induction with
  | step c ih =>
    -- the children visit what is below them
    have hchild : ∀ d ∈ c.children, (m ∈ d.visits.map Cursor.node ↔
        m = d.node ∨ (Above d.node m ∧ m.isVisible = true)) := fun d hd =>
      ih d hd (.stored hc (Cursor.mem_stored_of_mem_children hd))
    rw [Cursor.visits_eq, List.map_cons, List.mem_cons, List.map_flatMap, List.mem_flatMap]
    constructor
    · rintro (rfl | ⟨d, hd, hm⟩)
      · exact .inl rfl
      · have hstored := Cursor.mem_stored_of_mem_children hd
        refine .inr ?_
        obtain rfl | ⟨habove, hvisible⟩ := (hchild d hd).mp hm
        · exact ⟨.single hstored, Cursor.isVisible_of_mem_children hd⟩
        · exact ⟨.head hstored habove, hvisible⟩
    · rintro (rfl | ⟨habove, hvisible⟩)
      · exact .inl rfl
      · obtain rfl | ⟨e, he, hrest⟩ := mem_children_of_above h hc habove hvisible
        · exact .inl rfl
        · rw [← Cursor.map_node_children] at he
          obtain ⟨d, hd, rfl⟩ := List.mem_map.mp he
          exact .inr ⟨d, hd, (hchild d hd).mpr (.inr ⟨hrest, hvisible⟩)⟩

/-- The path to a node goes on to everything below it. -/
theorem exists_path_of_above (h : Above n m) : ∃ is, m.path.reverse = n.path.reverse ++ is := by
  induction h with
  | refl => exact ⟨[], (List.append_nil _).symm⟩
  | tail _ hm ih =>
    obtain ⟨is, his⟩ := ih
    exact ⟨_, by rw [path_stored hm, List.reverse_cons, his, List.append_assoc]⟩

/-- One node stands before another in a text: the path from the root to it is the smaller one, which is
so for what lies above the other and for what lies in front of it, and it begins no later. -/
def Precedes (n m : Node) : Prop := n.path.reverse < m.path.reverse ∧ n.startByte ≤ m.startByte

variable {a b : Node}

/-- A node stands before what is below one that is stored in it. -/
theorem precedes_of_stored (h : tree.Orderly) (hn : tree.Has n) (ha : a ∈ n.stored)
    (hm : Above a m) : n.Precedes m := by
  refine ⟨?_, (within_of_above h hn (.head ha hm)).1⟩
  obtain ⟨is, his⟩ := exists_path_of_above hm
  rw [his, path_stored ha, List.reverse_cons, List.append_assoc]
  conv_lhs => rw [← List.append_nil n.path.reverse]
  exact List.append_left_lt (List.nil_lt_cons _ _)

/-- What is below a child stands before what is below one behind it. -/
theorem precedes_of_children (h : tree.Orderly) (hn : tree.Has n) :
    n.children.Pairwise fun a b => ∀ x y, Above a x → Above b y → x.Precedes y := by
  have hindex : n.stored.Pairwise fun a b => a.place.index < b.place.index := by
    rw [stored, List.pairwise_map]
    exact Place.pairwise_index _ _ _
  refine List.Pairwise.imp_of_mem (fun {a b} ha hb hab x y hx hy => ?_)
    ((hindex.sublist List.filter_sublist).and n.pairwise_children)
  have ha := mem_stored_of_mem_children ha
  have hb := mem_stored_of_mem_children hb
  constructor
  -- the two paths part at the places of the children
  · obtain ⟨is, his⟩ := exists_path_of_above hx
    obtain ⟨js, hjs⟩ := exists_path_of_above hy
    rw [his, hjs, path_stored ha, path_stored hb, List.reverse_cons, List.reverse_cons,
      List.append_assoc, List.append_assoc]
    exact List.append_left_lt (List.cons_lt_cons_iff.mpr (.inl hab.1))
  · calc x.startByte ≤ x.endByte := x.startByte_le_endByte
      _ ≤ a.endByte := (within_of_above h (.stored hn ha) hx).2
      _ ≤ b.place.position.bytes := hab.2
      _ ≤ b.startByte := Nat.le_add_right _ _
      _ ≤ y.startByte := (within_of_above h (.stored hn hb) hy).1

/-- A walk goes in the order of the text. -/
theorem pairwise_visits (h : tree.Orderly) {c : Cursor} (hc : tree.Has c.node) :
    (c.visits.map Cursor.node).Pairwise Precedes := by
  induction c using Cursor.induction with
  | step c ih =>
    -- all that is come to from a child is below that child
    have hvisits : ∀ d ∈ c.children, ∀ x ∈ d.visits.map Cursor.node, Above d.node x := by
      intro d hd x hx
      have hhas := Tree.Has.stored hc (Cursor.mem_stored_of_mem_children hd)
      obtain rfl | ⟨habove, -⟩ := (mem_visits_iff h.clear hhas).mp hx
      · exact .refl
      · exact habove
    rw [Cursor.visits_eq, List.map_cons, List.map_flatMap, List.pairwise_cons,
      List.pairwise_flatMap]
    refine ⟨fun x hx => ?_, fun d hd => ?_, ?_⟩
    · obtain ⟨d, hd, hx⟩ := List.mem_flatMap.mp hx
      exact precedes_of_stored h hc (Cursor.mem_stored_of_mem_children hd) (hvisits d hd x hx)
    · exact ih d hd (.stored hc (Cursor.mem_stored_of_mem_children hd))
    · have hordered := precedes_of_children h hc
      rw [← Cursor.map_node_children, List.pairwise_map] at hordered
      exact hordered.imp_of_mem fun {d e} hd he hde x hx y hy =>
        hde x y (hvisits d hd x hx) (hvisits e he y hy)

end Node

/-! ## What is told of the nodes -/

namespace Report

mutual

/-- A report and all in it, each before what is in it, with their depths. -/
def entries (depth : Nat) : Report → List (Nat × Report)
  | ⟨kind, field, named, extra, error, startByte, endByte, start, finish, text, children⟩ =>
    (depth, ⟨kind, field, named, extra, error, startByte, endByte, start, finish, text, children⟩) ::
      entriesAll (depth + 1) children

/-- The entries of reports in order. -/
def entriesAll (depth : Nat) : List Report → List (Nat × Report)
  | [] => []
  | r :: rest => entries depth r ++ entriesAll depth rest

end

/-- A report lists itself and then what its children list. -/
theorem entries_eq (r : Report) (depth : Nat) :
    r.entries depth = (depth, r) :: r.children.flatMap (entries (depth + 1)) := by
  have hall : ∀ rs : List Report,
      entriesAll (depth + 1) rs = rs.flatMap (entries (depth + 1)) := by
    intro rs
    induction rs with
    | nil => rw [entriesAll, List.flatMap_nil]
    | cons r rest ih => rw [entriesAll, List.flatMap_cons, ih]
  cases r
  rw [entries, hall]

/-- The line that a report has in an outline; only those of named nodes have one. -/
def outlineLine? (spans : Bool) (depth : Nat) (r : Report) : Option String :=
  if r.named then some (outlineLine spans depth r.field r.kind r.start r.finish) else none

end Report

namespace Cursor

variable {c : Cursor}

/-- What is told of the node where a cursor stands, in the field that the cursor keeps. -/
def report (source : ByteArray) (c : Cursor) : Report := c.node.report source c.fieldName?

/-- The children of the report are the reports of the children. -/
theorem children_report (source : ByteArray) (c : Cursor) :
    (c.report source).children = c.children.map (report source) := by
  have hchildren : (c.report source).children =
      c.node.children.zipIdx.map fun x => x.1.report source (c.node.fieldNameForChild? x.2) := by
    rw [report, Node.report]
    conv => rhs; rw [← List.attach_map_subtype_val c.node.children, List.zipIdx_map, List.map_map]
    rfl
  -- a child has one number among the nodes and among the cursors
  refine hchildren.trans (List.ext_getElem? fun i => ?_)
  rw [List.getElem?_map, List.getElem?_map, List.getElem?_zipIdx, getElem?_children, ← Node.child?,
    ← map_node_child?, Nat.zero_add]
  cases hd : c.child? i with
  | none => rfl
  | some d =>
    change some (d.node.report source _) = some (d.node.report source _)
    rw [fieldName?_of_child? hd]

/-- The report of a node tells of the nodes that a walk comes to, in its order and with the fields that
the cursor keeps. -/
theorem entries_report (source : ByteArray) (c : Cursor) :
    (c.report source).entries c.depth = c.visits.map fun d => (d.depth, d.report source) := by
  induction c using induction with
  | step c ih =>
    rw [Report.entries_eq, visits_eq, children_report, List.map_cons, List.map_flatMap,
      List.flatMap_map]
    congr 1
    refine List.flatMap_congr fun d hd => ?_
    rw [← depth_of_mem_children hd, ih d hd]

/-- The line of a report is that of the cursor it was made at. -/
theorem outlineLine?_report (source : ByteArray) (spans : Bool) (c : Cursor) :
    (c.report source).outlineLine? spans c.depth = c.outlineLine? spans := by
  rw [report, Node.report]
  rfl

end Cursor

namespace Node

/-- The lines of an outline are those of the named nodes that are reported. -/
theorem outline_eq_entries (source : ByteArray) (spans : Bool) (n : Node) :
    n.outline spans = String.join
      (((n.report source none).entries 0).filterMap fun x => x.2.outlineLine? spans x.1) := by
  have hentries := Cursor.entries_report source n.walk
  change (n.report source none).entries 0 = _ at hentries
  rw [outline, hentries, List.filterMap_map]
  congr 2
  funext c
  exact (c.outlineLine?_report source spans).symm

/-- The walk of a cursor through everything below a node: each step is a move down, to the side, or up
and then to the side, until none is left.  The cursor comes to the node and to everything visible below
it, once each and in the order of the text, and tells what the functions on nodes tell. -/
structure Walked (n : Node) : Prop where
  steps : Cursor.Leads n.walk.visits n.walk none
  agrees : ∀ c ∈ n.walk.visits, ∃ path, n.Agrees path c
  preorder : n.walk.visits.map (fun c => (c.depth, c.node)) = n.preorder 0
  complete : ∀ m, m ∈ n.walk.visits.map Cursor.node ↔ m = n ∨ (Above n m ∧ m.isVisible = true)
  once : (n.walk.visits.map Cursor.node).Nodup
  ordered : (n.walk.visits.map Cursor.node).Pairwise Precedes
  reported : ∀ source, (n.report source none).entries 0 =
    n.walk.visits.map fun c => (c.depth, c.report source)
  outlined : ∀ source spans, n.outline spans = String.join
    (((n.report source none).entries 0).filterMap fun x => x.2.outlineLine? spans x.1)

/-- In a tree that is in order every node is walked. -/
theorem walked_of_orderly {tree : Tree} (h : tree.Orderly) {n : Node} (hn : tree.Has n) :
    n.Walked where
  steps := by
    have hleads := n.walk.leads_visits
    rwa [show n.walk.onward? = none by rw [walk, Cursor.onward?]] at hleads
  agrees := by
    -- a cursor that is visited has been moved to by way of children
    suffices ∀ c ∈ n.walk.visits, ∃ path, n.cursorAt? path = some c from fun c hc =>
      (this c hc).imp fun _ => agrees_of_cursorAt
    refine Cursor.forall_visits (fun c ⟨path, hpath⟩ d hd => ?_) ⟨[], rfl⟩
    obtain ⟨i, hi⟩ := Cursor.exists_child?_of_mem_children hd
    exact ⟨path ++ [i], by rw [cursorAt?_concat, hpath]; exact hi⟩
  preorder := n.walk.map_visits
  complete m := mem_visits_iff h.clear hn
  -- a node does not come before itself
  once := by
    refine (pairwise_visits (c := n.walk) h hn).imp fun {a b} hab heq => ?_
    rw [heq] at hab
    exact List.lt_irrefl _ hab.1
  ordered := pairwise_visits h hn
  reported source := Cursor.entries_report source n.walk
  outlined source spans := n.outline_eq_entries source spans

end Node

/-- In a tree that belongs to a text the functions on cursors and on nodes agree: wherever moves take a
cursor from a node, it stands where taking children leads and tells what the nodes tell, and a walk comes
to everything visible below the node. -/
theorem Language.cursor_agrees {l : Language} {grammar : Grammar} (h : grammar.table = .ok l.table)
    {text : String} {tree : Tree} (htree : l.TreeFor text tree) {n : Node} (hn : tree.Has n) :
    (∀ moves, ∃ path, n.Agrees path (n.walk.moveAll moves)) ∧ n.Walked := by
  refine ⟨fun moves => ?_, Node.walked_of_orderly (orderly_of_treeFor h htree) hn⟩
  have hstart : n.cursorAt? [] = some n.walk := rfl
  obtain ⟨path, hpath⟩ := Node.exists_cursorAt_moveAll hstart moves
  exact ⟨path, Node.agrees_of_cursorAt hpath⟩

/-- A walk through a text without errors, one of whose rules consists of nothing. -/
theorem Sunken.cursor_agrees_root : ∃ p, Language.parse ⟨0, table⟩ "bnz" none = some p ∧
    p.tree.node.walk.visits.map (fun c => (c.depth, c.node.startByte)) =
      [(0, 0), (1, 0), (1, 2), (2, 2), (2, 2)] ∧
    (∀ moves, ∃ path, p.tree.node.Agrees path (p.tree.node.walk.moveAll moves)) ∧
    p.tree.node.Walked := by
  have hrun : ((Config.start table none).doneAfter? table "bnz".toUTF8 5).map (fun r =>
      (Tree.node ⟨⟨0, table⟩, r.1⟩).walk.visits.map fun c => (c.depth, c.node.startByte)) =
      some [(0, 0), (1, 0), (1, 2), (2, 2), (2, 2)] := by
    cbv
  obtain ⟨r, hr, hrun⟩ := Option.map_eq_some_iff.mp hrun
  have hp := Language.parse_of_doneAfter? ⟨0, table⟩ "bnz" none hr
  have hagrees := Language.cursor_agrees (l := ⟨0, table⟩) table_grammar
    (.parsed (fun _ h => by cases h) hp) .root
  exact ⟨_, hp, hrun, hagrees⟩

end IncrementalParsing
