import IncrementalParsing.Proofs.Navigation.Ranges
import IncrementalParsing.Proofs.Parse.TakingOver

/-!
# The smallest node around a range

`Node.descendantForRange?` goes down to the first child that reaches over a range of bytes, as long as
there is one.  For a range with bytes in it there is at most one child to go to, so what is found is the
smallest node that reaches over the range.  An empty range can stand where one child ends and the next
one begins; then the search goes into the child that ends there, whichever of them is the smaller one.

## Key results

- `Node.smallest_smallestSpanning`: what the search comes to, and what can be smaller
- `Language.descendantForRange_smallest`: the same in every tree that belongs to a text
- `Sunken.descendantForRange_larger`: at the end of a child a smaller node is passed over
-/

namespace IncrementalParsing

namespace Node

variable {tree : Tree} {n d r : Node} {start finish : Nat}

theorem spans_iff : n.spans start finish = true ↔
    n.startByte ≤ start ∧ finish ≤ n.endByte ∧ n.startByte < n.endByte := by
  simp [spans, and_assoc]

/-- A node is found for a range of bytes: it is the node that was searched, or visible below it, and
reaches over the range.  Nothing shorter does, but for what begins at an empty range where the node that
was found ends. -/
structure Smallest (n : Node) (start finish : Nat) (r : Node) : Prop where
  below : n.Above r
  visible : r = n ∨ r.isVisible = true
  covers : r.startByte ≤ start ∧ finish ≤ r.endByte
  smallest : ∀ d, n.Above d → d.isVisible = true → d.spans start finish = true →
    r.endByte - r.startByte ≤ d.endByte - d.startByte ∨
      (start = finish ∧ r.endByte = start ∧ d.startByte = start)

/-- The search stops where no child reaches over the range, and goes down to the first that does. -/
theorem smallestSpanning_eq (n : Node) (start finish : Nat) : n.smallestSpanning start finish =
    match n.children.find? fun c => c.spans start finish with
    | some c => c.smallestSpanning start finish
    | none => n := by
  rw [smallestSpanning]
  split
  · rename_i h
    rw [h]
  · rename_i h
    rw [h]

/-- The search comes to the smallest node. -/
theorem smallest_smallestSpanning (h : tree.Orderly) (hle : start ≤ finish) (hn : tree.Has n)
    (hcovers : n.startByte ≤ start ∧ finish ≤ n.endByte) :
    n.Smallest start finish (n.smallestSpanning start finish) := by
  induction n using induction with
  | step n ih =>
    rw [smallestSpanning_eq]
    cases hfind : n.children.find? fun c => c.spans start finish with
    | none =>
      refine ⟨.refl, .inl rfl, hcovers, fun d hd hvisible hspans => ?_⟩
      -- what reaches over the range would be below a child that does as well
      obtain rfl | ⟨c, hc, hrest⟩ := mem_children_of_above h.clear hn hd hvisible
      · exact .inl (Nat.le_refl _)
      · have hinside := within_of_above h (.stored hn (mem_stored_of_mem_children hc)) hrest
        rw [spans_iff] at hspans
        have := List.find?_eq_none.mp hfind c hc
        rw [spans_iff] at this
        omega
    | some c =>
      dsimp only
      obtain ⟨hspans, before, after, hchildren, hbefore⟩ := List.find?_eq_some_iff_append.mp hfind
      have hc : c ∈ n.children := hchildren ▸ List.mem_append_right _ (List.mem_cons_self ..)
      have hstored := mem_stored_of_mem_children hc
      have hhas := Tree.Has.stored hn hstored
      rw [spans_iff] at hspans
      have hfound := ih c hstored hhas ⟨hspans.1, hspans.2.1⟩
      have hbounds := within_of_above h hhas hfound.below
      have hbounds' := within_of_above h hn (.single hstored)
      -- what is found below the child is the child or visible itself
      have hvisible : (c.smallestSpanning start finish).isVisible = true := by
        obtain heq | hvisible := hfound.visible
        · rw [heq]
          exact isVisible_of_mem_children hc
        · exact hvisible
      refine ⟨.head hstored hfound.below, .inr hvisible, hfound.covers, fun d hd hshown hd' => ?_⟩
      obtain rfl | ⟨c', hc', hrest⟩ := mem_children_of_above h.clear hn hd hshown
      · exact .inl (by omega)
      have hinside := within_of_above h (.stored hn (mem_stored_of_mem_children hc')) hrest
      rw [hchildren, List.mem_append, List.mem_cons] at hc'
      have hspans' := spans_iff.mp hd'
      obtain hc' | rfl | hc' := hc'
      · -- a child in front would have been found first
        have hnot := hbefore c' hc'
        rw [Bool.not_eq_true', ← Bool.not_eq_true, spans_iff] at hnot
        omega
      · exact hfound.smallest d hrest hshown hd'
      · -- a child behind begins where the range is, so the range is empty and stands between the two
        have hordered := n.pairwise_children
        rw [hchildren] at hordered
        have hafter := (List.pairwise_cons.mp (List.pairwise_append.mp hordered).2.1).1 c' hc'
        have hpadding : c'.place.position.bytes ≤ c'.startByte := Nat.le_add_right _ _
        have := hfound.covers
        exact .inr (by omega)

end Node

namespace Language

variable {l : Language}

/-- In a tree that belongs to a text the smallest node around a range of bytes is found, unless the range
is empty and stands where the node that is found ends; outside of a node nothing is found. -/
theorem descendantForRange_smallest {grammar : Grammar} (h : grammar.table = .ok l.table) {text : String}
    {tree : Tree} (htree : l.TreeFor text tree) {n : Node} (hn : tree.Has n) (start finish : Nat) :
    (start ≤ finish → n.startByte ≤ start → finish ≤ n.endByte →
      ∃ r, n.descendantForRange? start finish = some r ∧ n.Smallest start finish r) ∧
    (start < n.startByte ∨ n.endByte < finish → n.descendantForRange? start finish = none) := by
  constructor
  · intro hle hstart hfinish
    refine ⟨_, ?_, Node.smallest_smallestSpanning (orderly_of_treeFor h htree) hle hn
      ⟨hstart, hfinish⟩⟩
    rw [Node.descendantForRange?, if_neg]
    simp only [Bool.or_eq_true, decide_eq_true_eq]
    omega
  · intro houtside
    rw [Node.descendantForRange?, if_pos]
    simpa only [Bool.or_eq_true, decide_eq_true_eq] using houtside

end Language

namespace Sunken

/-- In a text without errors the last token is found for its bytes, and nothing behind it. -/
theorem descendantForRange_last : ∃ p r, Language.parse ⟨0, table⟩ "bnz" none = some p ∧
    p.tree.node.descendantForRange? 2 3 = some r ∧ p.tree.node.Smallest 2 3 r ∧
    p.tree.node.descendantForRange? 2 4 = none := by
  -- the run gives the range of the root, the rest follows from what holds of every tree
  have hrun : ((Config.start table none).doneAfter? table "bnz".toUTF8 5).map (fun r =>
      ((Tree.node ⟨⟨0, table⟩, r.1⟩).startByte, (Tree.node ⟨⟨0, table⟩, r.1⟩).endByte)) =
      some (0, 3) := by
    cbv
  obtain ⟨r, hr, hrun⟩ := Option.map_eq_some_iff.mp hrun
  simp only [Prod.mk.injEq] at hrun
  have hp := Language.parse_of_doneAfter? ⟨0, table⟩ "bnz" none hr
  have hsmallest := Language.descendantForRange_smallest (l := ⟨0, table⟩) table_grammar
    (.parsed (fun _ h => by cases h) hp) .root
  obtain ⟨m, hm, hfound⟩ := (hsmallest 2 3).1 (by decide) (by rw [hrun.1]; decide)
    (by rw [hrun.2])
  exact ⟨_, m, hp, hm, hfound, (hsmallest 2 4).2 (.inr (by rw [hrun.2]; decide))⟩

/-- At the end of its first token that token is found, although the node behind it is shorter. -/
theorem descendantForRange_larger : grammar.table = .ok table ∧ ∃ p r d,
    Language.parse ⟨0, table⟩ "bnz" none = some p ∧ p.tree.node.isVisible = true ∧
    p.tree.node.startByte ≤ 2 ∧ 2 ≤ p.tree.node.endByte ∧
    p.tree.node.descendantForRange? 2 2 = some r ∧ p.tree.node.Above d ∧ d.isVisible = true ∧
    d.spans 2 2 = true ∧ d.endByte - d.startByte < r.endByte - r.startByte := by
  -- the parse and both nodes, run by `cbv`
  have hrun : ((Config.start table none).doneAfter? table "bnz".toUTF8 5).bind (fun r =>
      ((Tree.node ⟨⟨0, table⟩, r.1⟩).descendantForRange? 2 2).bind fun m =>
        ((Tree.node ⟨⟨0, table⟩, r.1⟩).child? 1).map fun d =>
          ((Tree.node ⟨⟨0, table⟩, r.1⟩).isVisible, (Tree.node ⟨⟨0, table⟩, r.1⟩).startByte,
            (Tree.node ⟨⟨0, table⟩, r.1⟩).endByte, d.spans 2 2, d.endByte - d.startByte,
            m.endByte - m.startByte)) =
      some (true, 0, 3, true, 1, 2) := by
    cbv
  obtain ⟨r, hr, hrun⟩ := Option.bind_eq_some_iff.mp hrun
  obtain ⟨m, hm, hrun⟩ := Option.bind_eq_some_iff.mp hrun
  obtain ⟨d, hd, hrun⟩ := Option.map_eq_some_iff.mp hrun
  simp only [Prod.mk.injEq] at hrun
  obtain ⟨hvisible, hstart, hend, hspans, hd', hm'⟩ := hrun
  have hchild := List.mem_of_getElem? hd
  exact ⟨table_grammar, _, m, d, Language.parse_of_doneAfter? ⟨0, table⟩ "bnz" none hr,
    hvisible, by rw [hstart]; decide, by rw [hend]; decide, hm,
    .single (Node.mem_stored_of_mem_children hchild), Node.isVisible_of_mem_children hchild, hspans,
    by omega⟩

end Sunken

end IncrementalParsing
