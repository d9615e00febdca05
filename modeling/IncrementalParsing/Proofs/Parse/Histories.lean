import IncrementalParsing.Proofs.Parse.Coverage

/-!
# Trees and their texts

A tree belongs to a text if it was parsed from it, or belonged to an earlier text and was edited as the
text was.  `Language.TreeFor` says so; these are the trees that a parse of the text may be given.

## Key results

- `rootFits_of_treeFor`: the root of such a tree covers a part of the text from its start on
- `covers_start`: so does the parse that starts with it
-/

namespace IncrementalParsing

/-- The trees that belong to a text: those parsed from it, with or without an earlier tree, and those
that belonged to the text before it was edited by replacing a range. -/
inductive Language.TreeFor (l : Language) : (text : String) → Tree → Prop
  | parsed {text : String} {old : Option Tree} {p : Parsed}
      (hold : ∀ tree, old = some tree → TreeFor l text tree) (h : l.parse text old = some p) :
      TreeFor l text p.tree
  | edited {text text' : String} {tree : Tree} (start stop : Nat) (replacement : String)
      (h : TreeFor l text tree)
      (htext : text'.toUTF8 =
        (Edit.splice text.toUTF8 start stop replacement.toUTF8).apply text.toUTF8
          replacement.toUTF8) :
      TreeFor l text' (tree.edit (.splice text.toUTF8 start stop replacement.toUTF8))

open Subtree (FitAll Same)

variable {t : Table} {text text' : ByteArray}

/-- What a root consists of covers a part of the text from its start on, and the root goes on at least
as far. -/
structure RootFits (t : Table) (text : ByteArray) (root : Subtree) : Prop where
  padding : root.padding = .zero
  spans : ∃ j k, isBoundary text j = true ∧ root.size = .before text j ∧ k ≤ j ∧
    FitAll t text 0 k root.children

theorem RootCovers.fits {root : Subtree} (h : RootCovers t text root) : RootFits t text root := by
  obtain ⟨k, hk, hall, -⟩ := h.children
  exact ⟨h.padding, text.size, k, isBoundary_size text, by rw [h.size, Length.before_size],
    le_size_of_isBoundary hk, hall⟩

/-- An edit of a root. -/
theorem RootFits.edit {e : Edit} (he : e.Replaces text text') {root : Subtree}
    (h : RootFits t text root) : RootFits t text' (root.edit e .zero) := by
  obtain ⟨j, k, hj, hsize, hkj, hall⟩ := h.spans
  have hjsize := le_size_of_isBoundary hj
  have htotal : Length.zero + root.total = .before text j := by
    rw [Length.zero_add, Subtree.total, h.padding, Length.zero_add, hsize]
  -- the tree starts at the start of the text, which no edit moves
  have hzero : e.map .zero = .zero := by
    have := he.map_before (Nat.zero_le text.size)
    rwa [Length.before_zero, Edit.move_zero, Length.before_zero] at this
  cases haffects : e.affects .zero (Length.zero + root.total) root.lookahead with
  | false =>
    rw [Subtree.edit_of_not_affects haffects]
    rw [htotal] at haffects
    simp only [Edit.affects, Length.bytes_before hjsize, Length.bytes_zero, Nat.zero_le, decide_true,
      Bool.and_true, decide_eq_false_iff_not, Nat.not_lt] at haffects
    -- the edit lies behind all that the root spans
    have hmove : ∀ i, i ≤ j → e.move i = i := fun i hi => Edit.move_of_le (by omega)
    have hsame : Same text text' 0 0 k := by
      constructor
      · intro i _ hi hb
        have := he.isBoundary_move hb
        rw [hmove i (by omega)] at this
        simpa using this
      · intro i i' _ _ hi'
        simpa using he.extract_before (i := i) (show i' ≤ e.startByte by omega)
    refine ⟨h.padding, j, k, ?_, ?_, hkj, ?_⟩
    · have := he.isBoundary_move hj
      rwa [hmove j (Nat.le_refl _)] at this
    · rw [hsize, Length.before, Length.before, he.extract_before (by omega)]
    · simpa using Subtree.fitAll_same hsame (isBoundary_zero text) hall (by omega)
  -- the padding is empty before and after, so only the end is moved
  | true =>
    rw [Subtree.edit_of_affects haffects, htotal, h.padding, Length.zero_add, hzero]
    refine ⟨rfl, e.move j, e.move k, he.isBoundary_move hj, ?_, he.move_mono hkj, ?_⟩
    · have := Subtree.map_sub_map he (Nat.zero_le j) hjsize
      rwa [Length.before_zero, hzero, Edit.move_zero] at this
    · have := Subtree.fitAll_editAll (fun c _ => Subtree.fits_edit he c.1) hall
      rwa [Edit.move_zero, Length.before_zero] at this

/-- A parse that starts with an old root covers nothing yet. -/
theorem Config.covers_start {old : Option Subtree}
    (h : ∀ root, old = some root → RootFits t text root) : (start t old).Covers t text := by
  refine ⟨isBoundary_zero text, (Length.before_zero text).symm, rfl, (fun _ h => by cases h), ?_⟩
  cases old with
  | none =>
    intro p hp
    cases hp
  | some root =>
    obtain ⟨j, k, -, -, -, hall⟩ := (h root rfl).spans
    have := Walker.stands_placeAll hall
    rwa [Length.before_zero] at this

/-- A parse of a text that gives a result gives a tree that covers the text. -/
theorem Language.rootCovers_of_parse {l : Language} (ht : l.table.Checked)
    (hk : l.table.KeepsCharacters) (hf : l.table.KeepsFinish) {text : String} {old : Option Tree}
    {p : Parsed} (hold : ∀ tree, old = some tree → RootFits l.table text.toUTF8 tree.root)
    (h : l.parse text old = some p) : RootCovers l.table text.toUTF8 p.tree.root := by
  have hstart : (Config.start l.table (l.usable? old)).Covers l.table text.toUTF8 := by
    refine Config.covers_start fun root hroot => ?_
    obtain ⟨tree, htree, rfl⟩ := exists_of_usable? hroot
    exact hold tree htree
  obtain ⟨c, root, es, hcovers, hdone, rfl⟩ := invariant_of_parse h hstart fun c c' =>
    Config.covers_of_moves ht hk hf
  exact Config.rootCovers_of_done ht hk hf hcovers hdone

/-- The root of a tree that belongs to a text fits it. -/
theorem Language.rootFits_of_treeFor {l : Language} (ht : l.table.Checked)
    (hk : l.table.KeepsCharacters) (hf : l.table.KeepsFinish) {text : String} {tree : Tree}
    (h : l.TreeFor text tree) : RootFits l.table text.toUTF8 tree.root := by
  induction h with
  | parsed _ h ih => exact (rootCovers_of_parse ht hk hf ih h).fits
  | edited start stop replacement _ htext ih =>
    rw [htext]
    exact ih.edit (Edit.replaces_splice _ replacement start stop)

end IncrementalParsing
