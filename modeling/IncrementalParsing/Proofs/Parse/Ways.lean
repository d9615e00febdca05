import IncrementalParsing.Proofs.Parse.Placement
import IncrementalParsing.Proofs.Parse.WholeText
import IncrementalParsing.Proofs.Tree.Every
import Mathlib.Data.List.Lex

/-!
# Ways to the parts of a tree

A part of a tree is known by its way: which child to take, from the root down.  In the order of lists a
way stands before the ways on below it, and everything below it before the ways behind it, so that ways
are ordered like the parts that they lead to.

Where the children of all parts add up to them, a part begins where the leaves in front of it end.

## Key results

- `behind_concat_iff`: what stands behind a part begins with its next sibling
- `lt_concat_zero_iff`: what stands after the beginning of a part begins with its first child
- `start_of_follow`: the leaves in front of a part reach to its beginning
-/

namespace IncrementalParsing

/-! ## The order of ways -/

/-- A way leads to something that comes after a part and is not in it. -/
def Behind (way other : List Nat) : Prop := way < other ∧ ¬way <+: other

section

variable {way other : List Nat} {i : Nat}

/-- What is behind a part comes no earlier than its next sibling would. -/
theorem behind_concat_iff : Behind (way ++ [i]) other ↔ ¬other < way ++ [i + 1] := by
  unfold Behind
  -- the induction is on the way, along which the other one has to stay
  induction way generalizing other with
  | nil =>
    cases other with
    | nil => simp
    | cons j other =>
      simp only [List.nil_append, List.cons_lt_cons_iff, List.cons_prefix_cons, List.nil_prefix]
      simp
      omega
  | cons k way ih =>
    cases other with
    | nil => simp
    | cons j other =>
      simp only [List.cons_append, List.cons_lt_cons_iff, List.cons_prefix_cons]
      -- where the two part, their order is that of the numbers there
      rcases Nat.lt_trichotomy k j with h | rfl | h
      · simp [h, h.ne, h.ne', Nat.lt_asymm h]
      · simpa using ih
      · simp [h, h.ne, h.ne', Nat.lt_asymm h]

/-- What comes after the beginning of a part comes no earlier than its first child would. -/
theorem lt_concat_zero_iff : way < other ↔ ¬other < way ++ [0] := by
  induction way generalizing other with
  | nil =>
    cases other with
    | nil => simp
    | cons j other => simp [List.cons_lt_cons_iff]
  | cons k way ih =>
    cases other with
    | nil => simp
    | cons j other =>
      simp only [List.cons_append, List.cons_lt_cons_iff]
      -- the first step that differs decides
      rcases Nat.lt_trichotomy k j with h | rfl | h
      · simp [h, h.ne, h.ne', Nat.lt_asymm h]
      · simpa using ih
      · simp [h, h.ne, h.ne', Nat.lt_asymm h]

/-- What is not in a part comes before a child of it if it comes before the part. -/
theorem lt_concat_iff_of_apart (h : ¬way <+: other) : other < way ++ [i] ↔ other < way := by
  induction way generalizing other with
  | nil => exact absurd (List.nil_prefix) h
  | cons k way ih =>
    cases other with
    | nil => simp
    | cons j other =>
      rw [List.cons_prefix_cons, not_and] at h
      rw [List.cons_append, List.cons_lt_cons_iff, List.cons_lt_cons_iff]
      apply or_congr_right
      apply and_congr_right
      -- only where the ways agree so far do the rests count
      intro hjk
      exact ih (h hjk.symm)

/-- What is in a part comes before a place behind its last child, so that nothing stands between that
place and the next sibling of the part. -/
theorem lt_concat_iff_of_past {k len : Nat} (hlen : len ≤ i)
    (hother : ∀ j rest, other = (way ++ [k]) ++ j :: rest → j < len) :
    other < (way ++ [k]) ++ [i] ↔ other < way ++ [k + 1] := by
  -- the other way leads below the node, or it parts from this one before
  by_cases hprefix : way ++ [k] <+: other
  · have hnext : other < way ++ [k + 1] := by
      by_contra hnot
      exact (behind_concat_iff.mpr hnot).2 hprefix
    apply iff_of_true _ hnext
    obtain ⟨tail, rfl⟩ := hprefix
    apply List.append_left_lt
    cases tail with
    | nil => exact List.nil_lt_cons i []
    | cons j rest =>
      have hj := hother j rest rfl
      exact List.cons_lt_cons_iff.mpr (.inl (by omega))
  · rw [lt_concat_iff_of_apart hprefix, ← not_iff_not, ← behind_concat_iff]
    constructor
    · intro hnot
      have hne : way ++ [k] ≠ other := fun h => hprefix (h ▸ List.prefix_refl _)
      exact ⟨lt_of_le_of_ne (not_lt.mp hnot) hne, hprefix⟩
    · intro hbehind
      exact not_lt_of_gt hbehind.1

end

namespace Subtree

variable {n m : Subtree} {p q : Length × Subtree} {way way' : List Nat} {i : Nat}

/-! ## Following a way -/

/-- What a way leads to from a part at its place, with where its padding begins. -/
def follow (p : Length × Subtree) : List Nat → Option (Length × Subtree)
  | [] => some p
  | i :: way => (p.2.placed p.1)[i]?.bind fun q => follow q way

theorem follow_append : follow p (way ++ way') = (follow p way).bind fun q => follow q way' := by
  induction way generalizing p with
  | nil => rfl
  | cons i way ih =>
    rw [List.cons_append, follow, follow, Option.bind_assoc]
    simp only [ih]

theorem follow_concat : follow p (way ++ [i]) = (follow p way).bind fun q => (q.2.placed q.1)[i]? := by
  rw [follow_append]
  congr
  funext q
  rw [follow]
  cases (q.2.placed q.1)[i]? <;> rfl

/-- A child begins behind those before it. -/
theorem getElem?_placed (n : Subtree) (position : Length) (i : Nat) :
    (n.placed position)[i]? =
      (n.children[i]?).map fun c => (position + totalAll (n.children.take i), c.1) := by
  rw [placed]
  generalize n.children = children
  -- each child is placed behind those before it
  induction children generalizing position i with
  | nil => rfl
  | cons c rest ih =>
    cases i with
    | zero => simp [placeAll, totalAll]
    | succ i =>
      rw [placeAll, List.getElem?_cons_succ, ih, List.getElem?_cons_succ, List.take_succ_cons, totalAll,
        Length.add_assoc]

/-- What holds throughout of all children holds throughout of what a way leads to below them. -/
theorem every_of_follow {P : Subtree → Prop} (hp : ∀ c ∈ p.2.children, c.1.Every P)
    (h : follow p way = some q) (hway : way ≠ []) : q.2.Every P := by
  induction way generalizing p with
  | nil => exact absurd rfl hway
  | cons i way ih =>
    rw [follow, getElem?_placed] at h
    obtain ⟨child, hchild, hrest⟩ := Option.bind_eq_some_iff.mp h
    obtain ⟨c, hc, rfl⟩ := Option.map_eq_some_iff.mp hchild
    have hevery := hp c (List.mem_of_getElem? hc)
    -- the way has one step left, or goes on below the child
    cases way with
    | nil =>
      cases hrest
      exact hevery
    | cons j way => exact ih hevery.child hrest (List.cons_ne_nil _ _)

/-! ## The leaves in front of a part -/

mutual

/-- The lengths of the leaves of a part, with their padding, in order. -/
def leafLengths : Subtree → List Length
  | ⟨_, padding, size, [], _, _, _, _, _, _, _⟩ => [padding + size]
  | ⟨_, _, _, c :: rest, _, _, _, _, _, _, _⟩ => leafLengthsAll (c :: rest)

def leafLengthsAll : List (Subtree × Option FieldId) → List Length
  | [] => []
  | (n, _) :: rest => n.leafLengths ++ leafLengthsAll rest

end

/-- The lengths of the leaves in front of what a way leads to. -/
def leafLengthsBefore (n : Subtree) : List Nat → List Length
  | [] => []
  | i :: way =>
    leafLengthsAll (n.children.take i) ++
      ((n.children[i]?).map fun c => c.1.leafLengthsBefore way).getD []

/-- The children of a part, if it has any, cover exactly the part with its padding. -/
def Tiled (n : Subtree) : Prop := n.children ≠ [] → totalAll n.children = n.total

theorem sum_append (a b : List Length) : Length.sum (a ++ b) = Length.sum a + Length.sum b := by
  induction a with
  | nil => exact (Length.zero_add _).symm
  | cons l rest ih => rw [List.cons_append, sum_cons, sum_cons, ih, Length.add_assoc]

/-- The leaves of tiled parts that follow each other reach as far as the parts. -/
theorem sum_leafLengthsAll {children : List (Subtree × Option FieldId)}
    (h : ∀ c ∈ children, Length.sum c.1.leafLengths = c.1.total) :
    Length.sum (leafLengthsAll children) = totalAll children := by
  induction children with
  | nil => rfl
  | cons c rest ih =>
    obtain ⟨hc, hrest⟩ := List.forall_mem_cons.mp h
    rw [leafLengthsAll, sum_append, hc, ih hrest, totalAll]

/-- The leaves of a tiled part reach as far as the part. -/
theorem sum_leafLengths (h : n.Every Tiled) : Length.sum n.leafLengths = n.total := by
  induction h with
  | @mk n self _ ih =>
    obtain ⟨symbol, padding, size, children, _⟩ := n
    cases children with
    | nil => exact Length.zero_add _
    | cons c rest =>
      rw [leafLengths, sum_leafLengthsAll ih]
      exact self (List.cons_ne_nil _ _)

/-- Where everything is tiled, what a way leads to begins where the leaves in front of it end. -/
theorem start_of_follow (hn : ∀ c ∈ n.children, c.1.Every Tiled) {position start : Length}
    (h : follow (position, n) way = some (start, m)) :
    start = position + Length.sum (n.leafLengthsBefore way) := by
  induction way generalizing n position with
  | nil =>
    cases h
    exact (Length.add_zero _).symm
  | cons i way ih =>
    rw [follow, getElem?_placed] at h
    obtain ⟨child, hchild, hrest⟩ := Option.bind_eq_some_iff.mp h
    obtain ⟨c, hc, rfl⟩ := Option.map_eq_some_iff.mp hchild
    -- what comes before on this level is made of its leaves
    have hbefore : ∀ c ∈ n.children.take i, Length.sum c.1.leafLengths = c.1.total :=
      fun c hc => sum_leafLengths (hn c (List.mem_of_mem_take hc))
    rw [ih (hn c (List.mem_of_getElem? hc)).child hrest, leafLengthsBefore, sum_append,
      sum_leafLengthsAll hbefore, hc, Length.add_assoc]
    rfl

end Subtree

end IncrementalParsing
