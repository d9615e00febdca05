import IncrementalParsing.Proofs.Parse.Ways

/-!
# Walking through an old tree level by level

A walker that does not list what it has not passed, but keeps a level for each part that it has gone
into: the list of siblings, how many of them have been passed, and where the next begins.  A part that
has been gone into counts as passed only when the walker climbs out of it, which can end several lists
at once; then its total is added to where it began.

`Levels.listed` reads off what has not been passed, so each move is one of a `Walker`.

## Key results

- `listed_advance`, `listed_of_descend?`: moving passes a part, or puts its children in its place
- `Standing.follow_way`: what a walker stands at is where it says
- `Standing.lt_way_climb`, `Standing.position_climb`: climbing passes nothing that is stored, and nothing
  of the text
- `Standing.behind_iff`, `Standing.onward`: what the moves pass
-/

namespace IncrementalParsing

open Subtree (follow totalAll placeAll Tiled)

/-- How far a walker is in a list of siblings. -/
structure Level where
  siblings : List (Subtree × Option FieldId)
  /-- How many of them have been passed. -/
  index : Nat
  /-- Where the padding of the next one begins. -/
  position : Length

namespace Level

/-- The next sibling with where its padding begins. -/
def current? (f : Level) : Option (Length × Subtree) :=
  (f.siblings[f.index]?).map fun c => (f.position, c.1)

/-- Passes the next sibling. -/
def pass (f : Level) : Level :=
  match f.siblings[f.index]? with
  | some c => ⟨f.siblings, f.index + 1, f.position + c.1.total⟩
  | none => f

/-- The siblings that have not been passed. -/
def listed (f : Level) : Walker := placeAll f.position (f.siblings.drop f.index)

end Level

/-- A walker through an old tree: the list that it is in and those around it, the innermost first. -/
abbrev Levels := List Level

namespace Levels

/-- The walker before a tree whose root is not used again itself. -/
def start (root : Subtree) : Levels := [⟨root.children, 0, .zero⟩]

/-- The part that the walker stands at, with where its padding begins. -/
def current? (fs : Levels) : Option (Length × Subtree) := fs.head?.bind Level.current?

/-- The way from the root to the part that the walker stands at. -/
def way (fs : Levels) : List Nat := (fs.map Level.index).reverse

/-- Leaves the lists in which everything has been passed, and passes what they are in. -/
def climb (f : Level) : List Level → Levels
  | [] => [f]
  | parent :: outer =>
    if f.index < f.siblings.length then f :: parent :: outer else climb parent.pass outer

/-- Passes the part that the walker stands at. -/
def advance : Levels → Levels
  | [] => []
  | f :: outer => climb f.pass outer

/-- Goes into the part that the walker stands at, if it has children. -/
def descend? (fs : Levels) : Option Levels :=
  fs.current?.bind fun (position, n) =>
    if n.children.isEmpty then none else some (⟨n.children, 0, position⟩ :: fs)

/-- Everything that has not been passed.  What a list is in counts as passed. -/
def listed : Levels → Walker
  | [] => []
  | f :: outer => f.listed ++ outer.flatMap fun g => g.pass.listed

end Levels

/-! ## What has not been passed -/

namespace Level

variable {f : Level} {p : Length × Subtree}

/-- Where a level stands at a part, it has not passed all of them, -/
theorem lt_of_current? (h : f.current? = some p) : f.index < f.siblings.length := by
  obtain ⟨c, hc, -⟩ := Option.map_eq_some_iff.mp h
  exact (List.getElem?_eq_some_iff.mp hc).1

/-- and where it stands at none, it has. -/
theorem le_of_current? (h : f.current? = none) : f.siblings.length ≤ f.index :=
  List.getElem?_eq_none_iff.mp (Option.map_eq_none_iff.mp h)

/-- Passing a part goes on behind it. -/
theorem pass_of_current? (h : f.current? = some p) :
    f.pass = ⟨f.siblings, f.index + 1, f.position + p.2.total⟩ := by
  obtain ⟨c, hc, rfl⟩ := Option.map_eq_some_iff.mp h
  rw [pass, hc]

/-- The part at which a level stands is the first of those that it lists. -/
theorem listed_of_current? (h : f.current? = some p) : f.listed = p :: f.pass.listed := by
  obtain ⟨c, hc, rfl⟩ := Option.map_eq_some_iff.mp h
  obtain ⟨hlt, rfl⟩ := List.getElem?_eq_some_iff.mp hc
  rw [pass_of_current? h, listed, listed, List.drop_eq_getElem_cons hlt]
  rfl

/-- Behind its last part a level lists nothing. -/
theorem listed_of_le (h : f.siblings.length ≤ f.index) : f.listed = [] := by
  rw [listed, List.drop_eq_nil_of_le h]
  rfl

end Level

namespace Levels

variable {fs after : Levels} {f : Level} {outer : List Level} {p : Length × Subtree}

/-- Leaving a list in which everything has been passed does not pass anything else. -/
theorem listed_climb (f : Level) (outer : List Level) : (climb f outer).listed = listed (f :: outer) := by
  induction outer generalizing f with
  | nil => rfl
  | cons parent outer ih =>
    rw [climb]
    split
    · rfl
    · rename_i hfinished
      rw [ih, listed, listed, Level.listed_of_le (Nat.le_of_not_lt hfinished)]
      rfl

/-- So it is with a walk. -/
theorem listed_of_current? (h : fs.current? = some p) : fs.listed = p :: fs.advance.listed := by
  cases fs with
  | nil => cases h
  | cons f outer =>
    rw [advance, listed_climb, listed, listed, Level.listed_of_current? h]
    rfl

/-- What it takes to go into a part. -/
theorem descend?_eq_some_iff (hp : fs.current? = some p) : fs.descend? = some after ↔
    p.2.children ≠ [] ∧ after = ⟨p.2.children, 0, p.1⟩ :: fs := by
  obtain ⟨position, n⟩ := p
  rw [descend?, hp, Option.bind_some]
  dsimp only
  split
  · rename_i hleaf
    exact iff_of_false (by simp) fun h => h.1 (List.isEmpty_iff.mp hleaf)
  · rename_i hinner
    rw [Option.some_inj]
    exact ⟨fun h => ⟨fun hleaf => hinner (List.isEmpty_iff.mpr hleaf), h.symm⟩, fun h => h.2.symm⟩

/-- Only what has no children cannot be gone into. -/
theorem descend?_eq_none_iff (hp : fs.current? = some p) :
    fs.descend? = none ↔ p.2.children = [] := by
  rw [← not_iff_not, ← ne_eq, ← Option.isSome_iff_ne_none, Option.isSome_iff_exists]
  simp [descend?_eq_some_iff hp]

/-- Going into a part puts its children in its place. -/
theorem listed_of_descend? (hp : fs.current? = some p) (h : fs.descend? = some after) :
    after.listed = p.2.placed p.1 ++ fs.advance.listed := by
  obtain ⟨-, rfl⟩ := (descend?_eq_some_iff hp).mp h
  cases fs with
  | nil => cases hp
  | cons f outer =>
    rw [listed, List.flatMap_cons, advance, listed_climb, listed]
    rfl

/-- Going into a part, or passing one that cannot be gone into, puts its children in its place. -/
theorem listed_descend (hp : fs.current? = some p) :
    (fs.descend?.getD fs.advance).listed = p.2.placed p.1 ++ fs.advance.listed := by
  cases h : fs.descend? with
  | some after => exact listed_of_descend? hp h
  | none =>
    rw [Subtree.placed, (descend?_eq_none_iff hp).mp h]
    rfl

/-- Every move leaves less to be passed. -/
theorem weight_advance_lt (hp : fs.current? = some p) :
    fs.advance.listed.weight < fs.listed.weight := by
  have hpos := Walker.weight_placed p.2 p.1
  rw [listed_of_current? hp, Walker.weight_cons]
  omega

/-- Going into a part or past it leaves less. -/
theorem weight_descend_lt (hp : fs.current? = some p) :
    (fs.descend?.getD fs.advance).listed.weight < fs.listed.weight := by
  have hplaced := Walker.weight_placed p.2 p.1
  rw [listed_descend hp, listed_of_current? hp, Walker.weight_cons, Walker.weight_append]
  omega

/-! ## Where a walker stands -/

/-- The lists that a walker is in lie in each other, down from the children of the root, and each begins
behind what has been passed in it. -/
inductive Standing (root : Subtree) : Levels → Prop
  | outermost {f : Level} (hlist : f.siblings = root.children) (hindex : f.index ≤ f.siblings.length)
      (hposition : f.position = totalAll (f.siblings.take f.index)) : Standing root [f]
  | inner {f g : Level} {outer : List Level} {p : Length × Subtree} (h : Standing root (g :: outer))
      (hp : g.current? = some p) (hlist : f.siblings = p.2.children) (hne : p.2.children ≠ [])
      (hindex : f.index ≤ f.siblings.length)
      (hposition : f.position = p.1 + totalAll (f.siblings.take f.index)) :
      Standing root (f :: g :: outer)

/-- The walker has climbed out of all lists in which everything has been passed. -/
def Settled : Levels → Prop
  | [] => False
  | f :: outer => f.index < f.siblings.length ∨ outer = []

variable {root : Subtree}

/-- At the beginning the levels stand in the root. -/
theorem standing_start (root : Subtree) : Standing root (start root) :=
  .outermost rfl (Nat.zero_le _) rfl

/-- They stand at its first child, or at the end if there is none. -/
theorem settled_start (root : Subtree) : (start root).Settled := .inr rfl

/-- What has been passed in a list reaches to the next sibling. -/
theorem totalAll_take_succ {f : Level} (h : f.current? = some p) (position : Length) :
    position + totalAll (f.siblings.take f.index) + p.2.total =
      position + totalAll (f.siblings.take (f.index + 1)) := by
  obtain ⟨c, hc, rfl⟩ := Option.map_eq_some_iff.mp h
  rw [List.take_add_one, hc, Subtree.totalAll_append, Length.add_assoc, Option.toList_some,
    totalAll, totalAll, Length.add_zero]

/-- Passing a part keeps the place of the levels in the tree. -/
theorem Standing.pass (h : Standing root (f :: outer)) : Standing root (f.pass :: outer) := by
  -- past the last part there is nothing to pass
  cases hf : f.current? with
  | none =>
    obtain hnone := Option.map_eq_none_iff.mp hf
    rw [Level.pass, hnone]
    exact h
  | some p =>
    rw [Level.pass_of_current? hf]
    have hlt := Level.lt_of_current? hf
    -- what has been passed is one part longer, in the outermost row as in the others
    cases h with
    | outermost hlist hindex hposition =>
      refine .outermost hlist hlt ?_
      have htake := totalAll_take_succ hf .zero
      rwa [Length.zero_add, Length.zero_add, ← hposition] at htake
    | inner h hp hlist hne hindex hposition =>
      refine .inner h hp hlist hne hlt ?_
      rw [hposition]
      exact totalAll_take_succ hf _

/-- So does leaving the levels that are at their end, -/
theorem Standing.climb (h : Standing root (f :: outer)) : Standing root (climb f outer) := by
  induction outer generalizing f with
  | nil => exact h
  | cons parent outer ih =>
    rw [Levels.climb]
    split
    · exact h
    · cases h with
      | inner h => exact ih h.pass

/-- after which they stand at a part, or at the end of all. -/
theorem settled_climb (f : Level) (outer : List Level) : (climb f outer).Settled := by
  induction outer generalizing f with
  | nil => exact .inr rfl
  | cons parent outer ih =>
    rw [climb]
    split
    · rename_i hlt
      exact .inl hlt
    · exact ih parent.pass

/-- To advance is to pass and to climb, so the levels keep their place, -/
theorem Standing.advance (h : Standing root fs) : Standing root fs.advance := by
  cases fs with
  | nil => cases h
  | cons f outer => exact h.pass.climb

/-- and stand at a part or at the end. -/
theorem Settled.advance (h : fs.Settled) : fs.advance.Settled := by
  cases fs with
  | nil => cases h
  | cons f outer => exact settled_climb f.pass outer

/-- Going into a part keeps the place as well, -/
theorem Standing.descend (h : Standing root fs) (hp : fs.current? = some p)
    (hafter : fs.descend? = some after) : Standing root after := by
  obtain ⟨hne, rfl⟩ := (descend?_eq_some_iff hp).mp hafter
  cases fs with
  | nil => cases hp
  | cons f outer => exact .inner h hp rfl hne (Nat.zero_le _) (Length.add_zero _).symm

/-- and the first child is a part to stand at. -/
theorem settled_descend (hp : fs.current? = some p) (hafter : fs.descend? = some after) :
    after.Settled := by
  obtain ⟨hne, rfl⟩ := (descend?_eq_some_iff hp).mp hafter
  exact .inl (List.length_pos_iff.mpr hne)

/-- The innermost index is the last step of the way. -/
theorem way_cons (f : Level) (outer : List Level) : way (f :: outer) = way outer ++ [f.index] := by
  rw [way, List.map_cons, List.reverse_cons]
  rfl

/-- The walker stands at what its way leads to, and knows where that begins. -/
theorem Standing.follow_way (h : Standing root fs) (hp : fs.current? = some p) :
    follow (.zero, root) fs.way = some p := by
  induction h generalizing p with
  | @outermost f hlist _ hposition =>
    obtain ⟨c, hc, rfl⟩ := Option.map_eq_some_iff.mp hp
    rw [way_cons, Subtree.follow_concat, way]
    change (root.placed .zero)[f.index]? = _
    rw [Subtree.getElem?_placed, ← hlist, hc, hposition, Length.zero_add]
    rfl
  -- the way leads to the node around, and one step further
  | @inner f g outer q h hq hlist _ _ hposition ih =>
    obtain ⟨c, hc, rfl⟩ := Option.map_eq_some_iff.mp hp
    rw [way_cons, Subtree.follow_concat, ih hq, Option.bind_some, Subtree.getElem?_placed, ← hlist, hc,
      hposition]
    rfl

/-- The way to what the innermost list is in leads to what the list consists of. -/
theorem Standing.exists_follow (h : Standing root (f :: outer)) :
    ∃ q, follow (.zero, root) (way outer) = some q ∧ f.siblings = q.2.children := by
  cases h with
  | outermost hlist => exact ⟨(.zero, root), rfl, hlist⟩
  | inner h hp hlist => exact ⟨_, h.follow_way hp, hlist⟩

/-- What is stored in the part that a list belongs to begins with one of its siblings. -/
theorem Standing.lt_length_of_follow (h : Standing root (f :: outer)) {j : Nat} {rest : List Nat}
    (hway : (follow (.zero, root) (way outer ++ j :: rest)).isSome) : j < f.siblings.length := by
  obtain ⟨q, hq, hlist⟩ := h.exists_follow
  rw [Subtree.follow_append, hq, Option.bind_some, follow, Subtree.getElem?_placed, ← hlist] at hway
  by_contra hge
  rw [List.getElem?_eq_none (Nat.le_of_not_lt hge)] at hway
  cases hway

/-- Climbing passes nothing that is stored. -/
theorem Standing.lt_way_climb (h : Standing root (f :: outer)) {other : List Nat}
    (hother : (follow (.zero, root) other).isSome) :
    other < way (Levels.climb f outer) ↔ other < way (f :: outer) := by
  -- the induction is on the levels outside, as each may be finished in turn
  induction outer generalizing f with
  | nil => rfl
  | cons parent outer ih =>
    rw [Levels.climb]
    split
    · rfl
    · rename_i hfinished
      -- a way into the finished row ends at one of its parts, which all are passed
      have hlength : ∀ j rest, other = (way outer ++ [parent.index]) ++ j :: rest →
          j < f.siblings.length := by
        rintro j rest rfl
        rw [← way_cons] at hother
        exact h.lt_length_of_follow hother
      cases h with
      | inner h hp =>
        rw [ih h.pass, way_cons, way_cons f, way_cons parent, Level.pass_of_current? hp]
        exact (lt_concat_iff_of_past (Nat.le_of_not_lt hfinished) hlength).symm

/-- Climbing passes nothing of the text, since the children of a part end where it does. -/
theorem Standing.position_climb (hroot : ∀ c ∈ root.children, c.1.Every Tiled)
    (h : Standing root (f :: outer)) :
    ((Levels.climb f outer).head?.map Level.position) = some f.position := by
  induction outer generalizing f with
  | nil => rfl
  | cons parent outer ih =>
    rw [Levels.climb]
    split
    · rfl
    -- the parts of a finished row take up what the node around it does
    · rename_i hfinished
      cases h with
      | @inner _ _ _ p h hp hlist hne hindex hposition =>
        rw [ih h.pass, Level.pass_of_current? hp, hposition,
          List.take_of_length_le (Nat.le_of_not_lt hfinished), hlist]
        have hway : way (parent :: outer) ≠ [] := by simp [way]
        have htiled := (Subtree.every_of_follow hroot (h.follow_way hp) hway).self
        obtain ⟨c, -, rfl⟩ := Option.map_eq_some_iff.mp hp
        rw [htiled hne]

/-- Where a walker has come to the end there is nothing left. -/
theorem Standing.lt_way_of_end (h : Standing root fs) (hsettled : fs.Settled)
    (hend : fs.current? = none) {other : List Nat} (hother : (follow (.zero, root) other).isSome) :
    other < fs.way := by
  cases fs with
  | nil => cases h
  | cons f outer =>
    have hle := Level.le_of_current? hend
    -- a settled walk has run out only where its outermost level has
    obtain hlt | rfl := hsettled
    · omega
    · rw [way_cons]
      cases other with
      | nil => exact List.nil_lt_cons _ _
      | cons j rest =>
        have hj : j < f.siblings.length := h.lt_length_of_follow hother
        exact List.cons_lt_cons_iff.mpr (.inl (by omega))

/-- Levels that stand at no part list nothing. -/
theorem Settled.listed_of_end (h : fs.Settled) (hend : fs.current? = none) : fs.listed = [] := by
  cases fs with
  | nil => rfl
  | cons f outer =>
    have hle := Level.le_of_current? hend
    obtain hlt | rfl := h
    · omega
    · rw [listed, Level.listed_of_le hle]
      rfl

/-! ## Moving on -/

/-- Passing a part passes what is stored in it and nothing else. -/
theorem Standing.behind_iff (h : Standing root fs) (hp : fs.current? = some p) {other : List Nat}
    (hother : (follow (.zero, root) other).isSome) :
    Behind fs.way other ↔ ¬other < fs.advance.way := by
  cases fs with
  | nil => cases hp
  | cons f outer =>
    rw [Levels.advance, h.pass.lt_way_climb hother, way_cons, way_cons, Level.pass_of_current? hp]
    exact behind_concat_iff

/-- Behind a part the walker stands where that ends. -/
theorem Standing.position_advance (hroot : ∀ c ∈ root.children, c.1.Every Tiled) (h : Standing root fs)
    (hp : fs.current? = some p) {q : Length × Subtree} (hq : fs.advance.current? = some q) :
    q.1 = p.1 + p.2.total := by
  cases fs with
  | nil => cases hp
  | cons f outer =>
    -- the next node starts where the passed one has ended, also one level up
    have hposition := h.pass.position_climb hroot
    rw [Level.pass_of_current? (show f.current? = some p from hp)] at hposition
    obtain ⟨c, -, rfl⟩ := Option.map_eq_some_iff.mp (show f.current? = some p from hp)
    obtain ⟨g, hg, hcurrent⟩ := Option.bind_eq_some_iff.mp hq
    rw [Levels.advance, Level.pass_of_current? (show f.current? = some _ from hp)] at hg
    rw [hg] at hposition
    obtain ⟨d, -, rfl⟩ := Option.map_eq_some_iff.mp hcurrent
    exact Option.some.inj hposition

/-- Going into a part passes nothing but its beginning. -/
theorem way_descend (hp : fs.current? = some p) (hafter : fs.descend? = some after) :
    after.way = fs.way ++ [0] := by
  obtain ⟨-, rfl⟩ := (descend?_eq_some_iff hp).mp hafter
  exact way_cons _ _

/-- Where the walker goes on behind a part that it does not pass as a whole. -/
theorem Standing.onward (h : Standing root fs) (hsettled : fs.Settled) (hp : fs.current? = some p)
    (hafter : after = fs.advance ∨ after = fs.descend?.getD fs.advance) :
    Standing root after ∧ after.Settled ∧
      ∀ other, (follow (.zero, root) other).isSome → ¬fs.way < other → other < after.way := by
  -- what is not behind the node is before it or below it
  have hpassed : ∀ other, (follow (.zero, root) other).isSome → ¬fs.way < other →
      other < fs.advance.way := by
    intro other hother hnot
    by_contra hle
    exact hnot ((h.behind_iff hp hother).mpr hle).1
  -- going down passes only the node itself
  obtain rfl | rfl := hafter
  · exact ⟨h.advance, hsettled.advance, hpassed⟩
  · cases hdescend : fs.descend? with
    | none => exact ⟨h.advance, hsettled.advance, hpassed⟩
    | some after =>
      refine ⟨h.descend hp hdescend, settled_descend hp hdescend, fun other hother hnot => ?_⟩
      rw [Option.getD_some, way_descend hp hdescend]
      by_contra hle
      exact hnot (lt_concat_zero_iff.mpr hle)

end Levels

end IncrementalParsing
