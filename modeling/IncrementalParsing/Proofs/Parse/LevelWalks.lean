import IncrementalParsing.Proofs.Parse.Levels

/-!
# Walks and searches level by level

However its moves are mixed, a walker through an old tree stands at what it says it stands at, goes
forward with every move and comes to an end.  A search is made of such moves; it finds what
`Walker.next` finds, and over all searches in one tree each part is found at most once, and nothing in
it afterwards.

## Key results

- `search_finds`: a search ends and finds what begins at the place
- `Session.once`: what searches one after the other find
- `keepsPlace_of_tiled`: a walker keeps its place in every tree whose parts are tiled
-/

namespace IncrementalParsing

open Subtree (follow Tiled)

/-- What a search finds: a part, the way to it and where its padding begins. -/
structure Offer where
  way : List Nat
  start : Length
  part : Subtree

/-- What one round of a search comes to. -/
inductive Round where
  | found (offer : Offer) (after : Levels)
  | absent
  | moved (after : Levels)

namespace Levels

/-- One round of a search for a part that can be used at a place in a state. -/
def look (t : Table) (state : StateId) (place : Nat) (fs : Levels) : Round :=
  match fs.current? with
  | none => .absent
  | some (start, n) =>
    if start.bytes < place ∨ n.total.bytes = 0 then
      if start.bytes < place ∧ place < start.bytes + n.total.bytes then
        .moved (fs.descend?.getD fs.advance)
      else .moved fs.advance
    else if place < start.bytes then .absent
    else if n.isReusable t state then .found ⟨fs.way, start, n⟩ fs.advance
    else .moved (fs.descend?.getD fs.advance)

/-- A search, which has no result if it takes more than a number of rounds. -/
def search (t : Table) (state : StateId) (place : Nat) : (rounds : Nat) → Levels →
    Option (Option Offer × Levels)
  | 0, _ => none
  | rounds + 1, fs =>
    match fs.look t state place with
    | .found offer after => some (some offer, after)
    | .absent => some (none, fs)
    | .moved after => search t state place rounds after

variable {t : Table} {root : Subtree} {state : StateId} {place : Nat} {fs after : Levels}
  {p : Length × Subtree}

/-! ## Searching -/

/-- What a round comes to where the walker stands at a part: the part begins at the place and can be
used, it begins later, or the walker moves on; and a `Walker` comes to the same. -/
theorem look_cases (t : Table) (state : StateId) (place : Nat) (hp : fs.current? = some p) :
    (fs.look t state place = .found ⟨fs.way, p.1, p.2⟩ fs.advance ∧ p.1.bytes = place ∧
        p.2.isReusable t state = true ∧
        Walker.next t state place fs.listed = (some p.2, fs.advance.listed)) ∨
      (fs.look t state place = .absent ∧
        Walker.next t state place fs.listed = (none, fs.listed)) ∨
      ∃ after, fs.look t state place = .moved after ∧
        (after = fs.advance ∨ after = fs.descend?.getD fs.advance) ∧
        Walker.next t state place fs.listed = Walker.next t state place after.listed := by
  obtain ⟨start, n⟩ := p
  have hlisted := listed_of_current? hp
  have hinto := listed_descend hp
  rw [look, hp, hlisted]
  dsimp only at hinto ⊢
  rw [Walker.next]
  -- the cases are those in which the walker looks at the part it has reached
  by_cases hbefore : start.bytes < place
  · by_cases hacross : place < start.bytes + n.total.bytes
    · rw [if_pos (.inl hbefore), if_pos ⟨hbefore, hacross⟩, if_pos hbefore, if_pos hacross, ← hinto]
      exact .inr (.inr ⟨_, rfl, .inr rfl, rfl⟩)
    · rw [if_pos (.inl hbefore), if_neg (fun h => hacross h.2), if_pos hbefore, if_neg hacross]
      exact .inr (.inr ⟨_, rfl, .inl rfl, rfl⟩)
  · by_cases hempty : n.total.bytes = 0
    · rw [if_pos (.inr hempty), if_neg (fun h => hbefore h.1), if_neg hbefore, if_pos hempty]
      exact .inr (.inr ⟨_, rfl, .inl rfl, rfl⟩)
    · rw [if_neg (not_or.mpr ⟨hbefore, hempty⟩), if_neg hbefore, if_neg hempty]
      by_cases hlater : place < start.bytes
      · rw [if_pos hlater, if_pos hlater]
        exact .inr (.inl ⟨rfl, rfl⟩)
      · rw [if_neg hlater, if_neg hlater]
        by_cases hreusable : n.isReusable t state = true
        · rw [if_pos hreusable, if_pos hreusable]
          exact .inl ⟨rfl, by omega, hreusable, rfl⟩
        · rw [if_neg hreusable, if_neg hreusable, ← hinto]
          exact .inr (.inr ⟨_, rfl, .inr rfl, rfl⟩)

/-- What a search comes to: it has not gone back, and what it offers begins at the place and is passed
with everything in it. -/
structure Finds (t : Table) (root : Subtree) (state : StateId) (place : Nat) (fs : Levels)
    (found : Option Offer) (after : Levels) : Prop where
  standing : Standing root after
  settled : after.Settled
  less : after.listed.weight ≤ fs.listed.weight
  onward : ∀ other, (follow (.zero, root) other).isSome → other < fs.way → other < after.way
  offered : ∀ offer, found = some offer →
    follow (.zero, root) offer.way = some (offer.start, offer.part) ∧ offer.start.bytes = place ∧
      offer.part.isReusable t state = true ∧ ¬offer.way < fs.way ∧
      ∀ other, (follow (.zero, root) other).isSome → (Behind offer.way other ↔ ¬other < after.way)
  next : Walker.next t state place fs.listed = (found.map Offer.part, after.listed)

/-- A search within a number of rounds that is greater than the number of parts left has a result. -/
theorem search_finds (t : Table) (state : StateId) (place : Nat) {rounds : Nat}
    (h : Standing root fs) (hsettled : fs.Settled) (hrounds : fs.listed.weight < rounds) :
    ∃ found after, search t state place rounds fs = some (found, after) ∧
      Finds t root state place fs found after := by
  -- every round leaves less to be passed
  induction rounds generalizing fs with
  | zero => omega
  | succ rounds ih =>
    rw [search]
    cases hp : fs.current? with
    | none =>
      have hlisted := hsettled.listed_of_end hp
      refine ⟨none, fs, ?_, h, hsettled, le_refl _, fun _ _ hlt => hlt,
        (fun offer hoffer => by cases hoffer), ?_⟩
      · rw [look, hp]
      · rw [hlisted, Walker.next]
        rfl
    | some p =>
      -- the part is given away, lies further on, or is passed or opened up
      obtain ⟨hlook, hplace, hreusable, hnext⟩ | ⟨hlook, hnext⟩ | ⟨after, hlook, hafter, hnext⟩ :=
        look_cases t state place hp
      · rw [hlook]
        obtain ⟨hstanding', hsettled', hforward⟩ := h.onward hsettled hp (.inl rfl)
        refine ⟨_, _, rfl, hstanding', hsettled', (weight_advance_lt hp).le, fun other hother hlt => ?_,
          fun offer hoffer => ?_, hnext⟩
        · exact hforward other hother (not_lt_of_gt hlt)
        · cases hoffer
          exact ⟨h.follow_way hp, hplace, hreusable, lt_irrefl _, fun other hother =>
            h.behind_iff hp hother⟩
      · rw [hlook]
        exact ⟨_, _, rfl, h, hsettled, le_refl _, fun _ _ hlt => hlt,
          (fun offer hoffer => by cases hoffer), hnext⟩
      · rw [hlook]
        obtain ⟨hstanding', hsettled', hforward⟩ := h.onward hsettled hp hafter
        have hless : after.listed.weight < fs.listed.weight := by
          obtain rfl | rfl := hafter
          · exact weight_advance_lt hp
          · exact weight_descend_lt hp
        obtain ⟨found, last, hsearch, hfinds⟩ := ih hstanding' hsettled' (by omega)
        have honward : ∀ other, (follow (.zero, root) other).isSome → other < fs.way →
            other < after.way := fun other hother hlt => hforward other hother (not_lt_of_gt hlt)
        refine ⟨found, last, hsearch, hfinds.standing, hfinds.settled, hfinds.less.trans hless.le,
          fun other hother hlt => ?_, fun offer hoffer => ?_, hnext.trans hfinds.next⟩
        · exact hfinds.onward other hother (honward other hother hlt)
        · obtain ⟨hfollow, hstart, hreusable, hnot, hbehind⟩ := hfinds.offered offer hoffer
          refine ⟨hfollow, hstart, hreusable, fun hlt => hnot (honward _ ?_ hlt), hbehind⟩
          rw [hfollow]
          rfl

/-! ## Searches one after the other -/

/-- What searches one after the other in a tree have found, in any states and for any places, and where
they have left the walker. -/
inductive Session (t : Table) (root : Subtree) : List Offer → Levels → Prop
  | start : Session t root [] (start root)
  | search {offers : List Offer} {fs after : Levels} {found : Option Offer} {state : StateId}
      {place rounds : Nat} (h : Session t root offers fs)
      (hsearch : search t state place rounds fs = some (found, after)) :
      Session t root (offers ++ found.toList) after

/-- At its start a walk lists the whole tree. -/
theorem listed_start (root : Subtree) : (start root).listed = .start root :=
  List.append_nil _

/-- It weighs less than the number of nodes. -/
theorem weight_start_lt (root : Subtree) : (start root).listed.weight < root.count := by
  rw [listed_start]
  exact Walker.weight_placed root .zero

/-- More rounds do not change what a search comes to. -/
theorem search_mono {found : Option Offer} {rounds more : Nat} (hle : rounds ≤ more)
    (h : search t state place rounds fs = some (found, after)) :
    search t state place more fs = some (found, after) := by
  induction rounds generalizing fs more with
  | zero => cases h
  | succ rounds ih =>
    -- more rounds are left, so one can be taken off here too
    obtain ⟨more, rfl⟩ := Nat.exists_eq_add_one_of_ne_zero (by omega : more ≠ 0)
    rw [search] at h ⊢
    cases hlook : fs.look t state place with
    | found offer last => rwa [hlook] at h
    | absent => rwa [hlook] at h
    | moved last =>
      rw [hlook] at h
      exact ih (by omega) h

/-- Between searches the walker is in order, what has been found is behind it, and nothing has been found
inside of something found before. -/
structure Session.Sound (root : Subtree) (offers : List Offer) (fs : Levels) : Prop where
  standing : Standing root fs
  settled : fs.Settled
  less : fs.listed.weight < root.count
  passed : ∀ offer ∈ offers, ∀ other, (follow (.zero, root) other).isSome → ¬other < fs.way →
    Behind offer.way other
  once : offers.Pairwise fun a b => Behind a.way b.way

/-- A session that is sound finds what `Finds` says. -/
theorem Session.Sound.finds {offers : List Offer} (h : Session.Sound root offers fs) (t : Table)
    (state : StateId) (place : Nat) :
    ∃ found after, Levels.search t state place root.count fs = some (found, after) ∧
      Finds t root state place fs found after :=
  search_finds t state place h.standing h.settled h.less

/-- Every session is sound. -/
theorem Session.sound {offers : List Offer} (h : Session t root offers fs) :
    Session.Sound root offers fs := by
  induction h with
  | start =>
    exact ⟨standing_start root, settled_start root, weight_start_lt root,
      (fun offer h => by cases h), .nil⟩
  | @search offers fs after found state place rounds _ hsearch ih =>
    obtain ⟨found', after', hsearch', hfinds⟩ := ih.finds t state place
    -- both numbers of rounds give what their sum gives
    have hsame := (search_mono (Nat.le_add_right rounds root.count) hsearch).symm.trans
      (search_mono (Nat.le_add_left root.count rounds) hsearch')
    cases hsame
    have honward : ∀ other, (follow (.zero, root) other).isSome → ¬other < after.way →
        ¬other < fs.way := fun other hother hnot hlt => hnot (hfinds.onward other hother hlt)
    refine ⟨hfinds.standing, hfinds.settled, lt_of_le_of_lt hfinds.less ih.less,
      fun offer hoffer other hother hnot => ?_, ?_⟩
    -- what was found before stays behind, and what is found now was passed just then
    · obtain hoffer | hoffer := List.mem_append.mp hoffer
      · exact ih.passed offer hoffer other hother (honward other hother hnot)
      · obtain ⟨-, -, -, -, hbehind⟩ := hfinds.offered offer (Option.mem_toList.mp hoffer)
        exact (hbehind other hother).mpr hnot
    · apply List.pairwise_append.mpr
      refine ⟨ih.once, ?_, fun a ha b hb => ?_⟩
      · cases found with
        | none => exact .nil
        | some offer => exact List.pairwise_singleton _ _
      · obtain ⟨hfollow, -, -, hnot, -⟩ := hfinds.offered b (Option.mem_toList.mp hb)
        refine ih.passed a ha b.way ?_ hnot
        rw [hfollow]
        rfl

/-! ## Moves in any order -/

/-- What can be asked of a walker. -/
inductive Move where
  | advance
  | descend

/-- The walker after a move.  What cannot be gone into is left where it is. -/
def make (fs : Levels) : Move → Levels
  | .advance => fs.advance
  | .descend => fs.descend?.getD fs

/-- Whether a move is made from a part, and not into one without children. -/
def succeeds (fs : Levels) : Move → Bool
  | .advance => fs.current?.isSome
  | .descend => fs.descend?.isSome

/-- The walker after moves. -/
def run (fs : Levels) (moves : List Move) : Levels := moves.foldl make fs

/-- How many of the moves succeed. -/
def successes : Levels → List Move → Nat
  | _, [] => 0
  | fs, move :: moves => (if fs.succeeds move then 1 else 0) + (fs.make move).successes moves

/-- Only at a node does a move succeed. -/
theorem exists_current?_of_succeeds {move : Move} (h : fs.succeeds move = true) :
    ∃ p, fs.current? = some p := by
  cases move with
  | advance => exact Option.isSome_iff_exists.mp h
  | descend =>
    obtain ⟨after, hafter⟩ := Option.isSome_iff_exists.mp h
    obtain ⟨p, hp, -⟩ := Option.bind_eq_some_iff.mp hafter
    exact ⟨p, hp⟩

/-- A move that succeeds is one that a search makes. -/
theorem make_of_succeeds {move : Move} (h : fs.succeeds move = true) :
    fs.make move = fs.advance ∨ fs.make move = fs.descend?.getD fs.advance := by
  cases move with
  | advance => exact .inl rfl
  | descend =>
    obtain ⟨after, hafter⟩ := Option.isSome_iff_exists.mp h
    right
    rw [make, hafter]
    rfl

/-- Behind the last part a walker does not move. -/
theorem Settled.advance_of_end (h : fs.Settled) (hend : fs.current? = none) : fs.advance = fs := by
  cases fs with
  | nil => rfl
  | cons f outer =>
    have hle := Level.le_of_current? hend
    obtain hlt | rfl := h
    · omega
    · rw [Levels.advance, climb, Level.pass, List.getElem?_eq_none hle]

/-- A move that does not succeed leaves the walk where it is. -/
theorem Settled.make_of_not_succeeds (h : fs.Settled) {move : Move} (hnot : fs.succeeds move = false) :
    fs.make move = fs := by
  cases move with
  | advance =>
    have hend : fs.current? = none := Option.isSome_eq_false_iff.mp hnot |> Option.isNone_iff_eq_none.mp
    exact h.advance_of_end hend
  | descend =>
    have hleaf : fs.descend? = none := Option.isSome_eq_false_iff.mp hnot |> Option.isNone_iff_eq_none.mp
    rw [make, hleaf]
    rfl

/-- A move keeps the walker in order, and one that succeeds goes on. -/
theorem Standing.make (h : Standing root fs) (hsettled : fs.Settled) (move : Move) :
    Standing root (fs.make move) ∧ (fs.make move).Settled := by
  cases hsucceeds : fs.succeeds move with
  | true =>
    obtain ⟨p, hp⟩ := exists_current?_of_succeeds hsucceeds
    obtain ⟨hstanding', hsettled', -⟩ := h.onward hsettled hp (make_of_succeeds hsucceeds)
    exact ⟨hstanding', hsettled'⟩
  | false =>
    rw [hsettled.make_of_not_succeeds hsucceeds]
    exact ⟨h, hsettled⟩

/-- A walk stays in the tree, and settled, whatever moves are made. -/
theorem Standing.run (h : Standing root fs) (hsettled : fs.Settled) (moves : List Move) :
    Standing root (fs.run moves) ∧ (fs.run moves).Settled := by
  induction moves generalizing fs with
  | nil => exact ⟨h, hsettled⟩
  | cons move moves ih =>
    obtain ⟨hstanding', hsettled'⟩ := h.make hsettled move
    exact ih hstanding' hsettled'

/-- No more moves succeed than there are parts left. -/
theorem Settled.successes_le (h : Standing root fs) (hsettled : fs.Settled) (moves : List Move) :
    fs.successes moves ≤ fs.listed.weight := by
  -- the induction is on the moves, each of which passes something or fails
  induction moves generalizing fs with
  | nil => exact Nat.zero_le _
  | cons move moves ih =>
    obtain ⟨hstanding', hsettled'⟩ := h.make hsettled move
    have hrest := ih hstanding' hsettled'
    rw [successes]
    cases hsucceeds : fs.succeeds move with
    | true =>
      obtain ⟨p, hp⟩ := exists_current?_of_succeeds hsucceeds
      have hless : (fs.make move).listed.weight < fs.listed.weight := by
        obtain hmake | hmake := make_of_succeeds hsucceeds
        · exact hmake ▸ weight_advance_lt hp
        · exact hmake ▸ weight_descend_lt hp
      rw [if_pos rfl]
      omega
    | false =>
      rw [hsettled.make_of_not_succeeds hsucceeds] at hrest ⊢
      rw [if_neg Bool.false_ne_true]
      omega

/-! ## Keeping the place -/

/-- Where a walker through a tree comes to by moves in any order. -/
def Reached (root : Subtree) (fs : Levels) : Prop := ∃ moves, (start root).run moves = fs

/-- So does every walk that is reached. -/
theorem Reached.standing (h : Reached root fs) : Standing root fs ∧ fs.Settled := by
  obtain ⟨moves, rfl⟩ := h
  exact (standing_start root).run (settled_start root) moves

/-- A walker through a tree keeps its place, whatever it is asked to do. -/
structure KeepsPlace (root : Subtree) : Prop where
  /-- It begins with everything that a `Walker` lists. -/
  listed : (start root).listed = .start root
  /-- It stands at what its way leads to, and that begins where the leaves in front of it end. -/
  standing : ∀ fs, Reached root fs → ∀ position n, fs.current? = some (position, n) →
    follow (.zero, root) fs.way = some (position, n) ∧
      position = Length.sum (root.leafLengthsBefore fs.way)
  /-- A part with children is gone into, to the first of them. -/
  descend : ∀ fs, Reached root fs → ∀ position n, fs.current? = some (position, n) →
    match fs.descend? with
    | none => n.children = []
    | some after => after.way = fs.way ++ [0] ∧
        ∃ c rest, n.children = c :: rest ∧ after.current? = some (position, c.1)
  /-- A part is passed with everything in it, and nothing else; where the walker has come to the end there
  is nothing behind the part. -/
  advance : ∀ fs, Reached root fs → ∀ position n, fs.current? = some (position, n) →
    (∀ other, (follow (.zero, root) other).isSome → (Behind fs.way other ↔ ¬other < fs.advance.way)) ∧
    match fs.advance.current? with
    | none => ∀ other, (follow (.zero, root) other).isSome → ¬Behind fs.way other
    | some next => next.1 = position + n.total ∧ Behind fs.way fs.advance.way
  /-- Every move that succeeds goes forward, others change nothing. -/
  forward : ∀ fs, Reached root fs → ∀ move,
    if fs.succeeds move then fs.way < (fs.make move).way else fs.make move = fs
  /-- Each move that succeeds passes at least one part. -/
  finite : ∀ moves, (start root).successes moves < root.count
  /-- Searches end.  They are those of a `Walker`, and what they find begins at the place. -/
  search : ∀ t offers fs, Session t root offers fs → ∀ state place, ∃ found after,
    Levels.search t state place root.count fs = some (found, after) ∧
      Walker.next t state place fs.listed = (found.map Offer.part, after.listed) ∧
      ∀ offer, found = some offer → offer.start.bytes = place ∧
        follow (.zero, root) offer.way = some (offer.start, offer.part) ∧
        offer.start = Length.sum (root.leafLengthsBefore offer.way)
  /-- Nothing is found twice, and nothing in what has been found. -/
  once : ∀ t offers fs, Session t root offers fs → offers.Pairwise fun a b => Behind a.way b.way

/-- A walker keeps its place in every tree in which the children of each part below the root cover it. -/
theorem keepsPlace_of_tiled (hroot : ∀ c ∈ root.children, c.1.Every Tiled) : KeepsPlace root := by
  have hplace : ∀ {way position n}, follow (.zero, root) way = some (position, n) →
      position = Length.sum (root.leafLengthsBefore way) := by
    intro way position n h
    rw [Subtree.start_of_follow hroot h, Length.zero_add]
  constructor
  case listed => exact listed_start root
  case standing =>
    intro fs hfs position n hp
    have hfollow := hfs.standing.1.follow_way hp
    exact ⟨hfollow, hplace hfollow⟩
  case descend =>
    intro fs hfs position n hp
    split
    · rename_i hdescend
      exact (descend?_eq_none_iff hp).mp hdescend
    · rename_i after hdescend
      refine ⟨way_descend hp hdescend, ?_⟩
      obtain ⟨hne, rfl⟩ := (descend?_eq_some_iff hp).mp hdescend
      obtain ⟨c, rest, hchildren⟩ := List.exists_cons_of_ne_nil hne
      refine ⟨c, rest, hchildren, ?_⟩
      dsimp only at hchildren
      simp [current?, Level.current?, hchildren]
  -- a move onward passes what is below the node, and nothing else
  case advance =>
    intro fs hfs position n hp
    obtain ⟨hstanding, hsettled⟩ := hfs.standing
    refine ⟨fun other hother => hstanding.behind_iff hp hother, ?_⟩
    split
    · rename_i hend
      intro other hother hbehind
      apply (hstanding.behind_iff hp hother).mp hbehind
      exact hstanding.advance.lt_way_of_end hsettled.advance hend hother
    · rename_i next hnext
      refine ⟨hstanding.position_advance hroot hp hnext, ?_⟩
      apply (hstanding.behind_iff hp _).mpr (lt_irrefl _)
      rw [hstanding.advance.follow_way hnext]
      rfl
  -- a move that fails leaves everything as it is
  case forward =>
    intro fs hfs move
    obtain ⟨hstanding, hsettled⟩ := hfs.standing
    split
    · rename_i hsucceeds
      obtain ⟨p, hp⟩ := exists_current?_of_succeeds hsucceeds
      obtain ⟨-, -, honward⟩ := hstanding.onward hsettled hp (make_of_succeeds hsucceeds)
      apply honward _ _ (lt_irrefl _)
      rw [hstanding.follow_way hp]
      rfl
    · rename_i hnot
      exact hsettled.make_of_not_succeeds (Bool.eq_false_iff.mpr hnot)
  case finite =>
    intro moves
    have hle := (settled_start root).successes_le (standing_start root) moves
    exact lt_of_le_of_lt hle (weight_start_lt root)
  case search =>
    intro t offers fs hsession state place
    obtain ⟨found, after, hsearch, hfinds⟩ := hsession.sound.finds t state place
    refine ⟨found, after, hsearch, hfinds.next, fun offer hoffer => ?_⟩
    obtain ⟨hfollow, hstart, -⟩ := hfinds.offered offer hoffer
    exact ⟨hstart, hfollow, hplace hfollow⟩
  case once =>
    intro t offers fs hsession
    exact hsession.sound.once

end Levels

/-! ## Climbing out of two lists at once -/

namespace NestedLists

/-- A token of so many bytes. -/
def token (size : Nat) : Subtree :=
  ⟨3, .zero, ⟨size, ⟨0, size⟩⟩, [], 0, none, none, 0, false, false, false⟩

/-- A part with a token. -/
def inner : Subtree :=
  ⟨2, .zero, ⟨1, ⟨0, 1⟩⟩, [(token 1, none)], 0, none, none, 0, false, false, false⟩

/-- A part with an empty token, and that part at its end. -/
def outer : Subtree :=
  ⟨2, .zero, ⟨1, ⟨0, 1⟩⟩, [(token 0, none), (inner, none)], 0, none, none, 0, false, false, false⟩

/-- A tree with a node inside a node. -/
def root : Subtree :=
  ⟨2, .zero, ⟨3, ⟨0, 3⟩⟩, [(token 1, none), (outer, none), (token 1, none)], 0, none, none, 0, false,
    false, false⟩

/-- Its tokens are tiled, as they have no children, -/
theorem every_token (size : Nat) : (token size).Every Tiled :=
  ⟨fun h => absurd rfl h, fun c hc => by cases hc⟩

/-- so is the outer node, -/
theorem every_outer : outer.Every Tiled := by
  have hinner : inner.Every Tiled := by
    refine ⟨fun _ => rfl, List.forall_mem_cons.mpr ⟨every_token 1, fun c hc => ?_⟩⟩
    cases hc
  refine ⟨fun _ => rfl, List.forall_mem_cons.mpr ⟨every_token 0, ?_⟩⟩
  exact List.forall_mem_cons.mpr ⟨hinner, fun c hc => by cases hc⟩

/-- and so is all that stands below the root. -/
theorem every_root : ∀ c ∈ root.children, c.1.Every Tiled := by
  refine List.forall_mem_cons.mpr ⟨every_token 1, List.forall_mem_cons.mpr ⟨every_outer, ?_⟩⟩
  exact List.forall_mem_cons.mpr ⟨every_token 1, fun c hc => by cases hc⟩

/-- Behind the token of the inner part the walker stands at the last token, two bytes into the text. -/
theorem walk_root : (∀ c ∈ root.children, c.1.Every Tiled) ∧ Levels.KeepsPlace root ∧
    let fs := (Levels.start root).run [.advance, .descend, .advance, .descend, .advance]
    fs.way = [2] ∧ fs.current? = some (Length.sum (root.leafLengthsBefore [2]), token 1) := by
  have hkeeps := Levels.keepsPlace_of_tiled every_root
  refine ⟨every_root, hkeeps, rfl, ?_⟩
  have hcurrent : ((Levels.start root).run [.advance, .descend, .advance, .descend, .advance]).current? =
      some (⟨2, ⟨0, 2⟩⟩, token 1) := rfl
  rw [hcurrent, (hkeeps.standing _ ⟨_, rfl⟩ _ _ hcurrent).2]
  rfl

end NestedLists

end IncrementalParsing
