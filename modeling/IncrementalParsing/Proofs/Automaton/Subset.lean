import IncrementalParsing.Automaton.Subset
import IncrementalParsing.Proofs.Automaton.Encoding
import IncrementalParsing.Proofs.Rounds
import Mathlib.Data.List.Perm.Subperm

/-!
# Automata of expressions

The states of the automaton of an expression stand for situations, which are met and gone through one
after the other.  A state says what comes of its situation, and a move leads to the state of the
situation that its bytes lead to.

## Key results

- `Situation.exists_step`: what bytes lead to, they lead to from nodes that are reached
- `Exploration.explored_run`: states say what comes of the situations with their numbers
- `Automaton.fits_ofExpression`: the automaton of an expression can be written, unless it is too long
-/

namespace IncrementalParsing

namespace Situation

/-- Leaving out what is there twice adds nothing. -/
theorem mem_of_mem_dedup {x : Nat} {xs : List Nat} (h : x ∈ sorted.dedup xs) : x ∈ xs := by
  induction xs with
  | nil => cases h
  | cons a xs ih =>
    rw [sorted.dedup] at h
    -- of two equal neighbours one is left out
    split at h
    · rename_i b rest hrest
      rw [hrest] at ih
      split at h
      · exact List.mem_cons_of_mem _ (ih h)
      · obtain rfl | h := List.mem_cons.mp h
        · exact List.mem_cons_self
        · exact List.mem_cons_of_mem _ (ih h)
    · rw [List.mem_singleton.mp h]
      exact List.mem_cons_self

/-- Neither does sorting. -/
theorem mem_of_mem_sorted {x : Nat} {xs : List Nat} (h : x ∈ sorted xs) : x ∈ xs :=
  List.mem_mergeSort.mp (mem_of_mem_dedup h)

/-- A byte in a range leads from the nodes to all those of the range. -/
theorem exists_of_mem_targets {first last a b i : Nat} {moves : List (Nat × Nat × Nat)}
    {nodes : List Nat} (h : (a, b, nodes) ∈ targets first last moves) (hi : i ∈ nodes) :
    ∃ m ∈ moves, m.1 ≤ a ∧ b ≤ m.2.1 ∧ m.2.2 = i := by
  obtain ⟨⟨a', b'⟩, -, heq⟩ := List.mem_map.mp h
  simp only [Prod.mk.injEq] at heq
  obtain ⟨rfl, rfl, rfl⟩ := heq
  obtain ⟨m, hm, rfl⟩ := List.mem_map.mp (mem_of_mem_sorted hi)
  rw [List.mem_filter, Bool.and_eq_true, decide_eq_true_eq, decide_eq_true_eq] at hm
  exact ⟨m, hm.1, hm.2.1, hm.2.2, rfl⟩

/-- What a range of bytes leads to. -/
structure Step (n : Network) (reached : List Nat) (a b : Nat) (s : Situation) : Prop where
  matched : s.matched = true → ∃ i ∈ reached, n.isAccept i = true
  nodes : ∀ i ∈ s.nodes, ∃ j ∈ reached, ∃ m ∈ n.movesOf j, m.1 ≤ a ∧ b ≤ m.2.1 ∧ m.2.2 = i

/-- Every step that `stepsOn` lists is one of the network, on a range between the two bytes. -/
theorem step_of_mem_stepsOn {n : Network} {first last a b : Nat} {before : Option ByteKind}
    {reached : List Nat} {s : Situation} (h : (a, b, s) ∈ stepsOn n first last before reached) :
    Step n reached a b s := by
  obtain ⟨⟨a', b', nodes⟩, hmem, heq⟩ := List.mem_map.mp h
  simp only [Prod.mk.injEq] at heq
  obtain ⟨rfl, rfl, rfl⟩ := heq
  constructor
  · exact List.any_eq_true.mp
  -- a target comes from a move out of one of the nodes
  · intro i hi
    obtain ⟨m, hm, hbounds⟩ := exists_of_mem_targets hmem hi
    obtain ⟨j, hj, hm⟩ := List.mem_flatMap.mp hm
    exact ⟨j, hj, m, hm, hbounds⟩

variable {n : Network} {links : Nat} {looks : Bool} {s s' : Situation} {a b : Nat}

/-- What bytes lead to, they lead to from nodes that are reached. -/
theorem exists_step (h : (a, b, s') ∈ s.steps n links looks) :
    ∃ after, Step n (s.reached n links after) a b s' := by
  unfold steps at h
  split at h
  · dsimp only at h
    obtain ⟨⟨first, last, kind⟩, -, h⟩ := List.mem_flatMap.mp h
    have hstep := step_of_mem_stepsOn h
    -- the nodes are reached once for each kind of the byte behind; `lookup` finds those for `kind`
    cases hfound : (ByteKind.all.map fun kind => (kind, reached n links s (some kind))).lookup kind with
    -- a kind that is not listed has no nodes, so nothing steps
    | none =>
      rw [hfound] at hstep
      refine ⟨none, fun hmatched => ?_, fun i hi => ?_⟩
      · obtain ⟨i, hi, -⟩ := hstep.matched hmatched
        cases hi
      · obtain ⟨j, hj, -⟩ := hstep.nodes i hi
        cases hj
    | some found =>
      obtain ⟨before, after, heq, -⟩ := List.lookup_eq_some_iff.mp hfound
      have hmem : (kind, found) ∈ ByteKind.all.map fun kind => (kind, reached n links s (some kind)) := by
        rw [heq]
        exact List.mem_append_right _ List.mem_cons_self
      obtain ⟨kind', -, hkind⟩ := List.mem_map.mp hmem
      cases hkind
      rw [hfound] at hstep
      exact ⟨_, hstep⟩
  · exact ⟨none, step_of_mem_stepsOn h⟩

/-! ### Ranges of bytes -/

/-- Nothing is left twice of a list in order. -/
theorem pairwise_dedup {xs : List Nat} (h : xs.Pairwise (· ≤ ·)) :
    (sorted.dedup xs).Pairwise (· < ·) := by
  induction xs with
  | nil => exact List.Pairwise.nil
  | cons a xs ih =>
    obtain ⟨hfirst, hrest⟩ := List.pairwise_cons.mp h
    have hle : ∀ b ∈ sorted.dedup xs, a ≤ b := fun b hb => hfirst b (mem_of_mem_dedup hb)
    have hdedup := ih hrest
    rw [sorted.dedup]
    split
    · rename_i b rest heq
      rw [heq] at hle hdedup
      -- `a` is dropped where the rest begins with it
      split
      · exact hdedup
      · rename_i hne
        have hlt : a < b := Nat.lt_of_le_of_ne (hle b List.mem_cons_self) hne
        have hbelow := (List.pairwise_cons.mp hdedup).1
        exact List.pairwise_cons.mpr
          ⟨List.forall_mem_cons.mpr ⟨hlt, fun c hc => Nat.lt_trans hlt (hbelow c hc)⟩, hdedup⟩
    · exact List.pairwise_singleton _ _

/-- `sorted` gives a list in order with nothing in it twice. -/
theorem pairwise_sorted (xs : List Nat) : (sorted xs).Pairwise (· < ·) := by
  have hsorted : (xs.mergeSort fun a b => decide (a ≤ b)).Pairwise fun a b => decide (a ≤ b) :=
    List.pairwise_mergeSort (by simpa using fun a b c => Nat.le_trans)
      (by simpa using fun a b => Nat.le_total a b) xs
  exact pairwise_dedup (hsorted.imp fun h => of_decide_eq_true h)

variable {first last : Nat} {moves : List (Nat × Nat × Nat)}

/-- The range is cut at bytes that are in it. -/
theorem le_of_mem_cuts (hle : first ≤ last) {c : Nat} (h : c ∈ cuts first last moves) : c ≤ last := by
  obtain rfl | hmoves := List.mem_cons.mp (mem_of_mem_sorted h)
  · exact hle
  · obtain ⟨m, -, hc⟩ := List.mem_flatMap.mp hmoves
    have hbounds := (List.mem_filter.mp hc).2
    rw [Bool.and_eq_true, decide_eq_true_eq, decide_eq_true_eq] at hbounds
    exact hbounds.2

/-- There are as many parts as cuts. -/
theorem length_parts (last : Nat) (cs : List Nat) : (parts last cs).length = cs.length := by
  induction cs with
  | nil => rfl
  | cons a cs ih =>
    cases cs with
    | nil => rfl
    | cons b cs =>
      rw [parts, List.length_cons, ih]
      rfl

/-- Each part lies in the range that is cut. -/
theorem le_of_mem_parts {cs : List Nat} (hcs : ∀ c ∈ cs, c ≤ last) {part : Nat × Nat}
    (h : part ∈ parts last cs) : part.1 ≤ last ∧ part.2 ≤ last := by
  induction cs with
  | nil => cases h
  | cons a cs ih =>
    obtain ⟨ha, hrest⟩ := List.forall_mem_cons.mp hcs
    -- a part ends before the next cut, or where the range does
    cases cs with
    | nil =>
      rw [List.mem_singleton.mp h]
      exact ⟨ha, Nat.le_refl _⟩
    | cons b cs =>
      rw [parts] at h
      obtain rfl | h := List.mem_cons.mp h
      · have hb := hrest b List.mem_cons_self
        exact ⟨ha, Nat.le_trans (Nat.sub_le b 1) hb⟩
      · exact ih hrest h

/-- There are no more ranges than bytes. -/
theorem length_targets_le (hle : first ≤ last) (hlast : last < 256) :
    (targets first last moves).length ≤ 256 := by
  have hnodup : (cuts first last moves).Nodup :=
    (pairwise_sorted _).imp fun h => Nat.ne_of_lt h
  have hsubset : cuts first last moves ⊆ List.range 256 := fun c hc =>
    List.mem_range.mpr (Nat.lt_of_le_of_lt (le_of_mem_cuts hle hc) hlast)
  rw [targets, List.length_map, length_parts]
  simpa using (List.subperm_of_subset hnodup hsubset).length_le

/-- The steps are on bytes. -/
theorem lt_of_mem_targets (hle : first ≤ last) (hlast : last < 256) {nodes : List Nat}
    (h : (a, b, nodes) ∈ targets first last moves) : a < 256 ∧ b < 256 := by
  obtain ⟨⟨a', b'⟩, hpart, heq⟩ := List.mem_map.mp h
  simp only [Prod.mk.injEq] at heq
  obtain ⟨rfl, rfl, -⟩ := heq
  have hbounds := le_of_mem_parts (fun c hc => le_of_mem_cuts hle hc) hpart
  exact ⟨Nat.lt_of_le_of_lt hbounds.1 hlast, Nat.lt_of_le_of_lt hbounds.2 hlast⟩

/-- Every kind of byte is a range of bytes. -/
theorem bounds_of_mem_ranges : ∀ r ∈ ByteKind.ranges, r.1 ≤ r.2.1 ∧ r.2.1 < 256 := by decide

/-- Steps are over bytes. -/
theorem lt_of_mem_steps (h : (a, b, s') ∈ s.steps n links looks) : a < 256 ∧ b < 256 := by
  have hon : ∀ {first last : Nat} {before : Option ByteKind} {reached : List Nat},
      first ≤ last → last < 256 → (a, b, s') ∈ stepsOn n first last before reached →
      a < 256 ∧ b < 256 := by
    intro first last before reached hle hlast h
    obtain ⟨⟨a', b', nodes⟩, hmem, heq⟩ := List.mem_map.mp h
    simp only [Prod.mk.injEq] at heq
    obtain ⟨rfl, rfl, -⟩ := heq
    exact lt_of_mem_targets hle hlast hmem
  unfold steps at h
  split at h
  -- with look-arounds the bytes are taken kind by kind, and otherwise all at once
  · obtain ⟨⟨first, last, kind⟩, hrange, h⟩ := List.mem_flatMap.mp h
    obtain ⟨hle, hlast⟩ := bounds_of_mem_ranges _ hrange
    exact hon hle hlast h
  · exact hon (Nat.zero_le _) (by decide) h

/-- A situation has fewer steps than there are pairs of bytes. -/
theorem length_steps_le : (s.steps n links looks).length < 256 ^ 2 := by
  have hon : ∀ {first last : Nat} {before : Option ByteKind} {reached : List Nat},
      first ≤ last → last < 256 → (stepsOn n first last before reached).length ≤ 256 := by
    intro first last before reached hle hlast
    rw [stepsOn, List.length_map]
    exact length_targets_le hle hlast
  unfold steps
  -- with look-arounds there are thirteen ranges of bytes of one kind
  split
  · rw [length_flatMap_sumOf]
    refine Nat.lt_of_le_of_lt (sumOf_le fun r hr => ?_) (by decide : 13 * 256 < 256 ^ 2)
    obtain ⟨hle, hlast⟩ := bounds_of_mem_ranges r hr
    exact hon hle hlast
  · exact Nat.lt_of_le_of_lt (hon (Nat.zero_le _) (by decide)) (by decide)

end Situation

namespace Automaton

/-! ## Exploring -/

namespace Exploration

variable {x x' : Exploration} {n : Network} {links : Nat} {looks : Bool}

/-- Situations are found by their numbers. -/
def Numbered (x : Exploration) : Prop :=
  ∀ (s : Situation) (i : Nat), x.numbers[s]? = some i → x.situations[i]? = some s

/-- Situations keep their numbers. -/
def Grows (x x' : Exploration) : Prop :=
  ∀ (i : Nat) s, x.situations[i]? = some s → x'.situations[i]? = some s

/-- The number of a situation. -/
structure NumberOf (x : Exploration) (s : Situation) (r : Exploration × Nat) : Prop where
  numbered : r.1.Numbered
  grows : x.Grows r.1
  states : r.1.states = x.states
  found : r.1.situations[r.2]? = some s
  size : r.1.situations.size ≤ x.situations.size + 1

/-- `number` gives every situation a number, the one that it has if it has one. -/
theorem numberOf_number (h : x.Numbered) (s : Situation) : NumberOf x s (x.number s) := by
  unfold number
  split
  -- a situation that has a number keeps it
  · rename_i i hi
    exact ⟨h, fun _ _ h => h, rfl, h s i hi, Nat.le_succ _⟩
  · have hgrows : ∀ (i : Nat) t, x.situations[i]? = some t →
        (x.situations.push s)[i]? = some t := by
      intro i t hi
      have hlt := (Array.getElem?_eq_some_iff.mp hi).1
      rw [Array.getElem?_push, if_neg (by omega), hi]
    -- a new one is numbered last
    have hlast : (x.situations.push s)[x.situations.size]? = some s := by
      rw [Array.getElem?_push, if_pos rfl]
    dsimp only
    refine ⟨fun t i hi => ?_, hgrows, rfl, hlast, Nat.le_of_eq (Array.size_push ..)⟩
    dsimp only at hi ⊢
    rw [Std.HashMap.getElem?_insert] at hi
    split at hi
    · rename_i heq
      cases hi
      rw [← eq_of_beq heq]
      exact hlast
    · exact hgrows i t (h t i hi)

/-- A move leads where each of its bytes does, and its ends are those of ranges. -/
structure Takes (x : Exploration) (steps : List (Nat × Nat × Situation)) (m : Move) : Prop where
  target : ∃ s, x.situations[m.target]? = some s ∧ ∀ byte, m.first ≤ byte → byte ≤ m.last →
    ∃ a b, (a, b, s) ∈ steps ∧ a ≤ byte ∧ byte ≤ b
  first : ∃ b s, (m.first, b, s) ∈ steps
  last : ∃ a s, (a, m.last, s) ∈ steps

/-- A move that takes a step still takes it when more situations have numbers. -/
theorem Takes.grows {steps : List (Nat × Nat × Situation)} {m : Move} (hgrows : x.Grows x')
    (h : x.Takes steps m) : x'.Takes steps m := by
  obtain ⟨⟨s, hs, hbytes⟩, hfirst, hlast⟩ := h
  exact ⟨⟨s, hgrows _ s hs, hbytes⟩, hfirst, hlast⟩

/-- A move that takes one of some steps takes one of more. -/
theorem Takes.cons {step : Nat × Nat × Situation} {steps : List (Nat × Nat × Situation)} {m : Move}
    (h : x.Takes steps m) : x.Takes (step :: steps) m := by
  obtain ⟨⟨s, hs, hbytes⟩, ⟨b, t, hfirst⟩, a, u, hlast⟩ := h
  refine ⟨⟨s, hs, fun byte hlo hhi => ?_⟩, ⟨b, t, List.mem_cons_of_mem _ hfirst⟩,
    a, u, List.mem_cons_of_mem _ hlast⟩
  obtain ⟨a, b, hmem, hbounds⟩ := hbytes byte hlo hhi
  exact ⟨a, b, List.mem_cons_of_mem _ hmem, hbounds⟩

/-- The moves for what ranges of bytes lead to. -/
structure MovesFor (x : Exploration) (steps : List (Nat × Nat × Situation))
    (r : Exploration × List Move) : Prop where
  numbered : r.1.Numbered
  grows : x.Grows r.1
  states : r.1.states = x.states
  takes : ∀ m ∈ r.2, r.1.Takes steps m
  length : r.2.length ≤ steps.length

/-- `addMoves` gives a move for each step, and none else. -/
theorem movesFor_addMoves (h : x.Numbered) (steps : List (Nat × Nat × Situation)) :
    MovesFor x steps (x.addMoves steps) := by
  -- on the steps, from the back of the list of moves to its front
  induction steps generalizing x with
  | nil => exact ⟨h, fun _ _ h => h, rfl, fun _ hm => absurd hm List.not_mem_nil, Nat.le_refl _⟩
  | cons step steps ih =>
    obtain ⟨first, last, s⟩ := step
    rw [addMoves]
    split
    -- a step that leads nowhere makes no move
    · have hrest := ih h
      exact ⟨hrest.numbered, hrest.grows, hrest.states, fun m hm => (hrest.takes m hm).cons,
        Nat.le_succ_of_le hrest.length⟩
    · have hnumber := numberOf_number h s
      generalize x.number s = r at hnumber
      obtain ⟨y, i⟩ := r
      have hrest := ih hnumber.numbered
      dsimp only at hrest ⊢
      generalize y.addMoves steps = r at hrest
      obtain ⟨z, moves⟩ := r
      obtain ⟨hnumbered, hrestGrows, hrestStates, htakes, hlength⟩ := hrest
      dsimp only at hnumbered hrestGrows hrestStates htakes hlength ⊢
      have hgrows : x.Grows z := fun i t ht => hrestGrows i t (hnumber.grows i t ht)
      have hstates : z.states = x.states := hrestStates.trans hnumber.states
      have hfound : z.situations[i]? = some s := hrestGrows _ s hnumber.found
      -- the move that this step makes, with the number of its target
      have hown : z.Takes ((first, last, s) :: steps) ⟨first, last, i⟩ :=
        ⟨⟨s, hfound, fun byte hlo hhi => ⟨first, last, List.mem_cons_self, hlo, hhi⟩⟩,
          ⟨last, s, List.mem_cons_self⟩, first, s, List.mem_cons_self⟩
      have hmoves : ∀ m ∈ moves, z.Takes ((first, last, s) :: steps) m :=
        fun m hm => (htakes m hm).cons
      split
      · rename_i m more
        obtain ⟨hm, hmore⟩ := List.forall_mem_cons.mp hmoves
        split
        · -- the range of the first move and the one before it touch
          rename_i htouch
          rw [Bool.and_eq_true, decide_eq_true_eq, decide_eq_true_eq] at htouch
          obtain ⟨⟨t, ht, hbytes⟩, -, hmlast⟩ := hm
          rw [htouch.1, hfound] at ht
          cases ht
          have hjoined : z.Takes ((first, last, s) :: steps) ⟨first, m.last, i⟩ := by
            refine ⟨⟨s, hfound, fun byte hlo hhi => ?_⟩, hown.first, hmlast⟩
            by_cases hle : byte ≤ last
            · exact ⟨first, last, List.mem_cons_self, hlo, hle⟩
            · exact hbytes byte (by omega) hhi
          exact ⟨hnumbered, hgrows, hstates, List.forall_mem_cons.mpr ⟨hjoined, hmore⟩,
            Nat.le_succ_of_le hlength⟩
        · exact ⟨hnumbered, hgrows, hstates, List.forall_mem_cons.mpr ⟨hown, hmoves⟩,
            Nat.succ_le_succ hlength⟩
      · exact ⟨hnumbered, hgrows, hstates, List.forall_mem_singleton.mpr hown,
          Nat.succ_le_succ (Nat.zero_le _)⟩

/-- A state says what comes of a situation. -/
structure Shows (x : Exploration) (n : Network) (links : Nat) (looks : Bool) (s : Situation)
    (state : State) : Prop where
  matched : state.matched = s.matched
  final : state.final = (s.reached n links none).any n.isAccept
  moves : ∀ m ∈ state.moves, x.Takes (s.steps n links looks) m
  length : state.moves.length ≤ (s.steps n links looks).length

/-- The states are those of the situations with their numbers. -/
structure Lawful (x : Exploration) (n : Network) (links : Nat) (looks : Bool) : Prop where
  numbered : x.Numbered
  states : ∀ (i : Nat) state, x.states[i]? = some state →
    ∃ s, x.situations[i]? = some s ∧ x.Shows n links looks s state

/-- Going through the situations keeps what is known of them, and gets as far as it may. -/
structure Explored (x x' : Exploration) (n : Network) (links : Nat) (looks : Bool) (fuel : Nat) : Prop where
  lawful : x'.Lawful n links looks
  grows : x.Grows x'
  size : min (x.states.size + fuel) x.situations.size ≤ x'.states.size

/-- Situations that have a number keep it. -/
theorem Grows.size (h : x.Grows x') : x.situations.size ≤ x'.situations.size := by
  refine Nat.le_of_not_lt fun hlt => ?_
  have hget := h x'.situations.size _ (Array.getElem?_eq_getElem hlt)
  rw [Array.getElem?_eq_none (Nat.le_refl _)] at hget
  cases hget

/-- `run` explores situations one after the other until all are explored, or the fuel is used up. -/
theorem explored_run (h : x.Lawful n links looks) (fuel : Nat) :
    Explored x (x.run n links looks fuel) n links looks fuel := by
  -- each step gives the next situation its state, and numbers to those that it leads to
  induction fuel generalizing x with
  | zero => exact ⟨h, fun _ _ h => h, Nat.min_le_left ..⟩
  | succ fuel ih =>
    rw [run]
    split
    · rename_i hnone
      refine ⟨h, fun _ _ h => h, ?_⟩
      have hle := Array.getElem?_eq_none_iff.mp hnone
      omega
    · rename_i s hs
      have hadd := movesFor_addMoves h.numbered (s.steps n links looks)
      dsimp only
      generalize x.addMoves (s.steps n links looks) = r at hadd
      obtain ⟨y, moves⟩ := r
      obtain ⟨hnumbered, hgrows, hstates, htakes, hlength⟩ := hadd
      dsimp only at hnumbered hgrows hstates htakes hlength ⊢
      have htakes' : ∀ m ∈ moves, Takes ⟨y.numbers, y.situations, y.states.push
          ⟨s.matched, (s.reached n links none).any n.isAccept, moves⟩⟩ (s.steps n links looks) m :=
        fun m hm => ⟨(htakes m hm).target, (htakes m hm).first, (htakes m hm).last⟩
      -- the state of `s` is pushed at the index of `s`, which is the next one
      have hlawful : Lawful ⟨y.numbers, y.situations, y.states.push
          ⟨s.matched, (s.reached n links none).any n.isAccept, moves⟩⟩ n links looks := by
        refine ⟨hnumbered, fun i state hi => ?_⟩
        dsimp only at hi
        rw [hstates, Array.getElem?_push] at hi
        split at hi
        · rename_i heq
          cases hi
          exact ⟨s, heq ▸ hgrows _ s hs, rfl, rfl, htakes', hlength⟩
        · obtain ⟨t, ht, hshows⟩ := h.states i state hi
          exact ⟨t, hgrows i t ht, hshows.matched, hshows.final,
            fun m hm => (hshows.moves m hm).grows hgrows, hshows.length⟩
      obtain ⟨hlawful', hgrows', hsize⟩ := ih hlawful
      refine ⟨hlawful', fun i t ht => hgrows' i t (hgrows i t ht), ?_⟩
      have hmore := Grows.size hgrows
      have hsame : y.states.size = x.states.size := congrArg Array.size hstates
      simp only [Array.size_push] at hsize
      omega

/-- Situations to begin with are met one after the other. -/
theorem numbered_foldl (initial : Option ByteKind → Situation) (befores : List (Option ByteKind))
    (starts : List Nat) (hx : x.Numbered)
    (hstarts : ∀ i ∈ starts, ∃ before, x.situations[i]? = some (initial before)) :
    let r := befores.foldl (fun (x, starts) before =>
      let (x, i) := number x (initial before)
      (x, starts ++ [i])) (x, starts)
    r.1.Numbered ∧ r.1.states = x.states ∧ r.2.length = starts.length + befores.length ∧
      r.1.situations.size ≤ x.situations.size + befores.length ∧
      ∀ i ∈ r.2, ∃ before, r.1.situations[i]? = some (initial before) := by
  induction befores generalizing x starts with
  | nil => exact ⟨hx, rfl, rfl, Nat.le_refl _, hstarts⟩
  | cons before befores ih =>
    have hnumber := numberOf_number hx (initial before)
    rw [List.foldl_cons]
    dsimp only
    generalize number x (initial before) = r at hnumber ⊢
    obtain ⟨y, i⟩ := r
    -- a start keeps its situation as more are numbered
    have hmore : ∀ j ∈ starts ++ [i], ∃ before, y.situations[j]? = some (initial before) := by
      intro j hj
      obtain hj | hj := List.mem_append.mp hj
      · obtain ⟨before', hj⟩ := hstarts j hj
        exact ⟨before', hnumber.grows j _ hj⟩
      · rw [List.mem_singleton.mp hj]
        exact ⟨before, hnumber.found⟩
    obtain ⟨hnumbered, hstates, hlength, hsize, hfound⟩ := ih (starts ++ [i]) hnumber.numbered hmore
    refine ⟨hnumbered, hstates.trans hnumber.states, hlength.trans ?_, Nat.le_trans hsize ?_,
      hfound⟩
    · rw [List.length_append, List.length_singleton, List.length_cons]
      omega
    · have hone : y.situations.size ≤ x.situations.size + 1 := hnumber.size
      show y.situations.size + befores.length ≤ x.situations.size + (befores.length + 1)
      omega

end Exploration

/-- The marks of states that are alive are as many as before. -/
theorem size_aliveStates (states : Array State) (fuel : Nat) (alive : Array Bool) :
    (aliveStates states fuel alive).size = alive.size := by
  -- a round changes marks and adds none
  have hround : ∀ (is : List Nat) (alive : Array Bool), (is.foldr (fun i alive =>
      alive.setIfInBounds i (isAlive alive (states.getD i default))) alive).size = alive.size := by
    intro is alive
    induction is with
    | nil => rfl
    | cons i is ih => rw [List.foldr_cons, Array.size_setIfInBounds, ih]
  induction fuel generalizing alive with
  | zero => rfl
  | succ fuel ih =>
    rw [aliveStates]
    split
    · rfl
    · rw [ih, hround]

/-- What can stand before a place: nothing, or a byte of some kind. -/
def befores : List (Option ByteKind) := none :: ByteKind.all.map some

/-- The situations to begin with after what stands before a place, and their numbers. -/
def begun (n : Network) (befores : List (Option ByteKind)) : Exploration × List Nat :=
  befores.foldl (fun (x, starts) before =>
    let (x, i) := Exploration.number x ⟨false, if n.hasLooks then before else none, [n.start]⟩
    (x, starts ++ [i])) ((⟨∅, #[], #[]⟩ : Exploration), ([] : List Nat))

/-- What comes of exploring a network. -/
def explored (n : Network) : Exploration :=
  (begun n befores).1.run n n.links n.hasLooks (Nat.pow 2 (n.nodes.size + 4))

/-- The explored states from which a match can be told of. -/
def alive (n : Network) : Array Bool :=
  aliveStates (explored n).states ((explored n).states.size + 1)
    ((explored n).states.map fun _ => false)

/-- The automaton starts in the situations with which the search began. -/
theorem starts_ofExpression (e : Expression) :
    (ofExpression e).starts = (begun (.ofExpression e) befores).2 := by
  unfold ofExpression begun befores
  dsimp only

/-- Its states are those that were explored, without the moves that lead nowhere. -/
theorem states_ofExpression (e : Expression) : (ofExpression e).states =
    (explored (.ofExpression e)).states.map (State.pruned (alive (.ofExpression e))) := by
  unfold ofExpression alive explored begun befores
  dsimp only

variable {n : Network}

/-- There is a mark for each state. -/
theorem size_alive : (alive n).size = (explored n).states.size := by
  rw [alive, size_aliveStates, Array.size_map]

/-- At the beginning only the starts have numbers, at most as many as there are bytes to look back at.
-/
theorem begun_spec (befores : List (Option ByteKind)) :
    (begun n befores).1.Numbered ∧ (begun n befores).1.states = #[] ∧
      (begun n befores).2.length = befores.length ∧
      (begun n befores).1.situations.size ≤ befores.length ∧
      ∀ i ∈ (begun n befores).2, ∃ before, (begun n befores).1.situations[i]? =
        some ⟨false, if n.hasLooks then before else none, [n.start]⟩ := by
  have hempty : Exploration.Numbered ⟨∅, #[], #[]⟩ := fun s i h => by simp at h
  -- the situations of the starts are numbered one after the other, from none at all
  obtain ⟨hnumbered, hstates, hlength, hsize, hfound⟩ := Exploration.numbered_foldl
    (fun before => ⟨false, if n.hasLooks then before else none, [n.start]⟩) befores [] hempty
    fun _ hi => absurd hi List.not_mem_nil
  exact ⟨hnumbered, hstates, hlength.trans (Nat.zero_add _),
    Nat.le_trans hsize (Nat.le_of_eq (Nat.zero_add _)), hfound⟩

/-- From there everything is explored, as the fuel is more than the number of situations. -/
theorem explored_spec (n : Network) : (begun n befores).1.Explored (explored n) n n.links n.hasLooks
    (Nat.pow 2 (n.nodes.size + 4)) := by
  obtain ⟨hnumbered, hstates, -⟩ := begun_spec (n := n) befores
  refine Exploration.explored_run ⟨hnumbered, fun i state hi => ?_⟩ _
  rw [hstates] at hi
  cases hi

/-- A state of the automaton of an expression is an explored one without some moves. -/
theorem state_ofExpression (e : Expression) (i : Nat) :
    (ofExpression e).state i = default ∨
      ∃ state, (explored (.ofExpression e)).states[i]? = some state ∧
        (ofExpression e).state i = state.pruned (alive (.ofExpression e)) := by
  rw [Automaton.state, states_ofExpression, Array.getD_eq_getD_getElem?, Array.getElem?_map]
  cases hstate : (explored (.ofExpression e)).states[i]? with
  | none => exact .inl rfl
  | some state => exact .inr ⟨state, rfl, rfl⟩

/-! ## Writing -/

/-- Every state takes bytes when an automaton is encoded. -/
theorem size_le_length_encode (a : Automaton) : a.states.size ≤ a.encode.length := by
  -- a state takes a byte at least
  have hsome : ∀ states : List State, states.length ≤ (states.flatMap State.encode).length := by
    intro states
    induction states with
    | nil => exact Nat.le_refl _
    | cons s states ih =>
      rw [List.flatMap_cons, List.length_append, List.length_cons, State.encode, List.length_cons]
      omega
  have hstates := hsome a.states.toList
  rw [Array.length_toList] at hstates
  rw [encode, List.length_append]
  omega

/-- A state that is gone through can be written, less the moves that lead nowhere. -/
theorem fits_pruned {s : Situation} {state : State} {links : Nat} {looks : Bool} {x : Exploration}
    (h : x.Shows n links looks s state) (alive : Array Bool) :
    (state.pruned alive).Fits alive.size := by
  -- pruning leaves only moves to states that are alive
  have hkept : ∀ m ∈ (state.pruned alive).moves,
      m ∈ state.moves ∧ alive.getD m.target false = true := fun m hm => List.mem_filter.mp hm
  constructor
  · have hfilter : (state.pruned alive).moves.length ≤ state.moves.length := List.length_filter_le ..
    have hmoves := h.length
    have hsteps : (s.steps n links looks).length < 256 ^ 2 := s.length_steps_le
    omega
  · intro m hm
    obtain ⟨b, t, hstep⟩ := (h.moves m (hkept m hm).1).first
    exact (Situation.lt_of_mem_steps hstep).1
  · intro m hm
    obtain ⟨a, t, hstep⟩ := (h.moves m (hkept m hm).1).last
    exact (Situation.lt_of_mem_steps hstep).2
  · intro m hm
    refine Nat.lt_of_not_le fun hle => ?_
    have halive := (hkept m hm).2
    rw [Array.getD_eq_getD_getElem?, Array.getElem?_eq_none hle] at halive
    cases halive

/-- The automaton of an expression can be written, unless it takes too many bytes. -/
theorem fits_ofExpression {e : Expression} (h : (ofExpression e).encode.length < 256 ^ 4) :
    (ofExpression e).Fits := by
  have hsize := Nat.lt_of_le_of_lt (size_le_length_encode _) h
  obtain ⟨-, hstates, hlength, hmany, hstarts⟩ := begun_spec (n := .ofExpression e) befores
  obtain ⟨hlawful, hgrows, hexplored⟩ := explored_spec (.ofExpression e)
  have hcount : (ofExpression e).states.size = (explored (.ofExpression e)).states.size := by
    rw [states_ofExpression, Array.size_map]
  have hfive : befores.length = 5 := rfl
  constructor
  case size => exact hsize
  case length => rw [starts_ofExpression, hlength, hfive]
  -- the starts were numbered first, and the fuel is enough to give each of them a state
  case starts =>
    intro i hi
    rw [starts_ofExpression] at hi
    obtain ⟨before, hfound⟩ := hstarts i hi
    have hmet := (Array.getElem?_eq_some_iff.mp hfound).1
    have hfuel : 2 ^ 4 ≤ Nat.pow 2 ((Network.ofExpression e).nodes.size + 4) :=
      Nat.pow_le_pow_right (by decide) (Nat.le_add_left ..)
    rw [hcount]
    omega
  case states =>
    intro s hs
    rw [states_ofExpression] at hs
    obtain ⟨state, hstate, rfl⟩ := Array.mem_map.mp hs
    obtain ⟨i, hi⟩ := Array.getElem?_of_mem hstate
    obtain ⟨t, -, hshows⟩ := hlawful.states i state hi
    rw [hcount, ← size_alive]
    exact fits_pruned hshows _

/-- The automaton of an expression is read back from its bytes, unless there are too many. -/
theorem decode?_ofExpression {e : Expression} (h : (ofExpression e).encode.length < 256 ^ 4) :
    decode? (ofExpression e).encode = some (ofExpression e) :=
  decode?_encode (fits_ofExpression h)

end Automaton

end IncrementalParsing
