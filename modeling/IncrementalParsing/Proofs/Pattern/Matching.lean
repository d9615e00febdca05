import IncrementalParsing.Pattern.Expression
import IncrementalParsing.Proofs.Unicode.CodeSets
import Mathlib.Algebra.BigOperators.Group.List.Basic

/-!
# What expressions match

Whether a word matches can depend on the texts before and after it.  A `Matching` says which words match
between which texts; one matching after the other is their product.  What is built by `sequence`,
`oneOf`, `repeated` and `ofSet` is brought into a simple form, and this changes nothing of what it
matches.

## Key results

- `Expression.matching_sequence`: expressions one after the other
- `Expression.matching_oneOf`: any one of the expressions
- `Expression.matching_repeated`: an expression a number of times
-/

namespace IncrementalParsing

open Unicode (CodeSet)

/-- Which words match, between which texts. -/
abbrev Matching := (before word after : List Char) → Prop

namespace Matching

variable {L M : Matching}

/-- Two matchings are equal if they match the same words in the same surroundings. -/
@[ext] theorem ext (h : ∀ before word after, L before word after ↔ M before word after) : L = M :=
  funext fun before => funext fun word => funext fun after => propext (h before word after)

/-- The empty word. -/
instance : One Matching := ⟨fun _ word _ => word = []⟩

/-- One word after the other. -/
instance : Mul Matching := ⟨fun L M before word after =>
  ∃ u v, word = u ++ v ∧ L before u (v ++ after) ∧ M (before ++ u) v after⟩

/-- The unit matches the empty word, wherever it stands. -/
theorem one_iff {before word after : List Char} : (1 : Matching) before word after ↔ word = [] :=
  Iff.rfl

/-- A product matches a word in two parts; each part sees the other one as its surroundings. -/
theorem mul_iff {before word after : List Char} : (L * M) before word after ↔
    ∃ u v, word = u ++ v ∧ L before u (v ++ after) ∧ M (before ++ u) v after :=
  Iff.rfl

instance : Monoid Matching where
  one_mul L := by
    ext before word after
    simp [mul_iff, one_iff]
  mul_one L := by
    ext before word after
    simp [mul_iff, one_iff]
  mul_assoc L M N := by
    ext before word after
    constructor
    · rintro ⟨_, w, rfl, ⟨u, v, rfl, hu, hv⟩, hw⟩
      rw [← List.append_assoc] at hu hw
      exact ⟨u, v ++ w, List.append_assoc .., hu, v, w, rfl, hv, hw⟩
    · rintro ⟨u, _, rfl, hu, v, w, rfl, hv, hw⟩
      rw [List.append_assoc] at hu hw
      exact ⟨u ++ v, w, (List.append_assoc ..).symm, ⟨u, v, rfl, hu, hv⟩, hw⟩

/-- The words of any of some matchings. -/
def union (matchings : List Matching) : Matching := fun before word after =>
  ∃ L ∈ matchings, L before word after

/-- A union of one matching is that matching. -/
@[simp] theorem union_singleton (L : Matching) : union [L] = L := by
  ext before word after
  simp [union]

/-- A union matches what its first member or the union of the others matches. -/
theorem union_cons (L : Matching) (matchings : List Matching) :
    union (L :: matchings) = fun before word after =>
      L before word after ∨ union matchings before word after := by
  ext before word after
  simp [union]

/-- A union of unions, as a choice in a choice is one, is flat. -/
theorem union_flatMap {α : Type} (f : α → List Matching) (xs : List α) :
    union (xs.flatMap f) = union (xs.map fun x => union (f x)) := by
  ext before word after
  simp only [union, List.mem_flatMap, List.mem_map, exists_exists_and_eq_and]
  constructor
  · rintro ⟨L, ⟨x, hx, hL⟩, h⟩
    exact ⟨x, hx, L, hL, h⟩
  · rintro ⟨x, hx, L, hL, h⟩
    exact ⟨L, ⟨x, hx, hL⟩, h⟩

/-- A product distributes over a `union` on its right, so a common first part can be factored out. -/
theorem mul_union (L : Matching) (matchings : List Matching) :
    L * union matchings = union (matchings.map (L * ·)) := by
  ext before word after
  simp only [union, List.mem_map, exists_exists_and_eq_and, mul_iff]
  constructor
  · rintro ⟨u, v, hword, hu, M, hM, hv⟩
    exact ⟨M, hM, u, v, hword, hu, hv⟩
  · rintro ⟨M, hM, u, v, hword, hu, hv⟩
    exact ⟨u, v, hword, hu, M, hM, hv⟩

/-- A text. -/
def text (t : List Char) : Matching := fun _ word _ => word = t

/-- A text behind a text is matched part by part. -/
theorem text_append (s t : List Char) : text (s ++ t) = text s * text t := by
  ext before word after
  constructor
  · rintro rfl
    exact ⟨s, t, rfl, rfl, rfl⟩
  · rintro ⟨_, _, rfl, rfl, rfl⟩
    rfl

/-- One of a set of characters. -/
def oneIn (chars : CodeSet) : Matching := fun _ word _ => ∃ c : Char, chars.mem c.toNat = true ∧ word = [c]

/-- At least some number of words, and at most another if there is one. -/
def iterated (least : Nat) (most : Option Nat) (L : Matching) : Matching := fun before word after =>
  ∃ n, least ≤ n ∧ (∀ m ∈ most, n ≤ m) ∧ (L ^ n) before word after

/-- All words that match are empty. -/
def Blank (L : Matching) : Prop := ∀ before word after, L before word after → word = []

/-- What is put together of parts that are `Blank` is `Blank`. -/
theorem Blank.mul (hL : L.Blank) (hM : M.Blank) : (L * M).Blank := by
  rintro before _ after ⟨u, v, rfl, hu, hv⟩
  rw [hL _ _ _ hu, hM _ _ _ hv, List.append_nil]

/-- The unit takes no characters. -/
theorem blank_one : (1 : Matching).Blank := fun _ _ _ h => h

/-- Taking nothing again and again takes nothing. -/
theorem Blank.pow (hL : L.Blank) (n : Nat) : (L ^ n).Blank := by
  induction n with
  | zero => exact (pow_zero L).symm ▸ blank_one
  | succ n ih => exact (pow_succ L n).symm ▸ ih.mul hL

/-- A sequence of parts that take nothing takes nothing. -/
theorem blank_prod {matchings : List Matching} (h : ∀ L ∈ matchings, L.Blank) : matchings.prod.Blank := by
  induction matchings with
  | nil => exact blank_one
  | cons L rest ih =>
    obtain ⟨hL, hrest⟩ := List.forall_mem_cons.mp h
    rw [List.prod_cons]
    exact hL.mul (ih hrest)

/-- What is always empty matches again where it has matched. -/
theorem Blank.mul_self (hL : L.Blank) : L * L = L := by
  ext before word after
  constructor
  · rintro ⟨u, v, rfl, hu, hv⟩
    cases hL _ _ _ hu
    cases hL _ _ _ hv
    exact hu
  · intro h
    cases hL _ _ _ h
    exact ⟨[], [], rfl, h, by rwa [List.append_nil]⟩

/-- Where nothing is taken, one more time does not matter after the first. -/
theorem Blank.pow_eq (hL : L.Blank) (n : Nat) : L ^ (n + 1) = L := by
  induction n with
  | zero => exact pow_one L
  | succ n ih => rw [pow_succ, ih, hL.mul_self]

/-- Repeating what is always empty more than once adds nothing. -/
theorem Blank.iterated (hL : L.Blank) {least : Nat} {most : Option Nat} (hmost : ∀ m ∈ most, least ≤ m) :
    L.iterated (min least 1) (some (min (most.getD 1) 1)) = L.iterated least most := by
  ext before word after
  constructor
  -- of any number of times only none or one counts: `pow_eq` drops the others
  · rintro ⟨n, hleast, hn, h⟩
    have hn := hn _ rfl
    cases n with
    | zero => exact ⟨0, by omega, fun _ _ => Nat.zero_le _, h⟩
    | succ n =>
      rw [hL.pow_eq] at h
      refine ⟨max least 1, Nat.le_max_left .., fun m hm => ?_, ?_⟩
      · rw [Option.mem_def.mp hm, Option.getD_some] at hn
        exact Nat.max_le.mpr ⟨hmost m hm, by omega⟩
      · obtain ⟨k, hk⟩ := Nat.exists_eq_add_of_le' (Nat.le_max_right least 1)
        rwa [hk, hL.pow_eq]
  -- the other way, `min n 1` times are enough
  · rintro ⟨n, hleast, hn, h⟩
    have hgetD : min n 1 ≤ most.getD 1 := by
      cases most with
      | none => exact Nat.min_le_right ..
      | some m => exact Nat.le_trans (Nat.min_le_left ..) (hn m rfl)
    refine ⟨min n 1, by omega, fun m hm => ?_, ?_⟩
    · cases hm
      exact Nat.le_min.mpr ⟨hgetD, Nat.min_le_right ..⟩
    · cases n with
      | zero => exact h
      | succ n =>
        rw [hL.pow_eq] at h
        rwa [Nat.min_eq_right (Nat.le_add_left ..), pow_one]

/-- Not at all is the unit. -/
theorem iterated_zero_zero (L : Matching) : L.iterated 0 (some 0) = 1 := by
  ext before word after
  constructor
  · rintro ⟨n, -, hn, h⟩
    cases Nat.le_zero.mp (hn 0 rfl)
    exact h
  · exact fun h => ⟨0, Nat.le_refl _, fun _ _ => Nat.zero_le _, h⟩

/-- Exactly once is the matching itself. -/
theorem iterated_one_one (L : Matching) : L.iterated 1 (some 1) = L := by
  ext before word after
  constructor
  · rintro ⟨n, hleast, hn, h⟩
    cases Nat.le_antisymm (hn 1 rfl) hleast
    rwa [pow_one] at h
  · exact fun h => ⟨1, Nat.le_refl _, fun _ hm => Nat.le_of_eq (Option.some.inj hm), by rwa [pow_one]⟩

end Matching

namespace Expression

/-! ## Expressions -/

section

variable (holds : Look → List Char → List Char → Prop)

mutual

/-- What an expression matches, where `holds` says which conditions hold between which texts. -/
def matching : Expression → Matching
  | .empty => 1
  | .literal text => .text text
  | .set chars _ => .oneIn chars
  | .look kind => fun before word after => word = [] ∧ holds kind before after
  | .repetition least most _ content => content.matching.iterated least most
  | .capture _ content => content.matching
  | .concat parts => (matchings parts).prod
  | .alternation branches => .union (matchings branches)

/-- The matchings of expressions, in order. -/
def matchings : List Expression → List Matching
  | [] => []
  | e :: rest => e.matching :: matchings rest

end

end

variable {holds : Look → List Char → List Char → Prop}

/-- `matchings` is `matching` of each member, so that facts about `List.map` apply. -/
theorem matchings_eq_map (es : List Expression) : matchings holds es = es.map (matching holds) := by
  induction es with
  | nil => rfl
  | cons e rest ih => rw [matchings, ih, List.map_cons]

mutual

/-- Expressions that are found to be the same are equal. -/
theorem eq_of_same : ∀ {a b : Expression}, a.same b = true → a = b
  -- one case for each constructor of `a`; `same` is false where `b` has another one
  | .empty, b, h => by
    cases b with
    | empty => rfl
    | _ => cases h
  | .literal text, b, h => by
    cases b with
    | literal => exact congrArg _ (beq_iff_eq.mp h)
    | _ => cases h
  | .set chars ofBytes, b, h => by
    cases b with
    | set =>
      simp only [same, Bool.and_eq_true, beq_iff_eq] at h
      rw [h.1, h.2]
    | _ => cases h
  | .look kind, b, h => by
    cases b with
    | look => exact congrArg _ (beq_iff_eq.mp h)
    | _ => cases h
  | .repetition least most greedy content, b, h => by
    cases b with
    | repetition =>
      simp only [same, Bool.and_eq_true, beq_iff_eq] at h
      obtain ⟨⟨⟨rfl, rfl⟩, rfl⟩, hcontent⟩ := h
      rw [eq_of_same hcontent]
    | _ => cases h
  -- the index of a capture counts here, although not for what it matches
  | .capture index content, b, h => by
    cases b with
    | capture =>
      simp only [same, Bool.and_eq_true, beq_iff_eq] at h
      obtain ⟨rfl, hcontent⟩ := h
      rw [eq_of_same hcontent]
    | _ => cases h
  | .concat parts, b, h => by
    cases b with
    | concat => exact congrArg _ (eq_of_sameAll h)
    | _ => cases h
  | .alternation branches, b, h => by
    cases b with
    | alternation => exact congrArg _ (eq_of_sameAll h)
    | _ => cases h

/-- Lists that `sameAll` finds to be the same are equal. -/
theorem eq_of_sameAll : ∀ {as bs : List Expression}, sameAll as bs = true → as = bs
  | [], [], _ => rfl
  | [], _ :: _, h => by cases h
  | _ :: _, [], h => by cases h
  | a :: as, b :: bs, h => by
    rw [sameAll, Bool.and_eq_true] at h
    rw [eq_of_same h.1, eq_of_sameAll h.2]

end

/-! ## Sequences -/

/-- Taking a sequence apart leaves what it matches as it is. -/
theorem prod_sequenceParts (e : Expression) :
    ((sequenceParts e).map (matching holds)).prod = e.matching holds := by
  cases e with
  | empty => rfl
  | concat parts => rw [sequenceParts, matching, matchings_eq_map]
  | _ => exact List.prod_singleton

/-- Literals that follow each other match what the joined one does. -/
theorem prod_joinLiterals (es : List Expression) :
    ((joinLiterals es).map (matching holds)).prod = (es.map (matching holds)).prod := by
  induction es with
  | nil => rfl
  | cons e rest ih =>
    rw [joinLiterals.eq_def, List.map_cons, List.prod_cons, ← ih]
    dsimp only
    split
    -- two texts that stand together are read as one
    · rename_i a b rest' hrest
      rw [hrest, List.map_cons, List.map_cons, List.prod_cons, List.prod_cons, ← mul_assoc]
      exact congrArg (· * _) (Matching.text_append a b)
    · rw [List.map_cons, List.prod_cons]

/-- `sequence` matches what its parts match one after the other, however it joins and flattens them. -/
theorem matching_sequence (es : List Expression) :
    (sequence es).matching holds = (es.map (matching holds)).prod := by
  have hparts : ((joinLiterals (es.flatMap sequenceParts)).map (matching holds)).prod =
      (es.map (matching holds)).prod := by
    rw [prod_joinLiterals]
    -- the induction is on the parts, each of which is a product of its own parts
    induction es with
    | nil => rfl
    | cons e rest ih =>
      rw [List.flatMap_cons, List.map_append, List.prod_append, prod_sequenceParts, ih, List.map_cons,
        List.prod_cons]
  -- what is left is to join no part, one part or more of them
  rw [← hparts, sequence]
  split
  · rename_i hnil
    rw [hnil]
    rfl
  · rename_i e hsingle
    rw [hsingle]
    exact List.prod_singleton.symm
  · rw [matching, matchings_eq_map]

/-! ## Alternatives -/

/-- What is known of the members of a list that all have a view, from their views. -/
theorem map_of_mapM {α β γ : Type} {f : α → Option β} {g : α → γ} {g' : β → γ}
    (hf : ∀ a b, f a = some b → g a = g' b) {as : List α} {bs : List β} (h : as.mapM f = some bs) :
    as.map g = bs.map g' := by
  induction as generalizing bs with
  | nil =>
    cases h
    rfl
  | cons a rest ih =>
    simp only [List.mapM_cons, Option.bind_eq_bind, Option.bind_eq_some_iff, Option.pure_def,
      Option.some.injEq] at h
    obtain ⟨b, hb, bs', hrest, rfl⟩ := h
    rw [List.map_cons, List.map_cons, hf a b hb, ih hrest]

/-- `fail` matches nothing. -/
theorem matching_fail : fail.matching holds = .union [] := by
  ext before word after
  simp [fail, matching, Matching.oneIn, Matching.union, CodeSet.mem, CodeSet.empty]

/-- `ofSet` matches one character of the set, also where it makes a text or a failure of it. -/
theorem matching_ofSet {chars : CodeSet} (hchars : ∀ c, chars.mem c = true → c.isValidChar)
    (ofBytes : Bool) : (ofSet chars ofBytes).matching holds = .oneIn chars := by
  unfold ofSet
  split
  · rename_i n hn
    have hmem := fun c => CodeSet.mem_of_single? (c := c) hn
    -- a code in the set is that of a character, so `Char.ofNat` gives it back
    have hvalid : (Char.ofNat n).toNat = n := by
      rw [Char.ofNat, dif_pos (hchars n ((hmem n).mpr rfl))]
      rfl
    ext before word after
    constructor
    · intro h
      exact ⟨Char.ofNat n, (hmem _).mpr hvalid, h⟩
    · rintro ⟨c, hc, rfl⟩
      rw [← (hmem _).mp hc, Char.ofNat_toNat]
      rfl
  · split
    -- a set without characters matches nothing
    · rename_i hempty
      rw [matching_fail]
      ext before word after
      simp [Matching.oneIn, Matching.union, CodeSet.mem_of_isEmpty hempty]
    · rfl

/-- Where `single?` finds a character, nothing else is matched. -/
theorem matching_of_single? {e : Expression} {c : Char} (h : e.single? = some c) :
    e.matching holds = .oneIn (.singleton c) := by
  have he : e = .literal [c] := by
    unfold single? at h
    split at h
    · cases h
      rfl
    · cases h
  rw [he]
  ext before word after
  simp [matching, Matching.text, Matching.oneIn, CodeSet.mem_singleton]

/-- Where `set?` finds characters, one of them is matched. -/
theorem matching_of_set? {e : Expression} {chars : CodeSet} (h : e.set? = some chars) :
    e.matching holds = .oneIn chars := by
  unfold set? at h
  split at h
  · cases h
    rfl
  · cases h

/-- A character of some sets together is a character of one of them. -/
theorem oneIn_unions (sets : List CodeSet) :
    Matching.oneIn (.unions sets) = .union (sets.map .oneIn) := by
  ext before word after
  simp only [Matching.oneIn, Matching.union, CodeSet.mem_unions, List.mem_map,
    exists_exists_and_eq_and]
  constructor
  · rintro ⟨c, ⟨-, s, hs, hc⟩, rfl⟩
    exact ⟨s, hs, c, hc, rfl⟩
  · rintro ⟨s, hs, c, hc, rfl⟩
    exact ⟨c, ⟨c.valid, s, hs, hc⟩, rfl⟩

/-- Characters and sets are joined to a set that matches what they do. -/
theorem matching_of_mergedSet? {branches : List Expression} {chars : CodeSet}
    (h : mergedSet? branches = some chars) :
    (ofSet chars false).matching holds = .union (branches.map (matching holds)) := by
  -- all branches are characters, or all are sets
  obtain ⟨sets, rfl, hsets⟩ : ∃ sets, chars = .unions sets ∧
      branches.map (matching holds) = sets.map .oneIn := by
    rw [mergedSet?, Option.or_eq_some_iff] at h
    obtain h | ⟨-, h⟩ := h
    · obtain ⟨cs, hcs, rfl⟩ := Option.map_eq_some_iff.mp h
      refine ⟨_, rfl, ?_⟩
      rw [List.map_map]
      exact map_of_mapM (fun e c he => matching_of_single? he) hcs
    · obtain ⟨sets, hsets, rfl⟩ := Option.map_eq_some_iff.mp h
      exact ⟨sets, rfl, map_of_mapM (fun e s he => matching_of_set? he) hsets⟩
  rw [matching_ofSet (fun c hc => (CodeSet.mem_unions.mp hc).1), oneIn_unions, hsets]

/-- Sequences begin with the parts that they have in common. -/
theorem take_of_le_commonParts {n : Nat} :
    ∀ {as bs : List Expression}, n ≤ commonParts as bs → as.take n = bs.take n := by
  induction n with
  | zero => exact fun _ => by rw [List.take_zero, List.take_zero]
  | succ n ih =>
    intro as bs h
    cases as with
    | nil => cases h
    | cons a as =>
      cases bs with
      | nil => cases h
      | cons b bs =>
        -- the next parts are compared where all before them agree
        rw [commonParts] at h
        split at h
        · rename_i heq
          rw [List.take_succ_cons, List.take_succ_cons, eq_of_same heq, ih (Nat.le_of_succ_le_succ h)]
        · cases h

/-- The number of parts that `oneOf` factors out is in front of every branch. -/
theorem le_commonParts_of_foldl (first : List Expression) (rest : List (List Expression)) :
    ∀ n, rest.foldl (fun n parts => min n (commonParts first parts)) n ≤ n ∧
      ∀ parts ∈ rest, rest.foldl (fun n parts => min n (commonParts first parts)) n ≤
        commonParts first parts := by
  induction rest with
  | nil => exact fun n => ⟨Nat.le_refl n, fun _ h => by cases h⟩
  | cons parts rest ih =>
    intro n
    obtain ⟨hle, hall⟩ := ih (min n (commonParts first parts))
    exact ⟨Nat.le_trans hle (Nat.min_le_left ..), List.forall_mem_cons.mpr
      ⟨Nat.le_trans hle (Nat.min_le_right ..), hall⟩⟩

/-- All sequences begin with the parts that they share. -/
theorem take_sharedParts {sequences : List (List Expression)} :
    ∀ parts ∈ sequences, parts.take (sharedParts sequences) =
      (sequences.headD []).take (sharedParts sequences) := by
  cases sequences with
  | nil => exact fun _ h => by cases h
  | cons first rest =>
    have hall := (le_commonParts_of_foldl first rest first.length).2
    refine List.forall_mem_cons.mpr ⟨rfl, fun parts hparts => ?_⟩
    exact (take_of_le_commonParts (hall parts hparts)).symm

/-- Taking a choice apart leaves what it matches as it is. -/
theorem union_choiceBranches (e : Expression) :
    Matching.union ((choiceBranches e).map (matching holds)) = e.matching holds := by
  cases e with
  | alternation branches => rw [choiceBranches, matching, matchings_eq_map]
  | _ => exact Matching.union_singleton _

/-- So does taking apart every choice among some branches. -/
theorem union_flatMap_choiceBranches (es : List Expression) :
    Matching.union ((es.flatMap choiceBranches).map (matching holds)) =
      .union (es.map (matching holds)) := by
  rw [List.map_flatMap, Matching.union_flatMap]
  simp only [union_choiceBranches]

/-- What sequences share can be taken out in front of what is left of them. -/
theorem union_sequences {branches : List Expression} {sequences : List (List Expression)}
    (h : branches.mapM concat? = some sequences) :
    .union (branches.map (matching holds)) =
      (((sequences.headD []).take (sharedParts sequences)).map (matching holds)).prod *
        .union (sequences.map fun parts =>
          (sequence (parts.drop (sharedParts sequences))).matching holds) := by
  -- each branch is the product of its parts, of which those in front are shared
  have hconcat : branches.map (matching holds) =
      sequences.map fun parts => (parts.map (matching holds)).prod := by
    refine map_of_mapM (fun e parts he => ?_) h
    unfold concat? at he
    split at he
    · cases he
      rw [matching, matchings_eq_map]
    · cases he
  rw [Matching.mul_union, List.map_map, hconcat]
  refine congrArg Matching.union (List.map_congr_left fun parts hparts => ?_)
  rw [Function.comp_apply, matching_sequence, ← take_sharedParts parts hparts, ← List.prod_append,
    ← List.map_append, List.take_append_drop]

/-- Branches that are taken together match what each of them does. -/
theorem matching_choice (fuel : Nat) (branches : List Expression) :
    (choice fuel branches).matching holds = .union (branches.map (matching holds)) := by
  fun_induction choice fuel branches with
  | case1 => exact matching_fail
  | case2 => exact (Matching.union_singleton _).symm
  | case4 fuel branches _ _ chars hmerged => exact matching_of_mergedSet? hmerged
  | case7 fuel branches _ _ _ sequences hsequences n _ rests ih =>
    -- the beginnings are taken out
    rw [matching_sequence, List.map_append, List.prod_append, List.map_singleton, List.prod_singleton,
      ih, union_flatMap_choiceBranches, List.map_map, union_sequences hsequences]
    rfl
  | case3 | case5 | case6 => rw [matching, matchings_eq_map]

/-- `oneOf` matches what one of its branches matches, however it merges and factors them. -/
theorem matching_oneOf (es : List Expression) :
    (oneOf es).matching holds = .union (es.map (matching holds)) := by
  rw [oneOf, matching_choice, union_flatMap_choiceBranches]

/-! ## Repetitions -/

/-- Every character takes bytes in UTF-8. -/
theorem codeSize_pos (code : Nat) : 0 < codeSize code := by
  unfold codeSize
  split
  · decide
  · split
    · decide
    · split <;> decide

/-- A text without bytes is empty. -/
theorem eq_nil_of_textSize {text : List Char} (h : textSize text = 0) : text = [] := by
  cases text with
  | nil => rfl
  | cons c rest =>
    have hpos := codeSize_pos c.toNat
    rw [textSize, sumOf_cons] at h
    omega

mutual

/-- What is at most zero bytes long is empty. -/
theorem blank_of_maxLength : ∀ {e : Expression}, e.maxLength = some 0 → (e.matching holds).Blank
  | .empty, _ => Matching.blank_one
  | .literal text, h => by
    rintro before word after rfl
    exact eq_nil_of_textSize (Option.some.inj h)
  | .set chars ofBytes, h => by
    obtain ⟨c, -, hc⟩ := Option.map_eq_some_iff.mp h
    exact absurd hc (Nat.ne_of_gt (codeSize_pos c))
  | .look kind, _ => fun _ _ _ h => h.1
  -- either no word is repeated but the empty one, or nothing is repeated at all
  | .repetition least most greedy content, h => by
    simp only [maxLength, Option.bind_eq_bind, Option.bind_eq_some_iff, Option.pure_def,
      Option.some.injEq] at h
    obtain ⟨n, hn, m, hm, hzero⟩ := h
    rintro before word after ⟨k, -, hk, hword⟩
    obtain rfl | rfl := Nat.mul_eq_zero.mp hzero
    · exact (blank_of_maxLength hn).pow k _ _ _ hword
    · cases Nat.le_zero.mp (hk 0 hm)
      exact hword
  | .capture index content, h => blank_of_maxLength (e := content) h
  | .concat parts, h => Matching.blank_prod (blank_of_totalOf h)
  | .alternation branches, h => by
    rintro before word after ⟨L, hL, hword⟩
    exact blank_of_greatestOf h L hL _ _ _ hword

/-- If the greatest lengths of some parts add up to zero, each of the parts takes nothing. -/
theorem blank_of_totalOf : ∀ {es : List Expression}, totalOf (maxLengths es) = some 0 →
    ∀ L ∈ matchings holds es, L.Blank
  | [], _ => fun _ h => by cases h
  | e :: rest, h => by
    simp only [maxLengths, totalOf, Option.bind_eq_bind, Option.bind_eq_some_iff, Option.pure_def,
      Option.some.injEq] at h
    obtain ⟨n, hn, m, hm, hzero⟩ := h
    obtain ⟨rfl, rfl⟩ := Nat.add_eq_zero_iff.mp hzero
    exact List.forall_mem_cons.mpr ⟨blank_of_maxLength hn, blank_of_totalOf hm⟩

/-- If the greatest length of some branches is zero, each of the branches takes nothing. -/
theorem blank_of_greatestOf : ∀ {es : List Expression}, greatestOf (maxLengths es) = some 0 →
    ∀ L ∈ matchings holds es, L.Blank
  | [], h => by cases h
  | [e], h => List.forall_mem_singleton.mpr (blank_of_maxLength h)
  | e :: e' :: rest, h => by
    simp only [maxLengths, greatestOf, Option.bind_eq_bind, Option.bind_eq_some_iff, Option.pure_def,
      Option.some.injEq] at h
    obtain ⟨n, hn, m, hm, hzero⟩ := h
    obtain ⟨rfl, rfl⟩ := Nat.max_eq_zero_iff.mp hzero
    exact List.forall_mem_cons.mpr ⟨blank_of_maxLength hn, blank_of_greatestOf hm⟩

end

/-- `repeated` matches its content as often as it says, however it simplifies the bounds. -/
theorem matching_repeated {least : Nat} {most : Option Nat} (hmost : ∀ m ∈ most, least ≤ m) (greedy : Bool)
    (e : Expression) :
    (repeated least most greedy e).matching holds = (e.matching holds).iterated least most := by
  -- what matches only the empty word is repeated once at most
  obtain ⟨least', most', hbounds, hiterated⟩ : ∃ least' most',
      (if e.maxLength == some 0 then (min least 1, some (min (most.getD 1) 1)) else (least, most)) =
        (least', most') ∧
      (e.matching holds).iterated least' most' = (e.matching holds).iterated least most := by
    split
    · rename_i hzero
      exact ⟨_, _, rfl, (blank_of_maxLength (beq_iff_eq.mp hzero)).iterated hmost⟩
    · exact ⟨_, _, rfl, rfl⟩
  rw [← hiterated, repeated, hbounds]
  dsimp only
  split
  · rename_i hnone
    simp only [Bool.and_eq_true, beq_iff_eq] at hnone
    rw [hnone.1, hnone.2, Matching.iterated_zero_zero, matching]
  · split
    · rename_i hone
      simp only [Bool.and_eq_true, beq_iff_eq] at hone
      rw [hone.1, hone.2, Matching.iterated_one_one]
    · rw [matching]

end Expression

end IncrementalParsing
