import IncrementalParsing.Proofs.Pattern.Matching
import IncrementalParsing.Proofs.Pattern.Reading
import IncrementalParsing.Pattern.Meaning

/-!
# Patterns in groups

The reader takes a pattern item by item, and opens groups as they come.  A pattern that is read in a group
is the one that it is alone: groups may have other numbers, which changes nothing of what matches.  Only
a comment that is not over where the pattern ends hides the end of the group.

## Key results

- `body?_item`, `body?_group`: the reader as steps
- `Alike.expressionIn?`: numbers of groups do not matter
- `body?_endsAlike`: reading alone and reading in a group
- `alike_of_parse?`: a whole pattern in a group
-/

namespace IncrementalParsing.Pattern

/-! ## The reader step by step -/

/-- What comes next in a pattern, other than a group. -/
inductive Item where
  | finish
  | branch
  | part (p : Pattern)
  | repetition (least : Nat) (most : Option Nat) (greedy : Bool)

/-- The part that an atom is. -/
def Atom.pattern : Atom → Pattern
  | .literal l => .literal l
  | .anchor kind => .anchor kind
  | .cls tree => .cls tree

/-- A repetition with the mark behind it. -/
def repetitionItem (least : Nat) (most : Option Nat) (cs : List Char) : Item × List Char :=
  (.repetition least most (lazyMark cs).1, (lazyMark cs).2)

/-- A class after its bracket. -/
def classItem? (free : Bool) (cs : List Char) : Option (Item × List Char) :=
  match classOpening free cs with
  | (negated, opening, rest) =>
    (classBody? free (rest.length + 1) none opening rest).map fun r =>
      (.part (.cls (.bracketed negated r.1)), r.2)

/-- What comes next where nothing is skipped. -/
def nextItem? (free : Bool) : List Char → Option (Item × List Char)
  | [] => some (.finish, [])
  | ')' :: rest => some (.finish, ')' :: rest)
  | '|' :: rest => some (.branch, rest)
  | '[' :: rest => classItem? free rest
  | '?' :: rest => some (repetitionItem 0 (some 1) rest)
  | '*' :: rest => some (repetitionItem 0 none rest)
  | '+' :: rest => some (repetitionItem 1 none rest)
  | '\x7b' :: rest =>
    (counted? free rest).map fun r => repetitionItem r.1 r.2.1 (skipFree free r.2.2)
  | '\\' :: rest => (escape? free rest).map fun r => (.part r.1.pattern, r.2)
  | '.' :: rest => some (.part .dot, rest)
  | '^' :: rest => some (.part (.anchor .lineStart), rest)
  | '$' :: rest => some (.part (.anchor .lineEnd), rest)
  | c :: rest => some (.part (.literal ⟨c, false⟩), rest)

/-- What comes next. -/
def item? (free : Bool) (cs : List Char) : Option (Item × List Char) := nextItem? free (skipFree free cs)

/-- What the reader does with what comes next, where that is no group. -/
def proceed (fuel : Nat) (branches parts : List Pattern) (s : Cursor) :
    Option (Item × List Char) → Option (Pattern × Cursor)
  | none => none
  | some (.finish, rest) => some (alternationOf (concatOf parts :: branches), { s with rest := rest })
  | some (.branch, rest) => body? fuel (concatOf parts :: branches) [] { s with rest := rest }
  | some (.part p, rest) => body? fuel branches (p :: parts) { s with rest := rest }
  | some (.repetition least most greedy, rest) =>
    match repeatLast? least most greedy parts with
    | some parts => body? fuel branches parts { s with rest := rest }
    | none => none

/-- Where no group opens, one step of `body?` reads an item and goes on with it. -/
theorem body?_item {s : Cursor} (h : ∀ rest, skipFree s.free s.rest ≠ '(' :: rest) (fuel : Nat)
    (branches parts : List Pattern) :
    body? (fuel + 1) branches parts s = proceed fuel branches parts s (item? s.free s.rest) := by
  rw [body?]
  dsimp only
  split
  case h_4 rest hskip => exact absurd hskip (h rest)
  -- classes, counted repetitions and escapes may fail to be read, on both sides alike
  case h_5 rest hskip =>
    have hnext : nextItem? s.free ('[' :: rest) = classItem? s.free rest := rfl
    rw [item?, hskip, hnext, classItem?]
    dsimp only
    split
    · rename_i tree rest' hclass
      rw [hclass]
      rfl
    · rename_i hclass
      rw [hclass]
      rfl
  case h_9 rest hskip =>
    rw [item?, hskip, nextItem?]
    split
    · rename_i hcounted
      rw [hcounted]
      rfl
    · rename_i hcounted
      rw [hcounted]
      rfl
  case h_10 rest hskip =>
    rw [item?, hskip, nextItem?]
    split
    case h_4 hescape =>
      rw [hescape]
      rfl
    all_goals
      rename_i hescape
      rw [hescape]
      rfl
  case h_14 hskip =>
    rw [item?, hskip, nextItem?]
    · rfl
    all_goals assumption
  all_goals
    rename_i hskip
    rw [item?, hskip]
    rfl

/-! ## What follows a part -/

variable {free : Bool}

/-- A repetition mark ends before the bracket. -/
theorem repetitionItem_stays {least : Nat} {most : Option Nat} (cs : List Char) (k : List Char) :
    repetitionItem least most (cs ++ ')' :: k) =
      ((repetitionItem least most cs).1, (repetitionItem least most cs).2 ++ ')' :: k) := by
  cases cs with
  | nil => rfl
  | cons c cs =>
    by_cases hc : c = '?'
    · subst hc
      rfl
    -- only a question mark is taken for the lazy mark
    · have hplain : ∀ cs, lazyMark (c :: cs) = (true, c :: cs) := by
        intro cs
        rw [lazyMark]
        exact fun _ heq => hc (List.cons.inj heq).1
      simp only [repetitionItem, List.cons_append, hplain]

/-- A class is read in the same way where a bracket follows at some distance. -/
theorem classItem?_append {cs rest : List Char} {i : Item} (h : classItem? free cs = some (i, rest))
    (k : List Char) : classItem? free (cs ++ ')' :: k) = some (i, rest ++ ')' :: k) := by
  unfold classItem? at h
  split at h
  rename_i negated literals inner hopening
  obtain ⟨⟨tree, after⟩, hclass, heq⟩ := Option.map_eq_some_iff.mp h
  cases heq
  -- a class that was read to its end has something behind its opening
  have hinner : inner ≠ [] := by
    rintro rfl
    rw [classBody?, skipFree_nil] at hclass
    cases hclass
  unfold classItem?
  rw [classOpening_append hopening hinner]
  dsimp only
  rw [classBody?_append hclass (by simp)]
  rfl

/-- The next part of a pattern does not depend on what follows the pattern. -/
theorem nextItem?_stays {cs rest : List Char} {i : Item} (hne : cs ≠ [])
    (h : nextItem? free cs = some (i, rest)) : Stays (nextItem? free) cs i rest := by
  -- the three short repetitions are read alike
  have hrepetition : ∀ {c least most after}, (∀ cs, nextItem? free (c :: cs) =
      some (repetitionItem least most cs)) → cs = c :: after → Stays (nextItem? free) cs i rest := by
    rintro c least most after hread rfl
    rw [hread] at h
    cases h
    exact .inl fun k => by rw [List.cons_append, hread, repetitionItem_stays]; rfl
  have hitem := h
  unfold nextItem? at h
  split at h
  case h_1 => exact absurd rfl hne
  case h_4 after => exact .inl (classItem?_append h)
  case h_5 | h_6 | h_7 => exact hrepetition (fun _ => rfl) rfl
  case h_8 after =>
    obtain ⟨⟨least, most, after'⟩, hcounted, heq⟩ := Option.map_eq_some_iff.mp h
    have hcounted' := (counted?_append hcounted).2
    cases heq
    obtain hskip | ⟨hnil, hskip⟩ := skipFree_stays free after'
    · refine .inl fun k => ?_
      rw [List.cons_append, nextItem?, hcounted', Option.map_some, hskip, repetitionItem_stays]
      rfl
    -- only a comment goes on to the end, and this one hides what is put there
    · refine .inr ⟨by rw [hnil]; rfl, ?_⟩
      rw [List.cons_append, nextItem?, hcounted', Option.map_some, hskip, hnil]
      rfl
  case h_9 after =>
    obtain ⟨⟨atom, after'⟩, hescape, heq⟩ := Option.map_eq_some_iff.mp h
    cases heq
    have hread : ∀ cs, nextItem? free ('\\' :: cs) =
        (escape? free cs).map fun r => (Item.part r.1.pattern, r.2) := fun _ => rfl
    exact (escape?_stays hescape).after (f := fun atom => Item.part atom.pattern) hread
  case h_13 c after _ _ _ _ _ _ _ _ _ _ _ =>
    cases h
    refine .inl fun k => ?_
    rw [List.cons_append, nextItem?]
    all_goals assumption
  all_goals
    cases h
    exact .inl fun _ => rfl

/-- So is every other item. -/
theorem item?_stays {cs rest : List Char} {i : Item} (h : item? free cs = some (i, rest)) :
    Stays (item? free) cs i rest := by
  cases hskip : skipFree free cs with
  | nil =>
    rw [item?, hskip] at h
    cases h
    -- a comment that is not ended takes the closing bracket in
    obtain hskip' | ⟨-, hskip'⟩ := skipFree_stays free cs
    · exact .inl fun k => by rw [item?, hskip', hskip]; rfl
    · exact .inr ⟨rfl, by rw [item?, hskip']; rfl⟩
  | cons c l =>
    rw [item?, hskip] at h
    refine (nextItem?_stays (List.cons_ne_nil c l) h).of_eq fun k => ?_
    rw [item?, skipFree_append hskip]
    rfl

/-- The bounds of a repetition are in order. -/
theorem ordered_of_item? {cs rest : List Char} {least : Nat} {most : Option Nat} {greedy : Bool}
    (h : item? free cs = some (.repetition least most greedy, rest)) : ∀ m ∈ most, least ≤ m := by
  unfold item? nextItem? at h
  split at h
  -- the short repetitions are in order, and a counted one is checked when it is read
  case h_5 | h_6 | h_7 =>
    cases h
    simp
  case h_8 =>
    obtain ⟨r, hcounted, heq⟩ := Option.map_eq_some_iff.mp h
    cases heq
    exact (counted?_append hcounted).1
  case h_4 =>
    unfold classItem? at h
    obtain ⟨r, -, heq⟩ := Option.map_eq_some_iff.mp h
    cases heq
  case h_9 =>
    obtain ⟨r, -, heq⟩ := Option.map_eq_some_iff.mp h
    cases heq
  all_goals cases h

/-! ## Openings of groups -/

/-- Openings that are the same but for the number of the group. -/
inductive Opening.Alike : Opening → Opening → Prop
  | refl (o : Opening) : Alike o o
  | capture (i j : Nat) : Alike (.group (.capture i)) (.group (.capture j))

/-- Switches are read the same whatever follows, as they end with a mark. -/
theorem switches?_append {on : Bool} : ∀ {acc switches : Switches} {cs rest : List Char},
    switches? on acc cs = some (switches, rest) →
      rest ≠ [] ∧ ∀ k, switches? on acc (cs ++ k) = some (switches, rest ++ k) := by
  intro acc switches cs
  -- the induction is on the characters, over the switches that were read before
  induction cs generalizing on acc with
  | nil => exact fun h => by cases h
  | cons c cs ih =>
    intro rest h
    unfold switches? at h
    split at h
    · rename_i hend
      cases h
      refine ⟨List.cons_ne_nil c cs, fun k => ?_⟩
      unfold switches?
      exact if_pos hend
    · rename_i hend
      split at h
      · rename_i hhyphen
        split at h
        · rename_i d cs
          obtain ⟨hon, h⟩ := Option.ite_none_right_eq_some.mp h
          refine ⟨(ih h).1, fun k => ?_⟩
          rw [List.cons_append, switches?.eq_def]
          dsimp only
          rw [if_neg hend, if_pos hhyphen]
          exact (if_pos hon).trans ((ih h).2 k)
        · cases h
      · rename_i hhyphen
        split at h
        · rename_i switch hswitch
          obtain ⟨hnew, h⟩ := Option.ite_none_left_eq_some.mp h
          refine ⟨(ih h).1, fun k => ?_⟩
          rw [List.cons_append, switches?.eq_def]
          dsimp only
          rw [if_neg hend, if_neg hhyphen, hswitch]
          exact (if_neg hnew).trans ((ih h).2 k)
        · cases h

/-- So is the name of a group. -/
theorem groupName?_append {cs rest : List Char} {name : String} (h : groupName? cs = some (name, rest))
    (k : List Char) : groupName? (cs ++ k) = some (name, rest ++ k) := by
  unfold groupName? at h
  split at h
  · rename_i first more c after htake hdrop
    split at h
    · rename_i hname
      cases h
      have hdrop' : cs.dropWhile (· != '>') ≠ [] := hdrop ▸ List.cons_ne_nil c rest
      -- a closing mark was found, so the name ends in the part that was there
      have htake' : (cs.takeWhile (· != '>')).length ≠ cs.length := fun hlength => by
        have := congrArg List.length (List.takeWhile_append_dropWhile (p := (· != '>')) (l := cs))
        rw [List.length_append, hlength] at this
        exact hdrop' (List.length_eq_zero_iff.mp (Nat.add_eq_left.mp this))
      rw [groupName?, dropWhile_append_of_ne hdrop', List.takeWhile_append, if_neg htake', htake, hdrop]
      exact if_pos hname
    · cases h
  · cases h

/-- The opening of a group with a name, after the angle bracket. -/
def named? (s : Cursor) (cs : List Char) : Option (Opening × Cursor) := do
  let (name, rest) ← groupName? cs
  if s.names.contains name then none
  let index := s.captures + 1
  return (.group (.capture index), { s with rest := rest, captures := index, names := name :: s.names })

/-- An opening with switches, after the question mark. -/
def switched? (s : Cursor) (cs : List Char) : Option (Opening × Cursor) :=
  match switches? true [] cs with
  | some (switches, ':' :: rest) => some (.group (.plain switches), { s with rest := rest })
  | some (switches, _ :: rest) =>
    if switches.isEmpty then none else some (.directive switches, { s with rest := rest })
  | _ => none

/-- A named group opens alike whatever follows its opening. -/
theorem named?_alike {s s' c c' : Cursor} {cs k : List Char} {o o' : Opening}
    (h : named? s cs = some (o, s')) (hc : named? c (cs ++ k) = some (o', c')) :
    o.Alike o' ∧ c'.rest = s'.rest ++ k := by
  simp only [named?, Option.bind_eq_bind, Option.bind_eq_some_iff] at h hc
  obtain ⟨⟨name, rest⟩, hname, h⟩ := h
  -- the name is the same, whether it was met before may differ
  obtain ⟨r, hname', hc⟩ := hc
  rw [groupName?_append hname] at hname'
  cases hname'
  dsimp only at h hc
  split at h
  · cases h
  · split at hc
    · cases hc
    · cases h
      cases hc
      exact ⟨.capture .., rfl⟩

/-- So does a group with switches, or a directive. -/
theorem switched?_alike {s s' c c' : Cursor} {cs k : List Char} {o o' : Opening}
    (h : switched? s cs = some (o, s')) (hc : switched? c (cs ++ k) = some (o', c')) :
    o.Alike o' ∧ c'.rest = s'.rest ++ k := by
  unfold switched? at h
  split at h
  · rename_i switches rest hswitches
    rw [switched?, (switches?_append hswitches).2] at hc
    cases h
    cases hc
    exact ⟨.refl _, rfl⟩
  · rename_i switches d rest hne hswitches
    rw [switched?, (switches?_append hswitches).2] at hc
    dsimp only [List.cons_append] at hc
    split at h
    · cases h
    · rename_i hempty
      cases h
      split at hc
      · rename_i heq
        cases heq
        exact (hne rfl).elim
      -- only switches that are closed at once set anything for the rest of the group
      · rename_i heq
        cases heq
        rw [if_neg hempty] at hc
        cases hc
        exact ⟨.refl _, rfl⟩
      · cases hc
  · cases h

/-- The opening of a group where nothing is skipped. -/
def openingAt? (s : Cursor) (cs : List Char) : Option (Opening × Cursor) :=
  match cs with
  | '?' :: '=' :: _ => none
  | '?' :: '!' :: _ => none
  | '?' :: '<' :: '=' :: _ => none
  | '?' :: '<' :: '!' :: _ => none
  | '?' :: 'P' :: '<' :: rest => named? s rest
  | '?' :: '<' :: rest => named? s rest
  | '?' :: rest => switched? s rest
  | rest => some (.group (.capture (s.captures + 1)), { s with rest := rest, captures := s.captures + 1 })

/-- `opening?` skips what may stand between the bracket and the rest. -/
theorem opening?_eq (s : Cursor) : opening? s = openingAt? s (skipFree s.free s.rest) := rfl

/-- The first character of a list with something behind the list. -/
theorem not_append_eq {d : Char} {cs k : List Char} (hne : cs ≠ []) (h : ∀ tail, cs = d :: tail → False) :
    ∀ tail, cs ++ k = d :: tail → False := by
  obtain ⟨c, more, rfl⟩ := List.exists_cons_of_ne_nil hne
  intro tail heq
  exact h more ((List.cons.inj heq).1 ▸ rfl)

/-- Whatever kind of group is opened, it opens alike. -/
theorem openingAt?_alike {s s' c c' : Cursor} {cs k : List Char} {o o' : Opening} (hne : cs ≠ [])
    (h : openingAt? s cs = some (o, s')) (hc : openingAt? c (cs ++ k) = some (o', c')) :
    o.Alike o' ∧ c'.rest = s'.rest ++ k := by
  unfold openingAt? at h
  split at h
  case h_1 | h_2 | h_3 | h_4 => cases h
  case h_5 => exact named?_alike h hc
  -- a name follows, as neither kind of look does
  case h_6 rest hequal hdiffer =>
    have hrest : rest ≠ [] := by
      rintro rfl
      cases h
    rw [List.cons_append, List.cons_append, openingAt?] at hc
    · exact named?_alike h hc
    · exact not_append_eq hrest hequal
    · exact not_append_eq hrest hdiffer
  case h_7 rest hequal hdiffer _ _ hnamed hangle =>
    have hrest : rest ≠ [] := by
      rintro rfl
      cases h
    -- no switch has this letter
    have hletter : ∀ tail, rest = 'P' :: tail → False := by
      rintro tail rfl
      cases h
    rw [List.cons_append, openingAt?] at hc
    · exact switched?_alike h hc
    · exact not_append_eq hrest hequal
    · exact not_append_eq hrest hdiffer
    · exact fun _ => not_append_eq hrest hangle _
    · exact fun _ => not_append_eq hrest hangle _
    · exact fun _ => not_append_eq hrest hletter _
    · exact not_append_eq hrest hangle
  case h_8 hmark =>
    cases h
    rw [openingAt?] at hc
    · cases hc
      exact ⟨.capture .., rfl⟩
    all_goals exact fun _ => not_append_eq hne hmark _

/-- A group opens in the same way whatever follows the pattern. -/
theorem opening?_alike {s s' : Cursor} {o : Opening} (h : opening? s = some (o, s'))
    (hskip : skipFree s.free s.rest ≠ []) {k : List Char} {c c' : Cursor} {o' : Opening}
    (hrest : c.rest = s.rest ++ k) (hfree : c.free = s.free) (hc : opening? c = some (o', c')) :
    o.Alike o' ∧ c'.rest = s'.rest ++ k := by
  rw [opening?_eq] at h hc
  rw [hfree, hrest, skipFree_append_of_ne hskip] at hc
  exact openingAt?_alike hskip h hc

/-! ## Patterns that differ in the numbers of their groups -/

/-- Patterns that are the same but for the numbers of groups, with repetitions whose bounds are in
order. -/
inductive Alike : Pattern → Pattern → Prop
  | refl (p : Pattern) : Alike p p
  | repetition {least : Nat} {most : Option Nat} (hmost : ∀ m ∈ most, least ≤ m) (greedy : Bool)
      {p q : Pattern} (content : Alike p q) :
      Alike (.repetition least most greedy p) (.repetition least most greedy q)
  | capture (i j : Nat) {p q : Pattern} (content : Alike p q) :
      Alike (.group (.capture i) p) (.group (.capture j) q)
  | plain (switches : Switches) {p q : Pattern} (content : Alike p q) :
      Alike (.group (.plain switches) p) (.group (.plain switches) q)
  | concat {p q : Pattern} {ps qs : List Pattern} (first : Alike p q)
      (rest : Alike (.concat ps) (.concat qs)) : Alike (.concat (p :: ps)) (.concat (q :: qs))
  | alternation {p q : Pattern} {ps qs : List Pattern} (first : Alike p q)
      (rest : Alike (.alternation ps) (.alternation qs)) :
      Alike (.alternation (p :: ps)) (.alternation (q :: qs))

section

variable {m m' : Modes} {e : Expression} {es : List Expression} {p : Pattern} {ps : List Pattern}

/-- Expressions are made of patterns in order, each with the modes that the one before leaves. -/
theorem expressionsIn?_cons : expressionsIn? m (p :: ps) = some (es, m') ↔
    ∃ e m₁ rest, expressionIn? m p = some (e, m₁) ∧ expressionsIn? m₁ ps = some (rest, m') ∧
      es = e :: rest := by
  simp only [expressionsIn?, Option.bind_eq_bind, Option.bind_eq_some_iff, Option.pure_def,
    Option.some.injEq, Prod.mk.injEq, Prod.exists]
  constructor
  · rintro ⟨e, m₁, hfirst, rest, _, hrest, rfl, rfl⟩
    exact ⟨e, m₁, rest, hfirst, hrest, rfl⟩
  · rintro ⟨e, m₁, rest, hfirst, hrest, rfl⟩
    exact ⟨e, m₁, hfirst, rest, m', hrest, rfl, rfl⟩

/-- What a sequence of patterns is made into. -/
theorem expressionIn?_concat : expressionIn? m (.concat ps) = some (e, m') ↔
    ∃ es, expressionsIn? m ps = some (es, m') ∧ .sequence es = e := by
  simp [expressionIn?, Option.bind_eq_some_iff]

/-- What alternatives are made into. -/
theorem expressionIn?_alternation : expressionIn? m (.alternation ps) = some (e, m') ↔
    ∃ es, expressionsIn? m ps = some (es, m') ∧ .oneOf es = e := by
  simp [expressionIn?, Option.bind_eq_some_iff]

/-- What a repetition is made into; a swapped mode turns its greed around. -/
theorem expressionIn?_repetition {least : Nat} {most : Option Nat} {greedy : Bool} :
    expressionIn? m (.repetition least most greedy p) = some (e, m') ↔
      ∃ e', expressionIn? m p = some (e', m') ∧
        .repeated least most (greedy != m'.swapGreed) e' = e := by
  simp only [expressionIn?, Option.bind_eq_bind, Option.bind_eq_some_iff, Option.pure_def,
    Option.some.injEq, Prod.mk.injEq, Prod.exists]
  constructor
  · rintro ⟨e', _, hp, rfl, rfl⟩
    exact ⟨e', hp, rfl⟩
  · rintro ⟨e', hp, rfl⟩
    exact ⟨e', m', hp, rfl, rfl⟩

/-- What a group with a number is made into; the modes set in it end with it. -/
theorem expressionIn?_capture {i : Nat} : expressionIn? m (.group (.capture i) p) = some (e, m') ↔
    ∃ e', (∃ m₁, expressionIn? m p = some (e', m₁)) ∧ .capture i e' = e ∧ m = m' := by
  simp [expressionIn?, Option.bind_eq_some_iff]

/-- What a group with switches is made into; they are set in it alone. -/
theorem expressionIn?_plain {switches : Switches} :
    expressionIn? m (.group (.plain switches) p) = some (e, m') ↔
      (∃ m₁, expressionIn? (m.apply switches) p = some (e, m₁)) ∧ m = m' := by
  simp [expressionIn?, Option.bind_eq_some_iff]

end

/-- Patterns that are alike stand for expressions that match the same. -/
theorem Alike.expressionIn? {holds : Look → List Char → List Char → Prop} {p q : Pattern} (h : p.Alike q) :
    ∀ {m m' : Modes} {e : Expression}, expressionIn? m p = some (e, m') →
      ∃ e', Pattern.expressionIn? m q = some (e', m') ∧ e'.matching holds = e.matching holds := by
  induction h with
  | refl p => exact fun h => ⟨_, h, rfl⟩
  -- how often something is repeated is what counts, not how it is preferred
  | repetition hmost greedy _ ih =>
    intro m m' e h
    obtain ⟨content, hcontent, rfl⟩ := expressionIn?_repetition.mp h
    obtain ⟨content', hcontent', heq⟩ := ih hcontent
    refine ⟨_, expressionIn?_repetition.mpr ⟨content', hcontent', rfl⟩, ?_⟩
    rw [Expression.matching_repeated hmost, Expression.matching_repeated hmost, heq]
  -- the number of a group says nothing about what it matches
  | capture i j _ ih =>
    intro m m' e h
    obtain ⟨content, ⟨m₁, hcontent⟩, rfl, rfl⟩ := expressionIn?_capture.mp h
    obtain ⟨content', hcontent', heq⟩ := ih hcontent
    exact ⟨_, expressionIn?_capture.mpr ⟨content', ⟨m₁, hcontent'⟩, rfl, rfl⟩, heq⟩
  | plain switches _ ih =>
    intro m m' e h
    obtain ⟨⟨m₁, hcontent⟩, rfl⟩ := expressionIn?_plain.mp h
    obtain ⟨content', hcontent', heq⟩ := ih hcontent
    exact ⟨_, expressionIn?_plain.mpr ⟨⟨m₁, hcontent'⟩, rfl⟩, heq⟩
  | concat _ _ ihfirst ihrest =>
    -- what follows the first part is a sequence of its own
    intro m m' e h
    obtain ⟨es, hes, rfl⟩ := expressionIn?_concat.mp h
    obtain ⟨first, m₁, rest, hfirst, hrest, rfl⟩ := expressionsIn?_cons.mp hes
    obtain ⟨first', hfirst', hmatching⟩ := ihfirst hfirst
    obtain ⟨e', he', hmatching'⟩ := ihrest (expressionIn?_concat.mpr ⟨rest, hrest, rfl⟩)
    obtain ⟨rest', hrest', rfl⟩ := expressionIn?_concat.mp he'
    refine ⟨_, expressionIn?_concat.mpr
      ⟨_, expressionsIn?_cons.mpr ⟨first', m₁, rest', hfirst', hrest', rfl⟩, rfl⟩, ?_⟩
    simp only [Expression.matching_sequence, List.map_cons, List.prod_cons] at hmatching' ⊢
    rw [hmatching, hmatching']
  | alternation _ _ ihfirst ihrest =>
    intro m m' e h
    obtain ⟨es, hes, rfl⟩ := expressionIn?_alternation.mp h
    obtain ⟨first, m₁, rest, hfirst, hrest, rfl⟩ := expressionsIn?_cons.mp hes
    obtain ⟨first', hfirst', hmatching⟩ := ihfirst hfirst
    obtain ⟨e', he', hmatching'⟩ := ihrest (expressionIn?_alternation.mpr ⟨rest, hrest, rfl⟩)
    obtain ⟨rest', hrest', rfl⟩ := expressionIn?_alternation.mp he'
    refine ⟨_, expressionIn?_alternation.mpr
      ⟨_, expressionsIn?_cons.mpr ⟨first', m₁, rest', hfirst', hrest', rfl⟩, rfl⟩, ?_⟩
    simp only [Expression.matching_oneOf, List.map_cons, Matching.union_cons] at hmatching' ⊢
    rw [hmatching, hmatching']

/-- Sequences of patterns that are alike are alike, -/
theorem alike_concat {ps qs : List Pattern} (h : List.Forall₂ Alike ps qs) :
    (Pattern.concat ps).Alike (.concat qs) := by
  induction h with
  | nil => exact .refl _
  | cons hfirst _ ih => exact .concat hfirst ih

/-- and so are alternatives. -/
theorem alike_alternation {ps qs : List Pattern} (h : List.Forall₂ Alike ps qs) :
    (Pattern.alternation ps).Alike (.alternation qs) := by
  induction h with
  | nil => exact .refl _
  | cons hfirst _ ih => exact .alternation hfirst ih

/-- `concatOf` keeps likeness, also where it leaves a single pattern as it is. -/
theorem alike_concatOf {ps qs : List Pattern} (h : List.Forall₂ Alike ps qs) :
    (concatOf ps).Alike (concatOf qs) := by
  cases h with
  | nil => exact .refl _
  | cons hfirst hrest =>
    cases hrest with
    | nil => exact hfirst
    | cons hsecond hrest =>
      exact alike_concat (List.forall₂_reverse_iff.mpr (.cons hfirst (.cons hsecond hrest)))

/-- So does `alternationOf`. -/
theorem alike_alternationOf {ps qs : List Pattern} (h : List.Forall₂ Alike ps qs) :
    (alternationOf ps).Alike (alternationOf qs) := by
  cases h with
  | nil => exact .refl _
  | cons hfirst hrest =>
    cases hrest with
    | nil => exact hfirst
    | cons hsecond hrest =>
      exact alike_alternation (List.forall₂_reverse_iff.mpr (.cons hfirst (.cons hsecond hrest)))

/-! ## Reading a pattern in a group -/

/-- Whether blanks are skipped in a group. -/
def GroupKind.skips (kind : GroupKind) (free : Bool) : Bool :=
  match kind with
  | .plain switches => switches.value .freeSpacing free
  | .capture _ => free

/-- Groups that open alike. -/
theorem Opening.Alike.group {kind : GroupKind} {o : Opening} (h : Opening.Alike (.group kind) o)
    (free : Bool) :
    ∃ kind', o = .group kind' ∧ kind'.skips free = kind.skips free ∧
      ∀ {p q : Pattern}, p.Alike q → (Pattern.group kind p).Alike (.group kind' q) := by
  cases h with
  | refl =>
    refine ⟨kind, rfl, rfl, fun h => ?_⟩
    cases kind with
    | capture i => exact .capture i i h
    | plain switches => exact .plain switches h
  | capture i j => exact ⟨.capture j, rfl, rfl, .capture i j⟩

/-- How a group is read after its opening. -/
def readGroup? (fuel : Nat) (branches parts : List Pattern) (free : Bool) :
    Option (Opening × Cursor) → Option (Pattern × Cursor)
  | none => none
  | some (.directive switches, s) =>
    body? fuel branches (.directive switches :: parts)
      { s with free := switches.value .freeSpacing free }
  | some (.group kind, s) =>
    match body? fuel [] [] { s with free := kind.skips free } with
    | some (content, s') =>
      match s'.rest with
      | ')' :: rest =>
        body? fuel branches (.group kind content :: parts) { s' with rest := rest, free := free }
      | _ => none
    | none => none

/-- Where a group opens, one step of `body?` reads its opening. -/
theorem body?_group {s : Cursor} {rest : List Char} (h : skipFree s.free s.rest = '(' :: rest) (fuel : Nat)
    (branches parts : List Pattern) :
    body? (fuel + 1) branches parts s =
      readGroup? fuel branches parts s.free (opening? { s with rest := rest }) := by
  rw [body?, h]
  rfl

/-- Without text left nothing is left afterwards. -/
theorem body?_nil {fuel : Nat} {branches parts : List Pattern} {s s' : Cursor} {p : Pattern}
    (hs : s.rest = []) (h : body? fuel branches parts s = some (p, s')) : s'.rest = [] := by
  cases fuel with
  | zero => cases h
  | succ fuel =>
    rw [body?, hs, skipFree_nil] at h
    cases h
    rfl

/-- What is read where a parenthesis and more follow, behind parts that are alike. -/
def InGroup (branches parts : List Pattern) (s : Cursor) (k : List Char) (r : Pattern × Cursor) : Prop :=
  ∃ fuel branches' parts' c, List.Forall₂ Alike branches branches' ∧ List.Forall₂ Alike parts parts' ∧
    c.rest = s.rest ++ ')' :: k ∧ c.free = s.free ∧ body? fuel branches' parts' c = some r

/-- Reading ends in a group where it ends without one, with a pattern that is alike.  Otherwise it ends in
a comment, and the group has no end. -/
def EndsAlike (branches parts : List Pattern) (s : Cursor) (p : Pattern) (s' : Cursor) : Prop :=
  (∀ k r, InGroup branches parts s k r → p.Alike r.1 ∧ r.2.rest = s'.rest ++ ')' :: k) ∨
    (s'.rest = [] ∧ ∀ r, InGroup branches parts s [] r → r.2.rest = [])

section

variable {fuel : Nat} {branches parts branches₁ parts₁ : List Pattern} {s s' t : Cursor} {p : Pattern}

/-- A step that leads to where a pattern ends alike makes it end alike from before the step. -/
theorem EndsAlike.of_step (h : EndsAlike branches₁ parts₁ t p s')
    (hstep : ∀ k r, InGroup branches parts s k r → InGroup branches₁ parts₁ t k r) :
    EndsAlike branches parts s p s' := by
  obtain h | ⟨hnil, h⟩ := h
  · exact .inl fun k r hr => h k r (hstep k r hr)
  · exact .inr ⟨hnil, fun r hr => h r (hstep [] r hr)⟩

/-- What is no group is read in the same way, whatever follows. -/
theorem body?_item_stays (hgroup : ∀ rest, skipFree s.free s.rest ≠ '(' :: rest) {i : Item}
    {rest : List Char} (h : item? s.free s.rest = some (i, rest)) :
    (∀ k c, c.rest = s.rest ++ ')' :: k → c.free = s.free → ∀ fuel branches parts,
      body? (fuel + 1) branches parts c = proceed fuel branches parts c (some (i, rest ++ ')' :: k))) ∨
    (rest = [] ∧ ∀ c, c.rest = s.rest ++ [')'] → c.free = s.free → ∀ fuel branches parts,
      body? (fuel + 1) branches parts c = proceed fuel branches parts c (some (i, []))) := by
  -- what is skipped before the item stays the same unless it reaches the end
  obtain hskip | ⟨hnil, hskip⟩ := skipFree_stays s.free s.rest
  · have hgroup' : ∀ k rest, skipFree s.free (s.rest ++ ')' :: k) ≠ '(' :: rest := by
      intro k rest heq
      rw [hskip] at heq
      cases hs : skipFree s.free s.rest with
      | nil =>
        rw [hs] at heq
        cases heq
      | cons d l =>
        rw [hs] at heq
        exact hgroup l ((List.cons.inj heq).1 ▸ hs)
    obtain h | ⟨hnil, h⟩ := item?_stays h
    · refine .inl fun k c hrest hfree fuel branches parts => ?_
      rw [body?_item (by rw [hrest, hfree]; exact hgroup' k), hrest, hfree, h]
    · refine .inr ⟨hnil, fun c hrest hfree fuel branches parts => ?_⟩
      rw [body?_item (by rw [hrest, hfree]; exact hgroup' []), hrest, hfree, h]
  · -- all that is left is skipped, with the parenthesis
    rw [item?, hnil] at h
    cases h
    refine .inr ⟨rfl, fun c hrest hfree fuel branches parts => ?_⟩
    rw [body?_item (by rw [hrest, hfree, hskip]; exact fun _ heq => by cases heq), hrest, hfree, item?,
      hskip]
    rfl

/-- A repetition mark repeats the last part, and there has to be one. -/
theorem proceed_repetition {least : Nat} {most : Option Nat} {greedy : Bool} {rest : List Char}
    {r : Pattern × Cursor} :
    proceed fuel branches parts s (some (.repetition least most greedy, rest)) = some r ↔
      ∃ parts', repeatLast? least most greedy parts = some parts' ∧
        body? fuel branches parts' { s with rest := rest } = some r := by
  rw [proceed]
  cases repeatLast? least most greedy parts <;> simp

/-- After the last item nothing is left. -/
theorem proceed_nil {i : Item} {r : Pattern × Cursor}
    (h : proceed fuel branches parts s (some (i, [])) = some r) : r.2.rest = [] := by
  cases i with
  | finish =>
    cases h
    rfl
  | branch => exact body?_nil rfl h
  | part p => exact body?_nil rfl (show body? fuel branches (p :: parts) _ = some r from h)
  | repetition =>
    obtain ⟨parts', -, h⟩ := proceed_repetition.mp h
    exact body?_nil rfl h

/-- A repetition of the last of the parts. -/
theorem repeatLast?_alike {least : Nat} {most : Option Nat} (hmost : ∀ m ∈ most, least ≤ m) {greedy : Bool}
    {qs parts₁ qs₁ : List Pattern} (halike : List.Forall₂ Alike parts qs)
    (h : repeatLast? least most greedy parts = some parts₁)
    (h' : repeatLast? least most greedy qs = some qs₁) : List.Forall₂ Alike parts₁ qs₁ := by
  cases halike with
  | nil => cases h
  | cons hfirst hrest =>
    unfold repeatLast? at h h'
    -- a switch cannot be repeated, and neither can nothing
    split at h
    · cases h
    · cases h
    · rename_i heq
      cases heq
      cases h
      split at h'
      · cases h'
      · cases h'
      · rename_i heq
        cases heq
        cases h'
        exact .cons (.repetition hmost greedy hfirst) hrest

/-- One step of reading where there is no group. -/
theorem endsAlike_item
    (ih : ∀ {branches parts s s' p}, body? fuel branches parts s = some (p, s') →
      EndsAlike branches parts s p s')
    (hgroup : ∀ rest, skipFree s.free s.rest ≠ '(' :: rest) {item : Option (Item × List Char)}
    (hitem : item? s.free s.rest = item) (h : proceed fuel branches parts s item = some (p, s')) :
    EndsAlike branches parts s p s' := by
  obtain - | ⟨i, rest⟩ := item
  · cases h
  obtain hread | ⟨rfl, hread⟩ := body?_item_stays hgroup hitem
  · -- inside a group the same item is read, so both readings go on alike
    have hstep : ∀ {k r}, InGroup branches parts s k r → ∃ fuel branches' parts' c,
        List.Forall₂ Alike branches branches' ∧ List.Forall₂ Alike parts parts' ∧ c.free = s.free ∧
          proceed fuel branches' parts' c (some (i, rest ++ ')' :: k)) = some r := by
      rintro k r ⟨fuel, branches', parts', c, hbranches, hparts, hrest, hfree, hc⟩
      cases fuel with
      | zero => cases hc
      | succ fuel =>
        exact ⟨fuel, branches', parts', c, hbranches, hparts, hfree, hread k c hrest hfree .. ▸ hc⟩
    -- each item is put where it belongs, and the reading goes on from there
    cases i with
    | finish =>
      cases h
      refine .inl fun k r hr => ?_
      obtain ⟨_, _, _, _, hbranches, hparts, -, hc⟩ := hstep hr
      cases hc
      exact ⟨alike_alternationOf (.cons (alike_concatOf hparts) hbranches), rfl⟩
    | branch =>
      refine EndsAlike.of_step (ih h) fun k r hr => ?_
      obtain ⟨fuel', branches', parts', c, hbranches, hparts, hfree, hc⟩ := hstep hr
      exact ⟨fuel', _, [], { c with rest := rest ++ ')' :: k }, .cons (alike_concatOf hparts) hbranches,
        .nil, rfl, hfree, hc⟩
    | part p =>
      refine EndsAlike.of_step (ih h) fun k r hr => ?_
      obtain ⟨fuel', branches', parts', c, hbranches, hparts, hfree, hc⟩ := hstep hr
      exact ⟨fuel', _, p :: parts', { c with rest := rest ++ ')' :: k }, hbranches, .cons (.refl p) hparts,
        rfl, hfree, hc⟩
    | repetition least most greedy =>
      obtain ⟨parts₁, hrepeat, h⟩ := proceed_repetition.mp h
      refine EndsAlike.of_step (ih h) fun k r hr => ?_
      obtain ⟨fuel', branches', parts', c, hbranches, hparts, hfree, hc⟩ := hstep hr
      obtain ⟨parts₁', hrepeat', hc⟩ := proceed_repetition.mp hc
      exact ⟨fuel', branches', parts₁', { c with rest := rest ++ ')' :: k }, hbranches,
        repeatLast?_alike (ordered_of_item? hitem) hparts hrepeat hrepeat', rfl, hfree, hc⟩
  · -- the item goes on to the end of the text, so in a group it would not end
    refine .inr ⟨proceed_nil h, ?_⟩
    rintro r ⟨fuel, branches', parts', c, -, -, hrest, hfree, hc⟩
    cases fuel with
    | zero => cases hc
    | succ fuel =>
      rw [hread c hrest hfree] at hc
      exact proceed_nil hc

/-- A group is read with its content up to the bracket that closes it, and `body?` goes on behind that.
-/
theorem readGroup?_group {kind : GroupKind} {free : Bool} {r : Pattern × Cursor} :
    readGroup? fuel branches parts free (some (.group kind, s)) = some r ↔
      ∃ content s' rest, body? fuel [] [] { s with free := kind.skips free } = some (content, s') ∧
        s'.rest = ')' :: rest ∧
        body? fuel branches (.group kind content :: parts) { s' with rest := rest, free := free } =
          some r := by
  rw [readGroup?]
  constructor
  -- the content ends where the parenthesis is closed
  · intro h
    split at h
    · rename_i content s' hcontent
      split at h
      · rename_i rest hrest
        exact ⟨content, s', rest, hcontent, hrest, h⟩
      · cases h
    · cases h
  · rintro ⟨content, s', rest, hcontent, hrest, h⟩
    rw [hcontent]
    dsimp only
    rw [hrest]
    exact h

/-- One step of reading where there is a group. -/
theorem endsAlike_group
    (ih : ∀ {branches parts s s' p}, body? fuel branches parts s = some (p, s') →
      EndsAlike branches parts s p s')
    {rest : List Char} (hskip : skipFree s.free s.rest = '(' :: rest) {opening : Option (Opening × Cursor)}
    (hopening : opening? { s with rest := rest } = opening)
    (h : readGroup? fuel branches parts s.free opening = some (p, s')) :
    EndsAlike branches parts s p s' := by
  obtain - | ⟨o, s₁⟩ := opening
  · cases h
  -- a group that begins where nothing is left does not end
  have hrest : skipFree s.free rest ≠ [] := fun hnil => by
    rw [opening?_eq, hnil] at hopening
    cases hopening
    obtain ⟨content, s₂, rest₂, hcontent, hclose, -⟩ := readGroup?_group.mp h
    rw [body?_nil rfl hcontent] at hclose
    cases hclose
  -- in a group the opening is the same up to the number it is given
  have hstep : ∀ {k r}, InGroup branches parts s k r → ∃ fuel branches' parts' o' c₁,
      List.Forall₂ Alike branches branches' ∧ List.Forall₂ Alike parts parts' ∧ o.Alike o' ∧
        c₁.rest = s₁.rest ++ ')' :: k ∧
        readGroup? fuel branches' parts' s.free (some (o', c₁)) = some r := by
    rintro k r ⟨fuel, branches', parts', c, hbranches, hparts, hcrest, hfree, hc⟩
    cases fuel with
    | zero => cases hc
    | succ fuel =>
      have hskip' : skipFree c.free c.rest = '(' :: (rest ++ ')' :: k) := by
        rw [hfree, hcrest, skipFree_append hskip]
      rw [body?_group hskip'] at hc
      cases hopening' : opening? { c with rest := rest ++ ')' :: k } with
      | none =>
        rw [hopening'] at hc
        cases hc
      | some r' =>
        obtain ⟨o', c₁⟩ := r'
        rw [hopening'] at hc
        obtain ⟨halike, hc₁⟩ := opening?_alike (k := ')' :: k) (c := { c with rest := _ }) hopening hrest
          rfl hfree hopening'
        rw [hfree] at hc
        exact ⟨fuel, branches', parts', o', c₁, hbranches, hparts, halike, hc₁, hc⟩
  cases o with
  | directive switches =>
    refine EndsAlike.of_step (ih h) fun k r hr => ?_
    obtain ⟨fuel', branches', parts', o', c₁, hbranches, hparts, halike, hc₁, hc⟩ := hstep hr
    cases halike
    exact ⟨fuel', branches', .directive switches :: parts',
      { c₁ with free := switches.value .freeSpacing s.free }, hbranches, .cons (.refl _) hparts, hc₁, rfl,
      hc⟩
  | group kind =>
    obtain ⟨content, s₂, rest₂, hcontent, hclose, h⟩ := readGroup?_group.mp h
    -- as the group is closed here, what it holds does not hide the end
    have hinner := (ih hcontent).resolve_right fun hhidden => by
      rw [hclose] at hhidden
      cases hhidden.1
    refine EndsAlike.of_step (ih h) fun k r hr => ?_
    obtain ⟨fuel', branches', parts', o', c₁, hbranches, hparts, halike, hc₁, hc⟩ := hstep hr
    obtain ⟨kind', rfl, hskips, hgroup⟩ := halike.group s.free
    obtain ⟨content', c₂, rest₂', hcontent', hclose', hc⟩ := readGroup?_group.mp hc
    obtain ⟨hcontents, hc₂⟩ := hinner k (content', c₂)
      ⟨fuel', [], [], { c₁ with free := kind'.skips s.free }, .nil, .nil, hc₁, hskips, hcontent'⟩
    rw [hclose, hclose'] at hc₂
    cases hc₂
    exact ⟨fuel', branches', .group kind' content' :: parts', { c₂ with rest := _, free := s.free },
      hbranches, .cons (hgroup hcontents) hparts, rfl, rfl, hc⟩

end

/-- In a group a pattern is read as it is alone, unless it ends in a comment. -/
theorem body?_endsAlike {fuel : Nat} : ∀ {branches parts : List Pattern} {s s' : Cursor} {p : Pattern},
    body? fuel branches parts s = some (p, s') → EndsAlike branches parts s p s' := by
  induction fuel with
  | zero => exact fun h => by cases h
  | succ fuel ih =>
    intro branches parts s s' p h
    -- an item is read, or a group is opened
    by_cases hgroup : ∃ rest, skipFree s.free s.rest = '(' :: rest
    · obtain ⟨rest, hskip⟩ := hgroup
      rw [body?_group hskip] at h
      exact endsAlike_group ih hskip rfl h
    · have hgroup := not_exists.mp hgroup
      rw [body?_item hgroup] at h
      exact endsAlike_item ih hgroup rfl h

/-! ## Groups with switches -/

/-- Likeness goes both ways. -/
theorem Alike.symm {p q : Pattern} (h : p.Alike q) : q.Alike p := by
  induction h with
  | refl p => exact .refl p
  | repetition hmost greedy _ ih => exact .repetition hmost greedy ih
  | capture i j _ ih => exact .capture j i ih
  | plain switches _ ih => exact .plain switches ih
  | concat _ _ ihfirst ihrest => exact .concat ihfirst ihrest
  | alternation _ _ ihfirst ihrest => exact .alternation ihfirst ihrest

/-- The switches that tokens may set, turned on. -/
def Modes.withFlags (m : Modes) (flags : List Char) : Modes :=
  { m with
    caseInsensitive := m.caseInsensitive || flags.contains 'i'
    multiLine := m.multiLine || flags.contains 'm'
    dotAll := m.dotAll || flags.contains 's' }

/-- Whether a letter is a switch that tokens may set. -/
def isFlag (c : Char) : Bool := c == 'i' || c == 'm' || c == 's'

/-- What the letters of switches are read as. -/
theorem switches?_flags {flags l rest : List Char} (hflags : ∀ c ∈ flags, isFlag c = true) :
    ∀ {acc switches : Switches}, switches? true acc (flags ++ ':' :: l) = some (switches, rest) →
      rest = ':' :: l ∧ ∃ added, switches = acc.reverse ++ added ∧
        (∀ m : Modes, m.apply added = m.withFlags flags) ∧
        ∀ default, Switches.value added .freeSpacing default = default := by
  induction flags with
  | nil =>
    intro acc switches h
    cases h
    refine ⟨rfl, [], (List.append_nil _).symm, fun m => ?_, fun _ => rfl⟩
    simp [Modes.apply, Modes.withFlags]
  | cons c flags ih =>
    intro acc switches h
    obtain ⟨hc, hflags⟩ := List.forall_mem_cons.mp hflags
    -- each flag is one of three letters, and none of them is for free spacing
    obtain ⟨switch, hread, hset, hspacing⟩ : ∃ switch, (∀ cs, switches? true acc (c :: cs) =
          if acc.any (·.1 == switch) then none else switches? true ((switch, true) :: acc) cs) ∧
        (∀ m : Modes, (m.set (switch, true)).withFlags flags = m.withFlags (c :: flags)) ∧
        switch ≠ .freeSpacing := by
      simp only [isFlag, Bool.or_eq_true, beq_iff_eq] at hc
      obtain (rfl | rfl) | rfl := hc
      · exact ⟨.caseInsensitive, fun _ => rfl, fun m => by simp [Modes.set, Modes.withFlags], by decide⟩
      · exact ⟨.multiLine, fun _ => rfl, fun m => by simp [Modes.set, Modes.withFlags], by decide⟩
      · exact ⟨.dotAll, fun _ => rfl, fun m => by simp [Modes.set, Modes.withFlags], by decide⟩
    rw [List.cons_append, hread] at h
    obtain ⟨-, h⟩ := Option.ite_none_left_eq_some.mp h
    obtain ⟨hrest, added, hadded, hmodes, hdefault⟩ := ih hflags h
    refine ⟨hrest, (switch, true) :: added, by rw [hadded, List.reverse_cons, List.append_assoc]; rfl,
      fun m => (hmodes (m.set (switch, true))).trans (hset m), fun default => ?_⟩
    rw [Switches.value, List.lookup_cons, show (Switch.freeSpacing == switch) = false from ?_]
    · exact hdefault default
    · exact beq_eq_false_iff_ne.mpr hspacing.symm

/-- How a group with switches is read: its content, and what follows it. -/
theorem body?_flags {fuel captures : Nat} {branches parts : List Pattern} {flags l : List Char}
    {names : List String} {r : Pattern × Cursor} (hflags : ∀ c ∈ flags, isFlag c = true)
    (h : body? fuel branches parts ⟨'(' :: '?' :: (flags ++ ':' :: l), false, captures, names⟩ = some r) :
    ∃ fuel' switches content s' rest, (∀ m : Modes, m.apply switches = m.withFlags flags) ∧
      body? fuel' [] [] ⟨l, false, captures, names⟩ = some (content, s') ∧ s'.rest = ')' :: rest ∧
      body? fuel' branches (.group (.plain switches) content :: parts)
        ⟨rest, false, s'.captures, s'.names⟩ = some r := by
  cases fuel with
  | zero => cases h
  | succ fuel =>
    rw [body?_group rfl, opening?_eq] at h
    -- a flag or the colon comes first, so that this is no group with a name
    have hswitched : ∀ s, openingAt? s ('?' :: (flags ++ ':' :: l)) = switched? s (flags ++ ':' :: l) := by
      cases flags with
      | nil => exact fun _ => rfl
      | cons c flags =>
        have hc := (List.forall_mem_cons.mp hflags).1
        simp only [isFlag, Bool.or_eq_true, beq_iff_eq] at hc
        obtain (rfl | rfl) | rfl := hc <;> exact fun _ => rfl
    change readGroup? fuel branches parts false (openingAt? _ ('?' :: (flags ++ ':' :: l))) = some r at h
    rw [hswitched] at h
    cases hread : switches? true [] (flags ++ ':' :: l) with
    | none =>
      rw [switched?, hread] at h
      cases h
    | some found =>
      obtain ⟨switches, rest⟩ := found
      obtain ⟨rfl, added, hadded, hmodes, hdefault⟩ := switches?_flags hflags hread
      obtain rfl : switches = added := hadded
      rw [switched?, hread] at h
      obtain ⟨content, s', rest, hcontent, hclose, h⟩ := readGroup?_group.mp h
      rw [GroupKind.skips, hdefault] at hcontent
      exact ⟨fuel, switches, content, s', rest, hmodes, hcontent, hclose, h⟩

/-- A pattern in a group is read as it is alone, if it is a pattern in a group at all. -/
theorem alike_of_parse? {value : String} {p : Pattern} (h : parse? value = some p)
    (hgroup : (parse? ("(?:" ++ value ++ ")")).isSome) {fuel captures : Nat} {names : List String}
    {k : List Char} {content : Pattern} {s' : Cursor}
    (hread : body? fuel [] [] ⟨value.toList ++ ')' :: k, false, captures, names⟩ = some (content, s')) :
    p.Alike content ∧ s'.rest = ')' :: k := by
  obtain ⟨s, hs, hvalue⟩ : ∃ s : Cursor, s.rest = [] ∧
      body? (value.toList.length + 1) [] [] ⟨value.toList, false, 0, []⟩ = some (p, s) := by
    unfold parse? at h
    dsimp only at h
    split at h
    · rename_i p' s hbody
      obtain ⟨hall, h⟩ := Option.ite_none_right_eq_some.mp h
      cases h
      exact ⟨s, List.isEmpty_iff.mp (Bool.and_eq_true_iff.mp hall).1, hbody⟩
    · cases h
  -- the content is read like the value unless this ends in a comment
  obtain halike | ⟨-, hhidden⟩ := body?_endsAlike hvalue
  · have := halike k (content, s') ⟨fuel, [], [],
      ⟨value.toList ++ ')' :: k, false, captures, names⟩, .nil, .nil, rfl, rfl, hread⟩
    rwa [hs] at this
  · -- the end of the group would be in a comment
    obtain ⟨q, hq⟩ := Option.isSome_iff_exists.mp hgroup
    unfold parse? at hq
    dsimp only at hq
    split at hq
    · rename_i q' s₁ hbody
      have htext : ("(?:" ++ value ++ ")").toList =
          '(' :: '?' :: ([] ++ ':' :: (value.toList ++ [')'])) := by
        simp
      rw [htext] at hbody
      obtain ⟨fuel', switches, content', s₂, rest, -, hcontent, hclose, -⟩ :=
        body?_flags (fun _ hc => by cases hc) hbody
      have := hhidden (content', s₂) ⟨fuel', [], [],
        ⟨value.toList ++ [')'], false, 0, []⟩, .nil, .nil, rfl, rfl, hcontent⟩
      rw [hclose] at this
      cases this
    · cases hq

end IncrementalParsing.Pattern
