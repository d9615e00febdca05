import IncrementalParsing.Proofs.Pattern.Groups
import IncrementalParsing.Proofs.Pattern.Literals

/-!
# Patterns that are put together

Texts that are patterns can be put one after the other, side by side in a group, and in a group that is
repeated.  What they match is then put together in the same way.  `Fragment` says what a text is good for,
wherever it stands in a pattern: it is read as some parts, and these match what the text stands for.

## Key results

- `Fragment.append`: texts one after the other
- `Fragment.group`: texts side by side in a group
- `Fragment.repetition`: a group that is repeated
- `Fragment.flags`: a pattern in a group with flags
-/

namespace IncrementalParsing.Pattern

variable {holds : Look → List Char → List Char → Prop}

/-! ## What parts stand for -/

/-- A pattern leaves the modes as they are, and matches what is said, if it has a meaning at all. -/
def StandsFor (holds : Look → List Char → List Char → Prop) (p : Pattern) (L : Matching) : Prop :=
  ∀ {e m}, expressionIn? .standard p = some (e, m) → m = .standard ∧ e.matching holds = L

theorem matching_of_standsFor {ps : List Pattern} {matchings : List Matching}
    (h : List.Forall₂ (StandsFor holds) ps matchings) {es : List Expression} {m : Modes}
    (hes : expressionsIn? .standard ps = some (es, m)) :
    m = .standard ∧ es.map (Expression.matching holds) = matchings := by
  induction h generalizing es with
  | nil =>
    cases hes
    exact ⟨rfl, rfl⟩
  | cons hp _ ih =>
    obtain ⟨e, m₁, rest, he, hrest, rfl⟩ := expressionsIn?_cons.mp hes
    -- none of the parts changes the modes, so each is read in the standard ones
    obtain ⟨rfl, rfl⟩ := hp he
    obtain ⟨rfl, rfl⟩ := ih hrest
    exact ⟨rfl, rfl⟩

/-- Parts in a row. -/
theorem standsFor_concatOf {ps : List Pattern} {matchings : List Matching}
    (h : List.Forall₂ (StandsFor holds) ps matchings) :
    StandsFor holds (concatOf ps.reverse) matchings.prod := by
  intro e m he
  -- a concatenation of none is empty, and one of one part is the part
  obtain - | ⟨p, - | ⟨q, ps⟩⟩ := ps
  · cases h
    cases he
    exact ⟨rfl, rfl⟩
  · cases h with
    | cons hp hrest =>
      cases hrest
      rw [List.prod_singleton]
      exact hp he
  · rw [concatOf_reverse (by simp)] at he
    obtain ⟨es, hes, rfl⟩ := expressionIn?_concat.mp he
    obtain ⟨hm, rfl⟩ := matching_of_standsFor h hes
    exact ⟨hm, Expression.matching_sequence es⟩

theorem alternationOf_reverse {ps : List Pattern} (h : 2 ≤ ps.length) :
    alternationOf ps.reverse = .alternation ps := by
  rw [← List.length_reverse] at h
  match hps : ps.reverse, h with
  | p :: q :: rest, _ =>
    show Pattern.alternation (p :: q :: rest).reverse = _
    rw [← hps, List.reverse_reverse]

/-- Branches side by side, of which there is one at least. -/
theorem standsFor_alternationOf {ps : List Pattern} {matchings : List Matching}
    (h : List.Forall₂ (StandsFor holds) ps matchings) (hne : ps ≠ []) :
    StandsFor holds (alternationOf ps.reverse) (.union matchings) := by
  intro e m he
  -- one branch is no alternation
  obtain - | ⟨p, - | ⟨q, ps⟩⟩ := ps
  · exact absurd rfl hne
  · cases h with
    | cons hp hrest =>
      cases hrest
      rw [Matching.union_singleton]
      exact hp he
  · rw [alternationOf_reverse (by simp)] at he
    obtain ⟨es, hes, rfl⟩ := expressionIn?_alternation.mp he
    obtain ⟨hm, rfl⟩ := matching_of_standsFor h hes
    exact ⟨hm, Expression.matching_oneOf es⟩

/-! ## Texts -/

/-- A text is read as parts that match what is said, wherever it stands, if no question mark follows.
It begins with none itself. -/
structure Fragment (holds : Look → List Char → List Char → Prop) (t : List Char) (L : Matching) : Prop where
  head : t.head? ≠ some '?'
  read : ∀ {fuel branches parts k captures names r}, k.head? ≠ some '?' →
    body? fuel branches parts ⟨t ++ k, false, captures, names⟩ = some r →
    ∃ fuel' added matchings captures' names', List.Forall₂ (StandsFor holds) added matchings ∧
      matchings.prod = L ∧
      body? fuel' branches (added.reverse ++ parts) ⟨k, false, captures', names'⟩ = some r

namespace Fragment

variable {s t : List Char} {L M : Matching}

theorem head?_append (h : t.head? ≠ some '?') {k : List Char} (hk : k.head? ≠ some '?') :
    (t ++ k).head? ≠ some '?' := by
  cases t with
  | nil => exact hk
  | cons => exact h

/-- The empty text. -/
theorem nil : Fragment holds [] 1 :=
  ⟨by rintro ⟨⟩, fun _ h => ⟨_, [], [], _, _, .nil, rfl, h⟩⟩

/-- One text after the other. -/
theorem append (hs : Fragment holds s L) (ht : Fragment holds t M) : Fragment holds (s ++ t) (L * M) := by
  refine ⟨head?_append hs.head ht.head, fun {fuel branches parts k captures names r} hk h => ?_⟩
  rw [List.append_assoc] at h
  obtain ⟨_, added, matchings, _, _, hadded, rfl, h⟩ := hs.read (head?_append ht.head hk) h
  obtain ⟨fuel', added', matchings', captures', names', hadded', rfl, h⟩ := ht.read hk h
  refine ⟨fuel', added ++ added', matchings ++ matchings', captures', names',
    List.rel_append hadded hadded', List.prod_append, ?_⟩
  rw [List.reverse_append, List.append_assoc]
  exact h

/-- Texts in a row. -/
theorem flatten {texts : List (List Char)} {matchings : List Matching}
    (h : List.Forall₂ (Fragment holds) texts matchings) : Fragment holds texts.flatten matchings.prod := by
  induction h with
  | nil => exact nil
  | cons hfirst _ ih =>
    rw [List.flatten_cons, List.prod_cons]
    exact hfirst.append ih

/-- One part. -/
theorem of_part {p : Pattern} (hp : StandsFor holds p L) (hhead : t.head? ≠ some '?')
    (h : ∀ {fuel branches parts k captures names r}, k.head? ≠ some '?' →
      body? fuel branches parts ⟨t ++ k, false, captures, names⟩ = some r →
      ∃ fuel' captures' names',
        body? fuel' branches (p :: parts) ⟨k, false, captures', names'⟩ = some r) : Fragment holds t L := by
  refine ⟨hhead, fun hk hread => ?_⟩
  obtain ⟨fuel', captures', names', hread⟩ := h hk hread
  exact ⟨fuel', [p], [L], captures', names', .cons hp .nil, List.prod_singleton, hread⟩

/-- A character that stands for itself. -/
theorem escapedChar (c : Char) : Fragment holds (Rule.escapedChar c) (.text [c]) := by
  refine of_part (p := ofChar c) ?_ ?_ fun {fuel branches parts k captures names r} _ h => ?_
  · intro e m he
    cases he
    exact ⟨rfl, rfl⟩
  · unfold Rule.escapedChar
    split
    · rintro ⟨⟩
    · rename_i hplain
      rintro ⟨⟩
      exact hplain (by decide)
  -- reading the character takes one round
  · cases fuel with
    | zero => cases h
    | succ fuel =>
      rw [body?_escapedChar] at h
      exact ⟨fuel, captures, names, h⟩

/-- A text that stands for itself. -/
theorem escaped (cs : List Char) : Fragment holds (cs.flatMap Rule.escapedChar) (.text cs) := by
  induction cs with
  | nil => exact nil
  | cons c cs ih =>
    rw [List.flatMap_cons, show c :: cs = [c] ++ cs from rfl, Matching.text_append]
    exact (escapedChar c).append ih

/-- Texts side by side. -/
theorem branches {texts : List (List Char)} {matchings : List Matching}
    (h : List.Forall₂ (Fragment holds) texts matchings) (hne : texts ≠ []) :
    ∀ {fuel branches k captures names r},
      body? fuel branches [] ⟨List.intercalate ['|'] texts ++ ')' :: k, false, captures, names⟩ = some r →
      ∃ added s, List.Forall₂ (StandsFor holds) added matchings ∧ s.rest = ')' :: k ∧
        r = (alternationOf (added.reverse ++ branches), s) := by
  -- the induction is on the texts, each of which ends a branch but the last
  induction h with
  | nil => exact absurd rfl hne
  | @cons t L texts matchings ht hrest ih =>
    intro fuel branches k captures names r h
    -- behind the last text the group is closed, behind the others there is a bar
    cases texts with
    | nil =>
      cases hrest
      rw [List.intercalate_singleton] at h
      obtain ⟨fuel', added, _, captures', names', hadded, rfl, h⟩ := ht.read (by rintro ⟨⟩) h
      refine ⟨[concatOf added.reverse], ⟨')' :: k, false, captures', names'⟩,
        .cons (standsFor_concatOf hadded) .nil, rfl, ?_⟩
      cases fuel' with
      | zero => cases h
      | succ fuel' =>
        cases h
        rw [List.append_nil]
        rfl
    | cons t' texts =>
      rw [List.intercalate_cons_cons, List.append_assoc, List.append_assoc] at h
      obtain ⟨fuel', added, _, captures', names', hadded, rfl, h⟩ := ht.read (by rintro ⟨⟩) h
      cases fuel' with
      | zero => cases h
      | succ fuel' =>
        obtain ⟨added', s, hadded', hs, rfl⟩ := ih (List.cons_ne_nil _ _)
          (show body? fuel' (concatOf (added.reverse ++ []) :: branches) [] ⟨_, false, captures', names'⟩ =
            some r from h)
        refine ⟨concatOf added.reverse :: added', s, .cons (standsFor_concatOf hadded) hadded', hs, ?_⟩
        rw [List.append_nil, List.reverse_cons, List.append_assoc]
        rfl

theorem standsFor_plain {switches : Switches} (hswitches : Modes.standard.apply switches = .standard)
    {p : Pattern} (h : StandsFor holds p L) : StandsFor holds (.group (.plain switches) p) L := by
  intro e m he
  obtain ⟨⟨m₁, hcontent⟩, rfl⟩ := expressionIn?_plain.mp he
  rw [hswitches] at hcontent
  exact ⟨rfl, (h hcontent).2⟩

/-- How a group of texts side by side is read. -/
theorem read_group {texts : List (List Char)} {matchings : List Matching}
    (h : List.Forall₂ (Fragment holds) texts matchings) (hne : texts ≠ []) {fuel captures : Nat}
    {branches parts : List Pattern} {k : List Char} {names : List String} {r : Pattern × Cursor}
    (hread : body? fuel branches parts
      ⟨'(' :: '?' :: ':' :: (List.intercalate ['|'] texts ++ ')' :: k), false, captures, names⟩ = some r) :
    ∃ fuel' group captures' names', StandsFor holds group (.union matchings) ∧
      (∀ least most greedy, repeatLast? least most greedy (group :: parts) =
        some (.repetition least most greedy group :: parts)) ∧
      body? fuel' branches (group :: parts) ⟨k, false, captures', names'⟩ = some r := by
  obtain ⟨fuel', switches, content, s, rest, hswitches, hcontent, hclose, hread⟩ :=
    body?_flags (List.forall_mem_nil _) hread
  obtain ⟨added, s', hadded, hs', heq⟩ := Fragment.branches h hne hcontent
  cases heq
  rw [hs'] at hclose
  cases hclose
  -- there is a branch for each text, so there is one at least
  have hadded' : added ≠ [] := by
    rintro rfl
    cases hadded
    cases h
    exact hne rfl
  rw [List.append_nil] at hread
  refine ⟨fuel', _, _, _, standsFor_plain (hswitches .standard) (standsFor_alternationOf hadded hadded'),
    fun _ _ _ => rfl, hread⟩

/-- Texts side by side in a group. -/
theorem group {texts : List (List Char)} {matchings : List Matching}
    (h : List.Forall₂ (Fragment holds) texts matchings) (hne : texts ≠ []) :
    Fragment holds ('(' :: '?' :: ':' :: (List.intercalate ['|'] texts ++ [')'])) (.union matchings) := by
  refine ⟨by rintro ⟨⟩, fun {fuel branches parts k captures names r} _ hread => ?_⟩
  rw [List.cons_append, List.cons_append, List.cons_append, List.append_assoc] at hread
  obtain ⟨fuel', group, captures', names', hgroup, -, hread⟩ := read_group h hne hread
  exact ⟨fuel', [group], [_], captures', names', .cons hgroup .nil, List.prod_singleton, hread⟩

theorem standsFor_repetition {p : Pattern} (h : StandsFor holds p L) (least : Nat) (greedy : Bool) :
    StandsFor holds (.repetition least none greedy p) (L.iterated least none) := by
  intro e m he
  obtain ⟨content, hcontent, rfl⟩ := expressionIn?_repetition.mp he
  obtain ⟨rfl, rfl⟩ := h hcontent
  exact ⟨rfl, Expression.matching_repeated (fun _ hm => by cases hm) _ content⟩

/-- A text in a group that is repeated without end. -/
theorem repetition {mark : Char} {least : Nat}
    (hmark : ∀ cs, nextItem? false (mark :: cs) = some (repetitionItem least none cs))
    (h : Fragment holds t L) :
    Fragment holds ('(' :: '?' :: ':' :: (t ++ [')', mark])) (L.iterated least none) := by
  refine ⟨by rintro ⟨⟩, fun {fuel branches parts k captures names r} hk hread => ?_⟩
  rw [List.cons_append, List.cons_append, List.cons_append, List.append_assoc] at hread
  have hsingle : List.intercalate ['|'] [t] = t := List.intercalate_singleton
  rw [← hsingle] at hread
  obtain ⟨fuel', group, captures', names', hgroup, hrepeat, hread⟩ :=
    read_group (.cons h .nil) (List.cons_ne_nil t []) hread
  rw [Matching.union_singleton] at hgroup
  cases fuel' with
  | zero => cases hread
  | succ fuel' =>
    -- without a question mark behind it the repetition is greedy
    have hlazy : lazyMark k = (true, k) := by
      unfold lazyMark
      split
      · exact absurd rfl hk
      · rfl
    have hitem : item? false (mark :: k) = some (.repetition least none true, k) := by
      rw [item?, show skipFree false (mark :: k) = mark :: k from rfl, hmark, repetitionItem, hlazy]
    have hopen : mark ≠ '(' := by
      rintro rfl
      cases hmark []
    -- no mark of a repetition opens a group
    have hgroup' : ∀ rest, skipFree false (mark :: k) ≠ '(' :: rest :=
      fun rest heq => hopen (List.cons.inj heq).1
    rw [body?_item hgroup'] at hread
    change proceed fuel' branches (group :: parts) _ (item? false (mark :: k)) = some r at hread
    rw [hitem] at hread
    obtain ⟨parts', hparts, hread⟩ := proceed_repetition.mp hread
    rw [hrepeat] at hparts
    cases hparts
    exact ⟨fuel', [_], [_], captures', names', .cons (standsFor_repetition hgroup least true) .nil,
      List.prod_singleton, hread⟩

/-- A pattern in a group with flags. -/
theorem flags {flags : List Char} (hflags : ∀ c ∈ flags, isFlag c = true) {value : String} {p : Pattern}
    (hp : parse? value = some p) (hclosed : (parse? ("(?:" ++ value ++ ")")).isSome)
    (hL : ∀ {e m}, expressionIn? (Modes.standard.withFlags flags) p = some (e, m) → e.matching holds = L) :
    Fragment holds ('(' :: '?' :: (flags ++ ':' :: (value.toList ++ [')']))) L := by
  refine ⟨by rintro ⟨⟩, fun {fuel branches parts k captures names r} _ hread => ?_⟩
  rw [List.cons_append, List.cons_append, List.append_assoc, List.cons_append, List.append_assoc,
    List.singleton_append] at hread
  obtain ⟨fuel', switches, content, s, rest, hswitches, hcontent, hclose, hread⟩ := body?_flags hflags hread
  -- the content was read in a plain group, so it reads alike under the flags
  obtain ⟨halike, hs⟩ := alike_of_parse? hp hclosed hcontent
  rw [hs] at hclose
  cases hclose
  refine ⟨fuel', [_], [L], s.captures, s.names, .cons (fun {e m} he => ?_) .nil, List.prod_singleton, hread⟩
  obtain ⟨⟨m₁, hcontent'⟩, rfl⟩ := expressionIn?_plain.mp he
  rw [hswitches] at hcontent'
  obtain ⟨e', he', hmatching⟩ := halike.symm.expressionIn? hcontent'
  exact ⟨rfl, hmatching.symm.trans (hL he')⟩

/-- A text that is a whole pattern. -/
theorem matching_of_parse? {text : String} (h : Fragment holds text.toList L) {p : Pattern}
    (hp : parse? text = some p) {e : Expression} (he : p.expression? = some e) : e.matching holds = L := by
  unfold parse? at hp
  dsimp only at hp
  split at hp
  · rename_i p' s hbody
    obtain ⟨-, hp⟩ := Option.ite_none_right_eq_some.mp hp
    cases hp
    -- the text is read to its end, with nothing behind it
    rw [← List.append_nil text.toList] at hbody
    obtain ⟨fuel', added, matchings, captures', names', hadded, rfl, hread⟩ := h.read (by rintro ⟨⟩) hbody
    cases fuel' with
    | zero => cases hread
    | succ fuel' =>
      cases hread
      obtain ⟨r, hr, rfl⟩ := Option.map_eq_some_iff.mp he
      rw [List.append_nil] at hr
      exact (standsFor_concatOf hadded hr).2
  · cases hp

end Fragment

end IncrementalParsing.Pattern
