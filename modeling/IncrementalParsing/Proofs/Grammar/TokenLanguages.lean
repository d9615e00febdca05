import IncrementalParsing.Proofs.Pattern.Composed
import Mathlib.Data.List.Perm.Subperm

/-!
# What tokens match

A token rule stands for words by itself: strings for their text, patterns for what they match, and the
other rules for what their parts stand for.  The pattern of the token is put together as a text, and
matches just these words, as long as every pattern in the rule is one in a group as well.

## Key results

- `words_of_token`: the words of a token, and that there is an end to names that lead to each other
- `fragment_tokenPattern`: what the pattern of a rule is read as
- `Letters.comment_spills`: a comment that hides the end of a group
-/

namespace IncrementalParsing

open Pattern (Modes parse? expressionIn? Fragment isFlag)

namespace Grammar

variable {g : Grammar} {holds : Look → List Char → List Char → Prop}

/-! ## The words of a rule -/

/-- The words of a token rule between the texts before and after them.  A rule that is named stands for
its content. -/
inductive Means (g : Grammar) (holds : Look → List Char → List Char → Prop) :
    Rule → List Char → List Char → List Char → Prop
  | blank {before after : List Char} : Means g holds .blank before [] after
  | string {value : String} {before after : List Char} :
      Means g holds (.string value) before value.toList after
  | pattern {value : String} {flags : Option String} {p : Pattern} {e : Expression} {m : Modes}
      {before word after : List Char} (hp : parse? value = some p)
      (he : expressionIn? (Modes.standard.withFlags (flags.getD "").toList) p = some (e, m))
      (h : e.matching holds before word after) : Means g holds (.pattern value flags) before word after
  | seq_nil {before after : List Char} : Means g holds (.seq []) before [] after
  | seq_cons {member : Rule} {members : List Rule} {before first rest after : List Char}
      (hfirst : Means g holds member before first (rest ++ after))
      (hrest : Means g holds (.seq members) (before ++ first) rest after) :
      Means g holds (.seq (member :: members)) before (first ++ rest) after
  | choice {member : Rule} {members : List Rule} {before word after : List Char}
      (hmember : member ∈ members) (h : Means g holds member before word after) :
      Means g holds (.choice members) before word after
  | zeroOrMore_nil {content : Rule} {before after : List Char} :
      Means g holds (.zeroOrMore content) before [] after
  | zeroOrMore_cons {content : Rule} {before first rest after : List Char}
      (hfirst : Means g holds content before first (rest ++ after))
      (hrest : Means g holds (.zeroOrMore content) (before ++ first) rest after) :
      Means g holds (.zeroOrMore content) before (first ++ rest) after
  | oneOrMore {content : Rule} {before first rest after : List Char}
      (hfirst : Means g holds content before first (rest ++ after))
      (hrest : Means g holds (.zeroOrMore content) (before ++ first) rest after) :
      Means g holds (.oneOrMore content) before (first ++ rest) after
  | symbol {name : String} {rule : Rule} {before word after : List Char} (hrule : g.rule? name = some rule)
      (h : Means g holds rule before word after) : Means g holds (.symbol name) before word after
  | token {content : Rule} {before word after : List Char} (h : Means g holds content before word after) :
      Means g holds (.token content) before word after
  | immediateToken {content : Rule} {before word after : List Char}
      (h : Means g holds content before word after) :
      Means g holds (.immediateToken content) before word after
  | field {name : String} {content : Rule} {before word after : List Char}
      (h : Means g holds content before word after) : Means g holds (.field name content) before word after
  | prec {assoc : Associativity} {value : Precedence} {content : Rule} {before word after : List Char}
      (h : Means g holds content before word after) :
      Means g holds (.prec assoc value content) before word after
  | precDynamic {value : Int} {content : Rule} {before word after : List Char}
      (h : Means g holds content before word after) :
      Means g holds (.precDynamic value content) before word after
  | reserved {context : String} {content : Rule} {before word after : List Char}
      (h : Means g holds content before word after) :
      Means g holds (.reserved context content) before word after

/-- The parts of a rule, with those of the rules that it names. -/
inductive Mentions (g : Grammar) : Rule → Rule → Prop
  | self (rule : Rule) : Mentions g rule rule
  | seq {member part : Rule} {members : List Rule} (hmember : member ∈ members)
      (h : Mentions g member part) : Mentions g (.seq members) part
  | choice {member part : Rule} {members : List Rule} (hmember : member ∈ members)
      (h : Mentions g member part) : Mentions g (.choice members) part
  | zeroOrMore {content part : Rule} (h : Mentions g content part) : Mentions g (.zeroOrMore content) part
  | oneOrMore {content part : Rule} (h : Mentions g content part) : Mentions g (.oneOrMore content) part
  | symbol {name : String} {rule part : Rule} (hrule : g.rule? name = some rule)
      (h : Mentions g rule part) : Mentions g (.symbol name) part
  | token {content part : Rule} (h : Mentions g content part) : Mentions g (.token content) part
  | immediateToken {content part : Rule} (h : Mentions g content part) :
      Mentions g (.immediateToken content) part
  | field {name : String} {content part : Rule} (h : Mentions g content part) :
      Mentions g (.field name content) part
  | alias {content part : Rule} {value : String} {named : Bool} (h : Mentions g content part) :
      Mentions g (.alias content value named) part
  | prec {assoc : Associativity} {value : Precedence} {content part : Rule} (h : Mentions g content part) :
      Mentions g (.prec assoc value content) part
  | precDynamic {value : Int} {content part : Rule} (h : Mentions g content part) :
      Mentions g (.precDynamic value content) part
  | reserved {context : String} {content part : Rule} (h : Mentions g content part) :
      Mentions g (.reserved context content) part

/-! ## The matching of a rule -/

/-- What a rule matches. -/
def matching (g : Grammar) (holds : Look → List Char → List Char → Prop) (rule : Rule) : Matching :=
  g.Means holds rule

/-- `blank` matches the empty word. -/
theorem matching_blank : g.matching holds .blank = 1 := by
  ext before word after
  exact ⟨fun h => by cases h; rfl, fun h => h ▸ Means.blank⟩

/-- A string matches its own text. -/
theorem matching_string (value : String) : g.matching holds (.string value) = .text value.toList := by
  ext before word after
  exact ⟨fun h => by cases h; rfl, fun h => h ▸ Means.string⟩

/-- `seq` matches what its members match one after the other. -/
theorem matching_seq (members : List Rule) :
    g.matching holds (.seq members) = (members.map (g.matching holds)).prod := by
  -- the induction is on the members, the first of which matches a beginning
  induction members with
  | nil =>
    ext before word after
    exact ⟨fun h => by cases h; rfl, fun h => h ▸ Means.seq_nil⟩
  | cons member members ih =>
    rw [List.map_cons, List.prod_cons, ← ih]
    ext before word after
    constructor
    · rintro (_ | _)
      rename_i first rest hfirst hrest
      exact ⟨first, rest, rfl, hfirst, hrest⟩
    · rintro ⟨first, rest, rfl, hfirst, hrest⟩
      exact .seq_cons hfirst hrest

/-- `choice` matches what one of its members matches. -/
theorem matching_choice (members : List Rule) :
    g.matching holds (.choice members) = .union (members.map (g.matching holds)) := by
  ext before word after
  constructor
  · intro h
    cases h with
    | choice hmember h => exact ⟨_, List.mem_map_of_mem hmember, h⟩
  · rintro ⟨L, hL, h⟩
    obtain ⟨member, hmember, rfl⟩ := List.mem_map.mp hL
    exact .choice hmember h

/-- Words of a repetition are words of the content in a row. -/
theorem exists_pow_of_means {rule content : Rule} {before word after : List Char}
    (h : g.Means holds rule before word after) (hrule : rule = .zeroOrMore content) :
    ∃ n, (g.matching holds content ^ n) before word after := by
  -- the induction is on the derivation, each step of which is one more time
  induction h with
  | zeroOrMore_nil => exact ⟨0, rfl⟩
  | zeroOrMore_cons hfirst _ _ ih =>
    cases hrule
    obtain ⟨n, hn⟩ := ih rfl
    refine ⟨n + 1, ?_⟩
    rw [pow_succ']
    exact ⟨_, _, rfl, hfirst, hn⟩
  | _ => cases hrule

/-- What is matched by any number of copies of the content is matched by `zeroOrMore`. -/
theorem means_of_pow {content : Rule} (n : Nat) :
    ∀ {before word after : List Char}, (g.matching holds content ^ n) before word after →
      g.Means holds (.zeroOrMore content) before word after := by
  -- the induction is on how many times the content is matched
  induction n with
  | zero =>
    intro before word after h
    cases (show word = [] from h)
    exact .zeroOrMore_nil
  | succ n ih =>
    intro before word after h
    rw [pow_succ'] at h
    obtain ⟨first, rest, rfl, hfirst, hrest⟩ := h
    exact .zeroOrMore_cons hfirst (ih hrest)

/-- `zeroOrMore` matches its content any number of times. -/
theorem matching_zeroOrMore (content : Rule) :
    g.matching holds (.zeroOrMore content) = (g.matching holds content).iterated 0 none := by
  ext before word after
  constructor
  · intro h
    obtain ⟨n, hn⟩ := exists_pow_of_means h rfl
    exact ⟨n, Nat.zero_le n, fun _ hm => (Option.not_mem_none _ hm).elim, hn⟩
  · rintro ⟨n, -, -, hn⟩
    exact means_of_pow n hn

/-- `oneOrMore` matches its content at least once. -/
theorem matching_oneOrMore (content : Rule) :
    g.matching holds (.oneOrMore content) = (g.matching holds content).iterated 1 none := by
  ext before word after
  -- one time is split off on both sides
  constructor
  · intro h
    cases h with
    | oneOrMore hfirst hrest =>
      obtain ⟨n, hn⟩ := exists_pow_of_means hrest rfl
      refine ⟨n + 1, Nat.le_add_left 1 n, fun _ hm => (Option.not_mem_none _ hm).elim, ?_⟩
      rw [pow_succ']
      exact ⟨_, _, rfl, hfirst, hn⟩
  · rintro ⟨n, hle, -, hn⟩
    obtain ⟨n, rfl⟩ := Nat.exists_eq_add_of_le' hle
    rw [pow_succ'] at hn
    obtain ⟨first, rest, rfl, hfirst, hrest⟩ := hn
    exact .oneOrMore hfirst (means_of_pow n hrest)

/-- A symbol matches what its rule matches. -/
theorem matching_symbol {name : String} {rule : Rule} (h : g.rule? name = some rule) :
    g.matching holds (.symbol name) = g.matching holds rule := by
  ext before word after
  constructor
  · intro hword
    cases hword with
    | symbol hrule hword =>
      rw [h] at hrule
      cases hrule
      exact hword
  · exact .symbol h

section

variable {content : Rule}

/-- `token` does not change what is matched. -/
theorem matching_token : g.matching holds (.token content) = g.matching holds content := by
  ext before word after
  exact ⟨fun h => by cases h; assumption, .token⟩

/-- Neither does `immediateToken`; where the token has to stand is not said by its words. -/
theorem matching_immediateToken :
    g.matching holds (.immediateToken content) = g.matching holds content := by
  ext before word after
  exact ⟨fun h => by cases h; assumption, .immediateToken⟩

/-- A field names what is matched and leaves it as it is. -/
theorem matching_field {name : String} :
    g.matching holds (.field name content) = g.matching holds content := by
  ext before word after
  exact ⟨fun h => by cases h; assumption, .field⟩

/-- A precedence decides between tokens and not which words there are. -/
theorem matching_prec {assoc : Associativity} {value : Precedence} :
    g.matching holds (.prec assoc value content) = g.matching holds content := by
  ext before word after
  exact ⟨fun h => by cases h; assumption, .prec⟩

/-- The same holds of a dynamic precedence. -/
theorem matching_precDynamic {value : Int} :
    g.matching holds (.precDynamic value content) = g.matching holds content := by
  ext before word after
  exact ⟨fun h => by cases h; assumption, .precDynamic⟩

/-- What is reserved in a context does not change the words. -/
theorem matching_reserved {context : String} :
    g.matching holds (.reserved context content) = g.matching holds content := by
  ext before word after
  exact ⟨fun h => by cases h; assumption, .reserved⟩

end

/-! ## The pattern of a rule -/

/-- Every pattern in a rule is one by itself. -/
def WellFormed (g : Grammar) (rule : Rule) : Prop :=
  ∀ {value flags}, g.Mentions rule (.pattern value flags) → (parse? value).isSome

/-- Nothing in a rule changes its meaning in a pattern that is put together: every pattern is one in a
group as well, so that it does not end in a comment, and there is something to choose in every choice. -/
structure Composable (g : Grammar) (rule : Rule) : Prop where
  pattern : ∀ {value flags}, g.Mentions rule (.pattern value flags) →
    (parse? ("(?:" ++ value ++ ")")).isSome
  choice : ∀ {members}, g.Mentions rule (.choice members) → members ≠ []

/-- A part of a rule is well-formed if the rule is, as all that it mentions is mentioned by the rule. -/
theorem WellFormed.part {rule part : Rule} (h : g.WellFormed rule)
    (hpart : ∀ {r}, g.Mentions part r → g.Mentions rule r) : g.WellFormed part :=
  fun hmention => h (hpart hmention)

/-- A part of a rule is composable if the rule is. -/
theorem Composable.part {rule part : Rule} (h : g.Composable rule)
    (hpart : ∀ {r}, g.Mentions part r → g.Mentions rule r) : g.Composable part :=
  ⟨fun hmention => h.pattern (hpart hmention), fun hmention => h.choice (hpart hmention)⟩

/-- `keptFlags` keeps nothing but flags. -/
theorem isFlag_of_mem_keptFlags {flags : Option String} :
    ∀ c ∈ (Rule.keptFlags flags).toList, isFlag c = true := by
  intro c hc
  rw [Rule.keptFlags, String.toList_ofList] at hc
  exact (List.mem_filter.mp hc).2

/-- The flags that are dropped do not change how a pattern is read. -/
theorem withFlags_keptFlags (m : Modes) (flags : Option String) :
    m.withFlags (Rule.keptFlags flags).toList = m.withFlags (flags.getD "").toList := by
  simp [Modes.withFlags, Rule.keptFlags, List.contains_eq_mem, List.mem_filter]

/-- The pattern of a pattern with flags. -/
theorem fragment_pattern {value : String} {flags : Option String} (hvalue : (parse? value).isSome)
    (hgroup : (parse? ("(?:" ++ value ++ ")")).isSome) :
    Fragment holds ("(?" ++ Rule.keptFlags flags ++ ":" ++ value ++ ")").toList
      (g.matching holds (.pattern value flags)) := by
  obtain ⟨p, hp⟩ := Option.isSome_iff_exists.mp hvalue
  have htext : ("(?" ++ Rule.keptFlags flags ++ ":" ++ value ++ ")").toList =
      '(' :: '?' :: ((Rule.keptFlags flags).toList ++ ':' :: (value.toList ++ [')'])) := by
    simp
  rw [htext]
  -- in the group the value is read with the flags that are kept
  refine Fragment.flags isFlag_of_mem_keptFlags hp hgroup fun {e m} he => ?_
  rw [withFlags_keptFlags] at he
  -- a pattern matches what its one reading matches
  ext before word after
  constructor
  · exact .pattern hp he
  · intro h
    cases h with
    | pattern hp' he' h =>
      rw [hp] at hp'
      cases hp'
      rw [he] at he'
      cases he'
      exact h

/-- A choice of nothing matches the empty word, although no word is to be chosen. -/
theorem fragment_choice_nil (owner : String) (ofSymbol : String → Except CompileFault String) :
    ∃ text, Rule.patternText owner ofSymbol (.choice []) = .ok text ∧ Fragment holds text.toList 1 := by
  refine ⟨"(?:)", rfl, ?_⟩
  rw [← Matching.union_singleton 1]
  exact .group (.cons .nil .nil) (List.cons_ne_nil [] [])

section

variable {owner : String} {ofSymbol : String → Except CompileFault String}

mutual

/-- The text of a rule is read as parts that match the words of the rule, if this holds of the rules that
it names. -/
theorem fragment_patternText
    (hsymbol : ∀ {name text}, ofSymbol name = .ok text → ∃ rule, g.rule? name = some rule ∧
      (g.WellFormed rule → g.Composable rule → Fragment holds text.toList (g.matching holds rule))) :
    ∀ {rule : Rule} {text : String}, rule.patternText owner ofSymbol = .ok text → g.WellFormed rule →
      g.Composable rule → Fragment holds text.toList (g.matching holds rule)
  | .blank, _, h, _, _ => by
    cases h
    rw [matching_blank]
    exact .nil
  | .string value, _, h, _, _ => by
    cases h
    rw [matching_string, Rule.toList_escaped]
    exact .escaped value.toList
  | .pattern value flags, _, h, hformed, hcomposable => by
    cases h
    exact fragment_pattern (hformed (.self _)) (hcomposable.pattern (.self _))
  | .seq members, text, h, hformed, hcomposable => by
    rw [Rule.patternText] at h
    obtain ⟨texts, htexts, heq⟩ := Except.bind_eq_ok.mp h
    cases heq
    rw [String.toList_join, List.flatMap_def, matching_seq]
    exact .flatten (fragment_patternTexts hsymbol htexts fun member hmember =>
      ⟨hformed.part (.seq hmember), hcomposable.part (.seq hmember)⟩)
  | .choice members, text, h, hformed, hcomposable => by
    rw [Rule.patternText] at h
    obtain ⟨texts, htexts, heq⟩ := Except.bind_eq_ok.mp h
    cases heq
    have htext : ("(?:" ++ String.intercalate "|" texts ++ ")").toList =
        '(' :: '?' :: ':' :: (List.intercalate ['|'] (texts.map String.toList) ++ [')']) := by
      simp [String.toList_intercalate]
    -- the group keeps the branches together wherever it stands
    have hfragment := fragment_patternTexts hsymbol htexts fun member hmember =>
      ⟨hformed.part (.choice hmember), hcomposable.part (.choice hmember)⟩
    rw [htext, matching_choice]
    refine .group hfragment fun hnil => hcomposable.choice (.self _) ?_
    rw [hnil] at hfragment
    exact List.map_eq_nil_iff.mp (List.forall₂_nil_left_iff.mp hfragment)
  -- what is repeated stands in a group of its own, and so does a symbol
  | .zeroOrMore content, text, h, hformed, hcomposable => by
    rw [Rule.patternText] at h
    obtain ⟨inner, hinner, heq⟩ := Except.bind_eq_ok.mp h
    cases heq
    have htext : ("(?:" ++ inner ++ ")*").toList = '(' :: '?' :: ':' :: (inner.toList ++ [')', '*']) := by
      simp
    rw [htext, matching_zeroOrMore]
    exact .repetition (fun _ => rfl)
      (fragment_patternText hsymbol hinner (hformed.part .zeroOrMore) (hcomposable.part .zeroOrMore))
  | .oneOrMore content, text, h, hformed, hcomposable => by
    rw [Rule.patternText] at h
    obtain ⟨inner, hinner, heq⟩ := Except.bind_eq_ok.mp h
    cases heq
    have htext : ("(?:" ++ inner ++ ")+").toList = '(' :: '?' :: ':' :: (inner.toList ++ [')', '+']) := by
      simp
    rw [htext, matching_oneOrMore]
    exact .repetition (fun _ => rfl)
      (fragment_patternText hsymbol hinner (hformed.part .oneOrMore) (hcomposable.part .oneOrMore))
  | .symbol name, text, h, hformed, hcomposable => by
    rw [Rule.patternText] at h
    obtain ⟨inner, hinner, heq⟩ := Except.bind_eq_ok.mp h
    cases heq
    obtain ⟨rule, hrule, hfragment⟩ := hsymbol hinner
    have htext : ("(?:" ++ inner ++ ")").toList =
        '(' :: '?' :: ':' :: (List.intercalate ['|'] [inner.toList] ++ [')']) := by
      simp
    rw [htext, matching_symbol hrule, ← Matching.union_singleton (g.matching holds rule)]
    exact .group (.cons (hfragment (hformed.part (.symbol hrule)) (hcomposable.part (.symbol hrule))) .nil)
      (List.cons_ne_nil _ _)
  | .token content, text, h, hformed, hcomposable => by
    rw [matching_token]
    exact fragment_patternText hsymbol h (hformed.part .token) (hcomposable.part .token)
  | .immediateToken content, _, h, hformed, hcomposable => by
    rw [matching_immediateToken]
    exact fragment_patternText hsymbol h (hformed.part .immediateToken) (hcomposable.part .immediateToken)
  | .field _ content, _, h, hformed, hcomposable => by
    rw [matching_field]
    exact fragment_patternText hsymbol h (hformed.part .field) (hcomposable.part .field)
  | .prec _ _ content, _, h, hformed, hcomposable => by
    rw [matching_prec]
    exact fragment_patternText hsymbol h (hformed.part .prec) (hcomposable.part .prec)
  | .precDynamic _ content, _, h, hformed, hcomposable => by
    rw [matching_precDynamic]
    exact fragment_patternText hsymbol h (hformed.part .precDynamic) (hcomposable.part .precDynamic)
  | .reserved _ content, _, h, hformed, hcomposable => by
    rw [matching_reserved]
    exact fragment_patternText hsymbol h (hformed.part .reserved) (hcomposable.part .reserved)
  | .alias .., _, h, _, _ => by
    rw [Rule.patternText] at h
    cases h

/-- The same for the members of a sequence or a choice, one by one. -/
theorem fragment_patternTexts
    (hsymbol : ∀ {name text}, ofSymbol name = .ok text → ∃ rule, g.rule? name = some rule ∧
      (g.WellFormed rule → g.Composable rule → Fragment holds text.toList (g.matching holds rule))) :
    ∀ {members : List Rule} {texts : List String}, Rule.patternTexts owner ofSymbol members = .ok texts →
      (∀ member ∈ members, g.WellFormed member ∧ g.Composable member) →
      List.Forall₂ (Fragment holds) (texts.map String.toList) (members.map (g.matching holds))
  | [], _, h, _ => by
    cases h
    exact .nil
  | member :: members, _, h, hparts => by
    rw [Rule.patternTexts] at h
    obtain ⟨text, htext, h⟩ := Except.bind_eq_ok.mp h
    obtain ⟨texts, htexts, heq⟩ := Except.bind_eq_ok.mp h
    cases heq
    obtain ⟨⟨hformed, hcomposable⟩, hrest⟩ := List.forall_mem_cons.mp hparts
    exact .cons (fragment_patternText hsymbol htext hformed hcomposable)
      (fragment_patternTexts hsymbol htexts hrest)

end

end

/-- What the pattern of a rule is read as, with the rules that it names. -/
theorem fragment_tokenPattern {owner : String} {fuel : Nat} :
    ∀ {visiting : List String} {rule : Rule} {text : String},
      g.tokenPattern owner fuel visiting rule = .ok text → g.WellFormed rule → g.Composable rule →
      Fragment holds text.toList (g.matching holds rule) := by
  induction fuel with
  | zero => exact fun h => by cases h
  -- a symbol is expanded with one fuel less
  | succ fuel ih =>
    intro visiting rule text h
    rw [tokenPattern] at h
    refine fragment_patternText (fun {name text} hname => ?_) h
    split at hname
    · cases hname
    · rename_i referenced hreferenced
      split at hname
      · cases hname
      · exact ⟨referenced, hreferenced, ih hname⟩

/-! ## Rules that refer to each other -/

/-- A rule that is found has its name among those of the grammar. -/
theorem mem_names_of_rule? {name : String} {rule : Rule} (h : g.rule? name = some rule) :
    name ∈ g.rules.map Prod.fst := by
  obtain ⟨before, after, hrules, -⟩ := List.lookup_eq_some_iff.mp h
  rw [hrules]
  simp

/-- Following names comes to an end: as no name is followed twice, there are never more of them than
rules. -/
theorem tokenPattern_add {owner : String} (extra : Nat) {fuel : Nat} :
    ∀ {visiting : List String} {rule : Rule}, visiting.Nodup → visiting ⊆ g.rules.map Prod.fst →
      g.rules.length < visiting.length + fuel →
      g.tokenPattern owner (fuel + extra) visiting rule = g.tokenPattern owner fuel visiting rule := by
  induction fuel with
  -- without fuel all rules would be visited, and one more: more than there are
  | zero =>
    intro visiting rule hnodup hsub hlength
    have := (hnodup.subperm hsub).length_le
    rw [List.length_map] at this
    omega
  | succ fuel ih =>
    intro visiting rule hnodup hsub hlength
    rw [show fuel + 1 + extra = fuel + extra + 1 by omega, tokenPattern, tokenPattern]
    congr 1
    funext name
    cases hname : g.rule? name with
    | none => rfl
    | some referenced =>
      dsimp only
      split
      · rfl
      · rename_i hnew
        have hnew : name ∉ visiting := fun h => hnew (List.contains_iff_mem.mpr h)
        -- the rule is visited for the first time, so the list of those visited grows with less fuel
        exact ih (List.nodup_cons.mpr ⟨hnew, hnodup⟩)
          (List.cons_subset.mpr ⟨mem_names_of_rule? hname, hsub⟩) (by rw [List.length_cons]; omega)

/-! ## Tokens -/

/-- A rule that has the words of its content, and mentions all that the content does. -/
structure Wraps (g : Grammar) (rule content : Rule) : Prop where
  matching : ∀ holds, g.matching holds rule = g.matching holds content
  mentions : ∀ {part}, g.Mentions content part → g.Mentions rule part

/-- Every rule wraps itself. -/
theorem Wraps.refl (rule : Rule) : g.Wraps rule rule := ⟨fun _ => rfl, id⟩

/-- What wraps a rule that wraps another one wraps that one. -/
theorem Wraps.trans {a b c : Rule} (hab : g.Wraps a b) (hbc : g.Wraps b c) : g.Wraps a c :=
  ⟨fun holds => (hab.matching holds).trans (hbc.matching holds), fun h => hab.mentions (hbc.mentions h)⟩

/-- A precedence wraps its content. -/
theorem wraps_prec (assoc : Associativity) (value : Precedence) (content : Rule) :
    g.Wraps (.prec assoc value content) content :=
  ⟨fun _ => matching_prec, .prec⟩

/-- So does a dynamic precedence. -/
theorem wraps_precDynamic (value : Int) (content : Rule) : g.Wraps (.precDynamic value content) content :=
  ⟨fun _ => matching_precDynamic, .precDynamic⟩

/-- `withoutPrecedence` takes nothing but wrappings off. -/
theorem wraps_withoutPrecedence : ∀ rule : Rule, g.Wraps rule rule.withoutPrecedence
  | .prec assoc value content => (wraps_prec assoc value content).trans (wraps_withoutPrecedence content)
  | .precDynamic value content => (wraps_precDynamic value content).trans (wraps_withoutPrecedence content)
  | .blank | .string _ | .pattern .. | .symbol _ | .seq _ | .choice _ | .zeroOrMore _ | .oneOrMore _
  | .field .. | .alias .. | .token _ | .immediateToken _ | .reserved .. => .refl _

/-- So does `lexicalPrecedence`, which reads the outermost of them. -/
theorem wraps_lexicalPrecedence {owner : String} :
    ∀ {rule content : Rule} {n : Option Int}, g.lexicalPrecedence owner rule = .ok (n, content) →
      g.Wraps rule content
  | .prec assoc value inner, content, n, h => by
    rw [lexicalPrecedence] at h
    -- the content is taken from below all the static precedences that stand on one another
    obtain ⟨_, -, heq⟩ := Except.bind_eq_ok.mp h
    cases heq
    exact (wraps_prec assoc value inner).trans (wraps_withoutPrecedence inner)
  | .precDynamic value inner, content, n, h => by
    rw [lexicalPrecedence] at h
    exact (wraps_precDynamic value inner).trans (wraps_lexicalPrecedence h)
  | .blank, _, _, h | .string _, _, _, h | .pattern .., _, _, h | .symbol _, _, _, h | .seq _, _, _, h
  | .choice _, _, _, h | .zeroOrMore _, _, _, h | .oneOrMore _, _, _, h | .field .., _, _, h
  | .alias .., _, _, h | .token _, _, _, h | .immediateToken _, _, _, h | .reserved .., _, _, h => by
    cases h
    exact .refl _

/-- So does `tokenBody`, which asks whether the token is immediate. -/
theorem wraps_tokenBody (rule : Rule) : g.Wraps rule (tokenBody rule).2 := by
  cases rule with
  | token => exact ⟨fun _ => matching_token, .token⟩
  | immediateToken => exact ⟨fun _ => matching_immediateToken, .immediateToken⟩
  | _ => exact .refl _

/-- A pattern that passes the check is one that is read and made an expression of. -/
theorem checkPattern_eq_ok {owner pattern : String} {u : Unit} (h : checkPattern owner pattern = .ok u) :
    ∃ p e, parse? pattern = some p ∧ p.expression? = some e := by
  unfold checkPattern at h
  split at h
  · cases h
  · rename_i e he
    obtain ⟨p, hp, he⟩ := Option.bind_eq_some_iff.mp he
    exact ⟨p, e, hp, he⟩

/-- Looking for the pattern of a token always ends, also where rules refer to each other: it makes no
difference how many more names could be followed.  And the pattern that is found matches just the words
of the rule, if nothing in the rule changes its meaning where it is put. -/
theorem words_of_token (g : Grammar) :
    (∀ owner rule extra, g.tokenPattern owner (g.rules.length + 1 + extra) [] rule =
      g.tokenPattern owner (g.rules.length + 1) [] rule) ∧
    ∀ owner rule token, g.token owner rule = .ok token → g.WellFormed rule → g.Composable rule →
      ∃ p e, parse? token.pattern = some p ∧ p.expression? = some e ∧
        ∀ holds before word after,
          e.matching holds before word after ↔ g.Means holds rule before word after := by
  refine ⟨fun owner rule extra => ?_, fun owner rule token h hformed hcomposable => ?_⟩
  · exact tokenPattern_add extra List.nodup_nil (List.nil_subset _) (by simp)
  · unfold Grammar.token at h
    simp only [Except.bind_eq_ok, Except.pure_eq_ok] at h
    obtain ⟨⟨outer, content⟩, houter, ⟨inner, body⟩, hinner, pattern, hpattern, u, hcheck, rfl⟩ := h
    -- the two precedences and the mark of an immediate token are taken off
    have hwraps : g.Wraps rule body := (wraps_lexicalPrecedence houter).trans
      ((wraps_tokenBody content).trans (wraps_lexicalPrecedence hinner))
    obtain ⟨p, e, hp, he⟩ := checkPattern_eq_ok hcheck
    refine ⟨p, e, hp, he, fun holds before word after => ?_⟩
    -- the text of what is left is a `Fragment`, so it is read as what the rule means
    have hfragment : Fragment holds pattern.toList (g.matching holds body) :=
      fragment_tokenPattern hpattern (hformed.part hwraps.mentions) (hcomposable.part hwraps.mentions)
    rw [hfragment.matching_of_parse? hp he, ← hwraps.matching holds]
    rfl

/-! ### A letter, and what follows it -/

namespace Letters

open Pattern

/-- A letter that is given by a pattern, with another one behind it, on the next line or on the same. -/
def rule (value : String) : Rule :=
  .token (.seq [.pattern value none, .choice [.string "\nb", .string "c"]])

/-- One token, a pattern with a value behind which other text follows. -/
def grammar (value : String) : Grammar where
  name := "s"
  rules := [("s", .symbol "t"), ("t", rule value)]
  extras := []
  precedences := []
  conflicts := []
  externals := []
  inlined := []
  supertypes := []
  word := none
  reserved := []

variable {value : String}

/-- The parts of the rule. -/
theorem mem_of_mentions {part : Rule} (h : (grammar value).Mentions (rule value) part) :
    part ∈ [rule value, .seq [.pattern value none, .choice [.string "\nb", .string "c"]],
      .pattern value none, .choice [.string "\nb", .string "c"], .string "\nb", .string "c"] := by
  -- the parts are listed from the outside in
  cases h with
  | self => simp
  | token h =>
    cases h with
    | self => simp
    | seq hmember h =>
      simp only [List.mem_cons, List.not_mem_nil, or_false] at hmember
      obtain rfl | rfl := hmember
      · cases h
        simp
      · cases h with
        | self => simp
        | choice hmember h =>
          simp only [List.mem_cons, List.not_mem_nil, or_false] at hmember
          obtain rfl | rfl := hmember <;> cases h <;> simp

/-- The rule is well-formed if the value is a pattern of its own. -/
theorem wellFormed (h : (parse? value).isSome) : (grammar value).WellFormed (rule value) := by
  intro value' flags hmention
  have := mem_of_mentions hmention
  simp [rule] at this
  exact this.1 ▸ h

/-- It is composable if the value is still one pattern when it stands in a group. -/
theorem composable (h : (parse? ("(?:" ++ value ++ ")")).isSome) :
    (grammar value).Composable (rule value) := by
  refine ⟨fun {value' flags} hmention => ?_, fun {members} hmention => ?_⟩
  · have := mem_of_mentions hmention
    simp [rule] at this
    exact this.1 ▸ h
  · have := mem_of_mentions hmention
    simp [rule] at this
    exact this ▸ List.cons_ne_nil _ _

/-- The pattern of the letter is followed by the choice. -/
theorem token_eq {p : Pattern} {e : Expression} {n : Nat} (hn : e.minLength = some (n + 1))
    (hp : parse? ("(?:" ++ value ++ ")(?:\nb|c)") = some p) (he : p.expression? = some e) :
    (grammar value).token "t" (rule value) = .ok ⟨"(?:" ++ value ++ ")(?:\nb|c)", false, false, 0⟩ := by
  have hpattern : (grammar value).tokenPattern "t" 3 []
      (.seq [.pattern value none, .choice [.string "\nb", .string "c"]]) =
        .ok ("(?:" ++ value ++ ")(?:\nb|c)") := by
    refine congrArg Except.ok (?_ : String.join ["(?" ++ "" ++ ":" ++ value ++ ")", "(?:\nb|c)"] = _)
    exact String.toList_inj.mp (by simp)
  -- the expression takes characters, so the token is not refused as one that matches nothing
  have hcheck : checkPattern "t" ("(?:" ++ value ++ ")(?:\nb|c)") = .ok () := by
    rw [checkPattern, hp, Option.bind_some, he]
    exact if_neg (by rw [hn]; simp)
  unfold Grammar.token
  simp only [Except.bind_eq_ok, Except.pure_eq_ok]
  exact ⟨_, rfl, _, rfl, _, hpattern, (), hcheck, rfl⟩

/-- The letter with the one on the same line behind it. -/
theorem means {p : Pattern} {e : Expression} (hp : parse? value = some p) (he : p.expression? = some e)
    {holds : Look → List Char → List Char → Prop} (h : e.matching holds [] ['a'] ['c']) :
    (grammar value).Means holds (rule value) [] ['a', 'c'] [] := by
  obtain ⟨⟨e', m⟩, hmodes, rfl⟩ := Option.map_eq_some_iff.mp he
  -- the pattern reads the letter, whatever its value is
  have hletter : (grammar value).Means holds (.pattern value none) [] ['a'] ['c'] := .pattern hp hmodes h
  have hchoice : (grammar value).Means holds (.choice [.string "\nb", .string "c"]) ['a'] ['c'] [] :=
    .choice (List.mem_cons_of_mem _ (List.mem_singleton_self _)) .string
  have hrest : (grammar value).Means holds (.seq [.choice [.string "\nb", .string "c"]]) ['a']
      (['c'] ++ []) [] := .seq_cons hchoice .seq_nil
  have hseq : (grammar value).Means holds (.seq [.pattern value none,
      .choice [.string "\nb", .string "c"]]) [] (['a'] ++ (['c'] ++ [])) [] := .seq_cons hletter hrest
  exact .token hseq

/-- A pattern that is one in a group as well can be put there. -/
theorem letters_joined : (parse? "a").isSome ∧ (parse? "(?:a)").isSome ∧
    ∃ p e, parse? "(?:a)(?:\nb|c)" = some p ∧ p.expression? = some e ∧
      ∀ holds, e.matching holds [] ['a', 'c'] [] := by
  -- alone, in a group and together with what follows: the value is read alike
  have halone : parse? "a" = some (.literal ⟨'a', false⟩) := rfl
  have hgroup : parse? "(?:a)" = some (.group (.plain []) (.literal ⟨'a', false⟩)) := rfl
  have htogether : parse? "(?:a)(?:\nb|c)" = some (.concat [.group (.plain []) (.literal ⟨'a', false⟩),
      .group (.plain []) (.alternation [.concat [.literal ⟨'\n', false⟩, .literal ⟨'b', false⟩],
        .literal ⟨'c', false⟩])]) := rfl
  have htoken : (grammar "a").token "t" (rule "a") = .ok ⟨"(?:a)(?:\nb|c)", false, false, 0⟩ :=
    token_eq (n := 1) rfl htogether rfl
  obtain ⟨p, e, hp, he, hwords⟩ := (words_of_token (grammar "a")).2 "t" (rule "a") _ htoken
    (wellFormed (Option.isSome_of_eq_some halone)) (composable (Option.isSome_of_eq_some hgroup))
  exact ⟨Option.isSome_of_eq_some halone, Option.isSome_of_eq_some hgroup, p, e, hp, he,
    fun holds => (hwords holds _ _ _).mpr (means halone rfl rfl)⟩

/-- Where a comment begins in free spacing, a blank and some letters. -/
theorem isBlank_eq : isBlank ' ' = true ∧ ∀ c ∈ ['#', 'a', 'b', '|', 'c', ')'], isBlank c = false := by
  simp only [isBlank, whiteSpace_eq, List.forall_mem_cons]
  exact ⟨rfl, rfl, rfl, rfl, rfl, rfl, rfl, fun _ h => by cases h⟩

/-- A comment at the end of a pattern hides where the group ends, up to the end of the line in the choice
behind it.  The token then is the letters on both lines or the last letter alone. -/
theorem comment_spills : ∃ token p e, (grammar "(?x)a #").token "t" (rule "(?x)a #") = .ok token ∧
    (grammar "(?x)a #").WellFormed (rule "(?x)a #") ∧ parse? token.pattern = some p ∧
    p.expression? = some e ∧ ∀ holds, (grammar "(?x)a #").Means holds (rule "(?x)a #") [] ['a', 'c'] [] ∧
      ¬ e.matching holds [] ['a', 'c'] [] := by
  obtain ⟨hspace, hmarks⟩ := isBlank_eq
  simp only [List.forall_mem_cons] at hmarks
  -- alone the comment ends with the value, but together it goes on to the line break
  have halone : parse? "(?x)a #" =
      some (.concat [.directive [(.freeSpacing, true)], .literal ⟨'a', false⟩]) := by
    simp [parse?, body?, skipFree, skipComments, opening?, switches?, switch?, concatOf, alternationOf,
      Switches.value, hspace, hmarks, depth, depths, maxDepth]
  have htogether : parse? "(?:(?x)a #)(?:\nb|c)" = some (.group (.plain []) (.alternation
      [.concat [.directive [(.freeSpacing, true)], .literal ⟨'a', false⟩, .literal ⟨'b', false⟩],
        .literal ⟨'c', false⟩])) := by
    simp [parse?, body?, skipFree, skipComments, opening?, switches?, switch?, concatOf, alternationOf,
      Switches.value, hspace, hmarks, depth, depths, maxDepth]
  have htoken : (grammar "(?x)a #").token "t" (rule "(?x)a #") =
      .ok ⟨"(?:(?x)a #)(?:\nb|c)", false, false, 0⟩ :=
    token_eq (n := 0) rfl htogether rfl
  refine ⟨_, _, .alternation [.literal ['a', 'b'], .literal ['c']], htoken,
    wellFormed (Option.isSome_of_eq_some halone), htogether, rfl,
    fun holds => ⟨means halone (e := .literal ['a']) rfl rfl, ?_⟩⟩
  -- the whole reads `ab` or `c`, and `ac` is neither
  rintro ⟨L, hL, h⟩
  simp only [Expression.matchings, Expression.matching, List.mem_cons, List.not_mem_nil, or_false] at hL
  obtain rfl | rfl := hL <;> cases h

end Letters

end Grammar

end IncrementalParsing
