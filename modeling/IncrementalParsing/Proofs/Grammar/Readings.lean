import IncrementalParsing.Grammar.TokenPattern
import IncrementalParsing.Proofs.Except

/-!
# What rules mean

The sentences of a rule tree, in which names stand for what their rules mean.  A sentence is a row
of `Terminal`s: a token rule stands for itself, and so does a token that is no rule.  `Grammar.Reads`
also says whether any part was read, since a repetition can be taken in two ways: as any row of what
its content means, or as a row of parts, in which what is empty does not count.

## Key results

- `Grammar.Reads`: the sentences of a rule
- `Grammar.Reads.mem_shapes`: what is read has one of the shapes of the rule
- `Grammar.token_owner`: a token is the same in every rule
- `Grammar.language_of_repeatsParts`: it does not matter whether blanks count if only parts are
  repeated
-/

namespace IncrementalParsing

/-- What a sentence consists of. -/
inductive Terminal where
  /-- A rule that is a token. -/
  | rule (name : String)
  /-- A token without a rule. -/
  | anonymous (pattern : String) (immediate : Bool)
deriving DecidableEq

namespace Rule

/-- Whether the rule is a token as it stands. -/
def isToken : Rule → Bool
  | .string _ | .pattern .. | .token _ | .immediateToken _ => true
  | _ => false

mutual

/-- The ways of writing a rule, told apart only by whether there are any parts. -/
def shapes : Rule → List Bool
  | .blank => [false]
  | .string _ | .pattern .. | .token _ | .immediateToken _ | .symbol _ => [true]
  | .seq members => shapesSeq members
  | .choice members => shapesChoice members
  | .zeroOrMore content => if content.shapes.contains true then [true, false] else [false]
  | .oneOrMore content => if content.shapes.contains true then [true] else [false]
  | .field _ content => content.shapes
  | .alias content _ _ => content.shapes
  | .prec _ _ content => content.shapes
  | .precDynamic _ content => content.shapes
  | .reserved _ content => content.shapes

/-- The shapes of a sequence: whether any of its members has a part. -/
def shapesSeq : List Rule → List Bool
  | [] => [false]
  | r :: rest => r.shapes.flatMap fun b => (shapesSeq rest).map (b || ·)

/-- The shapes of a choice: those of its members. -/
def shapesChoice : List Rule → List Bool
  | [] => []
  | r :: rest => r.shapes ++ shapesChoice rest

end

end Rule

namespace Grammar

/-- Whether a name is that of a token.  The start rule never is. -/
def isTokenRule (g : Grammar) (start name : String) : Bool :=
  (g.rule? name).any (·.isLexical) && name != start

/-- The sentences of a rule, and whether any part is read.  Where `blanks` count, one or more of a
content is the usual: any row of its sentences.  Where they do not, each member of the row has a
part, and the row of a content that is never written with parts is empty. -/
inductive Reads (g : Grammar) (start : String) (blanks : Bool) : Rule → Bool → List Terminal → Prop
  | blank : Reads g start blanks .blank false []
  | token {rule : Rule} {owner : String} {token : TokenRule} (hrule : rule.isToken = true)
      (htoken : g.token owner rule = .ok token) :
      Reads g start blanks rule true [.anonymous token.pattern token.immediate]
  | lexical {name : String} (hname : g.isTokenRule start name = true) :
      Reads g start blanks (.symbol name) true [.rule name]
  | symbol {name : String} {rule : Rule} {b : Bool} {w : List Terminal}
      (hname : g.isTokenRule start name = false) (hrule : g.rule? name = some rule)
      (h : Reads g start blanks rule b w) : Reads g start blanks (.symbol name) true w
  | seqNil : Reads g start blanks (.seq []) false []
  | seqCons {r : Rule} {rest : List Rule} {b b' : Bool} {w w' : List Terminal}
      (h : Reads g start blanks r b w) (hrest : Reads g start blanks (.seq rest) b' w') :
      Reads g start blanks (.seq (r :: rest)) (b || b') (w ++ w')
  | choice {r : Rule} {members : List Rule} {b : Bool} {w : List Terminal} (hmem : r ∈ members)
      (h : Reads g start blanks r b w) : Reads g start blanks (.choice members) b w
  | zero {content : Rule} : Reads g start blanks (.zeroOrMore content) false []
  | many {content : Rule} {b : Bool} {w : List Terminal}
      (h : Reads g start blanks (.oneOrMore content) b w) :
      Reads g start blanks (.zeroOrMore content) b w
  | once {content : Rule} {b : Bool} {w : List Terminal} (hblank : blanks = true ∨ b = true)
      (h : Reads g start blanks content b w) : Reads g start blanks (.oneOrMore content) b w
  | more {content : Rule} {b b' : Bool} {w w' : List Terminal} (hblank : blanks = true ∨ b' = true)
      (h : Reads g start blanks (.oneOrMore content) b w)
      (hlast : Reads g start blanks content b' w') :
      Reads g start blanks (.oneOrMore content) (b || b') (w ++ w')
  | nothing {content : Rule} (hblank : blanks = false) (hshapes : true ∉ content.shapes) :
      Reads g start blanks (.oneOrMore content) false []
  | field {name : String} {content : Rule} {b : Bool} {w : List Terminal}
      (h : Reads g start blanks content b w) : Reads g start blanks (.field name content) b w
  | renamed {content : Rule} {value : String} {named b : Bool} {w : List Terminal}
      (h : Reads g start blanks content b w) : Reads g start blanks (.alias content value named) b w
  | prec {assoc : Associativity} {value : Precedence} {content : Rule} {b : Bool}
      {w : List Terminal} (h : Reads g start blanks content b w) :
      Reads g start blanks (.prec assoc value content) b w
  | precDynamic {value : Int} {content : Rule} {b : Bool} {w : List Terminal}
      (h : Reads g start blanks content b w) : Reads g start blanks (.precDynamic value content) b w
  | reserved {context : String} {content : Rule} {b : Bool} {w : List Terminal}
      (h : Reads g start blanks content b w) : Reads g start blanks (.reserved context content) b w

/-- The sentences of a rule. -/
def language (g : Grammar) (start : String) (blanks : Bool) (rule : Rule) : Set (List Terminal) :=
  {w | ∃ b, g.Reads start blanks rule b w}

/-! ## Tokens -/

end Grammar

namespace Rule

variable {owner owner' : String} {ofSymbol ofSymbol' : String → Except CompileFault String}

mutual

/-- The pattern of a rule does not depend on where it is. -/
theorem patternText_owner (hsymbol : ∀ name p, ofSymbol name = .ok p → ofSymbol' name = .ok p) :
    ∀ (rule : Rule) (p : String), rule.patternText owner ofSymbol = .ok p →
      rule.patternText owner' ofSymbol' = .ok p
  | .blank, _, h => h
  | .string _, _, h => h
  | .pattern .., _, h => h
  -- one case for each constructor; only the text of a symbol depends on `ofSymbol`
  | .seq members, _, h => by
    rw [patternText] at h ⊢
    obtain ⟨ps, hps, hp⟩ := Except.bind_eq_ok.mp h
    exact Except.bind_eq_ok.mpr ⟨ps, patternTexts_owner hsymbol members ps hps, hp⟩
  | .choice members, _, h => by
    rw [patternText] at h ⊢
    obtain ⟨ps, hps, hp⟩ := Except.bind_eq_ok.mp h
    exact Except.bind_eq_ok.mpr ⟨ps, patternTexts_owner hsymbol members ps hps, hp⟩
  | .zeroOrMore content, _, h => by
    rw [patternText] at h ⊢
    obtain ⟨q, hq, hp⟩ := Except.bind_eq_ok.mp h
    exact Except.bind_eq_ok.mpr ⟨q, patternText_owner hsymbol content q hq, hp⟩
  | .oneOrMore content, _, h => by
    rw [patternText] at h ⊢
    obtain ⟨q, hq, hp⟩ := Except.bind_eq_ok.mp h
    exact Except.bind_eq_ok.mpr ⟨q, patternText_owner hsymbol content q hq, hp⟩
  | .symbol name, _, h => by
    rw [patternText] at h ⊢
    obtain ⟨q, hq, hp⟩ := Except.bind_eq_ok.mp h
    exact Except.bind_eq_ok.mpr ⟨q, hsymbol name q hq, hp⟩
  | .token content, p, h => patternText_owner hsymbol content p h
  | .immediateToken content, p, h => patternText_owner hsymbol content p h
  | .field _ content, p, h => patternText_owner hsymbol content p h
  | .prec _ _ content, p, h => patternText_owner hsymbol content p h
  | .precDynamic _ content, p, h => patternText_owner hsymbol content p h
  | .reserved _ content, p, h => patternText_owner hsymbol content p h
  | .alias .., _, h => by
    rw [patternText] at h
    cases h

/-- The text of a token does not depend on the rule that its errors name, -/
theorem patternTexts_owner (hsymbol : ∀ name p, ofSymbol name = .ok p → ofSymbol' name = .ok p) :
    ∀ (rules : List Rule) (ps : List String), patternTexts owner ofSymbol rules = .ok ps →
      patternTexts owner' ofSymbol' rules = .ok ps
  | [], _, h => h
  | r :: rest, _, h => by
    rw [patternTexts] at h ⊢
    obtain ⟨p, hp, h⟩ := Except.bind_eq_ok.mp h
    obtain ⟨ps, hps, h⟩ := Except.bind_eq_ok.mp h
    exact Except.bind_eq_ok.mpr ⟨p, patternText_owner hsymbol r p hp,
      Except.bind_eq_ok.mpr ⟨ps, patternTexts_owner hsymbol rest ps hps, h⟩⟩

end

end Rule

namespace Grammar

variable {g : Grammar} {owner owner' : String}

/-- nor does its pattern, -/
theorem tokenPattern_owner {fuel : Nat} {visiting : List String} {rule : Rule} {p : String}
    (h : g.tokenPattern owner fuel visiting rule = .ok p) :
    g.tokenPattern owner' fuel visiting rule = .ok p := by
  -- the induction is on the fuel, as a rule that is referred to is read with less
  induction fuel generalizing visiting rule p with
  | zero => cases h
  | succ fuel ih =>
    rw [tokenPattern] at h ⊢
    refine Rule.patternText_owner (fun name q hq => ?_) rule p h
    split at hq
    · cases hq
    · rename_i referenced hreferenced
      split at hq
      · cases hq
      · rename_i hnew
        rw [if_neg hnew]
        exact ih hq

/-- nor the number of a precedence, -/
theorem precedence_owner {value : Precedence} {n : Int} (h : g.precedence owner value = .ok n) :
    g.precedence owner' value = .ok n := by
  cases value with
  | integer => exact h
  | named name =>
    unfold precedence at h ⊢
    cases hrank : g.rank? name with
    | none => simp [hrank] at h
    | some => simpa [hrank] using h

/-- nor the precedence of a token, -/
theorem lexicalPrecedence_owner :
    ∀ {rule : Rule} {found : Option Int × Rule}, g.lexicalPrecedence owner rule = .ok found →
      g.lexicalPrecedence owner' rule = .ok found
  -- the owner is named only in errors
  | .prec _ value content, found, h => by
    rw [lexicalPrecedence] at h ⊢
    obtain ⟨n, hn, h⟩ := Except.bind_eq_ok.mp h
    exact Except.bind_eq_ok.mpr ⟨n, precedence_owner hn, h⟩
  | .precDynamic _ content, found, h => by
    rw [lexicalPrecedence] at h ⊢
    exact lexicalPrecedence_owner h
  | .blank, _, h | .string _, _, h | .pattern .., _, h | .symbol _, _, h | .seq _, _, h
  | .choice _, _, h | .zeroOrMore _, _, h | .oneOrMore _, _, h | .field .., _, h | .alias .., _, h
  | .token _, _, h | .immediateToken _, _, h | .reserved .., _, h => h

/-- nor whether a pattern is accepted. -/
theorem checkPattern_owner {pattern : String} {u : Unit} (h : checkPattern owner pattern = .ok u) :
    checkPattern owner' pattern = .ok u := by
  unfold checkPattern at h ⊢
  split at h
  · cases h
  · split at h
    · cases h
    · rename_i hlength
      rw [if_neg hlength]

/-- A token is the same in every rule. -/
theorem token_owner {rule : Rule} {token : TokenRule} (h : g.token owner rule = .ok token) :
    g.token owner' rule = .ok token := by
  unfold Grammar.token at h ⊢
  simp only [Except.bind_eq_ok, Except.pure_eq_ok] at h ⊢
  obtain ⟨outer, houter, inner, hinner, pattern, hpattern, u, hcheck, rfl⟩ := h
  exact ⟨outer, lexicalPrecedence_owner houter, inner, lexicalPrecedence_owner hinner, pattern,
    tokenPattern_owner hpattern, u, checkPattern_owner hcheck, rfl⟩

/-! ## Shapes -/

end Grammar

/-- A token is one part. -/
theorem Rule.shapes_of_isToken {rule : Rule} (h : rule.isToken = true) : rule.shapes = [true] := by
  cases rule <;> first | rfl | cases h

/-- A shape of a member is a shape of the choice. -/
theorem Rule.mem_shapesChoice {r : Rule} {members : List Rule} (h : r ∈ members) {b : Bool}
    (hb : b ∈ r.shapes) : b ∈ shapesChoice members := by
  induction members with
  | nil => cases h
  | cons first rest ih =>
    rw [shapesChoice, List.mem_append]
    obtain rfl | h := List.mem_cons.mp h
    · exact .inl hb
    · exact .inr (ih h)

/-- What is read has one of the shapes of the rule, where blanks do not count. -/
theorem Grammar.Reads.mem_shapes {g : Grammar} {start : String} {rule : Rule} {b : Bool}
    {w : List Terminal} (h : g.Reads start false rule b w) : b ∈ rule.shapes := by
  induction h with
  | blank => exact List.mem_singleton_self _
  | token hrule => rw [Rule.shapes_of_isToken hrule]; exact List.mem_singleton_self _
  | lexical => exact List.mem_singleton_self _
  | symbol => exact List.mem_singleton_self _
  | seqNil => exact List.mem_singleton_self _
  | seqCons _ _ ih ihrest =>
    exact List.mem_flatMap.mpr ⟨_, ih, List.mem_map_of_mem ihrest⟩
  | choice hmem _ ih => exact Rule.mem_shapesChoice hmem ih
  | zero =>
    simp only [Rule.shapes]
    split <;> simp
  | many _ ih =>
    simp only [Rule.shapes] at ih ⊢
    split at ih <;> simp_all
  -- blanks do not count, so each repetition has a part
  | once hblank _ ih =>
    obtain rfl : _ = true := hblank.resolve_left (by decide)
    simp [Rule.shapes, ih]
  | more hblank _ _ _ ih =>
    obtain rfl : _ = true := hblank.resolve_left (by decide)
    simp [Rule.shapes, ih]
  | nothing _ hshapes => simp [Rule.shapes, hshapes]
  | field _ ih | renamed _ ih | prec _ ih | precDynamic _ ih | reserved _ ih => exact ih

/-! ## Blanks -/

namespace Rule

mutual

/-- Whether all that is to be there at least once has parts, in every way of writing it. -/
def repeatsParts : Rule → Bool
  | .blank | .string _ | .pattern .. | .token _ | .immediateToken _ | .symbol _ => true
  | .seq members => repeatsPartsAll members
  | .choice members => repeatsPartsAll members
  | .zeroOrMore content => content.repeatsParts
  | .oneOrMore content =>
    content.repeatsParts && content.shapes.contains true && !content.shapes.contains false
  | .field _ content => content.repeatsParts
  | .alias content _ _ => content.repeatsParts
  | .prec _ _ content => content.repeatsParts
  | .precDynamic _ content => content.repeatsParts
  | .reserved _ content => content.repeatsParts

/-- Every repetition in the rules repeats something that has a part. -/
def repeatsPartsAll : List Rule → Bool
  | [] => true
  | r :: rest => r.repeatsParts && repeatsPartsAll rest

end

/-- So it is with each of the rules. -/
theorem repeatsParts_of_mem {r : Rule} {members : List Rule} (hmem : r ∈ members)
    (h : repeatsPartsAll members = true) : r.repeatsParts = true := by
  induction members with
  | nil => cases hmem
  | cons first rest ih =>
    obtain ⟨hfirst, hrest⟩ := Bool.and_eq_true_iff.mp h
    obtain rfl | hmem := List.mem_cons.mp hmem
    · exact hfirst
    · exact ih hmem hrest

/-- Whether that holds below the rule, which may itself be a repetition of anything. -/
def repeatsPartsBelow : Rule → Bool
  | .oneOrMore content => content.repeatsParts
  | rule => rule.repeatsParts

/-- What holds of a rule holds below it. -/
theorem below_of_repeatsParts {rule : Rule} (h : rule.repeatsParts = true) :
    rule.repeatsPartsBelow = true := by
  cases rule with
  | oneOrMore content =>
    simp only [repeatsParts, Bool.and_eq_true] at h
    exact h.1.1
  | _ => exact h

/-- What is repeated has a part in every shape. -/
theorem shapes_of_repeatsParts {content : Rule} (h : (Rule.oneOrMore content).repeatsParts = true) :
    true ∈ content.shapes ∧ false ∉ content.shapes := by
  simp only [repeatsParts, Bool.and_eq_true, Bool.not_eq_true', List.contains_iff_mem] at h
  exact ⟨h.1.2, by simpa using h.2⟩

end Rule

namespace Grammar

variable {g : Grammar} {start : String}

/-- Where no part is read, the sentence is empty. -/
theorem Reads.eq_nil {blanks : Bool} {rule : Rule} {b : Bool} {w : List Terminal}
    (h : g.Reads start blanks rule b w) (hb : b = false) : w = [] := by
  induction h with
  | blank | seqNil | zero | nothing => rfl
  | token | lexical | symbol => cases hb
  | seqCons _ _ ih ihrest | more _ _ _ ih ihrest =>
    obtain ⟨hb, hb'⟩ := Bool.or_eq_false_iff.mp hb
    rw [ih hb, ihrest hb']
    rfl
  | choice _ _ ih | many _ ih | once _ _ ih | field _ ih | renamed _ ih | prec _ ih
  | precDynamic _ ih | reserved _ ih => exact ih hb

/-- Whether all rules repeat parts only. -/
def repeatsParts (g : Grammar) : Bool := g.rules.all (·.2.repeatsParts)

/-- In a grammar whose repetitions have parts, those of each rule have. -/
theorem repeatsParts_rule (hg : g.repeatsParts = true) {name : String} {rule : Rule}
    (hrule : g.rule? name = some rule) : rule.repeatsParts = true := by
  obtain ⟨before, after, hrules, -⟩ := List.lookup_eq_some_iff.mp hrule
  exact List.all_eq_true.mp hg (name, rule) (by simp [hrules])

/-- It does not matter whether blanks count if only parts are repeated. -/
theorem Reads.of_repeatsParts (hg : g.repeatsParts = true) {blanks : Bool} {rule : Rule} {b : Bool}
    {w : List Terminal} (h : g.Reads start blanks rule b w) (blanks' : Bool)
    (hbelow : rule.repeatsPartsBelow = true) (hb : b = true ∨ rule.repeatsParts = true) :
    g.Reads start blanks' rule b w := by
  induction h generalizing blanks' with
  | blank => exact .blank
  | token hrule htoken => exact .token hrule htoken
  | lexical hname => exact .lexical hname
  | symbol hname hrule _ ih =>
    have hparts := repeatsParts_rule hg hrule
    exact .symbol hname hrule
      (ih blanks' (Rule.below_of_repeatsParts hparts) (.inr hparts))
  | seqNil => exact .seqNil
  | @seqCons r rest _ _ _ _ _ _ ih ihrest =>
    obtain ⟨hfirst, hrest⟩ := Bool.and_eq_true_iff.mp
      (show (r.repeatsParts && Rule.repeatsPartsAll rest) = true from hbelow)
    exact .seqCons (ih blanks' (Rule.below_of_repeatsParts hfirst) (.inr hfirst))
      (ihrest blanks' hrest (.inr hrest))
  | choice hmem _ ih =>
    have hparts := Rule.repeatsParts_of_mem hmem hbelow
    exact .choice hmem (ih blanks' (Rule.below_of_repeatsParts hparts) (.inr hparts))
  | zero => exact .zero
  -- no repetitions at all may take the place of blank ones
  | @many content b w hreads ih =>
    cases b with
    | true => exact .many (ih blanks' hbelow (.inl rfl))
    | false =>
      rw [hreads.eq_nil rfl]
      exact .zero
  -- a content that always has parts is not read as blank
  | @once content b w _ hreads ih =>
    have hcontent : ∀ blanks', g.Reads start blanks' content b w := fun blanks' =>
      ih blanks' (Rule.below_of_repeatsParts hbelow) (.inr hbelow)
    cases b with
    | true => exact .once (.inr rfl) (hcontent blanks')
    | false =>
      have hshapes := Rule.shapes_of_repeatsParts (hb.resolve_left (by decide))
      exact absurd (hcontent false).mem_shapes hshapes.2
  | @more content b b' w w' _ hreads hlast ih ihlast =>
    have hcontent : ∀ blanks', g.Reads start blanks' content b' w' := fun blanks' =>
      ihlast blanks' (Rule.below_of_repeatsParts hbelow) (.inr hbelow)
    -- what is empty is left out of the row, unless the whole row is
    cases b with
    | true =>
      have hfirst := ih blanks' hbelow (.inl rfl)
      cases b' with
      | true => exact .more (.inr rfl) hfirst (hcontent blanks')
      | false =>
        rw [hlast.eq_nil rfl, List.append_nil]
        exact hfirst
    | false =>
      rw [hreads.eq_nil rfl]
      cases b' with
      | true => exact .once (.inr rfl) (hcontent blanks')
      | false =>
        have hshapes := Rule.shapes_of_repeatsParts (hb.resolve_left (by decide))
        exact absurd (hcontent false).mem_shapes hshapes.2
  | nothing _ hshapes =>
    exact absurd (Rule.shapes_of_repeatsParts (hb.resolve_left (by decide))).1 hshapes
  | field _ ih => exact .field (ih blanks' (Rule.below_of_repeatsParts hbelow) (.inr hbelow))
  | renamed _ ih => exact .renamed (ih blanks' (Rule.below_of_repeatsParts hbelow) (.inr hbelow))
  | prec _ ih => exact .prec (ih blanks' (Rule.below_of_repeatsParts hbelow) (.inr hbelow))
  | precDynamic _ ih =>
    exact .precDynamic (ih blanks' (Rule.below_of_repeatsParts hbelow) (.inr hbelow))
  | reserved _ ih => exact .reserved (ih blanks' (Rule.below_of_repeatsParts hbelow) (.inr hbelow))

/-- The sentences are the same whether blanks count or not, if only parts are repeated. -/
theorem language_of_repeatsParts (hg : g.repeatsParts = true) {rule : Rule}
    (hrule : rule.repeatsParts = true) (blanks blanks' : Bool) :
    g.language start blanks rule = g.language start blanks' rule := by
  have hbelow := Rule.below_of_repeatsParts hrule
  ext w
  constructor
  · rintro ⟨b, h⟩
    exact ⟨b, h.of_repeatsParts hg blanks' hbelow (.inr hrule)⟩
  · rintro ⟨b, h⟩
    exact ⟨b, h.of_repeatsParts hg blanks hbelow (.inr hrule)⟩

end Grammar

end IncrementalParsing
