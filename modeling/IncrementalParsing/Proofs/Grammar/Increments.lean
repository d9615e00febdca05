import IncrementalParsing.Proofs.Grammar.Language
import IncrementalParsing.Table.Basic

/-!
# Flattening by increments

A flat grammar is made by few kinds of increments: a symbol is added, a rule or a token without a rule is
given a symbol, a production is added, a token becomes an extra.  What each of them keeps holds of every
flat grammar.

## Key results

- `Flattening.Increment`: what is done at a time
- `Flatten.increments_addAll`: flattening consists of increments
- `Grammar.regular_flatten`: terminals have tokens, extras are terminals, and only the start rule can be
  empty
-/

namespace IncrementalParsing

/-- What a rule consists of when it is expanded: tokens and names, not what is in a token. -/
inductive Rule.LeafOf (leaf : Rule) : Rule → Prop
  | token (h : leaf.isToken = true) : LeafOf leaf leaf
  | symbol {name : String} (h : leaf = .symbol name) : LeafOf leaf leaf
  | seq {r : Rule} {members : List Rule} (hmem : r ∈ members) (h : LeafOf leaf r) :
      LeafOf leaf (.seq members)
  | choice {r : Rule} {members : List Rule} (hmem : r ∈ members) (h : LeafOf leaf r) :
      LeafOf leaf (.choice members)
  | zeroOrMore {content : Rule} (h : LeafOf leaf content) : LeafOf leaf (.zeroOrMore content)
  | oneOrMore {content : Rule} (h : LeafOf leaf content) : LeafOf leaf (.oneOrMore content)
  | field {name : String} {content : Rule} (h : LeafOf leaf content) : LeafOf leaf (.field name content)
  | renamed {content : Rule} {value : String} {named : Bool} (h : LeafOf leaf content) :
      LeafOf leaf (.alias content value named)
  | prec {assoc : Associativity} {value : Precedence} {content : Rule} (h : LeafOf leaf content) :
      LeafOf leaf (.prec assoc value content)
  | precDynamic {value : Int} {content : Rule} (h : LeafOf leaf content) :
      LeafOf leaf (.precDynamic value content)
  | reserved {context : String} {content : Rule} (h : LeafOf leaf content) :
      LeafOf leaf (.reserved context content)

namespace Flattening

/-- A token without a rule is written as an extra, or in a rule that has a symbol and is no token. -/
inductive Writes (g : Grammar) (start : String) (s : Flattening) (rule : Rule) : Prop
  | extra (hmem : rule ∈ g.extras) (hname : ∀ name, rule ≠ .symbol name)
  | inside {name : String} {i : Nat} {body : Rule} (hi : s.rules.lookup name = some i)
      (hname : g.isTokenRule start name = false) (hbody : g.rule? name = some body)
      (hleaf : rule.LeafOf body) (htoken : rule.isToken = true)

/-- What is done at a time while a grammar is flattened. -/
inductive Increment (g : Grammar) (start : String) (s : Flattening) : Flattening → Prop
  /-- Every terminal that is added has a token, and none is an extra yet. -/
  | symbol (info : FlatSymbol) (hextra : info.extra = false)
      (htoken : info.terminal = true → info.token.isSome = true) :
      Increment g start s { s with symbols := s.symbols.push info }
  | rule (name : String) (i : Nat) (hnone : s.rules.lookup name = none) :
      Increment g start s { s with rules := (name, i) :: s.rules }
  /-- Only the start rule is given a production without parts. -/
  | production (q : FlatProduction) (hempty : q.parts = [] → s.rules.lookup start = some q.lhs) :
      Increment g start s { s with productions := s.productions.push q }
  /-- Only tokens become extras. -/
  | extra (symbol : Nat) (hide : Bool) (hsymbol : 2 ≤ symbol) (ht : s.isTerminal symbol = true) :
      Increment g start s { s with symbols := s.symbols.modify symbol fun info =>
        { info with extra := true, visible := info.visible && !hide } }
  /-- A token without a rule is given a symbol if there is none for its pattern yet. -/
  | anonymous {rule : Rule} {owner : String} {token : TokenRule} (name : String) (visible : Bool)
      (hwrites : s.Writes g start rule) (htoken : g.token owner rule = .ok token)
      (hnone : s.anonymous.lookup (token.pattern, token.immediate) = none) :
      Increment g start s { s with
        symbols := s.symbols.push ⟨name, some token, true, false, visible, false⟩
        anonymous := ((token.pattern, token.immediate), s.symbols.size) :: s.anonymous }
  | other (s' : Flattening) (hsymbols : s'.symbols = s.symbols)
      (hproductions : s'.productions = s.productions) (hrules : s'.rules = s.rules)
      (hanonymous : s'.anonymous = s.anonymous) : Increment g start s s'

/-- Any number of increments. -/
abbrev Increments (g : Grammar) (start : String) : Flattening → Flattening → Prop :=
  Relation.ReflTransGen (Increment g start)

/-- Adding a symbol that is no extra is the first of some increments. -/
theorem Increments.push {g : Grammar} {start : String} {s s' : Flattening} (info : FlatSymbol)
    (hextra : info.extra = false) (htoken : info.terminal = true → info.token.isSome = true)
    (h : Increments g start { s with symbols := s.symbols.push info } s') : Increments g start s s' :=
  .head (.symbol info hextra htoken) h

/-- What increments keep of a flat grammar in the making. -/
structure Regular (start : String) (s : Flattening) : Prop where
  error : s.symbols[Symbol.error]? = Flatten.builtIns[Symbol.error]?
  tokens : ∀ (i : Nat) (info : FlatSymbol), 2 ≤ i → s.symbols[i]? = some info →
    info.terminal = true → info.token.isSome = true
  extras : ∀ (i : Nat) (info : FlatSymbol), s.symbols[i]? = some info → info.extra = true →
    info.terminal = true
  filled : ∀ q ∈ s.productions, q.parts = [] → s.rules.lookup start = some q.lhs

variable {g : Grammar} {start : String} {s s' : Flattening}

/-- A name keeps its number. -/
theorem Increment.lookup (h : Increment g start s s') {name : String} {i : Nat}
    (hi : s.rules.lookup name = some i) : s'.rules.lookup name = some i := by
  cases h with
  | symbol => exact hi
  | rule other j hnone =>
    -- a name that is added had no number before
    have hne : (name == other) = false := by
      rw [beq_eq_false_iff_ne]
      rintro rfl
      rw [hnone] at hi
      cases hi
    rw [List.lookup_cons, hne]
    exact hi
  | production | extra | anonymous => exact hi
  | other _ _ _ hrules => rwa [hrules]

/-- A rule keeps its symbol. -/
theorem Increments.lookup (h : Increments g start s s') {name : String} {i : Nat}
    (hi : s.rules.lookup name = some i) : s'.rules.lookup name = some i := by
  induction h with
  | refl => exact hi
  | tail _ hstep ih => exact hstep.lookup ih

/-- What is written stays written. -/
theorem Writes.increments {rule : Rule} (h : s.Writes g start rule) (hsteps : Increments g start s s') :
    s'.Writes g start rule := by
  cases h with
  | extra hmem hname => exact .extra hmem hname
  | inside hi hname hbody hleaf htoken => exact .inside (hsteps.lookup hi) hname hbody hleaf htoken

/-- A flat grammar in the making stays regular when a symbol is added. -/
theorem Regular.push (hs : s.Regular start) {info : FlatSymbol} (hextra : info.extra = false)
    (htoken : info.terminal = true → info.token.isSome = true)
    (hsymbols : s'.symbols = s.symbols.push info) (hproductions : s'.productions = s.productions)
    (hrules : s'.rules = s.rules) : s'.Regular start := by
  have herror : 1 < s.symbols.size := (Array.getElem?_eq_some_iff.mp hs.error).1
  -- the symbol is the new one or one of those that there were
  have hpush : ∀ (i : Nat) (x : FlatSymbol), (s.symbols.push info)[i]? = some x →
      x = info ∨ s.symbols[i]? = some x := by
    intro i x hx
    rw [Array.getElem?_push] at hx
    split at hx
    · exact .inl (Option.some.inj hx).symm
    · exact .inr hx
  refine ⟨?_, fun i x hi hx ht => ?_, fun i x hx he => ?_, ?_⟩
  · rw [hsymbols, ← hs.error]
    exact Array.getElem?_push_lt herror |>.trans (Array.getElem?_eq_getElem herror).symm
  · obtain rfl | hx := hpush i x (hsymbols ▸ hx)
    · exact htoken ht
    · exact hs.tokens i x hi hx ht
  · obtain rfl | hx := hpush i x (hsymbols ▸ hx)
    · exact absurd (hextra.symm.trans he) Bool.false_ne_true
    · exact hs.extras i x hx he
  · rw [hproductions, hrules]
    exact hs.filled

/-- It stays regular with every increment, -/
theorem Regular.increment (hs : s.Regular start) (h : Increment g start s s') : s'.Regular start := by
  cases h with
  | symbol info hextra htoken => exact hs.push hextra htoken rfl rfl rfl
  | anonymous => exact hs.push rfl (fun _ => rfl) rfl rfl rfl
  | rule name i hnone =>
    have hrule : Increment g start s { s with rules := (name, i) :: s.rules } := .rule name i hnone
    exact ⟨hs.error, hs.tokens, hs.extras, fun q hq hempty =>
      hrule.lookup (hs.filled q hq hempty)⟩
  | production q hempty =>
    refine ⟨hs.error, hs.tokens, hs.extras, fun r hr hparts => ?_⟩
    obtain hr | rfl := Array.mem_push.mp hr
    · exact hs.filled r hr hparts
    · exact hempty hparts
  -- an extra is a terminal that was there before, and keeps its token
  | extra symbol hide hsymbol ht =>
    -- marking one symbol leaves terminals and tokens as they are
    have hmodify : ∀ (i : Nat) (x : FlatSymbol), (s.symbols.modify symbol fun info =>
        { info with extra := true, visible := info.visible && !hide })[i]? = some x →
        ∃ y, s.symbols[i]? = some y ∧ x.terminal = y.terminal ∧ x.token = y.token ∧
          (i = symbol ∨ x.extra = y.extra) := by
      intro i x hx
      rw [Array.getElem?_modify] at hx
      split at hx
      · rename_i heq
        obtain ⟨y, hy, rfl⟩ := Option.map_eq_some_iff.mp hx
        exact ⟨y, hy, rfl, rfl, .inl heq.symm⟩
      · exact ⟨x, hx, rfl, rfl, .inr rfl⟩
    refine ⟨?_, fun i x hi hx hterminal => ?_, fun i x hx he => ?_, hs.filled⟩
    · rw [← hs.error]
      have hne : symbol ≠ Symbol.error := fun h => by
        rw [h] at hsymbol
        exact absurd hsymbol (by decide)
      exact (Array.getElem?_modify ..).trans (if_neg hne)
    · obtain ⟨y, hy, hsame, htoken, -⟩ := hmodify i x hx
      rw [htoken]
      exact hs.tokens i y hi hy (hsame ▸ hterminal)
    · obtain ⟨y, hy, hsame, -, rfl | hextra⟩ := hmodify i x hx
      · rw [isTerminal, hy] at ht
        exact hsame.trans ht
      · exact hsame.trans (hs.extras i y hy (hextra ▸ he))
  | other _ hsymbols hproductions hrules _ =>
    exact ⟨by rw [hsymbols]; exact hs.error, by rw [hsymbols]; exact hs.tokens,
      by rw [hsymbols]; exact hs.extras, by rw [hproductions, hrules]; exact hs.filled⟩

/-- and so with any number of them. -/
theorem Regular.increments (hs : s.Regular start) (h : Increments g start s s') :
    s'.Regular start := by
  induction h with
  | refl => exact hs
  | tail _ hstep ih => exact ih.increment hstep

/-- At first there are only the two symbols that every grammar has. -/
theorem regular_initial (start : String) : Flatten.initial.Regular start where
  error := rfl
  tokens := fun i info hi hinfo => by
    have hlt : i < Flatten.builtIns.size := (Array.getElem?_eq_some_iff.mp hinfo).1
    exact absurd hi (Nat.not_le.mpr hlt)
  extras := fun i info hinfo => by
    match i with
    | 0 => cases hinfo; exact fun _ => rfl
    | 1 => cases hinfo; exact fun _ => rfl
    | i + 2 => cases hinfo
  filled := fun q hq => absurd hq (Array.not_mem_empty q)

end Flattening

namespace Flatten

open Flattening StateT

variable {g : Grammar} {start owner : String} {s s' : Flattening}

/-! ## Symbols -/

/-- A token without a rule is added, if it was not met before. -/
theorem increments_anonymousToken {rule : Rule} {i : Nat} (hwrites : s.Writes g start rule)
    (h : (anonymousToken g owner rule).run s = .ok (i, s')) : Increments g start s s' := by
  unfold anonymousToken at h
  simp only [bind_run_ok, get_run_ok] at h
  obtain ⟨token, s₁, htoken, _, _, ⟨rfl, rfl⟩, h⟩ := h
  obtain ⟨hdescribes, rfl⟩ := lift_run_ok.mp htoken
  split at h
  · obtain ⟨-, rfl⟩ := pure_run_ok.mp h
    exact .refl
  -- a token that is met for the first time is added
  · rename_i hnone
    simp only [bind_run_ok, modify_run_ok, pure_run_ok, addSymbol_run_ok] at h
    obtain ⟨_, _, ⟨-, rfl, rfl⟩, _, _, rfl, -, rfl⟩ := h
    exact .single (.anonymous _ _ hwrites hdescribes hnone)

/-- A rule that is mentioned gets a number, if it has none. -/
theorem increments_ruleSymbol {referrer name : String} {i : Nat}
    (h : (ruleSymbol g start referrer name).run s = .ok (i, s')) : Increments g start s s' := by
  unfold ruleSymbol at h
  simp only [bind_run_ok, get_run_ok] at h
  obtain ⟨_, _, ⟨rfl, rfl⟩, h⟩ := h
  split at h
  -- the name has been met, so nothing is added
  · obtain ⟨-, rfl⟩ := pure_run_ok.mp h
    exact .refl
  · rename_i hnone
    split at h
    · exact (throw_run_ok.mp h).elim
    · split at h
      · simp only [bind_run_ok, modify_run_ok, pure_run_ok, addSymbol_run_ok] at h
        obtain ⟨token, s₁, htoken, _, _, ⟨rfl, rfl⟩, _, _, ⟨-, rfl, rfl⟩, _, _, rfl, rfl, rfl⟩ := h
        obtain ⟨-, rfl⟩ := lift_run_ok.mp htoken
        exact .push _ (by rfl) (fun _ => by rfl) (.single (.rule name _ hnone))
      · simp only [bind_run_ok, modify_run_ok, pure_run_ok, addSymbol_run_ok] at h
        obtain ⟨_, _, rfl, _, _, ⟨rfl, rfl⟩, _, _, ⟨-, rfl, rfl⟩, _, _, rfl, rfl, rfl⟩ := h
        exact .head (.other { s with pending := s.pending ++ [name] } rfl rfl rfl rfl)
          (Increments.push _ (by rfl) (fun h => absurd h Bool.false_ne_true)
            (.single (.rule name _ hnone)))

/-- A repetition gets a rule of its own. -/
theorem increments_repetitionSymbol {i : Nat}
    (h : (repetitionSymbol owner).run s = .ok (i, s')) : Increments g start s s' := by
  unfold repetitionSymbol at h
  simp only [bind_run_ok, get_run_ok, modify_run_ok, addSymbol_run_ok] at h
  obtain ⟨_, _, ⟨rfl, rfl⟩, _, _, rfl, -, rfl, rfl⟩ := h
  exact .push ⟨_, none, false, false, false, false⟩ rfl
    (fun h => absurd h Bool.false_ne_true) (.single (.other _ rfl rfl rfl rfl))

/-- A field gets a number, which is no symbol. -/
theorem increments_field {name : String} {i : Nat} (h : (field name).run s = .ok (i, s')) :
    Increments g start s s' := by
  unfold field at h
  simp only [bind_run_ok, get_run_ok, guard_run_ok] at h
  obtain ⟨_, _, ⟨rfl, rfl⟩, -, h⟩ := h
  split at h
  · simp only [bind_run_ok, set_run_ok, pure_run_ok] at h
    obtain ⟨_, _, rfl, -, rfl⟩ := h
    exact .single (.other _ rfl rfl rfl rfl)
  · obtain ⟨-, rfl⟩ := pure_run_ok.mp h
    exact .refl

/-! ## Alternatives -/

/-- A repetition leaves out what has no parts, so no list is empty. -/
theorem increments_repetition {content alternatives : List Alternative}
    (h : (repetition owner content).run s = .ok (alternatives, s')) : Increments g start s s' := by
  unfold repetition at h
  dsimp only at h
  split at h
  · obtain ⟨-, rfl⟩ := pure_run_ok.mp h
    exact .refl
  · simp only [bind_run_ok, pure_run_ok] at h
    obtain ⟨list, s₁, hlist, _, s₂, hloop, -, rfl⟩ := h
    refine (increments_repetitionSymbol hlist).trans ?_
    -- each alternative adds two productions, and neither of them is empty
    refine forIn_run_ok (P := Increments g start s₁) (fun a ha r y r' hr hstep => ?_) .refl hloop
    simp only [bind_run_ok, pure_run_ok] at hstep
    obtain ⟨_, r₁, hfirst, _, r₂, hsecond, rfl, rfl⟩ := hstep
    cases addProduction_run_ok.mp hfirst
    cases addProduction_run_ok.mp hsecond
    have hparts : a.parts ≠ [] := by simpa using (List.mem_filter.mp ha).2
    exact ⟨rfl, (hr.tail (.production _ fun h => by cases h)).tail
      (.production _ fun h => absurd h hparts)⟩

mutual

/-- Expanding a rule adds symbols and productions one by one, in the order in which it is read. -/
theorem increments_expand (g : Grammar) (start owner : String) :
    ∀ (rule : Rule) (s : Flattening) (alternatives : List Alternative) (s' : Flattening),
      (∀ leaf, leaf.LeafOf rule → leaf.isToken = true → s.Writes g start leaf) →
      (expand g start owner rule).run s = .ok (alternatives, s') → Increments g start s s'
  | .blank, s, alternatives, s', hw, h => by
    rw [expand, pure_run_ok] at h
    exact h.2 ▸ .refl
  -- a token is written where it stands, so its symbol counts as written
  | .string value, s, alternatives, s', hw, h => by
    simp only [expand, bind_run_ok, pure_run_ok] at h
    obtain ⟨i, s₁, hi, -, rfl⟩ := h
    exact increments_anonymousToken (hw _ (.token rfl) rfl) hi
  | .pattern value flags, s, alternatives, s', hw, h => by
    simp only [expand, bind_run_ok, pure_run_ok] at h
    obtain ⟨i, s₁, hi, -, rfl⟩ := h
    exact increments_anonymousToken (hw _ (.token rfl) rfl) hi
  | .token content, s, alternatives, s', hw, h => by
    simp only [expand, bind_run_ok, pure_run_ok] at h
    obtain ⟨i, s₁, hi, -, rfl⟩ := h
    exact increments_anonymousToken (hw _ (.token rfl) rfl) hi
  | .immediateToken content, s, alternatives, s', hw, h => by
    simp only [expand, bind_run_ok, pure_run_ok] at h
    obtain ⟨i, s₁, hi, -, rfl⟩ := h
    exact increments_anonymousToken (hw _ (.token rfl) rfl) hi
  | .symbol name, s, alternatives, s', hw, h => by
    simp only [expand, bind_run_ok, pure_run_ok] at h
    obtain ⟨i, s₁, hi, -, rfl⟩ := h
    exact increments_ruleSymbol hi
  | .seq members, s, alternatives, s', hw, h => by
    rw [expand] at h
    exact increments_expandSeq g start owner members s [.empty] alternatives s'
      (fun r hr leaf hleaf => hw leaf (.seq hr hleaf)) h
  | .choice members, s, alternatives, s', hw, h => by
    simp only [expand, bind_run_ok, pure_run_ok] at h
    obtain ⟨as, s₁, has, _, s₂, hcount, -, rfl⟩ := h
    obtain rfl := checkCount_run_ok hcount
    exact increments_expandChoice g start owner members s as s₁
      (fun r hr leaf hleaf => hw leaf (.choice hr hleaf)) has
  | .zeroOrMore content, s, alternatives, s', hw, h => by
    simp only [expand, bind_run_ok, pure_run_ok] at h
    obtain ⟨as, s₁, has, bs, s₂, hbs, -, rfl⟩ := h
    exact (increments_expand g start owner content s as s₁
      (fun leaf hleaf => hw leaf (.zeroOrMore hleaf)) has).trans (increments_repetition hbs)
  | .oneOrMore content, s, alternatives, s', hw, h => by
    simp only [expand, bind_run_ok] at h
    obtain ⟨as, s₁, has, h⟩ := h
    exact (increments_expand g start owner content s as s₁
      (fun leaf hleaf => hw leaf (.oneOrMore hleaf)) has).trans (increments_repetition h)
  | .field name content, s, alternatives, s', hw, h => by
    simp only [expand, bind_run_ok, pure_run_ok] at h
    obtain ⟨i, s₁, hi, as, s₂, has, -, rfl⟩ := h
    -- the field is numbered before what it stands for is expanded
    have hfield : Increments g start s s₁ := increments_field hi
    exact hfield.trans (increments_expand g start owner content s₁ as s₂
      (fun leaf hleaf htoken => (hw leaf (.field hleaf) htoken).increments hfield) has)
  | .alias .., s, alternatives, s', hw, h => by
    rw [expand, throw_run_ok] at h
    exact h.elim
  | .prec assoc value content, s, alternatives, s', hw, h => by
    simp only [expand, bind_run_ok, pure_run_ok] at h
    obtain ⟨n, s₁, hn, as, s₂, has, -, rfl⟩ := h
    obtain ⟨-, rfl⟩ := lift_run_ok.mp hn
    exact increments_expand g start owner content s as s₂ (fun leaf hleaf => hw leaf (.prec hleaf)) has
  | .precDynamic _ content, s, alternatives, s', hw, h => by
    rw [expand] at h
    exact increments_expand g start owner content s alternatives s'
      (fun leaf hleaf => hw leaf (.precDynamic hleaf)) h
  | .reserved _ content, s, alternatives, s', hw, h => by
    rw [expand] at h
    exact increments_expand g start owner content s alternatives s'
      (fun leaf hleaf => hw leaf (.reserved hleaf)) h

/-- So does expanding the members of a sequence, -/
theorem increments_expandSeq (g : Grammar) (start owner : String) :
    ∀ (members : List Rule) (s : Flattening) (heads alternatives : List Alternative)
      (s' : Flattening),
      (∀ r ∈ members, ∀ leaf, leaf.LeafOf r → leaf.isToken = true → s.Writes g start leaf) →
      (expandSeq g start owner heads members).run s = .ok (alternatives, s') → Increments g start s s'
  | [], s, heads, alternatives, s', _, h => by
    rw [expandSeq, pure_run_ok] at h
    exact h.2 ▸ .refl
  | r :: rest, s, heads, alternatives, s', hw, h => by
    simp only [expandSeq, bind_run_ok] at h
    obtain ⟨tails, s₁, htails, _, s₂, hcount, h⟩ := h
    obtain rfl := checkCount_run_ok hcount
    -- what is left is expanded where the first member has left off
    have hfirst := increments_expand g start owner r s tails s₁ (hw r (List.mem_cons_self ..)) htails
    exact hfirst.trans (increments_expandSeq g start owner rest s₁ _ alternatives s'
      (fun r hr leaf hleaf htoken =>
        (hw r (List.mem_cons_of_mem _ hr) leaf hleaf htoken).increments hfirst) h)

/-- and those of a choice. -/
theorem increments_expandChoice (g : Grammar) (start owner : String) :
    ∀ (members : List Rule) (s : Flattening) (alternatives : List Alternative) (s' : Flattening),
      (∀ r ∈ members, ∀ leaf, leaf.LeafOf r → leaf.isToken = true → s.Writes g start leaf) →
      (expandChoice g start owner members).run s = .ok (alternatives, s') → Increments g start s s'
  | [], s, alternatives, s', _, h => by
    rw [expandChoice, pure_run_ok] at h
    exact h.2 ▸ .refl
  | r :: rest, s, alternatives, s', hw, h => by
    simp only [expandChoice, bind_run_ok, pure_run_ok] at h
    obtain ⟨as, s₁, has, bs, s₂, hbs, -, rfl⟩ := h
    have hfirst := increments_expand g start owner r s as s₁ (hw r (List.mem_cons_self ..)) has
    exact hfirst.trans (increments_expandChoice g start owner rest s₁ bs s₂
      (fun r hr leaf hleaf htoken =>
        (hw r (List.mem_cons_of_mem _ hr) leaf hleaf htoken).increments hfirst) hbs)

end

/-! ## Rules and extras -/

/-- A rule that has no parts is refused, unless it is the start rule. -/
theorem increments_addRule {name : String} {u : Unit} (hname : g.isTokenRule start name = false)
    (h : (addRule g start name).run s = .ok (u, s')) : Increments g start s s' := by
  unfold addRule at h
  simp only [bind_run_ok, get_run_ok] at h
  obtain ⟨_, _, ⟨rfl, rfl⟩, h⟩ := h
  split at h
  · rename_i rule lhs hrule hlhs
    simp only [bind_run_ok, pure_run_ok] at h
    obtain ⟨as, s₁, has, _, s₂, hloop, -, rfl⟩ := h
    have hexpand := increments_expand g start name rule s as s₁
      (fun leaf hleaf => .inside hlhs hname hrule hleaf) has
    refine hexpand.trans ?_
    -- each alternative adds one production, which is empty only for the start
    refine forIn_run_ok (P := Increments g start s₁) (fun a ha r y r' hr hstep => ?_) .refl hloop
    simp only [guard_run_ok, bind_run_ok, pure_run_ok] at hstep
    obtain ⟨hguard, _, r₁, hadd, rfl, rfl⟩ := hstep
    cases addProduction_run_ok.mp hadd
    refine ⟨rfl, hr.tail (.production _ fun hempty => ?_)⟩
    have hname : name = start := by
      by_contra hne
      exact hguard (by simp [show a.parts = [] from hempty, hne])
    exact hname ▸ Increments.lookup (hexpand.trans hr) hlhs
  · obtain ⟨-, rfl⟩ := pure_run_ok.mp h
    exact .refl

/-- Adding the rules that wait is done in increments. -/
theorem increments_addPending {fuel : Nat} {u : Unit} (hs : s.Keyed g start)
    (hsettled : s.Settled g start) (h : (addPending g start fuel).run s = .ok (u, s')) :
    Increments g start s s' := by
  -- on the fuel; the rule that is added next is one that was waiting
  induction fuel generalizing s with
  | zero =>
    obtain ⟨-, rfl⟩ := pure_run_ok.mp h
    exact .refl
  | succ fuel ih =>
    rw [addPending] at h
    simp only [bind_run_ok, get_run_ok] at h
    obtain ⟨_, _, ⟨rfl, rfl⟩, h⟩ := h
    split at h
    · obtain ⟨-, rfl⟩ := pure_run_ok.mp h
      exact .refl
    · rename_i name rest hpending
      simp only [bind_run_ok, modify_run_ok] at h
      obtain ⟨_, s₁, rfl, _, s₂, hrule, h⟩ := h
      obtain ⟨hs₂, hsettled₂, -⟩ := settled_addRule hs hsettled hpending hrule
      have hname := (hs.waiting name (hpending ▸ List.mem_cons_self ..)).1
      exact ((Relation.ReflTransGen.single (.other _ rfl rfl rfl rfl)).trans
        (increments_addRule hname hrule)).trans (ih hs₂ hsettled₂ h)

/-- Marking an extra is one increment. -/
theorem increment_markExtra {symbol : Nat} {hide : Bool} {u : Unit} (hsymbol : 2 ≤ symbol)
    (ht : s.isTerminal symbol = true) (h : (markExtra symbol hide).run s = .ok (u, s')) :
    Increment g start s s' := by
  unfold markExtra at h
  rw [modify_run_ok] at h
  subst h
  exact .extra symbol hide hsymbol ht

/-- An extra is expanded and then marked. -/
theorem increments_addExtra {rule : Rule} {u : Unit} (hs : s.Keyed g start) (hmem : rule ∈ g.extras)
    (h : (addExtra g start rule).run s = .ok (u, s')) : Increments g start s s' := by
  unfold addExtra at h
  split at h
  · simp only [bind_run_ok, get_run_ok] at h
    obtain ⟨symbol, s₁, hsymbol, _, _, ⟨rfl, rfl⟩, h⟩ := h
    obtain ⟨hs₁, -, hlookup⟩ := keyed_ruleSymbol hs hsymbol
    split at h
    -- an extra that is named has to be a terminal
    · rename_i hterminal
      exact (increments_ruleSymbol hsymbol).tail
        (increment_markExtra (hs₁.sound.rules _ _ hlookup).1 hterminal h)
    · exact (throw_run_ok.mp h).elim
  · rename_i hname
    simp only [guard_run_ok, bind_run_ok] at h
    obtain ⟨-, symbol, s₁, hsymbol, h⟩ := h
    obtain ⟨hs₁, -, token, -, hlookup⟩ := keyed_anonymousToken hs hsymbol
    exact (increments_anonymousToken (.extra hmem hname) hsymbol).tail
      (increment_markExtra (hs₁.sound.anonymous _ _ hlookup).1
        (hs₁.anonymous _ _ hlookup).isTerminal h)

/-- The start rule has a symbol before the extras, and what waits comes after them. -/
theorem exists_extras {i : Nat} (h : (addAll g start).run initial = .ok (i, s)) :
    ∃ s₁ s₂, s₁.Keyed g start ∧ Increments g start initial s₁ ∧ Increments g start s₂ s ∧
      (forIn g.extras PUnit.unit fun rule _ => do
        addExtra g start rule
        pure (.yield PUnit.unit)).run s₁ = .ok (PUnit.unit, s₂) := by
  unfold addAll at h
  simp only [bind_run_ok, pure_run_ok] at h
  obtain ⟨symbol, s₁, hsymbol, _, s₂, hextras, _, s₃, hpending, -, rfl⟩ := h
  obtain ⟨hs₁, hext₁, -⟩ := keyed_ruleSymbol (keyed_initial g start) hsymbol
  -- the extras are added after the start symbol and before its rule
  obtain ⟨hs₂, hext₂⟩ : s₂.Keyed g start ∧ Extends g start s₁ s₂ := by
    refine forIn_run_ok (P := fun r => r.Keyed g start ∧ Extends g start s₁ r)
      (fun rule _ r y r' hr hstep => ?_) ⟨hs₁, .refl _⟩ hextras
    simp only [bind_run_ok, pure_run_ok] at hstep
    obtain ⟨_, r₁, hadd, rfl, rfl⟩ := hstep
    obtain ⟨hs₂, hext⟩ := keyed_addExtra hr.1 hadd
    exact ⟨rfl, hs₂, hr.2.trans hext⟩
  have hsettled : initial.Settled g start := fun _ _ _ hi => by cases hi
  exact ⟨s₁, s₂, hs₁, increments_ruleSymbol hsymbol, increments_addPending hs₂
    (hsettled.extends (keyed_initial g start) (hext₁.trans hext₂)) hpending, hextras⟩

/-- Flattening consists of increments. -/
theorem increments_addAll {i : Nat} (h : (addAll g start).run initial = .ok (i, s)) :
    Increments g start initial s := by
  obtain ⟨s₁, s₂, hs₁, hfirst, hlast, hextras⟩ := exists_extras h
  have hsteps : s₂.Keyed g start ∧ Increments g start s₁ s₂ := by
    refine forIn_run_ok (P := fun r => r.Keyed g start ∧ Increments g start s₁ r)
      (fun rule hmem r y r' hr hstep => ?_) ⟨hs₁, .refl⟩ hextras
    simp only [bind_run_ok, pure_run_ok] at hstep
    obtain ⟨_, r₁, hadd, rfl, rfl⟩ := hstep
    exact ⟨rfl, (keyed_addExtra hr.1 hadd).1, hr.2.trans (increments_addExtra hr.1 hmem hadd)⟩
  exact (hfirst.trans hsteps.2).trans hlast

end Flatten

/-! ## Flat grammars -/

/-- What else holds of a grammar that was flattened: the lexer can find all terminals but the built-in
ones, extras are among those, and only the start rule can be empty. -/
structure FlatGrammar.Regular (g : FlatGrammar) : Prop where
  error : g.symbols[Symbol.error]? = Flatten.builtIns[Symbol.error]?
  mem_lexicalTerminals : ∀ s, s ∈ g.lexicalTerminals ↔ 2 ≤ s ∧ g.isTerminal s = true
  mem_extras : ∀ s, s ∈ g.extras ↔ (g.symbols[s]?).any (·.extra) = true
  filled : ∀ q ∈ g.productions, q.parts = [] → q.lhs = g.start

/-- The lexer can find the terminals that have a token, and all but the built-in ones do. -/
theorem FlatGrammar.Sound.mem_lexicalTerminals {g : FlatGrammar} (hg : g.Sound)
    (htokens : ∀ (i : Nat) (info : FlatSymbol), 2 ≤ i → g.symbols[i]? = some info →
      info.terminal = true → info.token.isSome = true) (s : Nat) :
    s ∈ g.lexicalTerminals ↔ 2 ≤ s ∧ g.isTerminal s = true := by
  rw [lexicalTerminals, List.mem_filter, List.mem_range, isTerminal]
  cases hinfo : g.symbols[s]? with
  | none => simp
  | some info =>
    have hlt := (Array.getElem?_eq_some_iff.mp hinfo).1
    rw [Option.any_some, Option.any_some, Bool.and_eq_true, and_iff_right hlt]
    constructor
    -- the symbols that are built in have no token
    · rintro ⟨ht, hlexeme⟩
      refine ⟨Nat.le_of_not_lt fun hs => ?_, ht⟩
      obtain ⟨other, hother, -, hnone, -⟩ := hg.builtIn s hs
      cases hinfo.symm.trans hother
      simp [FlatSymbol.lexeme?, hnone] at hlexeme
    -- every other terminal has one, with a pattern that is not empty
    · rintro ⟨hs, ht⟩
      obtain ⟨token, htoken⟩ := Option.isSome_iff_exists.mp (htokens s info hs hinfo ht)
      have hpattern := (hg.proper info (Array.mem_of_getElem? hinfo) token htoken).2.1
      simp [FlatSymbol.lexeme?, ht, htoken, hpattern]

/-- A flat grammar that is made of a grammar is regular. -/
theorem Grammar.regular_flatten {g : Grammar} {flat : FlatGrammar} (h : g.flatten = .ok flat) :
    flat.Regular := by
  have hg := sound_flatten h
  unfold flatten at h
  split at h
  · cases h
  · rename_i start _ _
    simp only [Except.guard_eq_ok, Except.bind_eq_ok, Except.pure_eq_ok] at h
    obtain ⟨-, ⟨i, s⟩, hall, rfl⟩ := h
    -- what holds of the run holds of the grammar that is made of it
    have hs := (Flattening.regular_initial start).increments (Flatten.increments_addAll hall)
    have hstart := (Flatten.settled_addAll hall).2.2.2
    have hlexical := hg.mem_lexicalTerminals hs.tokens
    refine ⟨hs.error, hlexical, fun a => ?_, fun q hq hempty =>
      Option.some.inj ((hs.filled q hq hempty).symm.trans hstart)⟩
    rw [FlatGrammar.extras, List.mem_filter, hlexical]
    refine and_iff_right_of_imp fun hextra => ?_
    obtain ⟨info, hinfo, hextra⟩ := (Option.any_eq_true ..).mp hextra
    -- no symbol that is built in is an extra, and extras are terminals
    refine ⟨Nat.le_of_not_lt fun ha => ?_, ?_⟩
    · obtain ⟨other, hother, -, -, hnone⟩ := hg.builtIn a ha
      cases hinfo.symm.trans hother
      exact Bool.false_ne_true (hnone.symm.trans hextra)
    · rw [FlatGrammar.isTerminal, hinfo]
      exact hs.extras a info hinfo hextra

end IncrementalParsing
