import IncrementalParsing.Proofs.Grammar.Numbering

/-!
# Flattening that does not fail

The lemmas on flattening elsewhere say what holds of a flat grammar if there is one.  Here they go the
other way, from a grammar to the flat grammar that it has, where only the start rule has productions
and everything else that is mentioned is a token.

A state in which the start rule has its symbol and all other symbols are of tokens is `Ready`.  Each
operation leads from one such state to another and adds one symbol at most, so symbols do not run out
where there is room for as many as there are mentions.

## Key results

- `Flatten.exists_anonymousToken`, `Flatten.exists_ruleSymbol`: the symbol of a token
- `Flatten.exists_expandChoice`: the alternatives of a choice
- `Flatten.exists_addExtras`: extras that are tokens
- `Flatten.flatten_of_expand`: the whole grammar, from what its start rule is expanded to
-/

namespace IncrementalParsing

namespace Flattening

/-- Symbols are added, no more than a number of them, and nothing else. -/
structure Gains (s s' : Flattening) (count : Nat) : Prop where
  size : s'.symbols.size ≤ s.symbols.size + count
  fields : s'.fields = s.fields
  pending : s'.pending = s.pending
  productions : s'.productions = s.productions

/-- The same where the symbols that are there stay as they are. -/
structure Adds (s s' : Flattening) (count : Nat) : Prop extends Gains s s' count where
  symbols : ∀ (i : Nat) (info : FlatSymbol), s.symbols[i]? = some info → s'.symbols[i]? = some info

/-- Nothing is gained by doing nothing. -/
theorem Gains.refl (s : Flattening) (count : Nat) : s.Gains s count :=
  ⟨Nat.le_add_right .., rfl, rfl, rfl⟩

/-- What is gained in two runs is gained in both together. -/
theorem Gains.trans {a b c : Flattening} {m n : Nat} (h : a.Gains b m) (h' : b.Gains c n) :
    a.Gains c (m + n) where
  size := by
    have := h.size
    have := h'.size
    omega
  fields := h'.fields.trans h.fields
  pending := h'.pending.trans h.pending
  productions := h'.productions.trans h.productions

/-- Nothing is added by doing nothing. -/
theorem Adds.refl (s : Flattening) (count : Nat) : s.Adds s count := ⟨.refl s count, fun _ _ h => h⟩

/-- What is added in two runs is added in both together. -/
theorem Adds.trans {a b c : Flattening} {m n : Nat} (h : a.Adds b m) (h' : b.Adds c n) :
    a.Adds c (m + n) :=
  ⟨h.toGains.trans h'.toGains, fun i info hi => h'.symbols i info (h.symbols i info hi)⟩

/-- The start rule has its symbol, and all other symbols are of tokens, which have the property
`P`. -/
structure Ready (s : Flattening) (g : Grammar) (start : String) (P : TokenRule → Prop) : Prop where
  own : s.rules.lookup start = some 2
  rules : ∀ name i, name ≠ start → s.rules.lookup name = some i → ∃ rule token,
    g.rule? name = some rule ∧ g.token name rule = .ok token ∧
      TokenAt s.symbols token.pattern token.immediate i
  anonymous : ∀ key i, s.anonymous.lookup key = some i → TokenAt s.symbols key.1 key.2 i
  tokens : ∀ info ∈ s.symbols, ∀ token, info.token = some token → P token

end Flattening

/-- A symbol has one pattern. -/
theorem TokenAt.pattern_eq {symbols : Array FlatSymbol} {pattern pattern' : String}
    {immediate immediate' : Bool} {i : Nat} (h : TokenAt symbols pattern immediate i)
    (h' : TokenAt symbols pattern' immediate' i) : pattern = pattern' := by
  obtain ⟨info, token, hinfo, -, htoken, rfl, -⟩ := h
  obtain ⟨info', token', hinfo', -, htoken', rfl, -⟩ := h'
  cases hinfo.symm.trans hinfo'
  cases htoken.symm.trans htoken'
  rfl

/-- A token stays where it is as more is added. -/
theorem TokenAt.adds {s s' : Flattening} {count : Nat} (hadds : s.Adds s' count) {pattern : String}
    {immediate : Bool} {i : Nat} (h : TokenAt s.symbols pattern immediate i) :
    TokenAt s'.symbols pattern immediate i := by
  obtain ⟨info, token, hinfo, htoken⟩ := h
  exact ⟨info, token, hadds.symbols i info hinfo, htoken⟩

/-- The symbol of a token is a terminal of the flat grammar. -/
theorem TokenAt.isTerminal_flat {flat : FlatGrammar} {pattern : String} {immediate : Bool} {i : Nat}
    (h : TokenAt flat.symbols pattern immediate i) : flat.isTerminal i = true := by
  obtain ⟨info, token, hinfo, hterminal, -⟩ := h
  simp [FlatGrammar.isTerminal, hinfo, hterminal]

/-- The first rule is what its name stands for. -/
theorem Grammar.rule?_of_start? {g : Grammar} {name : String} {rule : Rule}
    (h : g.start? = some (name, rule)) : g.rule? name = some rule := by
  unfold start? at h
  rw [Grammar.rule?]
  cases hrules : g.rules with
  | nil => simp [hrules] at h
  | cons first rest =>
    rw [hrules, List.head?_cons] at h
    cases h
    exact List.lookup_cons_self

namespace Flatten

open Flattening StateT

variable {g : Grammar} {start : String} {P : TokenRule → Prop} {s : Flattening}

/-! ## Symbols of tokens -/

/-- One more symbol, which `rules` and `anonymous` may name. -/
theorem adds_push {s s' : Flattening} {info : FlatSymbol}
    (hsymbols : s'.symbols = s.symbols.push info) (hfields : s'.fields = s.fields)
    (hpending : s'.pending = s.pending) (hproductions : s'.productions = s.productions) :
    s.Adds s' 1 := by
  refine ⟨⟨by simp [hsymbols], hfields, hpending, hproductions⟩, fun i info hi => ?_⟩
  obtain ⟨hlt, -⟩ := Array.getElem?_eq_some_iff.mp hi
  rw [hsymbols, Array.getElem?_push_lt hlt, ← Array.getElem?_eq_getElem, hi]

/-- A symbol may be added whose token is as required. -/
theorem tokens_push (hs : s.Ready g start P) {info : FlatSymbol} {token : TokenRule} (hP : P token)
    (htoken : info.token = some token) :
    ∀ other ∈ s.symbols.push info, ∀ token', other.token = some token' → P token' := by
  intro other hother token' htoken'
  obtain hother | rfl := Array.mem_push.mp hother
  · exact hs.tokens other hother token' htoken'
  · cases htoken.symm.trans htoken'
    exact hP

/-- A token without a rule is given a symbol. -/
theorem ready_anonymous (hs : s.Ready g start P) (info : FlatSymbol) {token : TokenRule}
    (hP : P token) (hterminal : info.terminal = true) (htoken : info.token = some token) :
    Ready { s with
      symbols := s.symbols.push info
      anonymous := ((token.pattern, token.immediate), s.symbols.size) :: s.anonymous } g start P := by
  have hadds : s.Adds { s with
      symbols := s.symbols.push info
      anonymous := ((token.pattern, token.immediate), s.symbols.size) :: s.anonymous } 1 :=
    adds_push rfl rfl rfl rfl
  refine ⟨hs.own, fun name i hne hi => ?_, fun key i hi => ?_, tokens_push hs hP htoken⟩
  · obtain ⟨rule, token, hrule, htoken, hat⟩ := hs.rules name i hne hi
    exact ⟨rule, token, hrule, htoken, hat.adds hadds⟩
  -- the number is that of the symbol that has just been added
  · obtain ⟨rfl, rfl⟩ | hi := lookup_cons_cases hi
    · exact tokenAt_push (s := s) rfl hterminal htoken
    · exact (hs.anonymous key i hi).adds hadds

/-- The rule of a token is given a symbol. -/
theorem ready_rule (hs : s.Ready g start P) (info : FlatSymbol) {name : String} {rule : Rule}
    {token : TokenRule} (hP : P token) (hne : name ≠ start) (hrule : g.rule? name = some rule)
    (hdescribes : g.token name rule = .ok token) (hterminal : info.terminal = true)
    (htoken : info.token = some token) :
    Ready { s with
      symbols := s.symbols.push info
      rules := (name, s.symbols.size) :: s.rules } g start P := by
  have hadds : s.Adds { s with
      symbols := s.symbols.push info
      rules := (name, s.symbols.size) :: s.rules } 1 := adds_push rfl rfl rfl rfl
  refine ⟨?_, fun other i hother hi => ?_, fun key i hi => (hs.anonymous key i hi).adds hadds,
    tokens_push hs hP htoken⟩
  · rw [List.lookup_cons, beq_eq_false_iff_ne.mpr hne.symm]
    exact hs.own
  -- the rule that was looked up is the new one or one of the old ones
  · obtain ⟨rfl, rfl⟩ | hi := lookup_cons_cases hi
    · exact ⟨rule, token, hrule, hdescribes, tokenAt_push (s := s) rfl hterminal htoken⟩
    · obtain ⟨rule, token, hrule, htoken, hat⟩ := hs.rules other i hother hi
      exact ⟨rule, token, hrule, htoken, hat.adds hadds⟩

/-- A token without a rule that has a symbol keeps it. -/
theorem run_anonymousToken {owner : String} {rule : Rule} {token : TokenRule} {i : Nat}
    (htoken : g.token owner rule = .ok token)
    (hfound : s.anonymous.lookup (token.pattern, token.immediate) = some i) :
    (anonymousToken g owner rule).run s = .ok (i, s) := by
  unfold anonymousToken
  refine bind_run_ok.mpr ⟨token, s, lift_run_ok.mpr ⟨htoken, rfl⟩,
    bind_run_ok.mpr ⟨s, s, get_run_ok.mpr ⟨rfl, rfl⟩, ?_⟩⟩
  simp only [hfound]
  exact pure_run_ok.mpr ⟨rfl, rfl⟩

/-- The symbol of a token without a rule: one that there is, or a new one. -/
theorem exists_anonymousToken (hs : s.Ready g start P) (hroom : s.symbols.size < maxCount)
    {owner : String} {rule : Rule} {token : TokenRule} (hP : P token)
    (htoken : g.token owner rule = .ok token) :
    ∃ i s', (anonymousToken g owner rule).run s = .ok (i, s') ∧ s'.Ready g start P ∧ s.Adds s' 1 ∧
      s'.anonymous.lookup (token.pattern, token.immediate) = some i := by
  -- a pattern that has been met keeps its symbol, and another one gets the next
  cases hfound : s.anonymous.lookup (token.pattern, token.immediate) with
  | some i => exact ⟨i, s, run_anonymousToken htoken hfound, hs, .refl s 1, hfound⟩
  | none =>
    unfold anonymousToken
    refine ⟨s.symbols.size, _, bind_run_ok.mpr ⟨token, s, lift_run_ok.mpr ⟨htoken, rfl⟩,
        bind_run_ok.mpr ⟨s, s, get_run_ok.mpr ⟨rfl, rfl⟩, ?_⟩⟩,
      ready_anonymous hs
        ⟨rule.displayName?.getD token.pattern, some token, true, false, token.literal, false⟩
        hP rfl rfl,
      adds_push rfl rfl rfl rfl, List.lookup_cons_self⟩
    simp only [hfound]
    refine bind_run_ok.mpr ⟨_, _, addSymbol_run_ok.mpr ⟨Nat.not_le_of_lt hroom, rfl, rfl⟩, ?_⟩
    exact bind_run_ok.mpr ⟨PUnit.unit, _, modify_run_ok.mpr rfl, pure_run_ok.mpr ⟨rfl, rfl⟩⟩

/-- The symbol of a token that is a rule: one that there is, or a new one. -/
theorem exists_ruleSymbol (referrer : String) (hs : s.Ready g start P)
    (hroom : s.symbols.size < maxCount) {name : String} {rule : Rule} {token : TokenRule}
    (hP : P token) (hne : name ≠ start) (hrule : g.rule? name = some rule)
    (hlexical : rule.isLexical = true) (htoken : g.token name rule = .ok token) :
    ∃ i s', (ruleSymbol g start referrer name).run s = .ok (i, s') ∧ s'.Ready g start P ∧ s.Adds s' 1 ∧
      TokenAt s'.symbols token.pattern token.immediate i := by
  have hget : (get : Flatten Flattening).run s = .ok (s, s) := get_run_ok.mpr ⟨rfl, rfl⟩
  unfold ruleSymbol
  cases hfound : s.rules.lookup name with
  | some i =>
    obtain ⟨rule', token', hrule', htoken', hat⟩ := hs.rules name i hne hfound
    obtain rfl : rule' = rule := Option.some.inj (hrule'.symm.trans hrule)
    obtain rfl : token' = token := Except.ok.inj (htoken'.symm.trans htoken)
    refine ⟨i, s, bind_run_ok.mpr ⟨s, s, hget, ?_⟩, hs, .refl s 1, hat⟩
    simp only [hfound]
    exact pure_run_ok.mpr ⟨rfl, rfl⟩
  | none =>
    -- a lexical rule other than the start is lowered to a terminal
    have hcondition : (rule.isLexical && name != start) = true := by simp [hlexical, hne]
    refine ⟨s.symbols.size, _, bind_run_ok.mpr ⟨s, s, hget, ?_⟩,
      ready_rule hs ⟨name, some token, true, !g.isHidden name, true, false⟩ hP hne hrule htoken
        rfl rfl,
      adds_push rfl rfl rfl rfl, tokenAt_push (s := s) rfl rfl rfl⟩
    simp only [hfound, hrule, hcondition, if_true, bind_run_ok, modify_run_ok, pure_run_ok,
      addSymbol_run_ok]
    exact ⟨token, s, lift_run_ok.mpr ⟨htoken, rfl⟩, _, _, ⟨rfl, rfl⟩, _, _,
      ⟨Nat.not_le_of_lt hroom, rfl, rfl⟩, PUnit.unit, _, rfl, rfl, rfl⟩

/-! ## Parts of the start rule -/

/-- A count within the bound passes. -/
theorem run_checkCount {count : Nat} (h : count ≤ maxAlternatives) :
    (checkCount count).run s = .ok ((), s) := by
  rw [checkCount, if_neg (Nat.not_lt_of_le h)]
  rfl

/-- The start rule has its symbol. -/
theorem run_ruleSymbol (hs : s.Ready g start P) (referrer : String) :
    (ruleSymbol g start referrer start).run s = .ok (2, s) := by
  unfold ruleSymbol
  refine bind_run_ok.mpr ⟨s, s, get_run_ok.mpr ⟨rfl, rfl⟩, ?_⟩
  simp only [hs.own]
  exact pure_run_ok.mpr ⟨rfl, rfl⟩

/-- The start symbol is expanded to itself. -/
theorem run_expand_symbol (hs : s.Ready g start P) (owner : String) :
    (expand g start owner (.symbol start)).run s = .ok ([.single 2], s) := by
  rw [expand]
  exact bind_run_ok.mpr ⟨2, s, run_ruleSymbol hs owner, pure_run_ok.mpr ⟨rfl, rfl⟩⟩

/-- Members that have one alternative each, and one new symbol at most, make a choice of as many. -/
theorem exists_expandChoice {ι : Type} {rule : ι → Rule}
    {Q : Array FlatSymbol → ι → Alternative → Prop}
    (hmono : ∀ {s s' : Flattening} {count p a}, s.Adds s' count → Q s.symbols p a → Q s'.symbols p a)
    (hstep : ∀ p {s : Flattening}, s.Ready g start P → s.symbols.size < maxCount → ∃ a s',
      (expand g start start (rule p)).run s = .ok ([a], s') ∧ s'.Ready g start P ∧ s.Adds s' 1 ∧
        Q s'.symbols p a)
    (ps : List ι) (hs : s.Ready g start P) (hroom : s.symbols.size + ps.length ≤ maxCount) :
    ∃ as s', (expandChoice g start start (ps.map rule)).run s = .ok (as, s') ∧ s'.Ready g start P ∧
      s.Adds s' ps.length ∧ List.Forall₂ (Q s'.symbols) ps as := by
  induction ps generalizing s with
  | nil =>
    refine ⟨[], s, ?_, hs, .refl s 0, .nil⟩
    rw [List.map_nil, expandChoice]
    exact pure_run_ok.mpr ⟨rfl, rfl⟩
  | cons p rest ih =>
    rw [List.length_cons] at hroom
    obtain ⟨a, s₁, hrun, hs₁, hadds₁, hq⟩ := hstep p hs (by omega)
    obtain ⟨as, s', hruns, hs', hadds', hall⟩ := ih hs₁ (by
      have := hadds₁.size
      omega)
    -- what is known of the first alternative is still known when the others have been expanded
    refine ⟨a :: as, s', ?_, hs', ?_, .cons (hmono hadds' hq) hall⟩
    · rw [List.map_cons, expandChoice]
      exact bind_run_ok.mpr ⟨_, s₁, hrun, bind_run_ok.mpr ⟨_, s', hruns, pure_run_ok.mpr ⟨rfl, rfl⟩⟩⟩
    · rw [List.length_cons, Nat.add_comm]
      exact hadds₁.trans hadds'

/-- `Alternative.distinct` keeps alternatives that differ. -/
theorem distinct_of_nodup {as : List Alternative} (h : as.Nodup) : Alternative.distinct as = as := by
  -- the fold puts all of them in front in reverse, as none is in `out` yet
  have hfold : ∀ (as out : List Alternative), as.Nodup → (∀ a ∈ as, a ∉ out) →
      as.foldl (fun out a => if out.contains a then out else a :: out) out = as.reverse ++ out := by
    intro as
    induction as with
    | nil => exact fun out _ _ => rfl
    | cons a rest ih =>
      intro out hnodup hnew
      obtain ⟨hnot, hrest⟩ := List.nodup_cons.mp hnodup
      have hcontains : ¬out.contains a = true := fun h =>
        hnew a (List.mem_cons_self ..) (List.contains_iff_mem.mp h)
      rw [List.foldl_cons, if_neg hcontains, ih (a :: out) hrest fun b hb hmem => ?_]
      · simp
      · obtain rfl | hmem := List.mem_cons.mp hmem
        · exact hnot hb
        · exact hnew b (List.mem_cons_of_mem _ hb) hmem
  rw [Alternative.distinct, hfold as [] h fun a _ hmem => by cases hmem]
  simp

end Flatten

/-! ## Extras -/

/-- What may stand anywhere, and its token: a token written in place, or a rule of another name than
the start rule's that is one. -/
inductive Grammar.IsExtra (g : Grammar) (start : String) (token : TokenRule) : Rule → Prop
  | inline {rule : Rule} (hlexical : rule.isLexical = true) (h : g.token start rule = .ok token) :
      IsExtra g start token rule
  | symbol {name : String} {rule : Rule} (hne : name ≠ start) (hrule : g.rule? name = some rule)
      (hlexical : rule.isLexical = true) (h : g.token name rule = .ok token) :
      IsExtra g start token (.symbol name)

namespace Flatten

open Flattening StateT

variable {g : Grammar} {start : String} {P : TokenRule → Prop} {s : Flattening}

/-- An extra that is marked remains the token that it was. -/
theorem exists_markExtra (hs : s.Ready g start P) (symbol : Nat) (hide : Bool) :
    ∃ s', (markExtra symbol hide).run s = .ok ((), s') ∧ s'.Ready g start P ∧ s.Gains s' 0 := by
  refine ⟨_, modify_run_ok.mpr rfl, ⟨hs.own, fun name i hne hi => ?_, fun key i hi => ?_,
    fun info hinfo token htoken => ?_⟩, Nat.le_of_eq Array.size_modify, rfl, rfl, rfl⟩
  · obtain ⟨rule, token, hrule, htoken, hat⟩ := hs.rules name i hne hi
    exact ⟨rule, token, hrule, htoken, hat.modify symbol fun _ => rfl⟩
  · exact (hs.anonymous key i hi).modify symbol fun _ => rfl
  -- marking changes no token
  · obtain ⟨i, hi, rfl⟩ := Array.getElem_of_mem hinfo
    rw [Array.getElem_modify] at htoken
    rw [Array.size_modify] at hi
    refine hs.tokens _ (Array.getElem_mem hi) token ?_
    split at htoken <;> exact htoken

/-- An extra that is a token is added. -/
theorem exists_addExtra (hs : s.Ready g start P) (hroom : s.symbols.size < maxCount) {rule : Rule}
    {token : TokenRule} (hP : P token) (hextra : g.IsExtra start token rule) :
    ∃ s', (addExtra g start rule).run s = .ok ((), s') ∧ s'.Ready g start P ∧ s.Gains s' 1 := by
  unfold addExtra
  cases hextra with
  -- an extra that is written out has no name, so it is hidden
  | inline hlexical htoken =>
    obtain ⟨i, s₁, hrun, hs₁, hadds, -⟩ := exists_anonymousToken hs hroom hP htoken
    obtain ⟨s', hmark, hs', hgains⟩ := exists_markExtra hs₁ i true
    refine ⟨s', ?_, hs', hadds.toGains.trans hgains⟩
    split
    · cases hlexical
    · exact guard_run_ok.mpr ⟨by simp [hlexical], bind_run_ok.mpr ⟨i, s₁, hrun, hmark⟩⟩
  -- an extra that is named is hidden if its name says so
  | @symbol name rule hne hrule hlexical htoken =>
    obtain ⟨i, s₁, hrun, hs₁, hadds, info, token', hinfo, hterminal, -⟩ :=
      exists_ruleSymbol start hs hroom hP hne hrule hlexical htoken
    obtain ⟨s', hmark, hs', hgains⟩ := exists_markExtra hs₁ i (name.startsWith "_")
    refine ⟨s', bind_run_ok.mpr ⟨i, s₁, hrun, bind_run_ok.mpr ⟨s₁, s₁, get_run_ok.mpr ⟨rfl, rfl⟩,
      ?_⟩⟩, hs', hadds.toGains.trans hgains⟩
    rw [if_pos (by rw [hinfo]; exact hterminal)]
    exact hmark

/-- The loop of `addAll` over the extras. -/
def addExtras (g : Grammar) (start : String) (rules : List Rule) : Flatten PUnit :=
  forIn rules PUnit.unit fun rule _ => do
    addExtra g start rule
    pure (.yield PUnit.unit)

/-- Extras that are tokens are added, one after the other. -/
theorem exists_addExtras (rules : List Rule)
    (hrules : ∀ rule ∈ rules, ∃ token, P token ∧ g.IsExtra start token rule) (hs : s.Ready g start P)
    (hroom : s.symbols.size + rules.length ≤ maxCount) :
    ∃ s', (addExtras g start rules).run s = .ok ((), s') ∧ s'.Ready g start P ∧
      s.Gains s' rules.length := by
  -- on the rules, each of which takes one symbol at most
  induction rules generalizing s with
  | nil => exact ⟨s, pure_run_ok.mpr ⟨rfl, rfl⟩, hs, .refl s 0⟩
  | cons rule rest ih =>
    rw [List.length_cons] at hroom
    obtain ⟨token, hP, htoken⟩ := hrules rule (List.mem_cons_self ..)
    obtain ⟨s₁, hrun, hs₁, hgains⟩ := exists_addExtra hs (by omega) hP htoken
    obtain ⟨s', hruns, hs', hgains'⟩ :=
      ih (fun r hr => hrules r (List.mem_cons_of_mem _ hr)) hs₁ (by
        have := hgains.size
        omega)
    refine ⟨s', ?_, hs', ?_⟩
    · rw [addExtras, List.forIn_cons]
      refine bind_run_ok.mpr ⟨.yield PUnit.unit, s₁, ?_, hruns⟩
      exact bind_run_ok.mpr ⟨(), s₁, hrun, pure_run_ok.mpr ⟨rfl, rfl⟩⟩
    · rw [List.length_cons, Nat.add_comm]
      exact hgains.trans hgains'

/-! ## From alternatives to productions -/

/-- The productions of a rule, one for each of its alternatives. -/
def productionsOf (lhs : Nat) (as : List Alternative) : List FlatProduction :=
  as.map fun a => ⟨lhs, a.parts, a.binding⟩

/-- A state with the production of one more alternative. -/
def withProduction (lhs : Nat) (s : Flattening) (a : Alternative) : Flattening :=
  { s with productions := s.productions.push ⟨lhs, a.parts, a.binding⟩ }

/-- Productions are added behind those that are there, in order. -/
theorem foldl_withProduction (lhs : Nat) (as : List Alternative) (s : Flattening) :
    as.foldl (withProduction lhs) s =
      { s with productions := s.productions ++ (productionsOf lhs as).toArray } := by
  induction as generalizing s with
  | nil => simp [productionsOf]
  | cons a rest ih =>
    rw [List.foldl_cons, ih]
    simp [productionsOf, withProduction]

/-- The start rule is given a production for each of its alternatives. -/
theorem run_addRule {rule : Rule} {as : List Alternative} {s' : Flattening}
    (hown : s.rules.lookup start = some 2) (hrule : g.rule? start = some rule)
    (hexpand : (expand g start start rule).run s = .ok (as, s')) :
    (addRule g start start).run s =
      .ok ((), { s' with productions := s'.productions ++ (productionsOf 2 as).toArray }) := by
  unfold addRule
  refine bind_run_ok.mpr ⟨s, s, get_run_ok.mpr ⟨rfl, rfl⟩, ?_⟩
  simp only [hrule, hown]
  refine bind_run_ok.mpr ⟨as, s', hexpand, bind_run_ok.mpr ⟨PUnit.unit,
    as.foldl (withProduction 2) s', run_forIn (fun a s => ?_) as s', pure_run_ok.mpr ⟨rfl, ?_⟩⟩⟩
  · -- the start rule may have an empty alternative
    have hkept : ¬(a.parts.isEmpty && start != start) = true := by simp
    rw [if_neg hkept]
    exact bind_run_ok.mpr ⟨PUnit.unit, _, modify_run_ok.mpr rfl, pure_run_ok.mpr ⟨rfl, rfl⟩⟩
  · exact foldl_withProduction 2 as s'

/-- The start rule has been met, and waits for its productions. -/
def met (g : Grammar) (start : String) : Flattening :=
  { initial with
    symbols := builtIns.push ⟨start, none, false, true, !g.isHidden start, false⟩
    rules := [(start, 2)]
    pending := [start] }

/-- The symbols that stand first are as required. -/
theorem ready_met (g : Grammar) (start : String) (P : TokenRule → Prop) :
    (met g start).Ready g start P where
  own := List.lookup_cons_self
  rules := fun name i hne hi => by
    change List.lookup name [(start, 2)] = some i at hi
    rw [List.lookup_cons, beq_eq_false_iff_ne.mpr hne] at hi
    cases hi
  anonymous := fun _ _ hi => by cases hi
  tokens := fun info hinfo token htoken => by
    simp only [met, builtIns, Array.mem_push] at hinfo
    obtain hinfo | rfl := hinfo
    · simp only [List.mem_toArray, List.mem_cons, List.not_mem_nil, or_false] at hinfo
      obtain rfl | rfl := hinfo <;> cases htoken
    · cases htoken

/-- A grammar in which no other rule has productions is flattened to those of its start rule: they
come after what expanding the rule adds. -/
theorem run_addAll {rule : Rule} {as : List Alternative} {s' : Flattening}
    (hrule : g.rule? start = some rule) (hstructured : rule.isLexical = false)
    (hextras : (addExtras g start g.extras).run (met g start) = .ok ((), s))
    (hown : s.rules.lookup start = some 2) (hpending : s.pending = [start])
    (hexpand : (expand g start start rule).run { s with pending := [] } = .ok (as, s'))
    (hdone : s'.pending = []) :
    (addAll g start).run initial =
      .ok (2, { s' with productions := s'.productions ++ (productionsOf 2 as).toArray }) := by
  -- the start symbol is met first and gets the first number behind those that are built in
  have hsymbol : (ruleSymbol g start start start).run initial = .ok (2, met g start) := by
    unfold ruleSymbol
    refine bind_run_ok.mpr ⟨initial, initial, get_run_ok.mpr ⟨rfl, rfl⟩, ?_⟩
    have hnone : initial.rules.lookup start = none := rfl
    simp only [hnone, hrule, hstructured, Bool.false_and, Bool.false_eq_true, if_false, bind_run_ok,
      modify_run_ok, pure_run_ok, addSymbol_run_ok]
    exact ⟨PUnit.unit, _, rfl, _, _, ⟨rfl, rfl⟩, 2, _, ⟨(by decide : ¬maxCount ≤ 2), rfl, rfl⟩,
      PUnit.unit, _, rfl, rfl, rfl⟩
  -- without pending rules the loop does nothing more
  have hrest : ∀ fuel (s : Flattening), s.pending = [] →
      (addPending g start fuel).run s = .ok ((), s) := by
    intro fuel s hs
    cases fuel with
    | zero => rfl
    | succ fuel =>
      rw [addPending]
      refine bind_run_ok.mpr ⟨s, s, get_run_ok.mpr ⟨rfl, rfl⟩, ?_⟩
      rw [hs]
      rfl
  -- so one round adds the productions of the start
  have hall : (addPending g start (g.rules.length + 1)).run s =
      .ok ((), { s' with productions := s'.productions ++ (productionsOf 2 as).toArray }) := by
    rw [addPending]
    refine bind_run_ok.mpr ⟨_, _, get_run_ok.mpr ⟨rfl, rfl⟩, ?_⟩
    simp only [hpending]
    refine bind_run_ok.mpr ⟨PUnit.unit, { s with pending := [] }, modify_run_ok.mpr rfl, ?_⟩
    exact bind_run_ok.mpr ⟨(), _, run_addRule hown hrule hexpand, hrest _ _ hdone⟩
  unfold addAll
  refine bind_run_ok.mpr ⟨2, _, hsymbol, bind_run_ok.mpr ⟨PUnit.unit, s, hextras, ?_⟩⟩
  exact bind_run_ok.mpr ⟨(), _, hall, pure_run_ok.mpr ⟨rfl, rfl⟩⟩

/-- The flat grammar of a grammar without externals in which no other rule has productions. -/
theorem flatten_of_expand {rule : Rule} {as : List Alternative} {s' : Flattening}
    (hstart : g.start? = some (start, rule)) (hexternals : g.externals = [])
    (hstructured : rule.isLexical = false)
    (hextras : (addExtras g start g.extras).run (met g start) = .ok ((), s))
    (hown : s.rules.lookup start = some 2) (hpending : s.pending = [start])
    (hexpand : (expand g start start rule).run { s with pending := [] } = .ok (as, s'))
    (hdone : s'.pending = []) :
    g.flatten = .ok
      ⟨g.name, s'.symbols, s'.productions ++ (productionsOf 2 as).toArray, s'.fields, 2⟩ := by
  have hall := run_addAll (Grammar.rule?_of_start? hstart) hstructured hextras hown hpending hexpand hdone
  unfold Grammar.flatten
  rw [hstart]
  simp only [hexternals, List.isEmpty_nil, Bool.not_true, Bool.false_eq_true, if_false]
  exact Except.bind_eq_ok.mpr ⟨_, hall, rfl⟩

end Flatten

end IncrementalParsing
