import IncrementalParsing.Proofs.Grammar.Increments

/-!
# Tokens that share a symbol

A token without a rule is given a symbol where it is first met, and every other token with the same
pattern that is as immediate stands for the same symbol.  The symbol carries the first of them.  So it is
right for a token unless another one has its pattern and is of another precedence, or is a string where
this one is none: in `Shadowed` a token of precedence two stands for a symbol of precedence zero, because
the same letter was written as a string before.

## Key results

- `Flattening.Increments.traced`: a symbol carries a token that is written
- `Grammar.symbols_of_tokens`: what is known of the symbol that a written token stands for
- `Shadowed.precedence_lost`: a token whose precedence no symbol has
-/

namespace IncrementalParsing

/-- A symbol is a terminal with a token. -/
def Carries (symbols : Array FlatSymbol) (i : Nat) (token : TokenRule) : Prop :=
  ∃ info, symbols[i]? = some info ∧ info.terminal = true ∧ info.token = some token

namespace Carries

variable {symbols : Array FlatSymbol} {i : Nat} {token token' : TokenRule}

/-- A symbol carries one token. -/
theorem eq (h : Carries symbols i token) (h' : Carries symbols i token') : token = token' := by
  obtain ⟨x, hx, -, htoken⟩ := h
  obtain ⟨y, hy, -, htoken'⟩ := h'
  cases hx.symm.trans hy
  exact Option.some.inj (htoken.symm.trans htoken')

theorem push (h : Carries symbols i token) (info : FlatSymbol) :
    Carries (symbols.push info) i token := by
  obtain ⟨x, hx, hcarries⟩ := h
  have hlt := (Array.getElem?_eq_some_iff.mp hx).1
  exact ⟨x, by rwa [Array.getElem?_push_lt hlt, ← Array.getElem?_eq_getElem], hcarries⟩

theorem modify (h : Carries symbols i token) (symbol : Nat) {f : FlatSymbol → FlatSymbol}
    (hf : ∀ info, (f info).terminal = info.terminal ∧ (f info).token = info.token) :
    Carries (symbols.modify symbol f) i token := by
  obtain ⟨x, hx, hterminal, htoken⟩ := h
  rw [Carries, Array.getElem?_modify, hx]
  split
  · exact ⟨f x, rfl, (hf x).1.trans hterminal, (hf x).2.trans htoken⟩
  · exact ⟨x, rfl, hterminal, htoken⟩

end Carries

namespace Flattening

variable {g : Grammar} {start : String} {s s' : Flattening}

/-! ## What symbols carry -/

/-- Each symbol of a token without a rule carries a token that is written somewhere. -/
def Traced (g : Grammar) (start : String) (s : Flattening) : Prop :=
  ∀ key i, s.anonymous.lookup key = some i → ∃ rule owner token, s.Writes g start rule ∧
    g.token owner rule = .ok token ∧ key = (token.pattern, token.immediate) ∧ Carries s.symbols i token

/-- A step that leaves the symbols of such tokens alone keeps what they carry. -/
theorem Traced.of_increment (hs : s.Traced g start) (h : Increment g start s s')
    (hanonymous : s'.anonymous = s.anonymous)
    (hcarries : ∀ i token, Carries s.symbols i token → Carries s'.symbols i token) : s'.Traced g start := by
  intro key i hi
  rw [hanonymous] at hi
  obtain ⟨rule, owner, token, hwrites, htoken, hkey, hcarried⟩ := hs key i hi
  exact ⟨rule, owner, token, hwrites.increments (.single h), htoken, hkey, hcarries i token hcarried⟩

theorem Traced.increment (hs : s.Traced g start) (h : Increment g start s s') : s'.Traced g start := by
  have hstep := h
  cases h with
  | symbol info => exact hs.of_increment hstep rfl fun _ _ hcarried => hcarried.push info
  | rule | production => exact hs.of_increment hstep rfl fun _ _ hcarried => hcarried
  | extra symbol hide =>
    -- marking an extra leaves its token
    have hkept : ∀ info : FlatSymbol,
        ({ info with extra := true, visible := info.visible && !hide } : FlatSymbol).terminal =
          info.terminal ∧
        ({ info with extra := true, visible := info.visible && !hide } : FlatSymbol).token =
          info.token :=
      fun _ => ⟨rfl, rfl⟩
    exact hs.of_increment hstep rfl fun _ _ hcarried => hcarried.modify symbol hkept
  | anonymous name visible hwrites htoken =>
    intro key i hi
    obtain ⟨rfl, rfl⟩ | hi := lookup_cons_cases hi
    -- the symbol is new and carries the token that it was added for
    · exact ⟨_, _, _, hwrites.increments (.single hstep), htoken, rfl, _,
        Array.getElem?_push_size, rfl, rfl⟩
    · obtain ⟨rule, owner, token, hold, htoken, hkey, hcarried⟩ := hs key i hi
      exact ⟨rule, owner, token, hold.increments (.single hstep), htoken, hkey, hcarried.push _⟩
  | other _ hsymbols _ _ hanonymous =>
    refine hs.of_increment hstep hanonymous fun i token hcarried => ?_
    rwa [hsymbols]

/-- Whatever is done while a grammar is flattened, a symbol carries a token that is written. -/
theorem Increments.traced (h : Increments g start s s') (hs : s.Traced g start) :
    s'.Traced g start := by
  induction h with
  | refl => exact hs
  | tail _ hstep ih => exact ih.increment hstep

/-! ## Where tokens are written -/

/-- A token has a symbol. -/
def Numbered (g : Grammar) (s : Flattening) (rule : Rule) : Prop :=
  ∃ owner token i, g.token owner rule = .ok token ∧
    s.anonymous.lookup (token.pattern, token.immediate) = some i

/-- A token has a symbol that may stand anywhere. -/
def Marked (g : Grammar) (s : Flattening) (rule : Rule) : Prop :=
  ∃ owner token i, g.token owner rule = .ok token ∧
    s.anonymous.lookup (token.pattern, token.immediate) = some i ∧
    (s.symbols[i]?).any (·.extra) = true

theorem Increment.anonymous_lookup (h : Increment g start s s') {key : String × Bool} {i : Nat}
    (hi : s.anonymous.lookup key = some i) : s'.anonymous.lookup key = some i := by
  cases h with
  | symbol | rule | production | extra => exact hi
  | @anonymous _ _ token _ _ _ _ hnone =>
    -- a token that is added was not met before
    have hne : (key == (token.pattern, token.immediate)) = false := by
      rw [beq_eq_false_iff_ne]
      rintro rfl
      rw [hnone] at hi
      cases hi
    rw [List.lookup_cons, hne]
    exact hi
  | other _ _ _ _ hanonymous => rwa [hanonymous]

/-- What may stand anywhere goes on to do so. -/
theorem Increment.any_extra (h : Increment g start s s') {i : Nat}
    (hi : (s.symbols[i]?).any (·.extra) = true) : (s'.symbols[i]?).any (·.extra) = true := by
  obtain ⟨info, hinfo, hextra⟩ := (Option.any_eq_true ..).mp hi
  have hlt := (Array.getElem?_eq_some_iff.mp hinfo).1
  cases h with
  | symbol | anonymous => rwa [Array.getElem?_push_lt hlt, ← Array.getElem?_eq_getElem]
  | rule | production => exact hi
  | extra symbol => by_cases heq : symbol = i <;> simp [Array.getElem?_modify, heq, hinfo, hextra]
  | other _ hsymbols => rwa [hsymbols]

theorem Marked.increments {rule : Rule} (h : s.Marked g rule) (hsteps : Increments g start s s') :
    s'.Marked g rule := by
  induction hsteps with
  | refl => exact h
  | tail _ hstep ih =>
    obtain ⟨owner, token, i, htoken, hi, hextra⟩ := ih
    exact ⟨owner, token, i, htoken, hstep.anonymous_lookup hi, hstep.any_extra hextra⟩

/-- What is expanded has symbols for the tokens in it. -/
theorem Expanded.numbered {rule leaf : Rule} {R : Set (List Nat)} (h : Expanded g s rule R)
    (hleaf : leaf.LeafOf rule) (hleafToken : leaf.isToken = true) : s.Numbered g leaf := by
  -- the leaf is followed down through the rule; where the constructors do not fit there is no such leaf
  induction h with
  | token hrule htoken hi =>
    cases hleaf with
    | token => exact ⟨_, _, _, htoken, hi⟩
    | symbol hname => rw [hname] at hleafToken; cases hleafToken
    | _ => cases hrule
  | blank =>
    cases hleaf with
    | token => cases hleafToken
    | symbol hname => cases hname
  | seqNil =>
    cases hleaf with
    | token => cases hleafToken
    | symbol hname => cases hname
    | seq hmem => cases hmem
  | choiceNil =>
    cases hleaf with
    | token => cases hleafToken
    | symbol hname => cases hname
    | choice hmem => cases hmem
  | symbol =>
    cases hleaf with
    | token | symbol => cases hleafToken
  | seqCons _ _ ih ihrest =>
    cases hleaf with
    | token => cases hleafToken
    | symbol hname => cases hname
    | seq hmem hin =>
      obtain rfl | hmem := List.mem_cons.mp hmem
      · exact ih hin
      · exact ihrest (.seq hmem hin)
  | choiceCons _ _ ih ihrest =>
    cases hleaf with
    | token => cases hleafToken
    | symbol hname => cases hname
    | choice hmem hin =>
      obtain rfl | hmem := List.mem_cons.mp hmem
      · exact ih hin
      · exact ihrest (.choice hmem hin)
  | zeroOrMore _ ih =>
    cases hleaf with
    | token => cases hleafToken
    | symbol hname => cases hname
    | zeroOrMore hin => exact ih (.oneOrMore hin)
  | oneOrMore _ _ ih =>
    cases hleaf with
    | token => cases hleafToken
    | symbol hname => cases hname
    | oneOrMore hin => exact ih hin
  | field _ ih | prec _ ih | precDynamic _ ih | reserved _ ih =>
    cases hleaf with
    | token => cases hleafToken
    | symbol hname => cases hname
    | _ hin => exact ih hin

theorem traced_initial (g : Grammar) (start : String) : Flatten.initial.Traced g start :=
  fun _ _ hi => by cases hi

end Flattening

namespace Flatten

open Flattening StateT

variable {g : Grammar} {start : String} {s s' : Flattening}

/-- An extra that is no rule has a symbol, which is marked. -/
theorem marked_addExtra {rule : Rule} {u : Unit} (hs : s.Keyed g start)
    (hname : ∀ name, rule ≠ .symbol name) (h : (addExtra g start rule).run s = .ok (u, s')) :
    s'.Marked g rule := by
  unfold addExtra at h
  split at h
  · exact absurd rfl (hname _)
  · simp only [guard_run_ok, bind_run_ok] at h
    obtain ⟨-, symbol, s₁, hsymbol, h⟩ := h
    -- the token has a number, whose symbol is marked then
    obtain ⟨hs₁, -, token, htoken, hi⟩ := keyed_anonymousToken hs hsymbol
    obtain ⟨info, -, hinfo, -⟩ := hs₁.anonymous _ _ hi
    unfold markExtra at h
    rw [modify_run_ok] at h
    subst h
    refine ⟨start, token, symbol, htoken, hi, ?_⟩
    simp [Array.getElem?_modify, hinfo]

theorem marked_addAll {i : Nat} (h : (addAll g start).run initial = .ok (i, s)) :
    ∀ rule ∈ g.extras, (∀ name, rule ≠ .symbol name) → s.Marked g rule := by
  obtain ⟨s₁, s₂, hs₁, -, hlast, hextras⟩ := exists_extras h
  -- each extra is marked in its round, and stays marked in those that follow
  have heach : ∀ rule ∈ g.extras, (∀ name, rule ≠ .symbol name) → s₂.Marked g rule := by
    refine forIn_run_each (P := fun r => r.Keyed g start)
      (Q := fun rule r => (∀ name, rule ≠ .symbol name) → r.Marked g rule)
      (fun rule hmem r y r' hr hstep => ?_) hs₁ hextras
    simp only [bind_run_ok, pure_run_ok] at hstep
    obtain ⟨_, r₁, hadd, rfl, rfl⟩ := hstep
    exact ⟨rfl, (keyed_addExtra hr hadd).1, fun hname => marked_addExtra hr hname hadd,
      fun other hother hname => (hother hname).increments (increments_addExtra hr hmem hadd)⟩
  exact fun rule hmem hname => (heach rule hmem hname).increments hlast

/-- A token that has a symbol stands for it wherever it is written. -/
theorem anonymousToken_run {owner : String} {rule : Rule} {token : TokenRule} {i : Nat}
    (htoken : g.token owner rule = .ok token)
    (hi : s.anonymous.lookup (token.pattern, token.immediate) = some i) :
    (anonymousToken g owner rule).run s = .ok (i, s) := by
  unfold anonymousToken
  refine bind_run_ok.mpr ⟨token, s, lift_run_ok.mpr ⟨htoken, rfl⟩, bind_run_ok.mpr ⟨s, s, rfl, ?_⟩⟩
  simp only [hi]
  rfl

end Flatten

/-! ## Symbols of written tokens -/

namespace Flattening

variable {g : Grammar} {start : String} {s : Flattening}

/-- A token stands for a symbol: it is the row of the token wherever the token is part of a rule, and
may stand anywhere if the token is an extra. -/
structure StandsFor (g : Grammar) (s : Flattening) (rule : Rule) (token : TokenRule) (i : Nat) :
    Prop where
  token : ∀ owner, g.token owner rule = .ok token
  number : ∀ owner, (Flatten.anonymousToken g owner rule).run s = .ok (i, s)
  row : rule.isToken = true → Expanded g s rule {[i]}
  extra : rule ∈ g.extras → (s.symbols[i]?).any (·.extra) = true

variable {rule : Rule} {token : TokenRule} {i : Nat}

theorem StandsFor.lookup (h : s.StandsFor g rule token i) :
    s.anonymous.lookup (token.pattern, token.immediate) = some i := by
  obtain ⟨token', htoken, ⟨hi, -⟩ | ⟨-, -, info, -, -, hs⟩⟩ :=
    Flatten.anonymousToken_cases (h.number "")
  · cases (h.token "").symm.trans htoken
    exact hi
  · have hsize := congrArg (·.symbols.size) hs
    simp at hsize

theorem standsFor_of_lookup {owner : String} (htoken : g.token owner rule = .ok token)
    (hi : s.anonymous.lookup (token.pattern, token.immediate) = some i)
    (hextra : rule ∈ g.extras → s.Marked g rule) : s.StandsFor g rule token i where
  token := fun _ => Grammar.token_owner htoken
  number := fun _ => Flatten.anonymousToken_run (Grammar.token_owner htoken) hi
  row := fun hrule => .token hrule htoken hi
  extra := fun hmem => by
    obtain ⟨owner', token', j, htoken', hj, hextra⟩ := hextra hmem
    cases (Grammar.token_owner htoken).symm.trans htoken'
    cases hi.symm.trans hj
    exact hextra

/-- A token that is written stands for a symbol. -/
theorem exists_standsFor {flat : FlatGrammar} (hlowered : Lowered g start s flat)
    (hextras : ∀ rule ∈ g.extras, (∀ name, rule ≠ .symbol name) → s.Marked g rule)
    (h : s.Writes g start rule) : ∃ token i, s.StandsFor g rule token i := by
  cases h with
  | extra hmem hname =>
    obtain ⟨owner, token, i, htoken, hi, -⟩ := hextras rule hmem hname
    exact ⟨token, i, standsFor_of_lookup htoken hi fun _ => hextras rule hmem hname⟩
  -- a token in a rule was met when the rule was expanded
  | @inside name lhs body hlhs hname hbody hleaf hrule =>
    obtain ⟨-, R, hR, -⟩ := hlowered.structured name lhs body hlhs hname hbody
    obtain ⟨owner, token, i, htoken, hi⟩ := hR.numbered hleaf hrule
    refine ⟨token, i, standsFor_of_lookup htoken hi fun hmem => hextras rule hmem ?_⟩
    rintro other rfl
    cases hrule

end Flattening

namespace Grammar

open Flattening

variable {g : Grammar} {flat : FlatGrammar}

/-- Every token without a rule stands for a symbol, which carries one of the tokens that are written with
its pattern and are as immediate.  All symbols carry the tokens that stand for them just if no two such
tokens differ. -/
theorem symbols_of_tokens (h : g.flatten = .ok flat) :
    ∃ start body s, g.start? = some (start, body) ∧ Lowered g start s flat ∧
      s.rules.lookup start = some flat.start ∧
      (∀ rule, s.Writes g start rule → ∃ token i, s.StandsFor g rule token i ∧
        ∃ first carried, s.Writes g start first ∧ s.StandsFor g first carried i ∧
          carried.pattern = token.pattern ∧ carried.immediate = token.immediate ∧
          Carries flat.symbols i carried) ∧
      ((∀ rule token i, s.Writes g start rule → s.StandsFor g rule token i →
          Carries flat.symbols i token) ↔
        ∀ rule rule' token token' owner owner', s.Writes g start rule → s.Writes g start rule' →
          g.token owner rule = .ok token → g.token owner' rule' = .ok token' →
          token.pattern = token'.pattern → token.immediate = token'.immediate → token = token') := by
  obtain ⟨start, body, s, hstart, hall, hsymbols, hproductions⟩ := exists_addAll h
  obtain ⟨hs, hlowered, hi⟩ := lowered_of_addAll hall hsymbols hproductions
  have htraced := (Flatten.increments_addAll hall).traced (traced_initial g start)
  have hstands : ∀ rule, s.Writes g start rule → ∃ token i, s.StandsFor g rule token i :=
    fun rule hwrites => exists_standsFor hlowered (Flatten.marked_addAll hall) hwrites
  -- the symbol carries the token of the first rule with this pattern
  have hcarried : ∀ rule token i, s.Writes g start rule → s.StandsFor g rule token i →
      ∃ first carried, s.Writes g start first ∧ s.StandsFor g first carried i ∧
          carried.pattern = token.pattern ∧ carried.immediate = token.immediate ∧
          Carries flat.symbols i carried := by
    intro rule token i hwrites h
    obtain ⟨first, owner, carried, hfirst, htoken, hkey, hcarries⟩ := htraced _ _ h.lookup
    obtain ⟨hpattern, himmediate⟩ := Prod.mk.inj hkey
    obtain ⟨token', j, hstands⟩ := hstands first hfirst
    cases (hstands.token owner).symm.trans htoken
    have hj := hstands.lookup
    rw [← hkey, h.lookup] at hj
    cases hj
    exact ⟨first, carried, hfirst, hstands, hpattern.symm, himmediate.symm, hsymbols ▸ hcarries⟩
  refine ⟨start, body, s, hstart, hlowered, hi, fun rule hwrites => ?_, fun hall' => ?_, fun hsame => ?_⟩
  · obtain ⟨token, i, hstands⟩ := hstands rule hwrites
    exact ⟨token, i, hstands, hcarried rule token i hwrites hstands⟩
  · intro rule rule' token token' owner owner' hwrites hwrites' htoken htoken' hpattern himmediate
    obtain ⟨t, i, hi⟩ := hstands rule hwrites
    obtain ⟨t', i', hi'⟩ := hstands rule' hwrites'
    cases (hi.token owner).symm.trans htoken
    cases (hi'.token owner').symm.trans htoken'
    -- the same pattern has the same symbol, and a symbol carries one token
    have hlookup := hi'.lookup
    rw [← hpattern, ← himmediate, hi.lookup] at hlookup
    cases hlookup
    exact (hall' rule token i hwrites hi).eq (hall' rule' token' i hwrites' hi')
  · intro rule token i hwrites hstands
    obtain ⟨first, carried, hfirst, hstands', hpattern, himmediate, hcarries⟩ :=
      hcarried rule token i hwrites hstands
    exact hsame first rule carried token "" "" hfirst hwrites (hstands'.token _) (hstands.token _)
      hpattern himmediate ▸ hcarries

end Grammar

/-! ## A precedence that is lost -/

namespace Shadowed

/-- A letter, and then the same letter, which is to bind tighter than any word, or a word. -/
def grammar : Grammar where
  name := "shadowed"
  rules := [
    ("s", .seq [.string "a", .choice [.token (.prec .none (.integer 2) (.string "a")), .symbol "w"]]),
    ("w", .token (.prec .none (.integer 1) (.pattern "[a-z]" none)))]
  extras := []
  precedences := []
  conflicts := []
  externals := []
  inlined := []
  supertypes := []
  word := none
  reserved := []

/-- Both letters are one symbol, which binds less tightly than a word. -/
def flat : FlatGrammar where
  name := "shadowed"
  symbols := #[⟨"end", none, true, false, false, false⟩, ⟨"ERROR", none, true, true, true, false⟩,
    ⟨"s", none, false, true, true, false⟩,
    ⟨"a", some ⟨"a", true, false, 0⟩, true, false, true, false⟩,
    ⟨"w", some ⟨"(?:[a-z])", false, false, 1⟩, true, true, true, false⟩]
  productions := #[⟨2, [(3, none), (3, none)], none⟩, ⟨2, [(3, none), (4, none)], none⟩]
  fields := #[]
  start := 2

theorem flatten_grammar : grammar.flatten = .ok flat := by
  decide +kernel

/-- Both letters have a symbol. -/
theorem letters_have_symbols : ∃ s, Flattening.Lowered grammar "s" s flat ∧
    ∀ rule, s.Writes grammar "s" rule → ∃ token i, s.StandsFor grammar rule token i := by
  obtain ⟨start, body, s, hstart, hlowered, -, hwritten, -⟩ := Grammar.symbols_of_tokens flatten_grammar
  cases hstart
  refine ⟨s, hlowered, fun rule hwrites => ?_⟩
  obtain ⟨token, i, hstands, -⟩ := hwritten rule hwrites
  exact ⟨token, i, hstands⟩

/-- The letter of precedence two stands for a symbol with another token, and no symbol has its token. -/
theorem precedence_lost : grammar.flatten = .ok flat ∧ ∃ s rule token i,
    Flattening.Lowered grammar "s" s flat ∧ s.Writes grammar "s" rule ∧
    s.StandsFor grammar rule token i ∧ token.precedence = 2 ∧
    ∀ j, ¬Carries flat.symbols j token := by
  obtain ⟨start, body, s, hstart, hall, hsymbols, hproductions⟩ :=
    Grammar.exists_addAll flatten_grammar
  cases hstart
  obtain ⟨hs, hlowered, hi⟩ := Grammar.lowered_of_addAll hall hsymbols hproductions
  -- the second occurrence of `a` is written with precedence 2
  have hwrites : s.Writes grammar "s" (.token (.prec .none (.integer 2) (.string "a"))) :=
    .inside hi rfl rfl (.seq (List.mem_cons_of_mem _ (List.mem_singleton_self _))
      (.choice (List.mem_cons_self ..) (.token rfl))) rfl
  obtain ⟨token, i, hstands⟩ := Flattening.exists_standsFor hlowered (Flatten.marked_addAll hall) hwrites
  have htoken : grammar.token "s" (.token (.prec .none (.integer 2) (.string "a"))) =
      .ok ⟨"a", true, false, 2⟩ := by
    decide +kernel
  cases (hstands.token "s").symm.trans htoken
  refine ⟨flatten_grammar, s, _, _, i, hlowered, hwrites, hstands, rfl, ?_⟩
  -- but no symbol carries that token
  have hother : ∀ info ∈ flat.symbols, info.token ≠ some ⟨"a", true, false, 2⟩ := by
    decide
  rintro j ⟨info, hinfo, -, hcarried⟩
  exact hother info (Array.mem_of_getElem? hinfo) hcarried

end Shadowed

end IncrementalParsing
