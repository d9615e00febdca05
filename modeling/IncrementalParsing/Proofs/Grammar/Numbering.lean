import IncrementalParsing.Proofs.Grammar.Expansions

/-!
# How symbols are numbered

While a grammar is flattened, each token and each rule gets a number of its own, a rule that is
numbered waits for its productions, and the numbers that there are keep their productions.

## Key results

- `Flattening.Keyed`: what holds of the numbers
- `Flattening.Extends`: what is kept while rules are expanded
-/

namespace IncrementalParsing

namespace Flattening

/-- The number of a token or a rule. -/
def symbol? (s : Flattening) : Terminal → Option Nat
  | .rule name => s.rules.lookup name
  | .anonymous pattern immediate => s.anonymous.lookup (pattern, immediate)

/-- Numbers are given once, tokens have theirs, and the rules that wait have no productions yet. -/
structure Keyed (g : Grammar) (start : String) (s : Flattening) : Prop where
  sound : s.Sound
  injective : ∀ t t' i, s.symbol? t = some i → s.symbol? t' = some i → t = t'
  anonymous : ∀ key i, s.anonymous.lookup key = some i → TokenAt s.symbols key.1 key.2 i
  rules : ∀ name i, s.rules.lookup name = some i → ∃ rule, g.rule? name = some rule
  lexical : ∀ name i, s.rules.lookup name = some i → g.isTokenRule start name = true →
    ∃ rule token, g.rule? name = some rule ∧ g.token name rule = .ok token ∧
      TokenAt s.symbols token.pattern token.immediate i
  structured : ∀ name i, s.rules.lookup name = some i → g.isTokenRule start name = false →
    s.isTerminal i = false
  nodup : s.pending.Nodup
  waiting : ∀ name ∈ s.pending, g.isTokenRule start name = false ∧
    ∃ i, s.rules.lookup name = some i ∧ ∀ row, ¬s.HasRow i row

/-- The rules that have no number yet. -/
def unmet (g : Grammar) (s : Flattening) : List (String × Rule) :=
  g.rules.filter fun r => (s.rules.lookup r.1).isNone

/-- What is kept while rules are expanded: numbers and their productions.  Rules that are new
wait. -/
structure Extends (g : Grammar) (start : String) (s s' : Flattening) : Prop where
  grows : s.Grows s'
  anonymous : ∀ key i, s.anonymous.lookup key = some i → s'.anonymous.lookup key = some i
  rows : ∀ i < s.symbols.size, ∀ row, s'.HasRow i row ↔ s.HasRow i row
  pending : s.pending ⊆ s'.pending
  waits : ∀ name ∈ s'.pending, name ∈ s.pending ∨ s.rules.lookup name = none
  fresh : ∀ name i, s'.rules.lookup name = some i → s.rules.lookup name = some i ∨
    s.symbols.size ≤ i ∧ (g.isTokenRule start name = false → name ∈ s'.pending)
  load : s'.pending.length + (unmet g s').length ≤ s.pending.length + (unmet g s).length

variable {g : Grammar} {start : String} {s s' : Flattening}

theorem Extends.refl (s : Flattening) : Extends g start s s :=
  ⟨.refl s, fun _ _ h => h, fun _ _ _ => Iff.rfl, fun _ h => h, fun _ h => .inl h,
    fun _ _ h => .inl h, Nat.le_refl _⟩

theorem Extends.trans {a b c : Flattening} (h : Extends g start a b) (h' : Extends g start b c) :
    Extends g start a c where
  grows := h.grows.trans h'.grows
  anonymous := fun key i hi => h'.anonymous key i (h.anonymous key i hi)
  rows := fun i hi row =>
    (h'.rows i (Nat.lt_of_lt_of_le hi h.grows.size_le) row).trans (h.rows i hi row)
  pending := fun name hn => h'.pending (h.pending hn)
  -- what has come to wait in the second part had no number before the first
  waits := fun name hn => by
    obtain hn | hn := h'.waits name hn
    · exact h.waits name hn
    · refine .inr (Option.eq_none_iff_forall_ne_some.mpr fun i hi => ?_)
      rw [h.grows.rules name i hi] at hn
      cases hn
  fresh := fun name i hi => by
    obtain hi | ⟨hle, hwaits⟩ := h'.fresh name i hi
    · obtain hi | ⟨hle, hwaits⟩ := h.fresh name i hi
      · exact .inl hi
      · exact .inr ⟨hle, fun hname => h'.pending (hwaits hname)⟩
    · exact .inr ⟨Nat.le_trans h.grows.size_le hle, hwaits⟩
  load := Nat.le_trans h'.load h.load

/-- What has a number is not given another. -/
theorem Keyed.lt_of_symbol? (hs : s.Keyed g start) {t : Terminal} {i : Nat}
    (hi : s.symbol? t = some i) : i < s.symbols.size := by
  cases t with
  | rule name => exact (hs.sound.rules name i hi).2
  | anonymous pattern immediate => exact (hs.sound.anonymous (pattern, immediate) i hi).2

theorem Keyed.lt_of_hasRow (hs : s.Keyed g start) {i : Nat} {row : List Nat} (h : s.HasRow i row) :
    i < s.symbols.size := by
  obtain ⟨q, hq, rfl, -⟩ := h
  exact (hs.sound.lhs q hq).1.2

/-- One new number is given to one thing. -/
theorem Keyed.injective_of_new (hs : s.Keyed g start) (new : Terminal)
    (hnew : ∀ t i, s'.symbol? t = some i →
      (t = new ∧ i = s.symbols.size) ∨ s.symbol? t = some i) :
    ∀ t t' i, s'.symbol? t = some i → s'.symbol? t' = some i → t = t' := by
  intro t t' i ht ht'
  -- the new number comes after all that were given out
  obtain ⟨rfl, rfl⟩ | ht := hnew t i ht
  · obtain ⟨rfl, -⟩ | ht' := hnew t' _ ht'
    · rfl
    · exact absurd (hs.lt_of_symbol? ht') (Nat.lt_irrefl _)
  · obtain ⟨rfl, rfl⟩ | ht' := hnew t' i ht'
    · exact absurd (hs.lt_of_symbol? ht) (Nat.lt_irrefl _)
    · exact hs.injective t t' i ht ht'

theorem lookup_cons_cases {α : Type} [BEq α] [LawfulBEq α] {entries : List (α × Nat)} {key key' : α}
    {i j : Nat} (h : ((key, i) :: entries).lookup key' = some j) :
    (key' = key ∧ j = i) ∨ entries.lookup key' = some j := by
  rw [List.lookup_cons] at h
  split at h
  · rename_i heq
    cases h
    exact .inl ⟨beq_iff_eq.mp heq, rfl⟩
  · exact .inr h

end Flattening

theorem TokenAt.isTerminal {s : Flattening} {pattern : String} {immediate : Bool} {i : Nat}
    (h : TokenAt s.symbols pattern immediate i) : s.isTerminal i = true := by
  obtain ⟨info, token, hinfo, hterminal, -⟩ := h
  rw [Flattening.isTerminal, hinfo]
  exact hterminal

theorem TokenAt.push {symbols : Array FlatSymbol} {pattern : String} {immediate : Bool} {i : Nat}
    (h : TokenAt symbols pattern immediate i) (info : FlatSymbol) :
    TokenAt (symbols.push info) pattern immediate i := by
  obtain ⟨info', token, hinfo, htoken⟩ := h
  have hlt := (Array.getElem?_eq_some_iff.mp hinfo).1
  exact ⟨info', token, by rwa [Array.getElem?_push_lt hlt, ← Array.getElem?_eq_getElem], htoken⟩

theorem TokenAt.modify {symbols : Array FlatSymbol} {pattern : String} {immediate : Bool} {i : Nat}
    (h : TokenAt symbols pattern immediate i) (symbol : Nat) {f : FlatSymbol → FlatSymbol}
    (hf : ∀ info, ((f info).terminal, (f info).token) = (info.terminal, info.token)) :
    TokenAt (symbols.modify symbol f) pattern immediate i := by
  obtain ⟨info, token, hinfo, hterminal, htoken, hpattern⟩ := h
  rw [TokenAt, Array.getElem?_modify]
  split
  · obtain ⟨hsame, hsame'⟩ := Prod.mk.inj (hf info)
    exact ⟨f info, token, by rw [hinfo]; rfl, hsame.trans hterminal, hsame'.trans htoken, hpattern⟩
  · exact ⟨info, token, hinfo, hterminal, htoken, hpattern⟩

namespace Flattening

variable {g : Grammar} {start : String} {s : Flattening}

/-- Fewer rules have no number if one more has. -/
theorem length_unmet_cons {name : String} {i : Nat} (hnone : s.rules.lookup name = none)
    {rule : Rule} (hrule : g.rule? name = some rule) :
    (unmet g { s with rules := (name, i) :: s.rules }).length < (unmet g s).length := by
  have hfilter : unmet g { s with rules := (name, i) :: s.rules } =
      (unmet g s).filter fun r => r.1 != name := by
    unfold unmet
    rw [List.filter_filter]
    refine List.filter_congr fun r _ => ?_
    cases heq : r.1 == name with
    | false => simp [List.lookup_cons, heq, bne]
    | true => simp [List.lookup_cons, heq, bne]
  rw [hfilter]
  -- the rule of this name was not met before, and now it is
  refine List.length_filter_lt_length_iff_exists.mpr ⟨(name, rule), ?_, by simp⟩
  obtain ⟨before, after, hrules, -⟩ := List.lookup_eq_some_iff.mp hrule
  exact List.mem_filter.mpr ⟨by simp [hrules], by simp [hnone]⟩

end Flattening

namespace Flatten

open Flattening StateT

variable {g : Grammar} {start : String} {s s' : Flattening}

/-- A token without a rule has a number, or is given the next one. -/
theorem anonymousToken_cases {owner : String} {rule : Rule} {i : Nat}
    (h : (anonymousToken g owner rule).run s = .ok (i, s')) :
    ∃ token, g.token owner rule = .ok token ∧
      ((s.anonymous.lookup (token.pattern, token.immediate) = some i ∧ s' = s) ∨
        (s.anonymous.lookup (token.pattern, token.immediate) = none ∧ i = s.symbols.size ∧
          ∃ info, info.terminal = true ∧ info.token = some token ∧
            s' = { s with
              symbols := s.symbols.push info
              anonymous := ((token.pattern, token.immediate), i) :: s.anonymous })) := by
  unfold anonymousToken at h
  simp only [bind_run_ok, get_run_ok] at h
  obtain ⟨token, s₁, htoken, _, _, ⟨rfl, rfl⟩, h⟩ := h
  obtain ⟨hdescribes, rfl⟩ := lift_run_ok.mp htoken
  refine ⟨token, hdescribes, ?_⟩
  split at h
  -- the pattern has a symbol
  · rename_i symbol hsymbol
    obtain ⟨rfl, rfl⟩ := pure_run_ok.mp h
    exact .inl ⟨hsymbol, rfl⟩
  -- it gets the next one
  · rename_i hnone
    simp only [bind_run_ok, modify_run_ok, pure_run_ok, addSymbol_run_ok] at h
    obtain ⟨_, _, ⟨-, rfl, rfl⟩, _, _, rfl, rfl, rfl⟩ := h
    exact .inr ⟨hnone, rfl, _, rfl, rfl, rfl⟩

/-- A rule has a number, or is given the next one: that of its token, or one that waits. -/
theorem ruleSymbol_cases {referrer name : String} {i : Nat}
    (h : (ruleSymbol g start referrer name).run s = .ok (i, s')) :
    (s.rules.lookup name = some i ∧ s' = s) ∨
      (s.rules.lookup name = none ∧ i = s.symbols.size ∧ ∃ rule info, g.rule? name = some rule ∧
        ((g.isTokenRule start name = true ∧ info.terminal = true ∧
            (∃ token, g.token name rule = .ok token ∧ info.token = some token) ∧
            s' = { s with
              symbols := s.symbols.push info
              rules := (name, i) :: s.rules }) ∨
          (g.isTokenRule start name = false ∧ info.terminal = false ∧
            s' = { s with
              symbols := s.symbols.push info
              rules := (name, i) :: s.rules
              pending := s.pending ++ [name] }))) := by
  unfold ruleSymbol at h
  simp only [bind_run_ok, get_run_ok] at h
  obtain ⟨_, _, ⟨rfl, rfl⟩, h⟩ := h
  split at h
  · rename_i symbol hsymbol
    obtain ⟨rfl, rfl⟩ := pure_run_ok.mp h
    exact .inl ⟨hsymbol, rfl⟩
  · rename_i hnone
    split at h
    · exact (throw_run_ok.mp h).elim
    · rename_i rule hrule
      have hkind : g.isTokenRule start name = (rule.isLexical && name != start) := by
        rw [Grammar.isTokenRule, hrule]
        rfl
      split at h
      -- a token rule is done with
      · rename_i hlexical
        simp only [bind_run_ok, modify_run_ok, pure_run_ok, addSymbol_run_ok] at h
        obtain ⟨token, s₁, htoken, _, _, ⟨rfl, rfl⟩, _, _, ⟨-, rfl, rfl⟩, _, _, rfl, rfl, rfl⟩ := h
        obtain ⟨hdescribes, rfl⟩ := lift_run_ok.mp htoken
        exact .inr ⟨hnone, rfl, rule, _, hrule, .inl ⟨hkind.trans hlexical, rfl,
          ⟨token, hdescribes, rfl⟩, rfl⟩⟩
      -- any other rule has to wait for its productions
      · rename_i hstructure
        simp only [bind_run_ok, modify_run_ok, pure_run_ok, addSymbol_run_ok] at h
        obtain ⟨_, _, rfl, _, _, ⟨rfl, rfl⟩, _, _, ⟨-, rfl, rfl⟩, _, _, rfl, rfl, rfl⟩ := h
        have hname : g.isTokenRule start name = false := by
          rw [hkind]
          simpa using hstructure
        exact .inr ⟨hnone, rfl, rule, _, hrule, .inr ⟨hname, rfl, rfl⟩⟩

/-- A token without a rule has a number of its own. -/
theorem keyed_anonymousToken {owner : String} {rule : Rule} {i : Nat} (hs : s.Keyed g start)
    (h : (anonymousToken g owner rule).run s = .ok (i, s')) :
    s'.Keyed g start ∧ Extends g start s s' ∧ ∃ token, g.token owner rule = .ok token ∧
      s'.anonymous.lookup (token.pattern, token.immediate) = some i := by
  obtain ⟨hsound, hgrows, -⟩ := sound_anonymousToken hs.sound h
  obtain ⟨token, htoken, ⟨hi, rfl⟩ | ⟨hnone, rfl, info, hterminal, hinfo, rfl⟩⟩ :=
    anonymousToken_cases h
  · exact ⟨hs, .refl _, token, htoken, hi⟩
  · refine ⟨⟨hsound, ?_, fun key i hi => ?_, hs.rules, fun name i hi hname => ?_,
      fun name i hi hname => ?_, hs.nodup, hs.waiting⟩,
      ⟨hgrows, fun key i hi => ?_, fun _ _ _ => Iff.rfl, fun _ hn => hn, fun _ hn => .inl hn,
        fun _ _ hi => .inl hi, Nat.le_refl _⟩, token, htoken, List.lookup_cons_self⟩
    -- the new number is larger than all others, so it stands for one terminal
    · refine hs.injective_of_new (.anonymous token.pattern token.immediate) fun t i hi => ?_
      cases t with
      | rule name => exact .inr hi
      | anonymous pattern immediate =>
        obtain ⟨heq, rfl⟩ | hi := lookup_cons_cases hi
        · cases heq
          exact .inl ⟨rfl, rfl⟩
        · exact .inr hi
    · obtain ⟨rfl, rfl⟩ | hi := lookup_cons_cases hi
      · exact tokenAt_push (s := s) rfl hterminal hinfo
      · exact (hs.anonymous key i hi).push info
    · obtain ⟨rule, token, hrule, htoken, hat⟩ := hs.lexical name i hi hname
      exact ⟨rule, token, hrule, htoken, hat.push info⟩
    · exact (hgrows.terminal i (hs.sound.rules name i hi).2).trans (hs.structured name i hi hname)
    -- the key is new, so it hides no other
    · have hne : (key == (token.pattern, token.immediate)) = false := by
        rw [beq_eq_false_iff_ne]
        rintro rfl
        rw [hnone] at hi
        cases hi
      rw [List.lookup_cons, hne]
      exact hi

/-- A rule is given the next number. -/
theorem keyed_addRule {name : String} {rule : Rule} {info : FlatSymbol} (hs : s.Keyed g start)
    (hsound : Sound { s with
      symbols := s.symbols.push info
      rules := (name, s.symbols.size) :: s.rules })
    (hrule : g.rule? name = some rule)
    (hlexical : g.isTokenRule start name = true → info.terminal = true ∧
      ∃ token, g.token name rule = .ok token ∧ info.token = some token)
    (hstructured : g.isTokenRule start name = false → info.terminal = false) :
    Keyed g start { s with
      symbols := s.symbols.push info
      rules := (name, s.symbols.size) :: s.rules } := by
  constructor
  case sound => exact hsound
  case injective =>
    refine hs.injective_of_new (.rule name) fun t i hi => ?_
    cases t with
    | rule other =>
      obtain ⟨rfl, rfl⟩ | hi := lookup_cons_cases hi
      · exact .inl ⟨rfl, rfl⟩
      · exact .inr hi
    | anonymous => exact .inr hi
  case anonymous => exact fun key i hi => (hs.anonymous key i hi).push info
  case rules =>
    intro other i hi
    obtain ⟨rfl, -⟩ | hi := lookup_cons_cases hi
    · exact ⟨rule, hrule⟩
    · exact hs.rules other i hi
  case lexical =>
    intro other i hi hother
    obtain ⟨rfl, rfl⟩ | hi := lookup_cons_cases hi
    · obtain ⟨hterminal, token, htoken, hinfo⟩ := hlexical hother
      exact ⟨rule, token, hrule, htoken, tokenAt_push (s := s) rfl hterminal hinfo⟩
    · obtain ⟨rule, token, hrule, htoken, hat⟩ := hs.lexical other i hi hother
      exact ⟨rule, token, hrule, htoken, hat.push info⟩
  -- the symbols that were there stay where they are
  case structured =>
    intro other i hi hother
    obtain ⟨rfl, rfl⟩ | hi := lookup_cons_cases hi
    · simp [isTerminal, hstructured hother]
    · have hlt := (hs.sound.rules other i hi).2
      rw [← hs.structured other i hi hother, isTerminal, isTerminal, Array.getElem?_push_lt hlt,
        ← Array.getElem?_eq_getElem]
  case nodup => exact hs.nodup
  case waiting =>
    intro other hother
    obtain ⟨hkind, i, hi, hrows⟩ := hs.waiting other hother
    refine ⟨hkind, ?_⟩
    -- the name may be one that waits, and then its new number has no rows
    cases heq : other == name with
    | false =>
      refine ⟨i, ?_, hrows⟩
      rw [List.lookup_cons, heq]
      exact hi
    | true =>
      rw [List.lookup_cons, heq]
      exact ⟨s.symbols.size, rfl, fun row hrow => absurd (hs.lt_of_hasRow hrow) (Nat.lt_irrefl _)⟩

/-- A rule begins to wait. -/
theorem keyed_addWaiting {name : String} {i : Nat} (hs : s.Keyed g start)
    (hsound : Sound { s with pending := s.pending ++ [name] })
    (hname : g.isTokenRule start name = false) (hi : s.rules.lookup name = some i)
    (hrows : ∀ row, ¬s.HasRow i row) (hnew : name ∉ s.pending) :
    Keyed g start { s with pending := s.pending ++ [name] } := by
  refine ⟨hsound, hs.injective, hs.anonymous, hs.rules, hs.lexical, hs.structured, ?_,
    fun other hother => ?_⟩
  -- the name did not wait before
  · refine List.nodup_append.mpr ⟨hs.nodup, by simp, fun a ha b hb => ?_⟩
    rw [List.mem_singleton.mp hb]
    exact fun heq => hnew (heq ▸ ha)
  · obtain hother | hother := List.mem_append.mp hother
    · exact hs.waiting other hother
    · rw [List.mem_singleton.mp hother]
      exact ⟨hname, i, hi, hrows⟩

/-- A rule has a number of its own. -/
theorem keyed_ruleSymbol {referrer name : String} {i : Nat} (hs : s.Keyed g start)
    (h : (ruleSymbol g start referrer name).run s = .ok (i, s')) :
    s'.Keyed g start ∧ Extends g start s s' ∧ s'.rules.lookup name = some i := by
  obtain ⟨hsound, hgrows, -⟩ := sound_ruleSymbol hs.sound h
  obtain ⟨hi, rfl⟩ | ⟨hnone, rfl, rule, info, hrule, hkind⟩ := ruleSymbol_cases h
  · exact ⟨hs, .refl _, hi⟩
  have hload := length_unmet_cons (i := s.symbols.size) hnone hrule
  obtain ⟨hname, hterminal, htoken, rfl⟩ | ⟨hname, hterminal, rfl⟩ := hkind
  -- a token rule needs no productions
  · refine ⟨keyed_addRule hs hsound hrule (fun _ => ⟨hterminal, htoken⟩) (fun h => ?_),
      ⟨hgrows, fun _ _ hi => hi, fun _ _ _ => Iff.rfl, fun _ hn => hn, fun _ hn => .inl hn,
        fun other i hi => ?_, ?_⟩, List.lookup_cons_self⟩
    · rw [hname] at h
      cases h
    · obtain ⟨rfl, rfl⟩ | hi := lookup_cons_cases hi
      · exact .inr ⟨Nat.le_refl _, fun h => by rw [hname] at h; cases h⟩
      · exact .inl hi
    · exact Nat.add_le_add_left (Nat.le_of_lt hload) _
  · -- a structured rule has no rows yet, so it waits for them
    have hnew : name ∉ s.pending := fun hmem => by
      obtain ⟨-, j, hj, -⟩ := hs.waiting name hmem
      rw [hnone] at hj
      cases hj
    have hsound₁ : Sound { s with
        symbols := s.symbols.push info
        rules := (name, s.symbols.size) :: s.rules } :=
      ⟨hsound.symbols_le, hsound.fields_le, hsound.proper, hsound.nodup, hsound.builtIn,
        hsound.rules, hsound.anonymous,
        fun other ho => hsound.pending other (List.mem_append_left _ ho), hsound.lhs, hsound.parts⟩
    have hs₁ := keyed_addRule hs hsound₁ hrule (fun h => by rw [hname] at h; cases h)
      (fun _ => hterminal)
    refine ⟨keyed_addWaiting hs₁ hsound hname List.lookup_cons_self
      (fun row hrow => absurd (hs.lt_of_hasRow hrow) (Nat.lt_irrefl _)) hnew,
      ⟨hgrows, fun _ _ hi => hi, fun _ _ _ => Iff.rfl, fun _ hn => List.mem_append_left _ hn,
        fun other hother => ?_, fun other i hi => ?_, ?_⟩, List.lookup_cons_self⟩
    · obtain hother | hother := List.mem_append.mp hother
      · exact .inl hother
      · rw [List.mem_singleton.mp hother]
        exact .inr hnone
    · obtain ⟨rfl, rfl⟩ | hi := lookup_cons_cases hi
      · exact .inr ⟨Nat.le_refl _, fun _ => List.mem_append_right _ (List.mem_singleton_self _)⟩
      · exact .inl hi
    · change (s.pending ++ [name]).length + (unmet g { s with
        rules := (name, s.symbols.size) :: s.rules }).length ≤ _
      rw [List.length_append, List.length_singleton]
      omega

/-! ## Fields and lists -/

/-- Other data changes only. -/
theorem keyed_of_eq (hs : s.Keyed g start) (hsound : s'.Sound) (hsymbols : s'.symbols = s.symbols)
    (hproductions : s'.productions = s.productions) (hrules : s'.rules = s.rules)
    (hanonymous : s'.anonymous = s.anonymous) (hpending : s'.pending = s.pending) :
    s'.Keyed g start := by
  obtain ⟨symbols, productions, fields, rules, anonymous, pending, repetitions⟩ := s'
  cases hsymbols
  cases hproductions
  cases hrules
  cases hanonymous
  cases hpending
  exact ⟨hsound, hs.injective, hs.anonymous, hs.rules, hs.lexical, hs.structured, hs.nodup,
    hs.waiting⟩

theorem keyed_field {name : String} {i : Nat} (hs : s.Keyed g start)
    (h : (field name).run s = .ok (i, s')) : s'.Keyed g start ∧ Extends g start s s' := by
  obtain ⟨hsound, hgrows, -⟩ := sound_field hs.sound h
  -- only the fields change
  obtain ⟨fields, rfl⟩ : ∃ fields, s' = { s with fields := fields } := by
    unfold field at h
    simp only [bind_run_ok, get_run_ok, guard_run_ok] at h
    obtain ⟨_, _, ⟨rfl, rfl⟩, -, h⟩ := h
    split at h
    · simp only [bind_run_ok, set_run_ok, pure_run_ok] at h
      obtain ⟨_, _, rfl, -, rfl⟩ := h
      exact ⟨_, rfl⟩
    · obtain ⟨-, rfl⟩ := pure_run_ok.mp h
      exact ⟨s.fields, rfl⟩
  exact ⟨keyed_of_eq hs hsound rfl rfl rfl rfl rfl, hgrows, fun _ _ hi => hi, fun _ _ _ => Iff.rfl,
    fun _ hn => hn, fun _ hn => .inl hn, fun _ _ hi => .inl hi, Nat.le_refl _⟩

/-- A list is given the next number, and productions. -/
theorem keyed_addList {info : FlatSymbol} {qs : List FlatProduction}
    {repetitions : List (String × Nat)} (hs : s.Keyed g start)
    (hs' : s' = { s with
      symbols := s.symbols.push info
      productions := s.productions ++ qs.toArray
      repetitions := repetitions })
    (hsound : s'.Sound) (hgrows : s.Grows s') (hlhs : ∀ q ∈ qs, q.lhs = s.symbols.size) :
    s'.Keyed g start ∧ Extends g start s s' ∧
      ∀ row, s'.HasRow s.symbols.size row ↔ ∃ q ∈ qs, q.rhs = row := by
  -- all new productions belong to the new symbol
  have hrow : ∀ i row, s'.HasRow i row ↔
      s.HasRow i row ∨ (i = s.symbols.size ∧ ∃ q ∈ qs, q.rhs = row) := fun i row => by
    subst hs'
    unfold HasRow
    simp only [Array.mem_append, List.mem_toArray, or_and_right, exists_or]
    refine or_congr Iff.rfl ⟨?_, ?_⟩
    · rintro ⟨q, hq, rfl, rfl⟩
      exact ⟨hlhs q hq, q, hq, rfl⟩
    · rintro ⟨rfl, q, hq, rfl⟩
      exact ⟨q, hq, hlhs q hq, rfl⟩
  -- so the rows of the old ones stay
  have hkept : ∀ i < s.symbols.size, ∀ row, s'.HasRow i row ↔ s.HasRow i row := fun i hi row => by
    rw [hrow]
    exact or_iff_left fun h => Nat.ne_of_lt hi h.1
  subst hs'
  refine ⟨⟨hsound, hs.injective, fun key i hi => (hs.anonymous key i hi).push info, hs.rules,
    fun name i hi hname => ?_, fun name i hi hname => ?_, hs.nodup, fun name hname => ?_⟩,
    ⟨hgrows, fun _ _ hi => hi, hkept, fun _ hn => hn, fun _ hn => .inl hn, fun _ _ hi => .inl hi,
      Nat.le_refl _⟩, fun row => ?_⟩
  · obtain ⟨rule, token, hrule, htoken, hat⟩ := hs.lexical name i hi hname
    exact ⟨rule, token, hrule, htoken, hat.push info⟩
  · exact (hgrows.terminal i (hs.sound.rules name i hi).2).trans (hs.structured name i hi hname)
  · obtain ⟨hkind, i, hi, hnone⟩ := hs.waiting name hname
    exact ⟨hkind, i, hi, fun row h => hnone row ((hkept i (hs.sound.rules name i hi).2 row).mp h)⟩
  · rw [hrow, or_iff_right fun h => Nat.lt_irrefl _ (hs.lt_of_hasRow h), and_iff_right rfl]

end Flatten

end IncrementalParsing
