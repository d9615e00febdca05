import IncrementalParsing.Grammar.Flattening
import IncrementalParsing.Proofs.Except

/-!
# What flattening gives

While a grammar is flattened, symbols are only added, and every number that is used names one of them.
The two built-in symbols stand for nothing that a rule can mention, and only rules have productions.

## Key results

- `Flattening.Sound`: what holds of a flat grammar in the making
- `expands_expand`: the alternatives of a rule consist of symbols that there are
- `Grammar.sound_flatten`: what holds of a flat grammar
-/

namespace IncrementalParsing

/-! ## Tokens -/

/-- What holds of every token: it has a terminal and a pattern, and its precedence fits 16 bits. -/
def FlatSymbol.Proper (s : FlatSymbol) : Prop :=
  ∀ token, s.token = some token → s.terminal = true ∧ token.pattern.isEmpty = false ∧
    -32768 ≤ token.precedence ∧ token.precedence ≤ 32767

/-- A symbol without a token is proper, as nothing is asked of it. -/
theorem FlatSymbol.proper_of_none {s : FlatSymbol} (h : s.token = none) : s.Proper :=
  fun token ht => by simp [h] at ht

/-- The text without characters is matched by an empty pattern, which no token may have. -/
theorem Grammar.checkPattern_ne_empty {owner pattern : String} {u : Unit}
    (h : checkPattern owner pattern = .ok u) : pattern.isEmpty = false := by
  refine Bool.eq_false_iff.mpr fun hempty => ?_
  rw [String.isEmpty_iff.mp hempty] at h
  have hlength : ((Pattern.parse? "").bind Pattern.expression?).map (·.minLength == some 0) =
      some true := by decide
  obtain ⟨e, he, hzero⟩ := Option.map_eq_some_iff.mp hlength
  rw [checkPattern, he] at h
  simp [hzero] at h

/-- The token that is made of a rule is proper: its pattern has been checked, and its precedence is cut
to 16 bits. -/
theorem Grammar.proper_token {g : Grammar} {owner : String} {rule : Rule} {token : TokenRule}
    (h : g.token owner rule = .ok token) (name : String) (named visible extra : Bool) :
    FlatSymbol.Proper ⟨name, some token, true, named, visible, extra⟩ := by
  unfold Grammar.token at h
  simp only [Except.bind_eq_ok, Except.pure_eq_ok] at h
  obtain ⟨_, -, _, -, pattern, -, _, hcheck, rfl⟩ := h
  intro token ht
  cases ht
  refine ⟨rfl, checkPattern_ne_empty hcheck, ?_, ?_⟩
  · exact Int.le_max_left _ _
  · exact Int.max_le.mpr ⟨by decide, Int.min_le_right _ _⟩

/-- A number names the terminal of a pattern. -/
def TokenAt (symbols : Array FlatSymbol) (pattern : String) (immediate : Bool) (i : Nat) : Prop :=
  ∃ info token, symbols[i]? = some info ∧ info.terminal = true ∧ info.token = some token ∧
    token.pattern = pattern ∧ token.immediate = immediate

namespace Flattening

/-- Whether a number names a terminal. -/
def isTerminal (s : Flattening) (i : Nat) : Bool := (s.symbols[i]?).any (·.terminal)

/-- A symbol that rules can mention: one that there is, but none of the built-in ones. -/
def Names (s : Flattening) (i : Nat) : Prop := 2 ≤ i ∧ i < s.symbols.size

/-- A rule's symbol, which is no terminal. -/
def NamesRule (s : Flattening) (i : Nat) : Prop := s.Names i ∧ s.isTerminal i = false

/-- A field, which count from one. -/
def NamesField (s : Flattening) (field : Nat) : Prop := 0 < field ∧ field ≤ s.fields.size

/-- The symbols of parts are all there, and so are their fields. -/
def Holds (s : Flattening) (parts : List (Nat × Option Nat)) : Prop :=
  ∀ part ∈ parts, s.Names part.1 ∧ ∀ field ∈ part.2, s.NamesField field

/-- What holds of a flat grammar in the making. -/
structure Sound (s : Flattening) : Prop where
  symbols_le : s.symbols.size ≤ Flatten.maxCount
  fields_le : s.fields.size ≤ Flatten.maxCount
  proper : ∀ symbol ∈ s.symbols, symbol.Proper
  nodup : s.fields.toList.Nodup
  builtIn : ∀ i < 2, ∃ info, s.symbols[i]? = some info ∧ info.terminal = true ∧
    info.token = none ∧ info.extra = false
  rules : ∀ name i, s.rules.lookup name = some i → s.Names i
  anonymous : ∀ key i, s.anonymous.lookup key = some i → s.Names i
  pending : ∀ name ∈ s.pending, ∃ i, s.rules.lookup name = some i ∧ s.NamesRule i
  lhs : ∀ q ∈ s.productions, s.NamesRule q.lhs
  parts : ∀ q ∈ s.productions, s.Holds q.parts

/-- Symbols are only added, and what they are named for stays. -/
structure Grows (s s' : Flattening) : Prop where
  size_le : s.symbols.size ≤ s'.symbols.size
  terminal : ∀ i < s.symbols.size, s'.isTerminal i = s.isTerminal i
  rules : ∀ name i, s.rules.lookup name = some i → s'.rules.lookup name = some i
  fields_le : s.fields.size ≤ s'.fields.size

/-- A grammar in the making grows into itself. -/
theorem Grows.refl (s : Flattening) : s.Grows s :=
  ⟨Nat.le_refl _, fun _ _ => rfl, fun _ _ h => h, Nat.le_refl _⟩

/-- What grows twice has grown. -/
theorem Grows.trans {a b c : Flattening} (h : a.Grows b) (h' : b.Grows c) : a.Grows c where
  size_le := Nat.le_trans h.size_le h'.size_le
  terminal := fun i hi => (h'.terminal i (Nat.lt_of_lt_of_le hi h.size_le)).trans (h.terminal i hi)
  rules := fun name i hi => h'.rules name i (h.rules name i hi)
  fields_le := Nat.le_trans h.fields_le h'.fields_le

/-- A symbol that is named stays named, -/
theorem Names.grows {s s' : Flattening} {i : Nat} (h : s.Names i) (hg : s.Grows s') : s'.Names i :=
  ⟨h.1, Nat.lt_of_lt_of_le h.2 hg.size_le⟩

/-- a rule stays a rule, -/
theorem NamesRule.grows {s s' : Flattening} {i : Nat} (h : s.NamesRule i) (hg : s.Grows s') :
    s'.NamesRule i :=
  ⟨h.1.grows hg, (hg.terminal i h.1.2).trans h.2⟩

/-- and parts whose symbols are all there still have them. -/
theorem Holds.grows {s s' : Flattening} {parts : List (Nat × Option Nat)} (h : s.Holds parts)
    (hg : s.Grows s') : s'.Holds parts := fun part hp =>
  ⟨(h part hp).1.grows hg, fun field hf =>
    ⟨((h part hp).2 field hf).1, Nat.le_trans ((h part hp).2 field hf).2 hg.fields_le⟩⟩

/-- An alternative without parts has all its symbols. -/
theorem holds_empty (s : Flattening) : s.Holds Alternative.empty.parts := fun _ h => by cases h

/-- An alternative of one symbol has it. -/
theorem holds_single {s : Flattening} {i : Nat} (h : s.Names i) :
    s.Holds (Alternative.single i).parts := by
  intro part hp
  rw [List.mem_singleton.mp hp]
  exact ⟨h, fun field hf => by cases hf⟩

/-- Two alternatives one after the other have their symbols if both do. -/
theorem holds_append {s : Flattening} {a b : Alternative} (ha : s.Holds a.parts)
    (hb : s.Holds b.parts) : s.Holds (a.append b).parts := fun part hp =>
  (List.mem_append.mp hp).elim (ha part) (hb part)

/-- Giving the parts a field does not change their symbols. -/
theorem holds_withField {s : Flattening} {a : Alternative} (ha : s.Holds a.parts) {field : Nat}
    (hfield : s.NamesField field) : s.Holds (a.withField field).parts := by
  intro part hp
  obtain ⟨p, hmem, rfl⟩ := List.mem_map.mp hp
  refine ⟨(ha p hmem).1, fun other ho => ?_⟩
  -- a part that has a field keeps it
  cases hown : p.2 with
  | none =>
    simp only [hown, Option.none_or, Option.mem_some_iff] at ho
    exact ho ▸ hfield
  | some own =>
    simp only [hown, Option.some_or, Option.mem_some_iff] at ho
    exact (ha p hmem).2 other (by rw [hown, ho]; rfl)

/-! ## Steps that change one thing -/

/-- What is kept when symbols stay as they are. -/
theorem Grows.of_eq {s s' : Flattening} (hsymbols : s'.symbols = s.symbols)
    (hrules : s'.rules = s.rules) (hfields : s'.fields = s.fields) : s.Grows s' where
  size_le := Nat.le_of_eq (by rw [hsymbols])
  terminal := fun i _ => by rw [isTerminal, isTerminal, hsymbols]
  rules := fun name i h => by rwa [hrules]
  fields_le := Nat.le_of_eq (by rw [hfields])

/-- A symbol is added. -/
theorem Sound.push {s : Flattening} (hs : s.Sound) (symbol : FlatSymbol) (hproper : symbol.Proper)
    (hlt : ¬Flatten.maxCount ≤ s.symbols.size) :
    Sound { s with symbols := s.symbols.push symbol } ∧
      s.Grows { s with symbols := s.symbols.push symbol } ∧
      Names { s with symbols := s.symbols.push symbol } s.symbols.size ∧
      isTerminal { s with symbols := s.symbols.push symbol } s.symbols.size = symbol.terminal := by
  have htwo : 2 ≤ s.symbols.size := by
    obtain ⟨info, hinfo, -⟩ := hs.builtIn 1 (by omega)
    exact (Array.getElem?_eq_some_iff.mp hinfo).1
  -- symbols keep their numbers, since the new one is pushed behind them
  have hg : s.Grows { s with symbols := s.symbols.push symbol } := by
    refine ⟨by simp, fun i hi => ?_, fun _ _ h => h, Nat.le_refl _⟩
    unfold isTerminal
    rw [Array.getElem?_push_lt hi, Array.getElem?_eq_getElem hi]
  refine ⟨⟨?_, hs.fields_le, fun info h => ?_, hs.nodup, fun i hi => ?_,
    fun name i h => (hs.rules name i h).grows hg,
    fun key i h => (hs.anonymous key i h).grows hg, fun name h => ?_,
    fun q h => (hs.lhs q h).grows hg, fun q h => (hs.parts q h).grows hg⟩, hg, ?_, ?_⟩
  · simp only [Array.size_push]
    omega
  · obtain h | rfl := Array.mem_push.mp h
    · exact hs.proper info h
    · exact hproper
  · obtain ⟨info, hinfo, h⟩ := hs.builtIn i hi
    exact ⟨info, by rwa [Array.getElem?_push_lt (by omega), ← Array.getElem?_eq_getElem], h⟩
  · obtain ⟨i, hi, hn⟩ := hs.pending name h
    exact ⟨i, hi, hn.grows hg⟩
  · exact ⟨htwo, by simp⟩
  · simp [isTerminal]

/-- A production is added. -/
theorem Sound.addProduction {s : Flattening} (hs : s.Sound) {q : FlatProduction}
    (hlhs : s.NamesRule q.lhs) (hparts : s.Holds q.parts) :
    Sound { s with productions := s.productions.push q } where
  symbols_le := hs.symbols_le
  fields_le := hs.fields_le
  proper := hs.proper
  nodup := hs.nodup
  builtIn := hs.builtIn
  rules := hs.rules
  anonymous := hs.anonymous
  pending := hs.pending
  -- only the production that is new has to be looked at
  lhs := fun r hr => by
    obtain hr | rfl := Array.mem_push.mp hr
    · exact hs.lhs r hr
    · exact hlhs
  parts := fun r hr => by
    obtain hr | rfl := Array.mem_push.mp hr
    · exact hs.parts r hr
    · exact hparts

/-- A rule is given a symbol. -/
theorem Sound.addRule {s : Flattening} (hs : s.Sound) {name : String} {i : Nat}
    (hnone : s.rules.lookup name = none) (hi : s.Names i) :
    Sound { s with rules := (name, i) :: s.rules } ∧
      s.Grows { s with rules := (name, i) :: s.rules } := by
  -- `name` is new, so it hides no other rule
  have hkeeps : ∀ other j, s.rules.lookup other = some j →
      ((name, i) :: s.rules).lookup other = some j := by
    intro other j hj
    have hne : (other == name) = false := by
      rw [beq_eq_false_iff_ne]
      rintro rfl
      rw [hnone] at hj
      cases hj
    rw [List.lookup_cons, hne]
    exact hj
  refine ⟨⟨hs.symbols_le, hs.fields_le, hs.proper, hs.nodup, hs.builtIn, fun other j h => ?_,
    hs.anonymous, fun other h => ?_, hs.lhs, hs.parts⟩,
    ⟨Nat.le_refl _, fun _ _ => rfl, hkeeps, Nat.le_refl _⟩⟩
  · rw [List.lookup_cons] at h
    split at h
    · cases h
      exact hi
    · exact hs.rules other j h
  · obtain ⟨j, hj, hn⟩ := hs.pending other h
    exact ⟨j, hkeeps other j hj, hn⟩

/-- A rule waits for its productions. -/
theorem Sound.addPending {s : Flattening} (hs : s.Sound) (name : String) {i : Nat}
    (hname : s.rules.lookup name = some i) (hi : s.NamesRule i) :
    Sound { s with pending := s.pending ++ [name] } where
  symbols_le := hs.symbols_le
  fields_le := hs.fields_le
  proper := hs.proper
  nodup := hs.nodup
  builtIn := hs.builtIn
  rules := hs.rules
  anonymous := hs.anonymous
  -- a name that waits has a number
  pending := fun other h => by
    obtain h | h := List.mem_append.mp h
    · exact hs.pending other h
    · rw [List.mem_singleton.mp h]
      exact ⟨i, hname, hi⟩
  lhs := hs.lhs
  parts := hs.parts

/-- A token without a rule is given a symbol. -/
theorem Sound.addAnonymous {s : Flattening} (hs : s.Sound) {key : String × Bool} {i : Nat}
    (hi : s.Names i) : Sound { s with anonymous := (key, i) :: s.anonymous } where
  symbols_le := hs.symbols_le
  fields_le := hs.fields_le
  proper := hs.proper
  nodup := hs.nodup
  builtIn := hs.builtIn
  rules := hs.rules
  anonymous := fun other j h => by
    rw [List.lookup_cons] at h
    split at h
    · cases h
      exact hi
    · exact hs.anonymous other j h
  pending := hs.pending
  lhs := hs.lhs
  parts := hs.parts

end Flattening

namespace Flatten

open Flattening StateT

/-! ## Symbols -/

/-- `addSymbol` gives the next free number, unless there are too many symbols. -/
theorem addSymbol_run_ok {symbol : FlatSymbol} {s s' : Flattening} {i : Nat} :
    (addSymbol symbol).run s = .ok (i, s') ↔ ¬maxCount ≤ s.symbols.size ∧ i = s.symbols.size ∧
      s' = { s with symbols := s.symbols.push symbol } := by
  unfold addSymbol
  simp only [bind_run_ok, get_run_ok, guard_run_ok, set_run_ok, pure_run_ok]
  constructor
  · rintro ⟨_, _, ⟨rfl, rfl⟩, hlt, _, _, rfl, rfl, rfl⟩
    exact ⟨hlt, rfl, rfl⟩
  · rintro ⟨hlt, rfl, rfl⟩
    exact ⟨s, s, ⟨rfl, rfl⟩, hlt, PUnit.unit, _, rfl, rfl, rfl⟩

/-- A token that is added is found at the number it gets. -/
theorem tokenAt_push {s s' : Flattening} {info : FlatSymbol} {token : TokenRule}
    (hsymbols : s'.symbols = s.symbols.push info) (hterminal : info.terminal = true)
    (htoken : info.token = some token) :
    TokenAt s'.symbols token.pattern token.immediate s.symbols.size :=
  ⟨info, token, by simp [hsymbols], hterminal, htoken, rfl, rfl⟩

/-- The symbol of a token without a rule. -/
theorem sound_anonymousToken {g : Grammar} {owner : String} {rule : Rule} {s s' : Flattening} {i : Nat}
    (hs : s.Sound) (h : (anonymousToken g owner rule).run s = .ok (i, s')) :
    s'.Sound ∧ s.Grows s' ∧ s'.Names i := by
  unfold anonymousToken at h
  simp only [bind_run_ok, get_run_ok] at h
  obtain ⟨token, s₁, htoken, _, _, ⟨rfl, rfl⟩, h⟩ := h
  obtain ⟨hdescribes, rfl⟩ := lift_run_ok.mp htoken
  split at h
  -- the token has been met before
  · rename_i symbol hsymbol
    obtain ⟨rfl, rfl⟩ := pure_run_ok.mp h
    exact ⟨hs, .refl _, hs.anonymous _ _ hsymbol⟩
  · simp only [bind_run_ok, modify_run_ok, pure_run_ok, addSymbol_run_ok] at h
    obtain ⟨_, _, ⟨hlt, rfl, rfl⟩, _, _, rfl, rfl, rfl⟩ := h
    obtain ⟨hpush, hgrows, hnames, -⟩ := hs.push _ (Grammar.proper_token hdescribes _ _ _ _) hlt
    exact ⟨hpush.addAnonymous hnames, hgrows.trans (.of_eq rfl rfl rfl), hnames⟩

/-- The symbol of a rule, which is no terminal if it is the start rule. -/
theorem sound_ruleSymbol {g : Grammar} {start referrer name : String} {s s' : Flattening} {i : Nat}
    (hs : s.Sound) (h : (ruleSymbol g start referrer name).run s = .ok (i, s')) :
    s'.Sound ∧ s.Grows s' ∧ s'.Names i ∧
      (s.rules.lookup name = none → name = start → s'.NamesRule i) := by
  unfold ruleSymbol at h
  simp only [bind_run_ok, get_run_ok] at h
  obtain ⟨_, _, ⟨rfl, rfl⟩, h⟩ := h
  split at h
  -- the name has been met before
  · rename_i symbol hsymbol
    obtain ⟨rfl, rfl⟩ := pure_run_ok.mp h
    exact ⟨hs, .refl _, hs.rules _ _ hsymbol, fun hnone => by simp [hnone] at hsymbol⟩
  · rename_i hnone
    split at h
    · exact (throw_run_ok.mp h).elim
    · rename_i rule hrule
      split at h
      -- a token rule is lowered to a terminal of its own
      · rename_i hlexical
        simp only [bind_run_ok, modify_run_ok, pure_run_ok, addSymbol_run_ok] at h
        obtain ⟨token, s₁, htoken, _, _, ⟨rfl, rfl⟩, _, _, ⟨hlt, rfl, rfl⟩, _, _, rfl, rfl, rfl⟩ := h
        obtain ⟨hdescribes, rfl⟩ := lift_run_ok.mp htoken
        obtain ⟨hpush, hgrows, hnames, -⟩ := hs.push _ (Grammar.proper_token hdescribes _ _ _ _) hlt
        obtain ⟨hrules, hgrows'⟩ := hpush.addRule hnone hnames
        refine ⟨hrules, hgrows.trans hgrows', hnames, fun _ heq => ?_⟩
        simp [heq] at hlexical
      · simp only [bind_run_ok, modify_run_ok, pure_run_ok, addSymbol_run_ok] at h
        obtain ⟨_, _, rfl, _, _, ⟨rfl, rfl⟩, _, _, ⟨hlt, rfl, rfl⟩, _, _, rfl, rfl, rfl⟩ := h
        obtain ⟨hpush, hgrows, hnames, hterminal⟩ :=
          hs.push ⟨name, none, false, true, !g.isHidden name, false⟩
            (FlatSymbol.proper_of_none rfl) hlt
        obtain ⟨hrules, hgrows'⟩ := hpush.addRule hnone hnames
        -- any other rule waits among those that are pending
        have hrule := NamesRule.grows ⟨hnames, hterminal⟩ hgrows'
        have hpending := hrules.addPending name List.lookup_cons_self hrule
        exact ⟨hpending, (hgrows.trans hgrows').trans (.of_eq rfl rfl rfl), hnames, fun _ _ => hrule⟩

/-- A new symbol for a repetition is no terminal. -/
theorem sound_repetitionSymbol {owner : String} {s s' : Flattening} {i : Nat} (hs : s.Sound)
    (h : (repetitionSymbol owner).run s = .ok (i, s')) :
    s'.Sound ∧ s.Grows s' ∧ s'.NamesRule i := by
  unfold repetitionSymbol at h
  simp only [bind_run_ok, get_run_ok, modify_run_ok, addSymbol_run_ok] at h
  obtain ⟨_, _, ⟨rfl, rfl⟩, _, _, rfl, hlt, rfl, rfl⟩ := h
  -- a repetition is a rule of its own, hidden and without a token
  obtain ⟨hpush, hgrows, hnames, hterminal⟩ :=
    hs.push ⟨s!"{owner}_repeat{(s.repetitions.lookup owner).getD 0 + 1}", none, false, false, false,
      false⟩ (FlatSymbol.proper_of_none rfl) hlt
  exact ⟨⟨hpush.symbols_le, hpush.fields_le, hpush.proper, hpush.nodup, hpush.builtIn, hpush.rules,
    hpush.anonymous, hpush.pending, hpush.lhs, hpush.parts⟩, hgrows.trans (.of_eq rfl rfl rfl), hnames,
      hterminal⟩

/-- A field that is met first is new. -/
theorem sound_field {name : String} {s s' : Flattening} {i : Nat} (hs : s.Sound)
    (h : (field name).run s = .ok (i, s')) : s'.Sound ∧ s.Grows s' ∧ s'.NamesField i := by
  unfold field at h
  simp only [bind_run_ok, get_run_ok, guard_run_ok] at h
  obtain ⟨_, _, ⟨rfl, rfl⟩, hlt, h⟩ := h
  split at h
  · rename_i hsize
    simp only [bind_run_ok, set_run_ok, pure_run_ok] at h
    obtain ⟨_, _, rfl, rfl, rfl⟩ := h
    have hg : s.Grows { s with fields := s.fields.push name } :=
      ⟨Nat.le_refl _, fun _ _ => rfl, fun _ _ h => h, by simp⟩
    -- `findIdx?` would have found the name if it were there
    have hnew : name ∉ s.fields.toList := by
      intro hmem
      obtain ⟨i, hi, hfound⟩ := List.getElem_of_mem hmem
      rw [Array.length_toList] at hi
      rw [Array.getElem_toList] at hfound
      have hsome : (s.fields.findIdx? (· == name)).isSome = true :=
        Array.findIdx?_isSome.trans (Array.any_eq_true.mpr ⟨i, hi, by simp [hfound]⟩)
      obtain ⟨j, hj⟩ := Option.isSome_iff_exists.mp hsome
      rw [hj, Option.getD_some] at hsize
      have := (Array.findIdx?_eq_some_iff_getElem.mp hj).1
      omega
    refine ⟨⟨hs.symbols_le, ?_, hs.proper, ?_, hs.builtIn, hs.rules, hs.anonymous, hs.pending,
      hs.lhs, fun q h => (hs.parts q h).grows hg⟩, hg, Nat.succ_pos _, ?_⟩
    · simp only [Array.size_push]
      omega
    · rw [Array.toList_push]
      refine List.nodup_append.mpr ⟨hs.nodup, by simp, fun a ha b hb => ?_⟩
      rw [List.mem_singleton.mp hb]
      exact fun heq => hnew (heq ▸ ha)
    · simp only [Array.size_push]
      omega
  -- the field has a number already
  · rename_i hsize
    simp only [pure_run_ok] at h
    obtain ⟨rfl, rfl⟩ := h
    refine ⟨hs, .refl _, Nat.succ_pos _, ?_⟩
    cases hfound : s.fields.findIdx? (· == name) with
    | none => simp [hfound] at hsize
    | some j =>
      rw [Option.getD_some]
      exact (Array.findIdx?_eq_some_iff_getElem.mp hfound).1

/-! ## Productions -/

/-- Checking a count changes nothing. -/
theorem checkCount_run_ok {n : Nat} {s s' : Flattening} {u : Unit}
    (h : (checkCount n).run s = .ok (u, s')) : s = s' := by
  unfold checkCount at h
  split at h
  · exact (throw_run_ok.mp h).elim
  · exact (pure_run_ok.mp h).2

/-- A production is added to a rule with parts that are there. -/
theorem sound_addProduction {lhs : Nat} {a : Alternative} {s s' : Flattening} {u : Unit}
    (hs : s.Sound) (hlhs : s.NamesRule lhs) (ha : s.Holds a.parts)
    (h : (addProduction lhs a).run s = .ok (u, s')) : s'.Sound ∧ s.Grows s' := by
  unfold addProduction at h
  rw [modify_run_ok] at h
  subst h
  exact ⟨hs.addProduction hlhs ha, .of_eq rfl rfl rfl⟩

/-- A repetition adds the productions of a list. -/
theorem sound_repetition {owner : String} {content alternatives : List Alternative}
    {s s' : Flattening} (hs : s.Sound) (hcontent : ∀ a ∈ content, s.Holds a.parts)
    (h : (repetition owner content).run s = .ok (alternatives, s')) :
    s'.Sound ∧ s.Grows s' ∧ ∀ a ∈ alternatives, s'.Holds a.parts := by
  unfold repetition at h
  dsimp only at h
  split at h
  -- all alternatives are empty, and nothing is left to repeat
  · obtain ⟨rfl, rfl⟩ := pure_run_ok.mp h
    refine ⟨hs, .refl _, fun a ha => ?_⟩
    rw [List.mem_singleton.mp ha]
    exact holds_empty _
  · rw [bind_run_ok] at h
    obtain ⟨list, s₁, hlist, h⟩ := h
    obtain ⟨hs₁, hg₁, hrule⟩ := sound_repetitionSymbol hs hlist
    simp only [bind_run_ok, pure_run_ok] at h
    obtain ⟨_, s₂, hloop, rfl, rfl⟩ := h
    -- for each alternative two productions are added, one behind the list and one alone
    have hkeeps : s₂.Sound ∧ s₁.Grows s₂ := by
      refine forIn_run_ok (P := fun r => r.Sound ∧ s₁.Grows r) (fun a ha r y r' hr hstep => ?_)
        ⟨hs₁, .refl _⟩ hloop
      simp only [bind_run_ok, pure_run_ok] at hstep
      obtain ⟨_, r₁, hfirst, _, r₂, hsecond, rfl, rfl⟩ := hstep
      have hg := hg₁.trans hr.2
      have ha' := hcontent a (List.mem_of_mem_filter ha)
      obtain ⟨hs₂, hg₂⟩ := sound_addProduction hr.1 (hrule.grows hr.2)
        (holds_append (holds_single (hrule.1.grows hr.2)) (ha'.grows hg)) hfirst
      obtain ⟨hs₃, hg₃⟩ := sound_addProduction hs₂ (hrule.grows (hr.2.trans hg₂))
        (ha'.grows (hg.trans hg₂)) hsecond
      exact ⟨rfl, hs₃, hr.2.trans (hg₂.trans hg₃)⟩
    refine ⟨hkeeps.1, hg₁.trans hkeeps.2, fun a ha => ?_⟩
    rw [List.mem_singleton.mp ha]
    exact holds_single (hrule.1.grows hkeeps.2)

/-! ## Alternatives -/

/-- What the alternatives that a computation gives are made of. -/
def Expands (x : Flatten (List Alternative)) : Prop :=
  ∀ s alternatives s', s.Sound → x.run s = .ok (alternatives, s') →
    s'.Sound ∧ s.Grows s' ∧ ∀ a ∈ alternatives, s'.Holds a.parts

/-- What gives a symbol that is named expands to an alternative of one part. -/
theorem expands_single {x : Flatten Nat}
    (hx : ∀ s i s', s.Sound → x.run s = .ok (i, s') → s'.Sound ∧ s.Grows s' ∧ s'.Names i) :
    Expands (do return [.single (← x)]) := by
  intro s alternatives s' hs h
  simp only [bind_run_ok, pure_run_ok] at h
  obtain ⟨i, s₁, hi, rfl, rfl⟩ := h
  obtain ⟨hs₁, hg, hn⟩ := hx s i s₁ hs hi
  refine ⟨hs₁, hg, fun a ha => ?_⟩
  rw [List.mem_singleton.mp ha]
  exact holds_single hn

/-- What is done with each of the alternatives keeps the symbols and fields. -/
theorem expands_map {x : Flatten (List Alternative)} (hx : Expands x) {f : Alternative → Alternative}
    {s s' : Flattening} {alternatives : List Alternative} (hs : s.Sound)
    (hf : ∀ (r : Flattening) a, s.Grows r → r.Holds a.parts → r.Holds (f a).parts)
    (h : ((do return (← x).map f) : Flatten (List Alternative)).run s = .ok (alternatives, s')) :
    s'.Sound ∧ s.Grows s' ∧ ∀ a ∈ alternatives, s'.Holds a.parts := by
  simp only [bind_run_ok, pure_run_ok] at h
  obtain ⟨as, s₁, has, rfl, rfl⟩ := h
  obtain ⟨hs₁, hg, hall⟩ := hx s as s₁ hs has
  refine ⟨hs₁, hg, fun a ha => ?_⟩
  obtain ⟨b, hb, rfl⟩ := List.mem_map.mp ha
  exact hf s₁ b hg (hall b hb)

/-- So does a token without a rule of its own. -/
theorem expands_anonymousToken (g : Grammar) (owner : String) (rule : Rule) :
    Expands (do return [.single (← anonymousToken g owner rule)]) :=
  expands_single fun _ _ _ hs h => sound_anonymousToken hs h

/-- Leaving out what is there already loses no alternative. -/
theorem mem_foldl_distinct {as out : List Alternative} {a : Alternative} :
    a ∈ as.foldl (fun out a => if out.contains a then out else a :: out) out ↔
      a ∈ as ∨ a ∈ out := by
  induction as generalizing out with
  | nil => simp
  | cons b rest ih =>
    rw [List.foldl_cons, ih]
    -- `b` is put in front only if it is not there yet
    by_cases hb : b ∈ out
    · simp only [List.contains_iff_mem, hb, if_true, List.mem_cons]
      constructor
      · rintro (h | h)
        · exact .inl (.inr h)
        · exact .inr h
      · rintro ((rfl | h) | h)
        · exact .inr hb
        · exact .inl h
        · exact .inr h
    · simp only [List.contains_iff_mem, hb, if_false, List.mem_cons]
      tauto

/-- `distinct` has the same alternatives. -/
theorem mem_distinct {as : List Alternative} {a : Alternative} :
    a ∈ Alternative.distinct as ↔ a ∈ as := by
  rw [Alternative.distinct, List.mem_reverse, mem_foldl_distinct]
  simp

mutual

/-- The alternatives of a rule consist of symbols that there are. -/
theorem expands_expand (g : Grammar) (start owner : String) :
    ∀ rule : Rule, Expands (expand g start owner rule)
  | .blank => by
    intro s alternatives s' hs h
    rw [expand, pure_run_ok] at h
    obtain ⟨rfl, rfl⟩ := h
    refine ⟨hs, .refl _, fun a ha => ?_⟩
    rw [List.mem_singleton.mp ha]
    exact holds_empty _
  | .string value => by
    rw [expand]
    exact expands_anonymousToken g owner _
  | .pattern value flags => by
    rw [expand]
    exact expands_anonymousToken g owner _
  | .token content => by
    rw [expand]
    exact expands_anonymousToken g owner _
  | .immediateToken content => by
    rw [expand]
    exact expands_anonymousToken g owner _
  | .symbol name => by
    rw [expand]
    exact expands_single fun s i s' hs h =>
      have h := sound_ruleSymbol hs h
      ⟨h.1, h.2.1, h.2.2.1⟩
  | .seq members => by
    intro s alternatives s' hs h
    rw [expand] at h
    refine expands_expandSeq g start owner members s [.empty] alternatives s' hs (fun a ha => ?_) h
    rw [List.mem_singleton.mp ha]
    exact holds_empty _
  -- counting the alternatives changes nothing, and `distinct` only drops some
  | .choice members => by
    intro s alternatives s' hs h
    rw [expand] at h
    simp only [bind_run_ok, pure_run_ok] at h
    obtain ⟨as, s₁, has, _, s₂, hcount, rfl, rfl⟩ := h
    obtain rfl := checkCount_run_ok hcount
    obtain ⟨hs₁, hg, hall⟩ := expands_expandChoice g start owner members s as s₁ hs has
    exact ⟨hs₁, hg, fun a ha => hall a (mem_distinct.mp ha)⟩
  | .zeroOrMore content => by
    intro s alternatives s' hs h
    rw [expand] at h
    simp only [bind_run_ok, pure_run_ok] at h
    obtain ⟨as, s₁, has, bs, s₂, hbs, rfl, rfl⟩ := h
    obtain ⟨hs₁, hg₁, hall₁⟩ := expands_expand g start owner content s as s₁ hs has
    obtain ⟨hs₂, hg₂, hall₂⟩ := sound_repetition hs₁ hall₁ hbs
    refine ⟨hs₂, hg₁.trans hg₂, fun a ha => ?_⟩
    -- the empty alternative may have been added
    split at ha
    · exact hall₂ a ha
    · obtain ha | ha := List.mem_append.mp ha
      · exact hall₂ a ha
      · rw [List.mem_singleton.mp ha]
        exact holds_empty _
  | .oneOrMore content => by
    intro s alternatives s' hs h
    rw [expand] at h
    simp only [bind_run_ok] at h
    obtain ⟨as, s₁, has, h⟩ := h
    obtain ⟨hs₁, hg₁, hall₁⟩ := expands_expand g start owner content s as s₁ hs has
    obtain ⟨hs₂, hg₂, hall₂⟩ := sound_repetition hs₁ hall₁ h
    exact ⟨hs₂, hg₁.trans hg₂, hall₂⟩
  | .field name content => by
    intro s alternatives s' hs h
    rw [expand, bind_run_ok] at h
    obtain ⟨i, s₁, hi, h⟩ := h
    obtain ⟨hs₁, hg₁, hfield⟩ := sound_field hs hi
    obtain ⟨hs₂, hg₂, hall⟩ := expands_map (expands_expand g start owner content) hs₁
      (fun _ _ hg ha => holds_withField ha ⟨hfield.1, Nat.le_trans hfield.2 hg.fields_le⟩) h
    exact ⟨hs₂, hg₁.trans hg₂, hall⟩
  | .alias .. => by
    intro s alternatives s' hs h
    rw [expand, throw_run_ok] at h
    exact h.elim
  | .prec assoc value content => by
    intro s alternatives s' hs h
    rw [expand, bind_run_ok] at h
    obtain ⟨n, s₁, hn, h⟩ := h
    obtain ⟨-, rfl⟩ := lift_run_ok.mp hn
    exact expands_map (f := (·.withBinding ⟨n, assoc⟩)) (expands_expand g start owner content) hs
      (fun _ _ _ ha => ha) h
  | .precDynamic _ content => by
    rw [expand]
    exact expands_expand g start owner content
  | .reserved _ content => by
    rw [expand]
    exact expands_expand g start owner content

/-- A sequence expands to parts that are there, by its members from left to right. -/
theorem expands_expandSeq (g : Grammar) (start owner : String) :
    ∀ (members : List Rule) (s : Flattening) (heads alternatives : List Alternative)
      (s' : Flattening), s.Sound → (∀ a ∈ heads, s.Holds a.parts) →
      (expandSeq g start owner heads members).run s = .ok (alternatives, s') →
      s'.Sound ∧ s.Grows s' ∧ ∀ a ∈ alternatives, s'.Holds a.parts
  | [], s, heads, alternatives, s', hs, hheads, h => by
    rw [expandSeq, pure_run_ok] at h
    obtain ⟨rfl, rfl⟩ := h
    exact ⟨hs, .refl _, hheads⟩
  | r :: rest, s, heads, alternatives, s', hs, hheads, h => by
    rw [expandSeq] at h
    simp only [bind_run_ok] at h
    obtain ⟨tails, s₁, htails, _, s₂, hcount, h⟩ := h
    obtain rfl := checkCount_run_ok hcount
    obtain ⟨hs₁, hg₁, hall₁⟩ := expands_expand g start owner r s tails s₁ hs htails
    obtain ⟨hs₂, hg₂, hall₂⟩ := expands_expandSeq g start owner rest s₁ _ alternatives s' hs₁
      -- each new head is one of the old ones followed by an alternative of `r`
      (fun a ha => by
        obtain ⟨b, hb, ha⟩ := List.mem_flatMap.mp ha
        obtain ⟨c, hc, rfl⟩ := List.mem_map.mp ha
        exact holds_append ((hheads b hb).grows hg₁) (hall₁ c hc)) h
    exact ⟨hs₂, hg₁.trans hg₂, hall₂⟩

/-- So does a choice, by its members one by one. -/
theorem expands_expandChoice (g : Grammar) (start owner : String) :
    ∀ members : List Rule, Expands (expandChoice g start owner members)
  | [] => by
    intro s alternatives s' hs h
    rw [expandChoice, pure_run_ok] at h
    obtain ⟨rfl, rfl⟩ := h
    exact ⟨hs, .refl _, fun a ha => by cases ha⟩
  | r :: rest => by
    intro s alternatives s' hs h
    rw [expandChoice] at h
    simp only [bind_run_ok, pure_run_ok] at h
    obtain ⟨as, s₁, has, bs, s₂, hbs, rfl, rfl⟩ := h
    obtain ⟨hs₁, hg₁, hall₁⟩ := expands_expand g start owner r s as s₁ hs has
    obtain ⟨hs₂, hg₂, hall₂⟩ := expands_expandChoice g start owner rest s₁ bs s₂ hs₁ hbs
    refine ⟨hs₂, hg₁.trans hg₂, fun a ha => ?_⟩
    -- what `r` gives still stands after the rest has been expanded
    obtain ha | ha := List.mem_append.mp ha
    · exact (hall₁ a ha).grows hg₂
    · exact hall₂ a ha

end

/-! ## Rules and extras -/

/-- Changing a symbol does not make a rule of a token, nor a token of a rule. -/
theorem isTerminal_modify (s : Flattening) (symbol i : Nat) (f : FlatSymbol → FlatSymbol)
    (hf : ∀ info, (f info).terminal = info.terminal) :
    isTerminal { s with symbols := s.symbols.modify symbol f } i = s.isTerminal i := by
  unfold isTerminal
  rw [Array.getElem?_modify]
  split
  · cases s.symbols[i]? <;> simp [hf]
  · rfl

/-- A symbol that rules can mention becomes an extra. -/
theorem sound_markExtra {symbol : Nat} {hide : Bool} {s s' : Flattening} {u : Unit} (hs : s.Sound)
    (hn : s.Names symbol) (h : (markExtra symbol hide).run s = .ok (u, s')) :
    s'.Sound ∧ s.Grows s' := by
  unfold markExtra at h
  rw [modify_run_ok] at h
  subst h
  -- marking changes neither whether a symbol is a terminal nor how many there are
  have hg : s.Grows { s with symbols := s.symbols.modify symbol fun info =>
      { info with extra := true, visible := info.visible && !hide } } :=
    ⟨by simp, fun i _ => isTerminal_modify s symbol i _ fun _ => rfl, fun _ _ h => h, Nat.le_refl _⟩
  refine ⟨⟨?_, hs.fields_le, fun info hinfo => ?_, hs.nodup, fun i hi => ?_,
    fun name i h => (hs.rules name i h).grows hg,
    fun key i h => (hs.anonymous key i h).grows hg, fun name h => ?_,
    fun q h => (hs.lhs q h).grows hg, fun q h => (hs.parts q h).grows hg⟩, hg⟩
  · rw [Array.size_modify]
    exact hs.symbols_le
  · obtain ⟨i, hi, rfl⟩ := Array.getElem_of_mem hinfo
    rw [Array.size_modify] at hi
    rw [Array.getElem_modify]
    split
    · exact hs.proper s.symbols[i] (Array.getElem_mem hi)
    · exact hs.proper _ (Array.getElem_mem hi)
  · obtain ⟨info, hinfo, h⟩ := hs.builtIn i hi
    -- the symbols that are built in come before all that are named
    have hne : symbol ≠ i := by
      have := hn.1
      omega
    exact ⟨info, by rw [Array.getElem?_modify, if_neg hne, hinfo], h⟩
  · obtain ⟨i, hi, hrule⟩ := hs.pending name h
    exact ⟨i, hi, hrule.grows hg⟩

/-- Marking an extra keeps a grammar in the making sound. -/
theorem sound_addExtra {g : Grammar} {start : String} {rule : Rule} {s s' : Flattening} {u : Unit}
    (hs : s.Sound) (h : (addExtra g start rule).run s = .ok (u, s')) : s'.Sound ∧ s.Grows s' := by
  unfold addExtra at h
  split at h
  · simp only [bind_run_ok, get_run_ok] at h
    obtain ⟨symbol, s₁, hsymbol, _, _, ⟨rfl, rfl⟩, h⟩ := h
    obtain ⟨hs₁, hg₁, hn, -⟩ := sound_ruleSymbol hs hsymbol
    split at h
    · obtain ⟨hs₂, hg₂⟩ := sound_markExtra hs₁ hn h
      exact ⟨hs₂, hg₁.trans hg₂⟩
    · exact (throw_run_ok.mp h).elim
  -- an extra that is no name of a rule is a token of its own
  · simp only [guard_run_ok, bind_run_ok] at h
    obtain ⟨-, symbol, s₁, hsymbol, h⟩ := h
    obtain ⟨hs₁, hg₁, hn⟩ := sound_anonymousToken hs hsymbol
    obtain ⟨hs₂, hg₂⟩ := sound_markExtra hs₁ hn h
    exact ⟨hs₂, hg₁.trans hg₂⟩

/-- The productions of a rule that is no terminal are added. -/
theorem sound_addRule {g : Grammar} {start name : String} {s s' : Flattening} {u : Unit}
    (hs : s.Sound) (hrule : ∃ i, s.rules.lookup name = some i ∧ s.NamesRule i)
    (h : (addRule g start name).run s = .ok (u, s')) : s'.Sound ∧ s.Grows s' := by
  obtain ⟨lhs, hlookup, hn⟩ := hrule
  unfold addRule at h
  simp only [bind_run_ok, get_run_ok] at h
  obtain ⟨_, _, ⟨rfl, rfl⟩, h⟩ := h
  rw [hlookup] at h
  split at h
  · rename_i rule i hfound hi
    cases hi
    simp only [bind_run_ok, pure_run_ok] at h
    obtain ⟨as, s₁, has, _, s₂, hloop, -, rfl⟩ := h
    obtain ⟨hs₁, hg₁, hall⟩ := expands_expand g start name rule s as s₁ hs has
    -- each alternative becomes a production of `lhs`, a symbol without a token
    obtain ⟨hs₂, hg₂⟩ : s₂.Sound ∧ s₁.Grows s₂ := by
      refine forIn_run_ok (P := fun r => r.Sound ∧ s₁.Grows r) (fun a ha r y r' hr hstep => ?_)
        ⟨hs₁, .refl _⟩ hloop
      simp only [guard_run_ok, bind_run_ok, pure_run_ok] at hstep
      obtain ⟨-, _, r₁, hadd, rfl, rfl⟩ := hstep
      obtain ⟨hs₂, hg₂⟩ := sound_addProduction hr.1 (hn.grows (hg₁.trans hr.2))
        ((hall a ha).grows hr.2) hadd
      exact ⟨rfl, hs₂, hr.2.trans hg₂⟩
    exact ⟨hs₂, hg₁.trans hg₂⟩
  · obtain ⟨-, rfl⟩ := pure_run_ok.mp h
    exact ⟨hs, .refl _⟩

/-- So does adding the rules that have been mentioned, until none is left. -/
theorem sound_addPending {g : Grammar} {start : String} {fuel : Nat} {s s' : Flattening} {u : Unit}
    (hs : s.Sound) (h : (addPending g start fuel).run s = .ok (u, s')) :
    s'.Sound ∧ s.Grows s' := by
  -- on the fuel, with a rule taken from the front each time
  induction fuel generalizing s with
  | zero =>
    obtain ⟨-, rfl⟩ := pure_run_ok.mp h
    exact ⟨hs, .refl _⟩
  | succ fuel ih =>
    rw [addPending] at h
    simp only [bind_run_ok, get_run_ok] at h
    obtain ⟨_, _, ⟨rfl, rfl⟩, h⟩ := h
    split at h
    · obtain ⟨-, rfl⟩ := pure_run_ok.mp h
      exact ⟨hs, .refl _⟩
    · rename_i name rest hpending
      simp only [bind_run_ok, modify_run_ok] at h
      obtain ⟨_, s₁, rfl, _, s₂, hrule, h⟩ := h
      -- taking `name` off the list leaves the others waiting
      have hs₁ : Sound { s with pending := rest } :=
        ⟨hs.symbols_le, hs.fields_le, hs.proper, hs.nodup, hs.builtIn, hs.rules, hs.anonymous,
          fun other ho => hs.pending other (by rw [hpending]; exact List.mem_cons_of_mem _ ho),
          hs.lhs, hs.parts⟩
      obtain ⟨i, hi, hn⟩ := hs.pending name (by rw [hpending]; exact List.mem_cons_self ..)
      obtain ⟨hs₂, hg₂⟩ := sound_addRule hs₁ ⟨i, hi, hn⟩ hrule
      obtain ⟨hs₃, hg₃⟩ := ih hs₂ h
      have hg₁ : s.Grows { s with pending := rest } := .of_eq rfl rfl rfl
      exact ⟨hs₃, hg₁.trans (hg₂.trans hg₃)⟩

/-- The two symbols that every grammar has are sound. -/
theorem sound_initial : initial.Sound where
  symbols_le := by decide
  fields_le := by decide
  proper := fun symbol h => by
    have hall : ∀ symbol ∈ builtIns.toList, symbol.token = none := by decide
    exact FlatSymbol.proper_of_none (hall symbol (Array.mem_toList_iff.mpr h))
  nodup := List.nodup_nil
  -- there are two symbols at first, the end and the error
  builtIn := fun i hi => by
    match i, hi with
    | 0, _ => exact ⟨_, rfl, rfl, rfl, rfl⟩
    | 1, _ => exact ⟨_, rfl, rfl, rfl, rfl⟩
  rules := fun _ _ h => by cases h
  anonymous := fun _ _ h => by cases h
  pending := fun _ h => by cases h
  lhs := fun _ h => absurd h (Array.not_mem_empty _)
  parts := fun _ h => absurd h (Array.not_mem_empty _)

/-- The start symbol is that of a rule. -/
theorem sound_addAll {g : Grammar} {start : String} {s : Flattening} {i : Nat}
    (h : (addAll g start).run initial = .ok (i, s)) : s.Sound ∧ s.NamesRule i := by
  unfold addAll at h
  simp only [bind_run_ok, pure_run_ok] at h
  obtain ⟨symbol, s₁, hsymbol, _, s₂, hextras, _, s₃, hpending, rfl, rfl⟩ := h
  obtain ⟨hs₁, -, -, hrule⟩ := sound_ruleSymbol sound_initial hsymbol
  -- the extras come after the first rule, which keeps its number
  obtain ⟨hs₂, hg₂⟩ : s₂.Sound ∧ s₁.Grows s₂ := by
    refine forIn_run_ok (P := fun r => r.Sound ∧ s₁.Grows r) (fun rule _ r y r' hr hstep => ?_)
      ⟨hs₁, .refl _⟩ hextras
    simp only [bind_run_ok, pure_run_ok] at hstep
    obtain ⟨_, r₁, hadd, rfl, rfl⟩ := hstep
    obtain ⟨hs₂, hg₂⟩ := sound_addExtra hr.1 hadd
    exact ⟨rfl, hs₂, hr.2.trans hg₂⟩
  obtain ⟨hs₃, hg₃⟩ := sound_addPending hs₂ hpending
  exact ⟨hs₃, ((hrule rfl rfl).grows hg₂).grows hg₃⟩

end Flatten

/-! ## Flat grammars -/

namespace FlatGrammar

/-- What holds of a grammar that was flattened. -/
structure Sound (g : FlatGrammar) : Prop where
  symbols_le : g.symbols.size ≤ Flatten.maxCount
  fields_le : g.fields.size ≤ Flatten.maxCount
  proper : ∀ symbol ∈ g.symbols, symbol.Proper
  nodup : g.fields.toList.Nodup
  builtIn : ∀ i < 2, ∃ info, g.symbols[i]? = some info ∧ info.terminal = true ∧
    info.token = none ∧ info.extra = false
  start : 2 ≤ g.start ∧ g.start < g.symbols.size ∧ g.isTerminal g.start = false
  lhs : ∀ q ∈ g.productions, 2 ≤ q.lhs ∧ q.lhs < g.symbols.size ∧ g.isTerminal q.lhs = false
  rhs : ∀ q ∈ g.productions, ∀ i ∈ q.rhs, 2 ≤ i ∧ i < g.symbols.size
  field : ∀ q ∈ g.productions, ∀ part ∈ q.parts, ∀ field ∈ part.2, 0 < field ∧ field ≤ g.fields.size

end FlatGrammar

/-- A flat grammar that is made of a grammar is sound. -/
theorem Grammar.sound_flatten {g : Grammar} {flat : FlatGrammar} (h : g.flatten = .ok flat) :
    flat.Sound := by
  unfold flatten at h
  split at h
  · cases h
  · simp only [Except.guard_eq_ok, Except.bind_eq_ok, Except.pure_eq_ok] at h
    obtain ⟨-, ⟨i, s⟩, hall, rfl⟩ := h
    -- what is sound when all is added is handed out as it is
    obtain ⟨hs, hn⟩ := Flatten.sound_addAll hall
    refine ⟨hs.symbols_le, hs.fields_le, hs.proper, hs.nodup, hs.builtIn, ⟨hn.1.1, hn.1.2, hn.2⟩,
      fun q hq => ⟨(hs.lhs q hq).1.1, (hs.lhs q hq).1.2, (hs.lhs q hq).2⟩, fun q hq i hi => ?_,
      fun q hq part hp => (hs.parts q hq part hp).2⟩
    obtain ⟨part, hp, rfl⟩ := List.mem_map.mp hi
    exact (hs.parts q hq part hp).1

end IncrementalParsing
