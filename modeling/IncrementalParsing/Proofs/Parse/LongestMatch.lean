import IncrementalParsing.Proofs.Parse.Lexing
import IncrementalParsing.Proofs.Table.Compiled
import IncrementalParsing.Proofs.Text.Characters

/-!
# The longest match

The token at a place is described here without a search: `Automaton.Matches` says what is in the
language of an automaton, `Candidate.Outranks` which of two matches is the better one, and `Munches`
which token follows a place, behind the trivia that is skipped.  `Lexer.next` finds just that token,
although automata learn one byte late that a match ended, stop where nothing can match any more, and
the tokens of a mode are tried one after the other.

## Key results

- `scan_longest`: a scan finds the longest match that is not empty
- `longestMatch_best`: the contest between tokens is won by the best match
- `Lexer.next_munches`: the token that is found is the one that follows
-/

namespace IncrementalParsing

/-! ## The language of an automaton -/

namespace Automaton

/-- The state in which an automaton begins at a place. -/
def entry (a : Automaton) (text : ByteArray) (start : Nat) : State :=
  a.state (a.start (if start = 0 then none
    else (byteAt? text (start - 1)).map (ByteKind.ofByte ·.toNat)))

/-- An automaton goes from a state to another over the bytes between two places. -/
inductive Reads (a : Automaton) (text : ByteArray) : State → Nat → State → Nat → Prop
  | here {s : State} {i : Nat} : Reads a text s i s i
  | byte {s s' : State} {i j target : Nat} {b : UInt8} (hb : byteAt? text i = some b)
      (hnext : s.next? b.toNat = some target) (hrest : Reads a text (a.state target) (i + 1) s' j) :
      Reads a text s i s' j

/-- What was read is a match: the text ends here, or the byte that follows says so. -/
def Accepts (a : Automaton) (text : ByteArray) (s : State) (i : Nat) : Prop :=
  match byteAt? text i with
  | none => s.final = true
  | some b => ∃ target, s.next? b.toNat = some target ∧ (a.state target).matched = true

/-- From a state, the bytes between two places complete a match. -/
def MatchesFrom (a : Automaton) (text : ByteArray) (s : State) (i j : Nat) : Prop :=
  ∃ s', a.Reads text s i s' j ∧ a.Accepts text s' j

/-- The bytes between two places are in the language of an automaton, where they stand. -/
def Matches (a : Automaton) (text : ByteArray) (start stop : Nat) : Prop :=
  a.MatchesFrom text (a.entry text start) start stop

/-- The end of the longest match at a place that is not empty, if there is any. -/
structure IsLongest (a : Automaton) (text : ByteArray) (start : Nat) (found : Option Nat) : Prop where
  sound : ∀ stop, found = some stop → start < stop ∧ a.Matches text start stop
  longest : ∀ stop, start < stop → a.Matches text start stop → ∃ stop', found = some stop' ∧ stop ≤ stop'

variable {a : Automaton} {text : ByteArray}

/-- At the end of the text only what was read before is a match. -/
theorem matchesFrom_of_end {s : State} {i j : Nat} (hend : byteAt? text i = none) :
    a.MatchesFrom text s i j ↔ j = i ∧ s.final = true := by
  constructor
  · rintro ⟨s', hreads, haccepts⟩
    -- no byte is left to read
    cases hreads with
    | here =>
      unfold Accepts at haccepts
      rw [hend] at haccepts
      exact ⟨rfl, haccepts⟩
    | byte hb => rw [hend] at hb; cases hb
  · rintro ⟨rfl, hfinal⟩
    refine ⟨s, .here, ?_⟩
    unfold Accepts
    rw [hend]
    exact hfinal

/-- Where a byte leads nowhere, nothing matches. -/
theorem not_matchesFrom_of_stuck {s : State} {i j : Nat} {b : UInt8} (hb : byteAt? text i = some b)
    (hnext : s.next? b.toNat = none) : ¬ a.MatchesFrom text s i j := by
  rintro ⟨s', hreads, haccepts⟩
  cases hreads with
  -- a state accepts by a transition too, namely into one that has accepted
  | here =>
    unfold Accepts at haccepts
    rw [hb] at haccepts
    obtain ⟨target, htarget, -⟩ := haccepts
    rw [hnext] at htarget
    cases htarget
  | byte hb' hnext' =>
    cases hb.symm.trans hb'
    rw [hnext] at hnext'
    cases hnext'

/-- Over a byte, a match ends before it or goes on behind it. -/
theorem matchesFrom_of_byte {s : State} {i j target : Nat} {b : UInt8} (hb : byteAt? text i = some b)
    (hnext : s.next? b.toNat = some target) :
    a.MatchesFrom text s i j ↔ (j = i ∧ (a.state target).matched = true) ∨
      a.MatchesFrom text (a.state target) (i + 1) j := by
  constructor
  -- a match ends before the byte, or goes on behind it
  · rintro ⟨s', hreads, haccepts⟩
    cases hreads with
    | here =>
      unfold Accepts at haccepts
      rw [hb] at haccepts
      obtain ⟨target', htarget, hmatched⟩ := haccepts
      cases hnext.symm.trans htarget
      exact .inl ⟨rfl, hmatched⟩
    | byte hb' hnext' hrest =>
      cases hb.symm.trans hb'
      cases hnext.symm.trans hnext'
      exact .inr ⟨s', hrest, haccepts⟩
  · rintro (⟨rfl, hmatched⟩ | ⟨s', hrest, haccepts⟩)
    · refine ⟨s, .here, ?_⟩
      unfold Accepts
      rw [hb]
      exact ⟨target, hnext, hmatched⟩
    · exact ⟨s', .byte hb hnext hrest, haccepts⟩

/-- A scan that has come to a state goes on to the longest match from there; where there is none it
keeps what it had. -/
theorem scanFrom_longest {start left place : Nat} {s : State} {longest : Option Nat}
    (hleft : left = text.size - place) (hlongest : ∀ i, longest = some i → i ≤ place) :
    (∀ stop, (scanFrom a text start left place s longest).1 = some stop →
      longest = some stop ∨ (start < stop ∧ a.MatchesFrom text s place stop)) ∧
    (∀ stop, (start < stop ∧ a.MatchesFrom text s place stop) ∨ longest = some stop →
      ∃ stop', (scanFrom a text start left place s longest).1 = some stop' ∧ stop ≤ stop') := by
  -- on the bytes that are left; `longest` is the longest match that ended before
  induction left generalizing place s longest with
  | zero =>
    have hend : byteAt? text place = none := dif_neg (by omega)
    simp only [scanFrom, matchesFrom_of_end hend, Bool.and_eq_true, decide_eq_true_eq]
    by_cases hmatch : s.final = true ∧ start < place
    · -- the match that ends here is longer than any before
      rw [if_pos hmatch]
      constructor
      · rintro stop ⟨⟩
        exact .inr ⟨hmatch.2, rfl, hmatch.1⟩
      · rintro stop (⟨-, rfl, -⟩ | hold)
        · exact ⟨_, rfl, Nat.le_refl _⟩
        · exact ⟨place, rfl, hlongest stop hold⟩
    · rw [if_neg hmatch]
      constructor
      · exact fun stop hold => .inl hold
      · rintro stop (⟨hlt, rfl, hfinal⟩ | hold)
        · exact absurd ⟨hfinal, hlt⟩ hmatch
        · exact ⟨stop, hold, Nat.le_refl _⟩
  | succ left ih =>
    have hplace : place < text.size := by omega
    have hb : byteAt? text place = some text[place] := dif_pos hplace
    cases hnext : s.next? text[place].toNat with
    -- where no state follows there is no match beyond those before
    | none =>
      simp only [scanFrom, hb, hnext]
      constructor
      · exact fun stop hold => .inl hold
      · rintro stop (⟨-, hm⟩ | hold)
        · exact absurd hm (not_matchesFrom_of_stuck hb hnext)
        · exact ⟨stop, hold, Nat.le_refl _⟩
    | some target =>
      simp only [scanFrom, hb, hnext, matchesFrom_of_byte hb hnext, Bool.and_eq_true, decide_eq_true_eq]
      by_cases hmatch : (a.state target).matched = true ∧ start < place
      · -- the byte that was read says that a match ended before it
        rw [if_pos hmatch]
        obtain ⟨hsound, hfound⟩ := @ih (place + 1) (a.state target) (some place) (by omega)
          (fun i hi => by cases hi; exact Nat.le_succ _)
        constructor
        · intro stop hstop
          obtain hold | ⟨hlt, hm⟩ := hsound stop hstop
          · cases hold
            exact .inr ⟨hmatch.2, .inl ⟨rfl, hmatch.1⟩⟩
          · exact .inr ⟨hlt, .inr hm⟩
        · rintro stop (⟨hlt, ⟨rfl, -⟩ | hm⟩ | hold)
          · exact hfound _ (.inr rfl)
          · exact hfound stop (.inl ⟨hlt, hm⟩)
          · obtain ⟨stop', hstop', hle⟩ := hfound place (.inr rfl)
            exact ⟨stop', hstop', Nat.le_trans (hlongest stop hold) hle⟩
      · rw [if_neg hmatch]
        obtain ⟨hsound, hfound⟩ := @ih (place + 1) (a.state target) longest (by omega)
          (fun i hi => Nat.le_succ_of_le (hlongest i hi))
        constructor
        · intro stop hstop
          exact (hsound stop hstop).imp_right fun h => ⟨h.1, .inr h.2⟩
        · rintro stop (⟨hlt, ⟨rfl, hmatched⟩ | hm⟩ | hold)
          · exact absurd ⟨hmatched, hlt⟩ hmatch
          · exact hfound stop (.inl ⟨hlt, hm⟩)
          · exact hfound stop (.inr hold)

/-- A scan finds the longest match that is not empty. -/
theorem scan_longest (a : Automaton) (text : ByteArray) (start : Nat) :
    a.IsLongest text start (a.scan text start).1 := by
  obtain ⟨hsound, hfound⟩ := @scanFrom_longest a text start (text.size - start) start
    (a.entry text start) none rfl (by simp)
  constructor
  · intro stop hstop
    obtain hold | hm := hsound stop hstop
    · cases hold
    · exact hm
  · exact fun stop hlt hm => hfound stop (.inl ⟨hlt, hm⟩)

end Automaton

/-! ## The best match -/

namespace Lexer

/-- One match is better than another: it is longer, or as long with a higher precedence, or with that
too the same one of a string and not of a pattern, or of the token with the lower number. -/
inductive Candidate.Outranks (a b : Candidate) : Prop
  | longer (h : b.finish < a.finish)
  | precedence (hfinish : a.finish = b.finish) (h : b.precedence < a.precedence)
  | literal (hfinish : a.finish = b.finish) (hprecedence : a.precedence = b.precedence)
      (ha : a.literal = true) (hb : b.literal = false)
  | symbol (hfinish : a.finish = b.finish) (hprecedence : a.precedence = b.precedence)
      (hliteral : a.literal = b.literal) (h : a.symbol < b.symbol)

namespace Candidate.Outranks

variable {a b c : Candidate}

theorem trans (hab : a.Outranks b) (hbc : b.Outranks c) : a.Outranks c := by
  -- a tie is broken by the first of the four that decides, so the earlier one decides for both
  cases hab with
  | longer h =>
    cases hbc with
    | longer h' => exact .longer (by omega)
    | precedence h' | literal h' | symbol h' => exact .longer (by omega)
  | precedence hf h =>
    cases hbc with
    | longer h' => exact .longer (by omega)
    | precedence hf' h' => exact .precedence (by omega) (by omega)
    | literal hf' hp' | symbol hf' hp' => exact .precedence (by omega) (by omega)
  | literal hf hp ha hb =>
    cases hbc with
    | longer h' => exact .longer (by omega)
    | precedence hf' h' => exact .precedence (by omega) (by omega)
    | literal hf' hp' hb' => rw [hb] at hb'; cases hb'
    | symbol hf' hp' hl => exact .literal (by omega) (by omega) ha (hl ▸ hb)
  | symbol hf hp hl h =>
    cases hbc with
    | longer h' => exact .longer (by omega)
    | precedence hf' h' => exact .precedence (by omega) (by omega)
    | literal hf' hp' hb hc => exact .literal (by omega) (by omega) (hl ▸ hb) hc
    | symbol hf' hp' hl' h' => exact .symbol (by omega) (by omega) (hl.trans hl') (Nat.lt_trans h h')

theorem irrefl : ¬ a.Outranks a := by
  rintro (h | ⟨-, h⟩ | ⟨-, -, ha, hb⟩ | ⟨-, -, -, h⟩)
  · omega
  · omega
  · rw [ha] at hb
    cases hb
  · exact Nat.lt_irrefl _ h

end Candidate.Outranks

/-- The test for a winner decides between a match and one of a token with a lower number. -/
theorem beats_iff {a b : Candidate} (h : b.symbol < a.symbol) : a.beats b = true ↔ a.Outranks b := by
  simp only [Candidate.beats, Bool.or_eq_true, Bool.and_eq_true, decide_eq_true_eq, beq_iff_eq,
    Bool.not_eq_true']
  constructor
  · rintro (hf | ⟨hf, hp | ⟨⟨hp, ha⟩, hb⟩⟩)
    · exact .longer hf
    · exact .precedence hf hp
    · exact .literal hf hp ha hb
  · rintro (hf | ⟨hf, hp⟩ | ⟨hf, hp, ha, hb⟩ | ⟨-, -, -, hlt⟩)
    · exact .inl hf
    · exact .inr ⟨hf, .inl hp⟩
    · exact .inr ⟨hf, .inr ⟨⟨hp, ha⟩, hb⟩⟩
    · exact absurd hlt (Nat.lt_asymm h)

/-- A match that does not win is worse than the one of the token with the lower number. -/
theorem outranks_of_not_beats {a b : Candidate} (h : b.symbol < a.symbol)
    (hloses : ¬ a.beats b = true) : b.Outranks a := by
  rw [beats_iff h] at hloses
  -- length decides first, then precedence, then the literal flag, then the symbol
  obtain hf | hf | hf := Nat.lt_trichotomy b.finish a.finish
  · exact absurd (.longer hf) hloses
  · obtain hp | hp | hp := Int.lt_trichotomy b.precedence a.precedence
    · exact absurd (.precedence hf.symm hp) hloses
    · by_cases hl : b.literal = a.literal
      · exact .symbol hf hp hl h
      · cases hb : b.literal with
        | true =>
          exact .literal hf hp hb (by simpa [hb] using hl)
        | false =>
          exact absurd (.literal hf.symm hp.symm (by simpa [hb] using hl) hb) hloses
    · exact .precedence hf hp
  · exact .longer hf

variable {t : Table} {text : ByteArray} {symbols : List Symbol} {start : Nat} {direct : Bool}

/-- A candidate is a match of a token of a list, and not empty.  A token that has to follow the one
before directly matches only there. -/
structure Offers (t : Table) (text : ByteArray) (symbols : List Symbol) (start : Nat) (direct : Bool)
    (c : Candidate) : Prop where
  mem : c.symbol ∈ symbols
  nonempty : start < c.finish
  token : ∃ info lexeme, t.symbol? c.symbol = some info ∧ t.lexeme? c.symbol = some lexeme ∧
    (info.immediate = true → direct = true) ∧ lexeme.automaton.Matches text start c.finish ∧
    c.precedence = info.precedence ∧ c.literal = info.literal

/-- The best of all matches, if there are any. -/
def IsBest (t : Table) (text : ByteArray) (symbols : List Symbol) (start : Nat) (direct : Bool) :
    Option Candidate → Prop
  | none => ∀ c, ¬ Offers t text symbols start direct c
  | some c => Offers t text symbols start direct c ∧
      ∀ d, Offers t text symbols start direct d → d ≠ c → c.Outranks d

/-- Only one match is the best. -/
theorem isBest_unique {a b : Option Candidate} (ha : IsBest t text symbols start direct a)
    (hb : IsBest t text symbols start direct b) : a = b := by
  cases a with
  | none =>
    cases b with
    | none => rfl
    | some d => exact absurd hb.1 (ha d)
  | some c =>
    cases b with
    | none => exact absurd ha.1 (hb c)
    | some d =>
      by_cases h : d = c
      · rw [h]
      -- each would outrank the other
      · exact absurd ((ha.2 d hb.1 h).trans (hb.2 c ha.1 (Ne.symm h))) Candidate.Outranks.irrefl

theorem offers_append {a b : List Symbol} {c : Candidate} :
    Offers t text (a ++ b) start direct c ↔
      Offers t text a start direct c ∨ Offers t text b start direct c := by
  constructor
  · rintro ⟨hmem, hne, htoken⟩
    exact (List.mem_append.mp hmem).imp (⟨·, hne, htoken⟩) (⟨·, hne, htoken⟩)
  · rintro (⟨hmem, hne, htoken⟩ | ⟨hmem, hne, htoken⟩)
    · exact ⟨List.mem_append_left _ hmem, hne, htoken⟩
    · exact ⟨List.mem_append_right _ hmem, hne, htoken⟩

/-- Of two winners, the one of the token with the higher number wins only if it has to. -/
def winner (lower higher : Option Candidate) : Option Candidate :=
  match higher with
  | none => lower
  | some c => if lower.all c.beats then some c else lower

/-- Lists of tokens, of which one has the lower numbers, are searched one after the other. -/
theorem isBest_winner {a b : List Symbol} {lower higher : Option Candidate}
    (hlt : ∀ x ∈ a, ∀ y ∈ b, x < y) (hlower : IsBest t text a start direct lower)
    (hhigher : IsBest t text b start direct higher) :
    IsBest t text (a ++ b) start direct (winner lower higher) := by
  cases higher with
  | none =>
    -- nothing was added
    cases lower with
    | none => exact fun c hc => (offers_append.mp hc).elim (hlower c) (hhigher c)
    | some c =>
      refine ⟨offers_append.mpr (.inl hlower.1), fun d hd hne => ?_⟩
      exact (offers_append.mp hd).elim (hlower.2 d · hne) (absurd · (hhigher d))
  | some c =>
    have hc := hhigher.1
    cases lower with
    | none =>
      refine ⟨offers_append.mpr (.inr hc), fun d hd hne => ?_⟩
      exact (offers_append.mp hd).elim (absurd · (hlower d)) (hhigher.2 d · hne)
    | some b =>
      have hnumbers := hlt b.symbol hlower.1.mem c.symbol hc.mem
      -- as the symbols on the right have higher numbers, beating is outranking
      by_cases hwins : c.beats b = true
      · have hout := (beats_iff hnumbers).mp hwins
        simp only [winner, Option.all_some, hwins, if_true]
        refine ⟨offers_append.mpr (.inr hc), fun d hd hne => ?_⟩
        obtain hd | hd := offers_append.mp hd
        · by_cases h : d = b
          · rw [h]
            exact hout
          · exact hout.trans (hlower.2 d hd h)
        · exact hhigher.2 d hd hne
      · have hout := outranks_of_not_beats hnumbers hwins
        simp only [winner, Option.all_some, if_neg hwins]
        refine ⟨offers_append.mpr (.inl hlower.1), fun d hd hne => ?_⟩
        obtain hd | hd := offers_append.mp hd
        · exact hlower.2 d hd hne
        · by_cases h : d = c
          · rw [h]
            exact hout
          · exact hout.trans (hhigher.2 d hd h)

/-- The longest match of a single token. -/
def candidate? (t : Table) (text : ByteArray) (start : Nat) (direct : Bool) (symbol : Symbol) :
    Option Candidate :=
  match t.symbol? symbol, t.lexeme? symbol with
  | some info, some lexeme =>
    if info.immediate && !direct then none
    else (lexeme.automaton.scan text start).1.map
      fun finish => ⟨symbol, finish, info.precedence, info.literal⟩
  | _, _ => none

theorem best_attempt (c : Contest) (symbol : Symbol) :
    (c.attempt t text start direct symbol).best =
      winner c.best (candidate? t text start direct symbol) := by
  unfold Contest.attempt candidate?
  cases t.symbol? symbol with
  | none => rfl
  | some info =>
    cases t.lexeme? symbol with
    | none => rfl
    | some lexeme =>
      dsimp only
      -- a token that has to be adjacent is skipped behind trivia
      by_cases hskip : (info.immediate && !direct) = true
      · rw [if_pos hskip, if_pos hskip]
        rfl
      · rw [if_neg hskip, if_neg hskip]
        cases (lexeme.automaton.scan text start).1 with
        | none => rfl
        | some finish =>
          simp only [winner, Option.map_some]
          split <;> rfl

/-- A token's longest match is its best. -/
theorem isBest_candidate? (symbol : Symbol) :
    IsBest t text [symbol] start direct (candidate? t text start direct symbol) := by
  unfold candidate?
  cases hinfo : t.symbol? symbol with
  | none =>
    rintro c ⟨hmem, -, info, lexeme, hinfo', -⟩
    rw [List.mem_singleton.mp hmem, hinfo] at hinfo'
    cases hinfo'
  | some info =>
    cases hlexeme : t.lexeme? symbol with
    | none =>
      rintro c ⟨hmem, -, info, lexeme, -, hlexeme', -⟩
      rw [List.mem_singleton.mp hmem, hlexeme] at hlexeme'
      cases hlexeme'
    | some lexeme =>
      -- what matches is a match of this token's automaton
      have hoffer : ∀ c, Offers t text [symbol] start direct c → c.symbol = symbol ∧
          (info.immediate = true → direct = true) ∧ start < c.finish ∧
          lexeme.automaton.Matches text start c.finish ∧ c.precedence = info.precedence ∧
          c.literal = info.literal := by
        rintro c ⟨hmem, hne, info', lexeme', hinfo', hlexeme', himmediate, hm, hp, hl⟩
        have hsymbol := List.mem_singleton.mp hmem
        rw [hsymbol, hinfo, Option.some.injEq] at hinfo'
        rw [hsymbol, hlexeme, Option.some.injEq] at hlexeme'
        subst hinfo' hlexeme'
        exact ⟨hsymbol, himmediate, hne, hm, hp, hl⟩
      have hscan := lexeme.automaton.scan_longest text start
      dsimp only
      -- what must be adjacent and is not cannot be offered at all
      by_cases hskip : (info.immediate && !direct) = true
      · rw [if_pos hskip]
        rw [Bool.and_eq_true, Bool.not_eq_true'] at hskip
        intro c hc
        have hdirect := (hoffer c hc).2.1 hskip.1
        rw [hskip.2] at hdirect
        cases hdirect
      · rw [if_neg hskip]
        have himmediate : info.immediate = true → direct = true := by
          intro h
          simpa [h] using hskip
        cases hfound : (lexeme.automaton.scan text start).1 with
        | none =>
          intro c hc
          obtain ⟨-, -, hne, hm, -⟩ := hoffer c hc
          obtain ⟨stop, hstop, -⟩ := hscan.longest _ hne hm
          rw [hfound] at hstop
          cases hstop
        | some finish =>
          obtain ⟨hlt, hm⟩ := hscan.sound finish hfound
          refine ⟨⟨List.mem_singleton_self _, hlt, info, lexeme, hinfo, hlexeme, himmediate, hm, rfl,
            rfl⟩, fun d hd hne => ?_⟩
          obtain ⟨hsymbol, -, hlt', hm', hp, hl⟩ := hoffer d hd
          obtain ⟨stop, hstop, hle⟩ := hscan.longest _ hlt' hm'
          rw [hfound, Option.some.injEq] at hstop
          subst hstop
          -- another match of the same token ends elsewhere, so it ends before
          refine .longer (Nat.lt_of_le_of_ne hle fun heq => hne ?_)
          cases d
          simp only at hsymbol heq hp hl
          rw [hsymbol, heq, hp, hl]

/-- The contest between tokens is won by the best match. -/
theorem longestMatch_best (t : Table) (text : ByteArray) (start : Nat) (direct : Bool)
    (hascending : symbols.Pairwise (· < ·)) (examined : Nat) :
    IsBest t text symbols start direct (longestMatch t text symbols start direct examined).best := by
  -- the symbols that were tried come before those that are left
  suffices ∀ (done rest : List Symbol) (contest : Contest), (done ++ rest).Pairwise (· < ·) →
      IsBest t text done start direct contest.best →
      IsBest t text (done ++ rest) start direct
        (rest.foldl (Contest.attempt t text start direct) contest).best from
    this [] symbols ⟨none, examined⟩ hascending fun c hc => by cases hc.mem
  intro done rest
  induction rest generalizing done with
  | nil =>
    intro contest _ hbest
    rw [List.append_nil]
    exact hbest
  | cons symbol rest ih =>
    intro contest hascending hbest
    rw [List.append_cons] at hascending ⊢
    -- the best so far is compared with what this symbol offers
    refine ih (done ++ [symbol]) _ hascending ?_
    rw [best_attempt]
    refine isBest_winner (fun x hx y hy => ?_) hbest (isBest_candidate? symbol)
    exact (List.pairwise_append.mp (List.pairwise_append.mp hascending).1).2.2 x hx y hy

/-! ## The token behind a place -/

/-- A character that begins at a boundary ends at the next one; inside a character every byte stands by
itself. -/
def EndsCharacter (text : ByteArray) (i j : Nat) : Prop :=
  if isBoundary text i = true then
    i < j ∧ isBoundary text j = true ∧ ∀ k, i < k → k < j → isBoundary text k = false
  else j = i + 1

/-- The token behind a place, where some trivia has been skipped: as long as the best match is trivia it
is skipped too.  Where nothing matches, the token is a single character, and at the end of the text it
is the end, which takes no bytes. -/
inductive Munches (t : Table) (text : ByteArray) (mode : LexMode) :
    (place : Nat) → (skipped : Length) → (symbol : Symbol) → (padding size : Length) → Prop
  | finish {place : Nat} {skipped : Length} (h : text.size ≤ place) :
      Munches t text mode place skipped Symbol.finish skipped .zero
  | trivia {place : Nat} {skipped : Length} {c : Candidate} {symbol : Symbol} {padding size : Length}
      (h : place < text.size)
      (hbest : IsBest t text (t.modeSymbols mode) place (skipped == .zero) (some c))
      (ht : t.isTrivia c.symbol = true)
      (hnext : Munches t text mode c.finish (skipped + .span text place c.finish) symbol padding size) :
      Munches t text mode place skipped symbol padding size
  | found {place : Nat} {skipped : Length} {c : Candidate} (h : place < text.size)
      (hbest : IsBest t text (t.modeSymbols mode) place (skipped == .zero) (some c))
      (ht : t.isTrivia c.symbol = false) :
      Munches t text mode place skipped c.symbol skipped (.span text place c.finish)
  | unmatched {place stop : Nat} {skipped : Length} (h : place < text.size)
      (hbest : IsBest t text (t.modeSymbols mode) place (skipped == .zero) none)
      (hstop : EndsCharacter text place stop) :
      Munches t text mode place skipped Symbol.error skipped (.span text place stop)

theorem endsCharacter_unique {i j j' : Nat} (h : EndsCharacter text i j)
    (h' : EndsCharacter text i j') : j = j' := by
  unfold EndsCharacter at h h'
  split at h
  · rename_i hb
    rw [if_pos hb] at h'
    obtain ⟨hlt, hend, hbetween⟩ := h
    obtain ⟨hlt', hend', hbetween'⟩ := h'
    -- the nearer of two ends would lie inside the other's character
    obtain hj | hj | hj := Nat.lt_trichotomy j j'
    · rw [hbetween' j hlt hj] at hend
      cases hend
    · exact hj
    · rw [hbetween j' hlt' hj] at hend'
      cases hend'
  · rename_i hb
    rw [if_neg hb] at h'
    rw [h, h']

/-- A character is as wide as its first byte says. -/
theorem endsCharacter_charWidth {s : String} {i : Nat} (h : i < s.toUTF8.size) :
    EndsCharacter s.toUTF8 i (i + charWidth s.toUTF8 i) := by
  unfold EndsCharacter
  split
  · rename_i hb
    have := charWidth_pos s.toUTF8 i
    exact ⟨by omega, isBoundary_add_charWidth hb h, fun k => not_isBoundary_inside hb h⟩
  · rename_i hb
    rw [charWidth_inside h (by simpa using hb)]

/-- There is one token behind a place. -/
theorem munches_unique {mode : LexMode} {place : Nat} {skipped : Length} {symbol symbol' : Symbol}
    {padding padding' size size' : Length} (h : Munches t text mode place skipped symbol padding size)
    (h' : Munches t text mode place skipped symbol' padding' size') :
    symbol = symbol' ∧ padding = padding' ∧ size = size' := by
  -- the best match at a place is unique, and says which of the four cases it is
  induction h with
  | finish hend =>
    cases h' with
    | finish => exact ⟨rfl, rfl, rfl⟩
    | trivia hlt | found hlt | unmatched hlt => omega
  -- the same trivia is skipped, and the search goes on from the same place
  | trivia hlt hbest ht _ ih =>
    cases h' with
    | finish => omega
    | trivia _ hbest' _ hnext' =>
      cases isBest_unique hbest hbest'
      exact ih hnext'
    | found _ hbest' ht' =>
      cases isBest_unique hbest hbest'
      rw [ht] at ht'
      cases ht'
    | unmatched _ hbest' => cases isBest_unique hbest hbest'
  | found hlt hbest ht =>
    cases h' with
    | finish => omega
    | trivia _ hbest' ht' =>
      cases isBest_unique hbest hbest'
      rw [ht] at ht'
      cases ht'
    | found _ hbest' =>
      cases isBest_unique hbest hbest'
      exact ⟨rfl, rfl, rfl⟩
    | unmatched _ hbest' => cases isBest_unique hbest hbest'
  | unmatched hlt hbest hstop =>
    cases h' with
    | finish => omega
    | trivia _ hbest' | found _ hbest' => cases isBest_unique hbest hbest'
    | unmatched _ _ hstop' =>
      cases endsCharacter_unique hstop hstop'
      exact ⟨rfl, rfl, rfl⟩

/-- What the search over trivia finds is the token behind the place. -/
theorem munches_of_finds {s : String} {mode : LexMode}
    (hascending : (t.modeSymbols mode).Pairwise (· < ·)) {position start : Length} {examined : Nat}
    {found : Token} (h : Finds t s.toUTF8 mode position start examined found) :
    ∀ skipped, start = position + skipped →
      Munches t s.toUTF8 mode start.bytes skipped found.symbol found.padding found.size := by
  -- the search goes on behind the trivia, which is added to what was skipped
  induction h with
  | @finish start examined h =>
    rintro skipped rfl
    simp only [token, Length.add_sub_cancel]
    rw [Length.span_self]
    exact .finish h
  | @trivia start examined c found h hbest ht hnext ih =>
    rintro skipped rfl
    have hwinner := longestMatch_best t s.toUTF8 (position + skipped).bytes
      (position + skipped == position) hascending examined
    rw [hbest, Length.add_beq_self] at hwinner
    have hlt := bounds_of_isMatch (Nat.le_of_lt h) (longestMatch_spec hbest)
    refine .trivia h hwinner ht ?_
    -- the search goes on where the trivia ends
    have hplace : (position + skipped + Length.span s.toUTF8 (position + skipped).bytes c.finish).bytes =
        c.finish := by
      rw [Length.bytes_add, Length.bytes_span]
      omega
    have hrest := ih _ (Length.add_assoc ..)
    rwa [hplace] at hrest
  | @found start examined c h hbest ht =>
    rintro skipped rfl
    have hwinner := longestMatch_best t s.toUTF8 (position + skipped).bytes
      (position + skipped == position) hascending examined
    rw [hbest, Length.add_beq_self] at hwinner
    simp only [token, Length.add_sub_cancel]
    exact .found h hwinner ht
  | @unmatched start examined h hbest =>
    rintro skipped rfl
    have hwinner := longestMatch_best t s.toUTF8 (position + skipped).bytes
      (position + skipped == position) hascending examined
    rw [hbest, Length.add_beq_self] at hwinner
    simp only [token, Length.add_sub_cancel]
    exact .unmatched h hwinner (endsCharacter_charWidth h)

/-- Scans find longest matches, and the token behind a place is the one that is best there: trivia is
skipped, a character that nothing matches is an error, and at the end of the text comes the end. -/
theorem next_munches {g : Grammar} {t : Table} (h : g.table = .ok t) :
    (∀ (a : Automaton) (text : ByteArray) (start : Nat),
      a.IsLongest text start (a.scan text start).1) ∧
    ∀ (s : String) (mode : LexMode) (position : Length) (symbol : Symbol) (padding size : Length),
      Munches t s.toUTF8 mode position.bytes .zero symbol padding size ↔
        (next t s.toUTF8 position mode).symbol = symbol ∧
        (next t s.toUTF8 position mode).padding = padding ∧
        (next t s.toUTF8 position mode).size = size := by
  refine ⟨Automaton.scan_longest, fun s mode position symbol padding size => ?_⟩
  -- what the lexer finds satisfies the reference, and only one token does
  have hfound := munches_of_finds (Grammar.modes_ascending h mode)
    (finds_next t s.toUTF8 position mode) .zero (Length.add_zero _).symm
  constructor
  · exact munches_unique hfound
  · rintro ⟨rfl, rfl, rfl⟩
    exact hfound

/-- The token `a` behind an unmatched character takes one byte. -/
theorem next_munches_oneToken : OneToken.grammar.table = .ok OneToken.table ∧
    Munches OneToken.table "éa".toUTF8 0 0 .zero Symbol.error .zero ⟨2, ⟨0, 2⟩⟩ ∧
    Munches OneToken.table "éa".toUTF8 0 2 .zero 3 .zero ⟨1, ⟨0, 1⟩⟩ := by
  refine ⟨OneToken.table_grammar, ?_, ?_⟩
  · exact ((next_munches OneToken.table_grammar).2 "éa" 0 .zero _ _ _).mpr (by decide +kernel)
  · exact ((next_munches OneToken.table_grammar).2 "éa" 0 ⟨2, ⟨0, 2⟩⟩ _ _ _).mpr (by decide +kernel)

end Lexer

end IncrementalParsing
