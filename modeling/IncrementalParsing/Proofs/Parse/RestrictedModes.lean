import IncrementalParsing.Proofs.Parse.LongestMatch
import IncrementalParsing.Proofs.Parse.Lookahead
import IncrementalParsing.Proofs.Table.Structure

/-!
# Looking for fewer tokens

In the lex mode of a state only the tokens are looked for that the state can use.  A token that wins
among all tokens wins among these too, if it is one of them: nothing that is left out has won before it
either, since every mode has all the extras, and only extras are skipped.  What changes is at most how
far the text behind the token was looked at.

## Key results

- `IsBest.restrict`: the best match is the best of fewer tokens
- `examined_longestMatch_le_iff`: a contest has looked as far as one of its tokens, or as the search before
- `finds_restricted`: a search over trivia goes the same way in a mode with fewer tokens
- `Lexer.next_restricted`: so a token that a state can use is never taken for another one there
-/

namespace IncrementalParsing

/-! ## The tokens of a mode -/

/-- Every lex mode lists tokens, with all extras among them. -/
theorem ParserTable.tokens_of_ofGrammar {g : FlatGrammar} (hg : ∀ a ∈ g.extras, a ∈ g.lexicalTerminals)
    {p : ParserTable} (h : ofGrammar g = .ok p) :
    ∀ mode ∈ p.lexModes, mode ⊆ g.lexicalTerminals ∧ g.extras ⊆ mode := by
  unfold ofGrammar at h
  simp only [Except.bind_eq_ok, Except.pure_eq_ok, Except.mapM_eq_ok] at h
  obtain ⟨_, -, actions, -, ⟨states, modes⟩, hassign, rfl⟩ := h
  -- every list of tokens has the property, and the search for lists keeps it
  refine (assignLexModes_spec (P := fun mode => mode ⊆ g.lexicalTerminals ∧ g.extras ⊆ mode)
    (fun actions => ?_) (fun m hm => ?_) hassign).2.2.1
  · exact ⟨fun a ha => (mem_stateTokens.mp ha).elim And.left (hg a),
      fun a ha => mem_stateTokens.mpr (.inr ha)⟩
  · obtain rfl := Array.mem_singleton.mp hm
    exact ⟨fun _ => id, hg⟩

/-- A lex mode in which some of all tokens are looked for, and every extra. -/
structure Table.Restricts (t : Table) (mode : LexMode) : Prop where
  ascending : (t.modeSymbols mode).Pairwise (· < ·)
  tokens : t.modeSymbols mode ⊆ t.modeSymbols allTokens
  extras : ∀ a, t.isExtra a = true → a ∈ t.modeSymbols mode

/-- The lex modes of a grammar's table are such modes. -/
theorem Grammar.restricts_table {g : Grammar} {t : Table} (h : g.table = .ok t) {mode : LexMode}
    (hmode : mode < t.lexModes.size) : t.Restricts mode := by
  obtain ⟨flat, p, names, hflat, hg, hp, -, hagrees⟩ := agrees_table h
  have hr := regular_flatten hflat
  have hspeaks := TableImage.speaks_of_agrees hg hagrees
  have hlists := (ParserTable.lists_of_ofGrammar hp).2.1
  have hmem := Array.getElem_mem hmode
  have hfound : t.modeSymbols mode = t.lexModes[mode] := by
    rw [Table.modeSymbols, Array.getElem?_eq_getElem hmode, Option.getD_some]
  -- the mode in which all tokens are looked for comes first
  have hall : t.modeSymbols allTokens = flat.lexicalTerminals := by
    rw [Table.modeSymbols, hagrees.lexModes, hlists, Option.getD_some]
  simp only [hagrees.lexModes] at hmem
  obtain ⟨htokens, hextras⟩ :=
    ParserTable.tokens_of_ofGrammar (fun a ha => (List.mem_filter.mp ha).1) hp _ hmem
  refine ⟨modes_ascending h mode, ?_, fun a ha => ?_⟩
  · rw [hfound, hall]
    simpa only [hagrees.lexModes] using htokens
  · rw [hspeaks.extra, FlatGrammar.isExtra, ← hr.mem_extras] at ha
    rw [hfound]
    simpa only [hagrees.lexModes] using hextras ha

/-- The lex mode of a state is one of the table. -/
theorem Grammar.lexMode_lt {g : Grammar} {t : Table} (h : g.table = .ok t) {state : StateId}
    (hstate : state < t.states.size) : t.lexMode state < t.lexModes.size := by
  obtain ⟨flat, p, names, -, hg, hp, -, hagrees⟩ := agrees_table h
  have hproper := ParserTable.proper_of_ofGrammar hg hp
  rw [Table.lexMode, Array.getElem?_eq_getElem hstate, hagrees.lexModes]
  exact hproper.lexMode _ (hagrees.states ▸ Array.getElem_mem hstate)

namespace Lexer

variable {t : Table} {text : ByteArray} {symbols : List Symbol} {start : Nat} {direct : Bool}

/-! ## Contests between fewer tokens -/

theorem Offers.mono {fewer : List Symbol} {c : Candidate} (hsub : fewer ⊆ symbols)
    (h : Offers t text fewer start direct c) : Offers t text symbols start direct c :=
  ⟨hsub h.mem, h.nonempty, h.token⟩

/-- The best match is the best of fewer tokens, if its own is still there. -/
theorem IsBest.restrict {fewer : List Symbol} {best : Option Candidate} (hsub : fewer ⊆ symbols)
    (hbest : ∀ c, best = some c → c.symbol ∈ fewer) (h : IsBest t text symbols start direct best) :
    IsBest t text fewer start direct best := by
  cases best with
  | none => exact fun c hc => h c (hc.mono hsub)
  | some c =>
    exact ⟨⟨hbest c rfl, h.1.nonempty, h.1.token⟩, fun d hd => h.2 d (hd.mono hsub)⟩

/-- How far is looked to try a token; one that has to follow directly is not tried anywhere else. -/
def seen (t : Table) (text : ByteArray) (start : Nat) (direct : Bool) (symbol : Symbol) : Nat :=
  match t.symbol? symbol, t.lexeme? symbol with
  | some info, some lexeme =>
    if info.immediate && !direct then 0 else (lexeme.automaton.scan text start).2
  | _, _ => 0

theorem examined_attempt (c : Contest) (symbol : Symbol) :
    (c.attempt t text start direct symbol).examined =
      max c.examined (seen t text start direct symbol) := by
  unfold Contest.attempt seen
  cases t.symbol? symbol with
  | none => exact (Nat.max_zero _).symm
  | some info =>
    cases t.lexeme? symbol with
    | none => exact (Nat.max_zero _).symm
    | some lexeme =>
      dsimp only
      split
      · exact (Nat.max_zero _).symm
      · split
        · rfl
        · split <;> rfl

/-- A contest has looked as far as the search before it or as one of its tokens. -/
theorem examined_longestMatch_le_iff {examined bound : Nat} :
    (longestMatch t text symbols start direct examined).examined ≤ bound ↔
      examined ≤ bound ∧ ∀ symbol ∈ symbols, seen t text start direct symbol ≤ bound := by
  -- the fold is stated for every contest it starts from
  suffices ∀ contest : Contest,
      (symbols.foldl (Contest.attempt t text start direct) contest).examined ≤ bound ↔
        contest.examined ≤ bound ∧ ∀ symbol ∈ symbols, seen t text start direct symbol ≤ bound from
    this ⟨none, examined⟩
  induction symbols with
  | nil => simp
  | cons symbol rest ih =>
    intro contest
    rw [List.foldl_cons, ih, examined_attempt, Nat.max_le, List.forall_mem_cons, and_assoc]

/-- A contest between fewer tokens does not look further. -/
theorem examined_longestMatch_mono {fewer : List Symbol} {examined examined' : Nat}
    (hsub : fewer ⊆ symbols) (hle : examined' ≤ examined) :
    (longestMatch t text fewer start direct examined').examined ≤
      (longestMatch t text symbols start direct examined).examined := by
  obtain ⟨hbefore, hseen⟩ := examined_longestMatch_le_iff.mp
    (Nat.le_refl (longestMatch t text symbols start direct examined).examined)
  exact examined_longestMatch_le_iff.mpr
    ⟨Nat.le_trans hle hbefore, fun symbol hs => hseen symbol (hsub hs)⟩

/-! ## Searches with fewer tokens -/

/-- A token is found again: the same one at the same place, for which no more of the text behind it was
looked at.  The lex modes can differ. -/
structure FoundAgain (found' found : Token) : Prop where
  symbol : found'.symbol = found.symbol
  padding : found'.padding = found.padding
  size : found'.size = found.size
  lookahead : found'.lookahead ≤ found.lookahead

/-- Tokens between the same places have the same lengths. -/
theorem foundAgain_token {symbol : Symbol} {position start : Length} {finish examined examined' : Nat}
    {mode mode' : LexMode} (hle : examined' ≤ examined) :
    FoundAgain (token text symbol position start finish examined' mode')
      (token text symbol position start finish examined mode) :=
  ⟨rfl, rfl, rfl, Nat.sub_le_sub_right hle finish⟩

theorem isExtra_of_isTrivia {a : Symbol} (h : t.isTrivia a = true) : t.isExtra a = true := by
  obtain ⟨info, hinfo, htrivia⟩ := (Option.any_eq_true ..).mp h
  simp only [SymbolInfo.isTrivia, Bool.and_eq_true] at htrivia
  rw [Table.isExtra, hinfo]
  exact htrivia.1.2

/-- The winner among all tokens wins in a lex mode that it is in, and where nothing wins among all
nothing does in any mode. -/
theorem best_restricted (hall : (t.modeSymbols allTokens).Pairwise (· < ·)) {mode : LexMode}
    (h : t.Restricts mode) {examined : Nat} (examined' : Nat) {best : Option Candidate}
    (hbest : (longestMatch t text (t.modeSymbols allTokens) start direct examined).best = best)
    (hmem : ∀ c, best = some c → c.symbol ∈ t.modeSymbols mode) :
    (longestMatch t text (t.modeSymbols mode) start direct examined').best = best :=
  isBest_unique (longestMatch_best t text start direct h.ascending examined')
    ((hbest ▸ longestMatch_best t text start direct hall examined).restrict h.tokens hmem)

/-- A search for all tokens goes the same way in a lex mode, if what it finds in the end is looked for
there. -/
theorem finds_restricted (hall : (t.modeSymbols allTokens).Pairwise (· < ·)) {mode : LexMode}
    (h : t.Restricts mode) {position from' : Length} {examined : Nat} {found : Token}
    (hfinds : Finds t text allTokens position from' examined found)
    (hfound : found.symbol ∈ t.modeSymbols allTokens → found.symbol ∈ t.modeSymbols mode) :
    ∀ examined' ≤ examined, ∃ found', Finds t text mode position from' examined' found' ∧
      FoundAgain found' found := by
  -- the induction is on the search for all tokens, which the mode's search follows
  induction hfinds with
  | finish hend =>
    exact fun examined' hle => ⟨_, .finish hend, foundAgain_token (by omega)⟩
  | @trivia start _ c _ hlt hbest ht _ ih =>
    intro examined' hle
    -- what is skipped is an extra, and the mode has these
    have hmem := h.extras c.symbol (isExtra_of_isTrivia ht)
    have hbest' := best_restricted hall h examined' hbest fun _ hc => by cases hc; exact hmem
    obtain ⟨found', hfinds', hagain⟩ := ih hfound _ (examined_longestMatch_mono h.tokens hle)
    exact ⟨found', .trivia hlt hbest' ht hfinds', hagain⟩
  | @found start _ c hlt hbest ht =>
    intro examined' hle
    have hmem := hfound (longestMatch_spec hbest).1
    have hbest' := best_restricted hall h examined' hbest fun _ hc => by cases hc; exact hmem
    exact ⟨_, .found hlt hbest' ht, foundAgain_token (examined_longestMatch_mono h.tokens hle)⟩
  -- where no token matches, none of the mode does
  | @unmatched start _ hlt hbest =>
    intro examined' hle
    have hbest' := best_restricted hall h examined' hbest fun _ hc => by cases hc
    have hexamined :
        (longestMatch t text (t.modeSymbols mode) start.bytes (start == position) examined').examined ≤
          (longestMatch t text (t.modeSymbols allTokens) start.bytes (start == position) _).examined :=
      examined_longestMatch_mono h.tokens hle
    exact ⟨_, .unmatched hlt hbest', foundAgain_token (by omega)⟩

/-- In a lex mode the token is found that is found among all of them, if that is one that the mode lists,
an error or the end; no more of the text behind it is looked at.  So in a state no token that it can use
is taken for another one, nor is an extra. -/
theorem next_restricted {g : Grammar} {t : Table} (h : g.table = .ok t) (text : ByteArray)
    (position : Length) :
    (∀ mode < t.lexModes.size, ∀ found, next t text position allTokens = found →
      found.symbol = Symbol.finish ∨ found.symbol = Symbol.error ∨
        found.symbol ∈ t.modeSymbols mode →
      FoundAgain (next t text position mode) found) ∧
    ∀ state < t.states.size, ∀ found, next t text position allTokens = found →
      found.symbol = Symbol.finish ∨ found.symbol = Symbol.error ∨
        (t.action? state found.symbol).isSome = true ∨ t.isExtra found.symbol = true →
      FoundAgain (next t text position (t.lexMode state)) found := by
  obtain ⟨flat, graph, -, -, -, hseeks, -⟩ := Grammar.table_structure h
  have hrestricts : ∀ mode < t.lexModes.size, t.Restricts mode := fun _ => Grammar.restricts_table h
  have hall := Grammar.modes_ascending h allTokens
  have hagain : ∀ mode, t.Restricts mode → ∀ found, next t text position allTokens = found →
      (found.symbol ∈ t.modeSymbols allTokens → found.symbol ∈ t.modeSymbols mode) →
      FoundAgain (next t text position mode) found := by
    rintro mode hmode found rfl hfound
    obtain ⟨found', hfinds, hagain⟩ := finds_restricted hall hmode
      (finds_next t text position allTokens) hfound _ (Nat.le_refl _)
    rwa [finds_unique (finds_next t text position mode) hfinds]
  -- the end and errors are no tokens that are looked for
  have htoken : ∀ a, a ∈ t.modeSymbols allTokens →
      a ≠ Symbol.finish ∧ a ≠ Symbol.error := fun a ha =>
    ((hseeks.lexical a).mp (hseeks.all ▸ ha)).2
  refine ⟨fun mode hmode found hfound hkind => ?_, fun state hstate found hfound hkind => ?_⟩
  · refine hagain mode (hrestricts mode hmode) found hfound fun hmem => ?_
    exact (hkind.resolve_left (htoken _ hmem).1).resolve_left (htoken _ hmem).2
  · refine hagain _ (hrestricts _ (Grammar.lexMode_lt h hstate)) found hfound fun hmem => ?_
    -- a mode has the tokens with an action in its states, and the extras
    obtain haction | hextra :=
      (hkind.resolve_left (htoken _ hmem).1).resolve_left (htoken _ hmem).2
    · exact (hseeks.mem_iff state hstate _).mpr (.inl ⟨hseeks.all ▸ hmem, haction⟩)
    · exact (hseeks.mem_iff state hstate _).mpr (.inr hextra)

/-- Where only the end is expected, a character that is no token is found as it is among all tokens, and
the token `a` is found where it is expected. -/
theorem next_restricted_oneToken :
    OneToken.table.modeSymbols (OneToken.table.lexMode 1) ≠ OneToken.table.modeSymbols allTokens ∧
    FoundAgain (next OneToken.table "éa".toUTF8 .zero (OneToken.table.lexMode 1))
      ⟨Symbol.error, .zero, ⟨2, ⟨0, 2⟩⟩, 0, allTokens⟩ ∧
    FoundAgain (next OneToken.table "éa".toUTF8 ⟨2, ⟨0, 2⟩⟩ (OneToken.table.lexMode 0))
      ⟨3, .zero, ⟨1, ⟨0, 1⟩⟩, 1, allTokens⟩ := by
  refine ⟨by decide, ?_, ?_⟩
  · exact (next_restricted OneToken.table_grammar "éa".toUTF8 .zero).1 _ (by decide) _
      (by decide +kernel) (.inr (.inl rfl))
  · exact (next_restricted OneToken.table_grammar "éa".toUTF8 ⟨2, ⟨0, 2⟩⟩).2 0 (by decide) _
      (by decide +kernel) (.inr (.inr (.inl (by decide))))

end Lexer

end IncrementalParsing
