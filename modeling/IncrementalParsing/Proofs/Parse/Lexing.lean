import IncrementalParsing.Parse.Lexer
import IncrementalParsing.Proofs.Text.Slices

/-!
# What the lexer finds

`Lexer.Finds` describes the search for a token without counting its rounds: trivia is skipped until a
token, an unmatched character or the end of the text comes.  What holds of tokens is proved by
induction on it.

## Key results

- `scan_bounds`: a match is not empty and lies in the text
- `longestMatch_spec`: the longest match is one of a token of the mode
- `finds_next`: `Lexer.next` is such a search
- `next_progress`: a token that is not the end takes bytes that the text has
-/

namespace IncrementalParsing

namespace Automaton

theorem scanFrom_bounds {a : Automaton} {text : ByteArray} {start left place : Nat} {s : State}
    {longest : Option Nat} {stop : Nat} (hplace : start ≤ place)
    (hlongest : ∀ i, longest = some i → start < i ∧ i ≤ place)
    (h : (scanFrom a text start left place s longest).1 = some stop) :
    start < stop ∧ stop ≤ place + left := by
  -- the longest match so far ends at or before the place, and moves there when a state matches
  induction left generalizing place s longest with
  | zero =>
    simp only [scanFrom] at h
    split at h
    · rename_i hs
      simp only [Bool.and_eq_true, decide_eq_true_eq] at hs
      cases h
      exact ⟨hs.2, by omega⟩
    · exact hlongest stop h
  | succ left ih =>
    simp only [scanFrom] at h
    split at h
    · have := hlongest stop h
      omega
    · split at h
      · have := hlongest stop h
        omega
      -- a state that matches makes this place the end of the longest match
      · have := ih (by omega) (fun i hi => by
          split at hi
          · rename_i hs
            simp only [Bool.and_eq_true, decide_eq_true_eq] at hs
            cases hi
            exact ⟨hs.2, by omega⟩
          · have := hlongest i hi
            omega) h
        omega

/-- A match is not empty and lies in the text. -/
theorem scan_bounds {a : Automaton} {text : ByteArray} {start stop : Nat}
    (hstart : start ≤ text.size) (h : (a.scan text start).1 = some stop) :
    start < stop ∧ stop ≤ text.size := by
  have := scanFrom_bounds (Nat.le_refl start) (by simp) h
  omega

end Automaton

namespace Lexer

variable {t : Table} {text : ByteArray}

/-! ## The longest match -/

/-- A candidate is the match of a token of the list. -/
def IsMatch (t : Table) (text : ByteArray) (symbols : List Symbol) (start : Nat) (c : Candidate) :
    Prop :=
  c.symbol ∈ symbols ∧ ∃ lexeme, t.lexeme? c.symbol = some lexeme ∧
    (lexeme.automaton.scan text start).1 = some c.finish

theorem attempt_spec {start : Nat} {direct : Bool} {contest : Contest} {symbol : Symbol}
    {c : Candidate} (h : (contest.attempt t text start direct symbol).best = some c) :
    contest.best = some c ∨ IsMatch t text [symbol] start c := by
  unfold Contest.attempt at h
  split at h
  · rename_i info lexeme hinfo hlexeme
    split at h
    · exact .inl h
    · dsimp only at h
      split at h
      · exact .inl h
      -- a candidate replaces the best one only when it beats it
      · rename_i finish hfinish
        split at h
        · cases h
          exact .inr ⟨by simp, lexeme, hlexeme, hfinish⟩
        · exact .inl h
  · exact .inl h

/-- The longest match is one of a token that was looked for. -/
theorem longestMatch_spec {symbols : List Symbol} {start examined : Nat} {direct : Bool}
    {c : Candidate} (h : (longestMatch t text symbols start direct examined).best = some c) :
    IsMatch t text symbols start c := by
  -- the contest is generalised, as it is the state of the fold
  suffices ∀ (contest : Contest), (∀ c, contest.best = some c → IsMatch t text symbols start c) →
      ∀ rest : List Symbol, (∀ s ∈ rest, s ∈ symbols) → ∀ c,
      (rest.foldl (Contest.attempt t text start direct) contest).best = some c →
      IsMatch t text symbols start c from
    this ⟨none, examined⟩ (by simp) symbols (fun _ => id) c h
  intro contest hcontest rest hrest
  induction rest generalizing contest with
  | nil => exact hcontest
  | cons symbol rest ih =>
    intro c hc
    refine ih _ (fun c hc => ?_) (fun s hs => hrest s (List.mem_cons_of_mem _ hs)) c hc
    obtain hold | ⟨hsym, hm⟩ := attempt_spec hc
    · exact hcontest c hold
    · rw [List.mem_singleton] at hsym
      exact ⟨hsym ▸ hrest symbol (List.mem_cons_self ..), hm⟩

theorem bounds_of_isMatch {symbols : List Symbol} {start : Nat} {c : Candidate}
    (hstart : start ≤ text.size) (h : IsMatch t text symbols start c) :
    start < c.finish ∧ c.finish ≤ text.size := by
  obtain ⟨-, lexeme, -, hm⟩ := h
  exact Automaton.scan_bounds hstart hm

theorem charWidth_pos (text : ByteArray) (i : Nat) : 0 < charWidth text i := by
  unfold charWidth
  split
  · exact Nat.one_pos
  · split
    · exact Nat.one_pos
    · split
      · exact Nat.succ_pos _
      · exact Nat.one_pos

/-! ## The search for a token -/

/-- How the token after `position` is found from `start` on, where everything between is trivia. -/
inductive Finds (t : Table) (text : ByteArray) (mode : LexMode) (position : Length) :
    (start : Length) → (examined : Nat) → Token → Prop
  | finish {start : Length} {examined : Nat} (h : text.size ≤ start.bytes) :
      Finds t text mode position start examined
        (token text Symbol.finish position start start.bytes (max examined (text.size + 1)) mode)
  | trivia {start : Length} {examined : Nat} {c : Candidate} {found : Token}
      (h : start.bytes < text.size)
      (hbest : (longestMatch t text (t.modeSymbols mode) start.bytes (start == position)
        examined).best = some c)
      (ht : t.isTrivia c.symbol = true)
      (hnext : Finds t text mode position (start + .span text start.bytes c.finish)
        (longestMatch t text (t.modeSymbols mode) start.bytes (start == position) examined).examined
        found) :
      Finds t text mode position start examined found
  | found {start : Length} {examined : Nat} {c : Candidate} (h : start.bytes < text.size)
      (hbest : (longestMatch t text (t.modeSymbols mode) start.bytes (start == position)
        examined).best = some c)
      (ht : t.isTrivia c.symbol = false) :
      Finds t text mode position start examined
        (token text c.symbol position start c.finish (longestMatch t text (t.modeSymbols mode)
          start.bytes (start == position) examined).examined mode)
  | unmatched {start : Length} {examined : Nat} (h : start.bytes < text.size)
      (hbest : (longestMatch t text (t.modeSymbols mode) start.bytes (start == position)
        examined).best = none) :
      Finds t text mode position start examined
        (token text Symbol.error position start (start.bytes + charWidth text start.bytes)
          (max (longestMatch t text (t.modeSymbols mode) start.bytes (start == position)
            examined).examined (start.bytes + charWidth text start.bytes)) mode)

theorem finds_nextFrom (mode : LexMode) (position : Length) {fuel : Nat} {start : Length}
    (examined : Nat) (hfuel : text.size - start.bytes < fuel) :
    Finds t text mode position start examined
      (nextFrom t text mode position fuel start examined) := by
  -- the induction is on the fuel, of which there is more than there are bytes left
  induction fuel generalizing start examined with
  | zero => omega
  | succ fuel ih =>
    unfold nextFrom
    dsimp only
    split
    · rename_i h
      exact .finish h
    · rename_i h
      have hlt : start.bytes < text.size := by omega
      split
      · rename_i c hbest
        split
        · rename_i ht
          -- trivia is not empty, so the fuel lasts
          have hb := bounds_of_isMatch (Nat.le_of_lt hlt) (longestMatch_spec hbest)
          refine .trivia hlt hbest ht (ih _ ?_)
          rw [Length.bytes_add, Length.bytes_span]
          omega
        · rename_i ht
          exact .found hlt hbest (by simpa using ht)
      · rename_i hbest
        exact .unmatched hlt hbest

/-- `next` searches for the token from its place on. -/
theorem finds_next (t : Table) (text : ByteArray) (position : Length) (mode : LexMode) :
    Finds t text mode position position position.bytes (next t text position mode) :=
  finds_nextFrom mode position position.bytes (Nat.lt_succ_self _)

/-- A token that is not the end takes bytes that the text has. -/
theorem progress_of_finds {mode : LexMode} {position start : Length} {examined : Nat}
    {found : Token} (h : Finds t text mode position start examined found)
    (hf : found.symbol ≠ Symbol.finish) : start.bytes < text.size ∧ 0 < found.size.bytes := by
  -- the induction is on the scan, which passes over extras before it finds a token
  induction h with
  | finish => exact absurd rfl hf
  | trivia hlt _ _ _ ih => exact ⟨hlt, (ih hf).2⟩
  | found hlt hbest _ =>
    have := bounds_of_isMatch (Nat.le_of_lt hlt) (longestMatch_spec hbest)
    refine ⟨hlt, ?_⟩
    simp only [token, Length.bytes_span]
    omega
  | @unmatched start _ hlt _ =>
    refine ⟨hlt, ?_⟩
    have := charWidth_pos text start.bytes
    simp only [token, Length.bytes_span]
    omega

/-- A token that is not the end takes bytes that the text has. -/
theorem next_progress {position : Length} {mode : LexMode}
    (hf : (next t text position mode).symbol ≠ Symbol.finish) :
    position.bytes < text.size ∧ 0 < (next t text position mode).size.bytes :=
  progress_of_finds (finds_next t text position mode) hf

/-- Tokens are those of the mode, errors, and the end. -/
theorem symbol_of_finds {mode : LexMode} {position start : Length} {examined : Nat}
    {found : Token} (h : Finds t text mode position start examined found) :
    found.symbol = Symbol.finish ∨ found.symbol = Symbol.error ∨
      found.symbol ∈ t.modeSymbols mode := by
  induction h with
  | finish => exact .inl rfl
  | trivia _ _ _ _ ih => exact ih
  | found _ hbest _ => exact .inr (.inr (longestMatch_spec hbest).1)
  | unmatched => exact .inr (.inl rfl)

end Lexer

end IncrementalParsing
