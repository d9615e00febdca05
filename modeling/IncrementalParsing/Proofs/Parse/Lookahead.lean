import IncrementalParsing.Proofs.Parse.Lexing
import IncrementalParsing.Proofs.Table.Compiled
import IncrementalParsing.Proofs.Text.Edits

/-!
# What a token depends on

Looking for a token reads the byte before a place and the bytes from there on, up to the last one that
an automaton has looked at.  Where the same bytes stand around a place of another text, the same token
is found there.  Automata, the contest between tokens and the search over trivia are followed in both
texts at once; places are counted from where the search began, so that they are the same in both.

## Key results

- `scan_agrees`: an automaton that reads the same bytes answers the same
- `longestMatch_agrees`: so does the contest between the tokens of a mode
- `finds_agrees`: so does the search over trivia
- `Lexer.next_of_agrees`: a token is found again wherever what was looked at for it is the same
-/

namespace IncrementalParsing

/-! ## Bytes around two places -/

/-- Around two places of two texts the same bytes stand: the `len` bytes from the places on, where the
end of a text counts as a byte of its own, and the byte before them unless the texts begin there. -/
structure AgreesAround (text text' : ByteArray) (i i' len : Nat) : Prop where
  start : i = 0 ↔ i' = 0
  before : 0 < i → byteAt? text' (i' - 1) = byteAt? text (i - 1)
  bytes : ∀ j < len, byteAt? text' (i' + j) = byteAt? text (i + j)

theorem byteAt?_eq_none_iff {text : ByteArray} {i : Nat} : byteAt? text i = none ↔ text.size ≤ i := by
  unfold byteAt?
  split <;> simp <;> omega

theorem isSome_byteAt? {text : ByteArray} {i : Nat} (h : i < text.size) :
    ∃ b, byteAt? text i = some b := by
  rw [← Option.isSome_iff_exists, Option.isSome_iff_ne_none, ne_eq, byteAt?_eq_none_iff]
  omega

namespace AgreesAround

variable {text text' : ByteArray} {i i' len : Nat}

theorem mono (h : AgreesAround text text' i i' len) {len' : Nat} (hle : len' ≤ len) :
    AgreesAround text text' i i' len' :=
  ⟨h.start, h.before, fun j hj => h.bytes j (Nat.lt_of_lt_of_le hj hle)⟩

/-- The other text goes on as far. -/
theorem le_size (h : AgreesAround text text' i i' len) (hi' : i' ≤ text'.size) {k : Nat} (hk : k ≤ len)
    (hsize : i + k ≤ text.size) : i' + k ≤ text'.size := by
  cases k with
  | zero => exact hi'
  | succ k =>
    obtain ⟨b, hb⟩ := @isSome_byteAt? text (i + k) (by omega)
    rw [← h.bytes k hk] at hb
    exact lt_size_of_byteAt? hb

/-- The texts agree from places further on as well. -/
theorem skip (h : AgreesAround text text' i i' len) {k : Nat} (hk : k ≤ len) :
    AgreesAround text text' (i + k) (i' + k) (len - k) := by
  cases k with
  | zero => exact h
  | succ k =>
    refine ⟨by omega, fun _ => h.bytes k hk, fun j hj => ?_⟩
    rw [Nat.add_assoc i', Nat.add_assoc i]
    exact h.bytes (k + 1 + j) (by omega)

/-- The texts end at the same place. -/
theorem size_le_iff (h : AgreesAround text text' i i' len) {k : Nat} (hk : k < len) :
    text'.size ≤ i' + k ↔ text.size ≤ i + k := by
  rw [← byteAt?_eq_none_iff, ← byteAt?_eq_none_iff, h.bytes k hk]

theorem lt_size (h : AgreesAround text text' i i' len) {k : Nat} (hk : k < len)
    (hlt : i + k < text.size) : i' + k < text'.size :=
  Nat.lt_of_not_le fun hle => Nat.not_le.mpr hlt ((h.size_le_iff hk).mp hle)

/-- The byte before a place further on is the same as well. -/
theorem before_add (h : AgreesAround text text' i i' len) {k : Nat} (hk : k ≤ len) :
    (if i' + k = 0 then none else byteAt? text' (i' + k - 1)) =
      if i + k = 0 then none else byteAt? text (i + k - 1) := by
  have hstart := h.start
  -- the byte before the place lies in front of the agreed part, or in it
  cases k with
  | zero =>
    by_cases h0 : i = 0
    · rw [if_pos (by omega), if_pos (by omega)]
    · rw [if_neg (by omega), if_neg (by omega)]
      exact h.before (Nat.pos_of_ne_zero h0)
  | succ k =>
    rw [if_neg (by omega), if_neg (by omega)]
    exact h.bytes k hk

/-- Whether there is a boundary depends on what stands there. -/
theorem isBoundary_eq (h : AgreesAround text text' i i' len) (hi' : i' ≤ text'.size) {k : Nat}
    (hk : k < len) (hsize : i + k ≤ text.size) :
    isBoundary text' (i' + k) = isBoundary text (i + k) := by
  have hsize' := h.le_size hi' (Nat.le_of_lt hk) hsize
  have hend := h.size_le_iff hk
  have hstart := h.start
  rw [Bool.eq_iff_iff, isBoundary_iff, isBoundary_iff, h.bytes k hk]
  have h0 : i' + k = 0 ↔ i + k = 0 := by omega
  have hsizes : i' + k = text'.size ↔ i + k = text.size := by omega
  rw [h0, hsizes]
  simp only [hsize, hsize', and_true]

/-- The pieces between two places are the same. -/
theorem extract_eq (h : AgreesAround text text' i i' len) (hi' : i' ≤ text'.size) {k l : Nat}
    (hl : l ≤ len) (hsize : i + l ≤ text.size) :
    text'.extract (i' + k) (i' + l) = text.extract (i + k) (i + l) := by
  have hsize' := h.le_size hi' hl hsize
  refine ByteArray.ext_getElem ?_ fun j hj hj' => ?_
  · simp only [ByteArray.size_extract]
    omega
  · have hjl : k + j < l := by
      rw [ByteArray.size_extract] at hj'
      omega
    -- the texts agree byte by byte
    have hbyte := h.bytes (k + j) (by omega)
    simp only [byteAt?] at hbyte
    rw [dif_pos (by omega), dif_pos (by omega), Option.some.injEq] at hbyte
    simp only [ByteArray.getElem_extract, Nat.add_assoc]
    exact hbyte

/-- Spans between places that are boundaries in both texts, or in neither, are the same. -/
theorem span_eq (h : AgreesAround text text' i i' len) (hi' : i' ≤ text'.size) {k l : Nat}
    (hl : l ≤ len) (hsize : i + l ≤ text.size)
    (hk : isBoundary text' (i' + k) = isBoundary text (i + k))
    (hb : isBoundary text (i + k) = true →
      isBoundary text' (i' + l) = isBoundary text (i + l)) :
    Length.span text' (i' + k) (i' + l) = Length.span text (i + k) (i + l) := by
  have hle : (i' + k ≤ i' + l) ↔ (i + k ≤ i + l) := by omega
  have hdiff : i' + l - (i' + k) = i + l - (i + k) := by omega
  unfold Length.span
  rw [hk, h.extract_eq hi' hl hsize, hdiff]
  simp only [hle]
  -- a span counts characters only from a boundary on
  cases hstart : isBoundary text (i + k) with
  | false => simp
  | true => rw [hb hstart]

end AgreesAround

/-! ## Automata -/

namespace Automaton

variable {text text' : ByteArray} {i i' len : Nat}

/-- What a scan finds, where its places are counted from a place on. -/
def countedFrom (i : Nat) (found : Option Nat × Nat) : Option Nat × Nat :=
  (found.1.map (i + ·), i + found.2)

/-- The byte at which a scan stands has been looked at in the end. -/
theorem lt_scanFrom_seen (a : Automaton) (text : ByteArray) (start left place : Nat) (s : State)
    (longest : Option Nat) : place < (scanFrom a text start left place s longest).2 := by
  induction left generalizing place s longest with
  | zero => exact Nat.lt_succ_self _
  | succ left ih =>
    simp only [scanFrom]
    split
    · exact Nat.lt_succ_self _
    · split
      · exact Nat.lt_succ_self _
      · exact Nat.lt_of_succ_lt (ih _ _ _)

/-- An automaton that stands at corresponding places goes on in the same way. -/
theorem scanFrom_agrees (a : Automaton) (h : AgreesAround text text' i i' len) (hi' : i' ≤ text'.size)
    {first left k : Nat} {s : State} {longest : Option Nat} (hleft : i + k + left = text.size)
    (hseen : (scanFrom a text (i + first) left (i + k) s (longest.map (i + ·))).2 ≤ i + len) :
    ∃ found, scanFrom a text (i + first) left (i + k) s (longest.map (i + ·)) = countedFrom i found ∧
      scanFrom a text' (i' + first) (text'.size - (i' + k)) (i' + k) s (longest.map (i' + ·)) =
        countedFrom i' found := by
  -- a scan looks at least at the byte where it stands
  have hk : k < len := by
    have := lt_scanFrom_seen a text (i + first) left (i + k) s (longest.map (i + ·))
    omega
  have hsize' := h.le_size hi' (Nat.le_of_lt hk) (by omega)
  have hbyte := h.bytes k hk
  -- the induction is on the bytes left in the first text
  induction left generalizing k s longest with
  | zero =>
    -- the scan saw the end of the first text, so the second one ends there too
    have hend : text'.size - (i' + k) = 0 := by
      have := (h.size_le_iff hk).mpr (by omega)
      omega
    refine ⟨(if s.final && decide (first < k) then some k else longest, k + 1), ?_, ?_⟩
    · simp only [scanFrom, countedFrom, Nat.add_lt_add_iff_left]
      split <;> rfl
    · simp only [hend, scanFrom, countedFrom, Nat.add_lt_add_iff_left]
      split <;> rfl
  | succ left ih =>
    obtain ⟨b, hb⟩ := @isSome_byteAt? text (i + k) (by omega)
    rw [hb] at hbyte
    have hleft' : text'.size - (i' + k) = text'.size - (i' + (k + 1)) + 1 := by
      have := lt_size_of_byteAt? hbyte
      omega
    rw [hleft']
    simp only [scanFrom, hb, hbyte, Nat.add_lt_add_iff_left] at hseen ⊢
    cases hnext : s.next? b.toNat with
    | none => exact ⟨(longest, k + 1), rfl, rfl⟩
    | some target =>
      simp only [hnext] at hseen
      -- the match so far is kept as a distance, which is the same in both texts
      have hmatch : ∀ j : Nat, (if (a.state target).matched && decide (first < k) then some (j + k)
          else longest.map (j + ·)) =
          (if (a.state target).matched && decide (first < k) then some k else longest).map (j + ·) := by
        intro j
        split <;> rfl
      dsimp only at hseen ⊢
      rw [hmatch i] at hseen ⊢
      rw [hmatch i']
      have hlt := lt_scanFrom_seen a text (i + first) left (i + k + 1) (a.state target)
        ((if (a.state target).matched && decide (first < k) then some k else longest).map (i + ·))
      have hk : k + 1 < len := by omega
      exact ih (by omega) hseen hk (h.le_size hi' (Nat.le_of_lt hk) (by omega)) (h.bytes _ hk)

/-- An automaton that reads the same bytes answers the same. -/
theorem scan_agrees (a : Automaton) (h : AgreesAround text text' i i' len) (hi' : i' ≤ text'.size)
    {k : Nat} (hk : k ≤ len) (hsize : i + k ≤ text.size) (hseen : (a.scan text (i + k)).2 ≤ i + len) :
    ∃ found, a.scan text (i + k) = countedFrom i found ∧
      a.scan text' (i' + k) = countedFrom i' found := by
  have hbefore := congrArg (Option.map (ByteKind.ofByte ·.toNat)) (h.before_add hk)
  simp only [apply_ite (Option.map _), Option.map_none] at hbefore
  simp only [scan] at hseen ⊢
  rw [hbefore]
  exact @scanFrom_agrees _ _ _ _ _ a h hi' _ _ _ _ none (by omega) hseen

/-- An automaton sees a match one byte late. -/
theorem scanFrom_lt_seen {a : Automaton} {text : ByteArray} {start left place : Nat} {s : State}
    {longest : Option Nat} {stop : Nat} (hlongest : ∀ j, longest = some j → j ≤ place)
    (h : (scanFrom a text start left place s longest).1 = some stop) :
    stop < (scanFrom a text start left place s longest).2 := by
  -- the induction is on the bytes left, with a match that ended before this place
  induction left generalizing place s longest with
  | zero =>
    simp only [scanFrom] at h ⊢
    split at h
    · cases h
      exact Nat.lt_succ_self _
    · exact Nat.lt_succ_of_le (hlongest stop h)
  | succ left ih =>
    simp only [scanFrom] at h ⊢
    split at h
    · exact Nat.lt_succ_of_le (hlongest stop h)
    · split at h
      · exact Nat.lt_succ_of_le (hlongest stop h)
      · refine ih (fun j hj => ?_) h
        split at hj
        · cases hj
          exact Nat.le_succ _
        · exact Nat.le_succ_of_le (hlongest j hj)

theorem scan_lt_seen {a : Automaton} {text : ByteArray} {start stop : Nat}
    (h : (a.scan text start).1 = some stop) : stop < (a.scan text start).2 :=
  scanFrom_lt_seen (by simp) h

end Automaton

namespace Lexer

variable {t : Table} {text text' : ByteArray} {i i' len : Nat}

/-! ## The contest between tokens -/

/-- A candidate whose end is counted from a place on. -/
def Candidate.countedFrom (i : Nat) (c : Candidate) : Candidate := { c with finish := i + c.finish }

/-- A contest whose places are counted from a place on. -/
def Contest.countedFrom (i : Nat) (c : Contest) : Contest :=
  ⟨c.best.map (Candidate.countedFrom i), i + c.examined⟩

/-- Where the places are counted from decides no contest. -/
theorem beats_countedFrom (i : Nat) (a b : Candidate) :
    (a.countedFrom i).beats (b.countedFrom i) = a.beats b := by
  have hlt : (i + b.finish < i + a.finish) = (b.finish < a.finish) := by
    rw [Nat.add_lt_add_iff_left]
  have heq : (i + a.finish == i + b.finish) = (a.finish == b.finish) := by
    rw [Bool.eq_iff_iff, beq_iff_eq, beq_iff_eq]
    omega
  show (decide (i + b.finish < i + a.finish) || ((i + a.finish == i + b.finish) && _)) =
    (decide (b.finish < a.finish) || _)
  rw [heq, decide_eq_decide.mpr (Iff.of_eq hlt)]
  rfl

theorem examined_le_attempt (start : Nat) (direct : Bool) (c : Contest) (symbol : Symbol) :
    c.examined ≤ (c.attempt t text start direct symbol).examined := by
  unfold Contest.attempt
  split
  · split
    · exact Nat.le_refl _
    · dsimp only
      split
      · exact Nat.le_max_left _ _
      · split <;> exact Nat.le_max_left _ _
  · exact Nat.le_refl _

theorem examined_le_foldl (start : Nat) (direct : Bool) (symbols : List Symbol) (c : Contest) :
    c.examined ≤ (symbols.foldl (Contest.attempt t text start direct) c).examined := by
  induction symbols generalizing c with
  | nil => exact Nat.le_refl _
  | cons symbol rest ih =>
    exact Nat.le_trans (examined_le_attempt start direct c symbol) (ih _)

theorem examined_le_longestMatch (t : Table) (text : ByteArray) (symbols : List Symbol)
    (start examined : Nat) (direct : Bool) :
    examined ≤ (longestMatch t text symbols start direct examined).examined :=
  examined_le_foldl start direct symbols ⟨none, examined⟩

/-- The byte after the longest match has been looked at. -/
theorem finish_lt_examined {symbols : List Symbol} {start examined : Nat} {direct : Bool}
    {c : Candidate} (h : (longestMatch t text symbols start direct examined).best = some c) :
    c.finish < (longestMatch t text symbols start direct examined).examined := by
  -- what is examined only grows from one symbol to the next
  suffices ∀ contest : Contest, (∀ d, contest.best = some d → d.finish < contest.examined) →
      ∀ d, (symbols.foldl (Contest.attempt t text start direct) contest).best = some d →
        d.finish < (symbols.foldl (Contest.attempt t text start direct) contest).examined from
    this ⟨none, examined⟩ (by simp) c h
  clear h
  induction symbols with
  | nil => exact fun contest hcontest => hcontest
  | cons symbol rest ih =>
    -- what is examined is the largest number any scan has seen
    intro contest hcontest
    refine ih _ fun d hd => ?_
    unfold Contest.attempt at hd ⊢
    split at hd
    · rename_i info lexeme _ _
      split at hd
      · rename_i hskip
        rw [if_pos hskip]
        exact hcontest d hd
      · rename_i hskip
        rw [if_neg hskip]
        dsimp only at hd ⊢
        split at hd
        · exact Nat.lt_of_lt_of_le (hcontest d hd) (Nat.le_max_left _ _)
        · rename_i finish hfinish
          split at hd
          · rename_i hbeats
            rw [if_pos hbeats]
            cases hd
            exact Nat.lt_of_lt_of_le (Automaton.scan_lt_seen hfinish) (Nat.le_max_right _ _)
          · rename_i hbeats
            rw [if_neg hbeats]
            exact Nat.lt_of_lt_of_le (hcontest d hd) (Nat.le_max_left _ _)
    · exact hcontest d hd

/-- A token is tried in the same way where the same bytes stand. -/
theorem attempt_agrees (h : AgreesAround text text' i i' len) (hi' : i' ≤ text'.size) {k : Nat}
    (hk : k ≤ len) (hsize : i + k ≤ text.size) (direct : Bool) (c : Contest) (symbol : Symbol)
    (hseen : ((c.countedFrom i).attempt t text (i + k) direct symbol).examined ≤ i + len) :
    ∃ c' : Contest, (c.countedFrom i).attempt t text (i + k) direct symbol = c'.countedFrom i ∧
      (c.countedFrom i').attempt t text' (i' + k) direct symbol = c'.countedFrom i' := by
  unfold Contest.attempt at hseen ⊢
  cases hinfo : t.symbol? symbol with
  | none => exact ⟨c, rfl, rfl⟩
  | some info =>
    cases hlexeme : t.lexeme? symbol with
    | none => exact ⟨c, rfl, rfl⟩
    | some lexeme =>
      dsimp only
      simp only [hinfo, hlexeme] at hseen
      -- whether the token may stand here depends on the mode and not on the text
      by_cases hskip : (info.immediate && !direct) = true
      · rw [if_pos hskip, if_pos hskip]
        exact ⟨c, rfl, rfl⟩
      · rw [if_neg hskip] at hseen ⊢
        rw [if_neg hskip]
        -- what the automaton looked at is part of what the whole search looked at
        have hscan : (lexeme.automaton.scan text (i + k)).2 ≤ i + len := by
          refine Nat.le_trans ?_ hseen
          split
          · exact Nat.le_max_right _ _
          · split <;> exact Nat.le_max_right _ _
        obtain ⟨⟨finish, seen⟩, hfound, hfound'⟩ :=
          Automaton.scan_agrees lexeme.automaton h hi' hk hsize hscan
        have hmax : ∀ j : Nat, max (j + c.examined) (j + seen) = j + max c.examined seen :=
          fun j => by omega
        rw [hfound, hfound']
        simp only [Automaton.countedFrom, Contest.countedFrom, hmax]
        cases finish with
        | none => exact ⟨{ c with examined := max c.examined seen }, rfl, rfl⟩
        | some finish =>
          let candidate : Candidate := ⟨symbol, finish, info.precedence, info.literal⟩
          -- which candidate wins does not depend on the place
          have hbeats : ∀ j : Nat, (c.best.map (Candidate.countedFrom j)).all
              (Candidate.beats ⟨symbol, j + finish, info.precedence, info.literal⟩) =
              c.best.all candidate.beats := by
            intro j
            rw [Option.all_map]
            congr 1
            funext b
            exact beats_countedFrom j candidate b
          simp only [Option.map_some, hbeats]
          by_cases hwins : c.best.all candidate.beats = true
          · rw [if_pos hwins, if_pos hwins]
            exact ⟨⟨some candidate, max c.examined seen⟩, rfl, rfl⟩
          · rw [if_neg hwins, if_neg hwins]
            exact ⟨{ c with examined := max c.examined seen }, rfl, rfl⟩

/-- The contest between tokens has the same end where the same bytes stand. -/
theorem longestMatch_agrees (h : AgreesAround text text' i i' len) (hi' : i' ≤ text'.size) {k : Nat}
    (hk : k ≤ len) (hsize : i + k ≤ text.size) (symbols : List Symbol) (direct : Bool)
    (examined : Nat)
    (hseen : (longestMatch t text symbols (i + k) direct (i + examined)).examined ≤ i + len) :
    ∃ c : Contest, longestMatch t text symbols (i + k) direct (i + examined) = c.countedFrom i ∧
      longestMatch t text' symbols (i' + k) direct (i' + examined) = c.countedFrom i' := by
  -- the contest is generalised, as it is the state of the fold over the symbols
  suffices ∀ c : Contest, (symbols.foldl (Contest.attempt t text (i + k) direct)
      (c.countedFrom i)).examined ≤ i + len →
      ∃ c' : Contest, symbols.foldl (Contest.attempt t text (i + k) direct) (c.countedFrom i) =
        c'.countedFrom i ∧ symbols.foldl (Contest.attempt t text' (i' + k) direct)
          (c.countedFrom i') = c'.countedFrom i' from this ⟨none, examined⟩ hseen
  clear hseen
  induction symbols with
  | nil => exact fun c _ => ⟨c, rfl, rfl⟩
  | cons symbol rest ih =>
    intro c hseen
    rw [List.foldl_cons] at hseen
    -- what this symbol looked at is part of what all of them looked at
    obtain ⟨c', hc, hc'⟩ := attempt_agrees h hi' hk hsize direct c symbol
      (Nat.le_trans (examined_le_foldl _ _ _ _) hseen)
    rw [List.foldl_cons, List.foldl_cons, hc, hc']
    exact ih c' (hc ▸ hseen)

/-! ## The search over trivia -/

/-- A token reaches as far as was looked at for it, and at least over the byte where it was looked for
last. -/
theorem reach_of_finds {mode : LexMode} {position start : Length} {examined : Nat} {found : Token}
    (hp : position.bytes ≤ start.bytes) (hs : start.bytes ≤ text.size)
    (h : Finds t text mode position start examined found) :
    start.bytes < position.bytes + (found.total.bytes + found.lookahead) ∧
      examined ≤ position.bytes + (found.total.bytes + found.lookahead) := by
  -- what was examined before is examined still, and the end of a token was looked at
  induction h with
  | @finish start examined h =>
    simp only [Token.total, token, Length.bytes_add, Length.bytes_sub, Length.bytes_span]
    omega
  | @trivia start examined c found h hbest _ _ ih =>
    have hb := bounds_of_isMatch (Nat.le_of_lt h) (longestMatch_spec hbest)
    have hmono := examined_le_longestMatch t text (t.modeSymbols mode) start.bytes
      examined (start == position)
    rw [Length.bytes_add, Length.bytes_span] at ih
    have := ih (by omega) (by omega)
    omega
  | @found start examined c h hbest _ =>
    have hb := bounds_of_isMatch (Nat.le_of_lt h) (longestMatch_spec hbest)
    have hlt := finish_lt_examined hbest
    have hmono := examined_le_longestMatch t text (t.modeSymbols mode) start.bytes
      examined (start == position)
    simp only [Token.total, token, Length.bytes_add, Length.bytes_sub, Length.bytes_span]
    omega
  -- a character that nothing matches is a token with at least one byte
  | @unmatched start examined h _ =>
    have hpos := charWidth_pos text start.bytes
    have hmono := examined_le_longestMatch t text (t.modeSymbols mode) start.bytes
      examined (start == position)
    simp only [Token.total, token, Length.bytes_add, Length.bytes_sub, Length.bytes_span]
    omega

/-- No token can be found in two ways. -/
theorem finds_unique {mode : LexMode} {position start : Length} {examined : Nat} {a b : Token}
    (ha : Finds t text mode position start examined a)
    (hb : Finds t text mode position start examined b) : a = b := by
  -- the longest match at a place says which of the four cases it is
  induction ha with
  | finish h =>
    cases hb with
    | finish => rfl
    | trivia h' | found h' | unmatched h' => omega
  | trivia h hbest ht _ ih =>
    cases hb with
    | finish h' => omega
    | trivia _ hbest' _ hnext' =>
      rw [hbest, Option.some.injEq] at hbest'
      subst hbest'
      exact ih hnext'
    | found _ hbest' ht' =>
      rw [hbest, Option.some.injEq] at hbest'
      subst hbest'
      rw [ht] at ht'
      cases ht'
    | unmatched _ hbest' =>
      rw [hbest] at hbest'
      cases hbest'
  | found h hbest ht =>
    cases hb with
    | finish h' => omega
    | trivia _ hbest' ht' =>
      rw [hbest, Option.some.injEq] at hbest'
      subst hbest'
      rw [ht] at ht'
      cases ht'
    | found _ hbest' =>
      rw [hbest, Option.some.injEq] at hbest'
      subst hbest'
      rfl
    | unmatched _ hbest' =>
      rw [hbest] at hbest'
      cases hbest'
  | unmatched h hbest =>
    cases hb with
    | finish h' => omega
    | trivia _ hbest' | found _ hbest' =>
      rw [hbest] at hbest'
      cases hbest'
    | unmatched => rfl

/-- A character that is looked at is as wide in both texts. -/
theorem charWidth_agrees (h : AgreesAround text text' i i' len) {k : Nat} (hk : k < len) :
    charWidth text' (i' + k) = charWidth text (i + k) := by
  unfold charWidth
  rw [h.bytes k hk]

/-- Tokens whose places correspond and whose ends are boundaries in both texts, or in neither, are
equal. -/
theorem token_agrees (h : AgreesAround text text' i i' len) (hi' : i' ≤ text'.size) (symbol : Symbol)
    (examined : Nat) {position position' skipped : Length} (hi : position.bytes = i)
    (hi'' : position'.bytes = i') {finish : Nat} (hk : skipped.bytes < len) (hfinish : finish ≤ len)
    (hsize : i + finish ≤ text.size) (hle : skipped.bytes ≤ finish) (mode : LexMode)
    (hb : isBoundary text (i + skipped.bytes) = true →
      isBoundary text' (i' + finish) = isBoundary text (i + finish)) :
    token text' symbol position' (position' + skipped) (i' + finish) (i' + examined) mode =
      token text symbol position (position + skipped) (i + finish) (i + examined) mode := by
  have hspan := h.span_eq hi' hfinish hsize (h.isBoundary_eq hi' hk (by omega)) hb
  have hdiff : i' + examined - (i' + finish) = i + examined - (i + finish) := by omega
  simp only [token, Length.add_sub_cancel, Length.bytes_add, hi, hi'', hspan, hdiff]

/-- Where the bytes that were looked at for a token stand in another text, the search for it goes the
same way there. -/
theorem finds_agrees {s s' : String} {mode : LexMode} {position position' start : Length}
    {examined len : Nat} {found : Token}
    (h : AgreesAround s.toUTF8 s'.toUTF8 position.bytes position'.bytes len)
    (hi' : position'.bytes ≤ s'.toUTF8.size)
    (hfound : Finds t s.toUTF8 mode position start examined found)
    (hlen : found.total.bytes + found.lookahead ≤ len) :
    ∀ skipped e, start = position + skipped → examined = position.bytes + e →
      start.bytes ≤ s.toUTF8.size →
      Finds t s'.toUTF8 mode position' (position' + skipped) (position'.bytes + e) found := by
  -- the induction is on the search, whose start is given by what it has skipped
  induction hfound with
  | @finish start examined hend =>
    rintro skipped e rfl rfl hsize
    have hreach := (reach_of_finds (Nat.le_add_right _ _) hsize
      (.finish hend : Finds t s.toUTF8 mode position (position + skipped) (position.bytes + e) _)).1
    simp only [Length.bytes_add] at hreach hsize hend hlen
    have hk : skipped.bytes < len := by omega
    have hend' := (h.size_le_iff hk).mpr hend
    have hsize' := h.le_size hi' (Nat.le_of_lt hk) hsize
    have hmax : max (position.bytes + e) (s.toUTF8.size + 1) =
        position.bytes + max e (skipped.bytes + 1) := by omega
    have hmax' : max (position'.bytes + e) (s'.toUTF8.size + 1) =
        position'.bytes + max e (skipped.bytes + 1) := by omega
    have heq := token_agrees h hi' Symbol.finish (max e (skipped.bytes + 1)) rfl rfl hk
      (Nat.le_of_lt hk) hsize (Nat.le_refl _) mode fun _ => h.isBoundary_eq hi' hk hsize
    rw [← hmax, ← hmax'] at heq
    rw [Length.bytes_add, ← heq]
    exact .finish hend'
  | @trivia start examined c found hlt hbest ht hnext ih =>
    rintro skipped e rfl rfl hsize
    have hb := bounds_of_isMatch (Nat.le_of_lt hlt) (longestMatch_spec hbest)
    have hexamined := finish_lt_examined hbest
    have hreach := (reach_of_finds (by simp only [Length.bytes_add]; omega)
      (by simp only [Length.bytes_add, Length.bytes_span] at hb ⊢; omega) hnext).2
    simp only [Length.bytes_add, Length.add_beq_self] at hlt hbest hb hexamined hreach hsize ih hlen
    have hk : skipped.bytes < len := by omega
    obtain ⟨contest, hc, hc'⟩ := longestMatch_agrees (t := t) h hi' (Nat.le_of_lt hk) hsize
      (t.modeSymbols mode) (skipped == .zero) e (by omega)
    rw [hc] at hbest hexamined hreach ih
    obtain ⟨d, hd, rfl⟩ := Option.map_eq_some_iff.mp hbest
    simp only [Contest.countedFrom, Candidate.countedFrom] at hb hexamined hreach ih ht
    have hd' : d.finish < len := by omega
    -- the trivia takes up the same in both texts, so the search goes on at the same distance
    have hspan := h.span_eq hi' (Nat.le_of_lt hd') hb.2 (h.isBoundary_eq hi' hk hsize)
      fun _ => h.isBoundary_eq hi' hd' hb.2
    have hlt' := h.lt_size hk hlt
    refine .trivia (c := d.countedFrom position'.bytes) hlt' ?_ ht ?_
    · rw [Length.bytes_add, Length.add_beq_self, hc']
      exact congrArg (Option.map _) hd
    · rw [Length.bytes_add, Length.add_beq_self, hc', Length.add_assoc]
      change Finds t s'.toUTF8 mode position' (position' + (skipped + Length.span s'.toUTF8
        (position'.bytes + skipped.bytes) (position'.bytes + d.finish))) _ found
      rw [hspan]
      refine ih hlen _ contest.examined (Length.add_assoc ..) rfl ?_
      rw [Length.bytes_span]
      omega
  | @found start examined c hlt hbest ht =>
    rintro skipped e rfl rfl hsize
    have hb := bounds_of_isMatch (Nat.le_of_lt hlt) (longestMatch_spec hbest)
    have hexamined := finish_lt_examined hbest
    simp only [Token.total, token, Length.bytes_span, Length.bytes_add, Length.add_sub_cancel] at hlen
    rw [Length.bytes_add, Length.add_beq_self] at *
    have hk : skipped.bytes < len := by omega
    obtain ⟨contest, hc, hc'⟩ := longestMatch_agrees (t := t) h hi' (Nat.le_of_lt hk) hsize
      (t.modeSymbols mode) (skipped == .zero) e (by omega)
    rw [hc] at hbest hexamined hlen ⊢
    obtain ⟨d, hd, rfl⟩ := Option.map_eq_some_iff.mp hbest
    simp only [Contest.countedFrom, Candidate.countedFrom] at hb hexamined hlen
    have hd' : d.finish < len := by omega
    have hfound : Finds t s'.toUTF8 mode position' (position' + skipped) (position'.bytes + e) _ :=
      .found (c := d.countedFrom position'.bytes) (h.lt_size hk hlt)
        (by rw [Length.bytes_add, Length.add_beq_self, hc']; exact congrArg (Option.map _) hd) ht
    rw [Length.bytes_add, Length.add_beq_self, hc'] at hfound
    exact (token_agrees h hi' d.symbol _ rfl rfl hk (Nat.le_of_lt hd') hb.2 (by omega) mode
      fun _ => h.isBoundary_eq hi' hd' hb.2).subst hfound
  | @unmatched start examined hlt hbest =>
    rintro skipped e rfl rfl hsize
    -- the first byte of a character says how wide it is, and that byte was looked at
    have hwidth := add_charWidth_le hlt
    simp only [Token.total, token, Length.bytes_span, Length.bytes_add, Length.add_sub_cancel] at hlen
    rw [Length.bytes_add, Length.add_beq_self] at *
    have hk : skipped.bytes < len := by
      have := charWidth_pos s.toUTF8 (position.bytes + skipped.bytes)
      omega
    obtain ⟨contest, hc, hc'⟩ := longestMatch_agrees (t := t) h hi' (Nat.le_of_lt hk) hsize
      (t.modeSymbols mode) (skipped == .zero) e (by omega)
    rw [hc] at hbest hlen ⊢
    simp only [Contest.countedFrom] at hlen
    have hfound : Finds t s'.toUTF8 mode position' (position' + skipped) (position'.bytes + e) _ :=
      .unmatched (h.lt_size hk hlt)
        (by
          rw [Length.bytes_add, Length.add_beq_self, hc']
          exact congrArg (Option.map _) (Option.map_eq_none_iff.mp hbest))
    rw [Length.bytes_add, Length.add_beq_self, hc', charWidth_agrees h hk] at hfound
    simp only [Contest.countedFrom, Nat.add_assoc, Nat.add_max_add_left] at hfound hwidth ⊢
    refine (token_agrees h hi' Symbol.error _ rfl rfl hk (by omega) hwidth (Nat.le_add_right _ _) mode
      fun hb => ?_).subst hfound
    -- the byte after the character need not have been looked at: the character itself decides
    have hb' := (h.isBoundary_eq hi' hk hsize).trans hb
    have hend := isBoundary_add_charWidth hb hlt
    have hend' := isBoundary_add_charWidth hb' (h.lt_size hk hlt)
    rw [charWidth_agrees h hk] at hend'
    rw [← Nat.add_assoc, ← Nat.add_assoc, hend, hend']

/-- The token after a place is found again wherever what was looked at for it is the same. -/
theorem next_agrees (t : Table) (mode : LexMode) {s s' : String} {position position' : Length}
    {len : Nat} (h : AgreesAround s.toUTF8 s'.toUTF8 position.bytes position'.bytes len)
    (hi : position.bytes ≤ s.toUTF8.size) (hi' : position'.bytes ≤ s'.toUTF8.size)
    (hlen : (next t s.toUTF8 position mode).total.bytes +
      (next t s.toUTF8 position mode).lookahead ≤ len) :
    next t s'.toUTF8 position' mode = next t s.toUTF8 position mode := by
  have hfound := finds_agrees h hi' (finds_next t s.toUTF8 position mode) hlen .zero 0
    (Length.add_zero _).symm rfl hi
  rw [Length.add_zero] at hfound
  exact finds_unique (finds_next t s'.toUTF8 position' mode) hfound

/-- A token is found again wherever what was looked at for it is the same: from the byte before its
place to the last byte that was looked at, where the end of a text counts as one byte. -/
theorem next_of_agrees (t : Table) (mode : LexMode) {s s' : String} {position position' : Length}
    (hb : isBoundary s.toUTF8 position.bytes = true)
    (hb' : isBoundary s'.toUTF8 position'.bytes = true)
    (h : AgreesAround s.toUTF8 s'.toUTF8 position.bytes position'.bytes
      ((next t s.toUTF8 position mode).total.bytes + (next t s.toUTF8 position mode).lookahead)) :
    next t s'.toUTF8 position' mode = next t s.toUTF8 position mode :=
  next_agrees t mode h (le_size_of_isBoundary hb) (le_size_of_isBoundary hb') (Nat.le_refl _)

/-- The token `a` is found again behind another `x`, where the text ends before anybody looks. -/
theorem next_of_agrees_behind : isBoundary "xa-b!".toUTF8 1 = true ∧
    isBoundary "axa-b".toUTF8 2 = true ∧
    AgreesAround "xa-b!".toUTF8 "axa-b".toUTF8 1 2 3 ∧
    next OneToken.table "axa-b".toUTF8 ⟨2, ⟨0, 2⟩⟩ 0 =
      next OneToken.table "xa-b!".toUTF8 ⟨1, ⟨0, 1⟩⟩ 0 := by
  have hb : isBoundary "xa-b!".toUTF8 1 = true := by decide +kernel
  have hb' : isBoundary "axa-b".toUTF8 2 = true := by decide +kernel
  have hagrees : AgreesAround "xa-b!".toUTF8 "axa-b".toUTF8 1 2 3 :=
    ⟨by decide, by decide +kernel, by decide +kernel⟩
  refine ⟨hb, hb', hagrees, next_of_agrees OneToken.table 0 hb hb' (hagrees.mono ?_)⟩
  decide +kernel

end Lexer

end IncrementalParsing
