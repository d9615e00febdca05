import IncrementalParsing.Grammar.Flat

/-!
# Sentences of flat grammars

What the productions of a flat grammar derive from a row of symbols: a row of terminals.  The sentences
of the start symbol are the language of the grammar.

## Key results

- `Generates.append`: rows that follow each other have the sentences of both
- `Generates.of_production`: a production's sentences are sentences of its symbol
- `Generates.exists_within`: a sentence is found in a number of rounds, and splits as its row does
-/

namespace IncrementalParsing

namespace FlatGrammar

/-- The sentences of rows of symbols: terminals stand for themselves, and any other symbol for the
sentences of one of its productions. -/
inductive Generates (g : FlatGrammar) : List Nat → List Nat → Prop
  | nil : Generates g [] []
  | terminal {s : Nat} {row tokens : List Nat} (hs : g.isTerminal s = true)
      (hrow : Generates g row tokens) : Generates g (s :: row) (s :: tokens)
  | rule {q : FlatProduction} {row inner tokens : List Nat} (hq : q ∈ g.productions)
      (hinner : Generates g q.rhs inner) (hrow : Generates g row tokens) :
      Generates g (q.lhs :: row) (inner ++ tokens)

variable {g : FlatGrammar}

/-- Rows that follow each other have the sentences of both. -/
theorem Generates.append {row row' tokens tokens' : List Nat} (h : g.Generates row tokens)
    (h' : g.Generates row' tokens') : g.Generates (row ++ row') (tokens ++ tokens') := by
  induction h with
  | nil => exact h'
  | terminal hs _ ih => exact .terminal hs ih
  | rule hq hinner _ _ ih =>
    rw [List.append_assoc]
    exact .rule hq hinner ih

/-- A production's sentences are sentences of its symbol. -/
theorem Generates.of_production {q : FlatProduction} {tokens : List Nat} (hq : q ∈ g.productions)
    (h : g.Generates q.rhs tokens) : g.Generates [q.lhs] tokens := by
  rw [← List.append_nil tokens]
  exact .rule hq h .nil

theorem lt_of_isTerminal (g : FlatGrammar) {s : Nat} (h : g.isTerminal s = true) :
    s < g.symbols.size := by
  refine Nat.lt_of_not_le fun hle => ?_
  rw [isTerminal, Array.getElem?_eq_none hle] at h
  cases h

/-- Sentences consist of terminals. -/
theorem Generates.terminals {row tokens : List Nat} (h : g.Generates row tokens) :
    ∀ s ∈ tokens, g.isTerminal s = true := by
  induction h with
  | nil => exact fun s hs => by cases hs
  | terminal ht _ ih =>
    intro s hs
    obtain rfl | hs := List.mem_cons.mp hs
    · exact ht
    · exact ih s hs
  | rule _ _ _ ihinner ih =>
    intro s hs
    exact (List.mem_append.mp hs).elim (ihinner s) (ih s)

/-- What a row derives, with a terminal behind it, begins with a terminal. -/
theorem Generates.exists_first {row tokens : List Nat} (h : g.Generates row tokens) {a : Nat}
    (ha : g.isTerminal a = true) (rest : List Nat) :
    ∃ token rest', tokens ++ a :: rest = token :: rest' ∧ g.isTerminal token = true := by
  cases tokens with
  | nil => exact ⟨a, rest, rfl, ha⟩
  | cons token tokens =>
    exact ⟨token, tokens ++ a :: rest, rfl, h.terminals token (List.mem_cons_self ..)⟩

/-! ## Rounds -/

/-- The sentences that are found with productions nested no deeper than a number. -/
inductive GeneratesWithin (g : FlatGrammar) : Nat → List Nat → List Nat → Prop
  | nil {n : Nat} : GeneratesWithin g n [] []
  | terminal {n s : Nat} {row tokens : List Nat} (hs : g.isTerminal s = true)
      (hrow : GeneratesWithin g n row tokens) : GeneratesWithin g n (s :: row) (s :: tokens)
  | rule {n : Nat} {q : FlatProduction} {row inner tokens : List Nat} (hq : q ∈ g.productions)
      (hinner : GeneratesWithin g n q.rhs inner) (hrow : GeneratesWithin g (n + 1) row tokens) :
      GeneratesWithin g (n + 1) (q.lhs :: row) (inner ++ tokens)

theorem GeneratesWithin.mono {m n : Nat} {row tokens : List Nat} (h : g.GeneratesWithin m row tokens)
    (hle : m ≤ n) : g.GeneratesWithin n row tokens := by
  induction h generalizing n with
  | nil => exact .nil
  | terminal hs _ ih => exact .terminal hs (ih hle)
  | rule hq _ _ ihinner ih =>
    obtain ⟨n, rfl⟩ : ∃ k, n = k + 1 := ⟨n - 1, by omega⟩
    exact .rule hq (ihinner (by omega)) (ih hle)

/-- Every sentence is found with some nesting. -/
theorem Generates.exists_within {row tokens : List Nat} (h : g.Generates row tokens) :
    ∃ n, g.GeneratesWithin n row tokens := by
  induction h with
  | nil => exact ⟨0, .nil⟩
  | terminal hs _ ih =>
    obtain ⟨n, hn⟩ := ih
    exact ⟨n, .terminal hs hn⟩
  | rule hq _ _ ihinner ih =>
    obtain ⟨m, hm⟩ := ihinner
    obtain ⟨n, hn⟩ := ih
    exact ⟨max m n + 1, .rule hq (hm.mono (Nat.le_max_left m n)) (hn.mono (by omega))⟩

/-- The sentence of a row splits where the row does. -/
theorem GeneratesWithin.split {n : Nat} {a b tokens : List Nat}
    (h : g.GeneratesWithin n (a ++ b) tokens) : ∃ first rest, tokens = first ++ rest ∧
      g.GeneratesWithin n a first ∧ g.GeneratesWithin n b rest := by
  -- the induction is on the first part of the row
  induction a generalizing tokens with
  | nil => exact ⟨[], tokens, rfl, .nil, h⟩
  | cons s a ih =>
    cases h with
    | terminal hs hrow =>
      obtain ⟨first, rest, rfl, ha, hb⟩ := ih hrow
      exact ⟨s :: first, rest, rfl, .terminal hs ha, hb⟩
    | rule hq hinner hrow =>
      obtain ⟨first, rest, rfl, ha, hb⟩ := ih hrow
      exact ⟨_ ++ first, rest, (List.append_assoc ..).symm, .rule hq hinner ha, hb⟩

theorem GeneratesWithin.eq_nil {n : Nat} {tokens : List Nat} (h : g.GeneratesWithin n [] tokens) :
    tokens = [] := by
  cases h
  rfl

/-- The sentence of one symbol: itself, or that of one of its productions. -/
theorem GeneratesWithin.of_single {n i : Nat} {tokens : List Nat}
    (h : g.GeneratesWithin n [i] tokens) : (g.isTerminal i = true ∧ tokens = [i]) ∨
      ∃ m q, n = m + 1 ∧ q ∈ g.productions ∧ q.lhs = i ∧ g.GeneratesWithin m q.rhs tokens := by
  cases h with
  | terminal hs hrow =>
    rw [hrow.eq_nil]
    exact .inl ⟨hs, rfl⟩
  | rule hq hinner hrow =>
    rw [hrow.eq_nil, List.append_nil]
    exact .inr ⟨_, _, rfl, hq, rfl, hinner⟩

end FlatGrammar

end IncrementalParsing
