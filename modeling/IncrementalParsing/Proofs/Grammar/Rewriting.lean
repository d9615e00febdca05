import IncrementalParsing.Proofs.Grammar.Flattening
import Mathlib.Logic.Relation

/-!
# Derivations of flat grammars

A derivation replaces symbols of a row by their productions, one after the other, and may stop anywhere:
what it comes to is a sentential form, which can still mention rules.  So a rule derives something even
where it has no sentences.

## Key results

- `RewritesTo.append`: rows that follow each other derive what both derive
- `Begins`: what the sentential forms of a row begin with
-/

namespace IncrementalParsing

namespace FlatGrammar

/-- A symbol inside a row is replaced by what one of its productions consists of. -/
inductive Replaces (g : FlatGrammar) : List Nat → List Nat → Prop
  | production (before after : List Nat) {q : FlatProduction} (hq : q ∈ g.productions) :
      Replaces g (before ++ q.lhs :: after) (before ++ (q.rhs ++ after))

/-- The sentential forms of a row. -/
def RewritesTo (g : FlatGrammar) : List Nat → List Nat → Prop := Relation.ReflTransGen g.Replaces

/-- A sentential form of a row begins with a terminal. -/
def Begins (g : FlatGrammar) (row : List Nat) (a : Nat) : Prop :=
  g.isTerminal a = true ∧ ∃ rest, g.RewritesTo row (a :: rest)

variable {g : FlatGrammar}

theorem Replaces.append_left {row row' : List Nat} (h : g.Replaces row row') (before : List Nat) :
    g.Replaces (before ++ row) (before ++ row') := by
  cases h with
  | production before' after hq =>
    rw [← List.append_assoc, ← List.append_assoc before]
    exact .production _ after hq

theorem Replaces.append_right {row row' : List Nat} (h : g.Replaces row row') (after : List Nat) :
    g.Replaces (row ++ after) (row' ++ after) := by
  cases h with
  | production before after' hq =>
    rw [List.append_assoc, List.append_assoc, List.append_assoc, List.cons_append]
    exact .production before _ hq

/-- Rows that follow each other derive what both derive. -/
theorem RewritesTo.append {a a' b b' : List Nat} (ha : g.RewritesTo a a') (hb : g.RewritesTo b b') :
    g.RewritesTo (a ++ b) (a' ++ b') := by
  have hleft : g.RewritesTo (a ++ b) (a' ++ b) := by
    refine Relation.ReflTransGen.lift (· ++ b) (fun row row' h => ?_) a a' ha
    exact h.append_right b
  have hright : g.RewritesTo (a' ++ b) (a' ++ b') := by
    refine Relation.ReflTransGen.lift (a' ++ ·) (fun row row' h => ?_) b b' hb
    exact h.append_left a'
  exact hleft.trans hright

/-- A production is derived from its symbol. -/
theorem rewritesTo_of_production {q : FlatProduction} (hq : q ∈ g.productions) :
    g.RewritesTo [q.lhs] q.rhs := by
  have h := Replaces.production (g := g) [] [] hq
  rw [List.nil_append, List.nil_append, List.append_nil] at h
  exact .single h

theorem begins_terminal {s : Nat} (hs : g.isTerminal s = true) (row : List Nat) :
    g.Begins (s :: row) s :=
  ⟨hs, row, .refl⟩

/-- What the first part of a row begins with, the whole row does. -/
theorem Begins.append_right {row : List Nat} {a : Nat} (h : g.Begins row a) (after : List Nat) :
    g.Begins (row ++ after) a := by
  obtain ⟨ha, rest, hrest⟩ := h
  exact ⟨ha, rest ++ after, hrest.append .refl⟩

/-- Behind what can be empty the rest of a row begins it. -/
theorem Begins.append_left {before row : List Nat} {a : Nat} (hbefore : g.RewritesTo before [])
    (h : g.Begins row a) : g.Begins (before ++ row) a := by
  obtain ⟨ha, rest, hrest⟩ := h
  exact ⟨ha, rest, hbefore.append hrest⟩

/-- What a production begins with, its symbol does. -/
theorem Begins.of_production {q : FlatProduction} (hq : q ∈ g.productions) {a : Nat}
    (h : g.Begins q.rhs a) : g.Begins [q.lhs] a := by
  obtain ⟨ha, rest, hrest⟩ := h
  exact ⟨ha, rest, (rewritesTo_of_production hq).trans hrest⟩

end FlatGrammar

end IncrementalParsing
