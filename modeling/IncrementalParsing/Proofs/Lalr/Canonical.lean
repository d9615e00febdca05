import IncrementalParsing.Proofs.Lalr.Beginnings
import IncrementalParsing.Proofs.Lalr.Closure
import Mathlib.Data.Set.Basic

/-!
# Canonical states

The states of canonical parsers are sets of items, each with what can follow it.  A row of symbols leads
from the start to one of them: `Following.kernelAt` is its kernel, the items that the row has been read
in, and `Following.Closure` adds the productions of what comes next.

What can follow an item is told in one of three ways, each a `Following`.  With `exactly` it is one
terminal, which is how canonical parsers have it.  With `anyhow` nothing is said, which leaves the items
alone.  With `possibly` an item also stands for itself, without a terminal: the productions of a rule
that comes next then stand in a state even where there is no terminal that could follow them, which
happens behind rules from which no row of terminals is derived.

## Key results

- `agree_kernelAt`: where every symbol can be empty or begins with some terminal, items that stand for
  themselves make no difference
-/

namespace IncrementalParsing

/-- How it is told what can follow an item. -/
structure Following (L : Type) where
  /-- What is said of the start. -/
  start : Set L
  /-- What is said of the productions of a rule, given the row behind the rule and what is said of the
  item that it stands in. -/
  passes : List Nat → L → L → Prop
  /-- A terminal follows. -/
  terminal : Nat → L

namespace FlatGrammar

/-- A terminal follows a rule if the row behind the rule begins with it, or can be empty and is followed
by it. -/
def exactly (g : FlatGrammar) : Following Nat where
  start := {0}
  passes rest a c := g.Begins rest c ∨ g.RewritesTo rest [] ∧ a = c
  terminal a := a

/-- The same for terminals, but items also stand for themselves, whether a terminal can follow or not. -/
def possibly (g : FlatGrammar) : Following (Option Nat) where
  start := {none, some 0}
  passes rest x y := ∀ c, y = some c → g.Begins rest c ∨ g.RewritesTo rest [] ∧ x = some c
  terminal a := some a

end FlatGrammar

/-- Nothing is said. -/
def Following.anyhow : Following Unit where
  start := Set.univ
  passes _ _ _ := True
  terminal _ := ()

/-- The items of a set, whatever follows them. -/
def core {L : Type} (s : Set (Item × L)) : Set Item := {i | ∃ x, (i, x) ∈ s}

namespace Following

section

variable {L : Type} (F : Following L) (g : FlatGrammar)

/-- The items of a set and the productions of all rules that can come next. -/
inductive Closure (s : Set (Item × L)) : Item → L → Prop
  | kernel {i : Item} {x : L} (h : (i, x) ∈ s) : Closure s i x
  | production {i : Item} {x y : L} {p : Nat} {q : FlatProduction} (h : Closure s i x)
      (hnext : (g.row i.production)[i.dot]? = some q.lhs) (hq : g.productions[p]? = some q)
      (hpasses : F.passes ((g.row i.production).drop (i.dot + 1)) x y) : Closure s ⟨p, 0⟩ y

/-- The kernel of the state that a symbol leads to. -/
def goto (s : Set (Item × L)) (symbol : Nat) : Set (Item × L) :=
  {j | ∃ i, F.Closure g s i j.2 ∧ (g.row i.production)[i.dot]? = some symbol ∧ j.1 = i.advance}

/-- The kernel of the first state: the production that accepts, at its beginning. -/
def startKernel : Set (Item × L) := {i | i.1 = ⟨g.productions.size, 0⟩ ∧ i.2 ∈ F.start}

/-- The kernel of the state that a row of symbols leads to.  It is empty if nothing can be read that
way. -/
def kernelAt (row : List Nat) : Set (Item × L) := row.foldl (F.goto g) (F.startKernel g)

theorem kernelAt_concat (row : List Nat) (symbol : Nat) :
    F.kernelAt g (row ++ [symbol]) = F.goto g (F.kernelAt g row) symbol := by
  rw [kernelAt, List.foldl_concat]
  rfl

variable {F g} {s s' : Set (Item × L)} {i : Item} {x : L}

theorem Closure.mono (hs : s ⊆ s') (h : F.Closure g s i x) : F.Closure g s' i x := by
  induction h with
  | kernel h => exact .kernel (hs h)
  | production _ hnext hq hpasses ih => exact .production ih hnext hq hpasses

/-- Nothing is added to a kernel without items. -/
theorem not_closure_empty (i : Item) (x : L) : ¬ F.Closure g ∅ i x := by
  intro h
  induction h with
  | kernel h => exact h
  | production _ _ _ _ ih => exact ih

/-- A symbol leads from more items to more. -/
theorem goto_mono (hs : s ⊆ s') (symbol : Nat) : F.goto g s symbol ⊆ F.goto g s' symbol := by
  rintro ⟨j, x⟩ ⟨i, hi, hnext, hj⟩
  exact ⟨i, hi.mono hs, hnext, hj⟩

end

/-! ## Items that stand for themselves -/

variable {g : FlatGrammar} {s : Set (Item × Option Nat)} {i : Item} {x : Option Nat} {a symbol : Nat}

/-- All items stand for themselves. -/
def Open (s : Set (Item × Option Nat)) : Prop := ∀ i x, (i, x) ∈ s → (i, none) ∈ s

theorem passes_none (rest : List Nat) (x : Option Nat) : g.possibly.passes rest x none := by
  intro c hc
  cases hc

theorem Closure.open (hs : Open s) (h : g.possibly.Closure g s i x) : g.possibly.Closure g s i none := by
  cases h with
  | kernel h => exact .kernel (hs _ _ h)
  | production h hnext hq _ => exact .production h hnext hq (passes_none _ _)

theorem Open.goto (hs : Open s) (symbol : Nat) : Open (g.possibly.goto g s symbol) := by
  rintro j x ⟨i, hi, hnext, hj⟩
  exact ⟨i, hi.open hs, hnext, hj⟩

theorem open_kernelAt (g : FlatGrammar) (row : List Nat) : Open (g.possibly.kernelAt g row) := by
  induction row using List.reverseRecOn with
  | nil =>
    rintro i x ⟨hi, -⟩
    exact ⟨hi, .inl rfl⟩
  | append_singleton row symbol ih =>
    rw [kernelAt_concat]
    exact ih.goto symbol

/-- Which items stand in a closure does not depend on what follows them. -/
theorem closure_anyhow_iff {items : Set (Item × Unit)} (hs : Open s)
    (hcore : ∀ i, (i, ()) ∈ items ↔ i ∈ core s) :
    anyhow.Closure g items i () ↔ g.possibly.Closure g s i none := by
  constructor
  · intro h
    generalize () = x at h
    induction h with
    | kernel h =>
      obtain ⟨x, hx⟩ := (hcore _).mp h
      exact .kernel (hs _ x hx)
    | production _ hnext hq _ ih => exact .production ih hnext hq (passes_none _ _)
  · intro h
    generalize none = x at h
    induction h with
    | kernel h => exact .kernel ((hcore _).mpr ⟨_, h⟩)
    | production _ hnext hq _ ih => exact .production ih hnext hq trivial

/-- Which items a symbol leads to does not depend on what follows them. -/
theorem mem_goto_anyhow_iff {items : Set (Item × Unit)} (hs : Open s)
    (hcore : ∀ i, (i, ()) ∈ items ↔ i ∈ core s) {j : Item} :
    (j, ()) ∈ anyhow.goto g items symbol ↔ j ∈ core (g.possibly.goto g s symbol) := by
  constructor
  · rintro ⟨i, hi, hnext, hj⟩
    exact ⟨none, i, (closure_anyhow_iff hs hcore).mp hi, hnext, hj⟩
  · rintro ⟨x, i, hi, hnext, hj⟩
    exact ⟨i, (closure_anyhow_iff hs hcore).mpr (hi.open hs), hnext, hj⟩

/-! ## Terminals told exactly -/

/-- Every symbol of a production can be empty, or what it derives can begin with some terminal.  This
fails only for rules all of whose productions lead back to such rules. -/
def Opening (g : FlatGrammar) : Prop :=
  ∀ p, ∀ s ∈ g.row p, g.RewritesTo [s] [] ∨ ∃ a, g.Begins [s] a

/-- What holds of the symbols of productions holds of rows of them. -/
theorem Opening.row (hg : Opening g) {row : List Nat} {p : Nat} (hrow : row ⊆ g.row p) :
    g.RewritesTo row [] ∨ ∃ a, g.Begins row a := by
  induction row with
  | nil => exact .inl .refl
  | cons s row ih =>
    obtain ⟨hs, hrow⟩ := List.cons_subset.mp hrow
    obtain hempty | ⟨a, ha⟩ := hg p s hs
    · obtain hrest | ⟨a, ha⟩ := ih hrow
      · exact .inl (hempty.append hrest)
      · exact .inr ⟨a, ha.append_left hempty⟩
    · exact .inr ⟨a, ha.append_right row⟩

/-- Two sets say the same about terminals, and every item that stands for itself has a terminal. -/
structure Agree (s : Set (Item × Option Nat)) (s' : Set (Item × Nat)) : Prop where
  terminal : ∀ i a, (i, some a) ∈ s ↔ (i, a) ∈ s'
  inhabited : ∀ i x, (i, x) ∈ s → ∃ a, (i, a) ∈ s'

/-- With terminals told exactly a closure says the same, as long as there is always some terminal. -/
theorem Agree.closure (hg : Opening g) {s' : Set (Item × Nat)} (h : Agree s s') {i : Item} :
    (∀ a, g.possibly.Closure g s i (some a) ↔ g.exactly.Closure g s' i a) ∧
      ∀ x, g.possibly.Closure g s i x → ∃ a, g.exactly.Closure g s' i a := by
  -- an item in the one closure stands in the other with some lookahead, and with its own if it has one
  have hto : ∀ {i x}, g.possibly.Closure g s i x → (∃ a, g.exactly.Closure g s' i a) ∧
      ∀ a, x = some a → g.exactly.Closure g s' i a := by
    intro i x hx
    induction hx with
    | @kernel i x hx =>
      obtain ⟨a, ha⟩ := h.inhabited i x hx
      refine ⟨⟨a, .kernel ha⟩, ?_⟩
      rintro a rfl
      exact .kernel ((h.terminal i a).mp hx)
    | @production i x y p q _ hnext hq hpasses ih =>
      obtain ⟨⟨a, ha⟩, hall⟩ := ih
      refine ⟨?_, fun c hc => ?_⟩
      -- what follows may be empty, and otherwise begins with a terminal since the grammar is open
      · obtain hempty | ⟨c, hc⟩ := hg.row (List.drop_subset (i.dot + 1) (g.row i.production))
        · exact ⟨a, .production ha hnext hq (.inr ⟨hempty, rfl⟩)⟩
        · exact ⟨c, .production ha hnext hq (.inl hc)⟩
      · obtain hbegins | ⟨hempty, hx⟩ := hpasses c hc
        · exact .production ha hnext hq (.inl hbegins)
        · exact .production (hall c hx) hnext hq (.inr ⟨hempty, rfl⟩)
  refine ⟨fun a => ⟨fun hx => (hto hx).2 a rfl, fun ha => ?_⟩, fun x hx => (hto hx).1⟩
  -- the other way each lookahead is kept
  induction ha with
  | kernel ha => exact .kernel ((h.terminal _ _).mpr ha)
  | production _ hnext hq hpasses ih =>
    apply Closure.production ih hnext hq
    rintro c ⟨rfl⟩
    exact hpasses.imp_right fun ⟨hempty, heq⟩ => ⟨hempty, congrArg some heq⟩

theorem Agree.goto (hg : Opening g) {s' : Set (Item × Nat)} (h : Agree s s') (symbol : Nat) :
    Agree (g.possibly.goto g s symbol) (g.exactly.goto g s' symbol) := by
  constructor
  · intro j a
    constructor
    · rintro ⟨i, hi, hnext, hj⟩
      exact ⟨i, ((h.closure hg).1 a).mp hi, hnext, hj⟩
    · rintro ⟨i, hi, hnext, hj⟩
      exact ⟨i, ((h.closure hg).1 a).mpr hi, hnext, hj⟩
  · rintro j x ⟨i, hi, hnext, hj⟩
    obtain ⟨a, ha⟩ := (h.closure hg).2 x hi
    exact ⟨a, i, ha, hnext, hj⟩

/-- Where there is always some terminal, the canonical states say the same of terminals and have the same
items, whether items also stand for themselves or not. -/
theorem agree_kernelAt (hg : Opening g) (row : List Nat) :
    Agree (g.possibly.kernelAt g row) (g.exactly.kernelAt g row) := by
  induction row using List.reverseRecOn with
  | nil =>
    constructor
    · intro i a
      exact and_congr_right fun _ => by simp [FlatGrammar.possibly, FlatGrammar.exactly]
    · rintro i x ⟨hi, -⟩
      exact ⟨0, hi, rfl⟩
  | append_singleton row symbol ih =>
    rw [kernelAt_concat, kernelAt_concat]
    exact ih.goto hg symbol

theorem Agree.core {s' : Set (Item × Nat)} (h : Agree s s') : core s = core s' := by
  ext i
  constructor
  · rintro ⟨x, hx⟩
    exact h.inhabited i x hx
  · rintro ⟨a, ha⟩
    exact ⟨some a, (h.terminal i a).mpr ha⟩

end Following

end IncrementalParsing
