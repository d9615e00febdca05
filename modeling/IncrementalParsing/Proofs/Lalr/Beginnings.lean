import IncrementalParsing.Proofs.Grammar.Rewriting
import IncrementalParsing.Proofs.Lalr.First

/-!
# What rows begin with, exactly

`FirstSets.ofGrammar` finds whether a row of symbols can be empty, and the terminals that its sentential
forms begin with: nothing is found that no derivation gives, and nothing is left out.

Each production is taken into account by what has been found before, so what is found is always true; and
after the last round one replacement in a row neither makes it empty nor begins it anew, so a whole
derivation does not either.

## Key results

- `truthful_ofGrammar`: what is found is derived
- `Complete.of_rewritesTo`: a row has found all that what it derives has
- `exact_ofGrammar`: the rounds end, and what they find is exact
-/

namespace IncrementalParsing

namespace FirstSets

variable {g : FlatGrammar} {f : FirstSets}

/-! ## Rounds -/

/-- One round over all productions. -/
def round (g : FlatGrammar) (f : FirstSets) : FirstSets := g.productions.foldl (addProduction g) f

/-- Before the first round nothing has been found. -/
def unknown (g : FlatGrammar) : FirstSets :=
  ⟨Array.replicate g.symbols.size false, Array.replicate g.symbols.size .empty⟩

/-- What is found comes from a number of rounds. -/
theorem exists_rounds (g : FlatGrammar) (fuel : Nat) (f : FirstSets) :
    ∃ n, close g fuel f = (round g)^[n] f := by
  induction fuel generalizing f with
  | zero => exact ⟨0, rfl⟩
  | succ fuel ih =>
    rw [close]
    split
    · exact ⟨0, rfl⟩
    · obtain ⟨n, hn⟩ := ih (round g f)
      exact ⟨n + 1, hn⟩

/-- The last round changes nothing. -/
theorem round_ofGrammar (hg : g.Sound) : round g (ofGrammar g) = ofGrammar g := by
  have hfixed := (fixed_ofGrammar hg).2
  rw [round, ← Array.foldl_toList]
  apply List.foldlRecOn (motive := fun f => f = ofGrammar g)
  · rfl
  · rintro f rfl p hp
    exact hfixed p (Array.mem_toList_iff.mp hp)

/-! ## What is found is derived -/

/-- What has been found is derived: the empty row, or a row that begins with the terminal. -/
structure Truthful (g : FlatGrammar) (f : FirstSets) : Prop where
  nullable : ∀ s, f.isNullable s = true → g.RewritesTo [s] []
  first : ∀ s a, (f.firstOf s).mem a = true → g.Begins [s] a

theorem Truthful.row_nullable (hf : f.Truthful g) {row : List Nat}
    (h : (ofRow g f row).2 = true) : g.RewritesTo row [] := by
  induction row with
  | nil => exact .refl
  | cons s rest ih =>
    -- a row that starts with a token is never empty
    rw [ofRow] at h
    split at h
    · cases h
    · split at h
      · rename_i hs
        exact (hf.nullable s hs).append (ih h)
      · cases h

theorem Truthful.row_first (hf : f.Truthful g) {row : List Nat} {a : Nat}
    (h : (ofRow g f row).1.mem a = true) : g.Begins row a := by
  induction row with
  | nil => simp [ofRow] at h
  | cons s rest ih =>
    rw [ofRow] at h
    split at h
    -- the sets go on behind the first symbol only where it can be empty
    · rename_i hs
      rw [SymbolSet.mem_singleton, decide_eq_true_eq] at h
      exact h ▸ FlatGrammar.begins_terminal hs rest
    · split at h
      · rename_i hs
        rw [SymbolSet.mem_union, Bool.or_eq_true] at h
        cases h with
        | inl h => exact (hf.first s a h).append_right rest
        | inr h => exact (ih h).append_left (hf.nullable s hs)
      · exact (hf.first s a h).append_right rest

/-- A production adds only to its own rule. -/
theorem isNullable_addProduction {p : FlatProduction} {s : Nat}
    (h : (addProduction g f p).isNullable s = true) :
    f.isNullable s = true ∨ s = p.lhs ∧ (ofRow g f p.rhs).2 = true := by
  unfold addProduction isNullable at h
  rw [Array.getD_eq_getD_getElem?, Array.getElem?_modify] at h
  unfold isNullable
  rw [Array.getD_eq_getD_getElem?]
  split at h
  -- only the entry of the left-hand side can change
  · rename_i heq
    cases hfound : f.nullable[s]? with
    | none => simp [hfound] at h
    | some b =>
      rw [hfound, Option.map_some, Option.getD_some, Bool.or_eq_true] at h
      exact h.imp id fun h => ⟨heq.symm, h⟩
  · exact .inl h

theorem mem_firstOf_addProduction {p : FlatProduction} {s a : Nat}
    (h : ((addProduction g f p).firstOf s).mem a = true) :
    (f.firstOf s).mem a = true ∨ s = p.lhs ∧ (ofRow g f p.rhs).1.mem a = true := by
  unfold addProduction firstOf at h
  rw [Array.getD_eq_getD_getElem?, Array.getElem?_modify] at h
  unfold firstOf
  rw [Array.getD_eq_getD_getElem?]
  split at h
  -- only the entry of the left-hand side can change
  · rename_i heq
    cases hfound : f.first[s]? with
    | none => simp [hfound] at h
    | some set =>
      rw [hfound, Option.map_some, Option.getD_some, SymbolSet.mem_union, Bool.or_eq_true] at h
      exact h.imp id fun h => ⟨heq.symm, h⟩
  · exact .inl h

/-- What a production shows about its rule is derived through it. -/
theorem Truthful.addProduction (hf : f.Truthful g) {p : FlatProduction} (hp : p ∈ g.productions) :
    (addProduction g f p).Truthful g := by
  constructor
  · intro s hs
    obtain hs | ⟨rfl, hrow⟩ := isNullable_addProduction hs
    · exact hf.nullable s hs
    · exact (FlatGrammar.rewritesTo_of_production hp).trans (hf.row_nullable hrow)
  · intro s a ha
    obtain ha | ⟨rfl, hrow⟩ := mem_firstOf_addProduction ha
    · exact hf.first s a ha
    · exact (hf.row_first hrow).of_production hp

theorem Truthful.round (hf : f.Truthful g) : (round g f).Truthful g := by
  rw [FirstSets.round, ← Array.foldl_toList]
  exact List.foldlRecOn (motive := Truthful g) _ _ hf fun f hf p hp =>
    hf.addProduction (Array.mem_toList_iff.mp hp)

theorem truthful_unknown (g : FlatGrammar) : (unknown g).Truthful g := by
  constructor
  · intro s hs
    unfold unknown isNullable at hs
    rw [Array.getD_eq_getD_getElem?, Array.getElem?_replicate] at hs
    split at hs <;> simp at hs
  · intro s a ha
    unfold unknown firstOf at ha
    rw [Array.getD_eq_getD_getElem?, Array.getElem?_replicate] at ha
    split at ha <;> simp at ha

/-- Nothing is found that is not derived. -/
theorem truthful_ofGrammar (g : FlatGrammar) : (ofGrammar g).Truthful g := by
  obtain ⟨n, hn⟩ := exists_rounds g (g.symbols.size * (g.symbols.size + 1) + 1) (unknown g)
  change ofGrammar g = _ at hn
  rw [hn]
  clear hn
  induction n with
  | zero => exact truthful_unknown g
  | succ n ih =>
    rw [Function.iterate_succ_apply']
    exact ih.round

/-! ## What is derived is found -/

/-- What is known of one row holds of another: that it can be empty, and what it begins with. -/
structure Covered (g : FlatGrammar) (f : FirstSets) (row row' : List Nat) : Prop where
  nullable : (ofRow g f row').2 = true → (ofRow g f row).2 = true
  first : (ofRow g f row').1.Within (ofRow g f row).1

/-- A part of a row can be exchanged for one of which less is known. -/
theorem Covered.append (before : List Nat) {row row' : List Nat} (h : Covered g f row row')
    (after : List Nat) : Covered g f (before ++ (row ++ after)) (before ++ (row' ++ after)) := by
  obtain ⟨hfirst, hempty⟩ := ofRow_append g f before (row ++ after)
  obtain ⟨hfirst', hempty'⟩ := ofRow_append g f before (row' ++ after)
  obtain ⟨hfirstIn, hemptyIn⟩ := ofRow_append g f row after
  obtain ⟨hfirstIn', hemptyIn'⟩ := ofRow_append g f row' after
  -- what stands around a row adds the same to both sides
  have hnullable := h.nullable
  constructor
  · intro hrow
    rw [hempty', hemptyIn'] at hrow
    rw [hempty, hemptyIn]
    simp only [Bool.and_eq_true] at hrow ⊢
    exact ⟨hrow.1, hnullable hrow.2.1, hrow.2.2⟩
  · intro a ha
    have hin := h.first a
    rw [hfirst', hfirstIn'] at ha
    rw [hfirst, hfirstIn]
    simp only [Bool.or_eq_true, Bool.and_eq_true] at ha ⊢
    apply ha.imp_right
    intro ⟨hbefore, hrow⟩
    exact ⟨hbefore, hrow.imp hin (And.imp_left hnullable)⟩

/-- What is found for a production is found for its rule. -/
theorem Complete.of_production (hg : g.Sound) (hf : f.Complete g) {q : FlatProduction}
    (hq : q ∈ g.productions) : Covered g f [q.lhs] q.rhs := by
  have hrule : g.isTerminal q.lhs = false := (hg.lhs q hq).2.2
  -- the row of one rule has the sets that were found for the rule
  have hsingle : ofRow g f [q.lhs] = (f.firstOf q.lhs, f.isNullable q.lhs) := by
    rw [ofRow, hrule, if_neg Bool.false_ne_true]
    cases f.isNullable q.lhs <;> simp [ofRow, SymbolSet.union, SymbolSet.empty]
  constructor
  · intro hempty
    rw [hsingle]
    exact hf.nullable q hq hempty
  · intro a ha
    rw [hsingle]
    exact hf.first q hq a ha

/-- What is found for a sentential form is found for the row that it is derived from. -/
theorem Complete.of_rewritesTo (hg : g.Sound) (hf : f.Complete g) {row form : List Nat}
    (h : g.RewritesTo row form) : Covered g f row form := by
  induction h with
  | refl => exact ⟨id, .refl _⟩
  | tail _ hlast ih =>
    cases hlast with
    | production before after hq =>
      have hstep := (hf.of_production hg hq).append before after
      exact ⟨fun h => ih.nullable (hstep.nullable h), hstep.first.trans ih.first⟩

theorem Complete.nullable_of_rewritesTo (hg : g.Sound) (hf : f.Complete g) {row : List Nat}
    (h : g.RewritesTo row []) : (ofRow g f row).2 = true :=
  (hf.of_rewritesTo hg h).nullable rfl

theorem Complete.first_of_begins (hg : g.Sound) (hf : f.Complete g) {row : List Nat} {a : Nat}
    (h : g.Begins row a) : (ofRow g f row).1.mem a = true := by
  obtain ⟨ha, rest, hrest⟩ := h
  apply (hf.of_rewritesTo hg hrest).first
  rw [ofRow, if_pos ha]
  simp

/-- The sets of a grammar say of a row whether it can be empty. -/
theorem ofRow_nullable_iff (hg : g.Sound) (row : List Nat) :
    (ofRow g (ofGrammar g) row).2 = true ↔ g.RewritesTo row [] :=
  ⟨(truthful_ofGrammar g).row_nullable, (complete_ofGrammar hg).nullable_of_rewritesTo hg⟩

/-- The sets of a grammar say what the sentential forms of a row begin with. -/
theorem mem_ofRow_iff (hg : g.Sound) (row : List Nat) (a : Nat) :
    (ofRow g (ofGrammar g) row).1.mem a = true ↔ g.Begins row a :=
  ⟨(truthful_ofGrammar g).row_first, (complete_ofGrammar hg).first_of_begins hg⟩

/-! ## The sets of a grammar -/

/-- First sets are exact: of each rule and of each row of symbols they say whether it derives the empty
row, and which terminals the sentential forms derived from it begin with. -/
structure Exact (g : FlatGrammar) (f : FirstSets) : Prop where
  nullable : ∀ s, g.isTerminal s = false → (f.isNullable s = true ↔ g.RewritesTo [s] [])
  first : ∀ s, g.isTerminal s = false → ∀ a,
    ((f.firstOf s).mem a = true ↔ g.isTerminal a = true ∧ ∃ rest, g.RewritesTo [s] (a :: rest))
  row_nullable : ∀ row, (ofRow g f row).2 = true ↔ g.RewritesTo row []
  row_first : ∀ row a,
    (ofRow g f row).1.mem a = true ↔ g.isTerminal a = true ∧ ∃ rest, g.RewritesTo row (a :: rest)

/-- Going over the productions of a grammar ends with a round that changes nothing, and what has been
found then is exact, however the rules refer to each other. -/
theorem exact_ofGrammar {grammar : Grammar} (hflat : grammar.flatten = .ok g) :
    (∃ n, ofGrammar g = (round g)^[n] (unknown g)) ∧ round g (ofGrammar g) = ofGrammar g ∧
      (ofGrammar g).Exact g := by
  have hg := Grammar.sound_flatten hflat
  -- a rule alone is a row, so the facts about rows settle those about rules
  have hsingle : ∀ s, g.isTerminal s = false →
      ofRow g (ofGrammar g) [s] = ((ofGrammar g).firstOf s, (ofGrammar g).isNullable s) := by
    intro s hs
    rw [ofRow, hs, if_neg Bool.false_ne_true]
    cases (ofGrammar g).isNullable s <;> simp [ofRow, SymbolSet.union, SymbolSet.empty]
  refine ⟨exists_rounds g _ (unknown g), round_ofGrammar hg, ?_, ?_, ofRow_nullable_iff hg,
    mem_ofRow_iff hg⟩
  · intro s hs
    have h := ofRow_nullable_iff hg [s]
    rwa [hsingle s hs] at h
  · intro s hs a
    have h := mem_ofRow_iff hg [s] a
    rwa [hsingle s hs] at h

end FirstSets

/-! ## Rules that begin with each other -/

namespace LeftRecursive

/-- Each of two rules can begin with the other, and the first can be empty. -/
def grammar : Grammar where
  name := "recursive"
  rules := [("s", .choice [.blank, .seq [.symbol "a", .string "x"]]),
    ("a", .choice [.symbol "s", .seq [.symbol "a", .string "y"]])]
  extras := []
  precedences := []
  conflicts := []
  externals := []
  inlined := []
  supertypes := []
  word := none
  reserved := []

def flat : FlatGrammar where
  name := "recursive"
  symbols := #[⟨"end", none, true, false, false, false⟩, ⟨"ERROR", none, true, true, true, false⟩,
    ⟨"s", none, false, true, true, false⟩, ⟨"a", none, false, true, true, false⟩,
    ⟨"x", some ⟨"x", true, false, 0⟩, true, false, true, false⟩,
    ⟨"y", some ⟨"y", true, false, 0⟩, true, false, true, false⟩]
  productions := #[⟨2, [], none⟩, ⟨2, [(3, none), (4, none)], none⟩, ⟨3, [(2, none)], none⟩,
    ⟨3, [(3, none), (5, none)], none⟩]
  fields := #[]
  start := 2

theorem flatten_grammar : grammar.flatten = .ok flat := by
  decide +kernel

/-- The second rule can be empty through the first, and can begin with what stands behind either. -/
theorem exact_flat : grammar.flatten = .ok flat ∧ flat.RewritesTo [3] [] ∧
    ∀ a, flat.Begins [3] a ↔ a = 4 ∨ a = 5 := by
  obtain ⟨-, -, hexact⟩ := FirstSets.exact_ofGrammar flatten_grammar
  have hrow : FirstSets.ofRow flat (.ofGrammar flat) [3] =
      (SymbolSet.union (.singleton 4) (.singleton 5), true) := by
    decide +kernel
  refine ⟨flatten_grammar, ?_, fun a => ?_⟩
  · apply (hexact.row_nullable [3]).mp
    rw [hrow]
  · have hfirst := hexact.row_first [3] a
    rw [hrow] at hfirst
    simp only [SymbolSet.mem_union, SymbolSet.mem_singleton, Bool.or_eq_true, decide_eq_true_eq] at hfirst
    unfold FlatGrammar.Begins
    rw [← hfirst]
    omega

end LeftRecursive

end IncrementalParsing
