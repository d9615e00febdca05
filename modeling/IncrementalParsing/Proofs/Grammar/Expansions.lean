import IncrementalParsing.Proofs.Grammar.Flattening
import IncrementalParsing.Proofs.Grammar.Readings
import IncrementalParsing.Proofs.Grammar.Sentences
import Mathlib.Data.Set.NAry

/-!
# What rules are expanded to

The rows of symbols that a rule is expanded to, told by the symbols that tokens and rules have and
by the productions that lists have been given.  Where every rule has just the productions of its
rows, the sentences of the rows are those of the rule: in one direction by going over what is read
from the rule, in the other by going over the productions, the lists of repetitions inside.

## Key results

- `Flattening.Expanded`: the rows of a rule
- `Flattening.Lowered.generates`: what a rule means is generated
- `Flattening.Lowered.reads`: what is generated is meant by the rule
-/

namespace IncrementalParsing

namespace Flattening

/-- A symbol has a production of a row. -/
def HasRow (s : Flattening) (i : Nat) (row : List Nat) : Prop :=
  ∃ q ∈ s.productions, q.lhs = i ∧ q.rhs = row

/-- The rows of one or more out of some rows: those of a list with the productions of one, or none
if there is nothing to repeat. -/
inductive Repeats (s : Flattening) (A : Set (List Nat)) : Set (List Nat) → Prop
  | nothing (h : ∀ row ∈ A, row = []) : Repeats s A {[]}
  | list {i : Nat} {a : List Nat} (ha : a ∈ A) (hne : a ≠ []) (hterminal : s.isTerminal i = false)
      (hrows : ∀ row, s.HasRow i row ↔ ∃ a ∈ A, a ≠ [] ∧ (row = a ∨ row = i :: a)) :
      Repeats s A {[i]}

/-- The rows that a rule is expanded to. -/
inductive Expanded (g : Grammar) (s : Flattening) : Rule → Set (List Nat) → Prop
  | blank : Expanded g s .blank {[]}
  | token {rule : Rule} {owner : String} {token : TokenRule} {i : Nat} (hrule : rule.isToken = true)
      (htoken : g.token owner rule = .ok token)
      (hi : s.anonymous.lookup (token.pattern, token.immediate) = some i) : Expanded g s rule {[i]}
  | symbol {name : String} {i : Nat} (hi : s.rules.lookup name = some i) :
      Expanded g s (.symbol name) {[i]}
  | seqNil : Expanded g s (.seq []) {[]}
  | seqCons {r : Rule} {rest : List Rule} {A B : Set (List Nat)} (h : Expanded g s r A)
      (hrest : Expanded g s (.seq rest) B) :
      Expanded g s (.seq (r :: rest)) (Set.image2 (· ++ ·) A B)
  | choiceNil : Expanded g s (.choice []) ∅
  | choiceCons {r : Rule} {rest : List Rule} {A B : Set (List Nat)} (h : Expanded g s r A)
      (hrest : Expanded g s (.choice rest) B) : Expanded g s (.choice (r :: rest)) (A ∪ B)
  | zeroOrMore {content : Rule} {R : Set (List Nat)} (h : Expanded g s (.oneOrMore content) R) :
      Expanded g s (.zeroOrMore content) (R ∪ {[]})
  | oneOrMore {content : Rule} {A R : Set (List Nat)} (h : Expanded g s content A)
      (hrepeats : s.Repeats A R) : Expanded g s (.oneOrMore content) R
  | field {name : String} {content : Rule} {R : Set (List Nat)} (h : Expanded g s content R) :
      Expanded g s (.field name content) R
  | prec {assoc : Associativity} {value : Precedence} {content : Rule} {R : Set (List Nat)}
      (h : Expanded g s content R) : Expanded g s (.prec assoc value content) R
  | precDynamic {value : Int} {content : Rule} {R : Set (List Nat)} (h : Expanded g s content R) :
      Expanded g s (.precDynamic value content) R
  | reserved {context : String} {content : Rule} {R : Set (List Nat)} (h : Expanded g s content R) :
      Expanded g s (.reserved context content) R

variable {g : Grammar} {start : String} {s : Flattening}

theorem Expanded.of_isToken {rule : Rule} {R : Set (List Nat)} (h : Expanded g s rule R)
    (hrule : rule.isToken = true) : ∃ owner token i, g.token owner rule = .ok token ∧
      s.anonymous.lookup (token.pattern, token.immediate) = some i ∧ R = {[i]} := by
  cases h with
  | token _ htoken hi => exact ⟨_, _, _, htoken, hi, rfl⟩
  | _ => cases hrule

/-- The rows of a member are rows of the choice. -/
theorem Expanded.exists_of_mem_choice {r : Rule} {members : List Rule} {R : Set (List Nat)}
    (h : Expanded g s (.choice members) R) (hmem : r ∈ members) :
    ∃ A, Expanded g s r A ∧ A ⊆ R := by
  induction members generalizing R with
  | nil => cases hmem
  | cons first rest ih =>
    cases h with
    | token hrule => cases hrule
    | choiceCons hfirst hrest =>
      -- the union is made from the first branch on
      obtain rfl | hmem := List.mem_cons.mp hmem
      · exact ⟨_, hfirst, Set.subset_union_left⟩
      · obtain ⟨A, hA, hsub⟩ := ih hrest hmem
        exact ⟨A, hA, hsub.trans Set.subset_union_right⟩

theorem isEmpty_append (a b : List Nat) : (a ++ b).isEmpty = (a.isEmpty && b.isEmpty) := by
  cases a <;> rfl

/-- The shapes of a rule are those of its rows. -/
theorem Expanded.mem_shapes {rule : Rule} {R : Set (List Nat)} (h : Expanded g s rule R) :
    ∀ b, b ∈ rule.shapes ↔ ∃ row ∈ R, row.isEmpty = !b := by
  -- `Rule.shapes` follows the rows constructor by constructor
  induction h with
  | blank | seqNil => intro b; cases b <;> simp [Rule.shapes, Rule.shapesSeq]
  | token hrule => intro b; cases b <;> simp [Rule.shapes_of_isToken hrule]
  | symbol => intro b; cases b <;> simp [Rule.shapes]
  | @seqCons r rest A B _ _ ih ihrest =>
    intro b
    rw [show (Rule.seq rest).shapes = Rule.shapesSeq rest from rfl] at ihrest
    simp only [Rule.shapes, Rule.shapesSeq, List.mem_flatMap, List.mem_map, ih, ihrest]
    constructor
    · rintro ⟨b₁, ⟨row, hrow, hb₁⟩, b₂, ⟨row', hrow', hb₂⟩, rfl⟩
      exact ⟨row ++ row', Set.mem_image2_of_mem hrow hrow', by simp [isEmpty_append, hb₁, hb₂]⟩
    · rintro ⟨_, ⟨row, hrow, row', hrow', rfl⟩, hb⟩
      refine ⟨!row.isEmpty, ⟨row, hrow, by simp⟩, !row'.isEmpty, ⟨row', hrow', by simp⟩, ?_⟩
      rw [← Bool.not_and, ← isEmpty_append, hb, Bool.not_not]
  | choiceNil => intro b; simp [Rule.shapes, Rule.shapesChoice]
  | @choiceCons r rest A B _ _ ih ihrest =>
    intro b
    rw [show (Rule.choice rest).shapes = Rule.shapesChoice rest from rfl] at ihrest
    simp only [Rule.shapes, Rule.shapesChoice, List.mem_append, ih, ihrest, Set.mem_union,
      or_and_right, exists_or]
  | zeroOrMore _ ih =>
    intro b
    simp only [Set.mem_union, or_and_right, exists_or, ← ih, Set.mem_singleton_iff,
      exists_eq_left, Rule.shapes]
    split <;> cases b <;> simp
  | @oneOrMore content A R _ hrepeats ih =>
    intro b
    cases hrepeats with
    | nothing h =>
      -- without a row that has parts there is no shape with parts
      have hnone : true ∉ content.shapes := fun htrue => by
        obtain ⟨row, hrow, hempty⟩ := (ih true).mp htrue
        rw [h row hrow] at hempty
        cases hempty
      cases b <;> simp [Rule.shapes, hnone]
    | list ha hne =>
      have hsome : true ∈ content.shapes := (ih true).mpr ⟨_, ha, by simpa using hne⟩
      cases b <;> simp [Rule.shapes, hsome]
  | field _ ih | prec _ ih | precDynamic _ ih | reserved _ ih => exact ih

/-! ## Sentences -/

/-- The number of a terminal's symbol. -/
def number? (g : Grammar) (start : String) (s : Flattening) : Terminal → Option Nat
  | .rule name => if g.isTokenRule start name then s.rules.lookup name else none
  | .anonymous pattern immediate => s.anonymous.lookup (pattern, immediate)

/-- A flat grammar in which every rule has just the productions of its rows. -/
structure Lowered (g : Grammar) (start : String) (s : Flattening) (flat : FlatGrammar) : Prop where
  symbols : flat.symbols = s.symbols
  productions : flat.productions = s.productions
  lhs : ∀ q ∈ s.productions, s.isTerminal q.lhs = false
  anonymous : ∀ key i, s.anonymous.lookup key = some i → s.isTerminal i = true
  rules : ∀ name i, s.rules.lookup name = some i → ∃ rule, g.rule? name = some rule
  lexical : ∀ name i, s.rules.lookup name = some i → g.isTokenRule start name = true →
    s.isTerminal i = true
  structured : ∀ name i rule, s.rules.lookup name = some i → g.isTokenRule start name = false →
    g.rule? name = some rule → s.isTerminal i = false ∧
      ∃ R, Expanded g s rule R ∧ ∀ row, s.HasRow i row ↔ row ∈ R

/-- Symbols spell a sentence. -/
abbrev Spells (number : Terminal → Option Nat) (w : List Terminal) (tokens : List Nat) : Prop :=
  List.Forall₂ (fun t i => number t = some i) w tokens

/-- A sentence is spelled in one way. -/
theorem Spells.eq {number : Terminal → Option Nat} {w : List Terminal} {tokens tokens' : List Nat}
    (h : Spells number w tokens) (h' : Spells number w tokens') : tokens = tokens' :=
  List.right_unique_forall₂' (fun _ _ _ hi hj => Option.some.inj (hi.symm.trans hj)) h h'

theorem number?_rule {name : String} {i : Nat} : number? g start s (.rule name) = some i ↔
    g.isTokenRule start name = true ∧ s.rules.lookup name = some i :=
  Option.ite_none_right_eq_some

namespace Lowered

variable {flat : FlatGrammar} (h : Lowered g start s flat)
include h

theorem isTerminal_eq (i : Nat) : flat.isTerminal i = s.isTerminal i := by
  rw [FlatGrammar.isTerminal, isTerminal, h.symbols]

theorem generates_of_hasRow {i : Nat} {row tokens : List Nat} (hrow : s.HasRow i row)
    (hg : flat.Generates row tokens) : flat.Generates [i] tokens := by
  obtain ⟨q, hq, rfl, rfl⟩ := hrow
  exact .of_production (by rwa [h.productions]) hg

theorem generates_terminal {i : Nat} (hi : s.isTerminal i = true) : flat.Generates [i] [i] :=
  .terminal ((h.isTerminal_eq i).trans hi) .nil

/-- What a rule means is generated by one of its rows. -/
theorem generates {rule : Rule} {b : Bool} {w : List Terminal}
    (hreads : g.Reads start false rule b w) {R : Set (List Nat)} (hexpanded : Expanded g s rule R) :
    ∃ row ∈ R, (row.isEmpty = !b) ∧
      ∃ tokens, Spells (number? g start s) w tokens ∧ flat.Generates row tokens := by
  -- each way of reading a rule gives a row and the tokens that it generates
  induction hreads generalizing R with
  | blank =>
    cases hexpanded with
    | blank => exact ⟨[], rfl, rfl, [], .nil, .nil⟩
    | token hrule => cases hrule
  | token hrule htoken =>
    obtain ⟨owner, token, i, htoken', hi, rfl⟩ := hexpanded.of_isToken hrule
    obtain rfl := Except.ok.inj ((Grammar.token_owner htoken').symm.trans htoken)
    exact ⟨[i], rfl, rfl, [i], .cons hi .nil, h.generates_terminal (h.anonymous _ _ hi)⟩
  | lexical hname =>
    cases hexpanded with
    | token hrule => cases hrule
    | @symbol _ i hi =>
      exact ⟨[i], rfl, rfl, [i], .cons (number?_rule.mpr ⟨hname, hi⟩) .nil,
        h.generates_terminal (h.lexical _ _ hi hname)⟩
  | symbol hname hrule _ ih =>
    cases hexpanded with
    | token hrule => cases hrule
    | @symbol _ i hi =>
      -- the rows of a named rule are the right-hand sides of its symbol
      obtain ⟨-, R, hR, hrows⟩ := h.structured _ _ _ hi hname hrule
      obtain ⟨row, hrow, -, tokens, hspells, hg⟩ := ih hR
      exact ⟨[i], rfl, rfl, tokens, hspells, h.generates_of_hasRow ((hrows row).mpr hrow) hg⟩
  | seqNil =>
    cases hexpanded with
    | token hrule => cases hrule
    | seqNil => exact ⟨[], rfl, rfl, [], .nil, .nil⟩
  | seqCons _ _ ih ihrest =>
    cases hexpanded with
    | token hrule => cases hrule
    | seqCons hfirst hrest =>
      obtain ⟨row, hrow, hb, tokens, hspells, hg⟩ := ih hfirst
      obtain ⟨row', hrow', hb', tokens', hspells', hg'⟩ := ihrest hrest
      exact ⟨row ++ row', Set.mem_image2_of_mem hrow hrow', by simp [isEmpty_append, hb, hb'],
        tokens ++ tokens', List.rel_append hspells hspells', hg.append hg'⟩
  | choice hmem _ ih =>
    obtain ⟨A, hA, hsub⟩ := hexpanded.exists_of_mem_choice hmem
    obtain ⟨row, hrow, hrest⟩ := ih hA
    exact ⟨row, hsub hrow, hrest⟩
  | zero =>
    cases hexpanded with
    | token hrule => cases hrule
    | zeroOrMore => exact ⟨[], .inr rfl, rfl, [], .nil, .nil⟩
  | many _ ih =>
    cases hexpanded with
    | token hrule => cases hrule
    | zeroOrMore hlist =>
      obtain ⟨row, hrow, hrest⟩ := ih hlist
      exact ⟨row, .inl hrow, hrest⟩
  | once hblank _ ih =>
    -- what is repeated is not empty here, so the repetition has a symbol of its own
    obtain rfl := hblank.resolve_left (by decide)
    cases hexpanded with
    | token hrule => cases hrule
    | oneOrMore hcontent hrepeats =>
      obtain ⟨row, hrow, hb, tokens, hspells, hg⟩ := ih hcontent
      have hne : row ≠ [] := by simpa using hb
      cases hrepeats with
      | nothing hnone => exact absurd (hnone row hrow) hne
      | list _ _ _ hrows =>
        exact ⟨_, rfl, rfl, tokens, hspells,
          h.generates_of_hasRow ((hrows row).mpr ⟨row, hrow, hne, .inl rfl⟩) hg⟩
  | more hblank _ _ ih ihlast =>
    obtain rfl := hblank.resolve_left (by decide)
    cases hexpanded with
    | token hrule => cases hrule
    | oneOrMore hcontent hrepeats =>
      obtain ⟨last, hlast, hb, tokens', hspells', hg'⟩ := ihlast hcontent
      obtain ⟨row, hrow, -, tokens, hspells, hg⟩ := ih (.oneOrMore hcontent hrepeats)
      have hne : last ≠ [] := by simpa using hb
      cases hrepeats with
      | nothing hnone => exact absurd (hnone last hlast) hne
      | @list i _ _ _ _ hrows =>
        -- what came before is the symbol of the repetition, which goes on with one more part
        obtain rfl : row = [i] := hrow
        exact ⟨[i], rfl, by simp, tokens ++ tokens', List.rel_append hspells hspells',
          h.generates_of_hasRow ((hrows _).mpr ⟨last, hlast, hne, .inr rfl⟩) (hg.append hg')⟩
  | nothing _ hshapes =>
    -- what is repeated is always empty, so nothing stands for the repetition
    cases hexpanded with
    | token hrule => cases hrule
    | oneOrMore hcontent hrepeats =>
      cases hrepeats with
      | nothing => exact ⟨[], rfl, rfl, [], .nil, .nil⟩
      | list ha hne =>
        exact absurd ((hcontent.mem_shapes true).mpr ⟨_, ha, by simpa using hne⟩) hshapes
  | field _ ih =>
    cases hexpanded with
    | token hrule => cases hrule
    | field hcontent => exact ih hcontent
  | renamed _ ih =>
    cases hexpanded with
    | token hrule => cases hrule
  | prec _ ih =>
    cases hexpanded with
    | token hrule => cases hrule
    | prec hcontent => exact ih hcontent
  | precDynamic _ ih =>
    cases hexpanded with
    | token hrule => cases hrule
    | precDynamic hcontent => exact ih hcontent
  | reserved _ ih =>
    cases hexpanded with
    | token hrule => cases hrule
    | reserved hcontent => exact ih hcontent

theorem eq_of_isTerminal {i n : Nat} {tokens : List Nat} (hi : s.isTerminal i = true)
    (hg : flat.GeneratesWithin n [i] tokens) : tokens = [i] := by
  obtain ⟨-, htokens⟩ | ⟨_, q, -, hq, rfl, -⟩ := hg.of_single
  · exact htokens
  · rw [h.productions] at hq
    rw [h.lhs q hq] at hi
    cases hi

/-- What a list generates is one or more of its content. -/
theorem reads_list {content : Rule} {A : Set (List Nat)} {i n : Nat}
    (hterminal : s.isTerminal i = false)
    (hrows : ∀ row, s.HasRow i row ↔ ∃ a ∈ A, a ≠ [] ∧ (row = a ∨ row = i :: a))
    (hA : ∀ a ∈ A, a ≠ [] → ∀ tokens, flat.GeneratesWithin n a tokens →
      ∃ w, g.Reads start false content true w ∧ Spells (number? g start s) w tokens)
    {m : Nat} (hm : m ≤ n) {tokens : List Nat} (hg : flat.GeneratesWithin m [i] tokens) :
    ∃ w, g.Reads start false (.oneOrMore content) true w ∧
      Spells (number? g start s) w tokens := by
  -- on the depth: the symbol of the list comes first in its own rows
  induction m generalizing tokens with
  | zero =>
    obtain ⟨ht, -⟩ | ⟨m, q, hm, -⟩ := hg.of_single
    · simp [h.isTerminal_eq, hterminal] at ht
    · cases hm
  | succ m ih =>
    obtain ⟨ht, -⟩ | ⟨_, q, hk, hq, hlhs, hg⟩ := hg.of_single
    · simp [h.isTerminal_eq, hterminal] at ht
    · cases hk
      rw [h.productions] at hq
      obtain ⟨a, ha, hne, hrow⟩ := (hrows q.rhs).mp ⟨q, hq, hlhs, rfl⟩
      -- the list ends with one part, or goes on before its last part
      obtain hrow | hrow := hrow
      · rw [hrow] at hg
        obtain ⟨w, hw, hspells⟩ := hA a ha hne tokens (hg.mono (by omega))
        exact ⟨w, .once (.inr rfl) hw, hspells⟩
      · rw [hrow, ← List.singleton_append] at hg
        obtain ⟨first, last, rfl, hfirst, hlast⟩ := hg.split
        obtain ⟨w, hw, hspells⟩ := ih (by omega) hfirst
        obtain ⟨w', hw', hspells'⟩ := hA a ha hne last (hlast.mono (by omega))
        exact ⟨w ++ w', .more (.inr rfl) hw hw', List.rel_append hspells hspells'⟩

/-- What is generated by a row of a rule is meant by the rule. -/
theorem reads (n : Nat) {rule : Rule} {R : Set (List Nat)} (hexpanded : Expanded g s rule R)
    {row tokens : List Nat} (hrow : row ∈ R) (hg : flat.GeneratesWithin n row tokens) :
    ∃ w, g.Reads start false rule (!row.isEmpty) w ∧ Spells (number? g start s) w tokens := by
  -- productions are nested less deeply below the symbol of a rule, and a list stays at its depth
  induction n using Nat.strong_induction_on generalizing rule R row tokens with
  | _ n ihn =>
  induction hexpanded generalizing row tokens with
  | blank =>
    obtain rfl : row = [] := hrow
    obtain rfl := hg.eq_nil
    exact ⟨[], .blank, .nil⟩
  | @token rule owner token i hrule htoken hi =>
    obtain rfl : row = [i] := hrow
    obtain rfl := h.eq_of_isTerminal (h.anonymous _ _ hi) hg
    exact ⟨[.anonymous token.pattern token.immediate], .token hrule htoken, .cons hi .nil⟩
  | @symbol name i hi =>
    obtain rfl : row = [i] := hrow
    obtain ⟨rule, hrule⟩ := h.rules name i hi
    cases hname : g.isTokenRule start name with
    | true =>
      obtain rfl := h.eq_of_isTerminal (h.lexical name i hi hname) hg
      exact ⟨[.rule name], .lexical hname, .cons (number?_rule.mpr ⟨hname, hi⟩) .nil⟩
    -- the row of the symbol is one of the rule's, at a smaller depth
    | false =>
      obtain ⟨hterminal, R, hR, hrows⟩ := h.structured name i rule hi hname hrule
      obtain ⟨ht, -⟩ | ⟨m, q, rfl, hq, hlhs, hg⟩ := hg.of_single
      · simp [h.isTerminal_eq, hterminal] at ht
      · rw [h.productions] at hq
        have hmem := (hrows q.rhs).mp ⟨q, hq, hlhs, rfl⟩
        obtain ⟨w, hw, hspells⟩ := ihn m (Nat.lt_succ_self m) hR hmem hg
        exact ⟨w, .symbol hname hrule hw, hspells⟩
  | seqNil =>
    obtain rfl : row = [] := hrow
    obtain rfl := hg.eq_nil
    exact ⟨[], .seqNil, .nil⟩
  | seqCons _ _ ih ihrest =>
    obtain ⟨a, ha, b, hb, rfl⟩ := hrow
    obtain ⟨first, rest, rfl, hfirst, hrest⟩ := hg.split
    obtain ⟨w, hw, hspells⟩ := ih ha hfirst
    obtain ⟨w', hw', hspells'⟩ := ihrest hb hrest
    refine ⟨w ++ w', ?_, List.rel_append hspells hspells'⟩
    rw [isEmpty_append, Bool.not_and]
    exact .seqCons hw hw'
  | choiceNil => cases hrow
  | choiceCons _ _ ih ihrest =>
    obtain hrow | hrow := hrow
    · obtain ⟨w, hw, hspells⟩ := ih hrow hg
      exact ⟨w, .choice (List.mem_cons_self ..) hw, hspells⟩
    · obtain ⟨w, hw, hspells⟩ := ihrest hrow hg
      generalize (!row.isEmpty) = b at hw ⊢
      cases hw with
      | token hrule => cases hrule
      | choice hmem hw => exact ⟨w, .choice (List.mem_cons_of_mem _ hmem) hw, hspells⟩
  | zeroOrMore _ ih =>
    obtain hrow | hrow := hrow
    · obtain ⟨w, hw, hspells⟩ := ih hrow hg
      exact ⟨w, .many hw, hspells⟩
    · obtain rfl : row = [] := hrow
      obtain rfl := hg.eq_nil
      exact ⟨[], .zero, .nil⟩
  | oneOrMore hcontent hrepeats ih =>
    cases hrepeats with
    | nothing hnone =>
      obtain rfl : row = [] := hrow
      obtain rfl := hg.eq_nil
      -- nothing stands for the repetition, as its content has no row with parts
      refine ⟨[], .nothing rfl fun htrue => ?_, .nil⟩
      obtain ⟨a, ha, hempty⟩ := (hcontent.mem_shapes true).mp htrue
      rw [hnone a ha] at hempty
      cases hempty
    | @list i _ _ _ hterminal hrows =>
      obtain rfl : row = [i] := hrow
      -- the list is read at the same depth, its parts by `ih`
      refine h.reads_list hterminal hrows (fun a ha hne tokens hg => ?_) (Nat.le_refl n) hg
      obtain ⟨w, hw, hspells⟩ := ih ha hg
      obtain ⟨_, _, rfl⟩ := List.exists_cons_of_ne_nil hne
      exact ⟨w, hw, hspells⟩
  | field _ ih =>
    obtain ⟨w, hw, hspells⟩ := ih hrow hg
    exact ⟨w, .field hw, hspells⟩
  | prec _ ih =>
    obtain ⟨w, hw, hspells⟩ := ih hrow hg
    exact ⟨w, .prec hw, hspells⟩
  | precDynamic _ ih =>
    obtain ⟨w, hw, hspells⟩ := ih hrow hg
    exact ⟨w, .precDynamic hw, hspells⟩
  | reserved _ ih =>
    obtain ⟨w, hw, hspells⟩ := ih hrow hg
    exact ⟨w, .reserved hw, hspells⟩

end Lowered

end Flattening

end IncrementalParsing
