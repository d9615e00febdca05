import IncrementalParsing.Proofs.Grammar.Sentences
import IncrementalParsing.Proofs.Table.Compiled
import IncrementalParsing.Proofs.Tree.Extents
import Mathlib.Data.List.Forall2

/-!
# Parts as derivations

The children of a part, but for the extras among them, stand for the right-hand side of a production
of its symbol: `FlatGrammar.Derives` says how, given that hidden rules leave their children in their
place.  `Subtree.Lawful` says this of a part and of everything in it.

## Key results

- `Lawful.edit`: an edit keeps a part lawful
- `Lawful.generates`: the tokens of a lawful part are a sentence of its symbol
-/

namespace IncrementalParsing

namespace Subtree

/-- What a part consists of, without the extras. -/
def regular (n : Subtree) : List Subtree := (n.children.map Prod.fst).filter fun c => !c.extra

end Subtree

namespace FlatGrammar

/-- The children that a row of symbols leaves.  A terminal, a visible rule and a hidden rule without
children are one child each; what another hidden rule stands for takes its place. -/
inductive Yields (g : FlatGrammar) : List Nat → List Subtree → Prop
  | nil : Yields g [] []
  | kept {s : Nat} {row : List Nat} {c : Subtree} {cs : List Subtree} (hs : c.symbol = s)
      (h : g.isTerminal s = true ∨ g.isVisible s = true ∨ c.children = []) (hrow : Yields g row cs) :
      Yields g (s :: row) (c :: cs)
  | spliced {s : Nat} {row : List Nat} {q : FlatProduction} {inner cs : List Subtree}
      (hterminal : g.isTerminal s = false) (hvisible : g.isVisible s = false)
      (hq : q ∈ g.productions) (hlhs : q.lhs = s) (hne : inner ≠ []) (hinner : Yields g q.rhs inner)
      (hrow : Yields g row cs) : Yields g (s :: row) (inner ++ cs)

/-- Children that some production of a symbol leaves. -/
def Derives (g : FlatGrammar) (s : Nat) (children : List Subtree) : Prop :=
  ∃ q ∈ g.productions, q.lhs = s ∧ g.Yields q.rhs children

variable {g : FlatGrammar}

/-- Something is left of a row that is not empty. -/
theorem Yields.ne_nil {row : List Nat} {cs : List Subtree} (h : g.Yields row cs) (hrow : row ≠ []) :
    cs ≠ [] := by
  cases h with
  | nil => exact absurd rfl hrow
  | kept => exact List.cons_ne_nil _ _
  | spliced _ _ _ _ hne => simp [hne]

/-- Only the symbols of the children matter, and which of them are empty. -/
theorem Yields.congr {row : List Nat} {cs cs' : List Subtree} (h : g.Yields row cs)
    (hsame : List.Forall₂ (fun c' c : Subtree => c'.symbol = c.symbol ∧
      (c.children = [] → c'.children = [])) cs' cs) : g.Yields row cs' := by
  -- the induction is on the derivation, which the other children follow
  induction h generalizing cs' with
  | nil =>
    cases hsame
    exact .nil
  | kept hs h _ ih =>
    cases hsame with
    | cons hc hrest =>
      exact .kept (hc.1.trans hs) (h.imp_right fun h => h.imp_right hc.2) (ih hrest)
  | @spliced s row q inner cs hterminal hvisible hq hlhs hne hinner _ ihinner ih =>
    -- the children of the hidden rule are compared with as many of the others
    have hfirst := List.forall₂_take_append _ _ _ hsame
    have hsecond := List.forall₂_drop_append _ _ _ hsame
    rw [← List.take_append_drop inner.length cs']
    refine .spliced hterminal hvisible hq hlhs (fun hnil => hne ?_) (ihinner hfirst) (ih hsecond)
    rw [hnil] at hfirst
    cases hfirst
    rfl

/-- A row without children is empty. -/
theorem Yields.eq_nil {row : List Nat} (h : g.Yields row []) : row = [] := by
  by_contra hrow
  exact h.ne_nil hrow rfl

end FlatGrammar

namespace Subtree

variable {g : FlatGrammar}

/-! ## Lawful parts -/

/-- A part is what the grammar says, and so is everything in it: a token has nothing in it, what a rule
consists of stands for one of its productions, and errors are marked. -/
inductive Lawful (g : FlatGrammar) : Subtree → Prop
  | mk {n : Subtree}
      (token : g.isTerminal n.symbol = true → n.symbol ≠ Symbol.error → n.children = [])
      (rule : g.isTerminal n.symbol = false →
        g.Derives n.symbol n.regular ∧ (n.regular = [] → n.children = []))
      (marked : n.hasError = false →
        n.symbol ≠ Symbol.error ∧ ∀ c ∈ n.children, c.1.hasError = false)
      (children : ∀ c ∈ n.children, Lawful g c.1) : Lawful g n

theorem Lawful.token {n : Subtree} (h : n.Lawful g) :
    g.isTerminal n.symbol = true → n.symbol ≠ Symbol.error → n.children = [] := by
  cases h
  assumption

theorem Lawful.derives {n : Subtree} (h : n.Lawful g) (hn : g.isTerminal n.symbol = false) :
    g.Derives n.symbol n.regular ∧ (n.regular = [] → n.children = []) := by
  cases h with
  | mk _ rule => exact rule hn

theorem Lawful.marked {n : Subtree} (h : n.Lawful g) (he : n.hasError = false) :
    n.symbol ≠ Symbol.error ∧ ∀ c ∈ n.children, c.1.hasError = false := by
  cases h with
  | mk _ _ marked => exact marked he

theorem Lawful.child {n : Subtree} (h : n.Lawful g) {c : Subtree × Option FieldId}
    (hc : c ∈ n.children) : c.1.Lawful g := by
  cases h with
  | mk _ _ _ children => exact children c hc

theorem mem_regular {n c : Subtree} :
    c ∈ n.regular ↔ (∃ field, (c, field) ∈ n.children) ∧ c.extra = false := by
  simp [regular]

/-- Whether a part is an extra says nothing about what is in it. -/
theorem Lawful.withExtra {n : Subtree} (h : n.Lawful g) (extra : Bool) :
    (n.withExtra extra).Lawful g :=
  ⟨h.token, h.derives, h.marked, fun _ => h.child⟩

/-- Joined errors have nothing in them, as before. -/
theorem Lawful.joinErrors {a b joined : Subtree} (h : a.Lawful g)
    (hj : a.joinErrors? b = some joined) : joined.Lawful g := by
  rw [eq_of_joinErrors hj]
  exact ⟨h.token, h.derives, h.marked, fun _ => h.child⟩

/-! ## Edits -/

variable {e : Edit}

/-- Parts that stand for the same symbol, with the same marks, and of which both or none are empty. -/
structure Alike (n' n : Subtree) : Prop where
  symbol : n'.symbol = n.symbol
  extra : n'.extra = n.extra
  hasError : n'.hasError = n.hasError
  empty : n'.children = [] ↔ n.children = []

theorem Alike.refl (n : Subtree) : Alike n n := ⟨rfl, rfl, rfl, Iff.rfl⟩

/-- Edited children are the children, edited one by one. -/
theorem forall₂_editAll (e : Edit) (position : Length) (children : List (Subtree × Option FieldId)) :
    List.Forall₂ (fun c' c => ∃ p, c'.1 = c.1.edit e p) (editAll e position children) children := by
  induction children generalizing position with
  | nil =>
    rw [editAll]
    exact .nil
  | cons c rest ih =>
    obtain ⟨n, field⟩ := c
    rw [editAll_cons]
    exact .cons ⟨position, rfl⟩ (ih _)

/-- The children after an edit are those before it, some of them edited. -/
theorem forall₂_children_edit (e : Edit) (n : Subtree) (position : Length) :
    List.Forall₂ (fun c' c => c'.1 = c.1 ∨ ∃ p, c'.1 = c.1.edit e p) (n.edit e position).children
      n.children := by
  cases h : e.affects position (position + n.total) n.lookahead with
  | false =>
    rw [edit_of_not_affects h]
    exact List.forall₂_same.mpr fun _ _ => .inl rfl
  | true =>
    rw [edit_of_affects h]
    exact (forall₂_editAll e position n.children).imp fun _ _ => .inr

/-- An edit keeps what a part is called and how it is marked. -/
theorem alike_edit (e : Edit) (n : Subtree) (position : Length) : Alike (n.edit e position) n := by
  have hlen := (forall₂_children_edit e n position).length_eq
  have hempty : (n.edit e position).children = [] ↔ n.children = [] := by
    rw [← List.length_eq_zero_iff, hlen, List.length_eq_zero_iff]
  cases h : e.affects position (position + n.total) n.lookahead with
  | false =>
    rw [edit_of_not_affects h]
    exact .refl n
  | true =>
    rw [edit_of_affects h] at hempty ⊢
    exact ⟨rfl, rfl, rfl, hempty⟩

/-- What stands for the parts of a production looks the same after an edit. -/
theorem forall₂_regular_edit (e : Edit) (n : Subtree) (position : Length) :
    List.Forall₂ Alike (n.edit e position).regular n.regular := by
  refine List.rel_filter (fun c' c hc => ?_) (List.rel_map (fun c' c hc => ?_)
    (forall₂_children_edit e n position))
  · show (!c'.extra) = true ↔ (!c.extra) = true
    rw [hc.extra]
  · obtain h | ⟨p, h⟩ := hc
    · exact h ▸ .refl c.1
    · exact h ▸ alike_edit e c.1 p

theorem exists_of_mem_forall₂ {α β : Type} {R : α → β → Prop} {xs : List α} {ys : List β}
    (h : List.Forall₂ R xs ys) {x : α} (hx : x ∈ xs) : ∃ y ∈ ys, R x y := by
  induction h with
  | nil => cases hx
  | cons hr _ ih =>
    obtain rfl | hx := List.mem_cons.mp hx
    · exact ⟨_, List.mem_cons_self .., hr⟩
    · obtain ⟨y, hy, hr⟩ := ih hx
      exact ⟨y, List.mem_cons_of_mem _ hy, hr⟩

/-- An edit keeps a part lawful. -/
theorem Lawful.edit {n : Subtree} (h : n.Lawful g) (position : Length) :
    (n.edit e position).Lawful g := by
  induction h generalizing position with
  -- an edit keeps the symbol of a part, what it consists of, and whether it is empty; a derivation
  -- asks for no more
  | @mk n token rule marked children ih =>
    have halike := alike_edit e n position
    have hregular := forall₂_regular_edit e n position
    refine ⟨fun ht hne => ?_, fun ht => ?_, fun he => ?_, fun c' hc' => ?_⟩
    · rw [halike.symbol] at ht hne
      exact halike.empty.mpr (token ht hne)
    · rw [halike.symbol] at ht ⊢
      obtain ⟨⟨q, hq, hlhs, hyields⟩, hempty⟩ := rule ht
      refine ⟨⟨q, hq, hlhs, hyields.congr (hregular.imp fun c' c hc => ?_)⟩, fun hnil => ?_⟩
      · exact ⟨hc.symbol, hc.empty.mpr⟩
      · rw [hnil] at hregular
        exact halike.empty.mpr (hempty (List.forall₂_nil_left_iff.mp hregular))
    · rw [halike.hasError] at he
      refine ⟨halike.symbol ▸ (marked he).1, fun c' hc' => ?_⟩
      obtain ⟨c, hc, hsame | ⟨p, hedit⟩⟩ := exists_of_mem_forall₂ (forall₂_children_edit e n position) hc'
      · rw [hsame]
        exact (marked he).2 c hc
      · rw [hedit, (alike_edit e c.1 p).hasError]
        exact (marked he).2 c hc
    · obtain ⟨c, hc, hsame | ⟨p, hedit⟩⟩ := exists_of_mem_forall₂ (forall₂_children_edit e n position) hc'
      · rw [hsame]
        exact children c hc
      · rw [hedit]
        exact ih c hc p

/-! ## Sentences -/

mutual

/-- The tokens of a part without those of its extras. -/
def tokens (g : FlatGrammar) : Subtree → List Symbol
  | ⟨symbol, _, _, children, _, _, _, _, _, _, _⟩ =>
    if g.isTerminal symbol then [symbol] else tokensOf g children

def tokensOf (g : FlatGrammar) : List (Subtree × Option FieldId) → List Symbol
  | [] => []
  | (n, _) :: rest => if n.extra then tokensOf g rest else n.tokens g ++ tokensOf g rest

end

theorem tokensOf_eq (g : FlatGrammar) (children : List (Subtree × Option FieldId)) :
    tokensOf g children =
      ((children.map Prod.fst).filter fun c => !c.extra).flatMap (tokens g) := by
  induction children with
  | nil =>
    rw [tokensOf]
    rfl
  | cons c rest ih =>
    obtain ⟨n, field⟩ := c
    rw [tokensOf, ih]
    cases h : n.extra <;> simp [h]

/-- The tokens of a rule's part are those of what it consists of. -/
theorem tokens_eq (n : Subtree) :
    n.tokens g = if g.isTerminal n.symbol then [n.symbol] else n.regular.flatMap (tokens g) := by
  cases n
  rw [tokens, tokensOf_eq]
  rfl

/-- The tokens of what is left of a row are a sentence of the row. -/
theorem generates_of_yields {row : List Nat} {cs : List Subtree} (h : g.Yields row cs)
    (hcs : ∀ c ∈ cs, g.Generates [c.symbol] (c.tokens g)) :
    g.Generates row (cs.flatMap (tokens g)) := by
  induction h with
  | nil => exact .nil
  | @kept s row c cs hs _ _ ih =>
    have hc := hcs c (List.mem_cons_self ..)
    rw [hs] at hc
    exact hc.append (ih fun c' hc' => hcs c' (List.mem_cons_of_mem _ hc'))
  -- the children of a spliced node stand for its production
  | @spliced s row q inner cs _ _ hq hlhs _ _ _ ihinner ih =>
    rw [List.flatMap_append, ← hlhs]
    exact .rule hq (ihinner fun c hc => hcs c (List.mem_append_left _ hc))
      (ih fun c hc => hcs c (List.mem_append_right _ hc))

/-- The tokens of a lawful part are a sentence of its symbol. -/
theorem Lawful.generates {n : Subtree} (h : n.Lawful g) : g.Generates [n.symbol] (n.tokens g) := by
  induction h with
  | @mk n _ rule _ _ ih =>
    rw [tokens_eq]
    cases ht : g.isTerminal n.symbol with
    | true => exact .terminal ht .nil
    | false =>
      obtain ⟨⟨q, hq, hlhs, hyields⟩, -⟩ := rule ht
      rw [← hlhs]
      -- the children that are no extras stand for the right-hand side
      refine .of_production hq (generates_of_yields hyields fun c hc => ?_)
      obtain ⟨⟨field, hmem⟩, -⟩ := mem_regular.mp hc
      exact ih _ hmem

end Subtree

end IncrementalParsing
