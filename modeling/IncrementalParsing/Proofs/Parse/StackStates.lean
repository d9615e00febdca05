import IncrementalParsing.Proofs.Parse.Coverage
import IncrementalParsing.Proofs.Parse.Ending
import IncrementalParsing.Proofs.Table.Compiled
import Mathlib.Data.List.TakeWhile

/-!
# States on the stack

The states on the stack of a parse are a way through the automaton of the table: the state of an entry
is the one that its symbol leads to from the state below, and an extra keeps that state.
`Stack.Linked` says so, and every step keeps it, also where an error is repaired or a part of an old
tree is taken over.  With the table of a grammar this decides what the parts of a production are.

## Key results

- `linked_of_moves`: a step keeps the states of a linked stack linked
- `popRegular_of_items`: the parts of a place in a production are on top of a linked stack
- `Language.parse_disciplined`: what is on the stack wherever a parse with the table of a grammar gets
-/

namespace IncrementalParsing

/-- The symbols of the entries that are no extras. -/
def regularSymbols (entries : List Entry) : List Symbol :=
  (entries.filter fun e => !e.node.extra).map (·.node.symbol)

@[simp] theorem regularSymbols_append (a b : List Entry) :
    regularSymbols (a ++ b) = regularSymbols a ++ regularSymbols b := by
  simp [regularSymbols]

@[simp] theorem regularSymbols_reverse (entries : List Entry) :
    regularSymbols entries.reverse = (regularSymbols entries).reverse := by
  simp [regularSymbols]

theorem regularSymbols_eq_nil {entries : List Entry} (h : ∀ e ∈ entries, e.node.extra = true) :
    regularSymbols entries = [] := by
  simp only [regularSymbols, List.map_eq_nil_iff, List.filter_eq_nil_iff]
  intro e he
  simp [h e he]

namespace Table

variable {t : Table}

/-- The state that a symbol leads to, as the next token or as a rule that was built. -/
def LeadsTo (t : Table) (s : StateId) (a : Symbol) (target : StateId) : Prop :=
  t.action? s a = some (.shift target) ∨ t.goto? s a = some target

end Table

namespace Stack

variable {t : Table} {s : Stack}

/-- Each entry's state follows from the one below it. -/
inductive Linked (t : Table) : Stack → Prop
  | nil : Linked t []
  | regular {e : Entry} {s : Stack} (hs : Linked t s) (he : e.node.extra = false)
      (h : t.LeadsTo s.state e.node.symbol e.state) : Linked t (e :: s)
  | extra {e : Entry} {s : Stack} (hs : Linked t s) (he : e.node.extra = true)
      (h : e.state = s.state) : Linked t (e :: s)

/-! ## Parts of linked stacks -/

theorem Linked.tail {e : Entry} (h : Linked t (e :: s)) : Linked t s := by
  cases h with
  | regular hs => exact hs
  | extra hs => exact hs

theorem Linked.drop (h : Linked t s) (n : Nat) : Linked t (s.drop n) := by
  induction n generalizing s with
  | zero => exact h
  | succ n ih =>
    cases s with
    | nil => exact h
    | cons e rest => exact ih h.tail

theorem Linked.keep (h : Linked t s) (depth : Nat) : Linked t (s.keep depth) := h.drop _

/-- Below the extras on top the state is the same. -/
theorem Linked.dropWhile (h : Linked t s) :
    Linked t (s.dropWhile fun e => e.node.extra) ∧
      Stack.state (s.dropWhile fun e => e.node.extra) = s.state := by
  induction h with
  | nil => exact ⟨.nil, rfl⟩
  | regular hs he hlead =>
    rw [List.dropWhile_cons_of_neg (by simp [he])]
    exact ⟨.regular hs he hlead, rfl⟩
  | extra _ he hstate ih =>
    rw [List.dropWhile_cons_of_pos (by simp [he])]
    exact ⟨ih.1, ih.2.trans hstate.symm⟩

/-- Extras on top of a linked stack that all have its state. -/
theorem Linked.extras (h : Linked t s) {extras : List Entry}
    (he : ∀ e ∈ extras, e.node.extra = true ∧ e.state = s.state) :
    Linked t (extras ++ s) ∧ Stack.state (extras ++ s) = s.state := by
  induction extras with
  | nil => exact ⟨h, rfl⟩
  | cons e rest ih =>
    obtain ⟨hlinked, hstate⟩ := ih fun e' he' => he e' (List.mem_cons_of_mem _ he')
    obtain ⟨hextra, hsame⟩ := he e (List.mem_cons_self ..)
    exact ⟨.extra hlinked hextra (hsame.trans hstate.symm), hsame⟩

/-! ## Places in productions -/

variable {g : FlatGrammar} {items : StateId → Item → Prop}

/-- Nothing leads back to the first state, so only extras can be on a stack that has it. -/
theorem Linked.extra_of_state (hg : t.Guided g items) (h : Linked t s) (hs : s.state = 0) :
    ∀ e ∈ s, e.node.extra = true := by
  induction h with
  | nil => simp
  | regular _ _ hlead => exact absurd hs (hg.leads _ _ _ hlead).1
  | extra _ he hstate ih =>
    intro e' he'
    obtain rfl | he' := List.mem_cons.mp he'
    · exact he
    · exact ih (hstate.symm.trans hs) e' he'

/-- Where a place in a production stands for the state on top, what is before the place is on the
stack, and below it the production begins. -/
theorem popRegular_of_items (hg : t.Guided g items) (h : Linked t s) {p d : Nat}
    (hi : items s.state ⟨p, d⟩) (taken : List Entry) :
    ∃ parts rest, popRegular d taken s = (parts ++ taken, rest) ∧
      regularSymbols parts = (g.row p).take d ∧ d ≤ (g.row p).length ∧ Linked t rest ∧
        items (Stack.state rest) ⟨p, 0⟩ := by
  -- the way down the stack is the way back through the production
  induction h generalizing d taken with
  | nil =>
    obtain rfl : d = 0 := hg.first _ hi
    exact ⟨[], [], rfl, rfl, Nat.zero_le _, .nil, hi⟩
  -- the item behind this symbol came from the one before it
  | @regular e s hs he hlead ih =>
    cases d with
    | zero => exact ⟨[], e :: s, rfl, rfl, Nat.zero_le _, .regular hs he hlead, hi⟩
    | succ d =>
      obtain ⟨-, -, hback⟩ := hg.leads _ _ _ hlead
      obtain ⟨hbelow, hsymbol⟩ := hback p d hi
      obtain ⟨parts, rest, hpop, hparts, hle, hrest, hbegins⟩ := ih hbelow (e :: taken)
      refine ⟨parts ++ [e], rest, ?_, ?_, ?_, hrest, hbegins⟩
      · rw [popRegular, if_neg (by simp [he]), hpop, List.append_assoc]
        rfl
      · rw [regularSymbols_append, hparts, List.take_add_one, hsymbol]
        simp [regularSymbols, he]
      · obtain ⟨hlt, -⟩ := List.getElem?_eq_some_iff.mp hsymbol
        exact hlt
  -- an extra leaves the state as it is, and with it the item
  | @extra e s hs he hstate ih =>
    cases d with
    | zero => exact ⟨[], e :: s, rfl, rfl, Nat.zero_le _, .extra hs he hstate, hi⟩
    | succ d =>
      have hi : items s.state ⟨p, d + 1⟩ := hstate ▸ hi
      obtain ⟨parts, rest, hpop, hparts, hle, hrest, hbegins⟩ := ih hi (e :: taken)
      refine ⟨parts ++ [e], rest, ?_, ?_, hle, hrest, hbegins⟩
      · rw [popRegular, if_pos (by simp [he]), hpop, List.append_assoc]
        rfl
      · rw [regularSymbols_append, hparts]
        simp [regularSymbols, he]

/-- What a production needs is on a stack: its parts are not more than there is, and the rule that they
build leads somewhere from what remains. -/
structure Supplies (t : Table) (s : Stack) (production : Production) (row : List Symbol) : Prop where
  parts : regularSymbols (s.popChildren production.size).1 = row
  size : row.length = production.size
  leads : ∃ target, t.goto? (Stack.state (s.popChildren production.size).2.2) production.lhs =
    some target

/-- A stack on which a production can be reduced has what that needs, and what remains is linked. -/
theorem supplies_of_reduce (hs : t.Speaks g) (hg : t.Guided g items) (h : Linked t s) {a : Symbol}
    {p : ProductionId} {production : Production} (ha : t.action? s.state a = some (.reduce p))
    (hp : t.production? p = some production) :
    (∃ q, g.productions[p]? = some q ∧ q.lhs = production.lhs ∧ s.Supplies t production q.rhs) ∧
      Linked t (s.popChildren production.size).2.2 := by
  obtain ⟨hlt, hi⟩ := hg.reduce _ _ _ ha
  obtain ⟨q, hq, hlhs, hsize⟩ := hs.production p production hp
  have hrow : g.row p = q.rhs := FlatGrammar.row_of_production hq
  obtain ⟨hlinked, hstate⟩ := h.dropWhile
  obtain ⟨parts, rest, hpop, hparts, -, hrest, hbegins⟩ :=
    popRegular_of_items hg hlinked (hstate.symm ▸ hi) []
  rw [hrow, List.take_length] at hparts
  rw [hrow, ← hsize] at hpop
  rw [popChildren, hpop, List.append_nil]
  -- a production other than the first begins where its rule leads somewhere
  obtain ⟨heq, -⟩ | ⟨q', target, hq', htarget⟩ := hg.begins _ _ hbegins
  · exact absurd heq (Nat.ne_of_lt hlt)
  · cases hq.symm.trans hq'
    refine ⟨⟨q, hq, hlhs.symm, ?_, hsize.symm, target, ?_⟩, hrest⟩
    · rw [popChildren, hpop, List.append_nil]
      exact hparts
    · rw [popChildren, hpop, hlhs]
      exact htarget

/-- A stack that is accepted has nothing but the start symbol and extras. -/
theorem regular_of_accept (hg : t.Guided g items) (h : Linked t s) {a : Symbol}
    (ha : t.action? s.state a = some .accept) : regularSymbols s = [g.start] := by
  have hi := hg.accept _ _ ha
  obtain ⟨parts, rest, hpop, hparts, -, hrest, hbegins⟩ := popRegular_of_items hg h hi []
  rw [g.row_accepting] at hparts
  -- the item begins in state 0 or belongs to a production, and the accepting one is none
  obtain ⟨-, hzero⟩ | ⟨q, -, hq, -⟩ := hg.begins _ _ hbegins
  · have hsplit := popRegular_spec 1 [] s
    rw [hpop, List.append_nil, List.reverse_nil, List.nil_append] at hsplit
    dsimp only at hsplit
    rw [← hsplit, regularSymbols_append, regularSymbols_reverse, hparts,
      regularSymbols_eq_nil (hrest.extra_of_state hg hzero)]
    rfl
  · rw [Array.getElem?_size] at hq
    cases hq

end Stack

/-! ## Steps -/

namespace Walker

/-- A part that is offered can be used again in the state it was asked for. -/
theorem reusable_next {t : Table} {state : StateId} {place : Nat} {w after : Walker} {n : Subtree}
    (h : next t state place w = (some n, after)) : n.isReusable t state = true := by
  obtain ⟨-, -, -, hreusable⟩ := (next_listed (P := fun _ => True) (fun _ _ _ _ => trivial) h
    fun _ _ => trivial).2 n rfl
  exact hreusable

end Walker

namespace Subtree

/-- A part that is no token is used again only where its rule leads somewhere, and not as an extra. -/
theorem goto_of_isReusable {t : Table} {n : Subtree} {state : StateId}
    (h : n.isReusable t state = true) (hn : t.isTerminal n.symbol = false) :
    n.extra = false ∧ ∃ target, t.goto? state n.symbol = some target := by
  unfold isReusable at h
  split at h
  · cases h
  -- the checks are gone through in their order
  · rw [if_neg (by simp [hn])] at h
    split at h
    · cases h
    · rename_i hextra
      split at h
      · rename_i target _ hgoto _
        simp only [Bool.or_eq_true, not_or, Bool.not_eq_true] at hextra
        exact ⟨hextra.1, target, hgoto⟩
      · cases h

end Subtree

namespace Config

variable {t : Table} {text : ByteArray} {c c' : Config} {g : FlatGrammar}
  {items : StateId → Item → Prop}

/-- The error that takes a token up stands on a linked stack of the same state. -/
theorem linked_absorb (h : c.stack.Linked t) (token : Subtree) :
    (c.absorb t token).2.2.Linked t ∧ Stack.state (c.absorb t token).2.2 = c.state := by
  -- an error on top is an extra, so the state below it is the same
  have hbelow : ∀ {top : Entry} {rest : Stack}, c.stack = top :: rest → top.node.extra = true →
      Stack.Linked t rest ∧ Stack.state rest = c.state := by
    intro top rest hstack hextra
    rw [hstack] at h
    refine ⟨h.tail, ?_⟩
    cases h with
    | regular _ he => simp [he] at hextra
    | extra _ _ hstate => rw [Config.state, hstack, Stack.state, hstate]
  have habsorbs := absorbs t c token
  generalize c.absorb t token = absorbed at habsorbs ⊢
  cases habsorbs with
  | bare | alone => exact ⟨h, rfl⟩
  | joined hstack hextra | both hstack hextra => exact hbelow hstack hextra

/-- A reduction leaves a linked stack. -/
theorem linked_reduce (hs : t.Speaks g) (hg : t.Guided g items) (h : c.stack.Linked t)
    {token : Subtree} {p : ProductionId} {production : Production}
    (ha : t.action? c.state token.symbol = some (.reduce p))
    (hp : t.production? p = some production) : (c.reduce t token production).stack.Linked t := by
  obtain ⟨⟨q, -, -, hsupplies⟩, hrest⟩ := Stack.supplies_of_reduce hs hg h ha hp
  obtain ⟨target, htarget⟩ := hsupplies.leads
  -- what is pushed again consists of extras, which do not change the state
  have htrailing : ∀ e ∈ (c.stack.popChildren production.size).2.1, e.node.extra = true := by
    intro e he
    rw [Stack.popChildren, List.mem_reverse] at he
    have hextra := List.mem_takeWhile_imp he
    exact hextra
  unfold reduce
  generalize c.stack.popChildren production.size = popped at hrest htarget htrailing
  obtain ⟨parts, trailing, rest⟩ := popped
  dsimp only at hrest htarget htrailing ⊢
  rw [htarget]
  refine (Stack.Linked.extras (.regular hrest rfl (.inr htarget)) ?_).1
  intro e he
  obtain ⟨e', he', rfl⟩ := List.mem_map.mp (List.mem_reverse.mp he)
  exact ⟨htrailing e' he', rfl⟩

/-- What is done about a token keeps the stack linked. -/
theorem linked_of_continues (hs : t.Speaks g) (hg : t.Guided g items) (h : c.stack.Linked t)
    {token : Subtree} (hgoes : Continues t c token c') : c'.stack.Linked t := by
  cases hgoes with
  | shift ha => exact .regular h rfl (.inl ha)
  | reduce ha hp => exact linked_reduce hs hg h ha hp
  | extra => exact .extra h rfl rfl
  | cut => exact .extra (h.keep _) rfl rfl
  | skip =>
    obtain ⟨hbelow, hstate⟩ := linked_absorb h token
    exact .extra hbelow rfl hstate.symm

/-- A step keeps the stack linked. -/
theorem linked_of_moves (ht : t.Checked) (hs : t.Speaks g) (hg : t.Guided g items)
    (h : c.stack.Linked t) (hmoves : Moves t text c c') : c'.stack.Linked t := by
  obtain ⟨token, ready, hready, hgoes⟩ | ⟨n, ready, hready, hl, hn, rfl⟩ := moves_cases hmoves
  · rw [← (readies_frame hready).1] at h
    exact linked_of_continues hs hg h hgoes
  · obtain ⟨walker, hnext, -, -, -, hstack⟩ := takeOver_reused ht hready hl hn
    obtain ⟨hextra, target, htarget⟩ := Subtree.goto_of_isReusable (Walker.reusable_next hnext) hn
    -- taking a node over pushes it with the goto that was looked up
    have hstate : ready.state = c.state := by rw [state, state, hstack]
    rw [← hstack] at h
    refine .regular h hextra (.inr ?_)
    change t.goto? ready.state n.symbol = some ((t.goto? ready.state n.symbol).getD ready.state)
    rw [hstate, htarget]
    rfl

/-! ## The stack wherever a parse gets -/

/-- What the stack of a parse is good for: wherever the table asks for a reduction, its parts are
there, a stack that is accepted holds the start symbol alone, and a part of the old tree that is no
token leads to a state. -/
structure Disciplined (t : Table) (g : FlatGrammar) (text : ByteArray) (c : Config) : Prop where
  linked : c.stack.Linked t
  reduce : ∀ a p production, t.action? c.state a = some (.reduce p) →
    t.production? p = some production →
      ∃ q, g.productions[p]? = some q ∧ q.lhs = production.lhs ∧ c.stack.Supplies t production q.rhs
  accept : ∀ a, t.action? c.state a = some .accept → regularSymbols c.stack = [g.start]
  takeOver : ∀ n c', c.lookahead = none → c.fetch t text = (n, c') →
    t.isTerminal n.symbol = false → ∃ target, t.goto? c'.state n.symbol = some target

theorem disciplined_of_linked (ht : t.Checked) (hs : t.Speaks g) (hg : t.Guided g items)
    (h : c.stack.Linked t) : c.Disciplined t g text where
  linked := h
  reduce _ _ _ ha hp := (Stack.supplies_of_reduce hs hg h ha hp).1
  accept _ ha := Stack.regular_of_accept hg h ha
  takeOver n c' hl hfetch hn := by
    have hready := readies_fetch t text c hl
    rw [hfetch] at hready
    obtain ⟨walker, hnext, -, -, -, hstack⟩ := takeOver_reused ht hready hl hn
    rw [state, hstack]
    exact (Subtree.goto_of_isReusable (Walker.reusable_next hnext) hn).2

end Config

/-- With the table of a grammar, the stack of a parse is disciplined wherever the parse gets, whatever
the text and the old tree are. -/
theorem Language.parse_disciplined {g : Grammar} {flat : FlatGrammar} {l : Language}
    (hflat : g.flatten = .ok flat) (h : g.table = .ok l.table) (text : String) (old : Option Tree)
    {c : Config} (hc : Config.Reaches l.table text.toUTF8 (.start l.table (l.usable? old)) c) :
    c.Disciplined l.table flat text.toUTF8 := by
  obtain ⟨ht, -, hs, items, hguided⟩ := Grammar.guided_table hflat h
  refine Config.disciplined_of_linked ht hs hguided ?_
  exact Config.invariant_of_reaches (P := fun c => c.stack.Linked l.table) hc .nil
    fun _ _ hlinked => Config.linked_of_moves ht hs hguided hlinked

/-- The rule on the stack, over what was skipped before it. -/
theorem oneToken_disciplined : ∃ c,
    (Config.start OneToken.table none).after OneToken.table "b a".toUTF8 4 = some c ∧
      c.stack.map (·.state) = [1, 0] ∧ c.Disciplined OneToken.table OneToken.flat "b a".toUTF8 := by
  have hstates : ((Config.start OneToken.table none).after OneToken.table "b a".toUTF8 4).map
      (fun c => c.stack.map (·.state)) = some [1, 0] := by
    cbv
  obtain ⟨c, hafter, hstack⟩ := Option.map_eq_some_iff.mp hstates
  refine ⟨c, hafter, hstack, ?_⟩
  exact Language.parse_disciplined (l := ⟨0, OneToken.table⟩) OneToken.flatten_grammar
    OneToken.table_grammar "b a" none (Config.reaches_iff_after.mpr ⟨4, hafter⟩)

end IncrementalParsing
