import IncrementalParsing.Proofs.Grammar.FlatteningRuns
import IncrementalParsing.Proofs.Lalr.Operations
import IncrementalParsing.Proofs.Pattern.Literals
import IncrementalParsing.Proofs.Table.Compiled
import IncrementalParsing.Proofs.Table.Writing

/-!
# Operator tables

A grammar of binary operators is written as a choice of a token and, for each operator, the operator
between two of the rule itself.  It has a production for each member of the choice, and a terminal for
each operator.

## Key results

- `Describes.exists_flatten`: what such a grammar is flattened to
- `Describes.operators_honoured`: it has a table, which builds every row to what the operators ask for
-/

namespace IncrementalParsing

/-- A binary operator: its text, how tightly it binds, and whether it groups to the left or to the
right. -/
structure Operator where
  text : String
  precedence : Int
  leftward : Bool
deriving DecidableEq

namespace Operator

/-- How an operator binds. -/
def binding (o : Operator) : Binding := ⟨o.precedence, if o.leftward then .left else .right⟩

/-- An operator between two of the rule of a name. -/
def rule (name : String) (o : Operator) : Rule :=
  .prec o.binding.associativity (.integer o.precedence)
    (.seq [.symbol name, .string o.text, .symbol name])

/-- Every operator groups to one side. -/
theorem grouped (o : Operator) : o.binding.associativity ≠ .none := by
  unfold binding
  split <;> simp

end Operator

/-- Operators with different texts, not too many of them to be alternatives beside a token. -/
structure OperatorTable (n : Nat) where
  operator : Fin n → Operator
  nonempty : ∀ i, (operator i).text ≠ ""
  distinct : ∀ i j, (operator i).text = (operator j).text → i = j
  few : n + 1 ≤ Flatten.maxAlternatives

/-- A rule that is one token of its own: written in place, or a rule of another name. -/
inductive Grammar.IsAtom (g : Grammar) (name : String) (token : TokenRule) : Rule → Prop
  | string {text : String} (h : g.token name (.string text) = .ok token) :
      IsAtom g name token (.string text)
  | pattern {text : String} {flags : Option String}
      (h : g.token name (.pattern text flags) = .ok token) : IsAtom g name token (.pattern text flags)
  | token {content : Rule} (h : g.token name (.token content) = .ok token) :
      IsAtom g name token (.token content)
  | immediateToken {content : Rule} (h : g.token name (.immediateToken content) = .ok token) :
      IsAtom g name token (.immediateToken content)
  | symbol {other : String} {rule : Rule} (hne : other ≠ name) (hrule : g.rule? other = some rule)
      (hlexical : rule.isLexical = true) (h : g.token other rule = .ok token) :
      IsAtom g name token (.symbol other)

/-- The members of a choice: a token in the place `first`, and the operators of a table in order in the
others. -/
def OperatorTable.members {n : Nat} (t : OperatorTable n) (first : Fin (n + 1)) (name : String)
    (atom : Rule) : Fin (n + 1) → Rule :=
  first.insertNth atom fun i => (t.operator i).rule name

/-- A grammar is of the operators of a table, around a token.  Its extras are any tokens, as far as
there is room for their symbols beside those of the end of the text, of errors, of the rule, of the
token and of the operators. -/
structure OperatorTable.Describes {n : Nat} (t : OperatorTable n) (g : Grammar) (first : Fin (n + 1))
    (name : String) (atom : Rule) (token : TokenRule) : Prop where
  start : g.start? = some (name, .choice (List.ofFn (t.members first name atom)))
  atom : g.IsAtom name token atom
  externals : g.externals = []
  extras : ∀ rule ∈ g.extras, ∃ token, g.IsExtra name token rule
  room : g.extras.length + (n + 4) ≤ Flatten.maxCount

/-- A property that the tokens of such a grammar have, all of them. -/
structure OperatorTable.AllTokens {n : Nat} (t : OperatorTable n) (g : Grammar) (name : String)
    (token : TokenRule) (P : TokenRule → Prop) : Prop where
  atom : P token
  operator : ∀ i, P ⟨Rule.escaped (t.operator i).text, true, false, 0⟩
  extras : ∀ rule ∈ g.extras, ∀ extra, g.IsExtra name extra rule → P extra

namespace Flatten

open Flattening StateT

variable {g : Grammar} {start : String} {P : TokenRule → Prop} {s : Flattening}

/-! ## The members of the choice -/

/-- The alternative of an operator. -/
def operation (symbol : Nat) (o : Operator) : Alternative :=
  ⟨[(2, none), (symbol, none), (2, none)], some o.binding⟩

/-- An operator between two of the start rule has one alternative. -/
theorem exists_expand_operator (hs : s.Ready g start P) (hroom : s.symbols.size < maxCount)
    (owner : String) {o : Operator} (htext : o.text ≠ "")
    (hP : P ⟨Rule.escaped o.text, true, false, 0⟩) :
    ∃ i s', (expand g start owner (o.rule start)).run s = .ok ([operation i o], s') ∧
      s'.Ready g start P ∧ s.Adds s' 1 ∧ TokenAt s'.symbols (Rule.escaped o.text) false i := by
  obtain ⟨i, s', hrun, hs', hadds, hfound⟩ :=
    exists_anonymousToken hs hroom hP (Grammar.token_string g owner htext)
  refine ⟨i, s', ?_, hs', hadds, hs'.anonymous _ _ hfound⟩
  have hstring : (expand g start owner (.string o.text)).run s = .ok ([.single i], s') := by
    rw [expand]
    exact bind_run_ok.mpr ⟨i, s', hrun, pure_run_ok.mpr ⟨rfl, rfl⟩⟩
  have hcount : ∀ {s : Flattening}, (checkCount 1).run s = .ok ((), s) :=
    run_checkCount (by decide)
  -- the operator stands between two operands, which are the start symbol
  have hseq : (expand g start owner (.seq [.symbol start, .string o.text, .symbol start])).run s =
      .ok ([⟨[(2, none), (i, none), (2, none)], none⟩], s') := by
    rw [expand, expandSeq]
    refine bind_run_ok.mpr ⟨_, s, run_expand_symbol hs owner, bind_run_ok.mpr ⟨(), s, hcount, ?_⟩⟩
    rw [expandSeq]
    refine bind_run_ok.mpr ⟨_, s', hstring, bind_run_ok.mpr ⟨(), s', hcount, ?_⟩⟩
    rw [expandSeq]
    refine bind_run_ok.mpr ⟨_, s', run_expand_symbol hs' owner, bind_run_ok.mpr ⟨(), s', hcount, ?_⟩⟩
    rw [expandSeq]
    exact pure_run_ok.mpr ⟨rfl, rfl⟩
  rw [Operator.rule, expand]
  refine bind_run_ok.mpr ⟨o.precedence, s, lift_run_ok.mpr ⟨rfl, rfl⟩, ?_⟩
  exact bind_run_ok.mpr ⟨_, s', hseq, pure_run_ok.mpr ⟨rfl, rfl⟩⟩

/-- A token has one alternative. -/
theorem exists_expand_atom (hs : s.Ready g start P) (hroom : s.symbols.size < maxCount) {rule : Rule}
    {token : TokenRule} (hP : P token) (hatom : g.IsAtom start token rule) :
    ∃ i s', (expand g start start rule).run s = .ok ([.single i], s') ∧ s'.Ready g start P ∧
      s.Adds s' 1 ∧ TokenAt s'.symbols token.pattern token.immediate i := by
  -- tokens that are written out differ only in how `expand` comes to them
  have hinline : ∀ {rule}, g.token start rule = .ok token → ∃ i s',
      ((do return [.single (← anonymousToken g start rule)]) : Flatten (List Alternative)).run s =
        .ok ([.single i], s') ∧ s'.Ready g start P ∧ s.Adds s' 1 ∧
          TokenAt s'.symbols token.pattern token.immediate i := fun h => by
    obtain ⟨i, s', hrun, hs', hadds, hfound⟩ := exists_anonymousToken hs hroom hP h
    exact ⟨i, s', bind_run_ok.mpr ⟨i, s', hrun, pure_run_ok.mpr ⟨rfl, rfl⟩⟩, hs', hadds,
      hs'.anonymous _ _ hfound⟩
  cases hatom with
  | string h | pattern h | token h | immediateToken h =>
    rw [expand]
    exact hinline h
  | symbol hne hrule hlexical h =>
    obtain ⟨i, s', hrun, hrest⟩ := exists_ruleSymbol start hs hroom hP hne hrule hlexical h
    rw [expand]
    exact ⟨i, s', bind_run_ok.mpr ⟨i, s', hrun, pure_run_ok.mpr ⟨rfl, rfl⟩⟩, hrest⟩

end Flatten

namespace OperatorTable

open Flatten StateT

variable {n : Nat} {t : OperatorTable n} {g : Grammar} {first : Fin (n + 1)} {name : String}
  {atom : Rule} {token : TokenRule} {P : TokenRule → Prop}

/-- The alternative of a member of the choice. -/
structure Alternates (t : OperatorTable n) (first : Fin (n + 1)) (token : TokenRule)
    (symbols : Array FlatSymbol) (p : Fin (n + 1)) (a : Alternative) : Prop where
  atom : p = first → ∃ k, a = .single k ∧ TokenAt symbols token.pattern token.immediate k
  operator : ∀ i, p = first.succAbove i → ∃ k, a = operation k (t.operator i) ∧
    TokenAt symbols (Rule.escaped (t.operator i).text) false k

/-- Different members have different alternatives. -/
theorem Alternates.eq_of_eq {symbols : Array FlatSymbol} {p q : Fin (n + 1)} {a : Alternative}
    (hp : t.Alternates first token symbols p a) (hq : t.Alternates first token symbols q a) :
    p = q := by
  -- an operand has one part and an operation three, and operators differ in their tokens
  obtain hfirst | ⟨i, hi⟩ := Fin.eq_self_or_eq_succAbove first p
  · obtain hfirst' | ⟨j, hj⟩ := Fin.eq_self_or_eq_succAbove first q
    · rw [hfirst, hfirst']
    · obtain ⟨k, rfl, -⟩ := hp.atom hfirst
      obtain ⟨k', heq, -⟩ := hq.operator j hj
      cases heq
  · obtain ⟨k, rfl, hat⟩ := hp.operator i hi
    obtain hfirst' | ⟨j, hj⟩ := Fin.eq_self_or_eq_succAbove first q
    · obtain ⟨k', heq, -⟩ := hq.atom hfirst'
      cases heq
    · obtain ⟨k', heq, hat'⟩ := hq.operator j hj
      obtain rfl : k = k' := by simpa [operation] using congrArg Alternative.parts heq
      rw [hi, hj, t.distinct i j (Rule.escaped_injective (hat.pattern_eq hat'))]

/-- A member of the choice has an alternative, and a new symbol at most. -/
theorem exists_alternates (h : t.Describes g first name atom token)
    (hP : t.AllTokens g name token P) (p : Fin (n + 1)) {s : Flattening} (hs : s.Ready g name P)
    (hroom : s.symbols.size < maxCount) : ∃ a s',
      (expand g name name (t.members first name atom p)).run s = .ok ([a], s') ∧ s'.Ready g name P ∧
        s.Adds s' 1 ∧ t.Alternates first token s'.symbols p a := by
  -- the place is that of the operand, or of one of the operators
  obtain rfl | ⟨i, rfl⟩ := Fin.eq_self_or_eq_succAbove first p
  · rw [members, Fin.insertNth_apply_same]
    obtain ⟨k, s', hrun, hs', hadds, hat⟩ := exists_expand_atom hs hroom hP.atom h.atom
    exact ⟨_, s', hrun, hs', hadds, fun _ => ⟨k, rfl, hat⟩, fun i hi =>
      absurd hi.symm (Fin.succAbove_ne p i)⟩
  · rw [members, Fin.insertNth_apply_succAbove]
    obtain ⟨k, s', hrun, hs', hadds, hat⟩ :=
      exists_expand_operator hs hroom name (t.nonempty i) (hP.operator i)
    refine ⟨_, s', hrun, hs', hadds, fun hi => absurd hi (Fin.succAbove_ne first i), fun j hj => ?_⟩
    obtain rfl := Fin.succAbove_right_injective hj
    exact ⟨k, rfl, hat⟩

/-- An alternative keeps its symbols as more are added. -/
theorem Alternates.adds {s s' : Flattening} {count : Nat} {p : Fin (n + 1)} {a : Alternative}
    (hadds : s.Adds s' count) (h : t.Alternates first token s.symbols p a) :
    t.Alternates first token s'.symbols p a where
  atom := fun hp =>
    have ⟨k, ha, hat⟩ := h.atom hp
    ⟨k, ha, hat.adds hadds⟩
  operator := fun i hi =>
    have ⟨k, ha, hat⟩ := h.operator i hi
    ⟨k, ha, hat.adds hadds⟩

/-- No alternative is there twice. -/
theorem nodup_of_alternates {symbols : Array FlatSymbol} {as : List Alternative}
    (hlength : as.length = n + 1)
    (h : ∀ p : Fin (n + 1), ∃ a, as[p.val]? = some a ∧ t.Alternates first token symbols p a) :
    as.Nodup := by
  rw [List.nodup_iff_injective_get]
  intro p q heq
  obtain ⟨a, ha, hp⟩ := h (p.cast hlength)
  obtain ⟨b, hb, hq⟩ := h (q.cast hlength)
  -- equal alternatives at two places are alternatives of one
  have hsame : a = b := by
    rw [Fin.val_cast, List.getElem?_eq_getElem p.isLt] at ha
    rw [Fin.val_cast, List.getElem?_eq_getElem q.isLt] at hb
    rw [← Option.some.inj ha, ← Option.some.inj hb]
    exact heq
  exact Fin.cast_injective hlength (hp.eq_of_eq (hsame ▸ hq))

/-- The choice of an operator table has one alternative for each of its members. -/
theorem Describes.exists_expand (h : t.Describes g first name atom token)
    (hP : t.AllTokens g name token P) {s : Flattening} (hs : s.Ready g name P)
    (hroom : s.symbols.size + (n + 1) ≤ maxCount) : ∃ as s',
    (expand g name name (.choice (List.ofFn (t.members first name atom)))).run s = .ok (as, s') ∧
      s'.Ready g name P ∧ s.Adds s' (n + 1) ∧ as.length = n + 1 ∧
    ∀ p : Fin (n + 1), ∃ a, as[p.val]? = some a ∧ t.Alternates first token s'.symbols p a := by
  obtain ⟨as, s', hrun, hs', hadds, hall⟩ := exists_expandChoice
    (Q := fun symbols p a => t.Alternates first token symbols p a) (fun hadds => Alternates.adds hadds)
    (fun p _ hs hroom => exists_alternates h hP p hs hroom) (List.finRange (n + 1)) hs
    (by rwa [List.length_finRange])
  have hlength : as.length = n + 1 := by rw [← hall.length_eq, List.length_finRange]
  -- the alternative at `p` is the one that was made of the member at `p`
  have halternates : ∀ p : Fin (n + 1), ∃ a, as[p.val]? = some a ∧
      t.Alternates first token s'.symbols p a := fun p => by
    have hlt : p.val < as.length := by
      rw [hlength]
      exact p.isLt
    have hlt' : p.val < (List.finRange (n + 1)).length := by
      rw [List.length_finRange]
      exact p.isLt
    refine ⟨as[p.val], List.getElem?_eq_getElem hlt, ?_⟩
    simpa using hall.get hlt' hlt
  rw [List.length_finRange] at hadds
  refine ⟨as, s', ?_, hs', hadds, hlength, halternates⟩
  rw [expand, List.ofFn_eq_map]
  refine bind_run_ok.mpr ⟨as, s', hrun, ?_⟩
  -- the alternatives differ, so all of them are kept
  rw [distinct_of_nodup (nodup_of_alternates hlength halternates)]
  exact bind_run_ok.mpr ⟨(), s', run_checkCount (hlength ▸ t.few), pure_run_ok.mpr ⟨rfl, rfl⟩⟩

/-- What the grammar of an operator table is flattened to. -/
theorem Describes.exists_flatten (h : t.Describes g first name atom token)
    (hP : t.AllTokens g name token P) :
    ∃ flat operand operator, g.flatten = .ok flat ∧
      OperatorRules flat first operand operator (fun i => (t.operator i).binding) ∧
      TokenAt flat.symbols token.pattern token.immediate operand ∧
      (∀ i, TokenAt flat.symbols (Rule.escaped (t.operator i).text) false (operator i)) ∧
      (∀ info ∈ flat.symbols, ∀ token, info.token = some token → P token) ∧
      flat.symbols.size ≤ g.extras.length + (n + 4) ∧ flat.fields = #[] := by
  have hroom := h.room
  -- the extras have their symbols before the rule is expanded
  obtain ⟨s, hextras, hs, hgains⟩ := exists_addExtras g.extras (fun rule hrule => by
      obtain ⟨extra, hextra⟩ := h.extras rule hrule
      exact ⟨extra, hP.extras rule hrule extra hextra, hextra⟩) (ready_met g name P) (by
    change 3 + g.extras.length ≤ maxCount
    omega)
  have hsize : s.symbols.size ≤ 3 + g.extras.length := hgains.size
  obtain ⟨as, s', hexpand, hs', hadds, hlength, halternates⟩ :=
    h.exists_expand hP (s := { s with pending := [] })
      ⟨hs.own, hs.rules, hs.anonymous, hs.tokens⟩ (by
        change s.symbols.size + (n + 1) ≤ maxCount
        omega)
  have hflatten := flatten_of_expand h.start h.externals rfl hextras hs.own hgains.pending hexpand
    hadds.pending
  rw [hadds.productions, hgains.productions, met, initial, Array.empty_append] at hflatten
  -- the alternatives become the productions, in the same order
  have hproduction : ∀ p : Fin (n + 1), ∃ a, (productionsOf 2 as).toArray[p.val]? =
      some ⟨2, a.parts, a.binding⟩ ∧ t.Alternates first token s'.symbols p a := fun p => by
    obtain ⟨a, ha, hp⟩ := halternates p
    refine ⟨a, ?_, hp⟩
    rw [List.getElem?_toArray, productionsOf, List.getElem?_map, ha]
    rfl
  obtain ⟨a, ha, hfirst⟩ := hproduction first
  obtain ⟨operand, rfl, hoperand⟩ := hfirst.atom rfl
  have hoperator : ∀ i, ∃ k, (productionsOf 2 as).toArray[operationAt first i]? =
      some ⟨2, [(2, none), (k, none), (2, none)], some (t.operator i).binding⟩ ∧
      TokenAt s'.symbols (Rule.escaped (t.operator i).text) false k := fun i => by
    obtain ⟨a, ha, hp⟩ := hproduction (first.succAbove i)
    obtain ⟨k, rfl, hk⟩ := hp.operator i rfl
    exact ⟨k, ha, hk⟩
  choose operator hproduction hoperator using hoperator
  refine ⟨_, operand, operator, hflatten, ?_, hoperand, hoperator, hs'.tokens, ?_,
    hadds.fields.trans hgains.fields⟩
  · exact {
      sound := Grammar.sound_flatten hflatten
      size := by simp [productionsOf, hlength]
      few := Nat.lt_of_lt_of_le (Nat.lt_of_succ_le t.few) (by decide)
      atom := ⟨_, ha, rfl, rfl⟩
      operation := fun i => ⟨_, hproduction i, rfl, rfl, rfl⟩
      operand_terminal := TokenAt.isTerminal_flat hoperand
      operator_terminal := fun i => TokenAt.isTerminal_flat (hoperator i)
      -- operators with the same symbol would have the same text
      injective := fun i j hij => t.distinct i j
        (Rule.escaped_injective ((hoperator i).pattern_eq (hij ▸ hoperator j)))
      grouped := fun i => (t.operator i).grouped }
  · have hsize' : s'.symbols.size ≤ s.symbols.size + (n + 1) := hadds.size
    change s'.symbols.size ≤ g.extras.length + (n + 4)
    omega

/-! ## The bytes of the table -/

/-- The automaton of a pattern is that of its expression. -/
theorem automaton?_of_expression {pattern : String} {e : Expression}
    (h : (Pattern.parse? pattern).bind Pattern.expression? = some e)
    (hlooks : e.looks.any Look.isUnicodeWord = false) :
    TableImage.automaton? pattern = some (.ofExpression e) := by
  rw [TableImage.automaton?, h]
  exact if_neg (Bool.eq_false_iff.mp hlooks)

/-- An escaped text has an automaton. -/
theorem exists_automaton_escaped (text : String) :
    ∃ a, TableImage.automaton? (Rule.escaped text) = some a :=
  ⟨_, automaton?_of_expression (Pattern.expression?_escaped text) (by split <;> rfl)⟩

/-- What it takes for the grammar of an operator table to have bytes: the patterns of its token and of
its extras have automata, 16 bits count its symbols and 32 bits the bytes that they take.  Nothing is
asked of the operators beside the bytes of their texts. -/
structure Writable (t : OperatorTable n) (g : Grammar) (name : String) (token : TokenRule) : Prop where
  atom : ∃ a, TableImage.automaton? token.pattern = some a
  extras : ∀ rule ∈ g.extras, ∀ extra, g.IsExtra name extra rule →
    ∃ a, TableImage.automaton? extra.pattern = some a
  room : 2 * (g.extras.length + (n + 4)) + 1 ≤ TableImage.maxCount
  size : ∀ flat, g.flatten = .ok flat → flat.nameSize .plain ≤ 2 ^ 30

/-- The tokens of such a grammar have automata, all of them. -/
theorem Writable.allTokens (h : t.Writable g name token) :
    t.AllTokens g name token fun token => ∃ a, TableImage.automaton? token.pattern = some a where
  atom := h.atom
  operator := fun i => exists_automaton_escaped (t.operator i).text
  extras := h.extras

/-- The productions of an operator table have three parts at most. -/
theorem length_parts_le {flat : FlatGrammar} {operand : Nat} {operator : Fin n → Nat}
    {binding : Fin n → Binding} (hr : OperatorRules flat first operand operator binding) :
    ∀ q ∈ flat.productions.toList, q.parts.length ≤ 3 := by
  intro q hq
  obtain ⟨k, hk⟩ := Array.getElem?_of_mem (Array.mem_toList_iff.mp hq)
  obtain ⟨hlt, -⟩ := Array.getElem?_eq_some_iff.mp hk
  rw [hr.size] at hlt
  have hlength : q.parts.length = q.rhs.length := (List.length_map ..).symm
  rw [hlength]
  -- each production is that of the atom or of an operation
  obtain hfirst | ⟨i, hi⟩ := Fin.eq_self_or_eq_succAbove first ⟨k, hlt⟩
  · obtain ⟨q', hq', -, hrhs⟩ := hr.atom
    rw [← hfirst] at hq'
    cases hk.symm.trans hq'
    rw [hrhs]
    exact Nat.le_of_ble_eq_true rfl
  · obtain ⟨q', hq', -, hrhs, -⟩ := hr.operation i
    rw [operationAt, ← hi] at hq'
    cases hk.symm.trans hq'
    rw [hrhs]
    exact Nat.le_refl 3

/-- The grammar of an operator table has bytes. -/
theorem Describes.exists_write (h : t.Describes g first name atom token)
    (hw : t.Writable g name token) {flat : FlatGrammar} {p : ParserTable}
    (hflatten : g.flatten = .ok flat) (hp : ParserTable.ofGrammar flat = .ok p) :
    ∃ bytes, TableImage.write flat p = .ok bytes := by
  obtain ⟨_, operand, operator, hflatten', hr, -, -, htokens, hsymbols, hfields⟩ :=
    h.exists_flatten hw.allTokens
  cases hflatten.symm.trans hflatten'
  have hfew : n + 1 ≤ 4096 := t.few
  have hroom : 2 * (g.extras.length + (n + 4)) + 1 ≤ 65535 := hw.room
  have hproper := ParserTable.proper_of_ofGrammar hr.sound hp
  have hparts := length_parts_le hr
  -- the bound on the states is that of operator grammars
  have hstates : p.states.size ≤ 8193 := by
    refine (hr.states_le ?_ hp).trans (by omega)
    change 2 * n + 3 ≤ 65535
    omega
  have hsymbols' : flat.symbols.size ≤ 32767 := by omega
  have hfields' : flat.fields.size = 0 := by rw [hfields]; rfl
  refine TableImage.exists_writeWith (fun s hs token htoken => htokens s hs token ?_) ?_
    (fun q hq => (hparts q hq).trans (by decide))
    (fun state hstate => (TableImage.length_actions_le hproper hstate).trans ?_) ?_ ?_
  · exact (Option.filter_eq_some_iff.mp htoken).1
  · change 2 * flat.symbols.size + flat.fields.size + 1 ≤ 65535
    omega
  · change flat.symbols.size ≤ 65535
    omega
  · change flat.productions.size ≤ 65535
    rw [hr.size]
    omega
  · -- the actions take most of the bytes: eight for each state and symbol
    have hactions : p.states.size * (8 + 8 * flat.symbols.size) ≤ 8193 * (8 + 8 * 32767) :=
      Nat.mul_le_mul hstates (by omega)
    have hmodes : (p.states.size + 1) * (8 + 2 * flat.symbols.size) ≤ 8194 * (8 + 2 * 32767) :=
      Nat.mul_le_mul (by omega) (by omega)
    have hentries := TableImage.entriesSize_le hproper hparts
    have hsize := hw.size flat hflatten
    have hproductions := hr.size
    omega

/-- Operators are honoured: the grammar of an operator table has a parser table without a conflict, it
is compiled to bytes where there is room for them, and each row of operands with operators between them
is built to a tree over it in which a left operand binds tighter than its operator or is an equal that
groups to the left, and a right operand binds tighter or is an equal of one that groups to the right. -/
theorem Describes.operators_honoured (h : t.Describes g first name atom token) :
    ∃ flat p operand operator, g.flatten = .ok flat ∧ ParserTable.ofGrammar flat = .ok p ∧
      g.compile = TableImage.write flat p ∧
      (t.Writable g name token → ∃ bytes, g.compile = .ok bytes) ∧
      OperatorRules flat first operand operator (fun i => (t.operator i).binding) ∧
      TokenAt flat.symbols token.pattern token.immediate operand ∧
      (∀ i, TokenAt flat.symbols (Rule.escaped (t.operator i).text) false (operator i)) ∧
      ∀ operators : List (Fin n), ∃ e : Operation n,
        e.Respects (fun i => (t.operator i).binding) ∧ e.operators = operators ∧
        (e.built first operand operator).tokens = Operation.row operand operator operators ∧
        p.Builds flat (Operation.row operand operator operators) (e.built first operand operator) := by
  obtain ⟨flat, operand, operator, hflatten, hr, hoperand, hoperator, -⟩ :=
    h.exists_flatten (P := fun _ => True) ⟨trivial, fun _ => trivial, fun _ _ _ _ => trivial⟩
  have hfew : n + 1 ≤ 4096 := t.few
  obtain ⟨p, At, hp, hoperates⟩ := hr.exists_operates (by
    change 2 * n + 3 ≤ 65535
    omega)
  -- both steps before writing succeed, so only writing is left
  have hcompile : g.compile = TableImage.write flat p := by
    rw [Grammar.compile, hflatten]
    change (ParserTable.ofGrammar flat >>= TableImage.write flat) = _
    rw [hp]
    rfl
  refine ⟨flat, p, operand, operator, hflatten, hp, hcompile, fun hw => ?_, hr, hoperand, hoperator,
    fun operators => ?_⟩
  · rw [hcompile]
    exact h.exists_write hw hflatten hp
  · obtain ⟨e, he, hoperators, hbuilds⟩ := hoperates.builds_row hr operators
    exact ⟨e, he, hoperators, hbuilds.tokens_eq, hbuilds⟩

/-! ## Arithmetic -/

/-- Sums bind less than products, and both group to the left; powers bind most and group to the
right. -/
def arithmetic : OperatorTable 3 where
  operator := ![⟨"+", 1, true⟩, ⟨"*", 2, true⟩, ⟨"^", 3, false⟩]
  nonempty := by decide
  distinct := by decide
  few := by decide

/-- The grammar of arithmetic on digits, with blanks anywhere. -/
def arithmeticGrammar : Grammar where
  name := "arithmetic"
  rules := [("expression", .choice [
    .pattern "[0-9]" none,
    .prec .left (.integer 1) (.seq [.symbol "expression", .string "+", .symbol "expression"]),
    .prec .left (.integer 2) (.seq [.symbol "expression", .string "*", .symbol "expression"]),
    .prec .right (.integer 3) (.seq [.symbol "expression", .string "^", .symbol "expression"])])]
  extras := [.pattern "[ \\n]" none]
  precedences := []
  conflicts := []
  externals := []
  inlined := []
  supertypes := []
  word := none
  reserved := []

/-- The table describes the grammar of arithmetic. -/
theorem describes_arithmetic : arithmetic.Describes arithmeticGrammar 0 "expression"
    (.pattern "[0-9]" none) ⟨"(?:[0-9])", false, false, 0⟩ where
  start := rfl
  atom := .pattern (by cbv)
  externals := rfl
  extras := fun rule hrule => by
    obtain rfl := List.mem_singleton.mp hrule
    exact ⟨⟨"(?:[ \\n])", false, false, 0⟩, .inline rfl (by cbv)⟩
  room := by decide

/-- The network that reads a digit. -/
theorem network_digit : Network.ofExpression (.set ⟨[(48, 57)]⟩ false) =
    ⟨#[.accept, .bytes [(48, 57, 0)]], 1⟩ := by
  simp [Network.ofExpression, Network.layout, Network.setNode, Network.setMoves, Network.forms,
    Unicode.CodeSet.clip, Network.splitRange, Network.joinPieces, Network.pieceMoves,
    Network.digitsNode]
  rfl

/-- The network that reads a blank. -/
theorem network_blank : Network.ofExpression (.set ⟨[(10, 10), (32, 32)]⟩ false) =
    ⟨#[.accept, .bytes [(10, 10, 0), (32, 32, 0)]], 1⟩ := by
  simp [Network.ofExpression, Network.layout, Network.setNode, Network.setMoves, Network.forms,
    Unicode.CodeSet.clip, Network.splitRange, Network.joinPieces, Network.pieceMoves,
    Network.digitsNode]
  rfl

/-- A digit is a set of characters, -/
theorem automaton?_digit : TableImage.automaton? "(?:[0-9])" =
    some (.ofExpression (.set ⟨[(48, 57)]⟩ false)) :=
  automaton?_of_expression (by cbv) rfl

/-- and so is a blank. -/
theorem automaton?_blank : TableImage.automaton? "(?:[ \\n])" =
    some (.ofExpression (.set ⟨[(10, 10), (32, 32)]⟩ false)) :=
  automaton?_of_expression (by cbv) rfl

/-- The bytes that the pattern of a digit takes, -/
theorem patternSize_digit : TokenRule.patternSize .plain ⟨"(?:[0-9])", false, false, 0⟩ = 61 := by
  rw [TokenRule.patternSize, automaton?_digit]
  unfold Automaton.ofExpression
  rw [network_digit]
  cbv

/-- those of a blank, -/
theorem patternSize_blank : TokenRule.patternSize .plain ⟨"(?:[ \\n])", false, false, 0⟩ = 67 := by
  rw [TokenRule.patternSize, automaton?_blank]
  unfold Automaton.ofExpression
  rw [network_blank]
  cbv

/-- and those of an operator. -/
theorem patternSize_text : ∀ text ∈ ["\\+", "\\*", "\\^"],
    TokenRule.patternSize .plain ⟨text, true, false, 0⟩ = 54 := by
  intro text htext
  simp only [List.mem_cons, List.not_mem_nil, or_false] at htext
  obtain rfl | rfl | rfl := htext <;> cbv

/-- What the grammar of arithmetic is flattened to. -/
def flatArithmetic : FlatGrammar where
  name := "arithmetic"
  symbols := #[⟨"end", none, true, false, false, false⟩, ⟨"ERROR", none, true, true, true, false⟩,
    ⟨"expression", none, false, true, true, false⟩,
    ⟨"[ \\n]", some ⟨"(?:[ \\n])", false, false, 0⟩, true, false, false, true⟩,
    ⟨"[0-9]", some ⟨"(?:[0-9])", false, false, 0⟩, true, false, false, false⟩,
    ⟨"+", some ⟨"\\+", true, false, 0⟩, true, false, true, false⟩,
    ⟨"*", some ⟨"\\*", true, false, 0⟩, true, false, true, false⟩,
    ⟨"^", some ⟨"\\^", true, false, 0⟩, true, false, true, false⟩]
  productions := #[⟨2, [(4, none)], none⟩, ⟨2, [(2, none), (5, none), (2, none)], some ⟨1, .left⟩⟩,
    ⟨2, [(2, none), (6, none), (2, none)], some ⟨2, .left⟩⟩,
    ⟨2, [(2, none), (7, none), (2, none)], some ⟨3, .right⟩⟩]
  fields := #[]
  start := 2

/-- The grammar of arithmetic is flattened as written above. -/
theorem flatten_arithmetic : arithmeticGrammar.flatten = .ok flatArithmetic := by
  cbv

/-- The bytes that its names and patterns take. -/
theorem nameSize_arithmetic : flatArithmetic.nameSize .plain = 331 := by
  -- each of the five tokens takes its name, its pattern and its automaton
  have htoken : ∀ name token named visible extra, token.pattern.isEmpty = false →
      FlatSymbol.nameSize .plain ⟨name, some token, true, named, visible, extra⟩ =
        name.toUTF8.toList.length + token.patternSize .plain := by
    intro name token named visible extra h
    simp [FlatSymbol.nameSize, FlatSymbol.lexeme?, Option.filter, h]
  simp only [FlatGrammar.nameSize, flatArithmetic, sumOf_cons, sumOf_nil]
  rw [htoken _ _ _ _ _ (by cbv), htoken _ _ _ _ _ (by cbv), htoken _ _ _ _ _ (by cbv),
    htoken _ _ _ _ _ (by cbv), htoken _ _ _ _ _ (by cbv), patternSize_blank, patternSize_digit,
    patternSize_text "\\+" (by simp), patternSize_text "\\*" (by simp),
    patternSize_text "\\^" (by simp)]
  cbv

/-- So its table can be written. -/
theorem writable_arithmetic : arithmetic.Writable arithmeticGrammar "expression"
    ⟨"(?:[0-9])", false, false, 0⟩ where
  atom := ⟨_, automaton?_digit⟩
  -- the only extra is white space
  extras := fun rule hrule extra hextra => by
    obtain rfl := List.mem_singleton.mp hrule
    cases hextra with
    | inline hlexical h =>
      have hblank : arithmeticGrammar.token "expression" (.pattern "[ \\n]" none) =
          .ok ⟨"(?:[ \\n])", false, false, 0⟩ := by cbv
      cases hblank.symm.trans h
      exact ⟨_, automaton?_blank⟩
  room := by decide
  size := fun flat hflat => by
    cases flatten_arithmetic.symm.trans hflat
    rw [nameSize_arithmetic]
    decide

/-- Arithmetic is compiled without a conflict, and its rows are built as its operators ask for. -/
theorem arithmetic_honoured : arithmetic.Describes arithmeticGrammar 0 "expression"
      (.pattern "[0-9]" none) ⟨"(?:[0-9])", false, false, 0⟩ ∧
    (∃ bytes, arithmeticGrammar.compile = .ok bytes) ∧
    ∃ flat p operand operator, arithmeticGrammar.flatten = .ok flat ∧
      ParserTable.ofGrammar flat = .ok p ∧ ∀ operators : List (Fin 3), ∃ e : Operation 3,
        e.Respects (fun i => (arithmetic.operator i).binding) ∧ e.operators = operators ∧
        p.Builds flat (Operation.row operand operator operators) (e.built 0 operand operator) := by
  obtain ⟨flat, p, operand, operator, hflatten, hp, -, hwrite, -, -, -, hrows⟩ :=
    describes_arithmetic.operators_honoured
  refine ⟨describes_arithmetic, hwrite writable_arithmetic, flat, p, operand, operator, hflatten, hp,
    fun operators => ?_⟩
  obtain ⟨e, he, hoperators, -, hbuilds⟩ := hrows operators
  exact ⟨e, he, hoperators, hbuilds⟩

end OperatorTable

end IncrementalParsing
