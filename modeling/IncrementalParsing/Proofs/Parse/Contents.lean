import IncrementalParsing.Proofs.Parse.DerivedTrees
import IncrementalParsing.Proofs.Parse.Likeness
import IncrementalParsing.Proofs.Table.Structure
import IncrementalParsing.Proofs.Tree.Every

/-!
# What the parts of a parse have in common

A part is made in one of five ways: of a token, by marking a token as an extra or not, by joining two
errors, as an error of entries, or as the node of a production.  `Table.Makes` says that a property
comes out of each of these where it holds throughout of what goes in.  Then it holds throughout of
everything on the stack of a parse, and of everything in the tree; parts of an old tree that are taken
over have it because a parse has made them and no edit has touched them since.

## Key results

- `Config.every_of_moves`: a step keeps the property throughout the stack
- `Config.concludes_of_done`: how the root of a parse comes about
- `Language.every_of_parse`, `Language.retains_of_grown`: everything in a tree has the property, and
  after edits everything that is not marked retains it
-/

namespace IncrementalParsing

/-- All that is known of a table that was made from a flat grammar. -/
structure Table.Serves (t : Table) (g : FlatGrammar) (items : StateId → Item → Prop) : Prop where
  checked : t.Checked
  sound : g.Sound
  regular : g.Regular
  speaks : t.Speaks g
  guided : t.Guided g items
  outline : ∀ p production, t.production? p = some production →
    ∃ q, g.productions[p]? = some q ∧ production = q.outline
  accept : ∀ s a, t.action? s a = some .accept → a = Symbol.finish

/-- The table of a grammar serves what the grammar was flattened to. -/
theorem Grammar.serves_table {grammar : Grammar} {t : Table} (h : grammar.table = .ok t) :
    ∃ g items, grammar.flatten = .ok g ∧ t.Serves g items := by
  obtain ⟨g, p, names, hflat, hg, hp, ht, hagrees⟩ := agrees_table h
  obtain ⟨items, hguided⟩ := TableImage.guided_of_agrees hg hp (size_productions_le hflat h) hagrees
  obtain ⟨_, -, henacts⟩ := TableImage.enacts_of_agrees hg hp hagrees
  refine ⟨g, items, hflat, ht, hg, regular_flatten hflat, TableImage.speaks_of_agrees hg hagrees,
    hguided, fun q production hq => ?_, fun s a ha => (henacts.accept s a ha).1⟩
  rw [Table.production?, hagrees.productions, Array.getElem?_map] at hq
  obtain ⟨y, hy, rfl⟩ := Option.map_eq_some_iff.mp hq
  exact ⟨y, hy, rfl⟩

namespace Table.Serves

variable {t : Table} {g : FlatGrammar} {items : StateId → Item → Prop}

/-- Extras are terminals. -/
theorem terminal_of_isExtra (h : t.Serves g items) {s : Symbol} (hs : t.isExtra s = true) :
    t.isTerminal s = true := by
  rw [h.speaks.extra] at hs
  have hmem := (h.regular.mem_extras s).mpr hs
  rw [FlatGrammar.extras, List.mem_filter] at hmem
  exact (h.speaks.terminal s).trans ((h.regular.mem_lexicalTerminals s).mp hmem.1).2

/-- A rule that has a production is neither a terminal nor that of errors. -/
theorem lhs_rule (h : t.Serves g items) {q : FlatProduction} (hq : q ∈ g.productions) :
    t.isTerminal q.lhs = false ∧ q.lhs ≠ Symbol.error := by
  obtain ⟨hle, -, hrule⟩ := h.sound.lhs q hq
  refine ⟨(h.speaks.terminal _).trans hrule, fun heq => ?_⟩
  rw [heq] at hle
  exact absurd hle (by decide)

theorem start_ne_error (h : t.Serves g items) : t.start ≠ Symbol.error := by
  intro heq
  have hrule := h.checked.start_rule
  rw [heq, h.checked.error_terminal] at hrule
  cases hrule

/-- Every parse with the table gives a result. -/
theorem exists_parse {l : Language} (h : l.table.Serves g items) (text : String)
    (old : Option Tree) : ∃ p, l.parse text old = some p :=
  Option.isSome_iff_exists.mp ((l.parse_isSome text old).mpr
    (Config.ends_of_table h.checked (h.guided.shift_ne h.sound) _))

end Table.Serves

namespace Subtree

/-- No edit has touched a part that is used again. -/
theorem changed_of_isReusable {t : Table} {n : Subtree} {state : StateId}
    (h : n.isReusable t state = true) : n.changed = false := by
  unfold isReusable at h
  split at h
  · cases h
  · rename_i hmarks
    simp only [Bool.or_eq_true, not_or, Bool.not_eq_true] at hmarks
    exact hmarks.1.1

end Subtree

/-- A part that is used again has a property throughout if the parts of the old tree retain it. -/
theorem Walker.every_next {P : Subtree → Prop} {t : Table} {state : StateId} {place : Nat}
    {w after : Walker} {n : Subtree} (h : next t state place w = (some n, after))
    (hw : ∀ p ∈ w, p.2.Retains P) : (∀ p ∈ after, p.2.Retains P) ∧ n.Every P := by
  obtain ⟨hafter, hn⟩ := forall_next (fun _ => Subtree.Retains.child) h hw
  exact ⟨hafter, (hn n rfl).every (Subtree.changed_of_isReusable (reusable_next h))⟩

namespace Build

variable {t : Table} {parent : Symbol} {entries : List Entry} {fields : List (Option FieldId)}

/-- A piece is the node of an entry that is kept, with its field, or a child of one that is spliced. -/
theorem mem_pieces_iff {entry : Entry × Option FieldId} {c : Subtree × Option FieldId} :
    c ∈ pieces t parent entry ↔
      (isSpliced t parent entry.1.node = false ∧ c = (entry.1.node, entry.2)) ∨
        (isSpliced t parent entry.1.node = true ∧
          ∃ inner, (c.1, inner) ∈ entry.1.node.children ∧ c.2 = inner.or entry.2) := by
  obtain ⟨e, field⟩ := entry
  rw [pieces]
  dsimp only
  -- a spliced entry gives its children, which keep a field of their own
  cases isSpliced t parent e.node with
  | false => simp
  | true =>
    simp only [if_true, List.mem_map, Bool.true_eq_false, false_and, true_and, false_or]
    constructor
    · rintro ⟨⟨n, inner⟩, hmem, rfl⟩
      exact ⟨inner, hmem, rfl⟩
    · rintro ⟨inner, hmem, hfield⟩
      exact ⟨(c.1, inner), hmem, Prod.ext rfl hfield.symm⟩

/-- What the node of a rule consists of comes from its entries. -/
theorem mem_children_iff (hp : parent ≠ Symbol.error) {c : Subtree × Option FieldId} :
    c ∈ children t parent entries fields ↔
      ∃ entry ∈ withFields entries fields, c ∈ pieces t parent entry := by
  rw [children_of_ne_error hp, List.mem_flatMap]

theorem mem_of_mem_withFields {entry : Entry × Option FieldId}
    (h : entry ∈ withFields entries fields) : entry.1 ∈ entries := by
  have hmem := List.mem_map_of_mem (f := Prod.fst) h
  rwa [map_fst_withFields] at hmem

theorem exists_mem_withFields {e : Entry} (h : e ∈ entries) (fields : List (Option FieldId)) :
    ∃ field, (e, field) ∈ withFields entries fields := by
  rw [← map_fst_withFields entries fields] at h
  obtain ⟨⟨e', field⟩, hmem, rfl⟩ := List.mem_map.mp h
  exact ⟨field, hmem⟩

/-- What is replaced in the node of a rule is a hidden rule. -/
theorem hidden_of_isSpliced {g : FlatGrammar} (hs : t.Speaks g) (hp : parent ≠ Symbol.error)
    {n : Subtree} (h : isSpliced t parent n = true) :
    g.isTerminal n.symbol = false ∧ g.isVisible n.symbol = false := by
  simp only [isSpliced, isHiddenRule, beq_eq_false_iff_ne.mpr hp, Bool.false_and, Bool.or_false,
    Bool.and_eq_true, Bool.not_eq_true', hs.terminal, hs.visible] at h
  exact h.2.2

theorem ne_error_of_isSpliced {g : FlatGrammar} {items : StateId → Item → Prop}
    (h : t.Serves g items) (hp : parent ≠ Symbol.error) {n : Subtree}
    (hspliced : isSpliced t parent n = true) : n.symbol ≠ Symbol.error := by
  intro heq
  have hrule := (hidden_of_isSpliced h.speaks hp hspliced).1
  rw [heq, ← h.speaks.terminal, h.checked.error_terminal] at hrule
  cases hrule

end Build

/-- Entries stand for a row of symbols, with extras only between those that do. -/
structure Spells (entries : List Entry) (row : List Symbol) : Prop where
  symbols : regularSymbols entries = row
  first : ∀ e ∈ entries.head?, e.node.extra = false
  last : ∀ e ∈ entries.getLast?, e.node.extra = false

/-- The parts that are taken off a stack for a production spell its row. -/
theorem Stack.Supplies.spells {t : Table} {s : Stack} {production : Production} {row : List Symbol}
    (h : s.Supplies t production row) : Spells (s.popChildren production.size).1 row := by
  have hparts := h.parts
  generalize hpop : s.popChildren production.size = popped at hparts
  obtain ⟨parts, trailing, rest⟩ := popped
  obtain ⟨-, hparted⟩ := parted_of_popChildren hpop (by
    rw [← h.size, ← hparts, regularSymbols, List.length_map])
  refine ⟨hparts, hparted.first, fun e he => hparted.last e ?_⟩
  rw [List.head?_append, List.head?_reverse, Option.mem_def.mp he]
  rfl

/-- A property comes out of every way to make a part, where it holds throughout of what goes in. -/
structure Table.Makes (t : Table) (g : FlatGrammar) (P : Subtree → Prop) : Prop where
  leaf : ∀ (token : Token) (state : StateId) (extra : Bool), t.isTerminal token.symbol = true →
    token.symbol ≠ Symbol.finish → P (.leaf token state extra)
  mark : ∀ (n : Subtree) (extra : Bool), t.isTerminal n.symbol = true → P n → P (n.withExtra extra)
  join : ∀ (a b joined : Subtree), P a → a.joinErrors? b = some joined → P joined
  error : ∀ (around : Surroundings) (entries : List Entry) (fallback : Length) (state : StateId),
    (∀ e ∈ entries, e.node.Every P) →
      P (buildNode t around Symbol.error entries [] fallback state).1
  rule : ∀ (q : FlatProduction) (around : Surroundings) (entries : List Entry) (fallback : Length)
    (state : StateId), q ∈ g.productions → Spells entries q.rhs → (∀ e ∈ entries, e.node.Every P) →
      P (buildNode t around q.lhs entries (q.parts.map Prod.snd) fallback state).1

namespace Config

variable {t : Table} {g : FlatGrammar} {items : StateId → Item → Prop} {text : ByteArray}
  {P : Subtree → Prop} {c c' : Config}

/-- The next token has a property, unless it is the end of the text, which is never put on the stack. -/
def Reads (P : Subtree → Prop) (token : Subtree) : Prop :=
  token.symbol = Symbol.finish ∨ token.Every P

/-- A property holds throughout of everything on the stack and of the next token, and what is left of an
old tree retains it. -/
structure Every (P : Subtree → Prop) (c : Config) : Prop where
  stack : ∀ e ∈ c.stack, e.node.Every P
  lookahead : ∀ token, c.lookahead = some token → Reads P token
  walker : ∀ p ∈ c.walker, p.2.Retains P

theorem every_start {old : Option Subtree}
    (h : ∀ root, old = some root → ∀ c ∈ root.children, c.1.Retains P) : (start t old).Every P where
  stack _ he := by cases he
  lookahead _ h := by cases h
  walker p hp := by
    cases old with
    | none => cases hp
    | some root =>
      obtain ⟨c, hc, hsame⟩ := Walker.mem_placeAll hp
      exact hsame ▸ h root rfl c hc

/-! ## Steps -/

/-- A token that is readied has the property: it is a token of the text, or an edit has left it alone
since it was made. -/
theorem every_of_readies (ht : t.Checked) (hleaf : ∀ (token : Token) (state : StateId) (extra : Bool),
    t.isTerminal token.symbol = true → token.symbol ≠ Symbol.finish → P (.leaf token state extra))
    {token : Subtree} (hc : c.Every P) (h : Readies t text c token c') :
    c'.Every P ∧ Reads P token := by
  have hnone : c.lookahead = none → ∀ token, c.lookahead = some token → Reads P token := by
    intro h token h'
    rw [h] at h'
    cases h'
  cases h with
  | waiting h => exact ⟨hc, hc.lookahead token h⟩
  | @lexed walker h hw =>
    -- a subtree that is passed over or opened up leaves its own parts on the walker
    have hwalker : ∀ p ∈ walker, p.2.Retains P := by
      obtain ⟨-, rfl⟩ | ⟨-, hnext⟩ := hw
      · exact hc.walker
      · exact (Walker.forall_next (fun _ => Subtree.Retains.child) hnext hc.walker).1
    refine ⟨⟨hc.stack, hnone h, hwalker⟩, ?_⟩
    by_cases hf : ({ c with walker }.lex t text).1.symbol = Symbol.finish
    · exact .inl hf
    · exact .inr ⟨hleaf _ _ _ (Lexer.terminal_next ht) hf, fun _ h => by cases h⟩
  | @reused n walker h _ hnext =>
    obtain ⟨hwalker, hn⟩ := Walker.every_next hnext hc.walker
    exact ⟨⟨hc.stack, hnone h, hwalker⟩, .inr hn⟩

/-- What consists of the nodes of entries, or of what is in them, has the property throughout. -/
theorem every_children (hm : t.Makes g P) {parent : Symbol} {entries : List Entry}
    {fields : List (Option FieldId)} (h : ∀ e ∈ entries, e.node.Every P) :
    ∀ c ∈ Build.children t parent entries fields, c.1.Every P :=
  Build.forall_children (fun a b joined ha hjoined => ⟨hm.join a b joined ha.self hjoined, by
    rw [Subtree.eq_of_joinErrors hjoined]
    exact ha.child⟩) fun e he => ⟨h e he, (h e he).child⟩

theorem every_errorNode (hm : t.Makes g P) {token : Subtree} {entries : List Entry} {state : StateId}
    (h : ∀ e ∈ entries, e.node.Every P) : (c.errorNode t token entries state).1.Every P :=
  ⟨hm.error _ _ _ _ h, every_children hm h⟩

/-- A part that has the property is put on the stack. -/
theorem every_push (hc : c.Every P) {n : Subtree} (hn : n.Every P) {state : StateId}
    {position : Length} (hstack : c'.stack = ⟨state, n, position⟩ :: c.stack)
    (hwalker : c'.walker = c.walker) (hlookahead : c'.lookahead = none) : c'.Every P where
  stack e he := by
    rw [hstack] at he
    -- the only new entry is the node that is pushed
    obtain rfl | he := List.mem_cons.mp he
    · exact hn
    · exact hc.stack e he
  lookahead token h := by
    rw [hlookahead] at h
    cases h
  walker := hwalker ▸ hc.walker

/-- The entries that a reduction takes off the stack were on it, and are the parts of its production. -/
theorem every_reduce (h : t.Serves g items) (hm : t.Makes g P) (hlinked : c.stack.Linked t)
    (hc : c.Every P) {token : Subtree} (htoken : Reads P token) {p : ProductionId}
    {production : Production} (ha : t.action? c.state token.symbol = some (.reduce p))
    (hp : t.production? p = some production) : (c.reduce t token production).Every P := by
  obtain ⟨⟨q, hq, -, hsupplies⟩, -⟩ :=
    Stack.supplies_of_reduce h.speaks h.guided hlinked ha hp
  obtain ⟨q', hq', houtline⟩ := h.outline p production hp
  cases hq.symm.trans hq'
  have hparts := hsupplies.spells
  generalize hpop : c.stack.popChildren production.size = popped at hparts
  obtain ⟨parts, trailing, rest⟩ := popped
  dsimp only at hparts
  have hentries : ∀ e ∈ parts, e.node.Every P := fun e he =>
    hc.stack e ((Stack.mem_of_popChildren hpop).mpr (.inr (.inl he)))
  -- the new node is made of entries that have the property
  have hnode : ∀ fallback state, (buildNode t (c.surroundings token) production.lhs parts
      production.fields fallback state).1.Every P := fun fallback state =>
    ⟨houtline ▸ hm.rule q _ parts fallback state (Array.mem_of_getElem? hq) hparts hentries,
      every_children hm hentries⟩
  refine ⟨fun e he => ?_, fun token' h => by cases h; exact htoken, hc.walker⟩
  -- what stays on the stack was there, except for the new node
  obtain ⟨e', he', hsame⟩ | hbuilt := mem_stack_reduce hpop he
  · exact hsame ▸ hc.stack e' he'
  · exact hbuilt ▸ hnode _ _

/-- The error that takes a token up consists of the token, and of the error before it. -/
theorem every_absorb (hm : t.Makes g P) (hc : c.Every P) {token : Subtree} (htoken : token.Every P) :
    (c.absorb t token).1.Every P ∧ ∀ e ∈ (c.absorb t token).2.2, e ∈ c.stack := by
  have habsorbs := absorbs t c token
  generalize c.absorb t token = absorbed at habsorbs ⊢
  cases habsorbs with
  | bare => exact ⟨htoken, fun _ h => h⟩
  | alone => exact ⟨every_errorNode hm (List.forall_mem_singleton.mpr htoken), fun _ h => h⟩
  | joined hstack _ _ hjoined =>
    -- the joined error has in it what the one before had
    obtain ⟨htop, -⟩ := List.forall_mem_cons.mp (hstack ▸ hc.stack)
    refine ⟨⟨hm.join _ _ _ htop.self hjoined, ?_⟩, fun e he => hstack ▸ List.mem_cons_of_mem _ he⟩
    rw [Subtree.eq_of_joinErrors hjoined]
    exact htop.child
  | both hstack =>
    obtain ⟨htop, -⟩ := List.forall_mem_cons.mp (hstack ▸ hc.stack)
    refine ⟨every_errorNode hm ?_, fun e he => hstack ▸ List.mem_cons_of_mem _ he⟩
    exact List.forall_mem_cons.mpr ⟨htop, List.forall_mem_singleton.mpr htoken⟩

/-- What a token is taken up into is an error. -/
theorem symbol_absorb (c : Config) (t : Table) (token : Subtree) :
    (c.absorb t token).1.symbol = Symbol.error := by
  have habsorbs := absorbs t c token
  generalize c.absorb t token = absorbed at habsorbs ⊢
  cases habsorbs with
  | bare herror => exact herror
  | alone | both => rfl
  | joined _ _ herror hjoined =>
    rw [Subtree.eq_of_joinErrors hjoined]
    exact herror

/-- What is done about a token keeps the property. -/
theorem every_of_continues (h : t.Serves g items) (hm : t.Makes g P) (hlinked : c.stack.Linked t)
    (hc : c.Every P) {token : Subtree} (htoken : Reads P token)
    (hgoes : Continues t c token c') : c'.Every P := by
  cases hgoes with
  | @shift target ha =>
    -- the end of the text is never shifted, so the token is one that has the property
    have hf : token.symbol ≠ Symbol.finish := fun hf =>
      h.guided.shift_ne h.sound c.state target (hf ▸ ha)
    have hn := htoken.resolve_left hf
    exact every_push hc (hn.withExtra (hm.mark _ _ (h.checked.action_terminal _ _ _ ha) hn.self))
      rfl rfl rfl
  | reduce ha hp => exact every_reduce h hm hlinked hc htoken ha hp
  | extra _ hf hextra =>
    have hn := htoken.resolve_left hf
    exact every_push hc (hn.withExtra (hm.mark _ _ (h.terminal_of_isExtra hextra) hn.self)) rfl rfl rfl
  | @cut depth =>
    -- what lies above the cut goes into the error, what lies below stays
    have habove : ∀ e ∈ c.stack.above depth, e.node.Every P := fun e he =>
      hc.stack e (List.mem_of_mem_take (List.mem_reverse.mp he))
    have herror : (c.errorNode t token (c.stack.above depth) (c.stack.keep depth).state).1.Every P :=
      every_errorNode hm habove
    refine ⟨fun e he => ?_, fun token' h => by cases h; exact htoken, hc.walker⟩
    obtain rfl | he := List.mem_cons.mp he
    · exact herror.withExtra (hm.mark _ _ h.checked.error_terminal herror.self)
    · exact hc.stack e (List.mem_of_mem_drop he)
  | skip hf =>
    obtain ⟨habsorbed, hbelow⟩ := every_absorb hm hc (htoken.resolve_left hf)
    refine ⟨fun e he => ?_, (fun _ h => by cases h), hc.walker⟩
    obtain rfl | he := List.mem_cons.mp he
    · refine habsorbed.withExtra (hm.mark _ _ ?_ habsorbed.self)
      rw [symbol_absorb, h.checked.error_terminal]
    · exact hc.stack e (hbelow e he)

/-- A step keeps the property throughout. -/
theorem every_of_moves (h : t.Serves g items) (hm : t.Makes g P) (hlinked : c.stack.Linked t)
    (hc : c.Every P) (hmoves : Moves t text c c') : c'.Every P := by
  obtain ⟨token, ready, hready, hgoes⟩ | ⟨n, ready, hready, hl, hn, rfl⟩ := moves_cases hmoves
  · obtain ⟨hc', htoken⟩ := every_of_readies h.checked hm.leaf hc hready
    rw [← (readies_frame hready).1] at hlinked
    exact every_of_continues h hm hlinked hc' htoken hgoes
  · obtain ⟨hc', hread⟩ := every_of_readies h.checked hm.leaf hc hready
    refine every_push hc' (hread.resolve_left fun hf => ?_) rfl rfl rfl
    rw [hf, h.checked.finish_terminal] at hn
    cases hn

/-! ## The end of a parse -/

/-- How the root of a parse comes about: a stack with the start symbol and extras is accepted, or
everything becomes one error. -/
inductive Concludes (t : Table) (text : ByteArray) (P : Subtree → Prop) (c : Config) :
    Subtree → List Event → Prop
  | accepted {token : Subtree} (hregular : regularSymbols c.stack = [t.start])
      (hstack : ∀ e ∈ c.stack, e.node.Every P) :
      Concludes t text P c (c.acceptedRoot t text token) (.accept c.state :: c.events)
  | wrapped {error token : Subtree} {start finish : Nat} (hsymbol : error.symbol = Symbol.error)
      (herror : error.Every P) :
      Concludes t text P c (buildRoot text t.start [(error, none)] token)
        (.recover c.state .wrap start finish :: c.events)

/-- The last step of a parse concludes it. -/
theorem concludes_of_done (h : t.Serves g items) (hm : t.Makes g P) (hlinked : c.stack.Linked t)
    (hc : c.Every P) {root : Subtree} {events : List Event}
    (hdone : c.step t text = .done root events) :
    ∃ token ready, Readies t text c token ready ∧ ready.Concludes t text P root events := by
  obtain ⟨token, ready, hready, hstops⟩ := done_cases hdone
  obtain ⟨hc', -⟩ := every_of_readies h.checked hm.leaf hc hready
  -- reading a token leaves the stack as it was
  rw [← (readies_frame hready).1] at hlinked
  refine ⟨token, ready, hready, ?_⟩
  cases hstops with
  | accept ha =>
    have hregular := Stack.regular_of_accept h.guided hlinked ha
    rw [← h.speaks.start] at hregular
    exact .accepted hregular hc'.stack
  | wrap =>
    exact .wrapped rfl (every_errorNode hm fun e he => hc'.stack e (List.mem_reverse.mp he))

theorem Concludes.children {root : Subtree} {events : List Event}
    (h : c.Concludes t text P root events) : ∀ d ∈ root.children, d.1.Every P := by
  cases h with
  | accepted _ hstack =>
    intro d hd
    -- a child of the root is an entry, or a child of the entry for the start
    obtain ⟨e, he, hsame | ⟨field, hd⟩⟩ := mem_acceptedRoot hd
    · exact hsame ▸ hstack e he
    · exact (hstack e he).child (d.1, field) hd
  | wrapped _ herror =>
    intro d hd
    rw [List.mem_singleton.mp hd]
    exact herror

end Config

/-! ## Trees -/

namespace Language

variable {l : Language} {g : FlatGrammar} {items : StateId → Item → Prop} {P : Subtree → Prop}

/-- A parse that gives a result comes to a last step, with the property throughout the stack and
whatever else its steps keep. -/
theorem exists_done (h : l.table.Serves g items) (hm : l.table.Makes g P) {Q : Config → Prop}
    {text : String} {old : Option Tree} {p : Parsed}
    (hold : ∀ tree, old = some tree → ∀ c ∈ tree.root.children, c.1.Retains P)
    (hstart : Q (.start l.table (l.usable? old)))
    (hstep : ∀ c c', c.stack.Linked l.table → c.Every P → Q c →
      Config.Moves l.table text.toUTF8 c c' → Q c')
    (hp : l.parse text old = some p) : ∃ c events, c.stack.Linked l.table ∧ c.Every P ∧ Q c ∧
      c.step l.table text.toUTF8 = .done p.tree.root events ∧ p.events = events.reverse := by
  have hstart : (Config.start l.table (l.usable? old)).stack.Linked l.table ∧
      (Config.start l.table (l.usable? old)).Every P ∧
      Q (Config.start l.table (l.usable? old)) := by
    refine ⟨.nil, Config.every_start fun root hroot => ?_, hstart⟩
    obtain ⟨tree, htree, rfl⟩ := exists_of_usable? hroot
    exact hold tree htree
  -- the three properties together are kept by each step
  obtain ⟨c, root, es, ⟨hlinked, hevery, hq⟩, hdone, rfl⟩ := invariant_of_parse
    (P := fun c => c.stack.Linked l.table ∧ c.Every P ∧ Q c) hp hstart fun c c' hc hmoves =>
      ⟨Config.linked_of_moves h.checked h.speaks h.guided hc.1 hmoves,
        Config.every_of_moves h hm hc.1 hc.2.1 hmoves, hstep c c' hc.1 hc.2.1 hc.2.2 hmoves⟩
  exact ⟨c, es, hlinked, hevery, hq, hdone, rfl⟩

/-- Everything in the tree of a parse has the property. -/
theorem every_of_parse (h : l.table.Serves g items) (hm : l.table.Makes g P) {text : String}
    {old : Option Tree} {p : Parsed}
    (hold : ∀ tree, old = some tree → ∀ c ∈ tree.root.children, c.1.Retains P)
    (hp : l.parse text old = some p) : ∀ c ∈ p.tree.root.children, c.1.Every P := by
  obtain ⟨c, events, hlinked, hevery, -, hdone, -⟩ :=
    exists_done (Q := fun _ => True) h hm hold trivial (fun _ _ _ _ _ _ => trivial) hp
  obtain ⟨_, _, -, hconcludes⟩ := Config.concludes_of_done h hm hlinked hevery hdone
  exact hconcludes.children

/-- Where parses give a property throughout to everything in their trees, everything in a tree of the
language that is not marked as changed retains it. -/
theorem retains_of_parses (h : ∀ (text : String) (old : Option Tree) (p : Parsed),
    (∀ tree, old = some tree → l.Grown tree ∧ ∀ c ∈ tree.root.children, c.1.Retains P) →
      l.parse text old = some p → ∀ c ∈ p.tree.root.children, c.1.Every P)
    {tree : Tree} (hgrown : l.Grown tree) : ∀ c ∈ tree.root.children, c.1.Retains P := by
  -- the induction is on how the tree was grown: by a parse, or by an edit of a grown tree
  induction hgrown with
  | parsed hold hp ih =>
    exact fun c hc => (h _ _ _ (fun tree htree => ⟨hold tree htree, ih tree htree⟩) hp c hc).retains
  | @edited tree e _ ih =>
    intro c' hc'
    obtain ⟨c, hc, hsame | ⟨position, hedit⟩⟩ :=
      Subtree.exists_of_mem_forall₂ (Subtree.forall₂_children_edit e tree.root .zero) hc'
    · exact hsame ▸ ih c hc
    · exact hedit ▸ (ih c hc).edit position

theorem retains_of_grown (h : l.table.Serves g items) (hm : l.table.Makes g P) {tree : Tree}
    (hgrown : l.Grown tree) : ∀ c ∈ tree.root.children, c.1.Retains P :=
  retains_of_parses (fun _ _ _ hold => every_of_parse h hm fun tree htree => (hold tree htree).2) hgrown

/-- A tree that belongs to a text is one of the language. -/
theorem grown_of_treeFor {text : String} {tree : Tree} (h : l.TreeFor text tree) : l.Grown tree := by
  induction h with
  | parsed _ hp ih => exact .parsed ih hp
  | edited _ _ _ _ _ ih => exact .edited _ ih

end Language

end IncrementalParsing
