import IncrementalParsing.Proofs.Parse.Placement
import IncrementalParsing.Proofs.Parse.Replay

/-!
# How the nodes of a tree came about

A parse that repairs nothing and has no old tree is followed step by step.  What it has put on its
stack from an entry on that begins with a token is done again by every parser that comes into the state
below that entry.  So every node of the tree that begins with a token has a record: a parser in the
state of the node that finds the bytes that were looked at gets to where the node was completed, with
the extras after it, before the token that came then.

## Key results

- `Config.traced_push`, `Config.traced_reduce`: what is known of a parse that goes on by a step
- `Config.Traced.holds_of_done`: what is in the tree was on the stack
- `Language.record_of_parse`: a node of a tree that was parsed without errors has a record
- `Language.found_of_parse`: a token of such a tree was found where it is
-/

namespace IncrementalParsing

open Subtree (Stored WellBuilt)

/-- A part that is a token: it was found in the text, at the place where it is.  Only an extra is marked as
one. -/
def IsFound (t : Table) (text : String) (x : Length × Subtree) : Prop :=
  ∃ mode token mark, FoundAt t text.toUTF8 x.1 mode token ∧ x.2 = token.withExtra mark ∧
    (mark = true → token.symbol ≠ Symbol.finish ∧ t.isExtra token.symbol = true)

/-- Where a list is split that consists of two parts with something between. -/
theorem append_cons_cases {α : Type} {front back above below : List α} {a b : α}
    (h : front ++ a :: back = above ++ b :: below) :
    (∃ mid, back = mid ++ b :: below ∧ above = front ++ a :: mid) ∨
      (above = front ∧ b = a ∧ below = back) ∨ b ∈ front := by
  -- the induction is on what stands in front, which `above` begins with or ends in
  induction front generalizing above with
  | nil =>
    cases above with
    | nil =>
      cases h
      exact .inr (.inl ⟨rfl, rfl, rfl⟩)
    | cons d above =>
      cases h
      exact .inl ⟨above, rfl, rfl⟩
  | cons f front ih =>
    cases above with
    | nil =>
      cases h
      exact .inr (.inr (List.mem_cons_self ..))
    | cons d above =>
      obtain ⟨rfl, hrest⟩ := List.cons.inj h
      obtain ⟨mid, hback, habove⟩ | ⟨habove, hb, hbelow⟩ | hmem := ih hrest
      · exact .inl ⟨mid, hback, congrArg (f :: ·) habove⟩
      · exact .inr (.inl ⟨congrArg (f :: ·) habove, hb, hbelow⟩)
      · exact .inr (.inr (List.mem_cons_of_mem _ hmem))

/-- How a node came about at a place: a parse in its state has gone over it and the extras behind it, up
to the token that completed it. -/
structure Records (t : Table) (text : String) (Held : Length × Subtree → Prop) (x : Length × Subtree)
    (r : Stretch) : Prop where
  state : r.state = x.2.parseState
  mode : x.2.firstMode = some r.mode
  start : r.start = x.1
  stack : ∃ target extras, r.stack = extras ++ [⟨target, x.2, x.1⟩] ∧
    t.goto? x.2.parseState x.2.symbol = some target ∧ ∀ e ∈ extras,
      e.node.extra = true ∧ e.node.children = [] ∧ e.state = target ∧ Held e.part
  nextMode : x.2.trailingMode = some r.nextMode
  lies : r.Lies text
  seen : r.finish.bytes + (r.token t text).total.bytes + (r.token t text).lookahead ≤
    x.1.bytes + x.2.total.bytes + x.2.lookahead
  completes : r.Completes t text

/-- The extras behind a node may be held elsewhere. -/
theorem Records.mono {t : Table} {text : String} {Held Held' : Length × Subtree → Prop}
    {x : Length × Subtree} {r : Stretch} (h : Records t text Held x r)
    (hheld : ∀ y, y.2.extra = true → Held y → Held' y) : Records t text Held' x r := by
  obtain ⟨target, extras, hstack, hgoto, hextras⟩ := h.stack
  refine ⟨h.state, h.mode, h.start, ⟨target, extras, hstack, hgoto, fun e he => ?_⟩, h.nextMode,
    h.lies, h.seen, h.completes⟩
  obtain ⟨hextra, hleaf, hstate, hheld'⟩ := hextras e he
  exact ⟨hextra, hleaf, hstate, hheld _ hextra hheld'⟩

namespace Config

variable {t : Table} {text : String} {c c' : Config}

/-- A part is stored in what is on the stack. -/
def Holds (c : Config) (x : Length × Subtree) : Prop := ∃ e ∈ c.stack, Stored e.part x

/-- What is known of a parse without errors and without an old tree. -/
structure Traced (t : Table) (text : String) (c : Config) : Prop where
  walker : c.walker = []
  errorMode : c.errorMode = false
  lookaheadMode : c.lookaheadInErrorMode = false
  row : Consecutive .zero c.position c.stack.reverse
  inside : c.position.bytes ≤ text.toUTF8.size
  found : ∃ mode, FoundAt t text.toUTF8 c.position mode (c.readied t text.toUTF8).1
  built : ∀ e ∈ c.stack, WellBuilt t e.node
  tokens : ∀ x, c.Holds x → x.2.extra = true ∨ t.isTerminal x.2.symbol = true → IsFound t text x
  replays : ∀ above e below mode nextMode, c.stack = above ++ e :: below → e.node.opens = true →
    e.node.firstMode = some mode →
    FoundAt t text.toUTF8 c.position nextMode (c.readied t text.toUTF8).1 →
      Stretch.Replays t text
        ⟨Stack.state below, mode, e.position, above ++ [e], c.position, nextMode⟩
  records : ∀ x, c.Holds x → t.isTerminal x.2.symbol = false → x.2.opens = true →
    ∃ r, Records t text c.Holds x r

theorem traced_start (t : Table) (text : String) : (start t none).Traced t text where
  walker := rfl
  errorMode := rfl
  lookaheadMode := rfl
  row := rfl
  inside := Nat.zero_le _
  found := ⟨_, foundAt_lex t text.toUTF8 rfl rfl⟩
  built _ he := by cases he
  tokens := by
    rintro x ⟨e, he, -⟩
    cases he
  replays above e below _ _ h := by cases above <;> cases h
  records := by
    rintro x ⟨e, he, -⟩
    cases he

/-- From an entry on, those on the stack lie in the text up to the current place. -/
theorem Traced.lies (hc : c.Traced t text) {above below : Stack} {e : Entry}
    (h : c.stack = above ++ e :: below) (mode nextMode : LexMode) :
    Stretch.Lies text ⟨Stack.state below, mode, e.position, above ++ [e], c.position, nextMode⟩ := by
  have hrow := hc.row
  rw [h, List.reverse_append, List.reverse_cons, List.append_assoc, consecutive_append] at hrow
  obtain ⟨j, -, hposition, hrow⟩ := hrow
  refine ⟨?_, hc.inside⟩
  dsimp only
  rw [List.reverse_append]
  exact ⟨rfl, hrow⟩

theorem top_eq {above below : Stack} {e : Entry} (h : c.stack = above ++ e :: below)
    (mode nextMode : LexMode) :
    Stretch.top ⟨Stack.state below, mode, e.position, above ++ [e], c.position, nextMode⟩ =
      c.state := by
  rw [state, h]
  cases above <;> rfl

/-- A token that is found is a part of its own, and ends in the text. -/
theorem wellBuilt_of_foundAt (ht : t.Checked) {position : Length} {mode : LexMode} {token : Subtree}
    (h : FoundAt t text.toUTF8 position mode token) (hp : position.bytes ≤ text.toUTF8.size)
    (mark : Bool) : WellBuilt t (token.withExtra mark) ∧
      (position + token.total).bytes ≤ text.toUTF8.size := by
  obtain ⟨state, rfl⟩ := h
  refine ⟨Subtree.wellBuilt_leaf (Lexer.terminal_next ht) .., ?_⟩
  rw [Length.bytes_add]
  exact (Lexer.within_of_finds (Lexer.finds_next t _ position mode) (Nat.le_refl _) hp
    (Nat.le_succ_of_le hp) state _).finish

/-- A token is put on the stack. -/
theorem traced_push (ht : t.Checked) (hc : c.Traced t text) {token : Subtree}
    (htoken : (c.readied t text.toUTF8).1 = token) (target : StateId) (mark : Bool)
    (hmark : mark = true → token.symbol ≠ Symbol.finish ∧ t.isExtra token.symbol = true)
    (hagain : ∀ r : Stretch, r.top = c.state → FoundAt t text.toUTF8 r.finish r.nextMode token →
      r.Lies text → r.Replays t text → (r.push t target (token.withExtra mark)).Replays t text)
    (hstack : c'.stack = ⟨target, token.withExtra mark, c.position⟩ :: c.stack)
    (hposition : c'.position = c.position + token.total) (hlookahead : c'.lookahead = none)
    (hwalker : c'.walker = []) (herror : c'.errorMode = false)
    (hmode : c'.lookaheadInErrorMode = false) : c'.Traced t text := by
  obtain ⟨first, hfound⟩ := hc.found
  rw [htoken] at hfound
  obtain ⟨hbuilt, hinside⟩ := wellBuilt_of_foundAt ht hfound hc.inside mark
  have hnext := foundAt_lex t text.toUTF8 hlookahead herror
  have hstate : c'.state = target := by rw [state, hstack, Stack.state]
  rw [hstate] at hnext
  -- what the stack held before it still holds
  have hheld : ∀ y, c.Holds y → c'.Holds y := by
    rintro y ⟨e, he, hy⟩
    exact ⟨e, hstack ▸ List.mem_cons_of_mem _ he, hy⟩
  refine ⟨hwalker, herror, hmode, ?_, hposition ▸ hinside, ⟨_, hnext⟩, ?_, ?_, ?_, ?_⟩
  · rw [hstack, hposition, List.reverse_cons, consecutive_append]
    exact ⟨_, hc.row, rfl, rfl⟩
  · rw [hstack]
    exact List.forall_mem_cons.mpr ⟨hbuilt, hc.built⟩
  · rintro x ⟨e, he, hx⟩ hkind
    rw [hstack] at he
    obtain rfl | he := List.mem_cons.mp he
    · obtain rfl := hx.eq_of_leaf hfound.children
      exact ⟨first, token, mark, hfound, rfl, hmark⟩
    · exact hc.tokens x ⟨e, he, hx⟩ hkind
  · intro above e below mode nextMode hsplit hopens hmode' hnext'
    -- the token that comes next is looked for in the mode of the new state
    obtain rfl := hnext.mode_unique hnext'
    rw [hstack] at hsplit
    rw [hposition]
    cases above with
    -- the stretch begins with the token itself
    | nil =>
      cases hsplit
      obtain rfl : first = mode := Option.some.inj (hfound.firstMode.symm.trans hmode')
      exact hagain ⟨c.state, first, c.position, [], c.position, first⟩ rfl hfound ⟨rfl, hc.inside⟩
        (Stretch.replays_start rfl rfl)
    | cons a above =>
      obtain ⟨rfl, hrest⟩ := List.cons.inj hsplit
      exact hagain _ (top_eq hrest mode first) hfound (hc.lies hrest mode first)
        (hc.replays above e below mode first hrest hopens hmode' (htoken ▸ hfound))
  · rintro x ⟨e, he, hx⟩ hrule hopens
    rw [hstack] at he
    obtain rfl | he := List.mem_cons.mp he
    -- a token is no rule, so there is no new node to have a record
    · obtain rfl := hx.eq_of_leaf hfound.children
      rw [show (token.withExtra mark).symbol = token.symbol from rfl, hfound.symbol,
        Lexer.terminal_next ht] at hrule
      cases hrule
    · obtain ⟨r, hr⟩ := hc.records x ⟨e, he, hx⟩ hrule hopens
      exact ⟨r, hr.mono fun y _ => hheld y⟩

/-- A stack that is reduced: the parts of the production are on top of it, under some extras, and its
rule leads somewhere from what is below them. -/
structure Reduces (t : Table) (stack : Stack) (production : Production) (parts trailing : List Entry)
    (rest : Stack) (target : StateId) : Prop where
  pop : stack.popChildren production.size = (parts, trailing, rest)
  split : stack = trailing.reverse ++ (parts.reverse ++ rest)
  parted : Stack.Parted production.size parts trailing rest
  goto : t.goto? (Stack.state rest) production.lhs = some target
  lhs : production.lhs ≠ Symbol.error

variable {production : Production} {parts trailing : List Entry} {rest : Stack} {target : StateId}
  {token : Subtree} {ready : Config}

theorem exists_reduces {g : FlatGrammar} {items : StateId → Item → Prop} (ht : t.Checked)
    (hs : t.Speaks g) (hg : t.Guided g items) {stack : Stack} (hlinked : stack.Linked t) {a : Symbol}
    {p : ProductionId} (ha : t.action? stack.state a = some (.reduce p))
    (hp : t.production? p = some production) :
    ∃ parts trailing rest target, Reduces t stack production parts trailing rest target := by
  obtain ⟨⟨q, -, -, hsupplies⟩, -⟩ := Stack.supplies_of_reduce hs hg hlinked ha hp
  obtain ⟨target, htarget⟩ := hsupplies.leads
  -- extras are not counted, so the parts that count are as many as the production has
  have hcount : ((stack.popChildren production.size).1.filter fun e => !e.node.extra).length =
      production.size := by
    have hparts := congrArg List.length hsupplies.parts
    rw [regularSymbols, List.length_map] at hparts
    exact hparts.trans hsupplies.size
  -- an error is a token, and no production is one for a token
  have hlhs : production.lhs ≠ Symbol.error := by
    intro heq
    have hrule := ht.lhs_rule _ _ hp
    rw [heq, ht.error_terminal] at hrule
    cases hrule
  obtain ⟨hsplit, hparted⟩ := Stack.parted_of_popChildren rfl hcount
  exact ⟨_, _, _, target, rfl, hsplit, hparted, htarget, hlhs⟩

theorem Traced.row_reduces (hc : c.Traced t text)
    (hr : Reduces t c.stack production parts trailing rest target) :
    Consecutive .zero c.position (rest.reverse ++ (parts ++ trailing)) := by
  have hrow := hc.row
  rw [hr.split] at hrow
  simpa using hrow

/-- From an entry on that begins with a token, what is on the stack after a reduction is done again. -/
theorem Traced.completes_reduce (ht : t.Checked) (hc : c.Traced t text)
    (hready : c.readied t text.toUTF8 = (token, ready)) {p : ProductionId}
    (ha : t.action? c.state token.symbol = some (.reduce p)) (hp : t.production? p = some production)
    (hr : Reduces t c.stack production parts trailing rest target) {mid below lower : Stack} {e : Entry}
    (hrest : rest = mid ++ below) (hlower : parts.reverse ++ mid = lower ++ [e])
    (hopens : e.node.opens = true) {mode nextMode : LexMode} (hmode : e.node.firstMode = some mode)
    (hnext : FoundAt t text.toUTF8 c.position nextMode token) (around : Surroundings) :
    Stretch.Completes t text ⟨Stack.state below, mode, e.position,
      replacement t around production parts trailing c.position (Stack.state rest) ++ mid,
      c.position, nextMode⟩ := by
  have hsplit : c.stack = (trailing.reverse ++ lower) ++ e :: below := by
    rw [hr.split, hrest, ← List.append_assoc parts.reverse, hlower]
    simp
  -- the stretch down to `e` is there already, and is reduced at its top
  have hreplays := hc.replays _ e below mode nextMode hsplit hopens hmode (by rwa [hready])
  have htop := top_eq hsplit mode nextMode
  have hstack : (trailing.reverse ++ lower) ++ [e] = trailing.reverse ++ (parts.reverse ++ mid) := by
    rw [hlower, List.append_assoc]
  have hne : parts.reverse ++ mid ≠ [] := by
    rw [hlower]
    exact List.append_ne_nil_of_right_ne_nil _ (List.cons_ne_nil _ _)
  have hcompletes := hreplays.reduce ht (hc.lies hsplit mode nextMode) hnext (htop.symm ▸ ha) hp hstack
    ((hrest ▸ hr.parted).below hne) hne around
  rw [Stretch.reduced, ← Stack.state_append, ← hrest] at hcompletes
  exact hcompletes

/-- What a reduction puts on the stack: the node that is built, and the extras above it, which now have
the state that the node leads to. -/
theorem replacement_eq (hr : Reduces t c.stack production parts trailing rest target)
    {around : Surroundings} {built : Subtree × Length}
    (hbuilt : buildNode t around production.lhs parts production.fields
      (((trailing.head?).map (·.position)).getD c.position) (Stack.state rest) = built) :
    replacement t around production parts trailing c.position (Stack.state rest) =
      (trailing.map fun e => { e with state := target }).reverse ++ [⟨target, built.1, built.2⟩] := by
  rw [replacement, hr.goto, hbuilt]
  rfl

/-- What is on the stack after a reduction, the node that is built included, is done again if the node
begins with a token. -/
theorem Traced.completes_built (ht : t.Checked) (hc : c.Traced t text)
    (hready : c.readied t text.toUTF8 = (token, ready)) {p : ProductionId}
    (ha : t.action? c.state token.symbol = some (.reduce p)) (hp : t.production? p = some production)
    (hr : Reduces t c.stack production parts trailing rest target) {built : Subtree × Length}
    (hbuilt : buildNode t (ready.surroundings token) production.lhs parts production.fields
      (((trailing.head?).map (·.position)).getD c.position) (Stack.state rest) = built)
    (hopens : built.1.opens = true) {nextMode : LexMode}
    (hnext : FoundAt t text.toUTF8 c.position nextMode token) :
    ∃ mode, built.1.firstMode = some mode ∧ Stretch.Completes t text ⟨Stack.state rest, mode, built.2,
      replacement t (ready.surroundings token) production parts trailing c.position (Stack.state rest),
      c.position, nextMode⟩ := by
  subst hbuilt
  -- the node begins with its first part, from where there is a record
  obtain ⟨e, parts', rfl, he⟩ := opens_buildNode hr.lhs hopens
  have hmem : e ∈ c.stack := by
    rw [hr.split]
    simp
  obtain ⟨mode, hmode⟩ := (hc.built e hmem).begins he
  have hlower : (e :: parts').reverse ++ [] = parts'.reverse ++ [e] := by simp
  have hcompletes := hc.completes_reduce ht hready ha hp hr (List.nil_append rest).symm hlower he hmode
    hnext (ready.surroundings token)
  rw [List.append_nil] at hcompletes
  exact ⟨mode, firstMode_buildNode hmode, hcompletes⟩

theorem Traced.lookaheadMode_readied (hc : c.Traced t text) (text' : ByteArray) :
    (c.readied t text').2.lookaheadInErrorMode = false := by
  unfold readied
  split
  · exact hc.lookaheadMode
  · exact hc.errorMode

/-- The node that is built has a record if it begins with a token. -/
theorem Traced.record_reduce (ht : t.Checked) (hc : c.Traced t text)
    (hready : c.readied t text.toUTF8 = (token, ready)) {p : ProductionId}
    (ha : t.action? c.state token.symbol = some (.reduce p)) (hp : t.production? p = some production)
    (hr : Reduces t c.stack production parts trailing rest target) {built : Subtree × Length}
    (hbuilt : buildNode t (ready.surroundings token) production.lhs parts production.fields
      (((trailing.head?).map (·.position)).getD c.position) (Stack.state rest) = built)
    (hopens : built.1.opens = true) {Held : Length × Subtree → Prop}
    (hheld : ∀ e ∈ trailing, Held e.part) :
    ∃ r, Records t text Held (built.2, built.1) r := by
  obtain ⟨nextMode, hfound⟩ := hc.found
  rw [hready] at hfound
  obtain ⟨mode, hmode, hcompletes⟩ := hc.completes_built ht hready ha hp hr hbuilt hopens hfound
  have hlookahead := hc.lookaheadMode_readied text.toUTF8
  have hposition := (c.readied_frame t text.toUTF8).2.1
  rw [hready] at hlookahead hposition
  -- where the parts begin and end, and how far the node that is built of them sees
  obtain ⟨first, last, -, hparts, htrailing, hempty⟩ := consecutive_parts (hc.row_reduces hr)
  obtain ⟨hstart, -, hend⟩ := consecutive_buildNode (t := t) (ready.surroundings token) production.lhs
    production.fields _ (Stack.state rest) hparts hempty
  have hseen := (le_reach_buildNode (t := t) (ready.surroundings token) production.lhs
    production.fields _ (Stack.state rest) hparts hempty).1
  rw [hbuilt] at hstart hend hseen
  refine ⟨_, ?_, hmode, rfl, ⟨target, _, replacement_eq hr hbuilt, ?_, ?_⟩, ?_, ?_, ?_,
    hcompletes⟩
  · exact hbuilt ▸ rfl
  · rw [← hbuilt]
    exact hr.goto
  -- what stands behind the node are extra tokens
  · intro e he
    obtain ⟨e', he', rfl⟩ := List.mem_map.mp (List.mem_reverse.mp he)
    have hextra := hr.parted.trailing e' he'
    refine ⟨hextra, (hc.built e' ?_).token hextra, rfl, hheld e' he'⟩
    rw [hr.split]
    simp [he']
  · rw [← hbuilt]
    change (if ready.lookaheadInErrorMode then none else token.firstMode) = some nextMode
    rw [if_neg (Bool.eq_false_iff.mp hlookahead), hfound.firstMode]
  -- the stretch is the replacement alone, right above what stays
  · have hrow : Consecutive first c.position (([] : Stack).reverse ++ (parts ++ trailing)) := by
      rw [List.reverse_nil, List.nil_append]
      exact consecutive_append.mpr ⟨last, hparts, htrailing⟩
    have hlies := consecutive_replacement t (ready.surroundings token) production hrow (Stack.state rest)
    rw [List.append_nil, ← hstart] at hlies
    exact ⟨hlies, hc.inside⟩
  · change c.position.bytes + (Lexer.next t text.toUTF8 c.position nextMode).total.bytes +
      (Lexer.next t text.toUTF8 c.position nextMode).lookahead ≤ _
    rw [← hfound.lookahead, ← hfound.total, ← Length.bytes_add, ← Length.bytes_add, hstart, hend,
      ← hposition]
    exact hseen

/-- What a reduction holds: the node that is built, and what was there before, of which all extras are
left. -/
theorem Traced.holds_reduce (hc : c.Traced t text)
    (hr : Reduces t c.stack production parts trailing rest target) {around : Surroundings}
    {built : Subtree × Length}
    (hbuilt : buildNode t around production.lhs parts production.fields
      (((trailing.head?).map (·.position)).getD c.position) (Stack.state rest) = built)
    (hstack : c'.stack = (trailing.map fun e => { e with state := target }).reverse ++
      ⟨target, built.1, built.2⟩ :: rest) :
    (∀ x, c'.Holds x → x = (built.2, built.1) ∨ c.Holds x) ∧
      ∀ x, x.2.extra = true → c.Holds x → c'.Holds x := by
  obtain ⟨first, last, -, hparts, -, hempty⟩ := consecutive_parts (hc.row_reduces hr)
  have hmem : ∀ e, e ∈ c.stack ↔ e ∈ trailing ∨ e ∈ parts ∨ e ∈ rest := fun e => by
    rw [hr.split]
    simp
  -- what the node consists of is what its parts leave
  have hplaced : built.1.placed built.2 =
      parts.flatMap fun e => e.left (Build.isSpliced t production.lhs e.node) :=
    hbuilt ▸ placed_buildNode hr.lhs hparts hempty fun e he => hc.built e ((hmem e).mpr (.inr (.inl he)))
  constructor
  · rintro x ⟨e, he, hx⟩
    rw [hstack, List.mem_append, List.mem_cons] at he
    obtain he | rfl | he := he
    · obtain ⟨e', he', rfl⟩ := List.mem_map.mp (List.mem_reverse.mp he)
      exact .inr ⟨e', (hmem e').mpr (.inl he'), hx⟩
    · obtain rfl | ⟨q, hq, hx⟩ := hx.cases_head
      · exact .inl rfl
      · rw [hplaced] at hq
        obtain ⟨e, he, hq⟩ := List.mem_flatMap.mp hq
        exact .inr ⟨e, (hmem e).mpr (.inr (.inl he)), Entry.stored_of_left hq hx⟩
    · exact .inr ⟨e, (hmem e).mpr (.inr (.inr he)), hx⟩
  · rintro x hextra ⟨e, he, hx⟩
    rw [Holds, hstack]
    -- an extra stays above the node, is one of its parts, or lies below
    obtain he | he | he := (hmem e).mp he
    · exact ⟨{ e with state := target }, List.mem_append_left _
        (List.mem_reverse.mpr (List.mem_map.mpr ⟨e, he, rfl⟩)), hx⟩
    · obtain ⟨q, hq, hx⟩ := Entry.exists_left_of_stored
        (fun hspliced => (Build.extra_of_isSpliced hr.lhs hspliced).2) hx hextra
      refine ⟨⟨target, built.1, built.2⟩, List.mem_append_right _ (List.mem_cons_self ..), .head ?_ hx⟩
      exact hplaced ▸ List.mem_flatMap.mpr ⟨e, he, hq⟩
    · exact ⟨e, List.mem_append_right _ (List.mem_cons_of_mem _ he), hx⟩

/-- From each entry on that begins with a token, what is on the stack after a reduction is done again. -/
theorem Traced.replays_reduce (ht : t.Checked) (hc : c.Traced t text)
    (hready : c.readied t text.toUTF8 = (token, ready)) {p : ProductionId}
    (ha : t.action? c.state token.symbol = some (.reduce p)) (hp : t.production? p = some production)
    (hr : Reduces t c.stack production parts trailing rest target) {built : Subtree × Length}
    (hbuilt : buildNode t (ready.surroundings token) production.lhs parts production.fields
      (((trailing.head?).map (·.position)).getD c.position) (Stack.state rest) = built)
    {above below : Stack} {e : Entry} (hsplit : (trailing.map fun e => { e with state := target }).reverse
      ++ ⟨target, built.1, built.2⟩ :: rest = above ++ e :: below) (hopens : e.node.opens = true)
    {mode nextMode : LexMode} (hmode : e.node.firstMode = some mode)
    (hnext : FoundAt t text.toUTF8 c.position nextMode token) :
    Stretch.Replays t text
      ⟨Stack.state below, mode, e.position, above ++ [e], c.position, nextMode⟩ := by
  have hreplaced := replacement_eq hr hbuilt
  -- the entry is below the node, is the node, or is above it
  obtain ⟨mid, hrest, rfl⟩ | ⟨rfl, rfl, rfl⟩ | he := append_cons_cases hsplit
  · have hbelow : rest = (mid ++ [e]) ++ below := by simp [hrest]
    have hlower : parts.reverse ++ (mid ++ [e]) = (parts.reverse ++ mid) ++ [e] := by simp
    have hcompletes := hc.completes_reduce ht hready ha hp hr hbelow hlower hopens hmode hnext
      (ready.surroundings token)
    rw [hreplaced] at hcompletes
    simpa using hcompletes.replays
  -- the node itself begins a stretch, in the mode of its first token
  · obtain ⟨mode', hmode', hcompletes⟩ := hc.completes_built ht hready ha hp hr hbuilt hopens hnext
    obtain rfl : mode' = mode := Option.some.inj (hmode'.symm.trans hmode)
    exact (hreplaced ▸ hcompletes).replays
  · -- the extras above the node do not begin with a token that counts
    obtain ⟨e', he', rfl⟩ := List.mem_map.mp (List.mem_reverse.mp he)
    exact absurd ((hr.parted.trailing e' he').symm.trans (Subtree.opens_iff.mp hopens).1) (by decide)

/-- The parts of a production are reduced. -/
theorem traced_reduce (ht : t.Checked) (hc : c.Traced t text)
    (hready : c.readied t text.toUTF8 = (token, ready)) {p : ProductionId}
    (ha : t.action? c.state token.symbol = some (.reduce p)) (hp : t.production? p = some production)
    (hr : Reduces t c.stack production parts trailing rest target) :
    (ready.reduce t token production).Traced t text := by
  have hframe := c.readied_frame t text.toUTF8
  have hlookahead := hc.lookaheadMode_readied text.toUTF8
  obtain ⟨first, hfound⟩ := hc.found
  rw [hready] at hframe hlookahead hfound
  obtain ⟨hstack, hposition, hwalker, herror, -⟩ := hframe
  dsimp only at hstack hposition hwalker herror hfound
  have hrow := hc.row_reduces hr
  obtain ⟨start, last, -, hparts, -, hempty⟩ := consecutive_parts hrow
  generalize hbuilt : buildNode t (ready.surroundings token) production.lhs parts production.fields
    (((trailing.head?).map (·.position)).getD c.position) (Stack.state rest) = built
  -- the stack is what it was below the parts, and the replacement of the parts above
  have hreplaced := stack_reduce t ready token (hstack ▸ hr.pop)
  rw [hposition] at hreplaced
  have hentries := hreplaced
  rw [replacement_eq hr hbuilt, List.append_assoc, List.singleton_append] at hentries
  obtain ⟨hbefore, hafter⟩ := hc.holds_reduce hr hbuilt hentries
  have hmem : ∀ e, e ∈ trailing ∨ e ∈ parts ∨ e ∈ rest → e ∈ c.stack := fun e he => by
    rw [hr.split]
    simpa using he
  have hposition' : (ready.reduce t token production).position = c.position := hposition
  have hready' : (ready.reduce t token production).readied t text.toUTF8 =
      (token, ready.reduce t token production) := readied_of_lookahead rfl
  refine ⟨hwalker.trans hc.walker, herror.trans hc.errorMode, hlookahead, ?_, hposition' ▸ hc.inside,
    ?_, fun e he => ?_, fun x hx hkind => ?_,
    fun above e below mode nextMode hsplit hopens hmode hnext => ?_, fun x hx hrule hopens => ?_⟩
  · rw [hreplaced, hposition']
    exact consecutive_replacement t _ production hrow _
  · rw [hready', hposition']
    exact ⟨first, hfound⟩
  · rw [hentries, List.mem_append, List.mem_cons] at he
    obtain he | rfl | he := he
    · obtain ⟨e', he', rfl⟩ := List.mem_map.mp (List.mem_reverse.mp he)
      exact hc.built e' (hmem e' (.inl he'))
    · exact hbuilt ▸ wellBuilt_buildNode hr.lhs hparts hempty
        fun e he => hc.built e (hmem e (.inr (.inl he)))
    · exact hc.built e (hmem e (.inr (.inr he)))
  · obtain rfl | hx := hbefore x hx
    -- the node that is built is a rule, and no extra
    · have hextra : built.1.extra = false := hbuilt ▸ rfl
      have hrule : t.isTerminal built.1.symbol = false := hbuilt ▸ ht.lhs_rule _ _ hp
      simp [hextra, hrule] at hkind
    · exact hc.tokens x hx hkind
  · rw [hready', hposition'] at hnext
    rw [hposition']
    exact hc.replays_reduce ht hready ha hp hr hbuilt (hentries ▸ hsplit) hopens hmode hnext
  -- the node gets a record, and the others keep theirs
  · obtain rfl | hx := hbefore x hx
    · exact hc.record_reduce ht hready ha hp hr hbuilt hopens fun e he =>
        hafter _ (hr.parted.trailing e he) ⟨e, hmem e (.inl he), .refl⟩
    · obtain ⟨r, hrecord⟩ := hc.records x hx hrule hopens
      exact ⟨r, hrecord.mono hafter⟩

variable {g : FlatGrammar} {items : StateId → Item → Prop}

/-- A step that repairs nothing. -/
theorem traced_of_moves (ht : t.Checked) (hs : t.Speaks g) (hg : t.Guided g items)
    (hlinked : c.stack.Linked t) (hc : c.Traced t text) (hmoves : Moves t text.toUTF8 c c')
    (hu : Untroubled c'.events) : c'.Traced t text := by
  have hstep : c.step t text.toUTF8 = .next c' := hmoves
  rw [step_readied ht hc.walker] at hstep
  have hframe := c.readied_frame t text.toUTF8
  have hlookahead := hc.lookaheadMode_readied text.toUTF8
  generalize hready : c.readied t text.toUTF8 = found at hstep hframe hlookahead
  obtain ⟨token, ready⟩ := found
  obtain ⟨hstack, hposition, hwalker, herror, -⟩ := hframe
  dsimp only at hstep hstack hposition hwalker herror hlookahead
  have hstate : ready.state = c.state := by rw [state, state, hstack]
  -- without a walker the next token is always the one that the text has there
  have htoken : (c.readied t text.toUTF8).1 = token := by rw [hready]
  have hact : Acts t text.toUTF8 ready token _ := acts_act ready token
  rw [hstep] at hact
  cases hact.continues with
  | @shift target ha =>
    -- reading off an action does not change the state
    rw [hstate] at ha
    refine traced_push ht hc htoken target false (fun h => by cases h)
      (fun r htop hfound hlies hreplays => ?_) ?_ ?_ rfl (hwalker.trans hc.walker) rfl hlookahead
    · exact hreplays.shift ht hlies hfound (htop.symm ▸ ha)
    · rw [← hstack, ← hposition]
      rfl
    · rw [← hposition]
      rfl
  | reduce ha hp =>
    rw [hstate] at ha
    obtain ⟨parts, trailing, rest, target, hreduces⟩ := exists_reduces ht hs hg hlinked ha hp
    exact traced_reduce ht hc hready ha hp hreduces
  | extra ha hf hx =>
    rw [hstate] at ha
    refine traced_push ht hc htoken c.state true (fun _ => ⟨hf, hx⟩)
      (fun r htop hfound hlies hreplays => ?_) ?_ ?_ rfl (hwalker.trans hc.walker)
      (herror.trans hc.errorMode) hlookahead
    · exact htop ▸ hreplays.extra ht hlies hfound (htop.symm ▸ ha) hf hx
    · rw [← hstate, ← hstack, ← hposition]
      rfl
    · rw [← hposition]
      rfl
  -- a repair would be noted
  | cut | skip => exact absurd (List.mem_cons_self ..) (hu _ _ _ _)

/-- Wherever a parse gets without a repair. -/
theorem traced_of_reaches (ht : t.Checked) (hs : t.Speaks g) (hg : t.Guided g items)
    (h : Reaches t text.toUTF8 (start t none) c) (hu : Untroubled c.events) :
    c.Traced t text ∧ c.stack.Linked t := by
  induction h with
  | refl => exact ⟨traced_start t text, .nil⟩
  | @tail b c _ hm ih =>
    have hsuffix := suffix_step t text.toUTF8 b
    rw [show b.step t text.toUTF8 = .next c from hm] at hsuffix
    obtain ⟨htraced, hlinked⟩ := ih fun state recovery start finish hmem =>
      hu state recovery start finish (hsuffix.mem hmem)
    exact ⟨traced_of_moves ht hs hg hlinked htraced hm hu, linked_of_moves ht hs hg hlinked hm⟩

/-- What is in the tree that a parse ends with was on its stack, and the extras there are in the tree. -/
theorem Traced.holds_of_done (ht : t.Checked) (hc : c.Traced t text) {root : Subtree}
    {events : List Event} (hdone : c.step t text.toUTF8 = .done root events) (hu : Untroubled events)
    {tree : Tree} (htree : tree.root = root) :
    (∀ x, tree.Holds x → c.Holds x) ∧ ∀ x, x.2.extra = true → c.Holds x → tree.Holds x := by
  rw [step_readied ht hc.walker] at hdone
  have hframe := c.readied_frame t text.toUTF8
  generalize hready : c.readied t text.toUTF8 = found at hdone hframe
  obtain ⟨token, ready⟩ := found
  obtain ⟨hstack, hposition, -⟩ := hframe
  dsimp only at hdone hstack hposition
  have hact : Acts t text.toUTF8 ready token _ := acts_act ready token
  rw [hdone] at hact
  cases hact.stops with
  | accept =>
    have hrow := hc.row
    have hbuilt := hc.built
    rw [← hstack] at hrow hbuilt
    -- what the root consists of is what is left of the stack
    have hplaced : tree.root.placed .zero =
        c.stack.reverse.flatMap fun e => e.left (!e.node.extra && e.node.symbol == t.start) :=
      hstack ▸ htree ▸ placed_acceptedRoot ht.start_rule hrow hbuilt
    constructor
    · intro x hx
      obtain ⟨q, hq, hstored⟩ := Tree.holds_iff.mp hx
      rw [hplaced] at hq
      obtain ⟨e, he, hq⟩ := List.mem_flatMap.mp hq
      exact ⟨e, List.mem_reverse.mp he, Entry.stored_of_left hq hstored⟩
    -- an extra is never the start symbol that is taken apart
    · rintro x hextra ⟨e, he, hx⟩
      have hkept : (!e.node.extra && e.node.symbol == t.start) = true → e.node.extra = false := by
        rw [Bool.and_eq_true, Bool.not_eq_true']
        exact And.left
      obtain ⟨q, hq, hx⟩ := Entry.exists_left_of_stored hkept hx hextra
      exact Tree.holds_iff.mpr
        ⟨q, hplaced ▸ List.mem_flatMap.mpr ⟨e, List.mem_reverse.mpr he, hq⟩, hx⟩
  | wrap => exact absurd (List.mem_cons_self ..) (hu _ _ _ _)

end Config

section Parses

variable {g : FlatGrammar} {items : StateId → Item → Prop} {l : Language} {text : String} {p : Parsed}
  {x : Length × Subtree}

/-- The end of a parse without errors, on whose stack everything was that is in the tree. -/
theorem Language.traced_of_parse (ht : l.table.Checked) (hs : l.table.Speaks g)
    (hg : l.table.Guided g items) (h : l.parse text none = some p) (hr : p.stats.recoveries = 0) :
    ∃ c, Config.Traced l.table text c ∧ (∀ x, p.tree.Holds x → c.Holds x) ∧
      ∀ x, x.2.extra = true → c.Holds x → p.tree.Holds x := by
  simp only [parse, Option.map_eq_some_iff] at h
  obtain ⟨⟨root, events⟩, hrun, rfl⟩ := h
  obtain ⟨c, es, hreach, hdone, rfl⟩ := Config.run_eq_some_iff.mp hrun
  have hu : Untroubled es := fun state recovery start finish hmem =>
    untroubled_of_recoveries hr state recovery start finish (List.mem_reverse.mpr hmem)
  -- the events of the last step are those of the run, and there is no recovery among them
  have hsuffix := Config.suffix_step l.table text.toUTF8 c
  rw [hdone] at hsuffix
  obtain ⟨htraced, -⟩ := Config.traced_of_reaches ht hs hg hreach
    fun state recovery start finish hmem => hu state recovery start finish (hsuffix.mem hmem)
  exact ⟨c, htraced, htraced.holds_of_done ht hdone hu rfl⟩

/-- A node that begins with a token has a record, if the text was parsed without errors. -/
theorem Language.record_of_parse (ht : l.table.Checked) (hs : l.table.Speaks g)
    (hg : l.table.Guided g items) (h : l.parse text none = some p) (hr : p.stats.recoveries = 0)
    (hx : p.tree.Holds x) (hrule : l.table.isTerminal x.2.symbol = false) (hopens : x.2.opens = true) :
    ∃ r, Records l.table text p.tree.Holds x r := by
  obtain ⟨c, hc, hheld, hextras⟩ := traced_of_parse ht hs hg h hr
  obtain ⟨r, hrecord⟩ := hc.records x (hheld x hx) hrule hopens
  exact ⟨r, hrecord.mono hextras⟩

/-- A token of a tree was found where it is, if the text was parsed without errors. -/
theorem Language.found_of_parse (ht : l.table.Checked) (hs : l.table.Speaks g)
    (hg : l.table.Guided g items) (h : l.parse text none = some p) (hr : p.stats.recoveries = 0)
    (hx : p.tree.Holds x) (hkind : x.2.extra = true ∨ l.table.isTerminal x.2.symbol = true) :
    IsFound l.table text x := by
  obtain ⟨c, hc, hheld, -⟩ := traced_of_parse ht hs hg h hr
  exact hc.tokens x (hheld x hx) hkind

end Parses

end IncrementalParsing
