import IncrementalParsing.Proofs.Parse.EditedTrees
import IncrementalParsing.Proofs.Parse.Records

/-!
# Taking nodes over

Where a parser takes a node of an old tree over, it does at once what it would do by itself in many
steps: without the old tree it goes over the bytes of the node and the extras behind it by plain steps,
builds a node of the same shape, and stands before the token after them.  The old tree has been parsed
without errors, and edited since.

This is so for nodes that begin with a token, where nothing was looked at for the extras behind a node
that was not looked at for the node.  A node that begins with an empty rule is completed below the
extras in front of it: `Sunken` is a grammar where such a node is taken over that the parser does not
build.

## Key results

- `Config.lists_of_reaches`: the parts that are offered are nodes of the old tree
- `Language.takeOver_redone`: a parser without the old tree builds what is taken over
- `Sunken.takeOver_differs`: a node that is taken over and that a parser without the old tree does not
  build
-/

namespace IncrementalParsing

/-! ## What is offered -/

namespace Subtree

/-- What is known of every part that can be used again. -/
theorem unchanged_of_isReusable {t : Table} {n : Subtree} {state : StateId}
    (h : n.isReusable t state = true) :
    n.changed = false ∧ n.hasError = false ∧ n.firstMode = some (t.lexMode state) := by
  unfold isReusable at h
  split at h
  · cases h
  · rename_i hmarks
    simp only [Bool.or_eq_true, not_or, Bool.not_eq_true, bne_eq_false_iff_eq] at hmarks
    exact ⟨hmarks.1.1, hmarks.1.2, hmarks.2⟩

/-- What is known of a node that can be used again and is no token. -/
theorem known_of_isReusable {t : Table} {n : Subtree} {state : StateId}
    (h : n.isReusable t state = true) (hn : t.isTerminal n.symbol = false) :
    n.parseState = state ∧
      ∃ target, t.goto? state n.symbol = some target ∧ n.trailingMode = some (t.lexMode target) := by
  unfold isReusable at h
  split at h
  · cases h
  -- the checks are gone through in their order
  · rw [if_neg (by simp [hn])] at h
    split at h
    · cases h
    · rename_i hplace
      simp only [Bool.or_eq_true, not_or, Bool.not_eq_true, bne_eq_false_iff_eq] at hplace
      split at h
      · rename_i target trailing hgoto htrailing
        refine ⟨hplace.2, target, hgoto, ?_⟩
        rw [htrailing, beq_iff_eq.mp h]
      · cases h

end Subtree

/-- Only the root has no way to it. -/
theorem Node.isRoot_eq (n : Node) : n.isRoot = n.path.isEmpty := by
  unfold isRoot path
  split <;> simp [*]

namespace Config

variable {t : Table} {text : ByteArray} {c c' : Config} {tree : Tree}

/-- The parts that are left of an old tree are nodes of it. -/
def Lists (tree : Tree) (c : Config) : Prop := ∀ p ∈ c.walker, tree.Holds p

/-- At the beginning the walker lists the children of the root. -/
theorem lists_start (t : Table) (tree : Tree) : (start t (some tree.root)).Lists tree :=
  fun _ => Tree.holds_of_mem_placed .root

/-- What is offered is a node of the old tree. -/
theorem Lists.next (h : c.Lists tree) {state : StateId} {place : Nat} {found : Option Subtree}
    {walker : Walker} (hnext : Walker.next t state place c.walker = (found, walker)) :
    (∀ p ∈ walker, tree.Holds p) ∧ ∀ n, found = some n →
      ∃ start, tree.Holds (start, n) ∧ start.bytes = place ∧ n.isReusable t state = true :=
  Walker.next_listed (fun _ => Tree.Holds.placed) hnext h

/-- Readying a token leaves nothing but nodes of the old tree. -/
theorem lists_of_readies {token : Subtree} (h : c.Lists tree) (hready : Readies t text c token c') :
    c'.Lists tree := by
  cases hready with
  | waiting => exact h
  | lexed _ hw =>
    obtain ⟨-, rfl⟩ | ⟨-, hnext⟩ := hw
    · exact h
    · exact (h.next hnext).1
  | reused _ _ hnext => exact (h.next hnext).1

/-- Wherever a parse gets, it has nothing but nodes of the old tree. -/
theorem lists_of_reaches (h : Reaches t text c c') (hc : c.Lists tree) : c'.Lists tree := by
  refine invariant_of_reaches h hc fun c c' hc hmoves => ?_
  obtain ⟨token, ready, hready, hgoes⟩ | ⟨n, ready, hready, -, -, rfl⟩ := moves_cases hmoves
  · have hready := lists_of_readies hc hready
    cases hgoes <;> exact hready
  · have hready := lists_of_readies hc hready
    exact hready

end Config

/-! ## Extras behind a node -/

namespace Subtree

mutual

/-- Whether a part is an extra or has one in it. -/
def hasExtra : Subtree → Bool
  | ⟨_, _, _, children, _, _, _, _, extra, _, _⟩ => extra || haveExtra children

/-- Whether one of some parts is an extra or has one in it. -/
def haveExtra : List (Subtree × Option FieldId) → Bool
  | [] => false
  | (n, _) :: rest => n.hasExtra || haveExtra rest

end

variable {n : Subtree}

/-- A part has an extra if it is one or a child has one. -/
theorem hasExtra_eq : n.hasExtra = (n.extra || haveExtra n.children) := by
  cases n
  rw [hasExtra]

/-- A part without extras is none, -/
theorem extra_of_hasExtra (h : n.hasExtra = false) : n.extra = false := by
  rw [hasExtra_eq, Bool.or_eq_false_iff] at h
  exact h.1

/-- and no child of it has one. -/
theorem hasExtra_child (h : n.hasExtra = false) : ∀ c ∈ n.children, c.1.hasExtra = false := by
  rw [hasExtra_eq, Bool.or_eq_false_iff] at h
  have hall := h.2
  generalize n.children = children at hall
  induction children with
  | nil => exact fun _ hc => by cases hc
  | cons c rest ih =>
    rw [haveExtra, Bool.or_eq_false_iff] at hall
    exact List.forall_mem_cons.mpr ⟨hall.1, ih hall.2⟩

end Subtree

namespace Tree

variable {tree : Tree} {n : Node}

/-- From the end of a node to a place there are only extras. -/
inductive ExtrasTo (tree : Tree) (n : Node) : Length → Prop
  | here : ExtrasTo tree n n.finish
  | extra {e : Node} (h : ExtrasTo tree n e.place.position) (he : tree.Has e)
      (hextra : e.isExtra = true) : ExtrasTo tree n e.finish

/-- For the extras behind a node nothing was looked at beyond what was looked at for the node, wherever
in the tree it is. -/
def SeesExtras (tree : Tree) (n : Subtree) : Prop :=
  ∀ m e, tree.Has m → m.subtree = n → tree.Has e → e.isExtra = true →
    tree.ExtrasTo m e.place.position → e.place.reach ≤ m.place.reach

/-- A tree without extras. -/
theorem seesExtras_of_none (h : tree.root.hasExtra = false) (s : Subtree) : tree.SeesExtras s := by
  intro _ e _ _ he hextra _
  have hnone : e.subtree.hasExtra = false :=
    (forall_has (P := fun n => n.hasExtra = false) (fun _ => Subtree.hasExtra_child)
      (Subtree.hasExtra_child h) he).elim (· ▸ h) id
  rw [Node.isExtra, Subtree.extra_of_hasExtra hnone] at hextra
  cases hextra

/-- Entries that are extras and follow a node are extras of the tree behind it. -/
theorem behind_of_row {i k : Length} {entries : List Entry} (hrow : Consecutive i k entries)
    (hi : tree.ExtrasTo n i) (hextras : ∀ e ∈ entries, e.node.extra = true ∧ tree.Holds e.part) :
    ∀ e ∈ entries, ∃ m, tree.Has m ∧ m.isExtra = true ∧ tree.ExtrasTo n m.place.position ∧
      m.place.position = e.position ∧ m.subtree = e.node := by
  induction entries generalizing i with
  | nil => exact fun _ he => by cases he
  | cons e rest ih =>
    obtain ⟨⟨hextra, m, hm, -, hposition, hsubtree⟩, hrest⟩ := List.forall_mem_cons.mp hextras
    have hstart : tree.ExtrasTo n m.place.position := by
      rw [hposition, Entry.part, hrow.1]
      exact hi
    have hmextra : m.isExtra = true := by rwa [Node.isExtra, hsubtree]
    -- the next extra begins where this one ends, in the tree as on the stack
    have hfinish : m.finish = e.finish := by
      rw [Node.finish, Place.finish, hposition, Entry.finish]
      exact congrArg (e.position + Subtree.total ·) hsubtree
    exact List.forall_mem_cons.mpr ⟨⟨m, hm, hmextra, hstart, hposition, hsubtree⟩,
      ih hrow.2 (hfinish ▸ .extra hstart hm hmextra) hrest⟩

/-- What was looked at for entries that are extras behind a node. -/
theorem SeesExtras.reach_le (h : tree.SeesExtras n.subtree) (hn : tree.Has n)
    {i k : Length} {entries : List Entry}
    (hrow : Consecutive i k entries) (hi : tree.ExtrasTo n i)
    (hextras : ∀ e ∈ entries, e.node.extra = true ∧ tree.Holds e.part) :
    ∀ e ∈ entries, e.finish.bytes + e.node.lookahead ≤ n.place.reach := by
  intro e he
  obtain ⟨m, hm, hmextra, hbehind, hposition, hsubtree⟩ := behind_of_row hrow hi hextras e he
  have hreach := h n m hn rfl hm hmextra hbehind
  -- an extra ends in the tree where it ends on the stack
  have hfinish : m.place.finish = e.finish := by
    rw [Place.finish, hposition, Entry.finish]
    exact congrArg (e.position + Subtree.total ·) hsubtree
  rwa [Place.reach, hfinish,
    show m.place.subtree.lookahead = e.node.lookahead from congrArg _ hsubtree] at hreach

end Tree

/-! ## Doing without the old tree -/

/-- Without the old tree a parse gets over a node and the extras behind it by plain steps.  It has a node
of the same shape on the stack, in the state that the node leads to, and the extras above it in the same
state, and the next token is the one that is found there in the lex mode of that state. -/
structure Config.Redoes (t : Table) (text : ByteArray) (c : Config) (n : Subtree) (target : StateId)
    (node : Subtree) (extras : List Entry) (d : Config) : Prop where
  goto : t.goto? c.state n.symbol = some target
  reaches : Config.Reaches t text c.alone d
  plain : PlainSteps c.events d.events
  stack : d.stack = extras ++ ⟨target, node, c.position⟩ :: c.stack
  shape : n.sameShape node = true
  above : ∀ e ∈ extras, e.node.extra = true ∧ e.node.children = [] ∧ e.state = target
  row : Consecutive (c.position + n.total) d.position extras.reverse
  lookahead : ∃ token, d.lookahead = some token ∧ FoundAt t text d.position (t.lexMode target) token

/-- All that was looked at for a node and the extras behind it was looked at for the node. -/
theorem Records.seenBy {t : Table} {text : String} {tree : Tree} {n : Node} {r : Stretch}
    (h : Records t text tree.Holds (n.place.position, n.subtree) r)
    (hextras : tree.SeesExtras n.subtree) (hn : tree.Has n) : r.SeenBy t text n.place.reach := by
  obtain ⟨target, extras, hstack, -, habove⟩ := h.stack
  have hrow := h.lies.stack
  rw [hstack, List.reverse_append] at hrow
  obtain ⟨-, hrow⟩ := hrow
  -- above the node stand only the extras that follow it in the tree
  have hbehind := hextras.reach_le hn hrow .here fun e he =>
    have habove := habove e (List.mem_reverse.mp he)
    ⟨habove.1, habove.2.2.2⟩
  refine ⟨?_, h.seen⟩
  rw [hstack, List.forall_mem_append, List.forall_mem_singleton]
  exact ⟨fun e he => hbehind e (List.mem_reverse.mpr he), Nat.le_refl _⟩

/-- A parse that follows a record builds the node. -/
theorem Config.redoes_of_follows {t : Table} {text text' : String} {Held : Length × Subtree → Prop}
    {x : Length × Subtree} {r : Stretch} (hr : Records t text Held x r) {c d : Config}
    (hstate : x.2.parseState = c.state) {target : StateId}
    (hgoto : t.goto? c.state x.2.symbol = some target) (hmode : x.2.trailingMode = some (t.lexMode target))
    (hreach : Reaches t text'.toUTF8 c.alone d) (hd : r.Follows t text' c.alone d)
    (hwaits : d.lookahead.isSome = true) :
    ∃ node extras, c.Redoes t text'.toUTF8 x.2 target node extras d := by
  obtain ⟨target', above, hstack, hgoto', habove⟩ := hr.stack
  obtain rfl : target = target' := Option.some.inj (hgoto.symm.trans (hstate ▸ hgoto'))
  obtain ⟨entries, hentries, htwins, hrow⟩ := hd.stack
  rw [hstack] at htwins
  -- the twins of the extras lie above the twin of the node
  obtain ⟨extras, base, rfl, hextras, hbase⟩ := twins_append htwins
  cases hbase with
  | @cons _ e _ _ he hnil =>
    cases hnil
    rw [List.reverse_append] at hrow
    obtain ⟨state, node, position⟩ := e
    obtain rfl : state = target := he.state
    obtain ⟨hposition, hrow⟩ := hrow
    obtain rfl : position = c.position := hposition
    obtain ⟨token, htoken⟩ := Option.isSome_iff_exists.mp hwaits
    refine ⟨node, extras, hgoto, hreach, hd.events, hentries.trans (List.append_assoc ..), he.shape,
      fun e' he' => ?_, ?_, token, htoken, ?_⟩
    -- a twin of an extra is one too, and has no children either
    · obtain ⟨e, hmem, htwin⟩ := Subtree.exists_of_mem_forall₂ (List.Forall₂.flip hextras) he'
      obtain ⟨hextra, hleaf, hstate', -⟩ := habove e hmem
      have hchildren := (Subtree.sameShape_iff.mp htwin.shape).2.2.2.2.2
      rw [hleaf] at hchildren
      exact ⟨htwin.extra.trans hextra, List.forall₂_nil_left_iff.mp hchildren,
        htwin.state.trans hstate'⟩
    · rwa [Entry.finish, Subtree.total_of_sameShape he.shape] at hrow
    · have hfound := hd.token
      rwa [Config.readied_of_lookahead htoken,
        Option.some.inj (hr.nextMode.symm.trans hmode)] at hfound

section Offered

variable {g : Grammar} {l : Language} {text text' : String} {p : Parsed} {edits : List (String × Edit)}
  {tree' : Tree} {c : Config} {n : Subtree} {walker : Walker}

/-- A part that is offered is one of the tree before it was edited, where the same bytes stand around
it. -/
theorem Language.old_of_offered (hp : l.parse text none = some p)
    (hedited : p.tree.Edited text edits text' tree') (hlists : c.Lists tree')
    (hnext : Walker.next l.table c.state c.position.bytes c.walker = (some n, walker)) :
    ∃ m, p.tree.Has m ∧ m.subtree = n ∧ p.tree.Holds (m.place.position, n) ∧
      AgreesAround text.toUTF8 text'.toUTF8 m.place.position.bytes c.position.bytes
        (n.total.bytes + n.lookahead) ∧
      c.position.bytes ≤ text'.toUTF8.size ∧ n.isReusable l.table c.state = true := by
  obtain ⟨start, ⟨m', hm', hinner, hposition, rfl⟩, hstart, hreusable⟩ := (hlists.next hnext).2 n rfl
  -- what is offered was not changed, so it is a node of the old tree as it was
  obtain ⟨hchanged, -, -⟩ := Subtree.unchanged_of_isReusable hreusable
  have hkept := kept_of_parse (fun _ hold => by cases hold) hp
  obtain ⟨m, hm, hpath, hsame, haround⟩ := hkept.sameAround hedited hm' hchanged
  have hinside := ((hkept.edited hedited).within hm' hchanged).finish
  dsimp only at hposition hstart
  rw [hposition, hstart] at haround hinside
  refine ⟨m, hm, hsame.symm, ⟨m, hm, ?_, rfl, hsame.symm⟩, ?_, ?_, hreusable⟩
  · rwa [Node.isRoot_eq, ← hpath, ← Node.isRoot_eq]
  · rw [hsame]
    exact ⟨haround.start, haround.before, haround.bytes⟩
  · exact Nat.le_trans (Nat.le_add_right _ _) hinside

/-- A node that is taken over has a record, and a parse without the old tree can follow it. -/
theorem Language.resumes_of_offered (h : g.table = .ok l.table) (hp : l.parse text none = some p)
    (hr : p.stats.recoveries = 0) (hedited : p.tree.Edited text edits text' tree')
    (hlists : c.Lists tree') (hlookahead : c.lookahead = none) (herror : c.errorMode = false)
    (hnext : Walker.next l.table c.state c.position.bytes c.walker = (some n, walker))
    (hrule : l.table.isTerminal n.symbol = false) (hopens : n.opens = true)
    (hextras : p.tree.SeesExtras n)
    (hfree : ∀ d, Config.Reaches l.table text'.toUTF8 c.alone d → ¬d.Stopped l.table text'.toUTF8) :
    ∃ m r, p.tree.Has m ∧ m.subtree = n ∧
      Records l.table text p.tree.Holds (m.place.position, n) r ∧
      r.Resumes l.table text text' (n.total.bytes + n.lookahead) c.alone ∧
      r.SeenBy l.table text (r.start.bytes + (n.total.bytes + n.lookahead)) := by
  obtain ⟨flat, hflat⟩ := Grammar.exists_flatten h
  obtain ⟨ht, -, hs, items, hguided⟩ := Grammar.guided_table hflat h
  obtain ⟨m, hm, rfl, hheld, hagrees, hinside, hreusable⟩ := old_of_offered hp hedited hlists hnext
  obtain ⟨-, -, hmode⟩ := Subtree.unchanged_of_isReusable hreusable
  obtain ⟨hstate, -⟩ := Subtree.known_of_isReusable hreusable hrule
  obtain ⟨r, hrecord⟩ := record_of_parse ht hs hguided hp hr hheld hrule hopens
  -- all that the old parse saw for the node lies within what the two texts share
  have hreach : m.place.reach = r.start.bytes + (m.subtree.total.bytes + m.subtree.lookahead) := by
    rw [hrecord.start, ← Nat.add_assoc]
    rfl
  have hseen := Records.seenBy hrecord hextras hm
  rw [hreach] at hseen
  refine ⟨m, r, hm, rfl, hrecord, ?_, hseen⟩
  refine ⟨hlookahead, rfl, herror, (hstate.symm.trans hrecord.state.symm), ?_, ?_, hinside, hfree⟩
  · rw [hrecord.state, hstate]
    exact Option.some.inj (hmode.symm.trans hrecord.mode)
  · rw [hrecord.start]
    exact hagrees

/-- What is taken over of an old tree is built by a parse without it. -/
theorem Language.takeOver_redone {g : Grammar} {l : Language} (h : g.table = .ok l.table) {text : String}
    {p : Parsed} (hp : l.parse text none = some p) (hr : p.stats.recoveries = 0)
    {edits : List (String × Edit)} {text' : String} {tree' : Tree}
    (hedited : p.tree.Edited text edits text' tree') {c : Config} (hlists : c.Lists tree')
    (hlookahead : c.lookahead = none) (herror : c.errorMode = false) {n : Subtree} {walker : Walker}
    (hnext : Walker.next l.table c.state c.position.bytes c.walker = (some n, walker))
    (hrule : l.table.isTerminal n.symbol = false) (hopens : n.opens = true)
    (hextras : p.tree.SeesExtras n)
    (hfree : ∀ d, Config.Reaches l.table text'.toUTF8 c.alone d → ¬d.Stopped l.table text'.toUTF8) :
    ∃ target node extras d, c.Redoes l.table text'.toUTF8 n target node extras d := by
  obtain ⟨m, r, -, -, hrecord, hresumes, hseen⟩ := resumes_of_offered h hp hr hedited hlists hlookahead
    herror hnext hrule hopens hextras hfree
  obtain ⟨-, -, -, -, -, -, hreusable⟩ := old_of_offered hp hedited hlists hnext
  obtain ⟨hstate, target, hgoto, htrailing⟩ := Subtree.known_of_isReusable hreusable hrule
  -- a parse without the old tree follows the record of the node
  obtain ⟨d, hreaches, hd, hwaits⟩ := hrecord.completes text' _ _ hresumes hseen
  obtain ⟨node, extras, hredoes⟩ :=
    Config.redoes_of_follows hrecord hstate hgoto htrailing hreaches hd hwaits
  exact ⟨target, node, extras, d, hredoes⟩

end Offered

/-! ## A node that begins with an empty rule -/

namespace Sunken

/-- A `bn` for every `z` behind it, with notes between them. -/
def grammar : Grammar where
  name := "g"
  rules := [("s", .choice [.blank, .seq [.string "bn", .symbol "a"]]),
    ("a", .seq [.symbol "s", .string "z"]), ("note", .string "cn")]
  extras := [.symbol "note"]
  precedences := []
  conflicts := []
  externals := []
  inlined := []
  supertypes := []
  word := none
  reserved := []

/-- The three rules, of which the note is a token, and the two other tokens. -/
def flat : FlatGrammar where
  name := "g"
  symbols := #[⟨"end", none, true, false, false, false⟩, ⟨"ERROR", none, true, true, true, false⟩,
    ⟨"s", none, false, true, true, false⟩, ⟨"note", some ⟨"cn", true, false, 0⟩, true, true, true, true⟩,
    FlatSymbol.letter "bn", ⟨"a", none, false, true, true, false⟩, FlatSymbol.letter "z"]
  productions := #[⟨2, [], none⟩, ⟨2, [(4, none), (5, none)], none⟩, ⟨5, [(2, none), (6, none)], none⟩]
  fields := #[]
  start := 2

/-- The states of the table and its lex modes. -/
def parser : ParserTable where
  states := #[⟨[(0, .reduce 0), (2, .goto 1), (4, .shift 2)], 1⟩, ⟨[(0, .accept)], 2⟩,
    ⟨[(2, .goto 3), (4, .shift 2), (5, .goto 4), (6, .reduce 0)], 0⟩, ⟨[(6, .shift 5)], 3⟩,
    ⟨[(0, .reduce 1), (6, .reduce 1)], 3⟩, ⟨[(0, .reduce 2), (6, .reduce 2)], 3⟩]
  lexModes := #[[3, 4, 6], [3, 4], [3], [3, 6]]

/-- The automaton of a letter and an `n`, which sees the byte after them before it matches. -/
def pair (byte : Nat) : Automaton where
  starts := [0, 0, 0, 0, 0]
  states := #[⟨false, false, [⟨byte, byte, 1⟩]⟩, ⟨false, false, [⟨110, 110, 2⟩]⟩,
    ⟨false, true, [⟨0, 255, 3⟩]⟩, ⟨true, false, []⟩]

/-- The texts in the table, with the automata of the tokens. -/
def names : Names := ⟨#["g", "end", "ERROR", "s", "note", "cn", "bn", "a", "z"],
  #[⟨5, (pair 99).encode⟩, ⟨6, (pair 98).encode⟩, ⟨8, (Automaton.ofByte 122).encode⟩]⟩

/-- The entries of the symbols. -/
def entries : List (List UInt8) :=
  [[1, 0, 1, 0, 0, 0, 0, 0], [2, 0, 7, 0, 0, 0, 0, 0], [3, 0, 6, 0, 0, 0, 0, 0],
    [4, 0, 31, 0, 1, 0, 0, 0], [6, 0, 21, 0, 2, 0, 0, 0], [7, 0, 6, 0, 0, 0, 0, 0],
    [8, 0, 21, 0, 3, 0, 0, 0]]

/-- Everything after the header. -/
def body : List UInt8 := Header.filled (TableImage.holds flat parser names entries []) Section.all

/-- The whole table as bytes. -/
def bytes : ByteArray :=
  ofBytes ((TableImage.header flat parser names 0 2257628898 (Header.size + body.length)
    (TableImage.holds flat parser names entries [])).encode ++ body)

/-- The table that is read from the bytes. -/
def table : Table where
  version := 1
  name := "g"
  start := 2
  symbols := #[SymbolInfo.plain "end" true false false false none,
    SymbolInfo.plain "ERROR" true true true false none, SymbolInfo.plain "s" false true true false none,
    ⟨"note", true, true, true, true, true, false, some 1, 0⟩,
    SymbolInfo.plain "bn" true false true true (some 2), SymbolInfo.plain "a" false true true false none,
    SymbolInfo.plain "z" true false true true (some 3)]
  fields := #[]
  productions := #[⟨2, []⟩, ⟨2, [none, none]⟩, ⟨5, [none, none]⟩]
  states := parser.states
  lexModes := parser.lexModes
  lexemes := #[none, some ⟨"cn", pair 99⟩, some ⟨"bn", pair 98⟩, some ⟨"z", Automaton.ofByte 122⟩]

/-- The grammar is flattened as written above. -/
theorem flatten_grammar : grammar.flatten = .ok flat := by
  cbv

/-- The states are those of the flat grammar. -/
theorem ofGrammar_flat : ParserTable.ofGrammar flat = .ok parser := by
  cbv

/-- The texts are collected in the order in which they are met. -/
theorem nameAll_flat :
    (TableImage.nameAll .plain flat).run ⟨#[], #[]⟩ = .ok ((0, entries, []), names) := by
  cbv

/-- The checksum that stands in the header. -/
theorem checksum_body : checksum (ofBytes body) = 2257628898 := by
  rw [checksum_eq]
  decide +kernel

/-- The table is written as these bytes, -/
theorem write_flat : TableImage.write flat parser = .ok bytes := by
  rw [TableImage.write_of_nameAll nameAll_flat rfl (by decide) (by decide) (by decide)
    (by decide +kernel), ← body, checksum_body, bytes]

/-- it is put together from its parts, -/
theorem ofParts_flat : Table.ofParts flat parser names = table := by
  cbv

/-- and it is loaded from them. -/
theorem load_bytes : Table.load bytes = .ok table := by
  have hsound := Grammar.sound_flatten flatten_grammar
  rw [← ofParts_flat]
  exact TableImage.load_write hsound (ParserTable.proper_of_ofGrammar hsound ofGrammar_flat)
    (by decide) nameAll_flat (by decide) (by decide +kernel) write_flat

/-- So `table` is the table of the grammar. -/
theorem table_grammar : grammar.table = .ok table :=
  Grammar.table_of_parts flatten_grammar ofGrammar_flat write_flat load_bytes

/-- A note is put behind the first of two `bn`.  The rule behind it begins with the other, and a parser
without the old tree builds it as well. -/
theorem takeOver_behind_note : ∃ p c n target node extras d,
    Language.parse ⟨0, table⟩ "bnbnzz" none = some p ∧
    Config.Reaches table "bncnbnzz".toUTF8
      (.start table (some (p.tree.edit (.splice "bnbnzz".toUTF8 0 1 "bnc".toUTF8)).root)) c ∧
    table.isTerminal n.symbol = false ∧ n.opens = true ∧
    c.Redoes table "bncnbnzz".toUTF8 n target node extras d := by
  -- both parses are computed, and so is every step of the one without the old tree
  have hrun : (((Config.start table none).doneAfter? table "bnbnzz".toUTF8 9).bind fun r =>
      ((Config.start table (some (r.1.edit (.splice "bnbnzz".toUTF8 0 1 "bnc".toUTF8) .zero))).after table
        "bncnbnzz".toUTF8 2).bind fun c =>
      (Walker.next table c.state c.position.bytes c.walker).1.bind fun n =>
      (Config.trail? table "bncnbnzz".toUTF8 9 c.alone).map fun trail =>
        ((Stats.ofEvents r.2).recoveries, r.1.hasExtra, c.lookahead.isNone, c.errorMode,
          table.isTerminal n.symbol, n.opens, trail.all fun d => d.reductions != 0)) =
      some (0, false, true, false, false, true, true) := by
    cbv
  obtain ⟨r, hr, hrun⟩ := Option.bind_eq_some_iff.mp hrun
  obtain ⟨c, hc, hrun⟩ := Option.bind_eq_some_iff.mp hrun
  obtain ⟨n, hn, hrun⟩ := Option.bind_eq_some_iff.mp hrun
  obtain ⟨trail, htrail, hrun⟩ := Option.map_eq_some_iff.mp hrun
  simp only [Prod.mk.injEq] at hrun
  obtain ⟨hrecoveries, hextra, hlookahead, herror, hrule, hopens, hall⟩ := hrun
  have hp : Language.parse ⟨0, table⟩ "bnbnzz" none = some ⟨⟨⟨0, table⟩, r.1⟩, r.2⟩ := by
    rw [Language.parse, Option.map_eq_some_iff]
    exact ⟨r, Config.run_of_doneAfter? hr, rfl⟩
  -- the node is offered after two steps, behind the note that was inserted
  have hreach := Config.reaches_iff_after.mpr ⟨2, hc⟩
  have hedited : Tree.Edited "bnbnzz" ⟨⟨0, table⟩, r.1⟩ _ "bncnbnzz" _ :=
    .splice 0 1 "bnc" .start (by decide +kernel)
  obtain ⟨target, node, extras, d, hredoes⟩ := Language.takeOver_redone (l := ⟨0, table⟩) table_grammar
    hp hrecoveries hedited
    (Config.lists_of_reaches hreach (Config.lists_start table _)) (Option.isNone_iff_eq_none.mp hlookahead)
    herror (Prod.ext hn rfl) hrule hopens (Tree.seesExtras_of_none hextra n) fun d hd hstopped => by
      have hd := List.all_eq_true.mp hall d (Config.mem_trail htrail hd)
      exact bne_iff_ne.mp hd hstopped.1
  exact ⟨_, c, n, target, node, extras, d, hp, hreach, hrule, hopens, hredoes⟩

/-- A `z` behind a `bn` was parsed, and a note is put between them.  The rule of the `z` is taken over
behind the note, but a parser without the old tree puts the empty text in it before the note. -/
theorem takeOver_differs : grammar.table = .ok table ∧ ∃ p edits c n walker,
    Language.parse ⟨0, table⟩ "bnz" none = some p ∧ p.stats.recoveries = 0 ∧
    p.tree.Edited "bnz" edits "bncnz" (p.tree.edit (.splice "bnz".toUTF8 0 1 "bnc".toUTF8)) ∧
    Config.Reaches table "bncnz".toUTF8
      (.start table (some (p.tree.edit (.splice "bnz".toUTF8 0 1 "bnc".toUTF8)).root)) c ∧
    c.lookahead = none ∧ c.errorMode = false ∧
    Walker.next table c.state c.position.bytes c.walker = (some n, walker) ∧
    table.isTerminal n.symbol = false ∧
    (∀ d, Config.Reaches table "bncnz".toUTF8 c.alone d → ¬d.Stopped table "bncnz".toUTF8) ∧
    ∀ target node extras d, ¬c.Redoes table "bncnz".toUTF8 n target node extras d := by
  -- none of the steps without the old tree puts a part of the same shape on the stack
  have hrun : (((Config.start table none).doneAfter? table "bnz".toUTF8 5).bind fun r =>
      ((Config.start table (some (r.1.edit (.splice "bnz".toUTF8 0 1 "bnc".toUTF8) .zero))).after table
        "bncnz".toUTF8 2).bind fun c =>
      (Walker.next table c.state c.position.bytes c.walker).1.bind fun n =>
      (Config.trail? table "bncnz".toUTF8 5 c.alone).map fun trail =>
        ((Stats.ofEvents r.2).recoveries, c.lookahead.isNone, c.errorMode, table.isTerminal n.symbol,
          trail.all fun d => d.reductions != 0 && !(d.stack.any fun e => n.sameShape e.node))) =
      some (0, true, false, false, true) := by
    cbv
  obtain ⟨r, hr, hrun⟩ := Option.bind_eq_some_iff.mp hrun
  obtain ⟨c, hc, hrun⟩ := Option.bind_eq_some_iff.mp hrun
  obtain ⟨n, hn, hrun⟩ := Option.bind_eq_some_iff.mp hrun
  obtain ⟨trail, htrail, hrun⟩ := Option.map_eq_some_iff.mp hrun
  simp only [Prod.mk.injEq] at hrun
  obtain ⟨hrecoveries, hlookahead, herror, hrule, hall⟩ := hrun
  have hreached := fun d hd => List.all_eq_true.mp hall d (Config.mem_trail htrail hd)
  refine ⟨table_grammar, ⟨⟨⟨0, table⟩, r.1⟩, r.2⟩, _, c, n, _, ?_, hrecoveries,
    .splice 0 1 "bnc" .start (by decide +kernel), Config.reaches_iff_after.mpr ⟨2, hc⟩,
    Option.isNone_iff_eq_none.mp hlookahead, herror, Prod.ext hn rfl, hrule,
    fun d hd hstopped => ?_, fun target node extras d hd => ?_⟩
  · rw [Language.parse, Option.map_eq_some_iff]
    exact ⟨r, Config.run_of_doneAfter? hr, rfl⟩
  · have hd := hreached d hd
    rw [Bool.and_eq_true, bne_iff_ne] at hd
    exact hd.1 hstopped.1
  -- a run that redoes the node would have its shape on the stack
  · have hshape := hreached d hd.reaches
    rw [Bool.and_eq_true, Bool.not_eq_true', List.any_eq_false, hd.stack] at hshape
    exact hshape.2 ⟨target, node, c.position⟩ (List.mem_append_right _ (List.mem_cons_self ..)) hd.shape

end Sunken

end IncrementalParsing
