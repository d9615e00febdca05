import IncrementalParsing.Proofs.Parse.Alike
import IncrementalParsing.Proofs.Parse.TakingOver

/-!
# The same tree with and without an old one

A parse that takes parts of an old tree over comes to a tree of the same shape as the parse without the
old tree.  Step by step the two are compared from one place on, where one has the old tree and the other
does not: a token that is taken over is the one that the text has there, and a node that is taken over is
built by plain steps, so that both stand alike behind the extras after it.

This asks for conditions on the parts that are taken over, since it does not hold for all of them
(`Truncated`, `Sunken`), and that no reductions run out.  The old tree has been parsed without errors, and
edited since; the text that is parsed may have any errors.

## Key results

- `Language.token_of_offered`: a token that is taken over is found in the text
- `Language.alike_of_offered`: what a parse does without a node that is taken over, and where both go on
- `Config.run_alone`: a run without its old tree comes to a root of the same shape
- `Language.parse_again`: a parse with an old tree gives the tree that the parse without it gives
-/

namespace IncrementalParsing

/-! ## Extras behind a node -/

/-- The extras behind a node were looked for in the lex mode of the token after them, and where the node
leads to nothing is done about them but to put them on the stack. -/
def Tree.PassesExtras (t : Table) (tree : Tree) (n : Subtree) : Prop :=
  ∀ m e, tree.Has m → m.subtree = n → tree.Has e → e.isExtra = true →
    tree.ExtrasTo m e.place.position →
      e.subtree.firstMode = n.trailingMode ∧
        ∀ target, t.goto? n.parseState n.symbol = some target → t.action? target e.subtree.symbol = none

/-- What a part of an old tree has to be so that nothing else is built of the text where it is taken over:
a token is an extra if its symbol is one, and a node begins with a token and is decided by nothing
that was looked at for the extras behind it. -/
structure Tree.Renews (t : Table) (tree : Tree) (n : Subtree) : Prop where
  token : t.isTerminal n.symbol = true → n.extra = t.isExtra n.symbol
  node : t.isTerminal n.symbol = false →
    n.opens = true ∧ tree.SeesExtras n ∧ tree.PassesExtras t n

namespace Stretch

variable {t : Table} {text : String}

/-- Extras about which a state does nothing else are put on the stack again behind it, if they were found
in its lex mode. -/
theorem replays_extras (ht : t.Checked) {s : StateId} {i k : Length} {extras : List Entry}
    (hrow : Consecutive i k extras.reverse) (hinside : k.bytes ≤ text.toUTF8.size)
    (hextras : ∀ e ∈ extras, e.state = s ∧ ∃ token,
      FoundAt t text.toUTF8 e.position (t.lexMode s) token ∧ e.node = token.withExtra true ∧
        t.action? s token.symbol = none ∧ token.symbol ≠ Symbol.finish ∧
        t.isExtra token.symbol = true) :
    Replays t text ⟨s, t.lexMode s, i, extras, k, t.lexMode s⟩ := by
  -- on the extras, from the last to the first; none changes the state
  induction extras generalizing k with
  | nil => exact replays_start rfl rfl
  | cons e extras ih =>
    rw [List.reverse_cons, consecutive_append] at hrow
    obtain ⟨j, hrow, hposition, hfinish⟩ := hrow
    obtain ⟨⟨hstate, token, hfound, hnode, ha, hf, hx⟩, hrest⟩ := List.forall_mem_cons.mp hextras
    obtain ⟨state, node, position⟩ := e
    obtain rfl : state = s := hstate
    obtain rfl : position = j := hposition
    obtain rfl : node = token.withExtra true := hnode
    have hj : position.bytes ≤ text.toUTF8.size := by
      refine Nat.le_trans ?_ hinside
      rw [← (show position + token.total = k from hfinish), Length.bytes_add]
      exact Nat.le_add_right _ _
    -- the extras below have left the state as it was
    have htop : Stretch.top ⟨state, t.lexMode state, i, extras, position, t.lexMode state⟩ = state := by
      cases extras with
      | nil => rfl
      | cons below _ => exact (hrest below (List.mem_cons_self ..)).1
    have hreplays := (ih hrow hj hrest).extra ht ⟨hrow, hj⟩ hfound (htop.symm ▸ ha) hf hx
    rw [push, htop] at hreplays
    rw [← (show position + token.total = k from hfinish)]
    exact hreplays

variable {text' : String} {r : Stretch} {x : Length × Subtree} {c c' : Config} {target : StateId}
  {extras : List Entry} {finish : Length}

/-- Behind a node that is taken over, a parse can do again what was done behind it. -/
theorem Resumes.behind (h : r.Resumes t text text' (x.2.total.bytes + x.2.lookahead) c)
    (hstart : finish.bytes = r.start.bytes + x.2.total.bytes)
    (hinside : finish.bytes ≤ text.toUTF8.size) (hlookahead : c'.lookahead = none)
    (hwalker : c'.walker = []) (herror : c'.errorMode = false) (hstate : c'.state = target)
    (hposition : c'.position = c.position + x.2.total)
    (hfree : ∀ d, Config.Reaches t text'.toUTF8 c' d → ¬d.Stopped t text'.toUTF8) :
    Resumes t text text' x.2.lookahead
      ⟨target, t.lexMode target, finish, extras, r.finish, t.lexMode target⟩ c' := by
  have hskip : x.2.total.bytes ≤ x.2.total.bytes + x.2.lookahead := Nat.le_add_right _ _
  -- behind the node the texts still agree on what it has looked at
  have hagrees := h.agrees.skip hskip
  rw [← hstart, Nat.add_sub_cancel_left, ← Length.bytes_add, ← hposition] at hagrees
  have hinside' := h.agrees.le_size h.inside hskip (hstart ▸ hinside)
  rw [← Length.bytes_add, ← hposition] at hinside'
  exact ⟨hlookahead, hwalker, herror, hstate, rfl, hagrees, hinside', hfree⟩

/-- What was looked at behind a node was looked at for what was done up to there. -/
theorem SeenBy.behind (h : r.SeenBy t text (r.start.bytes + (x.2.total.bytes + x.2.lookahead)))
    (hstack : r.stack = extras ++ [⟨target, x.2, x.1⟩])
    (hstart : finish.bytes = r.start.bytes + x.2.total.bytes) (hmode : r.nextMode = t.lexMode target) :
    SeenBy t text (finish.bytes + x.2.lookahead)
      ⟨target, t.lexMode target, finish, extras, r.finish, t.lexMode target⟩ := by
  rw [hstart, Nat.add_assoc]
  refine ⟨fun e he => h.stack e (hstack ▸ List.mem_append_left _ he), ?_⟩
  have htoken := h.token
  rw [Stretch.token, hmode] at htoken
  exact htoken

end Stretch

/-- Twins that begin at the same place stand alike, and end at the same place. -/
theorem alike_of_twins {entries entries' : List Entry} {i k k' : Length}
    (h : List.Forall₂ Entry.Twin entries entries') (hrow : Consecutive i k entries)
    (hrow' : Consecutive i k' entries') : k' = k ∧ List.Forall₂ Entry.Alike entries entries' := by
  induction h generalizing i with
  | nil => exact ⟨hrow'.symm.trans hrow, .nil⟩
  | @cons e e' _ _ he _ ih =>
    obtain ⟨hposition, hrow⟩ := hrow
    obtain ⟨hposition', hrow'⟩ := hrow'
    have halike : e.Alike e' := ⟨he, hposition'.trans hposition.symm⟩
    obtain ⟨hk, hrest⟩ := ih hrow (halike.finish ▸ hrow')
    exact ⟨hk, .cons halike hrest⟩

/-- Twins of the same entries are twins. -/
theorem twins_of_twins {entries a b : List Entry} (ha : List.Forall₂ Entry.Twin entries a)
    (hb : List.Forall₂ Entry.Twin entries b) : List.Forall₂ Entry.Twin a b := by
  induction ha generalizing b with
  | nil =>
    cases hb
    exact .nil
  | cons he _ ih =>
    cases hb with
    | cons he' hrest =>
      refine .cons ⟨he'.state.trans he.state.symm, ?_⟩ (ih hrest)
      exact Subtree.sameShape_trans _ _ _ (Subtree.sameShape_symm _ _ he.shape) he'.shape

/-- Where a stretch that begins with a node is done again, and where the rest of it is done behind the node
itself, two parses stand alike. -/
theorem Stretch.Follows.alike_behind {t : Table} {text' : String} {r r' : Stretch} {c c' d d' : Config}
    {target : StateId} {n : Subtree} {place : Length} (h : r.Follows t text' c d)
    (h' : r'.Follows t text' c' d') (hstack : r.stack = r'.stack ++ [⟨target, n, place⟩])
    (hmode : r.nextMode = r'.nextMode) (hbelow : c'.stack = ⟨target, n, c.position⟩ :: c.stack)
    (hposition : c'.position = c.position + n.total) (hrecovery : c'.lastRecovery = c.lastRecovery)
    (hpassed : c.Passed) : d'.Alike t text'.toUTF8 d := by
  obtain ⟨entries, hentries, htwins, hrow⟩ := h.stack
  obtain ⟨entries', hentries', htwins', hrow'⟩ := h'.stack
  rw [hstack] at htwins
  -- below what is done alike stands a twin of the node
  obtain ⟨above, base, rfl, habove, hbase⟩ := twins_append htwins
  cases hbase with
  | @cons _ e _ _ he hnil =>
    cases hnil
    rw [List.reverse_append] at hrow
    obtain ⟨hplace, hrow⟩ := hrow
    have hfinish : e.finish = c'.position := by
      rw [hposition, Entry.finish, Subtree.total_of_sameShape he.shape, hplace]
    rw [hfinish] at hrow
    obtain ⟨hsame, habove⟩ :=
      alike_of_twins (List.rel_reverse (twins_of_twins htwins' habove)) hrow' hrow
    have hpassed' : c'.Passed := by
      refine hpassed.of_le hrecovery ?_
      rw [hposition, Length.bytes_add]
      exact Nat.le_add_right _ _
    have hmatched : d'.Matched d := by
      refine ⟨⟨h'.walker, h.walker⟩, ?_, hsame, h.errorMode.trans h'.errorMode.symm,
        .inr ⟨h'.passed hpassed', h.passed hpassed⟩⟩
      rw [hentries, hentries', hbelow, List.append_assoc]
      exact List.rel_append (List.forall₂_reverse_iff.mp habove)
        (.cons ⟨⟨he.state, he.shape⟩, hplace⟩ (alike_refl c.stack))
    refine { hmatched with token := ?_ }
    have htoken := h.token
    rw [hsame, hmode] at htoken
    exact h'.token.sameShape_same htoken

/-! ## One part that is taken over -/

/-- Where a parse stands when a part of the old tree is offered to it. -/
def Config.offered (c : Config) (n : Subtree) (walker : Walker) : Config :=
  { c with walker, lookaheadInErrorMode := false }.record
    (.reuse c.state n.symbol (c.contentStart n) (c.contentStart n + n.size.bytes) n.total.bytes)

/-- A step that takes a part over. -/
theorem Config.step_of_offered {t : Table} {text : ByteArray} {c : Config} {n : Subtree} {walker : Walker}
    (hlookahead : c.lookahead = none) (herror : c.errorMode = false)
    (hnext : Walker.next t c.state c.position.bytes c.walker = (some n, walker)) :
    c.step t text = if t.isTerminal n.symbol then (c.offered n walker).act t text n
      else .next ((c.offered n walker).takeOver t n) := by
  -- in error mode no old node is asked for
  have hfetch : c.fetch t text = (n, c.offered n walker) := by
    unfold fetch
    rw [if_neg (by rw [herror]; exact Bool.false_ne_true), hnext]
    rfl
  unfold step
  rw [hlookahead]
  dsimp only
  rw [hfetch]

section Offered

variable {g : Grammar} {l : Language} {text text' : String} {p : Parsed} {edits : List (String × Edit)}
  {tree' : Tree} {c : Config} {n : Subtree} {walker : Walker}

/-- A token that is taken over is the one that a parse without the old tree finds in the text. -/
theorem Language.token_of_offered (h : g.table = .ok l.table) (hp : l.parse text none = some p)
    (hr : p.stats.recoveries = 0) (hedited : p.tree.Edited text edits text' tree')
    (hlists : c.Lists tree') (hlookahead : c.lookahead = none) (herror : c.errorMode = false)
    (hnext : Walker.next l.table c.state c.position.bytes c.walker = (some n, walker))
    (hterminal : l.table.isTerminal n.symbol = true)
    (hextra : n.extra = l.table.isExtra n.symbol) :
    n.sameShape (c.alone.readied l.table text'.toUTF8).1 = true := by
  obtain ⟨flat, hflat⟩ := Grammar.exists_flatten h
  obtain ⟨ht, -, hs, items, hguided⟩ := Grammar.guided_table hflat h
  obtain ⟨m, hm, hsubtree, hheld, hagrees, hinside, hreusable⟩ :=
    old_of_offered hp hedited hlists hnext
  obtain ⟨hchanged, -, hmode⟩ := Subtree.unchanged_of_isReusable hreusable
  obtain ⟨mode, token, mark, hfound, hnode, -⟩ :=
    found_of_parse ht hs hguided hp hr hheld (.inr hterminal)
  dsimp only at hfound hnode
  subst hnode
  obtain rfl : mode = l.table.lexMode c.state := Option.some.inj (hfound.firstMode.symm.trans hmode)
  -- the same bytes stand around its place, so the same token is found there
  have hplace : m.place.position.bytes ≤ text.toUTF8.size := by
    have hkept := kept_of_parse (fun _ hold => by cases hold) hp
    refine Nat.le_trans (Nat.le_add_right _ _) (hkept.within hm ?_).finish
    rwa [Node.hasChanges, hsubtree]
  have hsame := Lexer.next_agrees l.table (l.table.lexMode c.state) hagrees hplace hinside (by
    rw [← hfound.total, ← hfound.lookahead]
    exact Nat.le_refl _)
  have hlexed : FoundAt l.table text'.toUTF8 c.position (l.table.lexMode c.state)
      (c.alone.readied l.table text'.toUTF8).1 := Config.foundAt_lex _ _ hlookahead herror
  have hshape := hfound.sameShape hlexed hsame mark
  have hsymbol := (Subtree.sameShape_iff.mp hshape).1
  obtain ⟨state, hleaf⟩ := hlexed
  -- whether a token is an extra is a matter of its symbol alone
  have hmark : mark = (c.alone.readied l.table text'.toUTF8).1.extra := by
    rw [hleaf] at hsymbol ⊢
    exact hextra.trans (congrArg l.table.isExtra hsymbol)
  rw [hmark] at hshape ⊢
  rwa [Subtree.withExtra_self] at hshape

/-- The extras behind a node of the old tree that is taken over are put on the stack again behind it. -/
theorem Language.replays_behind (h : g.table = .ok l.table) (hp : l.parse text none = some p)
    (hr : p.stats.recoveries = 0) {m : Node} (hm : p.tree.Has m) {r : Stretch}
    (hrecord : Records l.table text p.tree.Holds (m.place.position, m.subtree) r) {target : StateId}
    {extras : List Entry} (hstack : r.stack = extras ++ [⟨target, m.subtree, m.place.position⟩])
    (hgoto : l.table.goto? m.subtree.parseState m.subtree.symbol = some target)
    (habove : ∀ e ∈ extras, e.node.extra = true ∧ e.state = target ∧ p.tree.Holds e.part)
    (hmode : m.subtree.trailingMode = some (l.table.lexMode target))
    (hpasses : p.tree.PassesExtras l.table m.subtree) :
    Consecutive m.finish r.finish extras.reverse ∧
      Stretch.Replays l.table text
        ⟨target, l.table.lexMode target, m.finish, extras, r.finish, l.table.lexMode target⟩ := by
  obtain ⟨flat, hflat⟩ := Grammar.exists_flatten h
  obtain ⟨ht, -, hs, items, hguided⟩ := Grammar.guided_table hflat h
  have hrow := hrecord.lies.stack
  rw [hstack, List.reverse_append] at hrow
  obtain ⟨-, hrow⟩ := hrow
  have hrow : Consecutive m.finish r.finish extras.reverse := hrow
  refine ⟨hrow, Stretch.replays_extras ht hrow hrecord.lies.inside fun e he => ?_⟩
  obtain ⟨hextra, hstate, hheld⟩ := habove e he
  -- the extra is one of the tree, so its mode is the one after the node, and it is found there
  obtain ⟨m', hm', hmextra, hbehind, -, hsubtree⟩ := Tree.behind_of_row hrow .here
    (fun e he => ⟨(habove e (List.mem_reverse.mp he)).1, (habove e (List.mem_reverse.mp he)).2.2⟩) e
    (List.mem_reverse.mpr he)
  obtain ⟨hfirst, hfree⟩ := hpasses m m' hm rfl hm' hmextra hbehind
  rw [hsubtree] at hfirst hfree
  obtain ⟨mode, token, mark, hfound, hnode, hmark⟩ :=
    found_of_parse ht hs hguided hp hr hheld (.inl hextra)
  have hnode : e.node = token.withExtra mark := hnode
  rw [hnode] at hfirst hfree hextra
  obtain rfl : mark = true := hextra
  obtain ⟨hf, hx⟩ := hmark rfl
  obtain rfl : mode = l.table.lexMode target :=
    Option.some.inj (hfound.firstMode.symm.trans (hfirst.trans hmode))
  exact ⟨hstate, token, hfound, hnode, hfree target hgoto, hf, hx⟩

/-- A parse that takes a node over and one that does without the old tree stand alike behind the node and
the extras after it. -/
theorem Language.alike_of_offered (h : g.table = .ok l.table) (hp : l.parse text none = some p)
    (hr : p.stats.recoveries = 0) (hedited : p.tree.Edited text edits text' tree')
    (hlists : c.Lists tree') (hlookahead : c.lookahead = none) (herror : c.errorMode = false)
    (hnext : Walker.next l.table c.state c.position.bytes c.walker = (some n, walker))
    (hrule : l.table.isTerminal n.symbol = false) (hrenews : p.tree.Renews l.table n)
    (hpassed : c.Passed)
    (hfree : ∀ d, Config.Reaches l.table text'.toUTF8 c.alone d → ¬d.Stopped l.table text'.toUTF8)
    (hfree' : ∀ d, Config.Reaches l.table text'.toUTF8
      ((c.offered n walker).takeOver l.table n).alone d → ¬d.Stopped l.table text'.toUTF8) :
    ∃ d d', Config.Reaches l.table text'.toUTF8 c.alone d ∧
      Config.Reaches l.table text'.toUTF8 ((c.offered n walker).takeOver l.table n).alone d' ∧
      d'.Alike l.table text'.toUTF8 d := by
  obtain ⟨hopens, hsees, hpasses⟩ := hrenews.node hrule
  obtain ⟨m, r, hm, rfl, hrecord, hresumes, hseen⟩ := resumes_of_offered h hp hr hedited hlists
    hlookahead herror hnext hrule hopens hsees hfree
  obtain ⟨-, -, -, -, -, -, hreusable⟩ := old_of_offered hp hedited hlists hnext
  obtain ⟨hstate, target, hgoto, htrailing⟩ := Subtree.known_of_isReusable hreusable hrule
  -- without the old tree a parse follows the record of the node
  obtain ⟨d, hreaches, hd, -⟩ := hrecord.completes text' _ _ hresumes hseen
  obtain ⟨target', extras, hstack, hgoto', habove⟩ := hrecord.stack
  obtain rfl : target = target' := Option.some.inj (hgoto.symm.trans (hstate ▸ hgoto'))
  -- with the old tree it puts the extras behind the node on the stack
  obtain ⟨hrow, hreplays⟩ := replays_behind h hp hr hm hrecord hstack hgoto'
    (fun e he => ⟨(habove e he).1, (habove e he).2.2⟩) htrailing hpasses
  have hstart : m.finish.bytes = r.start.bytes + m.subtree.total.bytes := by
    rw [hrecord.start, ← Length.bytes_add]
    rfl
  have hinside : m.finish.bytes ≤ text.toUTF8.size := by
    refine Nat.le_trans ?_ hrecord.lies.inside
    rw [hrow.eq_add, Length.bytes_add]
    exact Nat.le_add_right _ _
  have hresumes' : Stretch.Resumes l.table text text' m.subtree.lookahead
      ⟨target, l.table.lexMode target, m.finish, extras, r.finish, l.table.lexMode target⟩
      ((c.offered m.subtree walker).takeOver l.table m.subtree).alone :=
    hresumes.behind (x := (m.place.position, m.subtree)) hstart hinside rfl rfl herror
      (congrArg (Option.getD · c.state) hgoto) rfl hfree'
  have hseen' := hseen.behind hstack hstart (Option.some.inj (hrecord.nextMode.symm.trans htrailing))
  obtain ⟨d', hreaches', hd', -⟩ := hreplays text' _ _ hresumes' hseen'
  have hstack' : ((c.offered m.subtree walker).takeOver l.table m.subtree).alone.stack =
      ⟨target, m.subtree, c.position⟩ :: c.stack := by
    change ⟨(l.table.goto? c.state m.subtree.symbol).getD c.state, m.subtree, c.position⟩ :: c.stack = _
    rw [hgoto]
    rfl
  exact ⟨d, d', hreaches, hreaches', hd.alike_behind hd' hstack
    (Option.some.inj (hrecord.nextMode.symm.trans htrailing)) hstack' rfl rfl hpassed⟩

end Offered

/-! ## Whole runs -/

namespace Config

variable {t : Table} {text : ByteArray} {c c' : Config}

/-- A parser without an old tree matches itself. -/
theorem Matched.refl (hw : c.walker = []) : c.Matched c :=
  ⟨⟨hw, hw⟩, alike_refl c.stack, rfl, rfl, .inl rfl⟩

/-- A step is alike to itself, without an old tree. -/
theorem stepAlike_alone (t : Table) (text : ByteArray) (s : Step) : Step.Alike t text s.alone s.alone := by
  cases s with
  | next c => exact .next { Matched.refl rfl with token := Subtree.sameShape_refl _ }
  | done root events => exact .done (Subtree.sameShape_refl root)

/-- What is done about a token that is taken over is done about the one that is found in the text. -/
theorem stepAlike_of_token (ht : t.Checked) (n : Subtree) (walker : Walker)
    (hshape : n.sameShape (c.alone.readied t text).1 = true) (hfree : ¬c.alone.Stopped t text) :
    Step.Alike t text ((c.offered n walker).act t text n).alone (c.alone.step t text) := by
  obtain ⟨hstack, hposition, hwalker, herror', hreductions⟩ := c.alone.readied_frame t text
  have hsymbol := (Subtree.sameShape_iff.mp hshape).1
  -- the token taken over stands where the scanned one would
  have hmatched : (c.offered n walker).alone.Matched (c.alone.readied t text).2 := by
    refine ⟨⟨rfl, hwalker⟩, ?_, hposition, herror', .inl (c.alone.readied_lastRecovery t text)⟩
    rw [hstack]
    exact alike_refl c.stack
  rw [← act_alone, step_readied ht rfl]
  refine hmatched.act hshape (fun p hp hzero => hfree ⟨hzero, p, ?_⟩)
    fun p hp hzero => hfree ⟨hreductions ▸ hzero, p, ?_⟩
  · rw [← hsymbol]
    exact hp
  · rw [← hsymbol]
    exact hp

/-- The stack was last cut behind the current place at most, and before it where a part of an old tree can
be taken over. -/
structure Leaves (c : Config) : Prop where
  le : ∀ r ∈ c.lastRecovery, r.1 ≤ c.position.bytes
  passed : c.lookahead = none → c.errorMode = false → c.Passed

/-- At the start the stack has not been cut. -/
theorem leaves_start (t : Table) (old : Option Subtree) : (start t old).Leaves :=
  ⟨fun r hr => (Option.not_mem_none r hr).elim, fun _ _ r hr => (Option.not_mem_none r hr).elim⟩

/-- No move leads before the place of the last cut, and a cut leaves a lookahead. -/
theorem leaves_of_moves (ht : t.Checked) (hw : c.WaitsWell) (h : c.Leaves)
    (hmoves : Moves t text c c') : c'.Leaves := by
  obtain ⟨token, ready, hready, hgoes⟩ | ⟨n, ready, hready, hlookahead, hrule, rfl⟩ :=
    moves_cases hmoves
  · obtain ⟨-, hposition, hrecovery, -, -, herror⟩ := readies_frame hready
    have hle : ∀ r ∈ ready.lastRecovery, r.1 ≤ ready.position.bytes := by
      rw [hrecovery, hposition]
      exact h.le
    have hbytes := Length.bytes_add ready.position token.total
    cases hgoes with
    | shift => exact ⟨fun r hr => (Option.not_mem_none r hr).elim,
        fun _ _ r hr => (Option.not_mem_none r hr).elim⟩
    | reduce => exact ⟨hle, fun hnone => by cases hnone⟩
    -- an extra takes bytes, so that the parse leaves the place
    | extra _ hf =>
      have hpos := pos_of_readies hw hready hf
      have hlt : ∀ r ∈ ready.lastRecovery, r.1 < (ready.position + token.total).bytes := fun r hr => by
        have := hle r hr
        omega
      exact ⟨fun r hr => Nat.le_of_lt (hlt r hr), fun _ _ => hlt⟩
    | cut =>
      refine ⟨?_, fun hnone => by cases hnone⟩
      rintro r ⟨⟩
      exact Nat.le_refl _
    | skip =>
      refine ⟨fun r hr => ?_, fun _ herror => by cases herror⟩
      have hr := hle r hr
      change r.1 ≤ (ready.position + token.total).bytes
      omega
  -- where a node is taken over the last cut was left already
  · obtain ⟨-, hposition, hrecovery, -, -, -⟩ := readies_frame hready
    obtain ⟨-, -, herror, -⟩ := takeOver_reused ht hready hlookahead hrule
    have hpassed : (ready.takeOver t n).Passed := by
      refine (h.passed hlookahead herror).of_le hrecovery ?_
      change c.position.bytes ≤ (ready.position + n.total).bytes
      rw [hposition, Length.bytes_add]
      exact Nat.le_add_right _ _
    exact ⟨fun r hr => Nat.le_of_lt (hpassed r hr), fun _ _ => hpassed⟩

/-- What is known where a part of the old tree is taken over: a token is the one that is found without it,
and behind a node both go on alike. -/
structure Renewed (t : Table) (text : ByteArray) (c : Config) (n : Subtree) (walker : Walker) : Prop where
  token : t.isTerminal n.symbol = true → n.sameShape (c.alone.readied t text).1 = true
  node : t.isTerminal n.symbol = false →
    ∃ d d', Reaches t text c.alone d ∧ Reaches t text ((c.offered n walker).takeOver t n).alone d' ∧
      d'.Alike t text d

/-- The parts that are taken over next are renewed. -/
def RenewsNext (t : Table) (text : ByteArray) (c : Config) : Prop :=
  ∀ n walker, c.lookahead = none → c.errorMode = false →
    Walker.next t c.state c.position.bytes c.walker = (some n, walker) → c.Renewed t text n walker

/-- A part of the old tree is taken over next, or the step is the same without the old tree. -/
theorem offered_or_alone (t : Table) (text : ByteArray) (c : Config) :
    (∃ n walker, c.lookahead = none ∧ c.errorMode = false ∧
      Walker.next t c.state c.position.bytes c.walker = (some n, walker)) ∨
    c.alone.step t text = (c.step t text).alone := by
  by_cases hrefrains : c.lookahead = none → c.Refrains t
  · exact .inr (step_alone hrefrains)
  · simp only [Refrains, Classical.not_imp] at hrefrains
    obtain ⟨hlookahead, herror, hoffered⟩ := hrefrains
    obtain ⟨n, hn⟩ := Option.ne_none_iff_exists'.mp hoffered
    exact .inl ⟨n, _, hlookahead, herror, Prod.ext hn rfl⟩

/-- The last step of a parse is done without the old tree as well. -/
theorem done_alone (ht : t.Checked) (hrenews : c.RenewsNext t text) (hfree : ¬c.alone.Stopped t text)
    {root : Subtree} {events : List Event} (hdone : c.step t text = .done root events) :
    ∃ root' events', c.alone.step t text = .done root' events' ∧ root.sameShape root' = true := by
  obtain ⟨n, walker, hlookahead, herror, hnext⟩ | halone := offered_or_alone t text c
  · have hrenewed := hrenews n walker hlookahead herror hnext
    rw [step_of_offered hlookahead herror hnext] at hdone
    split at hdone
    -- only a token ends the run, never a node that is taken over
    · rename_i hterminal
      have halike := stepAlike_of_token ht n walker (hrenewed.token hterminal) hfree
      rw [hdone] at halike
      generalize hstep : c.alone.step t text = s at halike
      cases halike with
      | done hshape => exact ⟨_, _, rfl, hshape⟩
    · cases hdone
  · rw [hdone] at halone
    exact ⟨root, events, halone, Subtree.sameShape_refl root⟩

/-- Any other step leads, without the old tree, to where some steps without the old tree lead from behind
it. -/
theorem moves_alone (ht : t.Checked) (hrenews : c.RenewsNext t text) (hfree : ¬c.alone.Stopped t text)
    (hmoves : Moves t text c c') :
    ∃ d d', Reaches t text c.alone d ∧ Reaches t text c'.alone d' ∧ d'.Alike t text d := by
  have hstep : c.step t text = .next c' := hmoves
  obtain ⟨n, walker, hlookahead, herror, hnext⟩ | halone := offered_or_alone t text c
  -- a part of the old tree is offered: a token is the one that is found, a node is renewed
  · have hrenewed := hrenews n walker hlookahead herror hnext
    rw [step_of_offered hlookahead herror hnext] at hstep
    split at hstep
    · rename_i hterminal
      have halike := stepAlike_of_token ht n walker (hrenewed.token hterminal) hfree
      rw [hstep] at halike
      generalize hd : c.alone.step t text = s at halike
      cases halike with
      | @next _ d halike => exact ⟨d, c'.alone, .single hd, .refl, halike⟩
    · rename_i hrule
      cases hstep
      exact hrenewed.node (Bool.eq_false_iff.mpr hrule)
  -- nothing is offered, so both make the same step
  · rw [hstep] at halone
    have halike := stepAlike_alone t text (.next c')
    cases halike with
    | next halike => exact ⟨c'.alone, c'.alone, .single halone, .refl, halike⟩

/-- A run without its old tree comes to a root of the same shape, if the parts that are taken over are
renewed and no reductions run out on any way without the old tree. -/
theorem run_alone (ht : t.Checked) (hrenews : ∀ d, Reaches t text c d → d.RenewsNext t text)
    (hfree : ∀ d d', Reaches t text c d → Reaches t text d.alone d' → ¬d'.Stopped t text)
    {root : Subtree} {events : List Event} (hrun : run t text c = some (root, events)) :
    ∃ root' events', run t text c.alone = some (root', events') ∧ root.sameShape root' = true := by
  obtain ⟨last, es, hreach, hdone, -⟩ := run_eq_some_iff.mp hrun
  clear hrun
  -- from the last step back to the first
  induction hreach using Relation.ReflTransGen.head_induction_on with
  | refl =>
    obtain ⟨root', events', hstep, hshape⟩ :=
      done_alone ht (hrenews _ .refl) (hfree _ _ .refl .refl) hdone
    exact ⟨root', _, run_of_done hstep, hshape⟩
  | @head c c' hm hreach ih =>
    obtain ⟨root₁, events₁, hrun₁, hshape₁⟩ := ih (fun d hd => hrenews d (.head hm hd))
      fun d d' hd => hfree d d' (.head hm hd)
    obtain ⟨d, d', hd, hd', halike⟩ := moves_alone ht (hrenews _ .refl) (hfree _ _ .refl .refl) hm
    -- both go on to where they are alike, and run alike from there
    rw [run_of_reaches hd'] at hrun₁
    obtain ⟨root₂, events₂, hrun₂, hshape₂⟩ := halike.run ht
      (fun x hx => hfree c' x (.single hm) (hd'.trans hx)) (fun x hx => hfree c x .refl (hd.trans hx))
      hrun₁
    rw [← run_of_reaches hd] at hrun₂
    exact ⟨root₂, events₂, hrun₂, Subtree.sameShape_trans _ _ _ hshape₁ hshape₂⟩

end Config

namespace Language

/-- A part of the old tree is taken over in a parse. -/
def TakesOver (l : Language) (text : String) (old : Option Tree) (n : Subtree) : Prop :=
  ∃ c walker, Config.Reaches l.table text.toUTF8 (.start l.table (l.usable? old)) c ∧
    c.lookahead = none ∧ c.errorMode = false ∧
    Walker.next l.table c.state c.position.bytes c.walker = (some n, walker)

/-- Wherever a parse gets, no reductions run out on the way from there without the old tree. -/
def NeverStops (l : Language) (text : String) (old : Option Tree) : Prop :=
  ∀ c d, Config.Reaches l.table text.toUTF8 (.start l.table (l.usable? old)) c →
    Config.Reaches l.table text.toUTF8 c.alone d → ¬d.Stopped l.table text.toUTF8

variable {g : Grammar} {l : Language} {text text' : String} {p q : Parsed} {edits : List (String × Edit)}
  {tree' : Tree}

/-- Each part that is taken over is renewed. -/
theorem renews_of_takesOver (h : g.table = .ok l.table) (hp : l.parse text none = some p)
    (hr : p.stats.recoveries = 0) (hedited : p.tree.Edited text edits text' tree')
    (hrenews : ∀ n, l.TakesOver text' (some tree') n → p.tree.Renews l.table n)
    (hfree : l.NeverStops text' (some tree')) (husable : l.usable? (some tree') = some tree'.root)
    {c : Config}
    (hc : Config.Reaches l.table text'.toUTF8 (.start l.table (l.usable? (some tree'))) c) :
    c.RenewsNext l.table text'.toUTF8 := by
  obtain ⟨flat, hflat⟩ := Grammar.exists_flatten h
  obtain ⟨ht, -⟩ := Grammar.guided_table hflat h
  intro n walker hlookahead herror hnext
  have hpart := hrenews n ⟨c, walker, hc, hlookahead, herror, hnext⟩
  -- the walker still lists parts of the edited tree
  have hlists : c.Lists tree' := by
    rw [husable] at hc
    exact Config.lists_of_reaches hc (Config.lists_start l.table tree')
  have hleaves : c.WaitsWell ∧ c.Leaves := by
    refine Config.invariant_of_reaches (P := fun c => c.WaitsWell ∧ c.Leaves) hc
      ⟨Config.waitsWell_start _ _, Config.leaves_start _ _⟩ fun _ _ hc hmoves => ?_
    exact ⟨Config.waitsWell_of_moves hc.1 hmoves, Config.leaves_of_moves ht hc.1 hc.2 hmoves⟩
  refine ⟨fun hterminal => ?_, fun hrule => ?_⟩
  · exact token_of_offered h hp hr hedited hlists hlookahead herror hnext hterminal
      (hpart.token hterminal)
  · have hmoves : Config.Moves l.table text'.toUTF8 c ((c.offered n walker).takeOver l.table n) := by
      rw [Config.Moves, Config.step_of_offered hlookahead herror hnext, if_neg (by simp [hrule])]
    exact alike_of_offered h hp hr hedited hlists hlookahead herror hnext hrule hpart
      (hleaves.2.passed hlookahead herror) (fun d => hfree c d hc) fun d => hfree _ d (hc.tail hmoves)

/-- A text whose old tree was parsed without errors and edited has the tree that it has without the old
one. -/
theorem parse_of_renews (h : g.table = .ok l.table) (hp : l.parse text none = some p)
    (hr : p.stats.recoveries = 0) (hedited : p.tree.Edited text edits text' tree')
    (hq : l.parse text' (some tree') = some q)
    (hrenews : ∀ n, l.TakesOver text' (some tree') n → p.tree.Renews l.table n)
    (hfree : l.NeverStops text' (some tree')) :
    ∃ r, l.parse text' none = some r ∧ (q.tree == r.tree) = true := by
  obtain ⟨flat, hflat⟩ := Grammar.exists_flatten h
  obtain ⟨ht, -⟩ := Grammar.guided_table hflat h
  simp only [parse, Option.map_eq_some_iff] at hq
  obtain ⟨⟨root, events⟩, hrun, rfl⟩ := hq
  have halone : Config.alone (.start l.table (l.usable? (some tree'))) =
      .start l.table (l.usable? none) := rfl
  cases husable : l.usable? (some tree') with
  -- a tree of another language is not used at all
  | none =>
    rw [husable] at hrun
    refine ⟨⟨⟨l, root⟩, events⟩, ?_, Subtree.sameShape_refl root⟩
    rw [parse, Option.map_eq_some_iff]
    exact ⟨(root, events), hrun, rfl⟩
  -- otherwise its parts are taken over one by one
  | some old =>
    obtain ⟨tree, htree, rfl⟩ := exists_of_usable? husable
    cases htree
    obtain ⟨root', events', hrun', hshape⟩ := Config.run_alone ht
      (fun c hc => renews_of_takesOver h hp hr hedited hrenews hfree husable hc) hfree hrun
    rw [halone] at hrun'
    refine ⟨⟨⟨l, root'⟩, events'⟩, ?_, hshape⟩
    rw [parse, Option.map_eq_some_iff]
    exact ⟨(root', events'), hrun', rfl⟩

/-- A text that is parsed with an old tree has the tree that it has without it, if nothing is taken over,
or if the old tree was parsed without errors and edited since and the parts that are taken over can be
renewed. -/
theorem parse_again {l : Language} {text' : String} {old : Option Tree} {q : Parsed}
    (hq : l.parse text' old = some q) :
    (q.stats.reused = 0 → l.parse text' none = some q) ∧
      ∀ (g : Grammar) (text : String) (p : Parsed) (edits : List (String × Edit)) (tree' : Tree),
        g.table = .ok l.table → l.parse text none = some p → p.stats.recoveries = 0 →
        p.tree.Edited text edits text' tree' → old = some tree' →
        (∀ n, l.TakesOver text' old n → p.tree.Renews l.table n) → l.NeverStops text' old →
          ∃ r, l.parse text' none = some r ∧ (q.tree == r.tree) = true := by
  refine ⟨parse_of_no_reuse hq, ?_⟩
  rintro g text p edits tree' h hp hr hedited rfl hrenews hfree
  exact parse_of_renews h hp hr hedited hq hrenews hfree

end Language

/-! ## A note behind a node that is taken over -/

namespace Tree

variable {tree : Tree}

/-- The places of the nodes at a depth of a tree. -/
def layer (tree : Tree) : Nat → List Place
  | 0 => [tree.node.place]
  | depth + 1 => (tree.layer depth).flatMap Place.below

/-- Every node of a tree stands in one of its layers. -/
theorem exists_layer {n : Node} (h : tree.Has n) : ∃ depth, n.place ∈ tree.layer depth := by
  induction h with
  | root => exact ⟨0, List.mem_singleton_self _⟩
  | @stored n m _ hm ih =>
    obtain ⟨depth, hdepth⟩ := ih
    exact ⟨depth + 1, List.mem_flatMap.mpr ⟨n.place, hdepth, Node.mem_below hm⟩⟩

/-- The places of all nodes of a tree that is not as deep as given. -/
def places (tree : Tree) (depth : Nat) : List Place := (List.range depth).flatMap tree.layer

/-- So its place is among `places`, if they reach below the last layer. -/
theorem mem_places {depth : Nat} (hend : tree.layer depth = []) {n : Node} (h : tree.Has n) :
    n.place ∈ tree.places depth := by
  obtain ⟨k, hk⟩ := exists_layer h
  have hlt : k < depth := by
    by_contra hle
    -- below nothing there is nothing
    have hnone : ∀ d, tree.layer (depth + d) = [] := fun d => by
      induction d with
      | zero => exact hend
      | succ d ih => rw [← Nat.add_assoc, layer, ih, List.flatMap_nil]
    have := hnone (k - depth)
    rw [Nat.add_sub_cancel' (Nat.le_of_not_lt hle)] at this
    rw [this] at hk
    cases hk
  exact List.mem_flatMap.mpr ⟨k, List.mem_range.mpr hlt, hk⟩

/-- The extras from a node on stand behind it. -/
theorem ExtrasTo.le {n : Node} {k : Length} (h : tree.ExtrasTo n k) : n.place.finish.bytes ≤ k.bytes := by
  induction h with
  | here => exact Nat.le_refl _
  | @extra e _ _ _ ih =>
    refine Nat.le_trans ih ?_
    rw [Node.finish, Place.finish, Length.bytes_add]
    exact Nat.le_add_right _ _

/-- Whether a part can be renewed, by where the nodes of the tree are. -/
def isRenewed (t : Table) (places : List Place) (n : Subtree) : Bool :=
  if t.isTerminal n.symbol then n.extra == t.isExtra n.symbol
  else n.opens && places.all fun m => !m.subtree.sameShape n ||
    places.all fun e => !e.subtree.extra || decide (e.position.bytes < m.finish.bytes) ||
      (decide (e.reach ≤ m.reach) && e.subtree.firstMode == n.trailingMode &&
        (t.goto? n.parseState n.symbol).all fun target => t.action? target e.subtree.symbol == none)

/-- What `isRenewed` accepts is renewed. -/
theorem renews_of_isRenewed {t : Table} {places : List Place} {n : Subtree}
    (hplaces : ∀ m, tree.Has m → m.place ∈ places) (h : isRenewed t places n = true) :
    tree.Renews t n := by
  unfold isRenewed at h
  split at h
  · rename_i hterminal
    exact ⟨fun _ => beq_iff_eq.mp h, fun hrule => absurd hterminal (Bool.eq_false_iff.mp hrule)⟩
  · rename_i hrule
    rw [Bool.and_eq_true] at h
    obtain ⟨hopens, hall⟩ := h
    -- what is checked for all places holds of each extra behind the node
    have hbehind : ∀ m e, tree.Has m → m.subtree = n → tree.Has e → e.isExtra = true →
        tree.ExtrasTo m e.place.position →
          (e.place.reach ≤ m.place.reach ∧ e.subtree.firstMode = n.trailingMode) ∧
            (t.goto? n.parseState n.symbol).all
              (fun target => t.action? target e.subtree.symbol == none) = true := by
      rintro m e hm rfl he hextra hto
      have hm' := List.all_eq_true.mp hall _ (hplaces m hm)
      rw [show m.place.subtree = m.subtree from rfl, Subtree.sameShape_refl, Bool.not_true,
        Bool.false_or] at hm'
      have he' := List.all_eq_true.mp hm' _ (hplaces e he)
      rw [show e.place.subtree.extra = true from hextra, Bool.not_true, Bool.false_or,
        decide_eq_false (Nat.not_lt.mpr hto.le), Bool.false_or] at he'
      simpa [Node.subtree] using he'
    refine ⟨fun hterminal => absurd hterminal hrule, fun _ => ⟨hopens, ?_, ?_⟩⟩
    · exact fun m e hm hsubtree he hextra hto => (hbehind m e hm hsubtree he hextra hto).1.1
    · intro m e hm hsubtree he hextra hto
      obtain ⟨⟨-, hfirst⟩, hgoto⟩ := hbehind m e hm hsubtree he hextra hto
      refine ⟨hfirst, fun target htarget => ?_⟩
      rw [htarget] at hgoto
      exact beq_iff_eq.mp hgoto

end Tree

namespace Sunken

/-- Two `bn` are put in front of a text that ends with a note, so that there are too many of them.  The rule
before the note is taken over, and so is the note, and the error is repaired as it is without the old
tree.  Where the whole text is replaced, nothing is taken over. -/
theorem parse_before_note : ∃ p q r, Language.parse ⟨0, table⟩ "bnbnzzcn" none = some p ∧
    Language.parse ⟨0, table⟩ "bnbnbnbnzzcn"
      (some (p.tree.edit (.splice "bnbnzzcn".toUTF8 0 1 "bnbnb".toUTF8))) = some q ∧
    q.stats.reused = 2 ∧ q.stats.recoveries = 1 ∧
    Language.parse ⟨0, table⟩ "bnbnbnbnzzcn" none = some r ∧ (q.tree == r.tree) = true ∧
    ∃ s, Language.parse ⟨0, table⟩ "bnz"
      (some (p.tree.edit (.splice "bnbnzzcn".toUTF8 0 8 "bnz".toUTF8))) = some s ∧
      s.stats.reused = 0 ∧ Language.parse ⟨0, table⟩ "bnz" none = some s := by
  -- the three parses and the conditions along the second, run by `cbv`
  have hrun : (((Config.start table none).doneAfter? table "bnbnzzcn".toUTF8 10).bind fun r =>
      ((Config.start table (some (r.1.edit (.splice "bnbnzzcn".toUTF8 0 1 "bnbnb".toUTF8) .zero))).doneAfter?
        table "bnbnbnbnzzcn".toUTF8 8).bind fun q =>
      (Config.trail? table "bnbnbnbnzzcn".toUTF8 9
        (.start table (some (r.1.edit (.splice "bnbnzzcn".toUTF8 0 1 "bnbnb".toUTF8) .zero)))).bind fun trail =>
      ((Config.start table (some (r.1.edit (.splice "bnbnzzcn".toUTF8 0 8 "bnz".toUTF8) .zero))).doneAfter?
        table "bnz".toUTF8 5).map fun s =>
        ((Stats.ofEvents r.2).recoveries, (Tree.layer ⟨⟨0, table⟩, r.1⟩ 5).isEmpty,
          (Stats.ofEvents q.2).reused, (Stats.ofEvents q.2).recoveries, (Stats.ofEvents s.2).reused,
          trail.all fun c => (c.lookahead.isSome || c.errorMode ||
            (Walker.next table c.state c.position.bytes c.walker).1.all
              (Tree.isRenewed table (Tree.places ⟨⟨0, table⟩, r.1⟩ 5))) &&
            (Config.trail? table "bnbnbnbnzzcn".toUTF8 15 c.alone).any fun ds =>
              ds.all fun d => d.reductions != 0)) =
      some (0, true, 2, 1, 0, true) := by
    cbv
  obtain ⟨r, hr, hrun⟩ := Option.bind_eq_some_iff.mp hrun
  obtain ⟨q, hq, hrun⟩ := Option.bind_eq_some_iff.mp hrun
  obtain ⟨trail, htrail, hrun⟩ := Option.bind_eq_some_iff.mp hrun
  obtain ⟨s, hs, hrun⟩ := Option.map_eq_some_iff.mp hrun
  simp only [Prod.mk.injEq] at hrun
  obtain ⟨hrecoveries, hlayers, hreused, hrepaired, hnone, hall⟩ := hrun
  have hp := Language.parse_of_doneAfter? ⟨0, table⟩ "bnbnzzcn" none hr
  have hq := Language.parse_of_doneAfter? ⟨0, table⟩ "bnbnbnbnzzcn"
    (some ((⟨⟨0, table⟩, r.1⟩ : Tree).edit (.splice "bnbnzzcn".toUTF8 0 1 "bnbnb".toUTF8))) hq
  have hs := Language.parse_of_doneAfter? ⟨0, table⟩ "bnz"
    (some ((⟨⟨0, table⟩, r.1⟩ : Tree).edit (.splice "bnbnzzcn".toUTF8 0 8 "bnz".toUTF8))) hs
  -- what was computed for each step holds wherever the parse gets
  have hsteps := fun c hc => Bool.and_eq_true_iff.mp
    (List.all_eq_true.mp hall c (Config.mem_trail htrail hc))
  obtain ⟨p', hp', hshape⟩ := (Language.parse_again hq).2 grammar "bnbnzzcn" _ _ _ table_grammar hp
    hrecoveries (.splice 0 1 "bnbnb" .start (by decide +kernel)) rfl
    (by
      rintro n ⟨c, walker, hc, hlookahead, herror, hnext⟩
      have hoffered := (hsteps c hc).1
      rw [hlookahead, herror, show Walker.next table c.state c.position.bytes c.walker = (some n, walker)
        from hnext] at hoffered
      exact Tree.renews_of_isRenewed (fun m => Tree.mem_places (List.isEmpty_iff.mp hlayers)) hoffered)
    (by
      intro c d hc hd hstopped
      obtain ⟨ds, hds, hfree⟩ := (Option.any_eq_true ..).mp (hsteps c hc).2
      exact bne_iff_ne.mp (List.all_eq_true.mp hfree d (Config.mem_trail hds hd)) hstopped.1)
  exact ⟨_, _, p', hp, hq, hreused, hrepaired, hp', hshape, _, hs, hnone,
    (Language.parse_again hs).1 hnone⟩

end Sunken

end IncrementalParsing
