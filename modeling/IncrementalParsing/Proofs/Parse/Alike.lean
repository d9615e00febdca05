import IncrementalParsing.Proofs.Parse.Replay

/-!
# Standing alike

Two parsers of one text, neither with an old tree, that stand at the same place, in the same states,
with parts of the same shapes on their stacks, go on in the same way: they find the same tokens, reduce
alike, repair errors alike, and come to roots of the same shape.  What is kept with a part so that it
can be used again makes no difference.  Nor does it matter how many reductions are left, as long as
neither of the two is stopped for having none.

## Key results

- `buildNode_alike`: nodes are built alike, those of errors too
- `Config.Matched.act`: what is done about tokens of the same shape
- `Config.Alike.run`: parsers that stand alike come to the same
-/

namespace IncrementalParsing

open Subtree (SameChild)

/-! ## Entries and stacks -/

/-- Entries of the same shape, in the same state and at the same place. -/
structure Entry.Alike (e e' : Entry) : Prop extends e.Twin e' where
  position : e'.position = e.position

section Entries

variable {entries entries' : List Entry}

/-- Each entry is like itself. -/
theorem Entry.Alike.refl (e : Entry) : e.Alike e := ⟨⟨rfl, Subtree.sameShape_refl e.node⟩, rfl⟩

/-- Entries that are alike end at the same position. -/
theorem Entry.Alike.finish {e e' : Entry} (h : e.Alike e') : e'.finish = e.finish := by
  rw [Entry.finish, Entry.finish, h.position, Subtree.total_of_sameShape h.shape]

/-- So are the entries of a stack. -/
theorem alike_refl (entries : List Entry) : List.Forall₂ Entry.Alike entries entries :=
  List.forall₂_same.mpr fun e _ => .refl e

/-- What is alike is alike but for extras. -/
theorem twins_of_alike (h : List.Forall₂ Entry.Alike entries entries') :
    List.Forall₂ Entry.Twin entries entries' :=
  h.imp fun _ _ h => h.toTwin

/-- Where the first of some entries stands. -/
theorem position_head?_alike (h : List.Forall₂ Entry.Alike entries entries') :
    (entries'.head?).map (·.position) = (entries.head?).map (·.position) := by
  cases h with
  | nil => rfl
  | cons he _ => exact congrArg some he.position

/-- Where the last of some entries ends. -/
theorem finish_getLast?_alike (h : List.Forall₂ Entry.Alike entries entries') :
    (entries'.getLast?).map Entry.finish = (entries.getLast?).map Entry.finish := by
  rw [List.getLast?_eq_head?_reverse, List.getLast?_eq_head?_reverse]
  have hreverse := List.rel_reverse h
  generalize entries.reverse = front at hreverse
  generalize entries'.reverse = front' at hreverse
  cases hreverse with
  | nil => rfl
  | cons he _ => exact congrArg some he.finish

/-- Of entries that stand alike nodes are built that do. -/
theorem buildNode_alike {t : Table} (around around' : Surroundings) (symbol : Symbol)
    (h : List.Forall₂ Entry.Alike entries entries') (fields : List (Option FieldId))
    (fallback : Length) (state state' : StateId) :
    (buildNode t around symbol entries fields fallback state).1.sameShape
        (buildNode t around' symbol entries' fields fallback state').1 = true ∧
      (buildNode t around' symbol entries' fields fallback state').2 =
        (buildNode t around symbol entries fields fallback state).2 := by
  have hposition := congrArg (·.getD fallback) (position_head?_alike h)
  have hfinish := congrArg (·.getD fallback) (finish_getLast?_alike h)
  -- a node's padding and length come from its first and last entries
  have hpadding := padding_twins (twins_of_alike h)
  refine ⟨Subtree.sameShape_iff.mpr ⟨rfl, hpadding.symm, ?_, rfl, ?_, ?_⟩, hposition⟩
  · unfold buildNode
    dsimp only
    rw [hposition, hfinish, hpadding]
  · exact congrArg (symbol == Symbol.error || ·) (hasError_twins (twins_of_alike h)).symm
  · exact Build.children_twins symbol (twins_of_alike h) fields

end Entries

namespace Stack

variable {s s' : Stack}

/-- Stacks that are alike are in the same state, -/
theorem state_alike (h : List.Forall₂ Entry.Alike s s') : Stack.state s' = Stack.state s := by
  cases h with
  | nil => rfl
  | cons he _ => exact he.state

/-- stay alike where they are cut, -/
theorem keep_alike (h : List.Forall₂ Entry.Alike s s') (depth : Nat) :
    List.Forall₂ Entry.Alike (s.keep depth) (s'.keep depth) := by
  rw [keep, keep, ← h.length_eq]
  exact List.forall₂_drop _ h

/-- and are alike above the cut. -/
theorem above_alike (h : List.Forall₂ Entry.Alike s s') (depth : Nat) :
    List.Forall₂ Entry.Alike (s.above depth) (s'.above depth) := by
  rw [above, above, ← h.length_eq]
  exact List.rel_reverse (List.forall₂_take _ h)

/-- The extras on top, and what is below them. -/
theorem extras_alike (h : List.Forall₂ Entry.Alike s s') :
    List.Forall₂ Entry.Alike (s.takeWhile fun e => e.node.extra) (s'.takeWhile fun e => e.node.extra) ∧
      List.Forall₂ Entry.Alike (s.dropWhile fun e => e.node.extra)
        (s'.dropWhile fun e => e.node.extra) := by
  induction h with
  | nil => exact ⟨.nil, .nil⟩
  | @cons e e' s s' he hs ih =>
    rw [List.takeWhile_cons, List.takeWhile_cons, List.dropWhile_cons, List.dropWhile_cons,
      he.toTwin.extra]
    -- like entries are extras together
    cases e.node.extra with
    | true => exact ⟨.cons he ih.1, ih.2⟩
    | false => exact ⟨.nil, .cons he hs⟩

/-- What is popped from them is alike, and so is what is left. -/
theorem popRegular_alike {taken taken' : List Entry} (count : Nat)
    (htaken : List.Forall₂ Entry.Alike taken taken') (h : List.Forall₂ Entry.Alike s s') :
    List.Forall₂ Entry.Alike (popRegular count taken s).1 (popRegular count taken' s').1 ∧
      List.Forall₂ Entry.Alike (popRegular count taken s).2 (popRegular count taken' s').2 := by
  induction h generalizing count taken taken' with
  | nil => cases count <;> exact ⟨htaken, .nil⟩
  | @cons e e' s s' he hs ih =>
    cases count with
    | zero => exact ⟨htaken, .cons he hs⟩
    | succ count =>
      -- extras are popped without being counted, and entries that are alike are extras together
      rw [popRegular, popRegular, he.toTwin.extra]
      split
      · exact ih _ (.cons he htaken)
      · exact ih _ (.cons he htaken)

/-- The parts of a production are taken off alike. -/
theorem popChildren_alike {count : Nat} (h : List.Forall₂ Entry.Alike s s') {parts trailing : List Entry}
    {rest : Stack} (hpop : s.popChildren count = (parts, trailing, rest)) :
    ∃ parts' trailing' rest', s'.popChildren count = (parts', trailing', rest') ∧
      List.Forall₂ Entry.Alike parts parts' ∧ List.Forall₂ Entry.Alike trailing trailing' ∧
      List.Forall₂ Entry.Alike rest rest' := by
  obtain ⟨hextras, hbelow⟩ := extras_alike h
  obtain ⟨hparts, hrest⟩ := popRegular_alike count .nil hbelow
  cases hpop
  exact ⟨_, _, _, rfl, hparts, List.rel_reverse hextras, hrest⟩

/-- What a reduction puts on the stack. -/
theorem replacement_alike {t : Table} (around around' : Surroundings) (p : Production)
    {parts parts' trailing trailing' : List Entry} (hparts : List.Forall₂ Entry.Alike parts parts')
    (htrailing : List.Forall₂ Entry.Alike trailing trailing') (finish : Length) (exposed : StateId) :
    List.Forall₂ Entry.Alike (replacement t around p parts trailing finish exposed)
      (replacement t around' p parts' trailing' finish exposed) := by
  unfold replacement
  dsimp only
  rw [position_head?_alike htrailing]
  obtain ⟨hshape, hposition⟩ := buildNode_alike (t := t) around around' p.lhs hparts p.fields
    (((trailing.head?).map (·.position)).getD finish) exposed exposed
  -- the trailing extras move above the new node, with the states that were theirs
  refine List.rel_append (List.rel_reverse ?_) (.cons ⟨⟨rfl, hshape⟩, hposition⟩ .nil)
  rw [List.forall₂_map_left_iff, List.forall₂_map_right_iff]
  exact htrailing.imp fun _ _ h => ⟨⟨rfl, h.shape⟩, h.position⟩

end Stack

/-- Roots are built alike. -/
theorem sameShape_buildRoot (text : ByteArray) (symbol : Symbol)
    {children children' : List (Subtree × Option FieldId)}
    (h : List.Forall₂ SameChild children children') (token token' : Subtree) :
    (buildRoot text symbol children token).sameShape (buildRoot text symbol children' token') = true := by
  refine Subtree.sameShape_iff.mpr ⟨rfl, rfl, rfl, rfl, ?_, h⟩
  change children.any (·.1.hasError) = children'.any (·.1.hasError)
  induction h with
  | nil => rfl
  | cons hc _ ih =>
    rw [List.any_cons, List.any_cons, ih, (Subtree.sameShape_iff.mp hc.2).2.2.2.2.1]

/-! ## Configurations -/

namespace Config

variable {t : Table} {text : ByteArray} {c d : Config} {token token' : Subtree}

/-- Two parses without old trees match, but for the next token. -/
structure Matched (c d : Config) : Prop where
  walker : c.walker = [] ∧ d.walker = []
  stack : List.Forall₂ Entry.Alike c.stack d.stack
  position : d.position = c.position
  errorMode : d.errorMode = c.errorMode
  -- a cut that was made further back does not limit the next one
  limit : d.lastRecovery = c.lastRecovery ∨ (c.Passed ∧ d.Passed)

/-- Two parses without old trees stand alike: they match, and so do their next tokens. -/
structure Alike (t : Table) (text : ByteArray) (c d : Config) : Prop extends c.Matched d where
  token : (c.readied t text).1.sameShape (d.readied t text).1 = true

end Config

/-- What two steps lead to stands alike, or is a root of the same shape. -/
inductive Step.Alike (t : Table) (text : ByteArray) : Step → Step → Prop
  | next {c d : Config} (h : c.Alike t text d) : Step.Alike t text (.next c) (.next d)
  | done {root root' : Subtree} {events events' : List Event} (h : root.sameShape root' = true) :
      Step.Alike t text (.done root events) (.done root' events')

namespace Config

variable {t : Table} {text : ByteArray} {c d : Config} {token token' : Subtree}

/-- Parsers that match are in the same state. -/
theorem Matched.state (h : c.Matched d) : d.state = c.state := Stack.state_alike h.stack

/-- Both find the same token, if none is known yet. -/
theorem Matched.alike_of_none (h : c.Matched d) (hc : c.lookahead = none) (hd : d.lookahead = none) :
    c.Alike t text d := by
  refine { h with token := ?_ }
  rw [readied_of_none hc, readied_of_none hd, lex, lex, h.errorMode, h.position, h.state]
  exact Subtree.sameShape_iff.mpr ⟨rfl, rfl, rfl, rfl, rfl, .nil⟩

/-- They are alike as soon as they look ahead at the same token. -/
theorem Matched.alike_of_some (h : c.Matched d) (hc : c.lookahead = some token)
    (hd : d.lookahead = some token') (htoken : token.sameShape token' = true) :
    c.Alike t text d := by
  refine { h with token := ?_ }
  rwa [readied_of_lookahead hc, readied_of_lookahead hd]

/-- Behind the last recovery the whole stack may be cut. -/
theorem cutLimit_of_passed (h : c.Passed) : c.cutLimit = c.stack.length := by
  unfold cutLimit
  split
  · rename_i place depth hlast
    exact if_neg (Nat.ne_of_lt (h _ hlast))
  · rfl

/-- Parsers that match may cut as deep. -/
theorem Matched.cutLimit (h : c.Matched d) : d.cutLimit = c.cutLimit := by
  obtain hsame | ⟨hc, hd⟩ := h.limit
  · unfold Config.cutLimit
    rw [hsame, h.position, h.stack.length_eq]
  · rw [cutLimit_of_passed hc, cutLimit_of_passed hd, h.stack.length_eq]

/-- Stacks that are alike are cut at the same depth. -/
theorem cutDepth?_alike {s s' : Stack} (h : List.Forall₂ Entry.Alike s s') (a : Symbol) (limit : Nat) :
    cutDepth? t s' a limit = cutDepth? t s a limit := by
  induction limit with
  | zero => rfl
  | succ depth ih => rw [cutDepth?, cutDepth?, Stack.state_alike (Stack.keep_alike h depth), ih]

/-! ## What is done about a token -/

/-- A token is put on both stacks. -/
theorem Matched.shift (h : c.Matched d) (htoken : token.sameShape token' = true) (target : StateId) :
    (c.shift t token target).Alike t text (d.shift t token' target) := by
  have hmatched : (c.shift t token target).Matched (d.shift t token' target) := by
    refine ⟨h.walker, .cons ⟨⟨rfl, Subtree.sameShape_withExtra htoken false⟩, h.position⟩ h.stack, ?_,
      rfl, .inl rfl⟩
    exact congrArg₂ (· + ·) h.position (Subtree.total_of_sameShape htoken)
  exact hmatched.alike_of_none rfl rfl

/-- An extra is put on both stacks. -/
theorem Matched.shiftExtra (h : c.Matched d) (htoken : token.sameShape token' = true) :
    (c.shiftExtra t token).Alike t text (d.shiftExtra t token') := by
  have hposition : d.position + token'.total = c.position + token.total :=
    congrArg₂ (· + ·) h.position (Subtree.total_of_sameShape htoken)
  have hle : ∀ (x : Config) (n : Subtree), x.position.bytes ≤ (x.position + n.total).bytes :=
    fun x n => by rw [Length.bytes_add]; exact Nat.le_add_right _ _
  -- the last cut stays behind the position, since a token only moves it forward
  have hmatched : (c.shiftExtra t token).Matched (d.shiftExtra t token') := by
    refine ⟨h.walker, .cons ⟨⟨h.state, Subtree.sameShape_withExtra htoken true⟩, h.position⟩ h.stack,
      hposition, h.errorMode, h.limit.imp id fun ⟨hc, hd⟩ => ⟨?_, ?_⟩⟩
    · exact hc.of_le rfl (hle c token)
    · exact hd.of_le rfl (hle d token')
  exact hmatched.alike_of_none rfl rfl

/-- The parts of a production are replaced in both. -/
theorem Matched.reduce (h : c.Matched d) (htoken : token.sameShape token' = true) (p : Production) :
    (c.reduce t token p).Alike t text (d.reduce t token' p) := by
  obtain ⟨⟨parts, trailing, rest⟩, hpop⟩ : ∃ popped, c.stack.popChildren p.size = popped := ⟨_, rfl⟩
  obtain ⟨parts', trailing', rest', hpop', hparts, htrailing, hrest⟩ := Stack.popChildren_alike h.stack hpop
  have hmatched : (c.reduce t token p).Matched (d.reduce t token' p) := by
    refine ⟨h.walker, ?_, h.position, h.errorMode, h.limit⟩
    rw [stack_reduce t c token hpop, stack_reduce t d token' hpop', Stack.state_alike hrest, h.position]
    exact List.rel_append (Stack.replacement_alike _ _ p hparts htrailing _ _) hrest
  exact hmatched.alike_of_some rfl rfl htoken

/-- Both accept. -/
theorem Matched.acceptedRoot (h : c.Matched d) (token token' : Subtree) :
    (c.acceptedRoot t text token).sameShape (d.acceptedRoot t text token') = true := by
  refine sameShape_buildRoot text t.start (List.rel_flatMap (List.rel_reverse h.stack) ?_) token token'
  intro e e' he
  obtain ⟨hsymbol, -, -, -, -, hchildren⟩ := Subtree.sameShape_iff.mp he.shape
  dsimp only
  rw [he.toTwin.extra, ← hsymbol]
  split
  · exact hchildren
  · exact .cons ⟨rfl, he.shape⟩ .nil

/-! ## Repairs -/

/-- The nodes in which errors are gathered have the same shape and the same end. -/
theorem Matched.errorNode (h : c.Matched d) (token token' : Subtree) {entries entries' : List Entry}
    (hentries : List.Forall₂ Entry.Alike entries entries') (state : StateId) :
    (c.errorNode t token entries state).1.sameShape (d.errorNode t token' entries' state).1 = true ∧
      (d.errorNode t token' entries' state).2 = (c.errorNode t token entries state).2 := by
  unfold Config.errorNode
  rw [h.position]
  exact buildNode_alike _ _ _ hentries _ _ _ _

/-- Both stacks are cut at the same depth. -/
theorem Matched.cut (h : c.Matched d) (htoken : token.sameShape token' = true) (depth : Nat) :
    ((c.cut t token depth).renew t).Alike t text ((d.cut t token' depth).renew t) := by
  -- the same entries are kept, so what is cut off is alike too
  have hkept := Stack.keep_alike h.stack depth
  have hstate := Stack.state_alike hkept
  obtain ⟨hshape, hposition⟩ := h.errorNode (t := t) token token' (Stack.above_alike h.stack depth)
    (c.stack.keep depth).state
  have hmatched : ((c.cut t token depth).renew t).Matched ((d.cut t token' depth).renew t) := by
    refine ⟨h.walker, .cons ⟨⟨hstate, ?_⟩, ?_⟩ hkept, h.position, h.errorMode, .inl ?_⟩
    · rw [← hstate] at hshape
      exact Subtree.sameShape_withExtra hshape true
    · rw [← hstate] at hposition
      exact hposition
    · exact congrArg (fun place : Length => some (place.bytes, depth)) h.position
  exact hmatched.alike_of_some rfl rfl htoken

/-- A skipped token is taken up by the same kind of error. -/
theorem Matched.absorb (h : c.Matched d) (htoken : token.sameShape token' = true) :
    (c.absorb t token).1.sameShape (d.absorb t token').1 = true ∧
      (d.absorb t token').2.1 = (c.absorb t token).2.1 ∧
      List.Forall₂ Entry.Alike (c.absorb t token).2.2 (d.absorb t token').2.2 := by
  have hentry : Entry.Alike ⟨c.state, token, c.position⟩ ⟨d.state, token', d.position⟩ :=
    ⟨⟨h.state, htoken⟩, h.position⟩
  -- without an error on top the token becomes an error of its own
  have halone : (absorb.alone c t token ⟨c.state, token, c.position⟩).1.sameShape
      (absorb.alone d t token' ⟨d.state, token', d.position⟩).1 = true ∧
      (absorb.alone d t token' ⟨d.state, token', d.position⟩).2.1 =
        (absorb.alone c t token ⟨c.state, token, c.position⟩).2.1 ∧
      List.Forall₂ Entry.Alike (absorb.alone c t token ⟨c.state, token, c.position⟩).2.2
        (absorb.alone d t token' ⟨d.state, token', d.position⟩).2.2 := by
    unfold absorb.alone
    rw [Subtree.isError_of_sameShape htoken, h.state]
    split
    · exact ⟨htoken, h.position, h.stack⟩
    · obtain ⟨hshape, hposition⟩ := h.errorNode (t := t) token token'
        (.cons (h.state ▸ hentry) .nil) c.state
      exact ⟨hshape, hposition, h.stack⟩
  have hstack := h.stack
  unfold Config.absorb
  generalize c.stack = s at hstack
  generalize d.stack = s' at hstack
  cases hstack with
  | nil => exact halone
  | @cons top top' rest rest' htop hrest =>
    dsimp only
    rw [htop.toTwin.extra, Subtree.isError_of_sameShape htop.shape]
    split
    -- an error on top takes the token in, joined if it can be
    · have hjoined := Subtree.joinErrors?_sameShape htop.shape htoken
      generalize top.node.joinErrors? token = joined at hjoined
      generalize top'.node.joinErrors? token' = joined' at hjoined
      cases hjoined with
      | none =>
        rw [h.state]
        obtain ⟨hshape, hposition⟩ := h.errorNode (t := t) token token'
          (.cons htop (.cons (h.state ▸ hentry) .nil)) c.state
        exact ⟨hshape, hposition, hrest⟩
      | some hjoined => exact ⟨hjoined, htop.position, hrest⟩
    · exact halone

/-- The token is skipped in both. -/
theorem Matched.skip (h : c.Matched d) (htoken : token.sameShape token' = true) :
    ((c.skip t token).renew t).Alike t text ((d.skip t token').renew t) := by
  obtain ⟨hshape, hposition, hbelow⟩ := h.absorb (t := t) htoken
  have hle : ∀ (x : Config) (n : Subtree), x.position.bytes ≤ (x.position + n.total).bytes :=
    fun x n => by rw [Length.bytes_add]; exact Nat.le_add_right _ _
  -- the error node takes the token in, and nothing else changes
  have hmatched : ((c.skip t token).renew t).Matched ((d.skip t token').renew t) := by
    refine ⟨h.walker, .cons ⟨⟨h.state, Subtree.sameShape_withExtra hshape true⟩, hposition⟩ hbelow, ?_,
      rfl, h.limit.imp id fun ⟨hc, hd⟩ => ⟨?_, ?_⟩⟩
    · exact congrArg₂ (· + ·) h.position (Subtree.total_of_sameShape htoken)
    · exact hc.of_le rfl (hle c token)
    · exact hd.of_le rfl (hle d token')
  exact hmatched.alike_of_none rfl rfl

/-- Errors are repaired alike. -/
theorem Matched.recover (h : c.Matched d) (htoken : token.sameShape token' = true) :
    Step.Alike t text (c.recover t text token) (d.recover t text token') := by
  have hsymbol := (Subtree.sameShape_iff.mp htoken).1
  unfold Config.recover
  -- how deep to cut depends on the states and the symbol only
  rw [cutDepth?_alike h.stack, h.cutLimit, ← hsymbol]
  split
  · exact .next (h.cut htoken _)
  · split
    · obtain ⟨hshape, -⟩ := h.errorNode (t := t) token token' (List.rel_reverse h.stack) 0
      have hchild : SameChild ((c.errorNode t token c.stack.reverse 0).1, none)
          ((d.errorNode t token' d.stack.reverse 0).1, none) := ⟨rfl, hshape⟩
      exact .done (sameShape_buildRoot text t.start (.cons hchild .nil) token token')
    · exact .next (h.skip htoken)

/-! ## Runs -/

/-- About tokens of the same shape the same is done, unless reductions run out. -/
theorem Matched.act (h : c.Matched d) (htoken : token.sameShape token' = true)
    (hc : ∀ p, t.action? c.state token.symbol = some (.reduce p) → c.reductions ≠ 0)
    (hd : ∀ p, t.action? c.state token.symbol = some (.reduce p) → d.reductions ≠ 0) :
    Step.Alike t text (c.act t text token) (d.act t text token') := by
  have hsymbol := (Subtree.sameShape_iff.mp htoken).1
  unfold Config.act
  rw [h.state, ← hsymbol]
  -- by the action, which is the same as the states and the symbols are
  split
  · exact .next (h.shift htoken _)
  · rename_i p ha
    split
    · rename_i production hp
      rw [if_neg (hc p ha), if_neg (hd p ha)]
      exact .next (h.reduce htoken production)
    · exact h.recover htoken
  · exact .done (h.acceptedRoot token token')
  · split
    · exact .next (h.shiftExtra htoken)
    · exact h.recover htoken

/-- What is known of two parses is known when the next token is. -/
theorem Matched.readied (h : c.Matched d) : (c.readied t text).2.Matched (d.readied t text).2 := by
  have hframe := readied_lastRecovery t text
  -- scanning a token changes neither the stack nor the position
  obtain ⟨hstack, hposition, hwalker, herror, -⟩ := c.readied_frame t text
  obtain ⟨hstack', hposition', hwalker', herror', -⟩ := d.readied_frame t text
  refine ⟨⟨hwalker.trans h.walker.1, hwalker'.trans h.walker.2⟩, ?_, ?_, ?_, ?_⟩
  · rw [hstack, hstack']
    exact h.stack
  · rw [hposition, hposition', h.position]
  · rw [herror, herror', h.errorMode]
  · rw [hframe, hframe]
    refine h.limit.imp id fun ⟨hc, hd⟩ => ⟨hc.of_le (hframe c) ?_, hd.of_le (hframe d) ?_⟩
    · rw [hposition]
    · rw [hposition']

/-- Parses that stand alike take alike steps. -/
theorem Alike.step (ht : t.Checked) (h : c.Alike t text d) (hc : ¬c.Stopped t text)
    (hd : ¬d.Stopped t text) : Step.Alike t text (c.step t text) (d.step t text) := by
  have hsymbol := (Subtree.sameShape_iff.mp h.token).1
  obtain ⟨hstack, -, -, -, hreductions⟩ := c.readied_frame t text
  obtain ⟨-, -, -, -, hreductions'⟩ := d.readied_frame t text
  have hstate : (c.readied t text).2.state = c.state := congrArg Stack.state hstack
  rw [step_readied ht h.walker.1, step_readied ht h.walker.2]
  -- neither run is at its limit, so both act on the token
  refine h.toMatched.readied.act h.token (fun p hp hzero => hc ⟨hreductions ▸ hzero, p, ?_⟩)
    fun p hp hzero => hd ⟨hreductions' ▸ hzero, p, ?_⟩
  · rwa [hstate] at hp
  · rw [hstate] at hp
    rwa [h.toMatched.state, ← hsymbol]

/-- Parses that stand alike come to roots of the same shape, if neither is stopped on its way. -/
theorem Alike.run (ht : t.Checked) (h : c.Alike t text d)
    (hc : ∀ x, Reaches t text c x → ¬x.Stopped t text)
    (hd : ∀ x, Reaches t text d x → ¬x.Stopped t text) {root : Subtree} {events : List Event}
    (hrun : Config.run t text c = some (root, events)) :
    ∃ root' events', Config.run t text d = some (root', events') ∧ root.sameShape root' = true := by
  obtain ⟨last, es, hreach, hdone, -⟩ := run_eq_some_iff.mp hrun
  clear hrun
  -- from the last step back to the first
  induction hreach using Relation.ReflTransGen.head_induction_on generalizing d with
  | refl =>
    have hstep := h.step ht (hc _ .refl) (hd _ .refl)
    rw [hdone] at hstep
    generalize hlast : d.step t text = step at hstep
    cases hstep with
    | done hshape => exact ⟨_, _, run_of_done hlast, hshape⟩
  | @head c c' hm hreach ih =>
    have hstep := h.step ht (hc _ .refl) (hd _ .refl)
    rw [show c.step t text = .next c' from hm] at hstep
    generalize hlast : d.step t text = step at hstep
    cases hstep with
    | @next _ d' halike =>
      have hmoves : Moves t text d d' := hlast
      rw [run_of_next hlast]
      exact ih halike (fun x hx => hc x (.head hm hx)) fun x hx => hd x (.head hmoves hx)

end Config

end IncrementalParsing
