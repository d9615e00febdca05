import IncrementalParsing.Proofs.Parse.EditedTrees
import IncrementalParsing.Proofs.Parse.Reach
import IncrementalParsing.Proofs.Parse.Reuse

/-!
# What edits leave unchanged

A part of a tree depends on the bytes it covers, on those looked at after it, and on the byte before
it.  An edit goes into a part only if it touches these, so what lies in a part must not reach further
than the part.  Parses build such trees whatever the table is: nothing reaches further than one byte
past the end of the text, and nothing in a part further than the part itself.  Edits keep this for all
that they have not marked.

## Key results

- `settled_of_moves`: a step of a parse keeps all parts settled
- `Tree.Kept.edit`: an edit keeps what is known about the parts that are not marked
- `Language.unchanged_context`: what is not marked as changed has the same bytes around it
-/

namespace IncrementalParsing

open Subtree (SettledAll settled_iff settledAll_nil settledAll_cons settledAll_append settledAll_mono)

/-! ## Tokens -/

namespace Automaton

/-- What is looked at ends with the end of the text, which counts as a byte. -/
theorem scanFrom_seen_le (a : Automaton) (text : ByteArray) (start left place : Nat) (s : State)
    (longest : Option Nat) : (scanFrom a text start left place s longest).2 ≤ place + left + 1 := by
  induction left generalizing place s longest with
  | zero => exact Nat.le_refl _
  | succ left ih =>
    simp only [scanFrom]
    split
    · exact Nat.succ_le_succ (Nat.le_add_right _ _)
    · split
      · exact Nat.succ_le_succ (Nat.le_add_right _ _)
      · exact Nat.le_trans (ih _ _ _) (by omega)

/-- An automaton looks at most one byte behind the text. -/
theorem scan_seen_le {a : Automaton} {text : ByteArray} {start : Nat} (h : start ≤ text.size) :
    (a.scan text start).2 ≤ text.size + 1 := by
  have := scanFrom_seen_le a text start (text.size - start) start (a.state (a.start
    (if start = 0 then none else (byteAt? text (start - 1)).map (ByteKind.ofByte ·.toNat)))) none
  rw [scan]
  omega

end Automaton

namespace Lexer

variable {t : Table} {text : ByteArray}

/-- So does each attempt of a contest, -/
theorem examined_attempt_le {start : Nat} {direct : Bool} {contest : Contest} {symbol : Symbol}
    (hstart : start ≤ text.size) (h : contest.examined ≤ text.size + 1) :
    (contest.attempt t text start direct symbol).examined ≤ text.size + 1 := by
  unfold Contest.attempt
  split
  · rename_i info lexeme _ _
    split
    · exact h
    -- a scan looks at no byte behind the text but the end itself
    · have hseen := Automaton.scan_seen_le (a := lexeme.automaton) hstart
      dsimp only
      split
      · exact Nat.max_le.mpr ⟨h, hseen⟩
      · split <;> exact Nat.max_le.mpr ⟨h, hseen⟩
  · exact h

/-- and so does the search for the longest match. -/
theorem examined_longestMatch_le {symbols : List Symbol} {start examined : Nat} {direct : Bool}
    (hstart : start ≤ text.size) (h : examined ≤ text.size + 1) :
    (longestMatch t text symbols start direct examined).examined ≤ text.size + 1 := by
  unfold longestMatch
  generalize hc : (⟨none, examined⟩ : Contest) = contest
  have h : contest.examined ≤ text.size + 1 := hc ▸ h
  clear hc
  induction symbols generalizing contest with
  | nil => exact h
  | cons symbol rest ih => exact ih _ (examined_attempt_le hstart h)

end Lexer

namespace Subtree

/-- A settled part at a byte of a text ends in it, and reaches at most one byte past its end. -/
structure Within (text : ByteArray) (i : Nat) (n : Subtree) : Prop where
  settled : n.Settled
  finish : i + n.total.bytes ≤ text.size
  reach : i + n.total.bytes + n.lookahead ≤ text.size + 1

end Subtree

namespace Lexer

variable {t : Table}

/-- A token is within the text if its bytes and what was looked at for it are. -/
theorem within_token {text : ByteArray} {symbol : Symbol} {position start : Length}
    {finish examined : Nat} {mode : LexMode} {state : StateId} {extra : Bool}
    (hp : position.bytes ≤ start.bytes) (hs : start.bytes ≤ finish) (hf : finish ≤ text.size)
    (he : examined ≤ text.size + 1) : Subtree.Within text position.bytes
      (.leaf (token text symbol position start finish examined mode) state extra) := by
  -- what the token covers ends where the scan has said
  have htotal : position.bytes + (Subtree.leaf (token text symbol position start finish examined mode)
      state extra).total.bytes = finish := by
    rw [Subtree.bytes_total]
    change position.bytes + ((start.bytes - position.bytes) +
      (Length.span text start.bytes finish).bytes) = finish
    rw [Length.bytes_span]
    omega
  refine ⟨Subtree.settled_leaf .., by omega, ?_⟩
  rw [htotal]
  change finish + (examined - finish) ≤ text.size + 1
  omega

/-- A token that is found ends in the text, and nothing beyond its end was looked at. -/
theorem within_of_finds {s : String} {mode : LexMode} {position start : Length} {examined : Nat}
    {found : Token} (h : Finds t s.toUTF8 mode position start examined found)
    (hp : position.bytes ≤ start.bytes) (hs : start.bytes ≤ s.toUTF8.size)
    (he : examined ≤ s.toUTF8.size + 1) (state : StateId) (extra : Bool) :
    Subtree.Within s.toUTF8 position.bytes (.leaf found state extra) := by
  -- on the search; `examined` bounds all that was looked at
  induction h with
  | finish => exact within_token hp (Nat.le_refl _) hs (Nat.max_le.mpr ⟨he, Nat.le_refl _⟩)
  | trivia hlt hbest _ _ ih =>
    have hbounds := bounds_of_isMatch (Nat.le_of_lt hlt) (longestMatch_spec hbest)
    refine ih ?_ ?_ (examined_longestMatch_le hs he)
    · rw [Length.bytes_add, Length.bytes_span]
      omega
    · rw [Length.bytes_add, Length.bytes_span]
      omega
  | found hlt hbest _ =>
    have hbounds := bounds_of_isMatch (Nat.le_of_lt hlt) (longestMatch_spec hbest)
    exact within_token hp (Nat.le_of_lt hbounds.1) hbounds.2 (examined_longestMatch_le hs he)
  | unmatched hlt _ =>
    have hend := add_charWidth_le hlt
    exact within_token hp (Nat.le_add_right _ _) hend
      (Nat.max_le.mpr ⟨examined_longestMatch_le hs he, by omega⟩)

end Lexer

/-! ## Trees -/

/-- What is known of a tree that belongs to a text: its parts lie in each other, and those that are not
marked as changed are settled and reach no further than all that they lie in. -/
structure Tree.Kept (text : ByteArray) (tree : Tree) : Prop where
  size : tree.size ≤ text.size
  lookahead : tree.root.lookahead = 1
  nested : tree.Nested
  settled : ∀ n, tree.Has n → n.hasChanges = false → n.subtree.Settled
  reach : ∀ n, tree.Has n → n.hasChanges = false → ∀ outer ∈ n.above, n.place.reach ≤ outer.reach

namespace Tree

variable {text text' : ByteArray} {tree : Tree} {n m : Node} {e : Edit}

/-- What is stored in a nested tree lies inside all that it is stored in. -/
theorem Nested.inside (h : tree.Nested) (hn : tree.Has n) :
    ∀ outer ∈ n.place :: n.above, n.place.Inside outer := by
  induction hn with
  | root =>
    rintro outer (_ | ⟨_, ⟨⟩⟩)
    exact .refl _
  | @stored n m hn hm ih =>
    obtain ⟨p, hp, rfl⟩ := List.mem_map.mp hm
    intro outer houter
    -- the place is its own, or one further out
    obtain rfl | houter := List.mem_cons.mp houter
    · exact .refl _
    · exact (h n hn p hp).trans (ih outer houter)

/-- The root lies above every other node. -/
theorem Has.mem_above (hn : tree.Has n) : tree.node.place ∈ n.place :: n.above := by
  induction hn with
  | root => exact List.mem_cons_self ..
  | stored _ hm ih =>
    obtain ⟨p, -, rfl⟩ := List.mem_map.mp hm
    exact List.mem_cons_of_mem _ ih

/-- A node that is not marked ends in the text and reaches at most one byte past it. -/
theorem Kept.within (h : tree.Kept text) (hn : tree.Has n) (hc : n.hasChanges = false) :
    n.subtree.Within text n.place.position.bytes := by
  have hroot : tree.node.place.finish.bytes = tree.size := Nat.zero_add _
  have hinside := (h.nested.inside hn _ hn.mem_above).2
  have hsize := h.size
  refine ⟨h.settled n hn hc, ?_, ?_⟩
  · change n.place.finish.bytes ≤ text.size
    omega
  · change n.place.reach ≤ text.size + 1
    -- no unmarked node reaches further than the root
    have hreach : n.place.reach ≤ tree.node.place.reach := by
      obtain heq | habove := List.mem_cons.mp hn.mem_above
      · rw [heq]
      · exact h.reach n hn hc _ habove
    have hlookahead : tree.node.place.reach = tree.size + 1 := by
      rw [Place.reach, hroot, show tree.node.place.subtree.lookahead = 1 from h.lookahead]
    omega

/-- The children of a settled part lie inside it, are settled, and reach no further. -/
theorem settled_below {p : Place} (h : p.subtree.Settled) :
    ∀ q ∈ p.below, q.Inside p ∧ q.subtree.Settled ∧ q.reach ≤ p.reach := by
  -- children stand one behind the other, each within its own bounds
  have hall : ∀ (children : List (Subtree × Option FieldId)) (position : Length)
      {index k reach : Nat}, SettledAll position.bytes k reach children →
      ∀ q ∈ Place.listFrom position index children, position.bytes ≤ q.position.bytes ∧
        q.finish.bytes ≤ k ∧ q.subtree.Settled ∧ q.reach ≤ reach := by
    intro children
    induction children with
    | nil =>
      intro _ _ _ _ _ _ hq
      cases hq
    | cons c rest ih =>
      obtain ⟨n, field⟩ := c
      intro position index k reach h q hq
      rw [settledAll_cons] at h
      have hle : position.bytes + n.total.bytes ≤ k := h.2.2.le
      obtain rfl | hq := List.mem_cons.mp hq
      · exact ⟨Nat.le_refl _, hle, h.1, h.2.1⟩
      · obtain ⟨hstart, hrest⟩ := ih (position + n.total) h.2.2 q hq
        exact ⟨Nat.le_trans (Nat.le_add_right _ _) hstart, hrest⟩
  intro q hq
  obtain ⟨hstart, hend, hsettled, hreach⟩ := hall _ _ (h.children p.position.bytes) q hq
  exact ⟨⟨hstart, hend⟩, hsettled, hreach⟩

/-- A settled root that ends with the text is kept. -/
theorem kept_of_settled (h : tree.root.Settled) (hsize : tree.size ≤ text.size)
    (hlookahead : tree.root.lookahead = 1) : tree.Kept text := by
  -- the induction is on the way down: what is stored in a settled node is settled
  have hsettled : ∀ n, tree.Has n → n.subtree.Settled := by
    intro n hn
    induction hn with
    | root => exact h
    | stored _ hm ih =>
      obtain ⟨p, hp, rfl⟩ := List.mem_map.mp hm
      exact (settled_below ih p hp).2.1
  -- whether a node is marked does not matter in a tree that was not edited
  refine ⟨hsize, hlookahead, fun n hn p hp => (settled_below (hsettled n hn) p hp).1,
    fun n hn _ => hsettled n hn, fun n hn hc => ?_⟩
  clear hc
  induction hn with
  | root => exact fun _ h => by cases h
  | @stored n m hn hm ih =>
    obtain ⟨p, hp, rfl⟩ := List.mem_map.mp hm
    have hreach := (settled_below (hsettled n hn) p hp).2.2
    intro outer houter
    obtain rfl | houter := List.mem_cons.mp houter
    -- a node reads no further than the node around it, and so than all nodes around that one
    · exact hreach
    · exact Nat.le_trans hreach (ih outer houter)

/-- A node that is not marked after an edit is as it was, and the edit does not touch it. -/
theorem Kept.unchanged (h : tree.Kept text) (hn : tree.Has n) (hcarried : Node.Carried e n m)
    (hc : m.hasChanges = false) : m.subtree = n.subtree ∧ e.Spares n.place := by
  -- the edit came to the node, or left out a node around it
  obtain hedit | ⟨hsame, outer, houter, hspares, hinside⟩ := hcarried.subtree
  · cases haffects : e.affects n.place.position n.place.finish n.subtree.lookahead with
    | false => exact ⟨Node.subtree_of_spares hcarried haffects, haffects⟩
    | true =>
      rw [Node.hasChanges, hedit, Subtree.edit_of_affects (n := n.subtree) haffects] at hc
      cases hc
  · refine ⟨hsame, ?_⟩
    obtain rfl | habove := List.mem_cons.mp houter
    · exact hspares
    · have hreach := h.reach n hn (by rwa [Node.hasChanges, ← hsame]) outer habove
      rw [Edit.spares_iff] at hspares ⊢
      have := hinside.1
      omega

/-- An edit keeps what is known about the nodes that are not marked. -/
theorem Kept.edit (he : e.Replaces text text') (h : tree.Kept text) : (tree.edit e).Kept text' := by
  have hroot : (tree.edit e).root.lookahead = 1 :=
    (Subtree.lookahead_edit e tree.root .zero).trans h.lookahead
  refine ⟨?_, hroot, h.nested.edit he, fun m hm hc => ?_, fun m hm hc outer' houter' => ?_⟩
  · rw [size_edit he]
    exact he.move_le_size h.size
  -- what is below an unmarked node is as it was before the edit
  · obtain ⟨n, hn, hcarried⟩ := Node.exists_carried_of_edited he h.nested hm
    obtain ⟨hsame, -⟩ := h.unchanged hn hcarried hc
    rw [hsame]
    exact h.settled n hn (by rwa [Node.hasChanges, ← hsame])
  -- an unmarked node lies before the edit with all that it read, or behind it
  · obtain ⟨n, hn, hcarried⟩ := Node.exists_carried_of_edited he h.nested hm
    obtain ⟨hsame, hspares⟩ := h.unchanged hn hcarried hc
    obtain ⟨hplace, habove⟩ := List.forall₂_cons.mp hcarried.places
    obtain ⟨outer, houter, hmoved⟩ :=
      Subtree.exists_of_mem_forall₂ (List.Forall₂.flip habove) houter'
    have hreach := h.reach n hn (by rwa [Node.hasChanges, ← hsame]) outer houter
    have hinside := (h.nested.inside hn outer (List.mem_cons_of_mem _ houter)).2
    simp only [Place.reach, hplace.finish, hplace.lookahead, hmoved.finish, hmoved.lookahead]
    simp only [Place.reach] at hreach
    obtain hbefore | hbehind := Edit.spares_iff.mp hspares
    · -- the node stays where it is, and what it lies in still ends behind the edit if it did
      rw [Place.reach] at hbefore
      rw [Edit.move_of_le (i := n.place.finish.bytes) (by omega)]
      by_cases houter : outer.finish.bytes ≤ e.startByte
      · rwa [Edit.move_of_le houter]
      · have hmono := he.move_mono (Nat.le_of_not_le houter)
        rw [Edit.move_of_le (Nat.le_refl _)] at hmono
        omega
    -- behind the edit both ends move by the same
    · have hstart := he.start_le
      have hfinish : n.place.position.bytes ≤ n.place.finish.bytes := Nat.le_add_right _ _
      rw [Edit.move_of_ge (by omega) (by omega), Edit.move_of_ge (by omega) (by omega)]
      omega

end Tree

/-! ## Parses -/

/-- A part that a walker lists is a node of a tree that is kept. -/
def Walker.Offers (text : ByteArray) (p : Length × Subtree) : Prop :=
  ∃ tree n, Tree.Kept text tree ∧ tree.Has n ∧ n.place.position = p.1 ∧ n.subtree = p.2

namespace Walker

variable {text : ByteArray}

/-- A child that has a position also has an index. -/
theorem mem_listFrom_of_mem_placeAll (index : Nat) {position : Length}
    {children : List (Subtree × Option FieldId)} {q : Length × Subtree}
    (h : q ∈ Subtree.placeAll position children) :
    ∃ p ∈ Place.listFrom position index children, p.position = q.1 ∧ p.subtree = q.2 := by
  induction children generalizing position index with
  | nil => cases h
  | cons c rest ih =>
    obtain ⟨n, field⟩ := c
    obtain rfl | h := List.mem_cons.mp h
    · exact ⟨_, List.mem_cons_self .., rfl, rfl⟩
    · obtain ⟨p, hp, hsame⟩ := ih (index + 1) h
      exact ⟨p, List.mem_cons_of_mem _ hp, hsame⟩

/-- What a part consists of are nodes as well. -/
theorem Offers.placed {p : Length × Subtree} (h : Offers text p) :
    ∀ q ∈ p.2.placed p.1, Offers text q := by
  obtain ⟨tree, n, hkept, hn, hposition, hsubtree⟩ := h
  intro q hq
  rw [← hposition, ← hsubtree] at hq
  obtain ⟨place, hplace, hq⟩ := mem_listFrom_of_mem_placeAll 0 hq
  obtain ⟨m, hm, rfl⟩ := Node.exists_stored (n := n) hplace
  exact ⟨tree, m, hkept, .stored hn hm, hq⟩

/-- A part that is offered ends in the text. -/
theorem within_next {t : Table} {state : StateId} {place : Nat} {w after : Walker}
    {found : Option Subtree} (h : next t state place w = (found, after))
    (hw : ∀ p ∈ w, Offers text p) :
    (∀ p ∈ after, Offers text p) ∧ ∀ n, found = some n → n.Within text place := by
  obtain ⟨hafter, hfound⟩ := next_listed (fun p hp => Offers.placed hp) h hw
  refine ⟨hafter, fun n hn => ?_⟩
  obtain ⟨start, ⟨tree, node, hkept, hnode, hposition, hsubtree⟩, rfl, hreusable⟩ := hfound n hn
  -- a node that is marked is not offered
  have hchanged : n.changed = false := by
    unfold Subtree.isReusable at hreusable
    split at hreusable
    · cases hreusable
    · rename_i hmarks
      simp only [Bool.or_eq_true, not_or, Bool.not_eq_true] at hmarks
      exact hmarks.1.1
  dsimp only at hposition hsubtree
  rw [← hposition, ← hsubtree]
  exact hkept.within hnode (by rwa [Node.hasChanges, hsubtree])

end Walker

namespace Config

variable {t : Table} {text : ByteArray} {c c' : Config} {token : Subtree}

/-- The parts on the stack are settled and lie in the text one after the other, up to the current
place; so does what comes next, and what is left of the old tree belongs to a tree that is kept. -/
structure Settled (text : ByteArray) (c : Config) : Prop where
  stack : SettledRow 0 c.position.bytes (text.size + 1) c.stack.reverse
  position : c.position.bytes ≤ text.size
  lookahead : ∀ token, c.lookahead = some token → token.Within text c.position.bytes
  walker : ∀ p ∈ c.walker, Walker.Offers text p

/-- A token that is readied ends in the text. -/
theorem settled_of_readies {s : String} (hc : c.Settled s.toUTF8)
    (h : Readies t s.toUTF8 c token c') :
    c'.Settled s.toUTF8 ∧ token.Within s.toUTF8 c'.position.bytes := by
  -- once the lookahead is used up there is none to speak of
  have hnone : c.lookahead = none → ∀ token, c.lookahead = some token →
      token.Within s.toUTF8 c.position.bytes := by
    intro h token htoken
    rw [h] at htoken
    cases htoken
  cases h with
  | waiting h => exact ⟨hc, hc.lookahead token h⟩
  | @lexed walker h hw =>
    -- an old node that is not taken over leaves the walker with parts of it
    have hwalker : ∀ p ∈ walker, Walker.Offers s.toUTF8 p := by
      obtain ⟨-, rfl⟩ | ⟨-, hnext⟩ := hw
      · exact hc.walker
      · exact (Walker.within_next hnext hc.walker).1
    exact ⟨⟨hc.stack, hc.position, hnone h, hwalker⟩,
      Lexer.within_of_finds (Lexer.finds_next ..) (Nat.le_refl _) hc.position
        (Nat.le_succ_of_le hc.position) _ _⟩
  | reused h _ hnext =>
    obtain ⟨hwalker, hn⟩ := Walker.within_next hnext hc.walker
    exact ⟨⟨hc.stack, hc.position, hnone h, hwalker⟩, hn _ rfl⟩

/-- Putting something on the stack that ends in the text. -/
theorem settled_push (hc : c.Settled text) {n : Subtree} (state : StateId)
    (hn : n.Within text c.position.bytes) (hstack : c'.stack = ⟨state, n, c.position⟩ :: c.stack)
    (hposition : c'.position = c.position + n.total) (hlookahead : c'.lookahead = none)
    (hwalker : c'.walker = c.walker) : c'.Settled text := by
  refine ⟨?_, ?_, fun token h => ?_, hwalker ▸ hc.walker⟩
  · rw [hstack, hposition, List.reverse_cons, settledRow_append]
    exact ⟨_, hc.stack, rfl, hn.settled, hn.reach, rfl⟩
  · rw [hposition]
    exact hn.finish
  · rw [hlookahead] at h
    cases h

/-- Marking a node as an extra keeps it within the text. -/
theorem Within.withExtra {n : Subtree} {i : Nat} {extra : Bool} (h : n.Within text i) :
    (n.withExtra extra).Within text i := ⟨h.settled.withExtra extra, h.finish, h.reach⟩

/-- What the next token and the bytes looked at after it reach to. -/
theorem seen_surroundings (htoken : token.Within text c.position.bytes) :
    c.position.bytes + token.total.bytes ≤ (c.surroundings token).seen ∧
      (c.surroundings token).seen ≤ text.size + 1 :=
  ⟨Nat.le_add_right _ _, htoken.reach⟩

/-- A reduction keeps the stack settled. -/
theorem settled_reduce (hc : c.Settled text) (htoken : token.Within text c.position.bytes)
    (p : Production) : (c.reduce t token p).Settled text := by
  generalize hpop : c.stack.popChildren p.size = popped
  obtain ⟨parts, trailing, rest⟩ := popped
  have hstack := hc.stack
  rw [Stack.popChildren_spec hpop, settledRow_append] at hstack
  -- from below: what stays, the parts, and the extras above them
  obtain ⟨k, hstack, htrailing⟩ := hstack
  obtain ⟨i, hrest, hparts⟩ := settledRow_append.mp hstack
  -- a node without parts starts where the extras above it start, or where the parser stands
  have hfallback : (((trailing.head?).map (·.position)).getD c.position).bytes = k := by
    cases trailing with
    | nil => exact (show k = c.position.bytes from htrailing).symm
    | cons e rest => exact htrailing.1
  obtain ⟨hseen, hseen'⟩ := seen_surroundings htoken
  have hbuilt := settled_buildNode (t := t) p.lhs p.fields (Stack.state rest) hparts
    (fun hnil => by rw [hnil] at hparts; exact hfallback.trans (show i = k from hparts).symm)
    (Nat.le_trans htrailing.le (Nat.le_trans (Nat.le_add_right _ _) hseen)) hseen'
  unfold reduce
  rw [hpop]
  dsimp only
  generalize buildNode t (c.surroundings token) p.lhs parts p.fields
    (((trailing.head?).map (·.position)).getD c.position) (Stack.state rest) = built at hbuilt ⊢
  obtain ⟨n, position⟩ := built
  obtain ⟨hposition, hsettled, hend, hreach⟩ := hbuilt
  dsimp only at hposition hsettled hend hreach
  refine ⟨?_, hc.position, fun token' h => by cases h; exact htoken, hc.walker⟩
  -- the extras that came off go back on the stack above the new node
  change SettledRow 0 c.position.bytes _ (_ ++ _ :: rest : List Entry).reverse
  rw [List.reverse_append, List.reverse_reverse, List.reverse_cons, List.append_assoc,
    settledRow_append]
  refine ⟨i, hrest, hposition, hsettled, hreach, ?_⟩
  dsimp only
  rw [hend]
  exact settledRow_map_state _ htrailing

/-- An error made of entries on top of the stack. -/
theorem settled_errorNode (htoken : token.Within text c.position.bytes)
    {entries : List Entry} (state : StateId) {i k : Nat} (hrow : SettledRow i k (text.size + 1) entries)
    (hk : k ≤ c.position.bytes + token.total.bytes) (hnil : entries = [] → i = c.position.bytes) :
    (c.errorNode t token entries state).2.bytes = i ∧
      (c.errorNode t token entries state).1.Settled ∧
      i + (c.errorNode t token entries state).1.total.bytes = k ∧
      i + (c.errorNode t token entries state).1.total.bytes +
        (c.errorNode t token entries state).1.lookahead ≤ text.size + 1 :=
  have hseen := seen_surroundings htoken
  settled_buildNode Symbol.error [] state hrow (fun h => (hnil h).symm) (Nat.le_trans hk hseen.1)
    hseen.2

/-- What is on the stack stays settled where it is cut, -/
theorem settled_cut (hc : c.Settled text) (htoken : token.Within text c.position.bytes)
    (depth : Nat) : ((c.cut t token depth).renew t).Settled text := by
  have hstack := hc.stack
  rw [Stack.keep_above c.stack depth, settledRow_append] at hstack
  -- the row splits at the depth, and the upper part becomes the error
  obtain ⟨i, hkept, habove⟩ := hstack
  obtain ⟨hposition, hsettled, hend, hreach⟩ := settled_errorNode (t := t) htoken
    (c.stack.keep depth).state habove (Nat.le_add_right _ _)
    fun hnil => by rw [hnil] at habove; exact habove
  refine ⟨?_, hc.position, fun token' h => by cases h; exact htoken, hc.walker⟩
  change SettledRow 0 c.position.bytes _ (_ :: c.stack.keep depth : List Entry).reverse
  rw [List.reverse_cons, settledRow_append]
  exact ⟨i, hkept, hposition, hsettled.withExtra true, hreach, hend⟩

/-- The error that takes a token up, with what is below it. -/
theorem settled_absorb (hc : c.Settled text) (htoken : token.Within text c.position.bytes) :
    ∃ i, SettledRow 0 i (text.size + 1) (c.absorb t token).2.2.reverse ∧
      (c.absorb t token).2.1.bytes = i ∧ (c.absorb t token).1.Settled ∧
      i + (c.absorb t token).1.total.bytes = c.position.bytes + token.total.bytes ∧
      i + (c.absorb t token).1.total.bytes + (c.absorb t token).1.lookahead ≤ text.size + 1 := by
  have hentry : SettledRow c.position.bytes (c.position.bytes + token.total.bytes) (text.size + 1)
      [⟨c.state, token, c.position⟩] := ⟨rfl, htoken.settled, htoken.reach, rfl⟩
  -- an error on top of the stack stands right before the token
  have htop : ∀ {top : Entry} {rest : Stack}, c.stack = top :: rest →
      ∃ i, SettledRow 0 i (text.size + 1) rest.reverse ∧ top.position.bytes = i ∧
        top.node.Settled ∧ i + top.node.total.bytes + top.node.lookahead ≤ text.size + 1 ∧
        i + top.node.total.bytes = c.position.bytes := by
    intro top rest hstack
    have hrow := hc.stack
    rw [hstack, List.reverse_cons, settledRow_append] at hrow
    exact hrow
  -- what was skipped is the token alone, or is joined to an error on top of the stack
  have habsorbs := absorbs t c token
  generalize c.absorb t token = absorbed at habsorbs ⊢
  cases habsorbs with
  | bare => exact ⟨_, hc.stack, rfl, htoken.settled, rfl, htoken.reach⟩
  | alone =>
    obtain ⟨hposition, hsettled, hend, hreach⟩ := settled_errorNode (t := t) htoken c.state
      hentry (Nat.le_refl _) fun hnil => by cases hnil
    exact ⟨_, hc.stack, hposition, hsettled, hend, hreach⟩
  | joined hstack _ _ hjoined =>
    obtain ⟨i, hrest, hposition, hsettled, -, hend⟩ := htop hstack
    obtain ⟨hsettled', htotal, hlookahead⟩ := Subtree.settled_joinErrors hjoined hsettled
    have := htoken.reach
    exact ⟨i, hrest, hposition, hsettled', by dsimp only; omega, by dsimp only; omega⟩
  -- an error that cannot be joined becomes a part of a new one, with the token
  | @both top rest hstack =>
    obtain ⟨i, hrest, hposition, hsettled, hreach, hend⟩ := htop hstack
    have hboth : SettledRow i (c.position.bytes + token.total.bytes) (text.size + 1)
        [top, ⟨c.state, token, c.position⟩] := ⟨hposition, hsettled, hreach, hend ▸ hentry⟩
    obtain ⟨hposition', hsettled', hend', hreach'⟩ := settled_errorNode (t := t) htoken
      c.state hboth (Nat.le_refl _) fun hnil => by cases hnil
    exact ⟨i, hrest, hposition', hsettled', hend', hreach'⟩

/-- and where a token is skipped. -/
theorem settled_skip (hc : c.Settled text) (htoken : token.Within text c.position.bytes) :
    ((c.skip t token).renew t).Settled text := by
  obtain ⟨i, hbelow, hposition, hsettled, hend, hreach⟩ := settled_absorb (t := t) hc htoken
  refine ⟨?_, htoken.finish, (fun _ h => by cases h), hc.walker⟩
  change SettledRow 0 (c.position.bytes + token.total.bytes) _
    (_ :: (c.absorb t token).2.2 : List Entry).reverse
  rw [List.reverse_cons, settledRow_append]
  exact ⟨i, hbelow, hposition, hsettled.withExtra true, hreach, hend⟩

/-- What is done about a token keeps all parts settled. -/
theorem settled_of_continues (hc : c.Settled text) (htoken : token.Within text c.position.bytes)
    (h : Continues t c token c') : c'.Settled text := by
  cases h with
  | shift | extra => exact settled_push hc _ (Within.withExtra htoken) rfl rfl rfl rfl
  | reduce => exact settled_reduce hc htoken _
  | cut => exact settled_cut hc htoken _
  | skip => exact settled_skip hc htoken

/-- A step of a parse keeps all parts settled. -/
theorem settled_of_moves {s : String} (hc : c.Settled s.toUTF8) (h : Moves t s.toUTF8 c c') :
    c'.Settled s.toUTF8 := by
  obtain ⟨token, ready, hready, hgoes⟩ | ⟨n, ready, hready, -, -, rfl⟩ := moves_cases h
  · obtain ⟨hsettled, htoken⟩ := settled_of_readies hc hready
    exact settled_of_continues hsettled htoken hgoes
  · obtain ⟨hsettled, hn⟩ := settled_of_readies hc hready
    exact settled_push hsettled _ hn rfl rfl rfl rfl

/-- What the root of an accepted stack consists of is settled. -/
theorem settledAll_accepted {i k reach : Nat} {entries : List Entry}
    (h : SettledRow i k reach entries) :
    SettledAll i k reach (entries.flatMap fun e =>
      if !e.node.extra && e.node.symbol == t.start then e.node.children else [(e.node, none)]) := by
  induction entries generalizing i with
  | nil => exact settledAll_nil.mpr (Nat.le_of_eq h)
  | cons e rest ih =>
    obtain ⟨-, hsettled, hreach, hrest⟩ := h
    rw [List.flatMap_cons, settledAll_append]
    refine ⟨_, ?_, ih hrest⟩
    -- the start's own node is replaced by its children
    split
    · exact settledAll_mono (Nat.le_refl _) (Nat.le_refl _) hreach (hsettled.children i)
    · exact settledAll_cons.mpr ⟨hsettled, hreach, settledAll_nil.mpr (Nat.le_refl _)⟩

/-- The root that a parse ends with is settled, and reaches one byte past the end of the text. -/
theorem settled_of_done {s : String} {root : Subtree} {events : List Event}
    (hc : c.Settled s.toUTF8) (h : c.step t s.toUTF8 = .done root events) :
    root.Settled ∧ root.total.bytes = s.toUTF8.size ∧ root.lookahead = 1 := by
  -- every root spans the text, and sees one byte past it
  have hroot : ∀ {children : List (Subtree × Option FieldId)} {k : Nat} {symbol : Symbol}
      {token : Subtree}, k ≤ s.toUTF8.size → SettledAll 0 k (s.toUTF8.size + 1) children →
      (buildRoot s.toUTF8 symbol children token).Settled ∧
        (buildRoot s.toUTF8 symbol children token).total.bytes = s.toUTF8.size ∧
        (buildRoot s.toUTF8 symbol children token).lookahead = 1 := by
    intro children k symbol token hk hall
    have htotal : (buildRoot s.toUTF8 symbol children token).total.bytes = s.toUTF8.size := by
      rw [Subtree.bytes_total]
      change 0 + (Length.of s.toUTF8).bytes = _
      rw [Length.bytes_of, Nat.zero_add]
    refine ⟨settled_iff.mpr ⟨rfl, ?_⟩, htotal, rfl⟩
    rw [htotal]
    exact settledAll_mono (Nat.le_refl _) hk (Nat.le_refl _) hall
  obtain ⟨token, ready, hready, hstops⟩ := done_cases h
  obtain ⟨hsettled, htoken⟩ := settled_of_readies hc hready
  cases hstops with
  | accept => exact hroot hsettled.position (settledAll_accepted hsettled.stack)
  -- where nothing was accepted all of the stack is put into one error
  | wrap =>
    obtain ⟨-, herror, hend, hreach⟩ := settled_errorNode (t := t) htoken 0
      hsettled.stack (Nat.le_add_right _ _) fun hnil => by
        have := hsettled.stack
        rw [hnil] at this
        exact this
    exact hroot hsettled.position
      (settledAll_cons.mpr ⟨herror, hreach, settledAll_nil.mpr (Nat.le_of_eq hend)⟩)

/-- A parse that starts with an old tree has read nothing yet. -/
theorem settled_start {old : Option Tree} (h : ∀ tree, old = some tree → tree.Kept text) :
    (start t (old.map (·.root))).Settled text := by
  refine ⟨rfl, Nat.zero_le _, (fun _ h => by cases h), ?_⟩
  cases old with
  | none =>
    intro p hp
    cases hp
  | some tree =>
    exact Walker.Offers.placed (p := (.zero, tree.root)) ⟨tree, tree.node, h tree rfl, .root, rfl, rfl⟩

end Config

namespace Language

variable {l : Language} {text : String}

/-- A parse gives a tree that is kept, whatever the table is. -/
theorem kept_of_parse {old : Option Tree} (hold : ∀ tree, old = some tree → tree.Kept text.toUTF8)
    {p : Parsed} (h : l.parse text old = some p) : p.tree.Kept text.toUTF8 := by
  have hstart : (Config.start l.table (l.usable? old)).Settled text.toUTF8 :=
    Config.settled_start fun tree htree =>
      hold tree (Option.filter_eq_some_iff.mp htree).1
  obtain ⟨c, root, es, hsettled, hdone, rfl⟩ := invariant_of_parse h hstart fun c c' =>
    Config.settled_of_moves
  obtain ⟨hroot, hsize, hlookahead⟩ := Config.settled_of_done hsettled hdone
  exact Tree.kept_of_settled hroot (Nat.le_of_eq hsize) hlookahead

/-- A tree that belongs to a text is kept. -/
theorem kept_of_treeFor {tree : Tree} (h : l.TreeFor text tree) : tree.Kept text.toUTF8 := by
  induction h with
  | parsed _ h ih => exact kept_of_parse ih h
  | edited start stop replacement _ htext ih =>
    rw [htext]
    exact ih.edit (Edit.replaces_splice _ replacement start stop)

end Language

/-! ## Bytes around a node -/

/-- The `len` bytes from a place of a text on, with the byte before them, are those around a place of
another text.  The end of a text counts as a byte of its own, and its start as the byte before the
first. -/
structure SameAround (text text' : ByteArray) (i i' len : Nat) : Prop where
  start : i = 0 ↔ i' = 0
  before : 0 < i → byteAt? text' (i' - 1) = byteAt? text (i - 1)
  bytes : ∀ j < len, byteAt? text' (i' + j) = byteAt? text (i + j)
  within : i + len ≤ text.size + 1 ∧ i' + len ≤ text'.size + 1

namespace SameAround

variable {text text' text'' : ByteArray} {i i' i'' len : Nat}

/-- Every text is the same as itself around a place. -/
theorem refl (h : i + len ≤ text.size + 1) : SameAround text text i i len :=
  ⟨Iff.rfl, fun _ => rfl, fun _ _ => rfl, h, h⟩

/-- Texts that are the same around a place as a third one are so as each other. -/
theorem trans (h : SameAround text text' i i' len) (h' : SameAround text' text'' i' i'' len) :
    SameAround text text'' i i'' len where
  start := h.start.trans h'.start
  before hi := (h'.before (Nat.pos_of_ne_zero fun h0 => absurd (h.start.mpr h0) (Nat.ne_of_gt hi))).trans
    (h.before hi)
  bytes j hj := (h'.bytes j hj).trans (h.bytes j hj)
  within := ⟨h.within.1, h'.within.2⟩

end SameAround

namespace Edit

variable {e : Edit} {text text' : ByteArray}

/-- Before an edit the bytes stay, -/
theorem Replaces.byteAt?_before (he : e.Replaces text text') {i : Nat} (h : i < e.startByte) :
    byteAt? text' i = byteAt? text i := by
  have := le_size_of_isBoundary he.start_boundary
  have := le_size_of_isBoundary he.start_boundary'
  exact byteAt?_eq_of_extract (he.extract_before (Nat.le_refl _)) h (by omega) h (by omega)

/-- behind the end of a text there are none, -/
theorem byteAt?_of_size_le {i : Nat} (h : text.size ≤ i) : byteAt? text i = none :=
  dif_neg (Nat.not_lt.mpr h)

/-- and behind an edit they are moved. -/
theorem Replaces.byteAt?_after (he : e.Replaces text text') {i : Nat} (h : e.oldEndByte ≤ i) :
    byteAt? text' (e.newEndByte + (i - e.oldEndByte)) = byteAt? text i := by
  have hsize := he.size_eq
  by_cases hi : i < text.size
  · exact byteAt?_eq_of_extract (he.extract_after h (Nat.le_of_lt hi) (Nat.le_refl _)) (by omega)
      (by omega) hi (Nat.le_refl _)
  · rw [byteAt?_of_size_le (by omega), byteAt?_of_size_le (by omega)]

/-- Around what an edit spares the bytes stay the same. -/
theorem Replaces.sameAround (he : e.Replaces text text') {p : Place} (h : e.Spares p)
    (hsize : p.reach ≤ text.size + 1) : SameAround text text' p.position.bytes
      (e.move p.position.bytes) (p.subtree.total.bytes + p.subtree.lookahead) := by
  have hsizes := he.size_eq
  have hend := le_size_of_isBoundary he.oldEnd_boundary
  have hstart := he.start_le
  have hstart' := he.start_le'
  have hnew := le_size_of_isBoundary he.newEnd_boundary
  have hreach : p.reach = p.position.bytes + p.subtree.total.bytes + p.subtree.lookahead := rfl
  -- before the edit nothing has moved, and behind it everything has, by one distance
  obtain h | h := spares_iff.mp h
  · rw [move_of_le (i := p.position.bytes) (by omega)]
    exact ⟨Iff.rfl, fun hpos => he.byteAt?_before (by omega), fun j hj => he.byteAt?_before (by omega),
      by omega, by omega⟩
  · rw [move_of_ge (by omega) (by omega)]
    refine ⟨by omega, fun hpos => ?_, fun j hj => ?_, by omega, by omega⟩
    · have hbyte := he.byteAt?_after (i := p.position.bytes - 1) (by omega)
      rwa [show e.newEndByte + (p.position.bytes - 1 - e.oldEndByte) =
        e.newEndByte + (p.position.bytes - e.oldEndByte) - 1 by omega] at hbyte
    · have hbyte := he.byteAt?_after (i := p.position.bytes + j) (by omega)
      rwa [show e.newEndByte + (p.position.bytes + j - e.oldEndByte) =
        e.newEndByte + (p.position.bytes - e.oldEndByte) + j by omega] at hbyte

end Edit

namespace Tree

variable {text text' : String} {tree tree' : Tree} {edits : List (String × Edit)}

/-- Edits keep what is known about the nodes that are not marked. -/
theorem Kept.edited (h : tree.Kept text.toUTF8) (hedited : tree.Edited text edits text' tree') :
    tree'.Kept text'.toUTF8 := by
  induction hedited with
  | start => exact h
  | splice start stop replacement _ htext ih =>
    rw [htext]
    exact ih.edit (Edit.replaces_splice _ replacement start stop)

/-- What is not marked after some edits is as it was, and has the same bytes around it. -/
theorem Kept.sameAround (h : tree.Kept text.toUTF8) (hedited : tree.Edited text edits text' tree')
    {m : Node} (hm : tree'.Has m) (hc : m.hasChanges = false) :
    ∃ n, tree.Has n ∧ m.path = n.path ∧ m.subtree = n.subtree ∧
      SameAround text.toUTF8 text'.toUTF8 n.place.position.bytes m.place.position.bytes
        (n.subtree.total.bytes + n.subtree.lookahead) := by
  -- the induction is on the edits, and adds one to those before it
  induction hedited generalizing m with
  | start =>
    refine ⟨m, hm, rfl, rfl, .refl ?_⟩
    rw [← Nat.add_assoc]
    exact (h.within hm hc).reach
  -- the node was unmarked before the last edit too, or it would still be marked
  | @splice edits text' text'' tree' start stop replacement hedited htext ih =>
    have he := Edit.replaces_splice text' replacement start stop
    rw [← htext] at he
    have hkept := h.edited hedited
    obtain ⟨n', hn', hcarried⟩ := Node.exists_carried_of_edited he hkept.nested hm
    obtain ⟨hsame, hspares⟩ := hkept.unchanged hn' hcarried hc
    have hc' : n'.hasChanges = false := by rwa [Node.hasChanges, ← hsame]
    obtain ⟨n, hn, hpath, hsubtree, haround⟩ := ih hn' hc'
    have hstep := he.sameAround hspares (hkept.within hn' hc').reach
    rw [← hcarried.place.start, show n'.place.subtree = n.subtree from hsubtree] at hstep
    exact ⟨n, hn, hcarried.path.trans hpath, hsame.trans hsubtree, haround.trans hstep⟩

end Tree

end IncrementalParsing
