import IncrementalParsing.Proofs.Parse.Likeness
import IncrementalParsing.Proofs.Parse.Lookahead
import IncrementalParsing.Proofs.Parse.Reach
import IncrementalParsing.Proofs.Parse.Reuse

/-!
# Going the same way again

A parser that comes into the state in which an earlier parse began something, and finds the bytes that
were looked at then, goes the same way again: it finds the same tokens, shifts and reduces alike, and
puts entries of the same shapes on its stack.  A `Stretch` is what an earlier parse did above one of its
stacks; it replays if every parser that resumes it gets to the same.

## Key results

- `replays_start`: nothing is done yet
- `Replays.shift`, `Replays.extra`, `Replays.reduce`: a stretch that goes on by a step replays if it did
  before
-/

namespace IncrementalParsing

/-! ## Tokens -/

namespace Lexer

/-- A token knows the mode it was looked for in. -/
theorem lexMode_of_finds {t : Table} {text : ByteArray} {mode : LexMode} {position start : Length}
    {examined : Nat} {found : Token} (h : Finds t text mode position start examined found) :
    found.lexMode = mode := by
  induction h with
  | trivia _ _ _ _ ih => exact ih
  | finish | found | unmatched => rfl

end Lexer

/-- A token that was found after a place, as a part of a tree. -/
def FoundAt (t : Table) (text : ByteArray) (position : Length) (mode : LexMode) (n : Subtree) : Prop :=
  ∃ state, n = .leaf (Lexer.next t text position mode) state
    (t.isExtra (Lexer.next t text position mode).symbol)

section FoundAt

variable {t : Table} {text : ByteArray} {position : Length} {mode : LexMode} {n : Subtree}

/-- A token that was found has the symbol that `Lexer.next` gives. -/
theorem FoundAt.symbol (h : FoundAt t text position mode n) :
    n.symbol = (Lexer.next t text position mode).symbol := by
  obtain ⟨state, rfl⟩ := h
  rfl

/-- Nothing is in it. -/
theorem FoundAt.children (h : FoundAt t text position mode n) : n.children = [] := by
  obtain ⟨state, rfl⟩ := h
  rfl

/-- It covers as much as `Lexer.next` says, -/
theorem FoundAt.total (h : FoundAt t text position mode n) :
    n.total = (Lexer.next t text position mode).total := by
  obtain ⟨state, rfl⟩ := h
  rfl

/-- and as much was looked at for it. -/
theorem FoundAt.lookahead (h : FoundAt t text position mode n) :
    n.lookahead = (Lexer.next t text position mode).lookahead := by
  obtain ⟨state, rfl⟩ := h
  rfl

/-- The mode in which it was looked for is kept with it. -/
theorem FoundAt.firstMode (h : FoundAt t text position mode n) : n.firstMode = some mode := by
  obtain ⟨state, rfl⟩ := h
  exact congrArg some (Lexer.lexMode_of_finds (Lexer.finds_next t text position mode))

/-- So it can have been found in one mode only. -/
theorem FoundAt.mode_unique {mode' : LexMode} (h : FoundAt t text position mode n)
    (h' : FoundAt t text position mode' n) : mode = mode' :=
  Option.some.inj (h.firstMode.symm.trans h'.firstMode)

/-- Tokens found in the same way have the same shape, if they are marked in the same way. -/
theorem FoundAt.sameShape {text' : ByteArray} {position' : Length} {n' : Subtree}
    (h : FoundAt t text position mode n) (h' : FoundAt t text' position' mode n')
    (hsame : Lexer.next t text' position' mode = Lexer.next t text position mode) (mark : Bool) :
    (n.withExtra mark).sameShape (n'.withExtra mark) = true := by
  obtain ⟨state, rfl⟩ := h
  obtain ⟨state', rfl⟩ := h'
  rw [hsame]
  exact Subtree.sameShape_leaf ..

/-- Tokens found at the same place in the same mode are alike. -/
theorem FoundAt.sameShape_same {n' : Subtree} (h : FoundAt t text position mode n)
    (h' : FoundAt t text position mode n') : n.sameShape n' = true := by
  obtain ⟨state, rfl⟩ := h
  obtain ⟨state', rfl⟩ := h'
  exact Subtree.sameShape_iff.mpr ⟨rfl, rfl, rfl, rfl, rfl, .nil⟩

end FoundAt

/-! ## Steps without an old tree -/

/-- What happens in a parse without errors before it accepts, where nothing is taken over. -/
def Event.IsPlain : Event → Prop
  | .lex .. | .shift .. | .extra .. | .reduce .. => True
  | .reuse .. | .recover .. | .accept .. => False

/-- Events to which only such have been added. -/
def PlainSteps (before after : List Event) : Prop :=
  ∃ new, after = new ++ before ∧ ∀ e ∈ new, e.IsPlain

/-- No step at all is plain. -/
theorem PlainSteps.refl (events : List Event) : PlainSteps events events :=
  ⟨[], rfl, fun _ h => by cases h⟩

/-- A plain event can be added, -/
theorem PlainSteps.cons {before after : List Event} {e : Event} (h : PlainSteps before after)
    (he : e.IsPlain) : PlainSteps before (e :: after) := by
  obtain ⟨new, rfl, hnew⟩ := h
  exact ⟨e :: new, rfl, List.forall_mem_cons.mpr ⟨he, hnew⟩⟩

/-- and so can any number of them. -/
theorem PlainSteps.trans {a b c : List Event} (h : PlainSteps a b) (h' : PlainSteps b c) :
    PlainSteps a c := by
  obtain ⟨new, rfl, hnew⟩ := h
  obtain ⟨new', rfl, hnew'⟩ := h'
  refine ⟨new' ++ new, (List.append_assoc ..).symm, fun e he => ?_⟩
  exact (List.mem_append.mp he).elim (hnew' e) (hnew e)

namespace Config

variable {t : Table} {text : ByteArray} {c : Config} {token : Subtree}

/-- The stack was last cut at a place that the parse has left. -/
def Passed (c : Config) : Prop := ∀ r ∈ c.lastRecovery, r.1 < c.position.bytes

/-- A parse that goes on in the text has left what it had left before. -/
theorem Passed.of_le {d : Config} (h : c.Passed) (hrecovery : d.lastRecovery = c.lastRecovery)
    (hle : c.position.bytes ≤ d.position.bytes) : d.Passed :=
  fun r hr => Nat.lt_of_lt_of_le (h r (hrecovery ▸ hr)) hle

/-- The next token, and where the parse stands when it is known. -/
def readied (t : Table) (text : ByteArray) (c : Config) : Subtree × Config :=
  match c.lookahead with
  | some token => (token, c)
  | none => c.lex t text

/-- A reduction is due, but no more are allowed. -/
def Stopped (t : Table) (text : ByteArray) (c : Config) : Prop :=
  c.reductions = 0 ∧ ∃ p, t.action? c.state (c.readied t text).1.symbol = some (.reduce p)

/-- A token that waits is ready. -/
theorem readied_of_lookahead (h : c.lookahead = some token) : c.readied t text = (token, c) := by
  rw [readied, h]

/-- Else the next token is looked for in the text. -/
theorem readied_of_none (h : c.lookahead = none) : c.readied t text = c.lex t text := by
  rw [readied, h]

/-- What readying a token leaves as it is. -/
theorem readied_frame (t : Table) (text : ByteArray) (c : Config) :
    (c.readied t text).2.stack = c.stack ∧ (c.readied t text).2.position = c.position ∧
      (c.readied t text).2.walker = c.walker ∧ (c.readied t text).2.errorMode = c.errorMode ∧
      (c.readied t text).2.reductions = c.reductions := by
  unfold readied
  split <;> exact ⟨rfl, rfl, rfl, rfl, rfl⟩

/-- Readying a token does not forget the last cut. -/
theorem readied_lastRecovery (t : Table) (text : ByteArray) (c : Config) :
    (c.readied t text).2.lastRecovery = c.lastRecovery := by
  unfold readied
  split <;> rfl

/-- It notes at most that a token was found, which is plain. -/
theorem readied_events (t : Table) (text : ByteArray) (c : Config) :
    PlainSteps c.events (c.readied t text).2.events := by
  unfold readied
  split
  · exact .refl _
  · exact .cons (.refl _) trivial

/-- Without errors the next token is looked for in the lex mode of the state. -/
theorem foundAt_lex (t : Table) (text : ByteArray) (h : c.lookahead = none)
    (he : c.errorMode = false) :
    FoundAt t text c.position (t.lexMode c.state) (c.readied t text).1 := by
  rw [readied_of_none h]
  refine ⟨c.state, ?_⟩
  unfold lex
  rw [he]
  rfl

/-- Without an old tree a step acts on the next token. -/
theorem step_readied (ht : t.Checked) (hw : c.walker = []) :
    c.step t text = (c.readied t text).2.act t text (c.readied t text).1 := by
  unfold step readied
  cases c.lookahead with
  | some token => rfl
  | none =>
    -- with no old tree the next token is always scanned
    have hfetch : c.fetch t text = c.lex t text := by
      unfold fetch
      rw [hw, Walker.next]
      dsimp only
      rw [show ({ c with walker := [] } : Config) = c by rw [← hw]]
      split <;> rfl
    dsimp only
    rw [hfetch]
    exact if_pos (Lexer.terminal_next ht)

/-- What `act` does where the table says to shift, -/
theorem act_shift {target : StateId} (h : t.action? c.state token.symbol = some (.shift target)) :
    c.act t text token = .next (c.shift t token target) := by
  rw [act, h]

/-- where it says nothing about an extra, -/
theorem act_extra (h : t.action? c.state token.symbol = none) (hf : token.symbol ≠ Symbol.finish)
    (hx : t.isExtra token.symbol = true) : c.act t text token = .next (c.shiftExtra t token) := by
  rw [act, h]
  exact if_pos (by simp [hf, hx])

/-- and where it says to reduce and some reductions are left. -/
theorem act_reduce {p : ProductionId} {production : Production}
    (h : t.action? c.state token.symbol = some (.reduce p))
    (hp : t.production? p = some production) (hr : c.reductions ≠ 0) :
    c.act t text token = .next (c.reduce t token production) := by
  rw [act, h]
  dsimp only
  rw [hp]
  exact if_neg hr

end Config

/-! ## How far nodes reach -/

/-- A node reaches as far as its parts and as the token that comes after them. -/
theorem le_reach_buildNode {t : Table} (around : Surroundings) (symbol : Symbol) {parts : List Entry}
    (fields : List (Option FieldId)) (fallback : Length) (state : StateId) {i k : Length}
    (hrow : Consecutive i k parts) (hfallback : parts = [] → fallback = i) :
    around.seen ≤ k.bytes + (buildNode t around symbol parts fields fallback state).1.lookahead ∧
      ∀ e ∈ parts, e.finish.bytes + e.node.lookahead ≤
        k.bytes + (buildNode t around symbol parts fields fallback state).1.lookahead := by
  -- a node has looked as far as the furthest of its parts, or of what was scanned before
  have hlookahead : (buildNode t around symbol parts fields fallback state).1.lookahead =
      parts.foldl (fun reach e => max reach (e.finish.bytes + e.node.lookahead)) around.seen -
        k.bytes := by
    rw [← hrow.finish fallback hfallback]
    rfl
  obtain ⟨hseen, hparts⟩ :=
    le_foldl_max (fun e : Entry => e.finish.bytes + e.node.lookahead) parts around.seen
  rw [hlookahead]
  exact ⟨by omega, fun e he => by have := hparts e he; omega⟩

/-! ## Stretches -/

namespace Stack

/-- The state on top of entries over a state. -/
def stateOver (s : StateId) : Stack → StateId
  | [] => s
  | e :: _ => e.state

/-- The state on top of `s` over another stack is seen from the state of that stack only. -/
theorem state_append (s rest : Stack) : Stack.state (s ++ rest) = stateOver (Stack.state rest) s := by
  cases s <;> rfl

/-- Twins lead to the same state. -/
theorem stateOver_twins {s : StateId} {a b : Stack} (h : List.Forall₂ Entry.Twin a b) :
    stateOver s b = stateOver s a := by
  cases h with
  | nil => rfl
  | cons he _ => exact he.state

end Stack

/-- What a parse did from one place to another above one of its stacks. -/
structure Stretch where
  /-- The state it began in. -/
  state : StateId
  /-- The lex mode of its first token. -/
  mode : LexMode
  start : Length
  /-- The entries that it put on the stack, the latest first. -/
  stack : Stack
  finish : Length
  /-- The lex mode of the token after it. -/
  nextMode : LexMode

namespace Stretch

variable {t : Table} {text text' : String} {r : Stretch} {limit : Nat}

/-- The state on top. -/
def top (r : Stretch) : StateId := r.stack.stateOver r.state

/-- The token after a stretch. -/
def token (t : Table) (text : String) (r : Stretch) : Token :=
  Lexer.next t text.toUTF8 r.finish r.nextMode

/-- The entries of a stretch follow each other in the text. -/
structure Lies (text : String) (r : Stretch) : Prop where
  stack : Consecutive r.start r.finish r.stack.reverse
  inside : r.finish.bytes ≤ text.toUTF8.size

/-- Nothing beyond a byte was looked at for a stretch and the token after it. -/
structure SeenBy (t : Table) (text : String) (limit : Nat) (r : Stretch) : Prop where
  stack : ∀ e ∈ r.stack, e.finish.bytes + e.node.lookahead ≤ limit
  token : r.finish.bytes + (r.token t text).total.bytes + (r.token t text).lookahead ≤ limit

/-- A parse of another text can do a stretch again: it is in the state in which that began, no token is
known yet, and the bytes that were looked at are there. -/
structure Resumes (t : Table) (text text' : String) (len : Nat) (r : Stretch) (c : Config) : Prop where
  lookahead : c.lookahead = none
  walker : c.walker = []
  errorMode : c.errorMode = false
  state : c.state = r.state
  mode : t.lexMode r.state = r.mode
  agrees : AgreesAround text.toUTF8 text'.toUTF8 r.start.bytes c.position.bytes len
  inside : c.position.bytes ≤ text'.toUTF8.size
  free : ∀ d, Config.Reaches t text'.toUTF8 c d → ¬d.Stopped t text'.toUTF8

/-- A parse has done a stretch again from where it resumed it. -/
structure Follows (t : Table) (text' : String) (r : Stretch) (c d : Config) : Prop where
  stack : ∃ entries, d.stack = entries ++ c.stack ∧ List.Forall₂ Entry.Twin r.stack entries ∧
    Consecutive c.position d.position entries.reverse
  walker : d.walker = []
  errorMode : d.errorMode = false
  token : FoundAt t text'.toUTF8 d.position r.nextMode (d.readied t text'.toUTF8).1
  events : PlainSteps c.events d.events
  -- nothing is cut on the way
  passed : c.Passed → d.Passed

/-- Every parse that resumes a stretch gets to its end by plain steps, to where something holds. -/
def ReplaysTo (t : Table) (text : String) (P : Config → Prop) (r : Stretch) : Prop :=
  ∀ (text' : String) (len : Nat) (c : Config), r.Resumes t text text' len c →
    r.SeenBy t text (r.start.bytes + len) →
      ∃ d, Config.Reaches t text'.toUTF8 c d ∧ r.Follows t text' c d ∧ P d

/-- Every parse that resumes a stretch gets to its end by plain steps. -/
abbrev Replays (t : Table) (text : String) (r : Stretch) : Prop := r.ReplaysTo t text fun _ => True

/-- The same, and the last step was a reduction, before a token that waits. -/
abbrev Completes (t : Table) (text : String) (r : Stretch) : Prop :=
  r.ReplaysTo t text fun d => d.lookahead.isSome = true

/-- What completes replays. -/
theorem Completes.replays (h : r.Completes t text) : r.Replays t text := by
  intro text' len c hc hseen
  obtain ⟨d, hreach, hfollows, -⟩ := h text' len c hc hseen
  exact ⟨d, hreach, hfollows, trivial⟩

/-- The state on top of a stack on which a stretch was done again. -/
theorem Follows.state {c d : Config} (h : r.Follows t text' c d) (hc : c.state = r.state) :
    d.state = r.top := by
  obtain ⟨entries, hstack, htwins, -⟩ := h.stack
  rw [Config.state, hstack, Stack.state_append, Stack.stateOver_twins htwins, top]
  exact congrArg (Stack.stateOver · r.stack) hc

/-- The token after a stretch is found again. -/
theorem Follows.next_eq {len : Nat} {c d : Config} (h : r.Follows t text' c d)
    (hc : r.Resumes t text text' len c) (hr : r.Lies text)
    (hseen : r.SeenBy t text (r.start.bytes + len)) :
    Lexer.next t text'.toUTF8 d.position r.nextMode = r.token t text := by
  obtain ⟨entries, -, htwins, hrow⟩ := h.stack
  have hfinish := hr.stack.eq_add
  have hposition := hrow.eq_add
  rw [totals_twins (List.rel_reverse htwins)] at hposition
  have htoken := hseen.token
  have hinside := hr.inside
  rw [hfinish, Length.bytes_add] at htoken hinside
  -- the token begins within the bytes that agree, and all that was seen for it does
  have hk : (totals r.stack.reverse).bytes ≤ len := by omega
  have hagrees := hc.agrees.skip hk
  have hinside' := hc.agrees.le_size hc.inside hk hinside
  rw [← Length.bytes_add, ← Length.bytes_add, ← hfinish, ← hposition] at hagrees
  rw [← Length.bytes_add, ← hposition] at hinside'
  exact Lexer.next_agrees t r.nextMode hagrees hr.inside hinside' (by
    change (r.token t text).total.bytes + (r.token t text).lookahead ≤ _
    omega)

/-- Nothing is done yet. -/
theorem replays_start (hr : r.stack = []) (hmode : r.nextMode = r.mode) : r.Replays t text := by
  intro text' len c hc hseen
  refine ⟨c, .refl, ⟨⟨[], rfl, by rw [hr]; exact .nil, rfl⟩, hc.walker, hc.errorMode, ?_,
    .refl _, id⟩, trivial⟩
  have htoken := Config.foundAt_lex t text'.toUTF8 hc.lookahead hc.errorMode
  rwa [hc.state, hc.mode, ← hmode] at htoken

/-- A parse that has done a stretch again has found the token that came after it, and stands where it
can act on it. -/
structure Meets (t : Table) (text' : String) (r : Stretch) (token : Subtree) (d : Config)
    (token' : Subtree) (ready : Config) : Prop where
  stack : ready.stack = d.stack
  position : ready.position = d.position
  walker : ready.walker = []
  errorMode : ready.errorMode = false
  state : ready.state = r.top
  symbol : token'.symbol = token.symbol
  shape : ∀ mark, (token.withExtra mark).sameShape (token'.withExtra mark) = true
  found : FoundAt t text'.toUTF8 d.position r.nextMode token'
  events : PlainSteps d.events ready.events
  passed : d.Passed → ready.Passed
  free : ∀ p, t.action? r.top token.symbol = some (.reduce p) → ready.reductions ≠ 0

/-- A stretch that goes on by a step replays if what is done about the next token is done again. -/
theorem Replays.step {r' : Stretch} {P : Config → Prop} (ht : t.Checked) (h : r.Replays t text)
    (hr : r.Lies text) {token : Subtree} (htoken : FoundAt t text.toUTF8 r.finish r.nextMode token)
    (hbegin : r'.state = r.state ∧ r'.mode = r.mode ∧ r'.start = r.start)
    (hseen : ∀ limit, r'.SeenBy t text limit → r.SeenBy t text limit)
    (hstep : ∀ (text' : String) (c d : Config) (token' : Subtree) (ready : Config),
      c.state = r.state → r.Follows t text' c d → r.Meets t text' token d token' ready →
      ∃ d', ready.act t text'.toUTF8 token' = .next d' ∧ r'.Follows t text' c d' ∧ P d') :
    r'.ReplaysTo t text P := by
  intro text' len c hc hseen'
  obtain ⟨hstate, hmode, hstart⟩ := hbegin
  have hc : r.Resumes t text text' len c :=
    ⟨hc.lookahead, hc.walker, hc.errorMode, hstate ▸ hc.state, hmode ▸ hstate ▸ hc.mode,
      hstart ▸ hc.agrees, hc.inside, hc.free⟩
  have hseen := hseen _ (hstart ▸ hseen')
  -- the stretch before the step is replayed first
  obtain ⟨d, hreach, hd, -⟩ := h text' len c hc hseen
  -- the parse that is replayed finds the same token, with the same symbol
  have hsame := hd.next_eq hc hr hseen
  have htop := hd.state hc.state
  have hsymbol : (d.readied t text'.toUTF8).1.symbol = token.symbol :=
    hd.token.symbol.trans ((congrArg Token.symbol hsame).trans htoken.symbol.symm)
  obtain ⟨hstack, hposition, hwalker, herror, hreductions⟩ := d.readied_frame t text'.toUTF8
  have hmeets : r.Meets t text' token d (d.readied t text'.toUTF8).1 (d.readied t text'.toUTF8).2 := by
    refine ⟨hstack, hposition, hwalker.trans hd.walker, herror.trans hd.errorMode, ?_, hsymbol,
      htoken.sameShape hd.token hsame, hd.token, d.readied_events t text'.toUTF8,
      fun h => h.of_le (d.readied_lastRecovery t text'.toUTF8) (by rw [hposition]),
      fun p hp hzero => ?_⟩
    · rw [Config.state, hstack, ← Config.state, htop]
    -- where the parse follows the stretch its reductions do not run out
    · refine hc.free d hreach ⟨hreductions ▸ hzero, p, ?_⟩
      rwa [htop, hsymbol]
  obtain ⟨d', hact, hd', hP⟩ := hstep text' c d _ _ hc.state hd hmeets
  refine ⟨d', hreach.tail ?_, hd', hP⟩
  exact (Config.step_readied ht hd.walker).trans hact

/-- The stretch that goes on by putting a token on the stack. -/
def push (t : Table) (r : Stretch) (target : StateId) (token : Subtree) : Stretch :=
  { r with
    stack := ⟨target, token, r.finish⟩ :: r.stack
    finish := r.finish + token.total
    nextMode := t.lexMode target }

/-- What was seen before a token was put on the stack was seen afterwards. -/
theorem SeenBy.of_push {token : Subtree} (htoken : FoundAt t text.toUTF8 r.finish r.nextMode token)
    {target : StateId} {mark : Bool}
    (h : (r.push t target (token.withExtra mark)).SeenBy t text limit) : r.SeenBy t text limit := by
  obtain ⟨hfirst, hrest⟩ := List.forall_mem_cons.mp h.stack
  refine ⟨hrest, ?_⟩
  rw [Entry.finish, Length.bytes_add] at hfirst
  change r.finish.bytes + token.total.bytes + token.lookahead ≤ limit at hfirst
  rwa [htoken.total, htoken.lookahead] at hfirst

/-- A token is put on the stack again. -/
theorem Follows.push {c d d' : Config} {token token' : Subtree} {ready : Config}
    (h : r.Follows t text' c d) (hm : r.Meets t text' token d token' ready) {target : StateId}
    {mark : Bool} {e : Event}
    (hstack : d'.stack = ⟨target, token'.withExtra mark, ready.position⟩ :: ready.stack)
    (hposition : d'.position = ready.position + token'.total) (hlookahead : d'.lookahead = none)
    (hwalker : d'.walker = ready.walker) (herror : d'.errorMode = false)
    (hevents : d'.events = e :: ready.events) (he : e.IsPlain)
    (hrecovery : d'.lastRecovery = none ∨ d'.lastRecovery = ready.lastRecovery) :
    (r.push t target (token.withExtra mark)).Follows t text' c d' := by
  obtain ⟨entries, hentries, htwins, hrow⟩ := h.stack
  rw [hm.stack, hm.position] at hstack
  rw [hm.position] at hposition
  refine ⟨⟨⟨target, token'.withExtra mark, d.position⟩ :: entries, by rw [hstack, hentries]; rfl,
    .cons ⟨rfl, hm.shape mark⟩ htwins, ?_⟩, hwalker.trans hm.walker, herror, ?_, ?_, fun hpassed => ?_⟩
  · rw [List.reverse_cons, consecutive_append]
    exact ⟨_, hrow, rfl, hposition.symm⟩
  · have hstate : d'.state = target := by rw [Config.state, hstack, Stack.state]
    have hnext := Config.foundAt_lex t text'.toUTF8 hlookahead herror
    rwa [hstate] at hnext
  · exact h.events.trans (hevents ▸ hm.events.cons he)
  -- the place of the last recovery is forgotten, or lies behind as before
  · obtain hnone | hsame := hrecovery
    · intro r hr
      rw [hnone] at hr
      cases hr
    · refine (hm.passed (h.passed hpassed)).of_le hsame ?_
      rw [hposition, hm.position, Length.bytes_add]
      exact Nat.le_add_right _ _

/-- A token is shifted again. -/
theorem Replays.shift (ht : t.Checked) (h : r.Replays t text) (hr : r.Lies text) {token : Subtree}
    (htoken : FoundAt t text.toUTF8 r.finish r.nextMode token) {target : StateId}
    (ha : t.action? r.top token.symbol = some (.shift target)) :
    (r.push t target (token.withExtra false)).Replays t text := by
  refine h.step ht hr htoken ⟨rfl, rfl, rfl⟩ (fun _ => SeenBy.of_push htoken) ?_
  intro text' c d token' ready _ hd hm
  have ha' : t.action? ready.state token'.symbol = some (.shift target) := by rwa [hm.state, hm.symbol]
  exact ⟨_, Config.act_shift ha', hd.push hm rfl rfl rfl rfl rfl rfl trivial (.inl rfl), trivial⟩

/-- An extra is put on the stack again. -/
theorem Replays.extra (ht : t.Checked) (h : r.Replays t text) (hr : r.Lies text) {token : Subtree}
    (htoken : FoundAt t text.toUTF8 r.finish r.nextMode token)
    (ha : t.action? r.top token.symbol = none) (hf : token.symbol ≠ Symbol.finish)
    (hx : t.isExtra token.symbol = true) :
    (r.push t r.top (token.withExtra true)).Replays t text := by
  refine h.step ht hr htoken ⟨rfl, rfl, rfl⟩ (fun _ => SeenBy.of_push htoken) ?_
  intro text' c d token' ready _ hd hm
  have ha' : t.action? ready.state token'.symbol = none := by rwa [hm.state, hm.symbol]
  refine ⟨_, Config.act_extra ha' (hm.symbol ▸ hf) (hm.symbol ▸ hx), ?_, trivial⟩
  exact hd.push hm (by rw [← hm.state]; rfl) rfl rfl rfl hm.errorMode rfl trivial (.inr rfl)

/-- The stretch that goes on by reducing the parts of a production. -/
def reduced (t : Table) (r : Stretch) (around : Surroundings) (production : Production)
    (parts trailing : List Entry) (mid : Stack) : Stretch :=
  { r with
    stack := replacement t around production parts trailing r.finish (mid.stateOver r.state) ++ mid }

section Reduced

variable {around : Surroundings} {production : Production} {parts trailing : List Entry} {mid : Stack}

/-- A stretch whose stack is taken apart: its parts follow each other in the text. -/
theorem Lies.row (hr : r.Lies text) (hstack : r.stack = trailing.reverse ++ (parts.reverse ++ mid)) :
    Consecutive r.start r.finish (mid.reverse ++ (parts ++ trailing)) := by
  have hrow := hr.stack
  rw [hstack] at hrow
  simpa using hrow

/-- What was seen before a reduction was seen afterwards. -/
theorem SeenBy.of_reduced (hr : r.Lies text)
    (hstack : r.stack = trailing.reverse ++ (parts.reverse ++ mid))
    (h : (r.reduced t around production parts trailing mid).SeenBy t text limit) :
    r.SeenBy t text limit := by
  obtain ⟨first, last, -, hparts, -, hempty⟩ := consecutive_parts (hr.row hstack)
  obtain ⟨-, hreach⟩ := le_reach_buildNode (t := t) around production.lhs production.fields _
    (mid.stateOver r.state) hparts hempty
  obtain ⟨hposition, -, hend⟩ := consecutive_buildNode (t := t) around production.lhs
    production.fields _ (mid.stateOver r.state) hparts hempty
  have hall := h.stack
  simp only [Stretch.reduced, replacement, List.forall_mem_append, List.forall_mem_singleton] at hall
  obtain ⟨⟨htrailing, hnode⟩, hmid⟩ := hall
  rw [Entry.finish, hposition, hend] at hnode
  refine ⟨?_, h.token⟩
  rw [hstack, List.forall_mem_append, List.forall_mem_append]
  refine ⟨fun e he => ?_, fun e he => ?_, hmid⟩
  -- an extra above the node is pushed again as it was
  · have hmoved := htrailing _ (List.mem_reverse.mpr (List.mem_map.mpr
      ⟨e, List.mem_reverse.mp he, rfl⟩))
    exact hmoved
  -- the node sees as far as each of its parts
  · exact Nat.le_trans (hreach e (List.mem_reverse.mp he)) hnode

/-- The parts of a production are reduced again. -/
theorem Replays.reduce (ht : t.Checked) (h : r.Replays t text) (hr : r.Lies text) {token : Subtree}
    (htoken : FoundAt t text.toUTF8 r.finish r.nextMode token) {p : ProductionId}
    (ha : t.action? r.top token.symbol = some (.reduce p)) (hp : t.production? p = some production)
    (hstack : r.stack = trailing.reverse ++ (parts.reverse ++ mid))
    (hparted : Stack.Parted production.size parts trailing mid) (hne : parts.reverse ++ mid ≠ [])
    (around : Surroundings) : (r.reduced t around production parts trailing mid).Completes t text := by
  refine h.step ht hr htoken ⟨rfl, rfl, rfl⟩ (fun _ => SeenBy.of_reduced hr hstack) ?_
  intro text' c d token' ready hc hd hm
  have ha' : t.action? ready.state token'.symbol = some (.reduce p) := by rwa [hm.state, hm.symbol]
  refine ⟨_, Config.act_reduce ha' hp (hm.free p ha), ?_, rfl⟩
  -- the stack is taken apart as that of the stretch was
  obtain ⟨entries, hentries, htwins, hrow⟩ := hd.stack
  rw [hstack] at htwins
  obtain ⟨above, below, rfl, htrailing, htwins⟩ := twins_append htwins
  obtain ⟨between, mid', rfl, hparts, hmid⟩ := twins_append htwins
  obtain ⟨trailing', rfl⟩ : ∃ trailing' : List Entry, above = trailing'.reverse :=
    ⟨above.reverse, above.reverse_reverse.symm⟩
  obtain ⟨parts', rfl⟩ : ∃ parts' : List Entry, between = parts'.reverse :=
    ⟨between.reverse, between.reverse_reverse.symm⟩
  rw [List.forall₂_reverse_iff] at htrailing hparts
  have hpop : ready.stack.popChildren production.size = (parts', trailing', mid' ++ c.stack) := by
    rw [hm.stack, hentries, List.append_assoc, List.append_assoc]
    exact Stack.popChildren_append (hparted.twins hne hparts htrailing hmid c.stack)
  -- what is exposed is the same state, in the stretch or below it
  have hexposed : Stack.state (mid' ++ c.stack) = mid.stateOver r.state := by
    rw [Stack.state_append, Stack.stateOver_twins hmid]
    exact congrArg (Stack.stateOver · mid) hc
  -- so that twins are built
  have hrow' : Consecutive c.position d.position (mid'.reverse ++ (parts' ++ trailing')) := by
    simpa using hrow
  have hstack' := Config.stack_reduce t ready token' hpop
  rw [hexposed, hm.position, ← List.append_assoc] at hstack'
  refine ⟨⟨_, hstack', List.rel_append ?_ hmid, ?_⟩, hm.walker, hm.errorMode, ?_, ?_,
    fun hpassed => (hm.passed (hd.passed hpassed)).of_le rfl (Nat.le_refl _)⟩
  · exact twins_replacement hparts htrailing (hr.row hstack) hrow' _
  · rw [show (ready.reduce t token' production).position = d.position from hm.position]
    exact consecutive_replacement t _ production hrow' _
  · rw [Config.readied_of_lookahead rfl]
    rw [show (ready.reduce t token' production).position = d.position from hm.position]
    exact hm.found
  · exact hd.events.trans (hm.events.cons trivial)

end Reduced

end Stretch

end IncrementalParsing
