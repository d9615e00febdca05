import IncrementalParsing.Parse.Build
import IncrementalParsing.Parse.Event
import IncrementalParsing.Parse.Walker

/-!
# Where a parse stands

A `Config` holds the stack, the place in the text, the next token if it is known, and what is left of
an old tree.  `Config.start` is the one to begin with; the other functions are the single moves that
the parser makes, each recording its `Event`:

* `fetch` finds the next token, or a part of the old tree;
* `shift`, `shiftExtra` and `takeOver` put it on the stack;
* `reduce` replaces the parts of a production by what they build.
-/

namespace IncrementalParsing

/-- Where a parse stands. -/
structure Config where
  stack : Stack
  /-- What is left of the old tree. -/
  walker : Walker
  /-- The end of what is on the stack, where the padding of the next token begins. -/
  position : Length
  /-- The next token, once it is known. -/
  lookahead : Option Subtree
  /-- Whether tokens are looked for in every mode; so after one was skipped, until one is shifted. -/
  errorMode : Bool
  /-- Whether the next token was looked for in every mode. -/
  lookaheadInErrorMode : Bool
  /-- Where the stack was last cut to repair an error, and the depth that was kept. -/
  lastRecovery : Option (Nat × Nat)
  /-- How many reductions may follow before the next token counts as an error. -/
  reductions : Nat
  /-- What happened, the latest first. -/
  events : List Event
deriving Inhabited

namespace Config

/-- The number of reductions that may follow each other on a stack of some depth: each entry can be
reduced through each state once, where what empty productions add is not counted.  It ends the cycles
that some tables have. -/
def allowance (t : Table) (depth : Nat) : Nat := (depth + 1) * (t.states.size + 1)

/-- The start of a parse, with the root of an old tree whose parts may be used again. -/
def start (t : Table) (old : Option Subtree) : Config where
  stack := []
  walker := (old.map Walker.start).getD []
  position := .zero
  lookahead := none
  errorMode := false
  lookaheadInErrorMode := false
  lastRecovery := none
  reductions := allowance t 0
  events := []

/-- Notes what happens. -/
def record (c : Config) (e : Event) : Config := { c with events := e :: c.events }

/-- The state on top of the stack. -/
def state (c : Config) : StateId := c.stack.state

/-- Where a part at the current place begins after its padding. -/
def contentStart (c : Config) (n : Subtree) : Nat := (c.position + n.padding).bytes

/-- What a node built now is built with. -/
def surroundings (c : Config) (token : Subtree) : Surroundings where
  position := c.position
  lookahead := token
  inErrorMode := c.lookaheadInErrorMode

/-- Puts a part on the stack. -/
def push (c : Config) (state : StateId) (node : Subtree) (position : Length) : Config :=
  { c with stack := ⟨state, node, position⟩ :: c.stack }

/-- Reductions are counted anew, because something was consumed or the stack was cut. -/
def renew (c : Config) (t : Table) : Config :=
  { c with reductions := allowance t c.stack.length }

/-- Finds the next token in the text. -/
def lex (c : Config) (t : Table) (text : ByteArray) : Subtree × Config :=
  let mode := if c.errorMode then allTokens else t.lexMode c.state
  let token := Lexer.next t text c.position mode
  let content := c.position + token.padding
  (Subtree.leaf token c.state (t.isExtra token.symbol),
   { c with lookaheadInErrorMode := c.errorMode }.record
      (.lex c.state token.symbol content.bytes (content + token.size).bytes mode))

/-- Finds what comes next: a part of the old tree where one fits, a token of the text else. -/
def fetch (c : Config) (t : Table) (text : ByteArray) : Subtree × Config :=
  if c.errorMode then c.lex t text
  else
    match Walker.next t c.state c.position.bytes c.walker with
    | (none, walker) => { c with walker }.lex t text
    | (some n, walker) =>
      let content := c.contentStart n
      (n, { c with walker, lookaheadInErrorMode := false }.record
        (.reuse c.state n.symbol content (content + n.size.bytes) n.total.bytes))

/-- Puts a token on the stack. -/
def shift (c : Config) (t : Table) (token : Subtree) (target : StateId) : Config :=
  -- a token of the old tree may have been an extra there
  let after := (c.record (.shift c.state token.symbol target)).push target (token.withExtra false)
    c.position
  { after with
    position := c.position + token.total
    lookahead := none
    errorMode := false
    lastRecovery := none }.renew t

/-- Puts an extra on the stack, which leaves the state as it is. -/
def shiftExtra (c : Config) (t : Table) (token : Subtree) : Config :=
  let after := (c.record (.extra c.state token.symbol)).push c.state (token.withExtra true) c.position
  { after with position := c.position + token.total, lookahead := none }.renew t

/-- Puts a part of the old tree that is no token on the stack. -/
def takeOver (c : Config) (t : Table) (n : Subtree) : Config :=
  -- what is taken over has a goto, as `isReusable` asks for
  let after := c.push ((t.goto? c.state n.symbol).getD c.state) n c.position
  { after with position := c.position + n.total, lookahead := none }.renew t

/-- Replaces the parts of a production on top of the stack by the node that they build.  Extras after
the last part stay behind it. -/
def reduce (c : Config) (t : Table) (token : Subtree) (p : Production) : Config :=
  let (parts, trailing, rest) := c.stack.popChildren p.size
  let exposed := Stack.state rest
  -- a node without parts stands before the extras that follow it
  let fallback := ((trailing.head?).map (·.position)).getD c.position
  let (node, position) :=
    buildNode t (c.surroundings token) p.lhs parts p.fields fallback exposed
  let target := (t.goto? exposed p.lhs).getD exposed
  -- extras do not change the state, so they take the new one
  let extras := (trailing.map fun e => { e with state := target }).reverse
  let built : Entry := ⟨target, node, position⟩
  { c with
    stack := extras ++ built :: rest
    lookahead := some token
    reductions := c.reductions - 1 }.record
      (.reduce c.state p.lhs node.children.length target)

end Config

end IncrementalParsing
