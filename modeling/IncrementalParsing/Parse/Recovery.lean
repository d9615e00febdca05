import IncrementalParsing.Parse.Config

/-!
# Repairing errors

Where no action is known for the next token, `Config.recover` does the first of these that is
possible:

* `cut` the stack back to the highest entry in whose state the token could follow; what was above
  becomes an error.  At one place in the text every cut goes deeper than the one before;
* `skip` the token; it becomes an error, together with one directly before it;
* `wrap` everything in one error, at the end of the text.
-/

namespace IncrementalParsing

/-- What a step of a parse leads to. -/
inductive Step where
  | next (c : Config)
  /-- The parse is done, with a root and the events, the latest first. -/
  | done (root : Subtree) (events : List Event)
deriving Inhabited

namespace Config

/-- The greatest depth below a limit at which a token could follow. -/
def cutDepth? (t : Table) (stack : Stack) (token : Symbol) : (limit : Nat) → Option Nat
  | 0 => none
  | depth + 1 =>
    if (t.action? (stack.keep depth).state token).isSome then some depth
    else cutDepth? t stack token depth

/-- The depth that a cut has to stay below. -/
def cutLimit (c : Config) : Nat :=
  match c.lastRecovery with
  | some (place, depth) =>
    -- cutting as high again as before would go on forever
    if place = c.position.bytes then min c.stack.length depth else c.stack.length
  | none => c.stack.length

/-- An error made of entries. -/
def errorNode (c : Config) (t : Table) (token : Subtree) (entries : List Entry) (state : StateId) :
    Subtree × Length :=
  buildNode t (c.surroundings token) Symbol.error entries [] c.position state

/-- Makes an error of everything above a depth. -/
def cut (c : Config) (t : Table) (token : Subtree) (depth : Nat) : Config :=
  let cutOff := c.stack.above depth
  let kept := c.stack.keep depth
  let (start, finish) := coveredBy cutOff
  let (error, position) := c.errorNode t token cutOff kept.state
  { c with
    stack := ⟨kept.state, error.withExtra true, position⟩ :: kept
    lookahead := some token
    lastRecovery := some (c.position.bytes, depth) }.record
      (.recover c.state (.pop cutOff.length) start finish)

/-- The error that takes the token up, where it begins, and what is below it. -/
def absorb (c : Config) (t : Table) (token : Subtree) : Subtree × Length × Stack :=
  let entry : Entry := ⟨c.state, token, c.position⟩
  match c.stack with
  | top :: rest =>
    if top.node.extra && top.node.isError then
      -- characters with nothing between them become one error, everything else goes into a new one
      match top.node.joinErrors? token with
      | some joined => (joined, top.position, rest)
      | none =>
        let (error, position) := c.errorNode t token [top, entry] c.state
        (error, position, rest)
    else alone entry
  | [] => alone entry
where
  /-- The token as an error of its own. -/
  alone (entry : Entry) : Subtree × Length × Stack :=
    if token.isError then (token, c.position, c.stack)
    else
      let (error, position) := c.errorNode t token [entry] c.state
      (error, position, c.stack)

/-- Makes an error of the next token. -/
def skip (c : Config) (t : Table) (token : Subtree) : Config :=
  let content := c.contentStart token
  let (error, position, below) := c.absorb t token
  { c with
    stack := ⟨c.state, error.withExtra true, position⟩ :: below
    position := c.position + token.total
    lookahead := none
    errorMode := true }.record (.recover c.state .skip content (content + token.size.bytes))

/-- Makes an error of everything, which is all that the root consists of. -/
def wrap (c : Config) (t : Table) (text : ByteArray) (token : Subtree) : Step :=
  let entries := c.stack.reverse
  let (start, finish) := coveredBy entries
  let (error, _) := c.errorNode t token entries 0
  .done (buildRoot text t.start [(error, none)] token)
    (.recover c.state .wrap start finish :: c.events)

/-- Repairs an error at the next token. -/
def recover (c : Config) (t : Table) (text : ByteArray) (token : Subtree) : Step :=
  -- what was read is given up before the token that could not be read
  match cutDepth? t c.stack token.symbol c.cutLimit with
  | some depth => .next ((c.cut t token depth).renew t)
  | none =>
    if token.symbol == Symbol.finish then c.wrap t text token
    else .next ((c.skip t token).renew t)

end Config

end IncrementalParsing
