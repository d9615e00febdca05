import IncrementalParsing.Parse.Recovery

/-!
# The steps of a parse

`Config.step` finds what comes next, unless it is known already, and does what the table says about
it.  `Config.run` repeats it until the parse is done.
-/

namespace IncrementalParsing

namespace Config

/-- The root made of a stack that is accepted: what the start symbol consists of, with the extras
around it. -/
def acceptedRoot (c : Config) (t : Table) (text : ByteArray) (token : Subtree) : Subtree :=
  -- the root takes the place of the start node, so that one leaves only its children
  let children := c.stack.reverse.flatMap fun e =>
    if !e.node.extra && e.node.symbol == t.start then e.node.children else [(e.node, none)]
  buildRoot text t.start children token

/-- Does what the table says about the next token. -/
def act (c : Config) (t : Table) (text : ByteArray) (token : Subtree) : Step :=
  match t.action? c.state token.symbol with
  | some (.shift target) => .next (c.shift t token target)
  | some (.reduce p) =>
    match t.production? p with
    | some production =>
      -- the table has gone round without consuming anything
      if c.reductions = 0 then c.recover t text token else .next (c.reduce t token production)
    | none => c.recover t text token
  | some .accept => .done (c.acceptedRoot t text token) (.accept c.state :: c.events)
  | _ =>
    -- an extra that the state does not ask for stands by itself
    if token.symbol != Symbol.finish && t.isExtra token.symbol then .next (c.shiftExtra t token)
    else c.recover t text token

/-- One step. -/
def step (c : Config) (t : Table) (text : ByteArray) : Step :=
  match c.lookahead with
  | some token => c.act t text token
  | none =>
    let (n, c) := c.fetch t text
    if t.isTerminal n.symbol then c.act t text n else .next (c.takeOver t n)

/-- Repeats steps until the parse is done; gives the root and the events.  There is nothing where the
steps go on forever. -/
def run (t : Table) (text : ByteArray) (c : Config) : Option (Subtree × List Event) :=
  match c.step t text with
  | .done root events => some (root, events.reverse)
  | .next after => by
    apply run
    exact t
    exact text
    exact after
partial_fixpoint

end Config

end IncrementalParsing
