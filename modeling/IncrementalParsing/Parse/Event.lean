import IncrementalParsing.Table.Listing
import IncrementalParsing.Text.Utf8

/-!
# What happens in a parse

An `Event` is a step that can be shown.  `Event.line?` writes it as a line, with as much detail as
asked for.
-/

namespace IncrementalParsing

/-- How an error was repaired. -/
inductive Recovery where
  /-- So many entries were taken off the stack. -/
  | pop (entries : Nat)
  /-- The next token was skipped. -/
  | skip
  /-- Everything became one error at the end of the text. -/
  | wrap
deriving DecidableEq, Inhabited

/-- A step of a parse; `state` is the one on top of the stack, places are bytes in the text. -/
inductive Event where
  | lex (state : StateId) (symbol : Symbol) (start finish : Nat) (mode : LexMode)
  /-- A part of an old tree was taken over; `total` counts its padding as well. -/
  | reuse (state : StateId) (symbol : Symbol) (start finish total : Nat)
  | shift (state : StateId) (symbol : Symbol) (target : StateId)
  | extra (state : StateId) (symbol : Symbol)
  | reduce (state : StateId) (symbol : Symbol) (children : Nat) (target : StateId)
  | recover (state : StateId) (recovery : Recovery) (start finish : Nat)
  | accept (state : StateId)
deriving DecidableEq, Inhabited

/-- How much is shown of a parse. -/
inductive Verbosity where
  /-- What happens to the stack. -/
  | normal
  /-- Also where tokens and parts come from. -/
  | verbose
  /-- Also the text of the tokens. -/
  | full
deriving DecidableEq, Inhabited

namespace Recovery

def name : Recovery → String
  | .pop entries => s!"pop {entries}"
  | .skip => "skip"
  | .wrap => "wrap"

end Recovery

namespace Event

/-- A text filled up with blanks to a width. -/
def fill (width : Nat) (s : String) : String :=
  s ++ String.ofList (List.replicate (width - s.length) ' ')

/-- A symbol as it is shown. -/
def label (t : Table) (c : Palette) (s : Symbol) : String :=
  match t.symbol? s with
  | some info =>
    if info.literal then c.paint c.green (quoted info.name)
    else if s == Symbol.error then c.paint c.red "ERROR"
    else c.paint c.blue info.name
  | none => s!"#{s}"

/-- A range of bytes as it is shown. -/
def range (c : Palette) (start finish : Nat) : String := c.paint c.dim s!"{start}..{finish}"

/-- A line: the state, what was done, and to what. -/
def line (c : Palette) (state : StateId) (name detail : String) : String :=
  c.paint c.dim (fill 4 (toString state)) ++ (if detail.isEmpty then name else fill 8 name ++ detail)

/-- An event as a line; nothing where it is not asked for. -/
def line? (t : Table) (text : ByteArray) (v : Verbosity) (c : Palette) : Event → Option String
  | .lex state symbol start finish mode =>
    if v = .normal then none
    else
      let found := quoted ((Utf8.slice? text start finish).getD "")
      some (line c state "lex" (label t c symbol ++ " " ++ range c start finish
        ++ (if v = .full then s!" mode {mode} " ++ found else "")))
  | .reuse state symbol start finish _ =>
    if v = .normal then none
    else some (line c state "reuse" (label t c symbol ++ " " ++ range c start finish))
  | .shift state symbol target =>
    some (line c state "shift" (label t c symbol ++ s!" → {target}"))
  | .extra state symbol => some (line c state "extra" (label t c symbol))
  | .reduce state symbol children target =>
    some (line c state "reduce" (label t c symbol ++ s!" ({children}) → {target}"))
  | .recover state recovery start finish =>
    some (line c state "recover" (c.paint c.red recovery.name ++ " " ++ range c start finish))
  | .accept state => some (line c state "accept" "")

end Event

end IncrementalParsing
