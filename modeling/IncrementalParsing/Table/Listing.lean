import IncrementalParsing.Table.Basic
import IncrementalParsing.Text.Palette

/-!
# Listings of tables

`Table.listing` shows everything in a table, a line for each thing.
-/

namespace IncrementalParsing.Table

/-- How many decimal digits a number has; none has less than one. -/
def width (n : Nat) : Nat := (Nat.toDigits 10 n).length

/-- A number with blanks in front up to a width. -/
def padded (width n : Nat) : String :=
  let digits := toString n
  String.ofList (List.replicate (width - digits.length) ' ') ++ digits

/-- A symbol as it is shown: literals quoted, each kind in its colour. -/
def symbolLabel (c : Palette) (info : SymbolInfo) : String :=
  if info.literal then c.paint c.green (quoted info.name)
  else if info.name == "ERROR" && info.terminal then c.paint c.red info.name
  else c.paint c.blue info.name

/-- As `symbolLabel`, for a number. -/
def label (t : Table) (c : Palette) (s : Symbol) : String :=
  match t.symbol? s with
  | some info => symbolLabel c info
  | none => s!"#{s}"

/-- The properties of a symbol in words. -/
def traits (info : SymbolInfo) : List String :=
  [if info.terminal then "terminal" else "rule"]
    ++ (if info.named then ["named"] else [])
    ++ (if info.visible then [] else ["hidden"])
    ++ (if info.extra then ["extra"] else [])
    ++ (if info.immediate then ["immediate"] else [])

def heading (c : Palette) (title : String) : List String := ["", c.paint c.dim s!"[{title}]"]

def grammarLines (t : Table) (c : Palette) : List String :=
  [c.paint c.dim "[grammar]",
   "name    = " ++ c.paint c.blue t.name,
   s!"version = {t.version}",
   "start   = " ++ c.paint c.blue (t.symbolName t.start)]

def symbolLine (t : Table) (c : Palette) (s : Symbol) (info : SymbolInfo) : String :=
  c.paint c.dim (padded (width t.symbols.size) s) ++ " " ++ symbolLabel c info ++ " "
    ++ c.paint c.dim (String.intercalate " " (traits info))
    ++ (match t.lexeme? s with
      | some lexeme => s!" /{lexeme.pattern}/"
      | none => "")
    ++ (if info.precedence = 0 then "" else s!" prec={info.precedence}")

def symbolLines (t : Table) (c : Palette) : List String :=
  heading c "symbols" ++ t.symbols.toList.zipIdx.map fun (info, s) => symbolLine t c s info

def fieldLines (t : Table) (c : Palette) : List String :=
  if t.fields.isEmpty then []
  else
    heading c "fields" ++ t.fields.toList.zipIdx.map fun (name, i) =>
      c.paint c.dim (toString (i + 1)) ++ " " ++ name

def productionLine (t : Table) (c : Palette) (i : ProductionId) (p : Production) : String :=
  let fields := p.fields.zipIdx.filterMap fun (field, child) => do
    let name ← t.fieldName? (← field)
    return s!"{child}:{name}"
  c.paint c.dim (padded (width t.productions.size) i) ++ " " ++ t.label c p.lhs
    ++ s!" ({p.size} children)"
    ++ (if fields.isEmpty then "" else " " ++ String.intercalate " " fields)

def productionLines (t : Table) (c : Palette) : List String :=
  heading c "productions" ++ t.productions.toList.zipIdx.map fun (p, i) => productionLine t c i p

/-- An action in words. -/
def actionText : Action → String
  | .shift target => s!"shift {target}"
  | .reduce production => s!"reduce {production}"
  | .accept => "accept"
  | .goto target => s!"goto {target}"

def stateLines (t : Table) (c : Palette) : List String :=
  let w := width t.states.size
  heading c "states" ++ t.states.toList.zipIdx.flatMap fun (state, i) =>
    (c.paint c.dim (padded w i) ++ " " ++ c.paint c.dim s!"lex mode {state.lexMode}")
      :: state.actions.map fun (symbol, action) =>
        String.ofList (List.replicate (w + 3) ' ') ++ t.label c symbol ++ " → " ++ actionText action

def lexModeLines (t : Table) (c : Palette) : List String :=
  heading c "lex_modes" ++ t.lexModes.toList.zipIdx.map fun (symbols, mode) =>
    c.paint c.dim (toString mode) ++ String.join (symbols.map fun s => " " ++ t.label c s)

/-- The lines of a listing. -/
def listing (t : Table) (c : Palette) : List String :=
  grammarLines t c ++ symbolLines t c ++ fieldLines t c ++ productionLines t c ++ stateLines t c
    ++ lexModeLines t c

/-- A listing as a text. -/
def listingText (t : Table) (c : Palette) : String :=
  String.join ((listing t c).map (· ++ "\n"))

end IncrementalParsing.Table
