import IncrementalParsing.Grammar.Flattening
import IncrementalParsing.Table.Loader
import IncrementalParsing.Table.Writer

/-!
# Compiling grammars

`Grammar.compile` turns a grammar into the bytes of its parse table, and `Grammar.table` into the
table itself, by loading those bytes.
-/

namespace IncrementalParsing

/-- Why there is no table. -/
inductive TableFault where
  | compile (fault : CompileFault)
  | load (fault : LoadFault)
deriving DecidableEq, Inhabited

namespace TableFault

/-- The wording of a fault. -/
def message : TableFault → String
  | .compile fault => fault.message
  | .load fault => "generated table does not load: " ++ fault.message

end TableFault

namespace Grammar

/-- The bytes of the grammar's parse table. -/
def compile (g : Grammar) : Except CompileFault ByteArray := do
  let flat ← g.flatten
  TableImage.write flat (← ParserTable.ofGrammar flat)

/-- The bytes of the parse table of the grammar that a text describes. -/
def compileText (text : String) : Except CompileFault ByteArray :=
  match parse text with
  | .ok g => g.compile
  | .error fault => .error (.grammar fault)

/-- The table of a grammar. -/
def table (g : Grammar) : Except TableFault Table :=
  match g.compile with
  | .error fault => .error (.compile fault)
  | .ok bytes =>
    match Table.load bytes with
    | .error fault => .error (.load fault)
    | .ok t => .ok t

end Grammar

end IncrementalParsing
