import IncrementalParsing.Parse.Parser
import IncrementalParsing.Text.Palette

/-!
# Comparing a reparse with a parse

A `ReparseReport` says what it took to parse a text with the tree of an earlier one, what it took
without it, and whether both came to the same tree.
-/

namespace IncrementalParsing

/-- A reparse beside a parse of the same text. -/
structure ReparseReport where
  edit : Edit
  incremental : Stats
  full : Stats
  /-- The size of the new text. -/
  newSize : Nat
  matchesFull : Bool
  hasError : Bool
deriving Inhabited

namespace ReparseReport

/-- The report for two texts. -/
def make (l : Language) (old new : String) : Except ParseFault ReparseReport := do
  let before ← l.tryParse old none
  let edit := (InputEdit.diff old.toUTF8 new.toUTF8).toEdit
  let after ← l.tryParse new (some (before.tree.edit edit))
  let fresh ← l.tryParse new none
  return {
    edit
    incremental := after.stats
    full := fresh.stats
    newSize := new.utf8ByteSize
    matchesFull := after.tree == fresh.tree
    hasError := after.tree.hasError }

/-- The report for two texts, if both of them are parsed. -/
def make? (l : Language) (old new : String) : Option ReparseReport := (make l old new).toOption

/-- The lines of a report. -/
def lines (r : ReparseReport) (c : Palette) : List String :=
  let e := r.edit
  let verdict :=
    if r.matchesFull then c.paint c.green "matches full parse"
    else c.paint c.red "differs from full parse"
  [s!"edit     {e.startByte}..{e.oldEndByte} → {e.startByte}..{e.newEndByte} ("
      ++ e.oldEndPosition.render ++ " → " ++ e.newEndPosition.render ++ ")",
   s!"reused   {r.incremental.reused} nodes, {r.incremental.bytesReused} of {r.newSize} bytes",
   s!"lexed    {r.incremental.lexed} tokens (full parse: {r.full.lexed})"]
  ++ (if r.incremental.recoveries = 0 then [] else [s!"recover  {r.incremental.recoveries}"])
  ++ ["result   " ++ verdict]

/-- A report as a text. -/
def render (r : ReparseReport) (c : Palette) : String :=
  String.join ((r.lines c).map (· ++ "\n"))

end ReparseReport

end IncrementalParsing
