import IncrementalParsing.Pattern.Basic
import IncrementalParsing.Pattern.Expression
import IncrementalParsing.Unicode.Property

/-!
# What patterns mean

`Pattern.expression?` resolves a pattern: switches hold from where they are set to the end of their
group, classes become sets of characters, and letters stand for both cases where case is ignored.
Patterns that could match bytes that are no text are refused; without Unicode, classes are sets of
ASCII characters.
-/

namespace IncrementalParsing.Pattern

open Unicode (CodeSet)

/-- What all switches but free spacing are set to. -/
structure Modes where
  caseInsensitive : Bool
  multiLine : Bool
  dotAll : Bool
  swapGreed : Bool
  unicode : Bool
  carriageReturns : Bool
deriving DecidableEq, Inhabited

namespace Modes

/-- How a pattern starts. -/
def standard : Modes := ⟨false, false, false, false, true, false⟩

def set (m : Modes) (change : Switch × Bool) : Modes :=
  match change with
  | (.caseInsensitive, v) => { m with caseInsensitive := v }
  | (.multiLine, v) => { m with multiLine := v }
  | (.dotAll, v) => { m with dotAll := v }
  | (.swapGreed, v) => { m with swapGreed := v }
  | (.unicode, v) => { m with unicode := v }
  | (.carriageReturns, v) => { m with carriageReturns := v }
  | (.freeSpacing, _) => m

def apply (m : Modes) (switches : Switches) : Modes := switches.foldl set m

end Modes

/-- The set with both cases of its letters, if case is ignored. -/
def fold (m : Modes) (s : CodeSet) : CodeSet :=
  if m.caseInsensitive then
    if m.unicode then Unicode.foldClosure s else Unicode.asciiFoldClosure s
  else s

/-- All other characters; without Unicode they would not be text. -/
def negate? (m : Modes) (negated : Bool) (s : CodeSet) : Option CodeSet :=
  if negated then if m.unicode then some s.compl else none else some s

/-- Whether a literal is text: without Unicode, a byte beyond ASCII is not. -/
def Literal.isText (m : Modes) (l : Literal) : Bool :=
  m.unicode || !l.isByte || l.char.toNat < 0x80

/-- A character in a class; without Unicode it has to be ASCII. -/
def Literal.inClass? (m : Modes) (l : Literal) : Option Nat :=
  if m.unicode || l.char.toNat < 0x80 then some l.char.toNat else none

def Shorthand.ranges : Shorthand → List (Nat × Nat)
  | .digit => [(48, 57)]
  | .space => [(9, 13), (32, 32)]
  | .word => [(48, 57), (65, 90), (95, 95), (97, 122)]

def Shorthand.unicode : Shorthand → CodeSet
  | .digit => Unicode.decimalDigit
  | .space => Unicode.whiteSpace
  | .word => Unicode.wordCharacter

def PropertyQuery.set? : PropertyQuery → Option CodeSet
  | .named name => Unicode.property? name
  | .valued property value => Unicode.propertyValue? property value

def SetOperation.apply : SetOperation → CodeSet → CodeSet → CodeSet
  | .intersection => .inter
  | .difference => .diff
  | .symmetricDifference => .symmDiff

mutual

/-- The characters of a class. -/
def ClassTree.set? (m : Modes) : ClassTree → Option CodeSet
  | .empty => some .empty
  | .literal l => (l.inClass? m).map fun c => .range c c
  | .range first last => do return .range (← first.inClass? m) (← last.inClass? m)
  | .posix ranges negated => negate? m negated (fold m (.ofRanges ranges))
  | .property query negated => do
    if m.unicode then negate? m negated (fold m (← query.set?)) else none
  | .shorthand kind negated =>
    negate? m negated (if m.unicode then kind.unicode else .ofRanges kind.ranges)
  | .bracketed negated body => do negate? m negated (fold m (← body.set? m))
  | .union parts => (ClassTree.sets? m parts).map .unions
  | .operation op left right => do
    return op.apply (fold m (← left.set? m)) (fold m (← right.set? m))

def ClassTree.sets? (m : Modes) : List ClassTree → Option (List CodeSet)
  | [] => some []
  | t :: rest => do return (← t.set? m) :: (← ClassTree.sets? m rest)

end

/-- The condition that an anchor stands for. -/
def Anchor.look (m : Modes) (kind : Anchor) : Look :=
  let word (ascii : Look) (index : Nat) : Look := if m.unicode then .unicodeWord index else ascii
  match kind with
  | .lineStart =>
    if m.multiLine then if m.carriageReturns then .anyLineStart else .lineStart else .textStart
  | .lineEnd =>
    if m.multiLine then if m.carriageReturns then .anyLineEnd else .lineEnd else .textEnd
  | .textStart => .textStart
  | .textEnd => .textEnd
  | .wordBoundary => word .wordBoundary 0
  | .notWordBoundary => word .notWordBoundary 1
  | .wordStart => word .wordStart 2
  | .wordEnd => word .wordEnd 3
  | .wordStartHalf => word .wordStartHalf 4
  | .wordEndHalf => word .wordEndHalf 5

/-- The characters that the dot matches. -/
def dotSet (m : Modes) : CodeSet :=
  if m.dotAll then .univ
  else if m.carriageReturns then CodeSet.compl (.ofRanges [(10, 10), (13, 13)])
  else CodeSet.compl (.ofRanges [(10, 10)])

/-- A literal, in both cases if case is ignored. -/
def literalExpression (m : Modes) (c : Char) : Expression :=
  if m.caseInsensitive then .ofSet (fold m (.singleton c)) !m.unicode else .literal [c]

mutual

/-- The expression that a pattern stands for, with the modes after it. -/
def expressionIn? (m : Modes) : Pattern → Option (Expression × Modes)
  | .empty => some (.empty, m)
  | .directive switches => some (.empty, m.apply switches)
  | .literal l => if l.isText m then some (literalExpression m l.char, m) else none
  | .dot => if m.unicode then some (.ofSet (dotSet m) false, m) else none
  | .anchor kind => some (.look (kind.look m), m)
  | .cls tree => do return (.ofSet (← tree.set? m) !m.unicode, m)
  | .repetition least most greedy content => do
    let (e, m) ← expressionIn? m content
    return (.repeated least most (greedy != m.swapGreed) e, m)
  | .group (.capture index) content => do
    -- switches set in a group end with it
    let (e, _) ← expressionIn? m content
    return (.capture index e, m)
  | .group (.plain switches) content => do
    let (e, _) ← expressionIn? (m.apply switches) content
    return (e, m)
  | .alternation branches => do
    let (es, m) ← expressionsIn? m branches
    return (.oneOf es, m)
  | .concat parts => do
    let (es, m) ← expressionsIn? m parts
    return (.sequence es, m)

def expressionsIn? (m : Modes) : List Pattern → Option (List Expression × Modes)
  | [] => some ([], m)
  | p :: rest => do
    let (e, m) ← expressionIn? m p
    let (es, m) ← expressionsIn? m rest
    return (e :: es, m)

end

/-- The expression that a pattern stands for.  The rules are those that `regex-syntax` 0.8 documents for
its translation, from `Modes.standard` on: Unicode is switched on and all else off, so a dot leaves out
the line feed, `^` and `$` are the ends of the text, and classes hold all characters of their kind.
Where case is ignored a set holds what simple case folding makes of its characters.  A pattern that
could match bytes that are no UTF-8 text is refused, and so is a property that is not known. -/
def expression? (p : Pattern) : Option Expression :=
  (expressionIn? .standard p).map (·.1)

end IncrementalParsing.Pattern
