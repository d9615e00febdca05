/-!
# Patterns as written

A `Pattern` is the tree of a regular expression as it was written: switches, groups and character
classes are kept, and what they stand for is decided by `Pattern.Meaning`.
-/

namespace IncrementalParsing

namespace Pattern

/-- What a pattern can switch on and off. -/
inductive Switch where
  | caseInsensitive
  | multiLine
  /-- The dot matches line breaks too. -/
  | dotAll
  | swapGreed
  | unicode
  /-- Carriage returns end lines too. -/
  | carriageReturns
  /-- Blanks and comments in the pattern do not count. -/
  | freeSpacing
deriving DecidableEq, Inhabited

/-- Switches with what they are set to, in the order in which they are written. -/
abbrev Switches := List (Switch × Bool)

/-- A condition on the place between two characters, as it is written. -/
inductive Anchor where
  | lineStart
  | lineEnd
  | textStart
  | textEnd
  | wordBoundary
  | notWordBoundary
  | wordStart
  | wordEnd
  | wordStartHalf
  | wordEndHalf
deriving DecidableEq, Inhabited

/-- A character, with whether it is written by the two digits of a byte. -/
structure Literal where
  char : Char
  isByte : Bool
deriving DecidableEq, Inhabited

/-- The classes with a letter of their own. -/
inductive Shorthand where
  | digit
  | space
  | word
deriving DecidableEq, Inhabited

/-- How a class of characters is asked for by properties. -/
inductive PropertyQuery where
  | named (name : String)
  | valued (property value : String)
deriving DecidableEq, Inhabited

inductive SetOperation where
  | intersection
  | difference
  | symmetricDifference
deriving DecidableEq, Inhabited

/-- A class of characters, or a part of one between brackets. -/
inductive ClassTree where
  | empty
  | literal (value : Literal)
  | range (first last : Literal)
  /-- A class of ASCII characters by its name. -/
  | posix (ranges : List (Nat × Nat)) (negated : Bool)
  | property (query : PropertyQuery) (negated : Bool)
  | shorthand (kind : Shorthand) (negated : Bool)
  | bracketed (negated : Bool) (body : ClassTree)
  | union (parts : List ClassTree)
  | operation (op : SetOperation) (left right : ClassTree)
deriving Inhabited

inductive GroupKind where
  | capture (index : Nat)
  /-- A group that only binds its content, with switches set inside. -/
  | plain (switches : Switches)
deriving DecidableEq, Inhabited

end Pattern

/-- A regular expression as it is written. -/
inductive Pattern where
  | empty
  /-- Switches set from here to the end of the group. -/
  | directive (switches : Pattern.Switches)
  | literal (value : Pattern.Literal)
  | dot
  | anchor (kind : Pattern.Anchor)
  | cls (tree : Pattern.ClassTree)
  | repetition (least : Nat) (most : Option Nat) (greedy : Bool) (content : Pattern)
  | group (kind : Pattern.GroupKind) (content : Pattern)
  | alternation (branches : List Pattern)
  | concat (parts : List Pattern)
deriving Inhabited

namespace Pattern

mutual

/-- How many brackets, unions and operations are nested in each other. -/
def ClassTree.depth : ClassTree → Nat
  | .bracketed _ body => body.depth + 1
  | .union parts => ClassTree.depths parts + 1
  | .operation _ left right => max left.depth right.depth + 1
  | _ => 0

def ClassTree.depths : List ClassTree → Nat
  | [] => 0
  | t :: rest => max t.depth (ClassTree.depths rest)

end

mutual

/-- How many parts are nested in each other. -/
def depth : Pattern → Nat
  | .cls tree => tree.depth
  | .repetition _ _ _ content => content.depth + 1
  | .group _ content => content.depth + 1
  | .alternation branches => depths branches + 1
  | .concat parts => depths parts + 1
  | _ => 0

def depths : List Pattern → Nat
  | [] => 0
  | p :: rest => max p.depth (depths rest)

end

end Pattern

end IncrementalParsing
