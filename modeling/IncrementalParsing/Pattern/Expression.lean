import IncrementalParsing.Sum
import IncrementalParsing.Unicode.CodeSet

/-!
# Regular expressions

An `Expression` is what a pattern stands for, with switches and classes resolved.  Expressions are
built by `sequence`, `oneOf`, `repeated` and `ofSet`, which keep a simple form: no part of a
sequence is a sequence or empty, no branch of an alternation is an alternation, alternatives that
are single characters are one set, and the sets of one character and of none have one form each.
A set of ASCII characters may be one of bytes: it matches the same, but it is not the same
expression as the set of characters, and what it starts is not taken to start alike.

`minLength` is the least number of bytes of a match.  It is unknown as soon as a part that matches
nothing at all takes part in it.
-/

namespace IncrementalParsing

open Unicode (CodeSet)

/-- A condition on the bytes before and after a place. -/
inductive Look where
  | textStart
  | textEnd
  | lineStart
  | lineEnd
  /-- Lines may end with a carriage return, a line feed or both. -/
  | anyLineStart
  | anyLineEnd
  | wordBoundary
  | notWordBoundary
  | wordStart
  | wordEnd
  | wordStartHalf
  | wordEndHalf
  /-- Any of the conditions on words that counts all letters, not only those of ASCII. -/
  | unicodeWord (index : Nat)
deriving DecidableEq, Inhabited

/-- A regular expression. -/
inductive Expression where
  | empty
  | literal (text : List Char)
  /-- A set of characters, or one of bytes, where all of them are ASCII characters. -/
  | set (chars : CodeSet) (ofBytes : Bool)
  | look (kind : Look)
  | repetition (least : Nat) (most : Option Nat) (greedy : Bool) (content : Expression)
  | capture (index : Nat) (content : Expression)
  | concat (parts : List Expression)
  | alternation (branches : List Expression)
deriving Inhabited

namespace Expression

mutual

/-- Whether two expressions are the same. -/
def same : Expression → Expression → Bool
  | .empty, .empty => true
  | .literal a, .literal b => a == b
  | .set a ofBytes, .set b ofBytes' => a == b && ofBytes == ofBytes'
  | .look a, .look b => a == b
  | .repetition least most greedy a, .repetition least' most' greedy' b =>
    least == least' && most == most' && greedy == greedy' && a.same b
  | .capture i a, .capture j b => i == j && a.same b
  | .concat as, .concat bs => sameAll as bs
  | .alternation as, .alternation bs => sameAll as bs
  | _, _ => false

def sameAll : List Expression → List Expression → Bool
  | [], [] => true
  | a :: as, b :: bs => a.same b && sameAll as bs
  | _, _ => false

end

instance : BEq Expression := ⟨same⟩

/-- Matches nothing, not even the empty text. -/
def fail : Expression := .set .empty true

/-- One of a set of characters or bytes. -/
def ofSet (chars : CodeSet) (ofBytes : Bool) : Expression :=
  match chars.single? with
  | some c => .literal [Char.ofNat c]
  | none => if chars.isEmpty then fail else .set chars ofBytes

/-- How many bytes the character of a code takes. -/
def codeSize (code : Nat) : Nat :=
  if code < 0x80 then 1 else if code < 0x800 then 2 else if code < 0x10000 then 3 else 4

/-- How many bytes a literal takes. -/
def textSize (text : List Char) : Nat := sumOf (fun c => codeSize c.toNat) text

/-- The least of the lengths, if all are known. -/
def leastOf : List (Option Nat) → Option Nat
  | [] => none
  | [n] => n
  | n :: rest => do return min (← n) (← leastOf rest)

/-- The greatest of the lengths, if all are known. -/
def greatestOf : List (Option Nat) → Option Nat
  | [] => none
  | [n] => n
  | n :: rest => do return max (← n) (← greatestOf rest)

/-- The sum of the lengths, if all are known. -/
def totalOf : List (Option Nat) → Option Nat
  | [] => some 0
  | n :: rest => do return (← n) + (← totalOf rest)

mutual

/-- The least number of bytes in a match. -/
def minLength : Expression → Option Nat
  | .empty => some 0
  | .literal text => some (textSize text)
  | .set chars _ => chars.first?.map codeSize
  | .look _ => some 0
  | .repetition least _ _ content => content.minLength.map (· * least)
  | .capture _ content => content.minLength
  | .concat parts => totalOf (minLengths parts)
  | .alternation branches => leastOf (minLengths branches)

def minLengths : List Expression → List (Option Nat)
  | [] => []
  | e :: rest => e.minLength :: minLengths rest

end

mutual

/-- The greatest number of bytes in a match, if there is one. -/
def maxLength : Expression → Option Nat
  | .empty => some 0
  | .literal text => some (textSize text)
  | .set chars _ => chars.last?.map codeSize
  | .look _ => some 0
  | .repetition _ most _ content => do return (← content.maxLength) * (← most)
  | .capture _ content => content.maxLength
  | .concat parts => totalOf (maxLengths parts)
  | .alternation branches => greatestOf (maxLengths branches)

def maxLengths : List Expression → List (Option Nat)
  | [] => []
  | e :: rest => e.maxLength :: maxLengths rest

end

/-- A repetition.  Repeating what is always empty more than once adds nothing. -/
def repeated (least : Nat) (most : Option Nat) (greedy : Bool) (content : Expression) : Expression :=
  let (least, most) :=
    if content.maxLength == some 0 then (min least 1, some (min (most.getD 1) 1))
    else (least, most)
  if most == some 0 && least == 0 then .empty
  else if least == 1 && most == some 1 then content
  else .repetition least most greedy content

/-- The parts of a sequence that an expression stands for. -/
def sequenceParts : Expression → List Expression
  | .empty => []
  | .concat parts => parts
  | e => [e]

/-- Joins literals that follow each other. -/
def joinLiterals : List Expression → List Expression
  | [] => []
  | e :: rest =>
    match e, joinLiterals rest with
    | .literal a, .literal b :: rest => .literal (a ++ b) :: rest
    | e, rest => e :: rest

/-- The expressions one after the other. -/
def sequence (parts : List Expression) : Expression :=
  match joinLiterals (parts.flatMap sequenceParts) with
  | [] => .empty
  | [e] => e
  | parts => .concat parts

/-- The character that an expression is. -/
def single? : Expression → Option Char
  | .literal [c] => some c
  | _ => none

/-- The set that an expression is. -/
def set? : Expression → Option CodeSet
  | .set chars _ => some chars
  | _ => none

/-- The branches of an alternation that an expression stands for. -/
def choiceBranches : Expression → List Expression
  | .alternation branches => branches
  | e => [e]

/-- The set that branches amount to if they are all characters or all sets. -/
def mergedSet? (branches : List Expression) : Option CodeSet :=
  ((branches.mapM single?).map fun cs => .unions (cs.map .singleton)).or
    ((branches.mapM set?).map .unions)

/-- How many first parts two sequences have in common. -/
def commonParts : List Expression → List Expression → Nat
  | a :: as, b :: bs => if a == b then commonParts as bs + 1 else 0
  | _, _ => 0

/-- The parts of a sequence proper. -/
def concat? : Expression → Option (List Expression)
  | .concat parts => some parts
  | _ => none

/-- How many first parts all sequences have in common. -/
def sharedParts : List (List Expression) → Nat
  | [] => 0
  | first :: rest => rest.foldl (fun n parts => min n (commonParts first parts)) first.length

/-- Branches that are not alternations, as one expression.  What all of them start with is taken out
in front of the rest. -/
def choice : (fuel : Nat) → List Expression → Expression
  | _, [] => fail
  | _, [e] => e
  | 0, branches => .alternation branches
  | fuel + 1, branches =>
    match mergedSet? branches with
    | some chars => ofSet chars false
    | none =>
      -- only sequences have a beginning that can be taken out
      match branches.mapM concat? with
      | none => .alternation branches
      | some sequences =>
        let n := sharedParts sequences
        if n = 0 then .alternation branches
        else
          let rests := sequences.map fun parts => sequence (parts.drop n)
          sequence ((sequences.headD []).take n ++ [choice fuel (rests.flatMap choiceBranches)])

mutual

/-- The number of nodes. -/
def size : Expression → Nat
  | .repetition _ _ _ content => content.size + 1
  | .capture _ content => content.size + 1
  | .concat parts => sizes parts + 1
  | .alternation branches => sizes branches + 1
  | _ => 1

def sizes : List Expression → Nat
  | [] => 0
  | e :: rest => e.size + sizes rest

end

/-- Any one of the expressions. -/
def oneOf (branches : List Expression) : Expression :=
  choice (sizes branches + 1) (branches.flatMap choiceBranches)

mutual

/-- The conditions on places in an expression. -/
def looks : Expression → List Look
  | .look kind => [kind]
  | .repetition _ _ _ content => content.looks
  | .capture _ content => content.looks
  | .concat parts => looksIn parts
  | .alternation branches => looksIn branches
  | _ => []

def looksIn : List Expression → List Look
  | [] => []
  | e :: rest => e.looks ++ looksIn rest

end

end Expression

end IncrementalParsing
