import IncrementalParsing.Table.Basic
import IncrementalParsing.Text.Length
import IncrementalParsing.Text.Utf8

/-!
# Finding tokens

`Lexer.next` finds the token after a place.  Of the tokens of a lex mode the longest match wins; a
tie goes to the higher precedence, then to the token that is written as a string, then to the lower
number.  Hidden extras in front of a token become its padding.  A character that starts no token is
an error token of its own, and at the end of the text there is the end token.
-/

namespace IncrementalParsing

/-- A token found in a text. -/
structure Token where
  symbol : Symbol
  /-- What is skipped in front of the token. -/
  padding : Length
  size : Length
  /-- How many bytes after the token were looked at; the end of the text counts as one. -/
  lookahead : Nat
  lexMode : LexMode
deriving DecidableEq, Inhabited

namespace Token

def isEnd (t : Token) : Bool := t.symbol == Symbol.finish

/-- Padding and size together. -/
def total (t : Token) : Length := t.padding + t.size

end Token

namespace Lexer

/-- A match of a token. -/
structure Candidate where
  symbol : Symbol
  finish : Nat
  precedence : Int
  literal : Bool
deriving DecidableEq, Inhabited

/-- Whether a match wins over one of a token with a lower number. -/
def Candidate.beats (a b : Candidate) : Bool :=
  b.finish < a.finish
    || (a.finish == b.finish
      && (b.precedence < a.precedence
        || (a.precedence == b.precedence && a.literal && !b.literal)))

/-- The winner so far, and the end of what has been looked at. -/
structure Contest where
  best : Option Candidate
  examined : Nat
deriving DecidableEq, Inhabited

/-- Tries a token at a place.  One that has to follow the token before directly is tried only where
nothing has been skipped. -/
def Contest.attempt (t : Table) (text : ByteArray) (start : Nat) (direct : Bool) (c : Contest)
    (symbol : Symbol) : Contest :=
  match t.symbol? symbol, t.lexeme? symbol with
  | some info, some lexeme =>
    if info.immediate && !direct then c
    else
      let (finish, seen) := lexeme.automaton.scan text start
      -- what was looked at in vain counts too: had it been different, there could be a match
      let examined := max c.examined seen
      match finish with
      | none => { c with examined }
      | some finish =>
        let candidate : Candidate := ⟨symbol, finish, info.precedence, info.literal⟩
        if c.best.all candidate.beats then ⟨some candidate, examined⟩ else { c with examined }
  | _, _ => c

/-- The longest match at a place. -/
def longestMatch (t : Table) (text : ByteArray) (symbols : List Symbol) (start : Nat) (direct : Bool)
    (examined : Nat) : Contest :=
  symbols.foldl (Contest.attempt t text start direct) ⟨none, examined⟩

/-- How many bytes the character at a place takes; inside a character it is one. -/
def charWidth (text : ByteArray) (i : Nat) : Nat :=
  match byteAt? text i with
  | none => 1
  | some lead =>
    if isContinuation lead then 1
    else
      match Utf8.tailShape? lead with
      | some (owed, _) => owed + 1
      | none => 1

/-- The token from `start` to `finish`, with the padding from `position` on. -/
def token (text : ByteArray) (symbol : Symbol) (position start : Length) (finish examined : Nat)
    (mode : LexMode) : Token where
  symbol := symbol
  padding := start - position
  size := .span text start.bytes finish
  lookahead := examined - finish
  lexMode := mode

/-- The token after `start`, where the trivia from `position` on has been skipped already.  Every
round skips at least a byte, of which `fuel` are left. -/
def nextFrom (t : Table) (text : ByteArray) (mode : LexMode) (position : Length) :
    (fuel : Nat) → (start : Length) → (examined : Nat) → Token
  -- `next` allows for as many rounds as there are bytes, so this comes at the end of the text
  | 0, start, examined =>
    token text Symbol.finish position start start.bytes (max examined (text.size + 1)) mode
  | fuel + 1, start, examined =>
    let place := start.bytes
    if text.size ≤ place then
      token text Symbol.finish position start place (max examined (text.size + 1)) mode
    else
      -- what has to follow directly is looked for only while nothing has been skipped
      let contest := longestMatch t text (t.modeSymbols mode) place (start == position) examined
      match contest.best with
      | some c =>
        if t.isTrivia c.symbol then
          nextFrom t text mode position fuel (start + .span text place c.finish) contest.examined
        else token text c.symbol position start c.finish contest.examined mode
      | none =>
        let finish := place + charWidth text place
        token text Symbol.error position start finish (max contest.examined finish) mode

/-- The token after a place, looked for in a lex mode. -/
def next (t : Table) (text : ByteArray) (position : Length) (mode : LexMode) : Token :=
  nextFrom t text mode position (text.size - position.bytes + 1) position position.bytes

end Lexer

end IncrementalParsing
