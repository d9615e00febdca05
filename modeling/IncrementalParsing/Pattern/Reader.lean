import IncrementalParsing.Pattern.Basic
import IncrementalParsing.Text.Blank
import IncrementalParsing.Text.Hex
import IncrementalParsing.Unicode.Latest

/-!
# Reading patterns

`Pattern.parse?` reads a whole pattern, or refuses it.  The readers of its parts take the characters
left and give back those they did not use; those that can be nested take the number of characters as
fuel.  `free` says whether blanks and comments between parts are skipped.
-/

namespace IncrementalParsing.Pattern

/-- Drops blanks and comments, which go from `#` to the end of the line. -/
def skipComments (inComment : Bool) : List Char → List Char
  | [] => []
  | c :: cs =>
    if inComment then skipComments (c != '\n') cs
    else if isBlank c then skipComments false cs
    else if c == '#' then skipComments true cs
    else c :: cs

/-- Drops what does not count before the next part. -/
def skipFree (free : Bool) (cs : List Char) : List Char :=
  if free then skipComments false cs else cs

/-- The character that decides what a hyphen before it means; a comment counts from its text on. -/
def peekFree (free : Bool) (cs : List Char) : Option Char :=
  let rec look (inComment : Bool) : List Char → Option Char
    | [] => cs.head?
    | c :: rest =>
      if isBlank c then look inComment rest
      else if !inComment && c == '#' then look true rest
      else some c
  if free then look false cs else cs.head?

/-- The character of a code, unless there is none. -/
def charOf? (code : Nat) : Option Char :=
  if code < 0xD800 || (0xDFFF < code && code ≤ 0x10FFFF) then some (Char.ofNat code) else none

/-- The code written by a given number of digits. -/
def fixedCode? (free : Bool) : (count code : Nat) → List Char → Option (Nat × List Char)
  | 0, code, cs => some (code, cs)
  | _ + 1, _, [] => none
  | count + 1, code, c :: cs =>
    match hexDigit? c with
    | some d => fixedCode? free count (code * 16 + d) (skipFree free cs)
    | none => none

/-- What stands before a closing brace, without what is skipped. -/
def braced? (free : Bool) : (fuel : Nat) → (acc : List Char) → List Char →
    Option (List Char × List Char)
  | 0, _, _ => none
  | fuel + 1, acc, cs =>
    match skipFree free cs with
    | [] => none
    | '\x7d' :: rest => some (acc.reverse, rest)
    | c :: rest => braced? free fuel (c :: acc) rest

/-- A character by its code, after the letter that says how many digits it has. -/
def hexLiteral? (free : Bool) (count : Nat) (cs : List Char) : Option (Literal × List Char) := do
  match skipFree free cs with
  | '\x7b' :: rest =>
    let (inside, rest) ← braced? free (rest.length + 1) [] rest
    if inside.isEmpty then none
    let digits ← inside.mapM hexDigit?
    let c ← charOf? (digits.foldl (fun n d => n * 16 + d) 0)
    return (⟨c, false⟩, skipFree free rest)
  | rest =>
    let (code, rest) ← fixedCode? free count 0 rest
    return (⟨← charOf? code, count == 2⟩, rest)

/-- The parts of a text before and after the first place where another one stands. -/
def splitAt? (mark : List Char) : (before : List Char) → List Char → Option (String × String)
  | _, [] => none
  | before, c :: cs =>
    if mark.isPrefixOf (c :: cs) then
      some (String.ofList before.reverse, String.ofList ((c :: cs).drop mark.length))
    else splitAt? mark (c :: before) cs

/-- What a property class between braces asks for, and whether it asks for the others: a value
after the mark of difference is the one that the characters do not have. -/
def propertyQuery (name : List Char) : PropertyQuery × Bool :=
  match splitAt? ['!', '='] [] name with
  | some (property, value) => (.valued property value, true)
  | none =>
    match (splitAt? [':'] [] name).or (splitAt? ['='] [] name) with
    | some (property, value) => (.valued property value, false)
    | none => (.named (String.ofList name), false)

/-- A class of characters by a property, after its letter. -/
def propertyClass? (free negated : Bool) (cs : List Char) : Option (ClassTree × List Char) :=
  match skipFree free cs with
  | [] => none
  | '\x7b' :: rest =>
    (braced? free (rest.length + 1) [] rest).map fun (name, rest) =>
      let (query, others) := propertyQuery name
      (.property query (negated != others), rest)
  | '\\' :: _ => none
  | c :: rest => some (.property (.named c.toString) negated, skipFree free rest)

/-- A part of a pattern that is not made of others. -/
inductive Atom where
  | literal (value : Literal)
  | anchor (kind : Anchor)
  | cls (tree : ClassTree)
deriving Inhabited

def isWordMark (c : Char) : Bool := c.isAlpha || c == '-'

/-- The letters and hyphens next in line, without what is skipped. -/
def wordMarks (free : Bool) : (fuel : Nat) → (acc : List Char) → List Char →
    List Char × List Char
  | 0, acc, cs => (acc.reverse, cs)
  | _ + 1, acc, [] => (acc.reverse, [])
  | fuel + 1, acc, c :: cs =>
    if isWordMark c then wordMarks free fuel (c :: acc) (skipFree free cs)
    else (acc.reverse, c :: cs)

/-- The kinds of word boundaries that are named between braces. -/
def namedBoundary? (name : String) : Option Anchor :=
  match name with
  | "start" => some .wordStart
  | "end" => some .wordEnd
  | "start-half" => some .wordStartHalf
  | "end-half" => some .wordEndHalf
  | _ => none

/-- A word boundary after its letter.  A brace that is not followed by a name repeats it. -/
def wordBoundary? (free : Bool) (cs : List Char) : Option (Atom × List Char) :=
  match cs with
  | '\x7b' :: rest =>
    match skipFree free rest with
    | [] => none
    | c :: rest =>
      if isWordMark c then
        match wordMarks free (rest.length + 1) [] (c :: rest) with
        | (name, '\x7d' :: rest) =>
          (namedBoundary? (String.ofList name)).map fun kind => (.anchor kind, rest)
        | _ => none
      else some (.anchor .wordBoundary, cs)
  | cs => some (.anchor .wordBoundary, cs)

/-- The characters with a meaning of their own. -/
def metaCharacters : List Char :=
  ['\\', '.', '+', '*', '?', '(', ')', '|', '[', ']', '\x7b', '\x7d', '^', '$', '#', '&', '-', '~']

/-- Whether a character may be escaped to stand for itself. -/
def isEscapable (c : Char) : Bool := c.toNat < 0x80 && !c.isAlphanum && c != '<' && c != '>'

/-- What an escape stands for, after the backslash. -/
def escape? (free : Bool) (cs : List Char) : Option (Atom × List Char) :=
  let literal (c : Char) (rest : List Char) : Option (Atom × List Char) :=
    some (.literal ⟨c, false⟩, rest)
  let anchor (kind : Anchor) (rest : List Char) : Option (Atom × List Char) :=
    some (.anchor kind, rest)
  let shorthand (kind : Shorthand) (negated : Bool) (rest : List Char) :
      Option (Atom × List Char) :=
    some (.cls (.shorthand kind negated), rest)
  let hex (count : Nat) (rest : List Char) : Option (Atom × List Char) :=
    (hexLiteral? free count rest).map fun (l, rest) => (.literal l, rest)
  let property (negated : Bool) (rest : List Char) : Option (Atom × List Char) :=
    (propertyClass? free negated rest).map fun (tree, rest) => (.cls tree, rest)
  match cs with
  | [] => none
  | 'x' :: rest => hex 2 rest
  | 'u' :: rest => hex 4 rest
  | 'U' :: rest => hex 8 rest
  | 'p' :: rest => property false rest
  | 'P' :: rest => property true rest
  | 'd' :: rest => shorthand .digit false rest
  | 'D' :: rest => shorthand .digit true rest
  | 's' :: rest => shorthand .space false rest
  | 'S' :: rest => shorthand .space true rest
  | 'w' :: rest => shorthand .word false rest
  | 'W' :: rest => shorthand .word true rest
  | 'a' :: rest => literal '\x07' rest
  | 'f' :: rest => literal '\x0c' rest
  | 't' :: rest => literal '\t' rest
  | 'n' :: rest => literal '\n' rest
  | 'r' :: rest => literal '\r' rest
  | 'v' :: rest => literal '\x0b' rest
  | 'A' :: rest => anchor .textStart rest
  | 'z' :: rest => anchor .textEnd rest
  | 'b' :: rest => wordBoundary? free rest
  | 'B' :: rest => anchor .notWordBoundary rest
  | '<' :: rest => anchor .wordStart rest
  | '>' :: rest => anchor .wordEnd rest
  | c :: rest => if isEscapable c then literal c rest else none

/-- The classes of ASCII characters that have names. -/
def posixClass? (name : String) : Option (List (Nat × Nat)) :=
  match name with
  | "alnum" => some [(48, 57), (65, 90), (97, 122)]
  | "alpha" => some [(65, 90), (97, 122)]
  | "ascii" => some [(0, 127)]
  | "blank" => some [(9, 9), (32, 32)]
  | "cntrl" => some [(0, 31), (127, 127)]
  | "digit" => some [(48, 57)]
  | "graph" => some [(33, 126)]
  | "lower" => some [(97, 122)]
  | "print" => some [(32, 126)]
  | "punct" => some [(33, 47), (58, 64), (91, 96), (123, 126)]
  | "space" => some [(9, 13), (32, 32)]
  | "upper" => some [(65, 90)]
  | "word" => some [(48, 57), (65, 90), (95, 95), (97, 122)]
  | "xdigit" => some [(48, 57), (65, 70), (97, 102)]
  | _ => none

/-- A named class after its opening bracket; nothing where a bracketed class is meant. -/
def posix? (cs : List Char) : Option (ClassTree × List Char) :=
  match cs with
  | ':' :: rest =>
    let (negated, rest) := match rest with
      | '^' :: rest => (true, rest)
      | rest => (false, rest)
    match rest.dropWhile (· != ':') with
    | ':' :: ']' :: after =>
      (posixClass? (String.ofList (rest.takeWhile (· != ':')))).map fun ranges =>
        (.posix ranges negated, after)
    | _ => none
  | _ => none

/-- One character or escape between brackets. -/
def classAtom? (free : Bool) (cs : List Char) : Option (Atom × List Char) :=
  match cs with
  | [] => none
  | '\\' :: rest => escape? free rest
  | c :: rest => some (.literal ⟨c, false⟩, rest)

/-- What an atom means between brackets. -/
def Atom.classPart? : Atom → Option ClassTree
  | .literal l => some (.literal l)
  | .cls tree => some tree
  | .anchor _ => none

/-- An atom, or a range between two characters. -/
def classRange? (free : Bool) (cs : List Char) : Option (ClassTree × List Char) := do
  let (first, rest) ← classAtom? free cs
  match skipFree free rest with
  | [] => none
  | '-' :: after =>
    let next := peekFree free after
    -- a hyphen at the end, or before another one, stands for itself or begins an operation
    if next == some ']' || next == some '-' then
      return (← first.classPart?, '-' :: after)
    match first, ← classAtom? free (skipFree free after) with
    | .literal lo, (.literal hi, rest) =>
      if lo.char ≤ hi.char then return (.range lo hi, rest) else none
    | _, _ => none
  | rest => return (← first.classPart?, rest)

/-- The hyphens at the start of a class, which stand for themselves. -/
def leadingHyphens (free : Bool) : (fuel : Nat) → (acc : List ClassTree) → List Char →
    List ClassTree × List Char
  | 0, acc, cs => (acc, cs)
  | fuel + 1, acc, cs =>
    match cs with
    | '-' :: rest => leadingHyphens free fuel (.literal ⟨'-', false⟩ :: acc) (skipFree free rest)
    | cs => (acc, cs)

/-- The start of a class after its bracket: whether it is negated, and the parts that stand for
themselves only here, in reverse. -/
def classOpening (free : Bool) (cs : List Char) : Bool × List ClassTree × List Char :=
  let (negated, cs) := match skipFree free cs with
    | '^' :: rest => (true, skipFree free rest)
    | cs => (false, cs)
  match leadingHyphens free (cs.length + 1) [] cs with
  | ([], ']' :: rest) => (negated, [.literal ⟨']', false⟩], skipFree free rest)
  | (parts, rest) => (negated, parts, rest)

/-- The union of parts given in reverse. -/
def unionOf : List ClassTree → ClassTree
  | [] => .empty
  | [part] => part
  | parts => .union parts.reverse

/-- Performs an operation that waits for its right side. -/
def completed (waiting : Option (SetOperation × ClassTree)) (right : ClassTree) : ClassTree :=
  match waiting with
  | some (op, left) => .operation op left right
  | none => right

/-- The rest of a bracketed class.  `parts` are those read so far in reverse, `waiting` is the
operation whose right side they belong to. -/
def classBody? (free : Bool) : (fuel : Nat) → (waiting : Option (SetOperation × ClassTree)) →
    (parts : List ClassTree) → List Char → Option (ClassTree × List Char)
  | 0, _, _, _ => none
  | fuel + 1, waiting, parts, cs =>
    let operation (op : SetOperation) (rest : List Char) : Option (ClassTree × List Char) :=
      classBody? free fuel (some (op, completed waiting (unionOf parts))) [] rest
    match skipFree free cs with
    | [] => none
    | ']' :: rest => some (completed waiting (unionOf parts), rest)
    | '[' :: rest =>
      match posix? rest with
      | some (part, rest) => classBody? free fuel waiting (part :: parts) rest
      | none =>
        let (negated, opening, rest) := classOpening free rest
        match classBody? free fuel none opening rest with
        | some (body, rest) => classBody? free fuel waiting (.bracketed negated body :: parts) rest
        | none => none
    | '&' :: '&' :: rest => operation .intersection rest
    | '-' :: '-' :: rest => operation .difference rest
    | '~' :: '~' :: rest => operation .symmetricDifference rest
    | cs =>
      match classRange? free cs with
      | some (part, rest) => classBody? free fuel waiting (part :: parts) rest
      | none => none

/-- A number of repetitions, with any blanks around it. -/
def count? (free : Bool) (cs : List Char) : Option (Nat × List Char) :=
  let rec digits : (fuel : Nat) → (value : Option Nat) → List Char → Option Nat × List Char
    | 0, value, cs => (value, cs)
    | _ + 1, value, [] => (value, [])
    | fuel + 1, value, c :: cs =>
      if c.isDigit then
        digits fuel (some (value.getD 0 * 10 + (c.toNat - 48))) (skipFree free cs)
      else (value, c :: cs)
  let cs := cs.dropWhile isBlank
  match digits (cs.length + 1) none cs with
  | (some n, rest) =>
    if n < 0x100000000 then some (n, skipFree free (rest.dropWhile isBlank)) else none
  | (none, _) => none

/-- A question mark after a repetition asks for as few as possible. -/
def lazyMark (cs : List Char) : Bool × List Char :=
  match cs with
  | '?' :: rest => (false, rest)
  | cs => (true, cs)

/-- How often something is repeated, after the opening brace. -/
def counted? (free : Bool) (cs : List Char) : Option (Nat × Option Nat × List Char) := do
  let (least, rest) ← count? free (skipFree free cs)
  match rest with
  | '\x7d' :: rest => return (least, some least, rest)
  | ',' :: rest =>
    match skipFree free rest with
    | '\x7d' :: rest => return (least, none, rest)
    | rest =>
      match ← count? free rest with
      | (most, '\x7d' :: rest) => if least ≤ most then return (least, some most, rest) else none
      | _ => none
  | _ => none

def switch? (c : Char) : Option Switch :=
  match c with
  | 'i' => some .caseInsensitive
  | 'm' => some .multiLine
  | 's' => some .dotAll
  | 'U' => some .swapGreed
  | 'u' => some .unicode
  | 'R' => some .carriageReturns
  | 'x' => some .freeSpacing
  | _ => none

/-- The switches up to a colon or a parenthesis, which is given back: no switch twice, and after a
hyphen, of which there is one at most, the ones that are turned off. -/
def switches? (on : Bool) (acc : Switches) : List Char → Option (Switches × List Char)
  | [] => none
  | c :: cs =>
    if c == ':' || c == ')' then some (acc.reverse, c :: cs)
    else if c == '-' then
      match cs with
      | d :: _ => if on && d != ':' && d != ')' then switches? false acc cs else none
      | [] => none
    else
      match switch? c with
      | some s => if acc.any (·.1 == s) then none else switches? on ((s, on) :: acc) cs
      | none => none

/-- What is left to read, and what has been read that later parts depend on. -/
structure Cursor where
  rest : List Char
  free : Bool
  captures : Nat
  names : List String

def isNameStart (c : Char) : Bool := c == '_' || Unicode.Latest.letter.mem c.toNat

def isNameRest (c : Char) : Bool :=
  isNameStart c || c == '.' || c == '[' || c == ']' || Unicode.Latest.number.mem c.toNat

/-- The name of a group, after its opening angle bracket. -/
def groupName? (cs : List Char) : Option (String × List Char) :=
  match cs.takeWhile (· != '>'), cs.dropWhile (· != '>') with
  | first :: more, _ :: rest =>
    if isNameStart first && more.all isNameRest then some (String.ofList (first :: more), rest)
    else none
  | _, _ => none

/-- What stands after an opening parenthesis. -/
inductive Opening where
  | directive (switches : Switches)
  | group (kind : GroupKind)

/-- Reads on after an opening parenthesis up to where the content begins. -/
def opening? (s : Cursor) : Option (Opening × Cursor) :=
  let named (rest : List Char) : Option (Opening × Cursor) := do
    let (name, rest) ← groupName? rest
    if s.names.contains name then none
    let index := s.captures + 1
    return (.group (.capture index),
      { s with rest := rest, captures := index, names := name :: s.names })
  match skipFree s.free s.rest with
  -- conditions on what stands before or after are not supported
  | '?' :: '=' :: _ => none
  | '?' :: '!' :: _ => none
  | '?' :: '<' :: '=' :: _ => none
  | '?' :: '<' :: '!' :: _ => none
  | '?' :: 'P' :: '<' :: rest => named rest
  | '?' :: '<' :: rest => named rest
  | '?' :: rest =>
    match switches? true [] rest with
    | some (switches, ':' :: rest) => some (.group (.plain switches), { s with rest := rest })
    | some (switches, _ :: rest) =>
      if switches.isEmpty then none else some (.directive switches, { s with rest := rest })
    | _ => none
  | rest =>
    let index := s.captures + 1
    some (.group (.capture index), { s with rest := rest, captures := index })

/-- Parts in a row, given in reverse. -/
def concatOf : List Pattern → Pattern
  | [] => .empty
  | [part] => part
  | parts => .concat parts.reverse

/-- The branches of an alternation, given in reverse. -/
def alternationOf : List Pattern → Pattern
  | [] => .empty
  | [branch] => branch
  | branches => .alternation branches.reverse

/-- Applies a repetition to the last of the parts, which are in reverse. -/
def repeatLast? (least : Nat) (most : Option Nat) (greedy : Bool) :
    List Pattern → Option (List Pattern)
  | [] => none
  | .directive _ :: _ => none
  | last :: parts => some (.repetition least most greedy last :: parts)

/-- What a switch is set to. -/
def Switches.value (switches : Switches) (s : Switch) (default : Bool) : Bool :=
  (switches.lookup s).getD default

/-- Reads up to the end or a closing parenthesis, which is left.  `branches` are the finished
branches and `parts` the parts of the one begun, both in reverse. -/
def body? : (fuel : Nat) → (branches parts : List Pattern) → Cursor → Option (Pattern × Cursor)
  | 0, _, _, _ => none
  | fuel + 1, branches, parts, s =>
    let finished : Pattern := alternationOf (concatOf parts :: branches)
    let more (part : Pattern) (rest : List Char) : Option (Pattern × Cursor) :=
      body? fuel branches (part :: parts) { s with rest := rest }
    let repeated (least : Nat) (most : Option Nat) (rest : List Char) :
        Option (Pattern × Cursor) :=
      let (greedy, rest) := lazyMark rest
      match repeatLast? least most greedy parts with
      | some parts => body? fuel branches parts { s with rest := rest }
      | none => none
    match skipFree s.free s.rest with
    | [] => some (finished, { s with rest := [] })
    | ')' :: rest => some (finished, { s with rest := ')' :: rest })
    | '|' :: rest => body? fuel (concatOf parts :: branches) [] { s with rest := rest }
    | '(' :: rest =>
      match opening? { s with rest := rest } with
      | none => none
      | some (.directive switches, s') =>
        body? fuel branches (.directive switches :: parts)
          { s' with free := switches.value .freeSpacing s.free }
      | some (.group kind, s') =>
        -- free spacing set in a group ends with it
        let free := match kind with
          | .plain switches => switches.value .freeSpacing s.free
          | .capture _ => s.free
        match body? fuel [] [] { s' with free := free } with
        | some (content, s'') =>
          match s''.rest with
          | ')' :: rest =>
            body? fuel branches (.group kind content :: parts)
              { s'' with rest := rest, free := s.free }
          | _ => none
        | none => none
    | '[' :: rest =>
      let (negated, opening, rest) := classOpening s.free rest
      match classBody? s.free (rest.length + 1) none opening rest with
      | some (tree, rest) => more (.cls (.bracketed negated tree)) rest
      | none => none
    | '?' :: rest => repeated 0 (some 1) rest
    | '*' :: rest => repeated 0 none rest
    | '+' :: rest => repeated 1 none rest
    | '\x7b' :: rest =>
      match counted? s.free rest with
      | some (least, most, rest) => repeated least most (skipFree s.free rest)
      | none => none
    | '\\' :: rest =>
      match escape? s.free rest with
      | some (.literal l, rest) => more (.literal l) rest
      | some (.anchor kind, rest) => more (.anchor kind) rest
      | some (.cls tree, rest) => more (.cls tree) rest
      | none => none
    | '.' :: rest => more .dot rest
    | '^' :: rest => more (.anchor .lineStart) rest
    | '$' :: rest => more (.anchor .lineEnd) rest
    | c :: rest => more (.literal ⟨c, false⟩) rest

/-- How deep the parts of a pattern may be nested. -/
def maxDepth : Nat := 250

/-- The pattern that a text is.  The syntax is the one that `regex-syntax` 0.8 documents, with its
settings as they are by default:

* classes in brackets may be nested, joined by `&&`, `--` and `~~`, and name ASCII classes `[:alpha:]`;
  `\d`, `\s`, `\w` and `\p{..}` stand for classes outside of brackets as well;
* groups are `(..)`, `(?P<name>..)`, `(?<name>..)` and `(?flags:..)`, where a name is used once and
  `(?flags)` holds to the end of its group; the flags are those of `Switch`, each of them once;
* `?`, `*`, `+`, `{n}`, `{n,}` and `{n,m}` repeat the part before them, and have to follow one;
* characters are written by `\x`, `\u` and `\U` with their digits, and a backslash in front of a letter
  or digit without a meaning is refused, so that there are no back references;
* there is no looking around, and parts are nested at most `maxDepth` deep. -/
def parse? (text : String) : Option Pattern :=
  let cs := text.toList
  match body? (cs.length + 1) [] [] ⟨cs, false, 0, []⟩ with
  | some (p, s) => if s.rest.isEmpty && p.depth ≤ maxDepth then some p else none
  | none => none

end IncrementalParsing.Pattern
