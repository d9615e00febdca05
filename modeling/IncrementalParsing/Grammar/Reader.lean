import IncrementalParsing.Grammar.Basic
import IncrementalParsing.Json.Reader

/-!
# Reading grammars

A grammar is written as a JSON object.  Its members and those of rules are found by name in any
order; unknown ones are skipped and a known one that is repeated is refused.  A record may also be
written as an array of its members' values in their order, a rule with its type in front.

`Grammar.parse` reads a text, `Grammar.ofJson` a value.
-/

namespace IncrementalParsing

/-- Why a text is no grammar. -/
inductive GrammarFault where
  /-- It is not JSON, or not of the right shape. -/
  | malformed
  | noRules (name : String)
deriving DecidableEq, Inhabited

namespace GrammarFault

/-- The wording of a fault. -/
def message : GrammarFault → String
  | .malformed => "invalid grammar JSON"
  | .noRules name => s!"grammar '{name}' defines no rules"

end GrammarFault

namespace Json

mutual

/-- Whether every string is text, every number in range, and nothing nested deeper than `depth`. -/
def isSound (depth : Nat) : Json → Bool
  | .unpaired => false
  | .number n => !n.isTooLarge
  | .array elements => match depth with
    | 0 => false
    | depth + 1 => areSound depth elements
  | .object members => match depth with
    | 0 => false
    | depth + 1 => areSoundMembers depth members
  | _ => true

def areSound (depth : Nat) : List Json → Bool
  | [] => true
  | v :: rest => v.isSound depth && areSound depth rest

def areSoundMembers (depth : Nat) : List (Option String × Json) → Bool
  | [] => true
  | (name, v) :: rest => name.isSome && v.isSound depth && areSoundMembers depth rest

end

/-- The values of a record's members in the order of `names`: those of an object by name, each at
most once, or the elements of an array that is not longer. -/
def record? (names : List String) : Json → Option (List (Option Json))
  | .object members =>
    if members.all (·.1.isSome) && names.all fun n => (members.countP (·.1 == some n)) ≤ 1 then
      some (names.map fun n => (members.find? (·.1 == some n)).map (·.2))
    else none
  | .array elements =>
    if elements.length ≤ names.length then
      some ((List.range names.length).map fun i => elements[i]?)
    else none
  | _ => none

def text? : Json → Option String
  | .string s => some s
  | _ => none

def texts? : Json → Option (List String)
  | .array elements => elements.mapM text?
  | _ => none

/-- An integer of 32 bits. -/
def int32? : Json → Option Int
  | .number (.integer n) => if -2147483648 ≤ n && n ≤ 2147483647 then some n else none
  | _ => none

end Json

/-- How a record is told from others: its type, and what it holds besides. -/
structure Tagged where
  type : String
  body : Json

namespace Tagged

/-- The types of rules, in the order of their numbers. -/
def ruleTypes : List String :=
  ["BLANK", "STRING", "PATTERN", "SYMBOL", "SEQ", "CHOICE", "REPEAT", "REPEAT1", "FIELD", "ALIAS",
   "TOKEN", "IMMEDIATE_TOKEN", "PREC", "PREC_LEFT", "PREC_RIGHT", "PREC_DYNAMIC", "RESERVED"]

/-- The type itself; inside another record it may also be given by its number. -/
def typeOf? (types : List String) (nested : Bool) : Json → Option String
  | .string s => if types.contains s then some s else none
  | .number (.integer n) =>
    if nested && 0 ≤ n then types[n.toNat]? else none
  | _ => none

/-- Takes the type out of a record. -/
def ofJson? (types : List String) (nested : Bool) : Json → Option Tagged
  | .object members =>
    match members.filter (·.1 == some "type") with
    | [(_, type)] => do
      return ⟨← typeOf? types nested type, .object (members.filter (·.1 != some "type"))⟩
    | _ => none
  | .array (type :: rest) => do return ⟨← typeOf? types nested type, .array rest⟩
  | _ => none

end Tagged

namespace Precedence

def ofJson? : Json → Option Precedence
  | .string s => some (.named s)
  | v => v.int32?.map .integer

end Precedence

namespace PrecedenceEntry

def ofJson? (v : Json) : Option PrecedenceEntry := do
  let tagged ← Tagged.ofJson? ["STRING", "SYMBOL"] false v
  if tagged.type == "STRING" then
    match ← tagged.body.record? ["value"] with
    | [some (.string s)] => some (.named s)
    | _ => none
  else
    match ← tagged.body.record? ["name"] with
    | [some (.string s)] => some (.symbol s)
    | _ => none

end PrecedenceEntry

namespace Rule

/-- A rule; `fuel` bounds how deep rules are nested in each other. -/
def ofJson? (fuel : Nat) (nested : Bool) (v : Json) : Option Rule :=
  match fuel with
  | 0 => none
  | fuel + 1 => do
    let tagged ← Tagged.ofJson? Tagged.ruleTypes nested v
    let part (v : Json) : Option Rule := ofJson? fuel true v
    let parts : Json → Option (List Rule)
      | .array elements => elements.mapM part
      | _ => none
    let precedence (assoc : Associativity) : Option Rule := do
      match ← tagged.body.record? ["value", "content"] with
      | [some value, some content] =>
        return .prec assoc (← Precedence.ofJson? value) (← part content)
      | _ => none
    let single (wrap : Rule → Rule) : Option Rule := do
      match ← tagged.body.record? ["content"] with
      | [some content] => (part content).map wrap
      | _ => none
    match tagged.type with
    | "BLANK" =>
      match tagged.body with
      | .array (_ :: _) => none
      | _ => some .blank
    | "STRING" =>
      match ← tagged.body.record? ["value"] with
      | [some (.string s)] => some (.string s)
      | _ => none
    | "PATTERN" =>
      match ← tagged.body.record? ["value", "flags"] with
      | [some (.string s), none] => some (.pattern s none)
      | [some (.string s), some .null] => some (.pattern s none)
      | [some (.string s), some (.string flags)] => some (.pattern s (some flags))
      | _ => none
    | "SYMBOL" =>
      match ← tagged.body.record? ["name"] with
      | [some (.string s)] => some (.symbol s)
      | _ => none
    | "SEQ" =>
      match ← tagged.body.record? ["members"] with
      | [some members] => (parts members).map .seq
      | _ => none
    | "CHOICE" =>
      match ← tagged.body.record? ["members"] with
      | [some members] => (parts members).map .choice
      | _ => none
    | "REPEAT" => single .zeroOrMore
    | "REPEAT1" => single .oneOrMore
    | "FIELD" =>
      match ← tagged.body.record? ["name", "content"] with
      | [some (.string s), some content] => (part content).map (.field s)
      | _ => none
    | "ALIAS" =>
      match ← tagged.body.record? ["content", "value", "named"] with
      | [some content, some (.string s), some (.bool named)] =>
        (part content).map (.alias · s named)
      | _ => none
    | "TOKEN" => single .token
    | "IMMEDIATE_TOKEN" => single .immediateToken
    | "PREC" => precedence .none
    | "PREC_LEFT" => precedence .left
    | "PREC_RIGHT" => precedence .right
    | "PREC_DYNAMIC" =>
      match ← tagged.body.record? ["value", "content"] with
      | [some value, some content] => return .precDynamic (← value.int32?) (← part content)
      | _ => none
    | "RESERVED" =>
      match ← tagged.body.record? ["context_name", "content"] with
      | [some (.string s), some content] => (part content).map (.reserved s)
      | _ => none
    | _ => none

/-- The number of values that may be nested in each other. -/
def maxDepth : Nat := 127

/-- A rule that is not part of another one, `depth` values inside the whole. -/
def read? (depth : Nat) (v : Json) : Option Rule :=
  if v.isSound (maxDepth - depth) then ofJson? (maxDepth + 1) false v else none

def readList? (depth : Nat) : Json → Option (List Rule)
  | .array elements => elements.mapM (read? (depth + 1))
  | _ => none

end Rule

namespace Grammar

/-- Puts an entry at the end of a list, or replaces the value of the entry of that name. -/
def putEntry {α : Type} (entries : List (String × α)) (name : String) (value : α) :
    List (String × α) :=
  if entries.any (·.1 == name) then
    entries.map fun e => if e.1 == name then (name, value) else e
  else entries ++ [(name, value)]

/-- The members of an object, each name where it was first written with what was written last. -/
def entries? {α : Type} (read : Json → Option α) : Json → Option (List (String × α))
  | .object members => do
    let read' ← members.mapM fun (name, v) => do return (← name, ← read v)
    return read'.foldl (fun out (name, v) => putEntry out name v) []
  | _ => none

/-- The value of a member, or a default where it is not written. -/
def orElse {α : Type} (default : α) (read : Json → Option α) : Option Json → Option α
  | none => some default
  | some v => read v

/-- The shape of a grammar, whether or not it has rules. -/
def ofJson? (v : Json) : Option Grammar := do
  let values ← v.record? ["name", "rules", "extras", "precedences", "conflicts", "externals",
    "inline", "supertypes", "word", "reserved"]
  match values with
  | [name, rules, extras, precedences, conflicts, externals, inlined, supertypes, word,
      reserved] =>
    let level : Json → Option (List PrecedenceEntry)
      | .array elements => elements.mapM fun e =>
        if e.isSound (Rule.maxDepth - 3) then PrecedenceEntry.ofJson? e else none
      | _ => none
    let lists {α : Type} (read : Json → Option α) : Json → Option (List α)
      | .array elements => elements.mapM read
      | _ => none
    let optional : Json → Option (Option String)
      | .null => some none
      | v => v.text?.map some
    return {
      name := ← (← name).text?
      rules := ← entries? (Rule.read? 2) (← rules)
      extras := ← orElse [] (Rule.readList? 1) extras
      precedences := ← orElse [] (lists level) precedences
      conflicts := ← orElse [] (lists Json.texts?) conflicts
      externals := ← orElse [] (Rule.readList? 1) externals
      inlined := ← orElse [] Json.texts? inlined
      supertypes := ← orElse [] Json.texts? supertypes
      word := ← orElse none optional word
      reserved := ← orElse [] (entries? (Rule.readList? 2)) reserved }
  | _ => none

/-- The grammar that a value describes. -/
def ofJson (v : Json) : Except GrammarFault Grammar :=
  match ofJson? v with
  | none => .error .malformed
  | some g => if g.rules.isEmpty then .error (.noRules g.name) else .ok g

/-- The grammar that a text describes. -/
def parse (text : String) : Except GrammarFault Grammar :=
  match Json.parse? text with
  | none => .error .malformed
  | some v => ofJson v

end Grammar

end IncrementalParsing
