import IncrementalParsing.Unicode.CodeSet
import IncrementalParsing.Unicode.Data.Ages
import IncrementalParsing.Unicode.Data.BinaryProperties
import IncrementalParsing.Unicode.Data.Breaks
import IncrementalParsing.Unicode.Data.CaseOrbits
import IncrementalParsing.Unicode.Data.Categories
import IncrementalParsing.Unicode.Data.Scripts

/-!
# Character properties by name

Names are compared loosely: case, blanks, underscores, hyphens and a leading `is` do not count.

* `property?` finds the characters with a binary property, of a general category or of a script;
* `propertyValue?` finds those for which a named property has a named value;
* `foldClosure` adds to a set all characters that differ from its own in case only.
-/

namespace IncrementalParsing.Unicode

/-- The form in which property names are compared. -/
def looseName (name : String) : String :=
  let cs := name.toList
  let dropped := match cs with
    | a :: b :: _ => (a == 'i' || a == 'I') && (b == 's' || b == 'S')
    | _ => false
  let kept := (if dropped then cs.drop 2 else cs).filter fun c =>
    c ≠ ' ' && c ≠ '_' && c ≠ '-' && c.toNat < 0x80
  let lowered := String.ofList (kept.map Char.toLower)
  if dropped && lowered == "c" then "isc" else lowered

/-- The position of the entry among whose names `name` is. -/
def nameIndex? (names : List (List String)) (name : String) : Option Nat :=
  names.findIdx? (·.contains name)

/-- The parts of a text between blanks; `word` are the characters of the first one that have been read,
in reverse. -/
def wordsFrom (word : List Char) : List Char → List String
  | [] => [String.ofList word.reverse]
  | c :: rest =>
    if c == ' ' then String.ofList word.reverse :: wordsFrom [] rest else wordsFrom (c :: word) rest

/-- The names in a line, which are separated by blanks. -/
def namesOf (line : String) : List String := wordsFrom [] line.toList

/-- The characters of the general category with the given short name. -/
def category (short : String) : CodeSet :=
  match nameIndex? categoryNames short with
  | some i => .ofRanges (CodeSet.ofRuns (· == i + 1) 0 categoryRuns)
  | none => .empty

/-- The characters without a category. -/
def unassigned : CodeSet := .ofRanges (CodeSet.ofRuns (· == 0) 0 categoryRuns)

/-- The union of general categories. -/
def categories (shorts : List String) : CodeSet := .unions (shorts.map category)

/-- The groups of general categories and their names. -/
def categoryGroups : List (List String × List String) :=
  [(["casedletter", "lc"], ["lu", "ll", "lt"]),
   (["letter", "l"], ["lu", "ll", "lt", "lm", "lo"]),
   (["mark", "m", "combiningmark"], ["mn", "mc", "me"]),
   (["number", "n"], ["nd", "nl", "no"]),
   (["punctuation", "p", "punct"], ["pc", "pd", "ps", "pe", "pi", "pf", "po"]),
   (["symbol", "s"], ["sm", "sc", "sk", "so"]),
   (["separator", "z"], ["zs", "zl", "zp"])]

/-- The characters of a general category, or of a group of them. -/
def generalCategory? (name : String) : Option CodeSet :=
  if name == "any" then some .univ
  else if name == "ascii" then some (.range 0 0x7F)
  else if name == "assigned" then some unassigned.compl
  else if ["unassigned", "cn"].contains name then some unassigned
  else if ["other", "c"].contains name then
    some (unassigned.union (categories ["cc", "cf", "co"]))
  else
    match categoryGroups.find? (·.1.contains name) with
    | some (_, members) => some (categories members)
    | none => (nameIndex? categoryNames name).map fun i =>
      .ofRanges (CodeSet.ofRuns (· == i + 1) 0 categoryRuns)

/-- The characters of a script. -/
def script? (name : String) : Option CodeSet :=
  (nameIndex? (scriptNames.map namesOf) name).map fun i =>
    .ofRanges (CodeSet.ofRuns (· == i + 1) 0 scriptRuns)

/-- The characters used with a script. -/
def scriptExtension? (name : String) : Option CodeSet := do
  let i ← nameIndex? (scriptNames.map namesOf) name
  let line ← scriptExtensionRanges[i]?
  return .ofRanges (CodeSet.ofGaps 0 (decodePairs [line]))

/-- The characters of a tabulated binary property. -/
def tabulated? (name : String) : Option CodeSet :=
  (binaryPropertyRanges.find? fun entry => (namesOf entry.1).contains name).map fun entry =>
    .ofRanges (CodeSet.ofGaps 0 (decodePairs entry.2))

/-- As `tabulated?`, empty where there is no such table. -/
def tabulated (name : String) : CodeSet := (tabulated? name).getD .empty

def whiteSpace : CodeSet := tabulated "whitespace"
def decimalDigit : CodeSet := category "nd"
def lowercase : CodeSet := (category "ll").union (tabulated "otherlowercase")
def uppercase : CodeSet := (category "lu").union (tabulated "otheruppercase")

/-- Letters, letter numbers and what else is written like them. -/
def alphabetic : CodeSet :=
  .unions [uppercase, lowercase, categories ["lt", "lm", "lo", "nl"], tabulated "otheralphabetic"]

/-- The characters of words: letters, marks, digits, connecting punctuation and joiners. -/
def wordCharacter : CodeSet :=
  .unions [alphabetic, categories ["mn", "mc", "me", "nd", "pc"], tabulated "joincontrol"]

/-- Marks and joiners that extend the character before them. -/
def graphemeExtend : CodeSet := (categories ["me", "mn"]).union (tabulated "othergraphemeextend")

/-- What identifiers may start with. -/
def identifierStart : CodeSet :=
  (CodeSet.unions [categories ["lu", "ll", "lt", "lm", "lo", "nl"], tabulated "otheridstart"]).diff
    ((tabulated "patternsyntax").union (tabulated "patternwhitespace"))

/-- What identifiers may go on with. -/
def identifierContinue : CodeSet :=
  (CodeSet.unions [identifierStart, categories ["mn", "mc", "nd", "pc"],
      tabulated "otheridcontinue"]).diff
    ((tabulated "patternsyntax").union (tabulated "patternwhitespace"))

/-- The characters that have an extent of their own. -/
def graphemeBase : CodeSet :=
  (CodeSet.unions [unassigned, categories ["cc", "cf", "co", "zl", "zp"], graphemeExtend]).compl

/-- The characters of a class of breaks. -/
def breakClass? (names : List String) (runs : List (Nat × Nat)) (name : String) : Option CodeSet :=
  (nameIndex? (names.map namesOf) name).map fun i =>
    .ofRanges (CodeSet.ofRuns (· == i + 1) 0 runs)

/-- Characters that do not count when the case of a word is looked at. -/
def caseIgnorable : CodeSet :=
  .unions (categories ["mn", "me", "cf", "lm", "sk"] ::
    ["midletter", "midnumlet", "singlequote"].filterMap (breakClass? wordBreakNames wordBreakRuns))

/-- Characters that are not shown where they are not supported. -/
def defaultIgnorable : CodeSet :=
  (CodeSet.unions [tabulated "otherdefaultignorablecodepoint", category "cf",
      tabulated "variationselector"]).diff
    (.unions [whiteSpace, .ofRanges [(0xFFF9, 0xFFFB), (0x13430, 0x1343F)],
      tabulated "prependedconcatenationmark"])

/-- The binary properties that follow from others, by their names. -/
def derivedProperty? (name : String) : Option CodeSet :=
  match name with
  | "alphabetic" | "alpha" => some alphabetic
  | "lowercase" | "lower" => some lowercase
  | "uppercase" | "upper" => some uppercase
  | "cased" => some (.unions [lowercase, uppercase, category "lt"])
  | "caseignorable" | "ci" => some caseIgnorable
  | "math" => some ((category "sm").union (tabulated "othermath"))
  | "changeswhencasemapped" | "cwcm" =>
    some (.unions (["cwl", "cwu", "cwt"].map tabulated))
  | "defaultignorablecodepoint" | "di" => some defaultIgnorable
  | "graphemebase" | "grbase" => some graphemeBase
  | "graphemeextend" | "grext" => some graphemeExtend
  | "idstart" | "ids" => some identifierStart
  | "idcontinue" | "idc" => some identifierContinue
  | "xidstart" | "xids" => some (identifierStart.diff (tabulated "notxidstart"))
  | "xidcontinue" | "xidc" => some (identifierContinue.diff (tabulated "notxidcontinue"))
  | _ => none

/-- The characters with a binary property. -/
def binaryProperty? (name : String) : Option CodeSet :=
  (derivedProperty? name).or (if name.startsWith "notxid" then none else tabulated? name)

/-- The characters meant by a single name: a binary property, a general category or a script. -/
def property? (name : String) : Option CodeSet :=
  let name := looseName name
  ((binaryProperty? name).or (generalCategory? name)).or (script? name)

/-- The characters assigned up to a version. -/
def assignedBy? (name : String) : Option CodeSet :=
  (nameIndex? (ageNames.map namesOf) name).map fun i =>
    .ofRanges (CodeSet.ofRuns (fun cls => 0 < cls && cls ≤ i + 1) 0 ageRuns)

/-- The characters for which a property has a value. -/
def propertyValue? (property value : String) : Option CodeSet :=
  let value := looseName value
  match looseName property with
  | "generalcategory" | "gc" => generalCategory? value
  | "script" | "sc" => script? value
  | "scriptextensions" | "scx" => scriptExtension? value
  | "age" => assignedBy? value
  | "graphemeclusterbreak" | "gcb" => breakClass? graphemeBreakNames graphemeBreakRuns value
  | "wordbreak" | "wb" => breakClass? wordBreakNames wordBreakRuns value
  | "sentencebreak" | "sb" => breakClass? sentenceBreakNames sentenceBreakRuns value
  | _ => none

/-- The pairs of a run of case orbits. -/
def casePairs (first count step distance : Nat) : List (List Nat) :=
  (List.range count).map fun i => [first + i * step, first + i * step + distance]

/-- The orbits of all runs of pairs. -/
def expandCaseRuns (first : Nat) : List Nat → List (List Nat)
  | gap :: more :: step :: distance :: rest =>
    casePairs (first + gap) (more + 1) step distance ++ expandCaseRuns (first + gap) rest
  | _ => []

/-- All sets of characters that differ in case only. -/
def caseOrbits : List (List Nat) := expandCaseRuns 0 casePairRuns ++ largeCaseOrbits

/-- The set with all characters that differ from one of its own in case only. -/
def foldClosure (s : CodeSet) : CodeSet :=
  .ofRanges (s.ranges ++ (caseOrbits.filter (·.any s.mem)).flatMap fun orbit =>
    orbit.map fun c => (c, c))

/-- Whether a character has others that differ from it in case only. -/
def hasCase (c : Char) : Bool := caseOrbits.any (·.contains c.toNat)

/-- The set with both cases of its ASCII letters. -/
def asciiFoldClosure (s : CodeSet) : CodeSet :=
  .ofRanges (s.ranges ++ s.ranges.flatMap fun r =>
    ((CodeSet.clip 65 90 r).map fun r => (r.1 + 32, r.2 + 32)).toList ++
    ((CodeSet.clip 97 122 r).map fun r => (r.1 - 32, r.2 - 32)).toList)

end IncrementalParsing.Unicode
