import IncrementalParsing.CommandLine.Usage
import IncrementalParsing.Parse.Event

/-!
# Reading command lines

`Invocation.ofArguments` turns the words of a command line into a command, or gives the first
`UsageFault`.  Words are taken in order.  What a word belongs to is checked when the next known
argument or option begins, or at the end, so an unknown word is reported before a bad value right in
front of it.
-/

namespace IncrementalParsing

/-- Why a command line is not run. -/
inductive UsageFault where
  /-- Help was asked for, for a command or for the whole program. -/
  | help (command : Option String)
  /-- Nothing was given. -/
  | nothingGiven
  | unknownArgument (word : String)
  | unknownCommand (word : String)
  | invalidValue (name : String)
  | tooManyValues (name : String)
  | conflict (name : String)
  | missingArgument (name : String)
deriving DecidableEq, Inhabited

/-- When output is coloured. -/
inductive ColorChoice where
  /-- On a terminal. -/
  | auto
  | always
  | never
deriving DecidableEq, Inhabited

/-- How a tree is printed. -/
inductive OutputFormat where
  | tree (spans : Bool)
  | json
  | none
deriving DecidableEq, Inhabited

/-- What is to be done; the arguments are paths. -/
inductive Command where
  | compile (grammar output : String)
  | dump (grammar : String)
  | parse (grammar source : String) (format : OutputFormat)
  | trace (grammar source : String) (verbosity : Verbosity)
  | reparse (grammar old new : String)
deriving DecidableEq, Inhabited

/-- A command with the choice of colours. -/
structure Invocation where
  command : Command
  color : ColorChoice
deriving DecidableEq, Inhabited

/-- What has been found of a command's arguments and options. -/
structure GivenArguments where
  /-- The arguments in order. -/
  arguments : List String
  /-- Options with their values. -/
  values : List (String × String)
  /-- Options without values, as often as they were given. -/
  switches : List String
deriving DecidableEq, Inhabited

/-- A word whose meaning is known but that has not been checked. -/
inductive PendingWord where
  | nothing
  | argument (word : String)
  /-- An option, with its value if that has come. -/
  | option (o : OptionUsage) (value : Option String)
deriving DecidableEq, Inhabited

namespace GivenArguments

def empty : GivenArguments := ⟨[], [], []⟩

/-- Adds the value of an option. -/
def addValue (g : GivenArguments) (o : OptionUsage) (value : String) :
    Except UsageFault GivenArguments :=
  if (g.values.lookup o.name).isSome then .error (.conflict o.name)
  else if o.choices.isEmpty && value.isEmpty then .error (.invalidValue o.name)
  else if !o.choices.isEmpty && !o.choices.contains value then .error (.invalidValue o.name)
  else .ok { g with values := g.values ++ [(o.name, value)] }

/-- Checks a word and adds it. -/
def settle (g : GivenArguments) : PendingWord → Except UsageFault GivenArguments
  | .nothing => .ok g
  | .argument word =>
    if word.isEmpty then .error (.invalidValue word)
    else .ok { g with arguments := g.arguments ++ [word] }
  | .option o none => .error (.invalidValue o.name)
  | .option o (some value) => g.addValue o value

/-- Adds an option without a value. -/
def addSwitch (g : GivenArguments) (u : Usage) (o : OptionUsage) :
    Except UsageFault GivenArguments :=
  if o.name == OptionUsage.help'.name then .error (.help (some u.name))
  else if !o.counted && g.switches.contains o.name then .error (.conflict o.name)
  else .ok { g with switches := g.switches ++ [o.name] }

/-- A word of two hyphens and a name, with a value after an equals sign. -/
def longName (word : List Char) : String × Option String :=
  let text := word.drop 2
  let name := text.takeWhile (· != '=')
  match text.dropWhile (· != '=') with
  | [] => (String.ofList name, none)
  | _ :: value => (String.ofList name, some (String.ofList value))

/-- Takes a word of two hyphens and a name. -/
def takeLong (u : Usage) (g : GivenArguments) (pending : PendingWord) (word : List Char) :
    Except UsageFault (GivenArguments × PendingWord) := do
  let (name, value) := longName word
  match (u.options ++ [OptionUsage.help']).find? (·.long == some name) with
  | none => .error (.unknownArgument name)
  | some o =>
    match o.value, value with
    | none, some _ => .error (.tooManyValues name)
    | none, none => return (← (← g.settle pending).addSwitch u o, .nothing)
    | some _, none => return (← g.settle pending, .option o none)
    | some _, some value => return (← (← g.settle pending).addValue o value, .nothing)

/-- Takes the letters of a word of one hyphen. -/
def takeShort (u : Usage) (g : GivenArguments) (pending : PendingWord) :
    List Char → Except UsageFault (GivenArguments × PendingWord)
  | [] => .ok (g, pending)
  | c :: rest => do
    match (u.options ++ [OptionUsage.help']).find? (·.short == some c) with
    | none => .error (.unknownArgument c.toString)
    | some o =>
      let g ← g.settle pending
      if o.value.isNone then takeShort u (← g.addSwitch u o) .nothing rest
      else
        match rest with
        | [] => return (g, .option o none)
        | '=' :: value => return (← g.addValue o (String.ofList value), .nothing)
        | value => return (← g.addValue o (String.ofList value), .nothing)

/-- Takes a word that is no option. -/
def takeArgument (u : Usage) (g : GivenArguments) (pending : PendingWord) (word : String) :
    Except UsageFault (GivenArguments × PendingWord) := do
  let count := match pending with
    | .argument _ => g.arguments.length + 1
    | _ => g.arguments.length
  if count < u.arguments.length then return (← g.settle pending, .argument word)
  else .error (.unknownArgument word)

/-- Takes the words of a command; after two hyphens alone there are no more options. -/
def take (u : Usage) (g : GivenArguments) (pending : PendingWord) (onlyArguments : Bool) :
    List String → Except UsageFault GivenArguments
  | [] => g.settle pending
  | word :: rest => do
    if onlyArguments then
      let (g, pending) ← takeArgument u g pending word
      take u g pending true rest
    else
      match word.toList, pending with
      | ['-', '-'], _ => take u g pending true rest
      | '-' :: '-' :: _, _ =>
        let (g, pending) ← takeLong u g pending word.toList
        take u g pending false rest
      | '-' :: c :: cs, _ =>
        let (g, pending) ← takeShort u g pending (c :: cs)
        take u g pending false rest
      | _, .option o none => take u g (.option o (some word)) false rest
      | _, _ =>
        let (g, pending) ← takeArgument u g pending word
        take u g pending false rest

/-- How often an option was given. -/
def countOf (g : GivenArguments) (name : String) : Nat := g.switches.count name

/-- The first argument or option that is needed and missing. -/
def missing? (g : GivenArguments) (u : Usage) : Option String :=
  match (u.options.filter (·.required)).find? fun o => (g.values.lookup o.name).isNone with
  | some o => some o.name
  | none => ((u.arguments.drop g.arguments.length).head?).map (·.1)

/-- What colours were asked for. -/
def color (g : GivenArguments) : ColorChoice :=
  match g.values.lookup "color" with
  | some "always" => .always
  | some "never" => .never
  | _ => .auto

/-- How the tree is to be printed. -/
def format (g : GivenArguments) : OutputFormat :=
  if g.switches.contains "quiet" then .none
  else if g.switches.contains "json" then .json
  else .tree (g.switches.contains "spans")

/-- How much is to be shown. -/
def verbosity (g : GivenArguments) : Verbosity :=
  match g.countOf "verbose" with
  | 0 => .normal
  | 1 => .verbose
  | _ => .full

/-- The command of a name. -/
def command? (g : GivenArguments) (name : String) : Option Command :=
  match name, g.arguments with
  | "compile", [grammar] => (g.values.lookup "output").map (.compile grammar ·)
  | "dump", [grammar] => some (.dump grammar)
  | "parse", [grammar, source] => some (.parse grammar source g.format)
  | "trace", [grammar, source] => some (.trace grammar source g.verbosity)
  | "reparse", [grammar, old, new] => some (.reparse grammar old new)
  | _, _ => none

end GivenArguments

namespace Invocation

/-- The usage of a command. -/
def usage? (name : String) : Option Usage := Usage.commands.find? (·.name == name)

/-- Whether a word names a command, or asks for help as one. -/
def isCommand (word : String) : Bool := word == "help" || (usage? word).isSome

/-- The invocation of a command with the words after its name. -/
def ofWords (u : Usage) (words : List String) : Except UsageFault Invocation := do
  let g ← GivenArguments.take u .empty .nothing false words
  if g.switches.contains "json" && g.switches.contains "spans" then .error (.conflict "json")
  else
    match g.missing? u, g.command? u.name with
    | some name, _ => .error (.missingArgument name)
    | none, some command => .ok ⟨command, g.color⟩
    | none, none => .error (.unknownCommand u.name)

/-- What the words after `help` ask for. -/
def helpFor : List String → UsageFault
  | [] => .help none
  | [word] => if isCommand word then .help (some word) else .unknownCommand word
  | word :: next :: _ => .unknownCommand (if isCommand word then next else word)

/-- The invocation that the words of a command line make. -/
def ofArguments : List String → Except UsageFault Invocation
  | [] => .error .nothingGiven
  | word :: rest =>
    match usage? word, word.toList with
    | some u, _ => ofWords u rest
    | none, ['-', '-'] =>
      match rest with
      | [] => .error .nothingGiven
      | next :: _ => .error (if isCommand next then .unknownArgument next else .unknownCommand next)
    | none, '-' :: '-' :: name =>
      match GivenArguments.longName ('-' :: '-' :: name) with
      | ("help", none) => .error (.help none)
      | ("help", some _) => .error (.tooManyValues "help")
      | (name, _) => .error (.unknownArgument name)
    | none, '-' :: c :: _ =>
      .error (if c == 'h' then .help none else .unknownArgument c.toString)
    | none, _ => .error (if word == "help" then helpFor rest else .unknownCommand word)

end Invocation

end IncrementalParsing
