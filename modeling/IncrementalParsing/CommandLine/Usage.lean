/-!
# How commands are used

A `Usage` lists what a command takes: its arguments in order, then its options.  `Usage.help` is the
help text that this makes.  The commands themselves are in `Usage.commands`.
-/

namespace IncrementalParsing

/-- An option of a command. -/
structure OptionUsage where
  name : String
  short : Option Char
  long : Option String
  /-- What the option's value is called; nothing for an option without one. -/
  value : Option String
  /-- The values there are; the first is used where the option is missing.  None means any text. -/
  choices : List String
  required : Bool
  /-- Whether the option may be given more than once. -/
  counted : Bool
  help : String
deriving DecidableEq, Inhabited

/-- A command. -/
structure Usage where
  name : String
  about : String
  /-- The arguments in order, each with its help. -/
  arguments : List (String × String)
  options : List OptionUsage
  examples : List String
deriving DecidableEq, Inhabited

namespace OptionUsage

/-- The option that every command has. -/
def help' : OptionUsage := ⟨"help", some 'h', some "help", none, [], false, false, "Print help"⟩

/-- The option as it is written, by its long name if it has one. -/
def form (o : OptionUsage) : String :=
  (match o.long, o.short with
    | some long, _ => "--" ++ long
    | none, some c => "-" ++ c.toString
    | none, none => "")
  ++ (match o.value with
    | some value => " <" ++ value ++ ">"
    | none => "")
  ++ (if o.counted then "..." else "")

/-- What is said about the option. -/
def remarks (o : OptionUsage) : String :=
  match o.choices with
  | [] => o.help
  | first :: _ =>
    o.help ++ " [default: " ++ first ++ "] [possible values: "
      ++ String.intercalate ", " o.choices ++ "]"

end OptionUsage

namespace Usage

/-- Blanks. -/
def blanks (n : Nat) : String := String.ofList (List.replicate n ' ')

/-- Names with their help, in two columns. -/
def table (rows : List (String × String)) : List String :=
  let width := ((rows.map (·.1.length)).max?).getD 0
  rows.map fun (name, help) => "  " ++ name ++ blanks (width - name.length + 2) ++ help

/-- An option as the first column of a table. -/
def optionName (o : OptionUsage) : String :=
  match o.short, o.long with
  | some c, some _ => "-" ++ c.toString ++ ", " ++ o.form
  | none, some _ => "    " ++ o.form
  | _, none => o.form

/-- How a command is written. -/
def line (program : String) (u : Usage) : String :=
  let required := (u.options.filter (·.required)).map OptionUsage.form
  String.intercalate " "
    ([program, u.name, "[OPTIONS]"] ++ required ++ u.arguments.map fun a => "<" ++ a.1 ++ ">")

/-- The help for a command of a program. -/
def help (program : String) (u : Usage) : String :=
  String.intercalate "\n"
    ([u.about, "", "Usage: " ++ u.line program, "", "Arguments:"]
      ++ table (u.arguments.map fun (name, help) => ("<" ++ name ++ ">", help))
      ++ ["", "Options:"]
      ++ table ((u.options ++ [OptionUsage.help']).map fun o => (optionName o, o.remarks))
      ++ ["", "EXAMPLES:"] ++ u.examples.map fun e => "  " ++ program ++ " " ++ e)
  ++ "\n"

/-- An option without a value. -/
def switch (name : String) (short : Option Char) (long : Option String) (counted : Bool)
    (help : String) : OptionUsage :=
  ⟨name, short, long, none, [], false, counted, help⟩

def color : OptionUsage :=
  ⟨"color", none, some "color", some "WHEN", ["auto", "always", "never"], false, false,
    "Colorize output"⟩

def grammar : String × String :=
  ("GRAMMAR", "grammar.json, compiled table, or bundled grammar name")

def source : String × String := ("SOURCE", "Source file to parse (use \"-\" for stdin)")

def compile : Usage where
  name := "compile"
  about := "Compile a grammar.json into a grammar table"
  arguments := [("GRAMMAR_JSON", "grammar.json to compile")]
  options :=
    [⟨"output", some 'o', some "output", some "FILE", [], true, false,
      "Write the compiled table to file"⟩, color]
  examples := ["compile grammar.json -o calc.sylt"]

def dump : Usage where
  name := "dump"
  about := "Show the symbols, states, and lex modes of a grammar table"
  arguments := [grammar]
  options := [color]
  examples := ["dump grammar.json", "dump calc.sylt --color never", "dump veryl"]

def parse : Usage where
  name := "parse"
  about := "Parse a source file and print its syntax tree"
  arguments := [grammar, source]
  options :=
    [switch "spans" none (some "spans") false "Show source positions",
     switch "json" none (some "json") false "Print the tree as JSON, anonymous nodes included",
     switch "quiet" (some 'q') (some "quiet") false "Don't print the tree, only syntax errors",
     color]
  examples :=
    ["parse grammar.json input.txt", "parse calc.sylt input.txt --spans",
     "parse calc.sylt input.txt --json",
     "parse calc.sylt input.txt -q     # errors only, exit 1 on failure"]

def trace : Usage where
  name := "trace"
  about := "Trace every parser step"
  arguments := [grammar, source]
  options :=
    [switch "verbose" (some 'v') none true
      "Verbosity level (-v adds lexer steps, -vv adds lex modes and token text)", color]
  examples :=
    ["trace grammar.json input.txt", "trace grammar.json input.txt -v    # include lexer steps",
     "trace grammar.json input.txt -vv   # include lex modes and token text"]

def reparse : Usage where
  name := "reparse"
  about := "Parse OLD, then reparse NEW incrementally and report reuse"
  arguments := [grammar, ("OLD", "Source before the edit"), ("NEW", "Source after the edit")]
  options := [color]
  examples := ["reparse grammar.json before.txt after.txt"]

/-- All commands. -/
def commands : List Usage := [compile, dump, parse, trace, reparse]

/-- The name of the program. -/
def program : String := "sylva"

/-- What the command for help is about. -/
def helpAbout : String := "Print this message or the help of the given subcommand(s)"

/-- The help for the command for help. -/
def helpHelp : String :=
  String.intercalate "\n"
    ([helpAbout, "", "Usage: " ++ program ++ " help [COMMAND]...", "", "Arguments:"]
      ++ table [("[COMMAND]...", "Print help for the subcommand(s)")])
  ++ "\n"

/-- The help for the whole program. -/
def programHelp : String :=
  let rows := commands.map (fun u => (u.name, u.about)) ++ [("help", helpAbout)]
  String.intercalate "\n"
    (["Incremental parsing with compiled grammar tables", "", "Usage: " ++ program ++ " <COMMAND>",
      "", "Commands:"] ++ table rows
      ++ ["", "Options:"] ++ table [(optionName OptionUsage.help', OptionUsage.help'.help)])
  ++ "\n"

end Usage

end IncrementalParsing
