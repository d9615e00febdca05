import IncrementalParsing.Bundled
import IncrementalParsing.CommandLine.Arguments
import IncrementalParsing.Diagnostics.ReparseReport
import IncrementalParsing.Diagnostics.SyntaxErrors
import IncrementalParsing.Table.Listing
import IncrementalParsing.Tree.Outline

/-!
# Running commands

`Command.execute` says what a command prints, writes and ends with, given the files that it may read.
It reads nothing itself, so what a command does is a function of its arguments and of the files.
-/

namespace IncrementalParsing

/-- What a path leads to. -/
inductive FileState where
  | content (bytes : ByteArray)
  /-- Nothing is there; `reason` says how the system puts it. -/
  | absent (reason : String)
  /-- Something is there that cannot be read. -/
  | unreadable (reason : String)
deriving Inhabited

/-- What a command can read. -/
structure Inputs where
  file : String → FileState
  /-- What is read from standard input: the first time all of it, after that nothing. -/
  standardInput : ByteArray

/-- What a command does. -/
structure Outcome where
  status : Nat
  output : String
  errors : String
  /-- A file to be written. -/
  written : Option (String × ByteArray)
  /-- What is said once the file is written. -/
  confirmation : String
deriving Inhabited

/-- Why a command cannot be carried out. -/
inductive CommandFault where
  /-- A file cannot be read; the path and the reason. -/
  | unreadable (path reason : String)
  | unreadableInput (reason : String)
  /-- A grammar that is neither a table nor text. -/
  | noGrammar (path : String)
  | table (fault : TableFault)
  | load (fault : LoadFault)
  | parse (fault : ParseFault)
deriving DecidableEq, Inhabited

namespace CommandFault

/-- The wording of a fault. -/
def message : CommandFault → String
  | .unreadable path reason => s!"failed to read '{path}': {reason}"
  | .unreadableInput reason => s!"failed to read stdin: {reason}"
  | .noGrammar path => s!"grammar '{path}' is neither a compiled table nor UTF-8 JSON"
  | .table fault => fault.message
  | .load fault => fault.message
  | .parse fault => fault.message

end CommandFault

namespace Outcome

/-- Only a message, and failure. -/
def failure (message : String) : Outcome := ⟨1, "", "error: " ++ message ++ "\n", none, ""⟩

/-- Output alone. -/
def printed (status : Nat) (output : String) : Outcome := ⟨status, output, "", none, ""⟩

end Outcome

namespace Inputs

/-- The bytes of a file. -/
def bytes (i : Inputs) (path : String) : Except CommandFault ByteArray :=
  match i.file path with
  | .content bytes => .ok bytes
  | .absent reason => .error (.unreadable path reason)
  | .unreadable reason => .error (.unreadable path reason)

/-- What is said of bytes that are no text. -/
def notText : String := "stream did not contain valid UTF-8"

/-- The text of a file, or of standard input. -/
def text (i : Inputs) (path : String) : Except CommandFault String := do
  if path == "-" then
    match Utf8.decode i.standardInput with
    | .ok text => .ok text
    | .error _ => .error (.unreadableInput notText)
  else
    match Utf8.decode (← i.bytes path) with
    | .ok text => .ok text
    | .error _ => .error (.unreadable path notText)

/-- The inputs after one text was read. -/
def after (i : Inputs) (path : String) : Inputs :=
  if path == "-" then { i with standardInput := .empty } else i

/-- The grammar in a file. -/
def grammarText (path : String) (bytes : ByteArray) : Except CommandFault Grammar :=
  match Utf8.decode bytes with
  | .error _ => .error (.noGrammar path)
  | .ok text =>
    match Grammar.parse text with
    | .ok g => .ok g
    | .error fault => .error (.table (.compile (.grammar fault)))

/-- The table of a bundled grammar. -/
def bundled? (i : Inputs) (name : String) : Option Grammar :=
  match i.file name with
  | .absent _ => Bundled.find? name
  | _ => none

/-- The table that a path leads to: a table, a grammar, or where there is no file a bundled one. -/
def table (i : Inputs) (path : String) : Except CommandFault Table := do
  let compiled (g : Grammar) : Except CommandFault Table :=
    match g.table with
    | .ok t => .ok t
    | .error fault => .error (.table fault)
  match i.bundled? path with
  | some g => compiled g
  | none =>
    let bytes ← i.bytes path
    if (bytes.extract 0 4).toList == Header.tableMagic then
      match Table.load bytes with
      | .ok t => .ok t
      | .error fault => .error (.load fault)
    else compiled (← grammarText path bytes)

end Inputs

namespace Command

/-- The paths that a command may read. -/
def reads : Command → List String
  | .compile grammar _ | .dump grammar => [grammar]
  | .parse grammar source _ | .trace grammar source _ => [grammar, source]
  | .reparse grammar old new => [grammar, old, new]

/-- The status of a command that breaks off. -/
def brokenOff : Nat := 101

/-- Makes a table and writes it to a file. -/
def runCompile (i : Inputs) (c : Palette) (grammar output : String) :
    Except CommandFault Outcome := do
  let g ← Inputs.grammarText grammar (← i.bytes grammar)
  match g.compile with
  | .error fault => .error (.table (.compile fault))
  | .ok bytes =>
    return {
      status := 0
      output := ""
      errors := ""
      written := some (output, bytes)
      confirmation := c.paint c.green "compiled" ++ s!" {output} ({bytes.size} bytes)\n" }

/-- Parses a text in the language of a table. -/
def parseText (t : Table) (text : String) : Except CommandFault Parsed :=
  match Language.tryParse ⟨0, t⟩ text none with
  | .ok p => .ok p
  | .error fault => .error (.parse fault)

/-- Parses a file and prints the tree, and the errors in it.  The command breaks off, without a word
about any of them, where there is an error that cannot be shown. -/
def runParse (i : Inputs) (grammar source : String) (format : OutputFormat) :
    Except CommandFault Outcome := do
  let t ← i.table grammar
  let text ← i.text source
  let tree := (← parseText t text).tree
  let output := match format with
    | .tree spans => tree.node.outline spans
    | .json => (tree.node.toJson text.toUTF8).pretty ++ "\n"
    | .none => ""
  if tree.hasError then
    if tree.syntaxErrors.all (isShowable text.toUTF8) then
      return ⟨1, output, renderErrors text source tree.syntaxErrors, none, ""⟩
    else return .printed brokenOff output
  else return .printed 0 output

/-- Parses a file and prints what happens, then the tree.  A text that is not parsed has a status of its
own here. -/
def runTrace (i : Inputs) (c : Palette) (grammar source : String) (v : Verbosity) :
    Except CommandFault Outcome := do
  let t ← i.table grammar
  let text ← i.text source
  match Language.tryParse ⟨0, t⟩ text none with
  | .error fault => return { Outcome.failure fault.message with status := 2 }
  | .ok p =>
    let lines := p.events.filterMap (Event.line? t text.toUTF8 v c) ++ [c.paint c.dim "---"]
    return .printed (if p.tree.hasError then 1 else 0)
      (String.join (lines.map (· ++ "\n")) ++ p.tree.node.outline true)

/-- Compares a reparse with a parse. -/
def runReparse (i : Inputs) (c : Palette) (grammar old new : String) :
    Except CommandFault Outcome := do
  let t ← i.table grammar
  let before ← i.text old
  let after ← (i.after old).text new
  match ReparseReport.make ⟨0, t⟩ before after with
  | .ok r => return .printed (if r.matchesFull then 0 else 1) (r.render c)
  | .error fault => .error (.parse fault)

/-- What a command does, in colours or not. -/
def execute (i : Inputs) (colored : Bool) (command : Command) : Outcome :=
  let c := Palette.ofBool colored
  let outcome : Except CommandFault Outcome := match command with
    | .compile grammar output => runCompile i c grammar output
    | .dump grammar => (i.table grammar).map fun t => .printed 0 (t.listingText c)
    | .parse grammar source format => runParse i grammar source format
    | .trace grammar source v => runTrace i c grammar source v
    | .reparse grammar old new => runReparse i c grammar old new
  match outcome with
  | .ok outcome => outcome
  | .error fault => .failure fault.message

end Command

namespace UsageFault

/-- The wording of a fault. -/
def message : UsageFault → String
  | .help _ | .nothingGiven => ""
  | .unknownArgument word => s!"unexpected argument '{word}' found"
  | .unknownCommand word => s!"unrecognized subcommand '{word}'"
  | .invalidValue name => s!"invalid value for '{name}'"
  | .tooManyValues name => s!"unexpected value for '{name}' found"
  | .conflict name => s!"the argument '{name}' cannot be used here"
  | .missingArgument name => s!"the argument '{name}' was not provided"

/-- What is done instead of a command. -/
def outcome : UsageFault → Outcome
  | .help none => .printed 0 Usage.programHelp
  | .help (some command) =>
    .printed 0 (match Invocation.usage? command with
      | some u => u.help Usage.program
      | none => Usage.helpHelp)
  | .nothingGiven => ⟨2, "", Usage.programHelp, none, ""⟩
  | fault =>
    let hint := "For more information, try '--help'."
    ⟨2, "", "error: " ++ fault.message ++ "\n\n" ++ hint ++ "\n", none, ""⟩

end UsageFault

/-- What a command line does; on a terminal output is coloured unless that is asked otherwise. -/
def runArguments (i : Inputs) (terminal : Bool) (arguments : List String) : Outcome :=
  match Invocation.ofArguments arguments with
  | .error fault => fault.outcome
  | .ok invocation =>
    let colored := match invocation.color with
      | .auto => terminal
      | .always => true
      | .never => false
    invocation.command.execute i colored

/-- The outcome once its file was written, or failed to be for a reason. -/
def Outcome.finished (o : Outcome) (failure : Option String) : Outcome :=
  match o.written, failure with
  | some (path, _), some reason => .failure s!"failed to write '{path}': {reason}"
  | _, _ => { o with errors := o.errors ++ o.confirmation }

end IncrementalParsing
