import IncrementalParsing.Automaton.Basic
import IncrementalParsing.Automaton.Encoding
import IncrementalParsing.Automaton.Network
import IncrementalParsing.Automaton.Subset
import IncrementalParsing.Binary.Checksum
import IncrementalParsing.Binary.LittleEndian
import IncrementalParsing.Bundled
import IncrementalParsing.CommandLine.Arguments
import IncrementalParsing.CommandLine.Directory
import IncrementalParsing.CommandLine.Execution
import IncrementalParsing.CommandLine.Usage
import IncrementalParsing.Compile
import IncrementalParsing.Diagnostics.ReparseReport
import IncrementalParsing.Diagnostics.Snippet
import IncrementalParsing.Diagnostics.SyntaxErrors
import IncrementalParsing.Grammar.Basic
import IncrementalParsing.Grammar.Fault
import IncrementalParsing.Grammar.Flat
import IncrementalParsing.Grammar.Flattening
import IncrementalParsing.Grammar.Reader
import IncrementalParsing.Grammar.TokenPattern
import IncrementalParsing.Json.Basic
import IncrementalParsing.Json.Printer
import IncrementalParsing.Json.Reader
import IncrementalParsing.Lalr.First
import IncrementalParsing.Lalr.Item
import IncrementalParsing.Lalr.Resolution
import IncrementalParsing.Lalr.StateGraph
import IncrementalParsing.Lalr.SymbolSet
import IncrementalParsing.Main
import IncrementalParsing.Parse.Build
import IncrementalParsing.Parse.Config
import IncrementalParsing.Parse.Event
import IncrementalParsing.Parse.Lexer
import IncrementalParsing.Parse.Parser
import IncrementalParsing.Parse.Recovery
import IncrementalParsing.Parse.Stack
import IncrementalParsing.Parse.Stats
import IncrementalParsing.Parse.Step
import IncrementalParsing.Parse.Walker
import IncrementalParsing.Pattern.Basic
import IncrementalParsing.Pattern.Expression
import IncrementalParsing.Pattern.Meaning
import IncrementalParsing.Pattern.Reader
import IncrementalParsing.Proofs.Binary.Checksum
import IncrementalParsing.Proofs.Binary.Numbers
import IncrementalParsing.Proofs.Diagnostics.ShownErrors
import IncrementalParsing.Proofs.Except
import IncrementalParsing.Proofs.Grammar.Rewriting
import IncrementalParsing.Proofs.Grammar.Expansions
import IncrementalParsing.Proofs.Grammar.Flattening
import IncrementalParsing.Proofs.Grammar.FlatteningRuns
import IncrementalParsing.Proofs.Grammar.Increments
import IncrementalParsing.Proofs.Grammar.Language
import IncrementalParsing.Proofs.Grammar.Numbering
import IncrementalParsing.Proofs.Grammar.OperatorTables
import IncrementalParsing.Proofs.Grammar.Readings
import IncrementalParsing.Proofs.Grammar.SharedTokens
import IncrementalParsing.Proofs.Grammar.TokenLanguages
import IncrementalParsing.Proofs.Lalr.Actions
import IncrementalParsing.Proofs.Lalr.Automata
import IncrementalParsing.Proofs.Lalr.Beginnings
import IncrementalParsing.Proofs.Lalr.Building
import IncrementalParsing.Proofs.Lalr.Canonical
import IncrementalParsing.Proofs.Lalr.Choices
import IncrementalParsing.Proofs.Lalr.Closings
import IncrementalParsing.Proofs.Lalr.Closure
import IncrementalParsing.Proofs.Lalr.Completeness
import IncrementalParsing.Proofs.Lalr.Families
import IncrementalParsing.Proofs.Lalr.Followers
import IncrementalParsing.Proofs.Lalr.Growth
import IncrementalParsing.Proofs.Lalr.Kernels
import IncrementalParsing.Proofs.Lalr.Merged
import IncrementalParsing.Proofs.Lalr.Operations
import IncrementalParsing.Proofs.Lalr.OperatorActions
import IncrementalParsing.Proofs.Lalr.Operators
import IncrementalParsing.Proofs.Lalr.Origins
import IncrementalParsing.Proofs.Lalr.ProductionNumbers
import IncrementalParsing.Proofs.Lalr.StateGraph
import IncrementalParsing.Proofs.Lalr.Statements
import IncrementalParsing.Proofs.Navigation.Cursors
import IncrementalParsing.Proofs.Navigation.HiddenParts
import IncrementalParsing.Proofs.Navigation.Parents
import IncrementalParsing.Proofs.Navigation.Ranges
import IncrementalParsing.Proofs.Navigation.SmallestNodes
import IncrementalParsing.Proofs.Navigation.Walks
import IncrementalParsing.Proofs.Parse.Agreement
import IncrementalParsing.Proofs.Parse.Alike
import IncrementalParsing.Proofs.Parse.Allowance
import IncrementalParsing.Proofs.Parse.AsciiTokens
import IncrementalParsing.Proofs.Parse.Consumption
import IncrementalParsing.Proofs.Parse.Contents
import IncrementalParsing.Proofs.Parse.Coverage
import IncrementalParsing.Proofs.Parse.Damage
import IncrementalParsing.Proofs.Parse.DerivedTrees
import IncrementalParsing.Proofs.Parse.EditedNodes
import IncrementalParsing.Proofs.Parse.EditedTrees
import IncrementalParsing.Proofs.Parse.Ending
import IncrementalParsing.Proofs.Parse.ErrorMarks
import IncrementalParsing.Proofs.Parse.ErrorReports
import IncrementalParsing.Proofs.Parse.ErrorRuns
import IncrementalParsing.Proofs.Parse.FieldsOfExtras
import IncrementalParsing.Proofs.Parse.LevelWalks
import IncrementalParsing.Proofs.Parse.Levels
import IncrementalParsing.Proofs.Parse.Histories
import IncrementalParsing.Proofs.Parse.Lexing
import IncrementalParsing.Proofs.Parse.Likeness
import IncrementalParsing.Proofs.Parse.LongestMatch
import IncrementalParsing.Proofs.Parse.Lookahead
import IncrementalParsing.Proofs.Parse.Moves
import IncrementalParsing.Proofs.Parse.Placement
import IncrementalParsing.Proofs.Parse.Reach
import IncrementalParsing.Proofs.Parse.Records
import IncrementalParsing.Proofs.Parse.Replay
import IncrementalParsing.Proofs.Parse.RestrictedModes
import IncrementalParsing.Proofs.Parse.Reuse
import IncrementalParsing.Proofs.Parse.StackStates
import IncrementalParsing.Proofs.Parse.TakingOver
import IncrementalParsing.Proofs.Parse.Ways
import IncrementalParsing.Proofs.Parse.WholeText
import IncrementalParsing.Proofs.Pattern.Composed
import IncrementalParsing.Proofs.Pattern.Groups
import IncrementalParsing.Proofs.Pattern.Literals
import IncrementalParsing.Proofs.Pattern.Matching
import IncrementalParsing.Proofs.Pattern.Reading
import IncrementalParsing.Proofs.Table.Answers
import IncrementalParsing.Proofs.Table.Bounds
import IncrementalParsing.Proofs.Table.Compiled
import IncrementalParsing.Proofs.Table.Image
import IncrementalParsing.Proofs.Table.Layout
import IncrementalParsing.Proofs.Table.Loading
import IncrementalParsing.Proofs.Table.ReadBack
import IncrementalParsing.Proofs.Table.References
import IncrementalParsing.Proofs.Table.RoundTrip
import IncrementalParsing.Proofs.Table.Sections
import IncrementalParsing.Proofs.Table.Structure
import IncrementalParsing.Proofs.Table.Writing
import IncrementalParsing.Proofs.Text.Characters
import IncrementalParsing.Proofs.Text.Differences
import IncrementalParsing.Proofs.Text.Edits
import IncrementalParsing.Proofs.Text.InputEdits
import IncrementalParsing.Proofs.Text.Slices
import IncrementalParsing.Proofs.Tree.Derivations
import IncrementalParsing.Proofs.Tree.Every
import IncrementalParsing.Proofs.Tree.Extents
import IncrementalParsing.Proofs.Unicode.CodeSets
import IncrementalParsing.Proofs.Worklist
import IncrementalParsing.Sum
import IncrementalParsing.Table.Basic
import IncrementalParsing.Table.Header
import IncrementalParsing.Table.Listing
import IncrementalParsing.Table.Loader
import IncrementalParsing.Table.Writer
import IncrementalParsing.Text.Blank
import IncrementalParsing.Text.Columns
import IncrementalParsing.Text.Edit
import IncrementalParsing.Text.Hex
import IncrementalParsing.Text.InputEdit
import IncrementalParsing.Text.Length
import IncrementalParsing.Text.Palette
import IncrementalParsing.Text.Quoted
import IncrementalParsing.Text.Utf8
import IncrementalParsing.Tree.Basic
import IncrementalParsing.Tree.Cursor
import IncrementalParsing.Tree.Node
import IncrementalParsing.Tree.Outline
import IncrementalParsing.Tree.Subtree
import IncrementalParsing.Unicode.CodeSet
import IncrementalParsing.Unicode.Coding
import IncrementalParsing.Unicode.Data.Additions
import IncrementalParsing.Unicode.Data.Ages
import IncrementalParsing.Unicode.Data.BinaryProperties
import IncrementalParsing.Unicode.Data.Breaks
import IncrementalParsing.Unicode.Data.CaseOrbits
import IncrementalParsing.Unicode.Data.Categories
import IncrementalParsing.Unicode.Data.Scripts
import IncrementalParsing.Unicode.Data.Widths
import IncrementalParsing.Unicode.Latest
import IncrementalParsing.Unicode.Property
import IncrementalParsing.Proofs.Automaton.Network
import IncrementalParsing.Proofs.Automaton.Spelling
import IncrementalParsing.Proofs.Table.Automata
