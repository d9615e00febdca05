import IncrementalParsing.Compile

/-!
# Bundled grammars

Grammars that can be used by name, without a file.
-/

namespace IncrementalParsing.Bundled

/-- A first grammar for Veryl: a source file is a greeting. -/
def veryl : Grammar where
  name := "veryl"
  rules := [("source_file", .string "hello")]
  extras := [.pattern "\\s" none]
  precedences := []
  conflicts := []
  externals := []
  inlined := []
  supertypes := []
  word := none
  reserved := []

/-- All bundled grammars. -/
def all : List Grammar := [veryl]

/-- The grammar of a name, in whatever case its letters are. -/
def find? (name : String) : Option Grammar :=
  all.find? fun g => g.name.toLower == name.toLower

end IncrementalParsing.Bundled
