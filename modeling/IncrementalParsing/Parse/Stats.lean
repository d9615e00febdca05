import IncrementalParsing.Parse.Event

/-!
# Counting what a parse did

`Stats.ofEvents` sums up the events of a parse.
-/

namespace IncrementalParsing

/-- What a parse took to get done. -/
structure Stats where
  /-- Tokens found in the text. -/
  lexed : Nat
  /-- Parts of the old tree that were taken over whole. -/
  reused : Nat
  /-- The bytes of those parts, with their padding. -/
  bytesReused : Nat
  /-- Repairs of errors. -/
  recoveries : Nat
deriving DecidableEq, Inhabited

namespace Stats

/-- Nothing done. -/
def zero : Stats := ⟨0, 0, 0, 0⟩

/-- The counts with one more event. -/
def add (s : Stats) : Event → Stats
  | .lex .. => { s with lexed := s.lexed + 1 }
  | .reuse _ _ _ _ total => { s with reused := s.reused + 1, bytesReused := s.bytesReused + total }
  | .recover .. => { s with recoveries := s.recoveries + 1 }
  | .shift .. | .extra .. | .reduce .. | .accept .. => s

/-- The counts of all events. -/
def ofEvents (events : List Event) : Stats := events.foldl add zero

end Stats

end IncrementalParsing
