import HdlScaffold.Document

/-!
# Settings
-/

namespace HdlScaffold

/-- What a user can settle once for all commands. -/
structure Settings where
  /-- Columns between tab stops. -/
  tabWidth : Nat := Indent.defaultTabWidth
  /-- The column at which the last field of a declaration starts. -/
  column : Nat := Indent.defaultColumn
  /-- Signals drop the ending of their port's name that names a direction. -/
  stripEndings : Bool := true
  deriving DecidableEq, Repr

namespace Settings

/-- Tab stops are at least one column apart. -/
def isValid (s : Settings) : Bool := s.tabWidth != 0

def indent (s : Settings) : Indent := .ofColumns s.tabWidth s.column

/-- The options of a file under these settings, everything else left at its default. -/
def fileOptions (s : Settings) : FileOptions :=
  { indent := s.indent, stripEndings := s.stripEndings }

end Settings

end HdlScaffold
