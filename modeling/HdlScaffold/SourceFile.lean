import HdlScaffold.Header.Reading
import HdlScaffold.Json
import HdlScaffold.Language

/-!
# Source files

What is known of a source file: its language, its timescale and the first module it declares.
-/

namespace HdlScaffold

/-- What is read from a source file. -/
structure SourceFile where
  language : Language
  timescale : Option Text
  module : Module

namespace SourceFile

/-- The first module of a source with the first timescale. -/
def reading (language : Language) : Header.Reading (Option SourceFile) := do
  match ← Header.firstModule? with
  | none => return none
  | some m => return some ⟨language, ← Header.firstTimescale?, m⟩

/-- The file as a listing for a reader. -/
def summary (f : SourceFile) : Text :=
  "language: ".toList ++ f.language.name ++ ['\n'] ++
    (match f.timescale with
      | some t => "timescale: ".toList ++ t ++ ['\n']
      | none => []) ++ f.module.summary ++ ['\n']

/-- The file for a program to read. -/
def toJson (f : SourceFile) : Json :=
  .object [Json.entry "language" (.string f.language.tag),
    Json.entry "timescale" (f.timescale.elim .null .string),
    Json.entry "module" f.module.toJson]

end SourceFile

end HdlScaffold
