import HdlScaffold.Text.Basic

/-!
# Paths

A path is a text whose components are divided by slashes. Nothing here looks at a file system: paths
are joined and taken apart as they are written.
-/

namespace HdlScaffold

/-- A path as it is written. -/
abbrev Path := Text

namespace Path

/-- The path starts at the root. -/
def isAbsolute (p : Path) : Bool := p.head? == some '/'

/-- `p/q`, or `q` alone when it is absolute. -/
def join (p q : Path) : Path :=
  if q.isAbsolute then q
  else if p.isEmpty || p.getLast? == some '/' then p ++ q
  else p ++ '/' :: q

/-- The components between slashes, empty ones included. -/
def segments (p : Path) : List Text := p.splitOn '/'

/-- The components that lead somewhere: neither empty nor a single dot. -/
def names (p : Path) : List Text := p.segments.filter fun s => !s.isEmpty && s != ['.']

/-- The last component, unless it leads upwards. -/
def fileName? (p : Path) : Option Text := p.names.getLast?.filter (· != "..".toList)

/-- What follows the last dot of the file name, unless that dot is its first character. -/
def extension? (p : Path) : Option Text := do
  let (stem, extension) ← Text.cutAtLast? '.' (← p.fileName?)
  if stem.isEmpty then none else some extension

/-- The components as far as creating directories goes: a leading dot counts as one. -/
def steps (p : Path) : List Text :=
  if p.segments.head? = some ['.'] then ['.'] :: p.names else p.names

/-- The path, then the directories above it that it spells out, innermost first. -/
def ancestors (p : Path) : List Path :=
  let root : Path := if p.isAbsolute then ['/'] else []
  match p.steps.length with
  | 0 => []
  | n + 1 => p :: (List.range n).reverse.map fun k =>
      root ++ ['/'].intercalate (p.steps.take (k + 1))

end Path

end HdlScaffold
