import HdlScaffold.Document
import HdlScaffold.Sink

/-!
# Writing modules to a sink

Declarations, instantiations and whole files are all written the same way.
-/

namespace HdlScaffold

/-- What can be written of a module. -/
inductive Document where
  | declaration
  | instantiation
  | moduleFile
  | testbench
  deriving DecidableEq, Repr

/-- The text of a document. -/
def FileOptions.document (o : FileOptions) (m : Module) : Document → Text
  | .declaration => o.declaration m
  | .instantiation => o.defaultInstantiation m
  | .moduleFile => o.moduleFile m
  | .testbench => o.testbench m

/-- Writes a document of a module. -/
def Sink.emit (s : Sink) (o : FileOptions) (m : Module) (d : Document) : Except Error Unit × Sink :=
  s.writeText (o.document m d)

end HdlScaffold
