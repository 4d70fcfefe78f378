import HdlScaffold.Style
import HdlScaffold.Text.Uppercase

/-!
# Whole files

A module file declares one module, perhaps between include guards. A testbench declares a variable for
every port of a module and wires an instance of the module to them.
-/

namespace HdlScaffold

/-- How a file is written. -/
structure FileOptions extends Style where
  /-- Unit and precision of the times in the file. -/
  timescale : Option Text := none
  includeGuards : Bool := false
  deriving Repr

namespace FileOptions

/-- The line that sets the timescale, if there is one to set. -/
def timescaleLine (o : FileOptions) : Text :=
  match o.timescale with
  | some t => "`timescale ".toList ++ t ++ "\n\n".toList
  | none => []

/-- The name of a file that declares the given name. -/
def fileNamed (o : FileOptions) (name : Text) : Text := name ++ ['.'] ++ o.language.extension

/-! ## Module files -/

def moduleFileName (o : FileOptions) (m : Module) : Text := o.fileNamed m.name

/-- The macro that guards the file against being included twice. -/
def guardMacro (o : FileOptions) (m : Module) : Text :=
  m.name.upper ++ ['_'] ++ o.language.extension.upper

/-- The file that declares a module. -/
def moduleFile (o : FileOptions) (m : Module) : Text :=
  let guardName := o.guardMacro m
  let opening := "`ifndef ".toList ++ guardName ++ "\n`define ".toList ++ guardName ++ "\n\n".toList
  let closing := "\n`endif // ".toList ++ guardName ++ ['\n']
  o.timescaleLine ++ (if o.includeGuards then opening else []) ++ o.declaration m ++
    (if o.includeGuards then closing else [])

/-! ## Testbenches -/

def testbenchName (m : Module) : Text := "tb_".toList ++ m.name

def testbenchFileName (o : FileOptions) (m : Module) : Text := o.fileNamed (testbenchName m)

/-- The variables wired to the ports of one direction, under a heading. -/
def testbenchVariables (o : FileOptions) (m : Module) (d : Direction) : Text :=
  if (m.ports.get d).isEmpty then []
  else
    "\t// dut ".toList ++ d.keyword ++ "s\n".toList ++
      ((m.ports.get d).flatMap fun p => ['\t'] ++ o.variableDeclaration p ++ ['\n']) ++ ['\n']

/-- The testbench of a module. -/
def testbench (o : FileOptions) (m : Module) : Text :=
  o.timescaleLine ++ "module ".toList ++ testbenchName m ++ ";\n\n".toList ++
    Direction.all.flatMap (o.testbenchVariables m) ++
    "\tinitial begin\n\t\t$finish;\n\tend\n\n".toList ++
    o.instantiation m "dut".toList ['\t'] ++ "\nendmodule\n".toList

end FileOptions

end HdlScaffold
