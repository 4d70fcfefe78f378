import HdlScaffold.Direction
import HdlScaffold.Path

/-!
# The two hardware languages

The language decides file extensions and the keywords of declared variables; headers are read alike in
both.
-/

namespace HdlScaffold

/-- The language of a file. -/
inductive Language where
  | verilog
  | systemVerilog
  deriving DecidableEq, Repr

namespace Language

def name : Language → Text
  | verilog => "Verilog".toList
  | systemVerilog => "SystemVerilog".toList

/-- The name in lower case, as it stands in machine-readable output. -/
def tag : Language → Text
  | verilog => "verilog".toList
  | systemVerilog => "systemverilog".toList

/-- The extension of the language's files. -/
def extension : Language → Text
  | verilog => "v".toList
  | systemVerilog => "sv".toList

/-- The language whose files have this extension. -/
def ofExtension? (e : Text) : Option Language :=
  [verilog, systemVerilog].find? fun l => l.extension == e

/-- The language that a path's extension stands for. -/
def ofPath? (p : Path) : Option Language := p.extension?.bind ofExtension?

/-- The keyword that makes an output keep its value. -/
def registerKeyword : Language → Text
  | verilog => "reg".toList
  | systemVerilog => "logic".toList

/-- The keyword of a variable wired to a port of the given direction. -/
def variableKeyword : Language → Direction → Text
  | systemVerilog, _ => "logic".toList
  | verilog, .input => "reg".toList
  | verilog, _ => "wire".toList

@[simp] theorem ofExtension?_extension (l : Language) : ofExtension? l.extension = some l := by
  cases l <;> decide

end Language

end HdlScaffold
