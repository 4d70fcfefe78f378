import HdlScaffold.Indent
import HdlScaffold.Language
import HdlScaffold.Module

/-!
# Declarations and instantiations

The texts that declare a module and that instantiate it. Every entry of a list has a line of its own,
its last field moved to the column of the style.
-/

namespace HdlScaffold

/-- How declarations are laid out. -/
structure Style where
  indent : Indent
  language : Language := .verilog
  /-- Outputs are declared as registers. -/
  outputReg : Bool := false
  /-- Signals drop the ending of their port's name that names a direction. -/
  stripEndings : Bool := true
  deriving Repr

/-- One entry to a line, with a comma after each but the last. -/
def listLines (margin : Text) : List Text → Text
  | [] => []
  | [entry] => margin ++ entry ++ ['\n']
  | entry :: rest => margin ++ entry ++ ",\n".toList ++ listLines margin rest

namespace Style

/-- The fields of a port's declaration. -/
def portFields (s : Style) (p : Port) : List Text :=
  [p.direction.keyword] ++
    (if s.outputReg && p.direction = .output then [s.language.registerKeyword] else []) ++
    (p.width.map Width.text).toList ++ [p.identifier]

/-- A port's declaration, without the comma. -/
def portDeclaration (s : Style) (p : Port) : Text := s.indent.align (s.portFields p)

/-- The fields of the declaration of the variable wired to a port. -/
def variableFields (s : Style) (p : Port) : List Text :=
  [s.language.variableKeyword p.direction] ++ (p.width.map Width.text).toList ++
    [p.signal s.stripEndings]

/-- The declaration of the variable wired to a port. -/
def variableDeclaration (s : Style) (p : Port) : Text :=
  s.indent.align (s.variableFields p) ++ [';']

/-- A parameter's declaration, without the comma. -/
def parameterDeclaration (s : Style) (p : Parameter) : Text :=
  s.indent.align ["parameter".toList, p.declaration]

/-- A value passed by name. -/
def connection (s : Style) (name value : Text) : Text :=
  s.indent.align ['.' :: name, ['('] ++ value ++ [')']]

/-- The declaration of a module with an empty body. -/
def declaration (s : Style) (m : Module) : Text :=
  let parameters :=
    if m.parameters.isEmpty then []
    else " #(\n".toList ++ listLines ['\t'] (m.parameters.map s.parameterDeclaration) ++ [')']
  let ports :=
    if m.ports.toList.isEmpty then " ();\n".toList
    else " (\n".toList ++ listLines ['\t'] (m.ports.toList.map s.portDeclaration) ++ ");\n".toList
  "module ".toList ++ m.name ++ parameters ++ ports ++ "\nendmodule\n".toList

/-- The instantiation of a module under the given name, with `margin` in front of every line. -/
def instantiation (s : Style) (m : Module) (instanceName margin : Text) : Text :=
  let inner := margin ++ ['\t']
  let parameters :=
    if m.parameters.isEmpty then []
    else
      " #(\n".toList ++
        listLines inner (m.parameters.map fun p => s.connection p.identifier p.passedValue) ++
        margin ++ [')']
  let ports :=
    if m.ports.toList.isEmpty then " ();\n".toList
    else
      " (\n".toList ++
        listLines inner
          (m.ports.toList.map fun p => s.connection p.identifier (p.signal s.stripEndings)) ++
        margin ++ ");\n".toList
  margin ++ m.name ++ parameters ++ [' '] ++ instanceName ++ ports

/-- The instantiation under the name that an instance gets when none is given. -/
def defaultInstantiation (s : Style) (m : Module) : Text :=
  s.instantiation m m.defaultInstanceName []

end Style

end HdlScaffold
