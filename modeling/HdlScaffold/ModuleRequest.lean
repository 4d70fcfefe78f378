import HdlScaffold.Language
import HdlScaffold.Line
import HdlScaffold.Module

/-!
# Requests for a new module

A module can be asked for by descriptions of its ports and parameters, several of them in one argument
with commas between.
-/

namespace HdlScaffold

/-- What is asked for when a module is to be written. -/
structure ModuleRequest where
  /-- The module's name; an extension selects the language. -/
  name : Text := []
  inputs : List Text := []
  outputs : List Text := []
  inouts : List Text := []
  parameters : List Text := []
  outputReg : Bool := false
  timescale : Option Text := none
  systemVerilog : Bool := false
  includeGuards : Bool := false
  addTestbench : Bool := false
  deriving DecidableEq, Repr

/-- The descriptions in a list of arguments, divided at commas as well. -/
def splitDescriptions (args : List Text) : List Text :=
  ((args.flatMap fun a => a.splitOn ',').map Text.trim).filter fun d => !d.isEmpty

/-- A module's name without the extension of a language, and the language. -/
def nameAndLanguage (raw : Text) (systemVerilog : Bool) : Text × Language :=
  let (name, language) := match raw.cutAtLast? '.' with
    | some (stem, extension) =>
      match Language.ofExtension? extension with
      | some language => (stem, language)
      | none => (raw, .verilog)
    | none => (raw, .verilog)
  (name, if systemVerilog then .systemVerilog else language)

namespace ModuleRequest

def language (r : ModuleRequest) : Language := (nameAndLanguage r.name r.systemVerilog).2

/-- The descriptions of the ports with their directions. -/
def portDescriptions (r : ModuleRequest) : List (Direction × Text) :=
  [(.input, r.inputs), (.output, r.outputs), (.inout, r.inouts)].flatMap fun (d, raw) =>
    (splitDescriptions raw).map (d, ·)

/-- The module asked for. -/
def toModule (r : ModuleRequest) : Except Error Module :=
  Module.ofDescriptions (nameAndLanguage r.name r.systemVerilog).1 (splitDescriptions r.parameters)
    r.portDescriptions

end ModuleRequest

end HdlScaffold
