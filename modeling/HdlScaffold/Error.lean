import HdlScaffold.IoError
import HdlScaffold.Text.Basic

/-!
# Errors of describing, reading and writing modules
-/

namespace HdlScaffold

/-- The two blocks of a module header. -/
inductive Block where
  | parameter
  | port
  deriving DecidableEq, Repr

def Block.name : Block → String
  | parameter => "parameter"
  | port => "port"

/-- What is wrong with a description. -/
inductive Refusal where
  | portNameMissing
  | portNameEmpty
  | portNameBlank
  | widthNotPositive
  | parameterNameMissing
  | parameterNameEmpty
  | moduleNameEmpty
  | unknownExtension
  deriving DecidableEq, Repr

/-- The refusal in words. -/
def Refusal.message : Refusal → String
  | portNameMissing => "missing port identifier"
  | portNameEmpty => "port identifier must not be empty"
  | portNameBlank => "port identifier must not contain whitespace"
  | widthNotPositive => "port width must be positive"
  | parameterNameMissing => "missing parameter identifier"
  | parameterNameEmpty => "parameter identifier must not be empty"
  | moduleNameEmpty => "module name must not be empty"
  | unknownExtension => "expected a .v or .sv file extension"

/-- Why a module could not be described, read or written. -/
inductive Error where
  /-- The description was refused. -/
  | invalidSpec (description : Text) (refusal : Refusal)
  /-- The source ended inside a block, after this many lines. -/
  | unclosed (block : Block) (line : Nat)
  | unreadable (cause : IoError)
  | unwritable (cause : IoError)
  deriving DecidableEq, Repr

/-- The failure of a file or device behind the error. -/
def Error.cause? : Error → Option IoError
  | invalidSpec .. => none
  | unclosed .. => none
  | unreadable cause => some cause
  | unwritable cause => some cause

/-- The error in words. -/
def Error.message : Error → String
  | invalidSpec description refusal =>
    s!"Invalid description '{String.ofList description}': {refusal.message}"
  | unclosed block line =>
    s!"Syntax error: {block.name} block detection reached end of input after line {line}"
  | unreadable cause => s!"Failed to read source: {cause.message}"
  | unwritable cause => s!"Failed to write output: {cause.message}"

end HdlScaffold
