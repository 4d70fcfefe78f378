/-!
# Failures of files and devices
-/

namespace HdlScaffold

/-- Why a file or a device refused an operation. -/
inductive IoError where
  | notFound
  | alreadyExists
  | notDirectory
  | isDirectory
  /-- The bytes read are not the UTF-8 form of a text. -/
  | invalidUtf8
  /-- A device took none of the bytes offered. -/
  | writeZero
  /-- A device's own complaint. -/
  | device (complaint : String)
  deriving DecidableEq, Repr

/-- The failure in words. -/
def IoError.message : IoError → String
  | notFound => "No such file or directory (os error 2)"
  | alreadyExists => "File exists (os error 17)"
  | notDirectory => "Not a directory (os error 20)"
  | isDirectory => "Is a directory (os error 21)"
  | invalidUtf8 => "stream did not contain valid UTF-8"
  | writeZero => "failed to write whole buffer"
  | device complaint => complaint

end HdlScaffold
