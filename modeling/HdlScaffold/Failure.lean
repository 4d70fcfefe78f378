import HdlScaffold.Error
import HdlScaffold.Path
import HdlScaffold.Settings.Toml

/-!
# Failures of commands

A failure has a cause and says what the program was doing when it came up.
-/

namespace HdlScaffold

/-- Why a command failed. -/
inductive Cause where
  /-- A module could not be read or written. -/
  | module (e : Error)
  /-- A file could not be read or written. -/
  | io (e : IoError)
  /-- The settings are no document that gives settings. -/
  | malformedSettings
  /-- The settings have no document that gives them. -/
  | unwritableSettings
  | zeroTabWidth
  /-- A module was described badly. -/
  | badDescription (e : Error)
  | badTimescale (raw : Text)
  /-- Something is there already, and is not to be overwritten. -/
  | occupied (file : Path)
  | noModule (file : Path)
  | emptyInstanceName
  | noHome
  deriving DecidableEq, Repr

/-- What the program was doing. -/
inductive Activity where
  | scanning (file : Path)
  | readingSettings (file : Path)
  | checkingSettings (file : Path)
  | checkingTabWidth
  | makingDirectory (directory : Path)
  | writing (file : Path)
  deriving DecidableEq, Repr

/-- The failure of a command. -/
structure Failure where
  activity : Option Activity := none
  cause : Cause
  deriving DecidableEq, Repr

/-- The cause in words. -/
def Cause.message : Cause → String
  | module e =>
    match e.cause? with
    | some inner => s!"{e.message}: {inner.message}"
    | none => e.message
  | io e => e.message
  | malformedSettings => "<toml>"
  | unwritableSettings => "<toml>"
  | zeroTabWidth => "tab_width must be at least 1"
  | badDescription e => e.message
  | badTimescale raw => s!"Invalid timescale '{String.ofList raw}', expected unit/precision"
  | occupied file => s!"{String.ofList file} already exists (use --force to overwrite)"
  | noModule file => s!"No module declaration found in {String.ofList file}"
  | emptyInstanceName => "Instance name must not be empty"
  | noHome => "Cannot determine the home directory, pass a target directory"

def Activity.message : Activity → String
  | scanning file => s!"Failed to scan {String.ofList file}"
  | readingSettings file => s!"Failed to read config file {String.ofList file}"
  | checkingSettings file => s!"Invalid config file {String.ofList file}"
  | checkingTabWidth => "Invalid --tabwidth"
  | makingDirectory directory => s!"Failed to create directory {String.ofList directory}"
  | writing file => s!"Failed to write {String.ofList file}"

/-- The failure in words. -/
def Failure.message (f : Failure) : String :=
  match f.activity with
  | some activity => s!"{activity.message}: {f.cause.message}"
  | none => f.cause.message

namespace Settings

/-- Settings that cannot be used are refused. -/
def check (s : Settings) : Except Cause Unit :=
  if s.isValid then .ok () else .error .zeroTabWidth

/-- The settings that a document gives. -/
def ofText (t : Text) (codec : Codec := .standard) : Except Cause Settings := do
  match (codec.parse? t).bind codec.ofTable? with
  | none => .error .malformedSettings
  | some s =>
    s.check
    return s

/-- The document that gives the settings. -/
def toText (s : Settings) (codec : Codec := .standard) : Except Cause Text :=
  match codec.print? (codec.toTable s) with
  | some t => .ok t
  | none => .error .unwritableSettings

end Settings

end HdlScaffold
