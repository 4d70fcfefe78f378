import HdlScaffold.Header.Reading
import HdlScaffold.Settings.Basic

/-!
# Events

What the program reports about its own work, apart from its output.
-/

namespace HdlScaffold

/-- How much an event matters. -/
inductive Severity where
  | debug
  | info
  deriving DecidableEq, Repr

def Severity.name : Severity → String
  | debug => "DEBUG"
  | info => "INFO"

/-- From where on events are reported. -/
inductive LogLevel where
  | debug
  | warn
  deriving DecidableEq, Repr

def LogLevel.name : LogLevel → String
  | debug => "debug"
  | warn => "warn"

/-- Something the program has done or found. -/
inductive Event where
  | reading (note : Header.Note)
  | settingsLoaded (file : Path)
  | noSettingsFile
  | effectiveSettings (settings : Settings)
  | fileWritten (file : Path)
  | templateWritten (file : Path)
  deriving DecidableEq, Repr

/-- The note in words. -/
def Header.Note.message : Header.Note → String
  | headerFound name line => s!"Found module header '{String.ofList name}' at line {line}"
  | moduleRead name parameters ports =>
    s!"Module '{String.ofList name}': {parameters} parameter(s), {ports} port(s)"
  | noHeader => "No module header found"
  | noParameterBlock line => s!"No parameter block before line {line}"
  | parameterBlockEnds line => s!"Parameter block ends at line {line}"
  | noPortList line => s!"No port list before line {line}"
  | portBlockEnds line => s!"Port block ends at line {line}"

/-- The settings on one line. -/
def Settings.summary (s : Settings) : String :=
  "Config \x7b " ++ s!"tab_width: {s.tabWidth}, indent_column: {s.column}, " ++
    s!"strip_io_suffix: {s.stripEndings}" ++ " \x7d"

namespace Event

def severity : Event → Severity
  | fileWritten _ => .info
  | templateWritten _ => .info
  | _ => .debug

/-- The event in words. -/
def message : Event → String
  | reading note => note.message
  | settingsLoaded file => s!"Loaded config from {String.ofList file}"
  | noSettingsFile => "No config file found, using defaults"
  | effectiveSettings settings => s!"Effective config: {settings.summary}"
  | fileWritten file => s!"Wrote {String.ofList file}"
  | templateWritten file => s!"Wrote config template {String.ofList file}"

/-- The event as one line of a log. -/
def line (e : Event) : String := s!"{e.severity.name} {e.message}"

end Event

/-- The events that a log of this level holds: all that are reported here are below a warning. -/
def LogLevel.shown (level : LogLevel) (events : List Event) : List Event :=
  match level with
  | debug => events
  | warn => []

end HdlScaffold
