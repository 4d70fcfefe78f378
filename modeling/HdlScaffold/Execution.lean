import HdlScaffold.CommandLine.Arguments
import HdlScaffold.Failure
import HdlScaffold.Host
import HdlScaffold.SourceFile

/-!
# Commands at work

Every command first finds the settings that hold: those of a file named on the command line, else those
of the user's file, else the defaults. Files that exist are overwritten only on request.
-/

namespace HdlScaffold

open CommandLine (Arguments Command)

variable {m : Type → Type} [Monad m] [Host m]

/-- A piece of work that may fail. -/
abbrev Attempt (m : Type → Type) := ExceptT Failure m

/-- Goes on with the value, or fails for the cause while doing what is said. -/
def during {α : Type} (activity : Option Activity) : Except Cause α → Attempt m α
  | .ok a => return a
  | .error cause => throw { activity, cause }

/-- Goes on with the value, or fails because of a file. -/
def duringIo {α : Type} (activity : Activity) (result : Except IoError α) : Attempt m α :=
  during (some activity) (result.mapError .io)

/-- Puts a text out, or fails because it cannot be put out. -/
def putOut (t : Text) : Attempt m Unit := do
  during none ((← Host.print t).mapError .io)

/-! ## Settings -/

/-- The directory of the settings below a user's directory. -/
def settingsDirectory (home : Path) : Path := (home.join ".config".toList).join "vcodegen".toList

def settingsFileName : Text := "config.toml".toList

/-- The file of the settings below a user's directory. -/
def settingsPath (home : Path) : Path := (settingsDirectory home).join settingsFileName

/-- The settings that a file gives. -/
def loadSettings (file : Path) : Attempt m Settings := do
  let contents ← duringIo (.readingSettings file) (← Host.read file)
  let text ← duringIo (.readingSettings file) <|
    match Text.decode? contents with
    | some t => .ok t
    | none => .error .invalidUtf8
  let settings ← during (some (.checkingSettings file)) (Settings.ofText text)
  Host.report (.settingsLoaded file)
  return settings

/-- The settings of the file named, else of the user's file, else the defaults. -/
def findSettings (named home : Option Path) : Attempt m Settings := do
  match named, home.map settingsPath with
  | some file, _ => loadSettings file
  | none, some file =>
    if ← Host.isFile file then loadSettings file
    else
      Host.report .noSettingsFile
      return {}
  | none, none =>
    Host.report .noSettingsFile
    return {}

/-- The settings that hold for a command: those found, with the tab width of the command line. -/
def effectiveSettings (env : Environment) (args : Arguments) : Attempt m Settings := do
  let found ← findSettings args.settingsFile env.homeDirectory
  let settings ← match args.tabWidth with
    | none => pure found
    | some tabWidth =>
      let changed := { found with tabWidth }
      during (some .checkingTabWidth) changed.check
      pure changed
  Host.report (.effectiveSettings settings)
  return settings

/-! ## Writing files -/

/-- Nothing is to be overwritten unless it is asked for. -/
def guardTarget (file : Path) (force : Bool) : Attempt m Unit := do
  if (← Host.isPresent file) && !force then throw { cause := .occupied file }

/-- Writes a text to a file of the given directory. -/
def writeOutput (directory : Path) (force : Bool) (name contents : Text) : Attempt m Path := do
  let file := directory.join name
  guardTarget file force
  duringIo (.writing file) (← Host.write file contents.encode)
  Host.report (.fileWritten file)
  return file

/-- Writes a settings file that holds the defaults. -/
def writeTemplate (directory : Path) (force : Bool) : Attempt m Path := do
  let file := directory.join settingsFileName
  guardTarget file force
  duringIo (.makingDirectory directory) (← Host.makeDirectories directory)
  let contents ← during none (Settings.toText {})
  duringIo (.writing file) (← Host.write file contents.encode)
  Host.report (.templateWritten file)
  return file

/-! ## Reading source files -/

/-- What a source file declares. -/
def readSource (file : Path) : m (Except Error (Option SourceFile)) := do
  match Language.ofPath? file with
  | none => return .error (.invalidSpec file .unknownExtension)
  | some language =>
    match ← Host.read file with
    | .error e => return .error (.unreadable e)
    | .ok source =>
      let outcome := SourceFile.reading language (.ofBytes source)
      outcome.notes.forM fun note => Host.report (.reading note)
      return outcome.answer

/-- What a source file declares; there has to be a module. -/
def requireSource (file : Path) : Attempt m SourceFile := do
  let answer : Except Error (Option SourceFile) ← readSource file
  match ← during (some (.scanning file)) (answer.mapError .module) with
  | some source => return source
  | none => throw { cause := .noModule file }

/-! ## The commands -/

/-- The timescale of a request in its normal form. -/
def ModuleRequest.normalTimescale (r : ModuleRequest) : Except Cause (Option Text) :=
  match r.timescale with
  | none => .ok none
  | some raw =>
    match unitAndPrecision? raw with
    | some t => .ok (some t)
    | none => .error (.badTimescale raw)

/-- The options of the files that a request asks for. -/
def ModuleRequest.fileOptions (r : ModuleRequest) (settings : Settings) (timescale : Option Text) :
    FileOptions :=
  { settings.fileOptions with
    language := r.language
    outputReg := r.outputReg
    includeGuards := r.includeGuards
    timescale }

/-- Writes the module asked for, and its testbench if that is asked for too. -/
def writeModule (args : Arguments) (settings : Settings) (r : ModuleRequest) : Attempt m Unit := do
  let module ← during none (r.toModule.mapError .badDescription)
  let options := r.fileOptions settings (← during none r.normalTimescale)
  let write := writeOutput args.outputDirectory args.force
  let _ ← write (options.moduleFileName module) (options.moduleFile module)
  if r.addTestbench then
    let _ ← write (options.testbenchFileName module) (options.testbench module)

/-- Writes a testbench for the module in a file. -/
def writeTestbench (args : Arguments) (settings : Settings) (file : Path) : Attempt m Unit := do
  let source ← requireSource file
  let options : FileOptions :=
    { settings.fileOptions with language := source.language, timescale := source.timescale }
  let _ ← writeOutput args.outputDirectory args.force (options.testbenchFileName source.module)
    (options.testbench source.module)

/-- Prints an instantiation of the module in a file. -/
def printInstantiation (settings : Settings) (file : Path) (name : Option Text) :
    Attempt m Unit := do
  let source ← requireSource file
  let name ← match name with
    | none => pure source.module.defaultInstanceName
    | some name => if name.trim = [] then throw { cause := .emptyInstanceName } else pure name
  putOut (settings.fileOptions.instantiation source.module name [])

/-- Prints the header of the module in a file. -/
def printSource (file : Path) (json : Bool) : Attempt m Unit := do
  let source ← requireSource file
  putOut (if json then source.toJson.render 0 ++ ['\n'] else source.summary)

/-- Writes a settings file into the directory, or else into the user's. -/
def writeSettings (env : Environment) (args : Arguments) (directory : Option Path) :
    Attempt m Unit := do
  match directory <|> env.homeDirectory.map settingsDirectory with
  | none => throw { cause := .noHome }
  | some directory =>
    let file ← writeTemplate directory args.force
    putOut (file ++ ['\n'])

/-- Does what the arguments ask for. -/
def execute (env : Environment) (args : Arguments) : Attempt m Unit := do
  let settings ← effectiveSettings env args
  match args.command with
  | .module request => writeModule args settings request
  | .testbench file => writeTestbench args settings file
  | .instantiate file name => printInstantiation settings file name
  | .scan file json => printSource file json
  | .settingsTemplate directory => writeSettings env args directory

/-- From where on events are reported for these arguments. -/
def CommandLine.Arguments.logLevel (args : Arguments) : LogLevel :=
  if args.verbose then .debug else .warn

/-- Does what the arguments ask for in a session whose files are on the device. -/
def Session.execute (s : Session) (env : Environment) (args : Arguments)
    (device : Device := .sound) : Except Failure Unit × Session :=
  (HdlScaffold.execute env args : Attempt (SessionOn device) Unit) s

end HdlScaffold
