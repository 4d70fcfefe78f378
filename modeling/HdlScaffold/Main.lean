import HdlScaffold.Execution

/-!
# The program

The commands on the system's own files. Everything is decided elsewhere; here the arguments and the
environment are fetched, and files are read and written.
-/

namespace HdlScaffold

/-- The system's failure among those that commands know. -/
def IoError.ofSystem : IO.Error → IoError
  | .noFileOrDirectory .. => .notFound
  | .alreadyExists .. => .alreadyExists
  | .inappropriateType _ code _ => if code = 20 then .notDirectory else .isDirectory
  | e => .device (toString e)

/-- The outcome of an action of the system. -/
def attempted {α : Type} (action : IO α) : IO (Except IoError α) := do
  try return .ok (← action)
  catch e => return .error (.ofSystem e)

/-- The system, with a log of the given level. -/
instance : Host (ReaderT LogLevel IO) where
  read p := attempted do return (← IO.FS.readBinFile (String.ofList p)).toList
  isPresent p := do ((← IO.currentDir) / String.ofList p).pathExists
  isFile p := do return !(← ((← IO.currentDir) / String.ofList p).isDir) &&
    (← ((← IO.currentDir) / String.ofList p).pathExists)
  write p contents := attempted (IO.FS.writeBinFile (String.ofList p) contents.toByteArray)
  makeDirectories p := attempted (IO.FS.createDirAll (String.ofList p))
  print t := attempted do
    (← IO.getStdout).putStr (String.ofList t)
    (← IO.getStdout).flush
  report e := do (LogLevel.shown (← read) [e]).forM fun e => IO.eprintln e.line

/-- How the program is called. -/
def usage : String :=
  "Usage: vcodegen [OPTIONS] <COMMAND>\n\nCommands: " ++
    ", ".intercalate (CommandLine.CommandName.all.map fun c => String.ofList c.word)

/-- The variables of the environment that tell where a user's files are. -/
def Environment.fetch : IO Environment := do
  return { home := (← IO.getEnv "HOME").map String.toList,
           userProfile := (← IO.getEnv "USERPROFILE").map String.toList }

/-- Does what the arguments ask for and answers with the program's exit code. -/
def runArguments (args : List String) : IO UInt32 := do
  match CommandLine.Arguments.read (args.map String.toList) with
  | .error e =>
    if e.exitCode = 0 then IO.println usage else IO.eprintln usage
    return e.exitCode.toUInt32
  | .ok a =>
    let work : Attempt (ReaderT LogLevel IO) Unit := execute (← Environment.fetch) a
    match ← work.run.run a.logLevel with
    | .ok () => return 0
    | .error failure =>
      IO.eprintln s!"Error: {failure.message}"
      return 1

end HdlScaffold

def main (args : List String) : IO UInt32 := HdlScaffold.runArguments args
