import HdlScaffold.Event
import HdlScaffold.FileTree

/-!
# What commands work on

A command reads and writes files, prints, and reports events. It does so through a host: a session in
memory, in which all that a command does can be looked at, or the system the program runs on.

The files of a session are on a device. A sound device does what it is asked for whenever the files allow
it; others may fail at any time, and in the middle of a file.
-/

namespace HdlScaffold

/-- What a command may do in the monad `m`. -/
class Host (m : Type → Type) where
  /-- The contents of a file. -/
  read : Path → m (Except IoError Bytes)
  /-- Something is found at the end of the path. -/
  isPresent : Path → m Bool
  /-- A file is found at the end of the path. -/
  isFile : Path → m Bool
  /-- Writes a file, in place of the one that is there. -/
  write : Path → Bytes → m (Except IoError Unit)
  /-- Makes a directory and those it lies in, as far as they are missing. -/
  makeDirectories : Path → m (Except IoError Unit)
  /-- Puts a text out. -/
  print : Text → m (Except IoError Unit)
  /-- Reports an event. -/
  report : Event → m Unit

/-- Work that may fail does the same things. -/
instance {ε : Type} {m : Type → Type} [Monad m] [Host m] : Host (ExceptT ε m) where
  read p := ExceptT.lift (Host.read p)
  isPresent p := ExceptT.lift (Host.isPresent p)
  isFile p := ExceptT.lift (Host.isFile p)
  write p contents := ExceptT.lift (Host.write p contents)
  makeDirectories p := ExceptT.lift (Host.makeDirectories p)
  print t := ExceptT.lift (Host.print t)
  report e := ExceptT.lift (Host.report e)

/-- The variables of the environment that tell where a user's files are. -/
structure Environment where
  home : Option Path := none
  userProfile : Option Path := none
  deriving DecidableEq, Repr

/-- The directory of the user's files. -/
def Environment.homeDirectory (e : Environment) : Option Path := e.home <|> e.userProfile

/-- A host in memory. -/
structure Session where
  files : FileTree
  /-- All that was put out. -/
  printed : Text := []
  /-- Why nothing can be put out, if so. -/
  outputError : Option IoError := none
  /-- The events reported, in order. -/
  events : List Event := []

/-- What a session asks of its device. -/
inductive Session.Operation where
  | read (file : Path)
  | write (file : Path) (contents : Bytes)
  | makeDirectories (directory : Path)
  | print (t : Text)

/-- How an operation fails. -/
inductive Fault where
  /-- Nothing is done. -/
  | refused (e : IoError)
  /-- It comes to its end after so many bytes, directories or characters. -/
  | brokenOff (n : Nat) (e : IoError)
  deriving DecidableEq, Repr

/-- What the operation fails with. -/
def Fault.error : Fault → IoError
  | refused e => e
  | brokenOff _ e => e

/-- A device, told by the operations that fail on it. -/
def Device : Type := Session → Session.Operation → Option Fault

namespace Device

/-- The device on which nothing fails. -/
def sound : Device := fun _ _ => none

variable (device : Device) (s : Session)

def read (p : Path) : Except IoError Bytes :=
  match device s (.read p) with
  | some fault => .error fault.error
  | none => s.files.read p

def write (p : Path) (contents : Bytes) : Except IoError Unit × FileTree :=
  match device s (.write p contents) with
  | some (.refused e) => (.error e, s.files)
  | some (.brokenOff n e) => s.files.write p contents (some (.ofRoom n e))
  | none => s.files.write p contents

def makeDirectories (p : Path) : Except IoError Unit × FileTree :=
  match device s (.makeDirectories p) with
  | some (.refused e) => (.error e, s.files)
  | some (.brokenOff n e) => (.error e, (s.files.makeChain (p.ancestors.reverse.take n).reverse).2)
  | none => s.files.makeDirectories p

/-- The answer has all that is put out then. -/
def print (t : Text) : Except IoError Unit × Text :=
  match device s (.print t), s.outputError with
  | some (.refused e), _ => (.error e, s.printed)
  | some (.brokenOff n e), _ => (.error e, s.printed ++ t.take n)
  | none, some e => (.error e, s.printed)
  | none, none => (.ok (), s.printed ++ t)

end Device

/-- Work in a session whose files are on the device. -/
def SessionOn (_device : Device) : Type → Type := StateM Session

instance (device : Device) : Monad (SessionOn device) := inferInstanceAs (Monad (StateM Session))

instance (device : Device) : Host (SessionOn device) where
  read p := fun s => (device.read s p, s)
  isPresent p := fun s => (s.files.exists? p, s)
  isFile p := fun s => (s.files.isFile p, s)
  write p contents := fun s =>
    let (result, files) := device.write s p contents
    (result, { s with files })
  makeDirectories p := fun s =>
    let (result, files) := device.makeDirectories s p
    (result, { s with files })
  print t := fun s =>
    let (result, printed) := device.print s t
    (result, { s with printed })
  report e := fun s => ((), { s with events := s.events ++ [e] })

end HdlScaffold
