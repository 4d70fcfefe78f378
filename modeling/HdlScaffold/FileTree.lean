import HdlScaffold.IoError
import HdlScaffold.Path
import HdlScaffold.Sink

/-!
# File trees

A tree of directories and files that paths lead into, with a working directory that relative paths
start from. A path is followed component by component, and every component but the last has to be a
directory.
-/

namespace HdlScaffold

/-- A place in a tree: the names on the way to it from the root. -/
abbrev Location := List Text

/-- What is found at a place. -/
inductive Entry where
  | file (contents : Bytes)
  | directory
  deriving DecidableEq, Repr

/-- A tree of directories and files. -/
structure FileTree where
  /-- The places below the root, each once. -/
  entries : List (Location × Entry)
  workingDirectory : Location
  deriving Repr

namespace FileTree

/-- The name of the working directory of a new tree. -/
def homeName : Text := "work".toList

/-- A tree with an empty working directory. -/
def empty : FileTree := ⟨[([homeName], .directory)], [homeName]⟩

/-- What is found at a place; the root is a directory. -/
def get? (t : FileTree) (l : Location) : Option Entry :=
  if l = [] then some .directory else t.entries.lookup l

/-- Puts something at a place. -/
def put (t : FileTree) (l : Location) (e : Entry) : FileTree :=
  { t with entries := (l, e) :: t.entries.filter fun x => x.1 != l }

/-- Where a path starts from. -/
def start (t : FileTree) (p : Path) : Location := if p.isAbsolute then [] else t.workingDirectory

/-- The place is a directory. -/
def enter (t : FileTree) (l : Location) : Except IoError Unit :=
  match t.get? l with
  | some .directory => .ok ()
  | some (.file _) => .error .notDirectory
  | none => .error .notFound

/-- Follows components from a place. What the last one leads to need not exist. -/
def walk (t : FileTree) (l : Location) : List Text → Except IoError Location
  | [] => .ok l
  | name :: rest => do
    t.enter l
    if name = [] ∨ name = ['.'] then walk t l rest
    else if name = ['.', '.'] then walk t l.dropLast rest
    else walk t (l ++ [name]) rest

/-- What a path leads to. -/
def resolve (t : FileTree) (p : Path) : Except IoError (Location × Entry) := do
  if p.isEmpty then .error .notFound
  let l ← t.walk (t.start p) p.segments
  match t.get? l with
  | some e => return (l, e)
  | none => .error .notFound

/-- Something is found at the end of the path. -/
def exists? (t : FileTree) (p : Path) : Bool := (t.resolve p).isOk

def isFile (t : FileTree) (p : Path) : Bool :=
  match t.resolve p with
  | .ok (_, .file _) => true
  | _ => false

def isDirectory (t : FileTree) (p : Path) : Bool :=
  match t.resolve p with
  | .ok (_, .directory) => true
  | _ => false

/-- The contents of the file at the end of the path. -/
def read (t : FileTree) (p : Path) : Except IoError Bytes := do
  match (← t.resolve p).2 with
  | .file contents => return contents
  | .directory => .error .isDirectory

/-- The last component of a path that names something is set apart from those before it. What is left
may be put at the place it names, unless it leads back to a directory that exists. -/
def target (t : FileTree) (p : Path) : Except IoError (Option Location) := do
  if p.isEmpty then .error .notFound
  let reversed := p.segments.reverse.dropWhile (·.isEmpty)
  match reversed with
  | [] => return none
  | last :: before => do
    let l ← t.walk (t.start p) before.reverse
    t.enter l
    return if last = ['.'] ∨ last = ['.', '.'] then none else some (l ++ [last])

/-- The place of the file that a path names. A path that ends in a slash names no file. -/
def fileTarget (t : FileTree) (p : Path) : Except IoError Location :=
  match t.target p with
  | .error e => .error e
  | .ok none => .error .isDirectory
  | .ok (some l) =>
    if p.getLast? = some '/' ∨ t.get? l = some .directory then .error .isDirectory else .ok l

/-- Writes a file, in place of the one that is there. The file is there, and empty, before the first byte
is written. If the bytes go to a sink that gives out, the file keeps those that the sink has taken. -/
def write (t : FileTree) (p : Path) (contents : Bytes) (sink : Option Sink := none) :
    Except IoError Unit × FileTree :=
  match t.fileTarget p with
  | .error e => (.error e, t)
  | .ok l =>
    match sink with
    | none => (.ok (), t.put l (.file contents))
    | some sink =>
      let (result, after) := sink.writeAll contents
      (result, t.put l (.file after.written))

/-- Makes one directory, where nothing is yet. -/
def makeDirectory (t : FileTree) (p : Path) : Except IoError Unit × FileTree :=
  match t.target p with
  | .error e => (.error e, t)
  | .ok none => (.error .alreadyExists, t)
  | .ok (some l) =>
    if (t.get? l).isSome then (.error .alreadyExists, t) else (.ok (), t.put l .directory)

/-- Makes the first of the directories; those after it, which it lies in, are made when they are
missing. A directory that is there already will do. -/
def makeChain (t : FileTree) : List Path → Except IoError Unit × FileTree
  | [] => (.ok (), t)
  | p :: above =>
    let orPresent (e : IoError) (t : FileTree) : Except IoError Unit × FileTree :=
      (if t.isDirectory p then .ok () else .error e, t)
    match t.makeDirectory p with
    | (.ok (), t) => (.ok (), t)
    | (.error .notFound, t) =>
      match t.makeChain above with
      | (.error e, t) => (.error e, t)
      | (.ok (), t) =>
        match t.makeDirectory p with
        | (.ok (), t) => (.ok (), t)
        | (.error e, t) => orPresent e t
    | (.error e, t) => orPresent e t

/-- Makes a directory and those it lies in, as far as they are missing. -/
def makeDirectories (t : FileTree) (p : Path) : Except IoError Unit × FileTree :=
  t.makeChain p.ancestors

/-- The files below the working directory, with their places seen from there. -/
def files (t : FileTree) : List (Location × Bytes) :=
  t.entries.filterMap fun
    | (l, .file contents) =>
      if t.workingDirectory.isPrefixOf l then some (l.drop t.workingDirectory.length, contents)
      else none
    | (_, .directory) => none

/-- The files of a tree that an earlier tree lacks or holds with other contents. -/
def changesSince (now before : FileTree) : List (Location × Bytes) :=
  now.files.filter fun f => before.files.lookup f.1 != some f.2

theorem lookup_filter_ne {l k : Location} (h : k ≠ l) (es : List (Location × Entry)) :
    (es.filter fun x => x.1 != l).lookup k = es.lookup k := by
  induction es with
  | nil => rfl
  | cons x es ih =>
    obtain ⟨m, e⟩ := x
    by_cases hm : m = l
    · simp [hm, List.lookup_cons, ih, show (k == l) = false by simpa using h]
    · by_cases hk : k = m
      · simp [hm, hk]
      · simp [hm, List.lookup_cons, ih, show (k == m) = false by simpa using hk]

/-- Putting something at a place changes that place and no other. -/
theorem get?_put (t : FileTree) {l : Location} (k : Location) (e : Entry) (hl : l ≠ []) :
    (t.put l e).get? k = if k = l then some e else t.get? k := by
  by_cases hk : k = []
  · simp [get?, hk, Ne.symm hl]
  · by_cases h : k = l
    · simp [get?, put, h, hl]
    · simp [get?, hk, put, h, List.lookup_cons, lookup_filter_ne h,
        show (k == l) = false by simpa using h]

end FileTree

end HdlScaffold
