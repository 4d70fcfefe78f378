import HdlScaffold.CommandLine.Usage
import HdlScaffold.ModuleRequest
import HdlScaffold.Text.Numeral

/-!
# The arguments of the program

Some options hold for every command and may stand before it or after it; where one stands in both
places, the later one holds. The arguments of a command are read to their end before the values pending
in front of the command are looked at.
-/

namespace HdlScaffold.CommandLine

/-- What the program is to do. -/
inductive Command where
  /-- Write a new module. -/
  | module (request : ModuleRequest)
  /-- Write a testbench for the module in a file. -/
  | testbench (file : Path)
  /-- Print an instantiation of the module in a file. -/
  | instantiate (file : Path) (instanceName : Option Text)
  /-- Print the header of the module in a file. -/
  | scan (file : Path) (json : Bool)
  /-- Write a settings file that holds the defaults. -/
  | settingsTemplate (directory : Option Path)
  deriving DecidableEq, Repr

/-- All that the arguments of the program say. -/
structure Arguments where
  verbose : Bool
  settingsFile : Option Path
  tabWidth : Option Nat
  force : Bool
  outputDirectory : Path
  command : Command
  deriving DecidableEq, Repr

/-- The options that hold for every command. -/
structure Globals where
  verbose : Bool := false
  settingsFile : Option Path := none
  tabWidth : Option Nat := none
  force : Bool := false
  outputDirectory : Option Path := none
  deriving DecidableEq, Repr

/-- The options before a command, overridden by those after it. -/
def Globals.merge (before after : Globals) : Globals where
  verbose := before.verbose || after.verbose
  settingsFile := after.settingsFile <|> before.settingsFile
  tabWidth := after.tabWidth <|> before.tabWidth
  force := before.force || after.force
  outputDirectory := after.outputDirectory <|> before.outputDirectory

/-- What has been read at one level: the options for every command, the operand, and the options of
the level itself. -/
structure Level (τ : Type) where
  globals : Globals := {}
  operand : Option Text := none
  own : τ

/-! ## Kinds of options -/

section

variable {σ α : Type}

/-- A flag, which may stand once. -/
def flag (long : String) (isSet : σ → Bool) (set : σ → σ) (short : Option Char) : OptionSpec σ where
  long := long.toList
  short := short
  takes := .nothing
  record _ s := if isSet s then .error .repeated else .ok (set s)

/-- An option with one value, which may stand once. -/
def single (long : String) (read : Text → Except UsageError α) (get : σ → Option α)
    (set : α → σ → σ) : OptionSpec σ where
  long := long.toList
  takes := .one
  record values s :=
    if (get s).isSome then .error .repeated
    else values.foldlM (fun s v => return set (← read v) s) s

/-- An option with a list of values, which are added to those it had. -/
def several (long : String) (add : List Text → σ → σ) (short : Option Char) : OptionSpec σ where
  long := long.toList
  short := short
  takes := .several
  record values s := .ok (add values s)

/-- Any text is a value. -/
def readText (t : Text) : Except UsageError Text := .ok t

/-- A path is not empty. -/
def readPath (t : Text) : Except UsageError Path := if t.isEmpty then .error .missingValue else .ok t

/-- A number has 64 bits and no minus sign. -/
def readNumber (t : Text) : Except UsageError Nat :=
  match t.natural? 0x10000000000000000 with
  | some n => .ok n
  | none => .error .invalidValue

end

/-! ## The options of each level -/

section

variable {τ : Type}

/-- The options that may stand at every level. -/
def globalOptions : List (OptionSpec (Level τ)) :=
  [flag "verbose" (·.globals.verbose)
      (fun l => { l with globals := { l.globals with verbose := true } }) (some 'v'),
    single "config" readPath (·.globals.settingsFile)
      fun v l => { l with globals := { l.globals with settingsFile := some v } },
    single "tabwidth" readNumber (·.globals.tabWidth)
      fun v l => { l with globals := { l.globals with tabWidth := some v } },
    flag "force" (·.globals.force)
      (fun l => { l with globals := { l.globals with force := true } }) none,
    single "out-dir" readPath (·.globals.outputDirectory)
      fun v l => { l with globals := { l.globals with outputDirectory := some v } },
    { long := "help".toList, short := some 'h', takes := .nothing, record := fun _ _ => .error .help }]

/-- A level whose operand is read by `read`. -/
def operandScope (read : Text → Except UsageError Text) (own : List (OptionSpec (Level τ))) :
    Scope (Level τ) where
  options := own ++ globalOptions
  operand := some fun values l =>
    values.foldlM (fun l v => return { l with operand := some (← read v) }) l
  surplus _ _ := .unknownArgument

end

/-- The options of a request for a new module. -/
def moduleOptions : List (OptionSpec (Level ModuleRequest)) :=
  [several "input" (fun v l => { l with own := { l.own with inputs := l.own.inputs ++ v } })
      (some 'i'),
    several "output" (fun v l => { l with own := { l.own with outputs := l.own.outputs ++ v } })
      (some 'o'),
    several "inout" (fun v l => { l with own := { l.own with inouts := l.own.inouts ++ v } }) none,
    several "parameter"
      (fun v l => { l with own := { l.own with parameters := l.own.parameters ++ v } }) (some 'p'),
    flag "output-reg" (·.own.outputReg)
      (fun l => { l with own := { l.own with outputReg := true } }) none,
    single "timescale" readText (·.own.timescale)
      fun v l => { l with own := { l.own with timescale := some v } },
    flag "sv" (·.own.systemVerilog)
      (fun l => { l with own := { l.own with systemVerilog := true } }) none,
    flag "include-guards" (·.own.includeGuards)
      (fun l => { l with own := { l.own with includeGuards := true } }) none,
    flag "add-testbench" (·.own.addTestbench)
      (fun l => { l with own := { l.own with addTestbench := true } }) none]

/-! ## Commands -/

/-- The names of the commands. -/
inductive CommandName where
  | module
  | testbench
  | instantiate
  | scan
  | settingsTemplate
  deriving DecidableEq, Repr

def CommandName.all : List CommandName := [module, testbench, instantiate, scan, settingsTemplate]

/-- The word that selects the command. -/
def CommandName.word : CommandName → Text
  | module => "module".toList
  | testbench => "testbench".toList
  | instantiate => "instantiate".toList
  | scan => "scan".toList
  | settingsTemplate => "config-template".toList

/-- The word that asks for help on a command. -/
def helpWord : Text := "help".toList

/-- The command that a word selects. -/
def CommandName.ofWord? (word : Text) : Option CommandName := all.find? (·.word == word)

/-- The word stands where a command may stand. -/
def isCommandWord (word : Text) : Bool := word == helpWord || (CommandName.ofWord? word).isSome

/-- The operand of a level that needs one. -/
def Level.required {τ : Type} (l : Level τ) : Except UsageError Text :=
  match l.operand with
  | some t => .ok t
  | none => .error .missingOperand

/-- Reads the arguments after a command's name. -/
def CommandName.read (args : List Text) : CommandName → Except UsageError (Globals × Command)
  | module => do
    let l ← (operandScope readText moduleOptions).read { own := {} } args
    return (l.globals, .module { l.own with name := ← l.required })
  | testbench => do
    let l ← (operandScope readPath []).read { own := () } args
    return (l.globals, .testbench (← l.required))
  | instantiate => do
    let name := single "instance" readText Level.own fun v l => { l with own := some v }
    let l ← (operandScope readPath [name]).read { own := (none : Option Text) } args
    return (l.globals, .instantiate (← l.required) l.own)
  | scan => do
    let json := flag "json" Level.own (fun l => { l with own := true }) none
    let l ← (operandScope readPath [json]).read { own := false } args
    return (l.globals, .scan (← l.required) l.own)
  | settingsTemplate => do
    let l ← (operandScope readPath []).read { own := () } args
    return (l.globals, .settingsTemplate l.operand)

/-- The level in front of the command. -/
def outerScope : Scope (Level Unit) where
  options :=
    globalOptions ++
      [{ long := "version".toList, short := some 'V', takes := .nothing,
         record := fun _ _ => .error .version }]
  operand := none
  surplus trailing word :=
    if trailing && isCommandWord word then .unknownArgument else .invalidCommand

/-- What a request for help leads to: a word after it names a command. -/
def helpOn : List Text → UsageError
  | [] => .help
  | [word] => if isCommandWord word then .help else .invalidCommand
  | _ => .invalidCommand

/-- Reads the rest of the arguments, up to a command and through it. -/
def readFrom (p : Progress (Level Unit)) : List Text → Except UsageError Arguments
  | [] => do
    let p ← p.settle
    .error (if p.state.globals = {} then .helpOnMissingCommand else .missingCommand)
  | arg :: rest =>
    if !p.trailing && !p.taking && isCommandWord arg then
      match CommandName.ofWord? arg with
      | none => .error (helpOn rest)
      | some name => do
        let (after, command) ← name.read rest
        let before := (← p.settle).state.globals
        let globals := before.merge after
        return {
          verbose := globals.verbose
          settingsFile := globals.settingsFile
          tabWidth := globals.tabWidth
          force := globals.force
          outputDirectory := globals.outputDirectory.getD ['.']
          command }
    else do readFrom (← p.take outerScope arg) rest

/-- The arguments of the program, its own name left out. -/
def Arguments.read (args : List Text) : Except UsageError Arguments :=
  readFrom { state := { own := () } } args

end HdlScaffold.CommandLine
