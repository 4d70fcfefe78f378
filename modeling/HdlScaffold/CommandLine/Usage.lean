import HdlScaffold.Text.Basic

/-!
# Arguments with options

Arguments are read from left to right. An option that takes values keeps them pending until the next
option or operand arrives, or until the arguments end; only then are they looked at. So an option that
is not known is reported before a bad value in front of it.
-/

namespace HdlScaffold.CommandLine

/-- Why arguments do not make a command, or what they ask for in its place. -/
inductive UsageError where
  /-- No argument at all: the help is shown. -/
  | helpOnMissingCommand
  | missingCommand
  | invalidCommand
  | missingOperand
  | unknownArgument
  /-- An option lacks its value, or a path is empty. -/
  | missingValue
  /-- A value cannot be read. -/
  | invalidValue
  /-- A flag was given a value. -/
  | valueToFlag
  /-- An option that may stand once stands twice. -/
  | repeated
  | help
  | version
  deriving DecidableEq, Repr

/-- Asking for help or the version is no failure. -/
def UsageError.exitCode : UsageError → Nat
  | help => 0
  | version => 0
  | _ => 2

/-- The values that an option takes. -/
inductive Takes where
  | nothing
  | one
  | several
  deriving DecidableEq, Repr

/-- An option that adds to a state of type `σ`. -/
structure OptionSpec (σ : Type) where
  long : Text
  short : Option Char := none
  takes : Takes
  /-- What the option's values do to the state. -/
  record : List Text → σ → Except UsageError σ

/-- The options that may stand at one level of the arguments, and its operand. -/
structure Scope (σ : Type) where
  options : List (OptionSpec σ)
  /-- What the operand does to the state, if the level has one. -/
  operand : Option (List Text → σ → Except UsageError σ)
  /-- What is wrong with one operand too many; the flag tells whether it follows a double dash. -/
  surplus : Bool → Text → UsageError

/-- Values that have not been looked at yet. -/
structure Pending (σ : Type) where
  takes : Takes
  values : List Text
  record : List Text → σ → Except UsageError σ

/-- How far the reading of one level has come. -/
structure Progress (σ : Type) where
  state : σ
  pending : Option (Pending σ) := none
  /-- The next plain argument is a value of the pending option. -/
  taking : Bool := false
  /-- A double dash has made everything that follows an operand. -/
  trailing : Bool := false
  hasOperand : Bool := false

namespace Progress

variable {σ : Type}

/-- Looks at the pending values. -/
def settle (p : Progress σ) : Except UsageError (Progress σ) :=
  match p.pending with
  | none => .ok p
  | some q =>
    if q.values.isEmpty then .error .missingValue
    else do return { p with state := ← q.record q.values p.state, pending := none }

/-- Takes an option, with the value attached to it. -/
def takeOption (p : Progress σ) (o : OptionSpec σ) (attached : Option Text) :
    Except UsageError (Progress σ) :=
  match o.takes, attached with
  | .nothing, some _ => .error .valueToFlag
  | .nothing, none => do
    let p ← p.settle
    return { p with state := ← o.record [] p.state, taking := false }
  | _, some value => do
    let p ← p.settle
    return { p with state := ← o.record [value] p.state, taking := false }
  | takes, none => do
    let p ← p.settle
    return { p with pending := some ⟨takes, [], o.record⟩, taking := true }

/-- Takes a long option, written after its two dashes as `name` or `name=value`. -/
def takeLong (p : Progress σ) (scope : Scope σ) (body : Text) : Except UsageError (Progress σ) :=
  let (name, attached) := match body.cutAt? '=' with
    | some (name, value) => (name, some value)
    | none => (body, none)
  match scope.options.find? (·.long == name) with
  | some o => p.takeOption o attached
  | none => .error .unknownArgument

/-- Takes a cluster of short options. The first one that takes values has the rest of the cluster
attached, after an equals sign or not. -/
def takeShort (p : Progress σ) (scope : Scope σ) : Text → Except UsageError (Progress σ)
  | [] => .ok p
  | c :: rest =>
    match scope.options.find? (·.short == some c) with
    | none => .error .unknownArgument
    | some o =>
      match o.takes with
      | .nothing => do takeShort (← p.takeOption o none) scope rest
      | _ =>
        p.takeOption o <| match rest with
          | [] => none
          | '=' :: value => some value
          | value => some value

/-- Takes an argument that is no option. -/
def takePlain (p : Progress σ) (scope : Scope σ) (arg : Text) : Except UsageError (Progress σ) :=
  match p.taking && !p.trailing, p.pending with
  | true, some q =>
    .ok { p with
      pending := some { q with values := q.values ++ [arg] }
      taking := q.takes == .several }
  | _, _ =>
    match scope.operand, p.hasOperand with
    | some record, false => do
      let p ← p.settle
      return { p with pending := some ⟨.one, [arg], record⟩, taking := false, hasOperand := true }
    | _, _ => .error (scope.surplus p.trailing arg)

/-- Takes the next argument. -/
def take (p : Progress σ) (scope : Scope σ) (arg : Text) : Except UsageError (Progress σ) :=
  if p.trailing then p.takePlain scope arg
  else match arg with
    | ['-', '-'] => .ok { p with trailing := true }
    | '-' :: '-' :: body => p.takeLong scope body
    | '-' :: c :: rest => p.takeShort scope (c :: rest)
    | _ => p.takePlain scope arg

end Progress

/-- The state after all arguments of a level. -/
def Scope.read {σ : Type} (scope : Scope σ) (start : σ) (args : List Text) :
    Except UsageError σ := do
  let p ← args.foldlM (fun p arg => p.take scope arg) { state := start : Progress σ }
  return (← p.settle).state

end HdlScaffold.CommandLine
