import HdlScaffold.Error
import HdlScaffold.Text.Blank

/-!
# Parameters

A parameter has a name and perhaps a default value. It can be given in compact form as `name` or
`name=value`.
-/

namespace HdlScaffold

/-- A parameter of a module. -/
structure Parameter where
  identifier : Text
  default : Option Text
  identifier_trimmed : identifier.Trimmed
  default_trimmed : ∀ v ∈ default, v.Trimmed
  deriving Repr

namespace Parameter

/-- The name and the default, as they are compared. -/
def outline (p : Parameter) : Text × Option Text := (p.identifier, p.default)

instance : BEq Parameter := ⟨fun p q => p.outline == q.outline⟩

/-- A default value without the blanks around it; a blank one is none. -/
def usableDefault (value : Option Text) : Option Text :=
  (value.map Text.trim).filter fun v => !v.isEmpty

theorem usableDefault_trimmed (value : Option Text) :
    ∀ v ∈ usableDefault value, v.Trimmed := by
  intro v hv
  simp only [usableDefault, Option.mem_def, Option.filter_eq_some_iff,
    Option.map_eq_some_iff] at hv
  obtain ⟨⟨w, -, rfl⟩, hne⟩ := hv
  exact Text.trimmed_trim (by simpa using hne)

/-- The parameter with this name and default, the blanks around them left out. -/
def create (identifier : Text) (value : Option Text) : Except Error Parameter :=
  if h : identifier.trim = [] then .error (.invalidSpec identifier.trim .parameterNameEmpty)
  else .ok ⟨identifier.trim, usableDefault value, Text.trimmed_trim h,
    usableDefault_trimmed value⟩

/-- The parameter that `name` or `name=value` describes. -/
def ofDescription (description : Text) : Except Error Parameter :=
  let (name, value) := match description.cutAt? '=' with
    | some (name, value) => (name, some value)
    | none => (description, none)
  if name.trim = [] then .error (.invalidSpec description .parameterNameMissing)
  else create name value

/-- The parameter as it is declared, after the keyword. -/
def declaration (p : Parameter) : Text :=
  match p.default with
  | some value => p.identifier ++ " = ".toList ++ value
  | none => p.identifier

/-- The value that an instantiation passes on: the default, or the parameter's own name. -/
def passedValue (p : Parameter) : Text := p.default.getD p.identifier

end Parameter

end HdlScaffold
