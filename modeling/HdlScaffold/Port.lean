import HdlScaffold.Direction
import HdlScaffold.Error
import HdlScaffold.Width

/-!
# Ports

A port has a direction, a name without blanks and perhaps a width. It can be given in compact form as
`name` or `name#width`.
-/

namespace HdlScaffold

/-- A port of a module. -/
structure Port where
  direction : Direction
  identifier : Text
  width : Option Width
  solid : identifier.Solid
  deriving Repr

namespace Port

/-- All that counts when ports are compared: widths by their text. -/
def outline (p : Port) : Direction × Text × Option Text :=
  (p.direction, p.identifier, p.width.map Width.text)

instance : BEq Port := ⟨fun p q => p.outline == q.outline⟩

/-- The port with these properties, the blanks around its name left out. -/
def create (direction : Direction) (identifier : Text) (width : Option Width) :
    Except Error Port :=
  let name := identifier.trim
  if hn : name = [] then .error (.invalidSpec name .portNameEmpty)
  else if hb : name.any isBlank then .error (.invalidSpec name .portNameBlank)
  else .ok ⟨direction, name, width, hn, by simpa using hb⟩

/-- The port that `name` or `name#width` describes. A refusal shows the whole description. -/
def ofDescription (direction : Direction) (description : Text) : Except Error Port :=
  let (name, token) := match description.cutAt? '#' with
    | some (name, width) => (name, width.trim)
    | none => (description, [])
  let make (width : Option Width) := match create direction name width with
    | .error (.invalidSpec _ refusal) => .error (.invalidSpec description refusal)
    | made => made
  if name.trim = [] then .error (.invalidSpec description .portNameMissing)
  else if token = [] then make none
  else if Width.isNonPositive token then .error (.invalidSpec description .widthNotPositive)
  else make (some (Width.ofToken token))

/-- The port as one line for a reader. -/
def summary (p : Port) : Text :=
  p.direction.keyword ++ [' '] ++
    (match p.width with
      | some w => w.text ++ [' ']
      | none => []) ++ p.identifier

/-- The endings that name a direction. -/
def directionEndings : List Text :=
  ["_output", "_input", "_out", "_in", "_o", "_i"].map String.toList

/-- The name without an ending that names a direction, unless nothing else is left. -/
def withoutEnding (identifier : Text) : Text :=
  match directionEndings.findSome? (Text.dropEnding? · identifier) with
  | some (c :: stem) => c :: stem
  | _ => identifier

/-- The signal wired to the port: its name, perhaps without the ending that names a direction. -/
def signal (p : Port) (strip : Bool) : Text :=
  if strip then withoutEnding p.identifier else p.identifier

/-- A name without blanks makes a port. -/
theorem create_of_solid (direction : Direction) {name : Text} (width : Option Width)
    (h : name.Solid) : create direction name width = .ok ⟨direction, name, width, h⟩ := by
  have hb : name.any isBlank = false := by
    rw [List.any_eq_false]
    exact fun c hc => by simp [h.2 c hc]
  unfold create
  simp only [Text.trim_of_no_blank h.2]
  rw [dif_neg h.1, dif_neg (by simp [hb])]

end Port

end HdlScaffold
