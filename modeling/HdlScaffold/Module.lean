import HdlScaffold.Parameter
import HdlScaffold.Port

/-!
# Modules

A module has a name, a list of parameters and its ports, which are kept by direction. Within one
direction the ports stay in the order in which they were declared.
-/

namespace HdlScaffold

/-- The ports of a module, by direction. -/
structure PortTable where
  /-- The ports of one direction. -/
  get : Direction → List Port
  direction_of_mem : ∀ d, ∀ p ∈ get d, p.direction = d

namespace PortTable

@[ext] theorem ext {s t : PortTable} (h : ∀ d, s.get d = t.get d) : s = t := by
  cases s
  cases t
  simp only [mk.injEq]
  exact funext h

/-- The table of a list of ports. -/
def ofList (ports : List Port) : PortTable where
  get d := ports.filter fun p => p.direction = d
  direction_of_mem d p hp := by simpa using (List.mem_filter.1 hp).2

/-- All ports: inputs first, then outputs, then the others. -/
def toList (t : PortTable) : List Port := Direction.all.flatMap t.get

/-- The number of ports. -/
def size (t : PortTable) : Nat :=
  (t.get .input).length + (t.get .output).length + (t.get .inout).length

def isEmpty (t : PortTable) : Bool := t.size == 0

theorem length_toList (t : PortTable) : t.toList.length = t.size := by
  simp [toList, size, Direction.all, Nat.add_assoc]

end PortTable

/-- A module as its header declares it. -/
structure Module where
  name : Text
  parameters : List Parameter
  ports : PortTable
  name_trimmed : name.Trimmed

namespace Module

/-- All that counts when modules are compared. -/
def outline (m : Module) : Text × List (Text × Option Text) × List (Direction × Text × Option Text) :=
  (m.name, m.parameters.map Parameter.outline, m.ports.toList.map Port.outline)

instance : BEq Module := ⟨fun m n => m.outline == n.outline⟩

/-- The module with this name, the blanks around it left out. -/
def create (name : Text) (parameters : List Parameter) (ports : List Port) : Except Error Module :=
  if h : name.trim = [] then .error (.invalidSpec name.trim .moduleNameEmpty)
  else .ok ⟨name.trim, parameters, .ofList ports, Text.trimmed_trim h⟩

theorem of_create {m : Module} {name : Text} {parameters : List Parameter} {ports : List Port}
    (h : create name parameters ports = .ok m) :
    m.name = name.trim ∧ m.parameters = parameters ∧ m.ports = .ofList ports := by
  unfold create at h
  split at h
  · cases h
  · obtain rfl := Except.ok.inj h
    exact ⟨rfl, rfl, rfl⟩

/-- The module given by compact descriptions. Parameters are looked at first, then ports, then the
name. -/
def ofDescriptions (name : Text) (parameters : List Text) (ports : List (Direction × Text)) :
    Except Error Module := do
  let parameters ← parameters.mapM Parameter.ofDescription
  let ports ← ports.mapM fun p => Port.ofDescription p.1 p.2
  create name parameters ports

/-- The module as a listing for a reader. -/
def summary (m : Module) : Text :=
  "module: ".toList ++ m.name ++ "\nparameters:\n".toList ++
    (m.parameters.flatMap fun p => ['\t'] ++ p.declaration ++ ['\n']) ++
    "ports:".toList ++ m.ports.toList.flatMap fun p => "\n\t".toList ++ p.summary

/-- The name that an instance gets when none is given. -/
def defaultInstanceName (m : Module) : Text := m.name ++ "_inst".toList

end Module

end HdlScaffold
