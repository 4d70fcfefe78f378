import HdlScaffold.Header.PortList
import HdlScaffold.LineReader
import HdlScaffold.Module

/-!
# Reading module headers

The first line that names a module starts a header. Its parameter block and its port block are looked
for line by line: a block begins on the line with its opening parenthesis and ends on the line with a
closing one, and each search leaves the reader before the line it stopped at, because that line may
concern the next block as well.
-/

namespace HdlScaffold

namespace Header

/-- What is worth noting while a header is read. -/
inductive Note where
  | headerFound (name : Text) (line : Nat)
  | moduleRead (name : Text) (parameters ports : Nat)
  | noHeader
  | noParameterBlock (line : Nat)
  | parameterBlockEnds (line : Nat)
  | noPortList (line : Nat)
  | portBlockEnds (line : Nat)
  deriving DecidableEq, Repr

/-- What a piece of reading comes to: its answer or an error, the reader left behind, and the notes
taken. -/
structure Outcome (α : Type) where
  answer : Except Error α
  reader : LineReader
  notes : List Note := []

/-- A piece of reading. -/
def Reading (α : Type) := LineReader → Outcome α

namespace Reading

variable {α β σ : Type}

/-- An answer that needs no reading. -/
def ofExcept (x : Except Error α) : Reading α := fun r => ⟨x, r, []⟩

/-- One piece of reading after another; an error ends the reading. -/
def andThen (x : Reading α) (f : α → Reading β) : Reading β := fun r =>
  let first := x r
  match first.answer with
  | .error e => ⟨.error e, first.reader, first.notes⟩
  | .ok a =>
    let second := f a first.reader
    { second with notes := first.notes ++ second.notes }

instance : Monad Reading where
  pure a := ofExcept (.ok a)
  bind := andThen

def restart : Reading Unit := fun r => ⟨.ok (), r.restart, []⟩

def note (n : Note) : Reading Unit := fun r => ⟨.ok (), r, [n]⟩

/-- The source ended inside a block. -/
def unclosed (block : Block) : Reading α := fun r => ⟨.error (.unclosed block r.lineNumber), r, []⟩

/-- Reads lines until `step` answers on one, and steps back before that line. The answer comes with
the number of the line; there is none when the source ends first. -/
def until? (step : σ → Text → Except Error (σ ⊕ β)) (s : σ) : Reading (Option (β × Nat)) := fun r =>
  match _h : r.next with
  | (.error e, r') => ⟨.error e, r', []⟩
  | (.ok none, r') => ⟨.ok none, r', []⟩
  | (.ok (some line), r') =>
    match step s line with
    | .error e => ⟨.error e, r', []⟩
    | .ok (.inl s') => until? step s' r'
    | .ok (.inr b) => ⟨.ok (some (b, r'.lineNumber)), r'.stepBack, []⟩
termination_by r => r.remaining.length
decreasing_by exact LineReader.remaining_lt_of_next _h

/-- The first line on which `pick` answers. -/
def find? (pick : Text → Option β) : Reading (Option (β × Nat)) :=
  until? (fun _ line => .ok ((pick line).elim (.inl ()) .inr)) ()

end Reading

/-- Whether the search for the parameter block ends on the line, and whether the block opens there. -/
def parametersOpen? (line : Text) : Option Bool := do
  let d ← Delimiters.ofLine? line
  if d.opensParameters then some true
  else if d.opensPorts || d.endsDeclaration then some false
  else none

/-- Whether the search for the port block ends on the line, and whether the block opens there. -/
def portsOpen? (line : Text) : Option Bool := do
  let d ← Delimiters.ofLine? line
  if d.opensPorts then some true
  else if d.endsDeclaration then some false
  else none

/-- The parameter block ends on the line. -/
def parametersEnd (line : Text) : Bool := (Delimiters.ofLine? line).any (·.closes ≥ 1)

/-- The port block ends on the line, which may be the one that opened it. -/
def portsEnd (opening : Bool) (line : Text) : Bool :=
  (Delimiters.ofLine? line).any fun d => if opening then d.closesOwnPorts else d.endsPorts

/-- The declarations of a parameter block with one more line. -/
def gatherParameters (s : ParameterContext × List Parameter) (line : Text) :
    Except Error ((ParameterContext × List Parameter) ⊕ List Parameter) := do
  let (context, found) ← s.1.feed (lineTokens line)
  let parameters := s.2 ++ found
  return if parametersEnd line then .inr parameters else .inl (context, parameters)

/-- The declarations of a port block with one more line; the first component tells whether that line
opens the block. -/
def gatherPorts (s : Bool × PortContext × List Port) (line : Text) :
    Except Error ((Bool × PortContext × List Port) ⊕ List Port) := do
  let (context, found) ← s.2.1.feed (lineTokens line)
  let ports := s.2.2 ++ found
  return if portsEnd s.1 line then .inr ports else .inl (false, context, ports)

/-- The parameters of the block that comes next, or none when a port list or the end of the
declaration comes first. -/
def parameterBlock : Reading (List Parameter) := do
  match ← Reading.find? parametersOpen? with
  | none => Reading.unclosed .parameter
  | some (false, line) =>
    Reading.note (.noParameterBlock line)
    return []
  | some (true, _) =>
    match ← Reading.until? gatherParameters ({}, []) with
    | none => Reading.unclosed .parameter
    | some (parameters, line) =>
      Reading.note (.parameterBlockEnds line)
      return parameters

/-- The ports of the block that comes next, or none when the declaration ends first. -/
def portBlock : Reading (List Port) := do
  match ← Reading.find? portsOpen? with
  | none => Reading.unclosed .port
  | some (false, line) =>
    Reading.note (.noPortList line)
    return []
  | some (true, _) =>
    match ← Reading.until? gatherPorts (true, {}, []) with
    | none => Reading.unclosed .port
    | some (ports, line) =>
      Reading.note (.portBlockEnds line)
      return ports

/-- The first module of the source. -/
def firstModule? : Reading (Option Module) := do
  Reading.restart
  match ← Reading.find? headerName? with
  | none =>
    Reading.note .noHeader
    return none
  | some (name, line) =>
    Reading.note (.headerFound name line)
    let parameters ← parameterBlock
    let ports ← portBlock
    Reading.note (.moduleRead name parameters.length ports.length)
    let m ← Reading.ofExcept (Module.create name parameters ports)
    return some m

/-- The first timescale of the source. -/
def firstTimescale? : Reading (Option Text) := do
  Reading.restart
  let found ← Reading.find? timescale?
  return found.map Prod.fst

end Header

/-- The first module that a source declares. -/
def Module.ofSource? (source : Bytes) : Except Error (Option Module) :=
  (Header.firstModule? (.ofBytes source)).answer

end HdlScaffold
