import HdlScaffold.Error
import HdlScaffold.Text.Utf8

/-!
# Writing to a device of limited size

A sink takes bytes in portions and may run full. A text is written by offering what is left of it again
and again; the sink is flushed once, after the last byte.
-/

namespace HdlScaffold

/-- A device that takes at most `portion` bytes at a time and `capacity` bytes in all. -/
structure Sink where
  portion : Nat
  capacity : Nat
  /-- What a write to the full sink fails with; without one it takes no bytes. -/
  fullError : Option IoError := none
  /-- What every flush fails with, if flushes fail. -/
  flushError : Option IoError := none
  /-- The bytes taken so far. -/
  written : Bytes := []
  /-- The number of flushes so far. -/
  flushes : Nat := 0
  deriving Repr

namespace Sink

/-- An empty sink that takes so many bytes and then fails. -/
def ofRoom (room : Nat) (e : IoError) : Sink :=
  { portion := room + 1, capacity := room, fullError := some e }

/-- The room that is left. -/
def room (s : Sink) : Nat := s.capacity - s.written.length

/-- Offers bytes to the sink; the answer is how many of them it took. -/
def write (s : Sink) (bytes : Bytes) : Except IoError Nat × Sink :=
  match s.room, s.fullError with
  | 0, some e => (.error e, s)
  | _, _ =>
    let taken := bytes.take (min s.portion s.room)
    (.ok taken.length, { s with written := s.written ++ taken })

/-- Offers bytes until the sink has taken all of them. -/
def writeAll (s : Sink) (bytes : Bytes) : Except IoError Unit × Sink :=
  if _hb : bytes = [] then (.ok (), s)
  else
    match s.write bytes with
    | (.error e, s) => (.error e, s)
    | (.ok 0, s) => (.error .writeZero, s)
    | (.ok (n + 1), s) => writeAll s (bytes.drop (n + 1))
termination_by bytes.length
decreasing_by
  have := List.length_pos_iff.2 _hb
  simp only [List.length_drop]
  omega

/-- Makes the sink pass on what it has taken. -/
def flush (s : Sink) : Except IoError Unit × Sink :=
  (match s.flushError with
    | some e => .error e
    | none => .ok (), { s with flushes := s.flushes + 1 })

/-- Writes a text and flushes the sink. -/
def writeText (s : Sink) (t : Text) : Except Error Unit × Sink :=
  match s.writeAll t.encode with
  | (.error e, s) => (.error (.unwritable e), s)
  | (.ok (), s) =>
    match s.flush with
    | (.error e, s) => (.error (.unwritable e), s)
    | (.ok (), s) => (.ok (), s)

end Sink

end HdlScaffold
