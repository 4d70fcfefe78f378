import HdlScaffold.Error
import HdlScaffold.Text.Utf8

/-!
# Reading lines

A reader goes through bytes line by line and can step back over the line it read last. The offset is
the sum of the lengths of the lines it has handed out; a line that is no text is passed over without
being handed out, so from then on the offset lags behind the position.
-/

namespace HdlScaffold

/-- The bytes up to the first line feed, that one included. -/
def firstLine : Bytes → Bytes
  | [] => []
  | b :: t => if b = 10 then [b] else b :: firstLine t

theorem isPrefix_firstLine (b : Bytes) : firstLine b <+: b := by
  induction b with
  | nil => simp [firstLine]
  | cons x t ih =>
    simp only [firstLine]
    split
    · exact ⟨t, rfl⟩
    · exact List.cons_prefix_cons.2 ⟨rfl, ih⟩

/-- A reader of lines with one line to step back. -/
structure LineReader where
  source : Bytes
  /-- Where the next line is read from. -/
  position : Nat := 0
  /-- The bytes of the lines handed out so far. -/
  offset : Nat := 0
  /-- The bytes of the line handed out last, zero when there is none to step back over. -/
  lastLength : Nat := 0
  /-- The number of the line handed out last. -/
  lineNumber : Nat := 0
  deriving DecidableEq, Repr

namespace LineReader

/-- A reader at the start of a source. -/
def ofBytes (source : Bytes) : LineReader := { source }

/-- The bytes not read yet. -/
def remaining (r : LineReader) : Bytes := r.source.drop r.position

/-- The next line with its line feed, or nothing at the end of the source. -/
def next (r : LineReader) : Except Error (Option Text) × LineReader :=
  let bytes := firstLine r.remaining
  if bytes = [] then (.ok none, { r with lastLength := 0 })
  else
    let position := r.position + bytes.length
    match Text.decode? bytes with
    | none => (.error (.unreadable .invalidUtf8), { r with position })
    | some line =>
      (.ok (some line),
        { r with
          position
          offset := r.offset + bytes.length
          lastLength := bytes.length
          lineNumber := r.lineNumber + 1 })

/-- The reader before the line it handed out last. Without such a line it stays where it is. -/
def stepBack (r : LineReader) : LineReader :=
  if r.lastLength = 0 then r
  else
    { r with
      position := r.offset - r.lastLength
      offset := r.offset - r.lastLength
      lastLength := 0
      lineNumber := r.lineNumber - 1 }

/-- The next line without moving on. -/
def peek (r : LineReader) : Except Error (Option Text) × LineReader :=
  match r.next with
  | (.error e, r) => (.error e, r)
  | (.ok line, r) => (.ok line, r.stepBack)

/-- The reader at the start of its source. -/
def restart (r : LineReader) : LineReader := ofBytes r.source

/-- A line handed out leaves fewer bytes to read. -/
theorem remaining_lt_of_next {r s : LineReader} {line : Text} (h : r.next = (.ok (some line), s)) :
    s.remaining.length < r.remaining.length := by
  have hp := (isPrefix_firstLine r.remaining).length_le
  unfold next at h
  simp only at h
  split at h
  · simp at h
  · rename_i hne
    have hpos : 0 < (firstLine r.remaining).length := List.length_pos_iff.2 hne
    split at h
    · simp at h
    · simp only [Prod.mk.injEq, Except.ok.injEq, Option.some.injEq] at h
      obtain ⟨-, rfl⟩ := h
      simp only [remaining, List.length_drop] at hp hpos ⊢
      omega

end LineReader

end HdlScaffold
