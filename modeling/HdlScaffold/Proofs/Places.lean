import HdlScaffold.Proofs.LineReading
import Mathlib.Algebra.GroupWithZero.Nat

/-!
# Where a reader stands

A reader is driven by four operations: it hands out the next line, shows it, steps back or starts
again. Seen from outside, a reader of a text is a place among the lines of the text: so many of them
lie behind it, and it may or may not step back over the last one (`Place`). Every operation of the
reader is the operation of its place (`StandsAt.perform`), so after any operations the reader has
answered what the place answers, and its numbers are those of the lines behind it
(`run_ofBytes_encode`).
-/

namespace HdlScaffold

namespace Text

/-- The lines of a text, each with the line feed that ends it. -/
def lines (t : Text) : List Text := pieces '\n' t

@[simp] theorem lines_nil : lines [] = [] := rfl

/-- What stands in front of the first line feed belongs to the first line. -/
theorem lines_append {a : Text} (hne : a ≠ []) (ha : '\n' ∉ a) (t : Text) :
    lines (a ++ t) = match lines t with
      | [] => [a]
      | l :: ls => (a ++ l) :: ls := by
  rw [lines, lines, pieces_append hne ha]
  cases pieces '\n' t <;> rfl

theorem lines_of_not_mem {a : Text} (hne : a ≠ []) (ha : '\n' ∉ a) : lines a = [a] := by
  have h := lines_append hne ha []
  rwa [List.append_nil] at h

theorem lines_append_newline {a : Text} (ha : '\n' ∉ a) (t : Text) :
    lines (a ++ '\n' :: t) = (a ++ ['\n']) :: lines t := pieces_append_cons ha t

/-- A text is nothing, a last line without a line feed, or a line with a text behind it. -/
theorem line_induction {P : Text → Prop} (nil : P []) (last : ∀ a : Text, a ≠ [] → '\n' ∉ a → P a)
    (line : ∀ a t : Text, '\n' ∉ a → P t → P (a ++ '\n' :: t)) (t : Text) : P t := by
  induction hn : t.length using Nat.strongRecOn generalizing t with
  | ind n ih =>
    by_cases ht : '\n' ∈ t
    · obtain ⟨a, u, rfl, ha⟩ := List.eq_append_cons_of_mem ht
      refine line a u ha (ih u.length ?_ u rfl)
      simp only [List.length_append, List.length_cons] at hn
      omega
    · by_cases hne : t = []
      · exact hne ▸ nil
      · exact last t hne ht

theorem flatten_lines (t : Text) : t.lines.flatten = t := by
  induction t using line_induction with
  | nil => rfl
  | last a hne ha => rw [lines_of_not_mem hne ha, List.flatten_singleton]
  | line a t ha ih => rw [lines_append_newline ha, List.flatten_cons, ih, List.append_assoc]; rfl

theorem ne_nil_of_mem_lines {l t : Text} : l ∈ t.lines → l ≠ [] := by
  induction t using line_induction with
  | nil => simp
  | last a hne ha =>
    rw [lines_of_not_mem hne ha, List.mem_singleton]
    rintro rfl
    exact hne
  | line a t ha ih =>
    rw [lines_append_newline ha, List.mem_cons]
    rintro (rfl | hl)
    · simp
    · exact ih hl

/-- The last line is complete. -/
def EndsLine (t : Text) : Prop := ∀ c ∈ t.getLast?, c = '\n'

theorem EndsLine.append {a b : Text} (ha : a.EndsLine) (hb : b.EndsLine) : (a ++ b).EndsLine := by
  intro c hc
  rw [List.getLast?_append] at hc
  rcases Option.or_eq_some_iff.1 hc with hc | ⟨-, hc⟩
  · exact hb c hc
  · exact ha c hc

theorem EndsLine.of_append_newline {a t : Text} (h : (a ++ '\n' :: t).EndsLine) : t.EndsLine := by
  intro c hc
  refine h c ?_
  rw [List.getLast?_append, List.getLast?_cons]
  simp [Option.mem_def.1 hc]

theorem not_endsLine {a : Text} (hne : a ≠ []) (ha : '\n' ∉ a) : ¬ a.EndsLine := by
  intro h
  have hlast := h _ (List.getLast?_eq_some_getLast hne)
  exact ha (hlast ▸ List.getLast_mem hne)

/-- Behind a complete line, lines are counted anew. -/
theorem lines_append_of_endsLine {a : Text} (h : a.EndsLine) (b : Text) :
    lines (a ++ b) = lines a ++ lines b := by
  induction a using line_induction with
  | nil => rfl
  | last a hne ha => exact absurd h (not_endsLine hne ha)
  | line a t ha ih =>
    rw [List.append_assoc, List.cons_append, lines_append_newline ha, lines_append_newline ha,
      ih h.of_append_newline, List.cons_append]

theorem isLine_of_mem_lines {t : Text} (h : t.EndsLine) : ∀ l ∈ t.lines, l.IsLine := by
  induction t using line_induction with
  | nil => simp
  | last a hne ha => exact absurd h (not_endsLine hne ha)
  | line a t ha ih =>
    rw [lines_append_newline ha]
    exact List.forall_mem_cons.2 ⟨⟨a, rfl, ha⟩, ih h.of_append_newline⟩

/-- The bytes of a text are read as its lines. -/
theorem beginsWith_lines (t : Text) : BeginsWith t.encode t.lines [] := by
  induction t using line_induction with
  | nil => rfl
  | last a hne ha =>
    rw [lines_of_not_mem hne ha]
    exact ⟨hne, firstLine_of_not_mem (newline_not_mem_encode ha), by simp [BeginsWith]⟩
  | line a t ha ih =>
    have hline : ∀ l ∈ [a ++ ['\n']], l.IsLine := fun l hl => ⟨a, List.mem_singleton.1 hl, ha⟩
    have hfirst := beginsWith_of_isLine hline t.encode
    rw [List.flatten_singleton, ← encode_append, List.append_assoc, List.singleton_append] at hfirst
    rw [lines_append_newline ha]
    exact hfirst.append ih

/-- The bytes of the first `k` lines. -/
def bytesBefore (t : Text) (k : Nat) : Nat := ((t.lines.take k).map byteLength).sum

theorem length_encode_flatten (ls : List Text) :
    (encode ls.flatten).length = (ls.map byteLength).sum := by
  induction ls with
  | nil => rfl
  | cons l ls ih =>
    rw [List.flatten_cons, encode_append, List.length_append, ih, length_encode, List.map_cons,
      List.sum_cons]

theorem bytesBefore_succ {t l : Text} {k : Nat} (h : t.lines[k]? = some l) :
    t.bytesBefore (k + 1) = t.bytesBefore k + l.byteLength := by
  obtain ⟨hk, hl⟩ := List.getElem?_eq_some_iff.1 h
  rw [bytesBefore, List.take_add_one, h, bytesBefore]
  simp

end Text

/-- A place among lines: so many lines lie behind it, and perhaps it may step back over the last. -/
structure Place where
  passed : Nat := 0
  canStepBack : Bool := false
  deriving DecidableEq, Repr

/-- What a reader of lines can be asked to do. -/
inductive LineReader.Operation where
  | next
  | peek
  | stepBack
  | restart
  deriving DecidableEq, Repr

open LineReader (Operation)

namespace Place

def next (ls : List Text) (p : Place) : Option Text × Place :=
  match ls[p.passed]? with
  | some l => (some l, ⟨p.passed + 1, true⟩)
  | none => (none, ⟨p.passed, false⟩)

def peek (ls : List Text) (p : Place) : Option Text × Place := (ls[p.passed]?, ⟨p.passed, false⟩)

def stepBack (p : Place) : Place := if p.canStepBack then ⟨p.passed - 1, false⟩ else p

/-- The answer to an operation, none where it asks for no line, and the place after it. -/
def perform (ls : List Text) (p : Place) : Operation → Option Text × Place
  | .next => p.next ls
  | .peek => p.peek ls
  | .stepBack => (none, p.stepBack)
  | .restart => (none, {})

def run (ls : List Text) (p : Place) : List Operation → List (Option Text) × Place
  | [] => ([], p)
  | o :: os =>
    let (answer, q) := p.perform ls o
    let (answers, q) := run ls q os
    (answer :: answers, q)

end Place

namespace LineReader

/-- The answer to an operation, none where it asks for no line, and the reader after it. -/
def perform (r : LineReader) : Operation → Except Error (Option Text) × LineReader
  | .next => r.next
  | .peek => r.peek
  | .stepBack => (.ok none, r.stepBack)
  | .restart => (.ok none, r.restart)

def run (r : LineReader) : List Operation → List (Except Error (Option Text)) × LineReader
  | [] => ([], r)
  | o :: os =>
    let (answer, s) := r.perform o
    let (answers, s) := run s os
    (answer :: answers, s)

/-- The reader stands at a place among the lines of the text. -/
structure StandsAt (r : LineReader) (t : Text) (p : Place) : Prop where
  source_eq : r.source = t.encode
  passed_le : p.passed ≤ t.lines.length
  lineNumber_eq : r.lineNumber = p.passed
  offset_eq : r.offset = t.bytesBefore p.passed
  position_eq : r.position = r.offset
  lastLength_eq : r.lastLength =
    if p.canStepBack then t.bytesBefore p.passed - t.bytesBefore (p.passed - 1) else 0

theorem standsAt_ofBytes (t : Text) : (ofBytes t.encode).StandsAt t {} :=
  ⟨rfl, Nat.zero_le _, rfl, rfl, rfl, rfl⟩

variable {r : LineReader} {t : Text} {p : Place} {k : Nat} {b : Bool}

theorem StandsAt.before (h : r.StandsAt t p) : r.Before (t.lines.drop p.passed) [] := by
  have hstart : (ofBytes t.encode).Before (t.lines.take p.passed ++ t.lines.drop p.passed) [] := by
    rw [List.take_append_drop]
    exact ofBytes_before t.beginsWith_lines
  have hbegins := hstart.pass.begins
  refine ⟨h.position_eq.symm, ?_⟩
  rw [remaining, h.source_eq, h.position_eq, h.offset_eq, Text.bytesBefore,
    ← Text.length_encode_flatten]
  simpa [remaining, pass, ofBytes] using hbegins

/-- Past further lines, the reader stands behind them. -/
theorem StandsAt.pass (h : r.StandsAt t ⟨k, b⟩) {ls : List Text} (hls : ls <+: t.lines.drop k) :
    (r.pass ls).StandsAt t ⟨k + ls.length, false⟩ := by
  have hlen := hls.length_le
  have hk := h.passed_le
  have htake : t.lines.take (k + ls.length) = t.lines.take k ++ ls := by
    rw [List.take_add, ← List.prefix_iff_eq_take.1 hls]
  have hbytes : t.bytesBefore (k + ls.length)
      = t.bytesBefore k + (Text.encode ls.flatten).length := by
    rw [Text.bytesBefore, htake, List.map_append, List.sum_append, Text.length_encode_flatten,
      Text.bytesBefore]
  rw [List.length_drop] at hlen
  refine ⟨h.source_eq, ?_, ?_, ?_, ?_, rfl⟩
  · show k + ls.length ≤ _
    simp only at hk
    omega
  · simp only [LineReader.pass, h.lineNumber_eq]
  · simp only [LineReader.pass, h.offset_eq, hbytes]
  · simp only [LineReader.pass, h.position_eq]

theorem StandsAt.next_of_some (h : r.StandsAt t ⟨k, b⟩) {l : Text} (hl : t.lines[k]? = some l) :
    r.next = (.ok (some l), r.handOut l) ∧ (r.handOut l).StandsAt t ⟨k + 1, true⟩ := by
  obtain ⟨hk, hget⟩ := List.getElem?_eq_some_iff.1 hl
  have hbefore := h.before
  rw [List.drop_eq_getElem_cons hk, hget] at hbefore
  have hbytes := Text.bytesBefore_succ hl
  refine ⟨next_of_before hbefore, h.source_eq, hk, ?_, ?_, ?_, ?_⟩
  · simp only [handOut, h.lineNumber_eq]
  · simp only [handOut, h.offset_eq, Text.length_encode, hbytes]
  · simp only [handOut, h.position_eq]
  · simp only [handOut, Text.length_encode, if_true, hbytes, Nat.add_sub_cancel]
    omega

theorem StandsAt.next_of_none (h : r.StandsAt t ⟨k, b⟩) (hl : t.lines[k]? = none) :
    r.next = (.ok none, r.pass []) ∧ (r.pass []).StandsAt t ⟨k, false⟩ := by
  have hrest : r.remaining = [] := by
    have hbegins := h.before.begins
    rwa [List.drop_eq_nil_of_le (List.getElem?_eq_none_iff.1 hl)] at hbegins
  exact ⟨next_of_end hrest, h.pass List.nil_prefix⟩

theorem StandsAt.fst_next (h : r.StandsAt t ⟨k, b⟩) : r.next.1 = .ok t.lines[k]? := by
  rcases hl : t.lines[k]? with _ | l
  · rw [(h.next_of_none hl).1]
  · rw [(h.next_of_some hl).1]

/-- A line handed out has a length to step back by, since no line is empty. -/
theorem StandsAt.stepBack (h : r.StandsAt t ⟨k, b⟩) :
    r.stepBack.StandsAt t (Place.stepBack ⟨k, b⟩) := by
  have hlast := h.lastLength_eq
  unfold LineReader.stepBack Place.stepBack
  cases b with
  | false =>
    rw [if_pos (show r.lastLength = 0 from hlast)]
    exact h
  | true =>
    cases k with
    | zero =>
      have hzero : r.lastLength = 0 := by simpa using hlast
      rw [if_pos hzero]
      exact ⟨h.source_eq, h.passed_le, h.lineNumber_eq, h.offset_eq, h.position_eq, hzero⟩
    | succ k =>
      have hk : k < t.lines.length := h.passed_le
      have hbytes := Text.bytesBefore_succ (List.getElem?_eq_getElem hk)
      have hne := encode_ne_nil (Text.ne_nil_of_mem_lines (List.getElem_mem hk))
      rw [← List.length_pos_iff, Text.length_encode] at hne
      have hoffset : r.offset = t.bytesBefore (k + 1) := h.offset_eq
      have hnumber : r.lineNumber = k + 1 := h.lineNumber_eq
      have hlength : r.lastLength = t.bytesBefore (k + 1) - t.bytesBefore k := hlast
      rw [if_neg (by omega)]
      refine ⟨h.source_eq, Nat.le_of_lt hk, ?_, ?_, rfl, rfl⟩
      · show r.lineNumber - 1 = k
        omega
      · show r.offset - r.lastLength = t.bytesBefore k
        omega

/-- Every operation of a reader is the operation of its place. -/
theorem StandsAt.perform (h : r.StandsAt t p) (o : Operation) :
    (r.perform o).1 = .ok (p.perform t.lines o).1 ∧
      (r.perform o).2.StandsAt t (p.perform t.lines o).2 := by
  obtain ⟨k, b⟩ := p
  cases o with
  | next =>
    simp only [LineReader.perform, Place.perform, Place.next]
    rcases hl : t.lines[k]? with _ | l
    · obtain ⟨hnext, hs⟩ := h.next_of_none hl
      rw [hnext]
      exact ⟨rfl, hs⟩
    · obtain ⟨hnext, hs⟩ := h.next_of_some hl
      rw [hnext]
      exact ⟨rfl, hs⟩
  | peek =>
    simp only [LineReader.perform, Place.perform, Place.peek, peek]
    rcases hl : t.lines[k]? with _ | l
    · obtain ⟨hnext, hs⟩ := h.next_of_none hl
      rw [hnext]
      exact ⟨rfl, hs.stepBack⟩
    · obtain ⟨hnext, hs⟩ := h.next_of_some hl
      rw [hnext]
      exact ⟨rfl, hs.stepBack⟩
  | stepBack => exact ⟨rfl, h.stepBack⟩
  | restart =>
    have hs := standsAt_ofBytes t
    rw [← h.source_eq] at hs
    exact ⟨rfl, hs⟩

theorem StandsAt.run : ∀ {r : LineReader} {p : Place}, r.StandsAt t p → ∀ os : List Operation,
    (r.run os).1 = (p.run t.lines os).1.map .ok ∧ (r.run os).2.StandsAt t (p.run t.lines os).2
  | _, _, h, [] => ⟨rfl, h⟩
  | r, p, h, o :: os => by
    obtain ⟨hanswer, hs⟩ := h.perform o
    obtain ⟨hanswers, hrun⟩ := hs.run os
    refine ⟨?_, hrun⟩
    show (r.perform o).1 :: ((r.perform o).2.run os).1 = _
    rw [hanswer, hanswers]
    rfl

/-- However it is driven, a reader of a text answers as its place among the lines does, its line number
counts the lines behind it, and its offset and its position are the bytes of those lines. -/
theorem run_ofBytes_encode (t : Text) (os : List Operation) :
    let ran := (ofBytes t.encode).run os
    let place := Place.run t.lines {} os
    ran.1 = place.1.map .ok ∧ ran.2.lineNumber = place.2.passed ∧
      ran.2.offset = ((t.lines.take place.2.passed).map Text.byteLength).sum ∧
      ran.2.position = ran.2.offset ∧ ran.2.source = t.encode := by
  obtain ⟨hanswers, hs⟩ := (standsAt_ofBytes t).run os
  exact ⟨hanswers, hs.lineNumber_eq, hs.offset_eq, hs.position_eq, hs.source_eq⟩

end LineReader

end HdlScaffold
