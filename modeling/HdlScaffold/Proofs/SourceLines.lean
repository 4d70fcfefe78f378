import HdlScaffold.Proofs.LineReading

/-!
# Lines of a source

Not every source is a text. Of its lines, those up to the first that is no text can be read, and what
comes after them either is nothing or starts with bytes that cannot be read (`exists_readable`). Lines
that are complete stay the same lines when something is put behind them (`BeginsWith.append_right`).
-/

namespace HdlScaffold

namespace Bytes

/-- The lines of a source, each with the line feed that ends it. -/
def lines (b : Bytes) : List Bytes := pieces 10 b

@[simp] theorem lines_nil : lines [] = [] := rfl

/-- The last line is complete. -/
def EndsLine (b : Bytes) : Prop := ∀ x ∈ b.getLast?, x = 10

instance (b : Bytes) : Decidable b.EndsLine := inferInstanceAs (Decidable (∀ x ∈ _, _))

/-- No text can be read on from here: the source ends, or its next line is no text. -/
def EndsText (b : Bytes) : Prop := b = [] ∨ Text.decode? (firstLine b) = none

theorem lines_eq_cons : ∀ {b : Bytes}, b ≠ [] →
    lines b = firstLine b :: lines (b.drop (firstLine b).length)
  | [], h => absurd rfl h
  | x :: t, _ => by
    by_cases hx : x = 10
    · simp [lines, pieces, firstLine, hx]
    · by_cases ht : t = []
      · simp [lines, pieces, firstLine, hx, ht]
      · have ih : pieces 10 t = firstLine t :: lines (t.drop (firstLine t).length) := lines_eq_cons ht
        rw [lines, pieces, if_neg hx, ih, firstLine, if_neg hx, List.length_cons,
          List.drop_succ_cons]

theorem firstLine_ne_nil {b : Bytes} (h : b ≠ []) : firstLine b ≠ [] := by
  obtain ⟨x, t, rfl⟩ := List.exists_cons_of_ne_nil h
  rw [firstLine]
  split <;> simp

/-- The lines that can be read, and the rest behind them. -/
theorem exists_readable (b : Bytes) : ∃ ls rest, BeginsWith b ls rest ∧ EndsText rest ∧
    lines b = ls.map Text.encode ++ lines rest := by
  induction hn : b.length using Nat.strongRecOn generalizing b with
  | ind n ih =>
    by_cases hb : b = []
    · exact ⟨[], b, rfl, Or.inl hb, rfl⟩
    · rcases hl : Text.decode? (firstLine b) with _ | l
      · exact ⟨[], b, rfl, Or.inr hl, rfl⟩
      · have hfirst : l.encode = firstLine b := Text.encode_of_decode? hl
        have hpos := List.length_pos_iff.2 (firstLine_ne_nil hb)
        have hlen := List.length_pos_iff.2 hb
        obtain ⟨ls, rest, hbegins, hend, hlines⟩ := ih (b.drop (firstLine b).length).length (by
          rw [List.length_drop]
          omega) _ rfl
        refine ⟨l :: ls, rest, ⟨?_, hfirst.symm, ?_⟩, hend, ?_⟩
        · rintro rfl
          exact firstLine_ne_nil hb hfirst.symm
        · rwa [hfirst]
        · rw [lines_eq_cons hb, hlines, List.map_cons, hfirst, List.cons_append]

variable {b : Bytes} {ls : List Text} {rest : Bytes}

/-- All lines are texts if and only if nothing is left behind the lines that can be read. -/
theorem forall_lines_iff (hend : EndsText rest) (h : lines b = ls.map Text.encode ++ lines rest)
    {P : Text → Prop} : (∀ l ∈ lines b, ∃ t, Text.decode? l = some t ∧ P t) ↔
      rest = [] ∧ ∀ t ∈ ls, P t := by
  rw [h, List.forall_mem_append, and_comm]
  refine and_congr ⟨fun hrest => ?_, ?_⟩ ?_
  · by_contra hne
    rw [lines_eq_cons hne] at hrest
    obtain ⟨t, ht, -⟩ := hrest (firstLine rest) (by simp)
    rw [hend.resolve_left hne] at ht
    simp at ht
  · rintro rfl
    simp
  · simp [Text.decode?_encode]

theorem exists_undecodable (hend : EndsText rest) (h : lines b = ls.map Text.encode ++ lines rest)
    (hne : rest ≠ []) : ∃ l ∈ lines b, Text.decode? l = none := by
  refine ⟨firstLine rest, ?_, hend.resolve_left hne⟩
  rw [h, lines_eq_cons hne]
  simp

theorem EndsLine.newline_mem (h : b.EndsLine) (hne : b ≠ []) : (10 : UInt8) ∈ b := by
  have hlast := List.getLast?_eq_some_getLast hne
  rw [← h _ hlast]
  exact List.getLast_mem hne

theorem EndsLine.drop (h : b.EndsLine) (n : Nat) : EndsLine (b.drop n) := by
  intro x hx
  rw [List.getLast?_drop] at hx
  split at hx
  · simp at hx
  · exact h x hx

theorem firstLine_append_of_mem : ∀ {b : Bytes}, (10 : UInt8) ∈ b → ∀ t : Bytes,
    firstLine (b ++ t) = firstLine b
  | [], h, _ => by simp at h
  | x :: b, h, t => by
    rw [List.cons_append, firstLine, firstLine]
    split
    · rfl
    · rename_i hx
      rw [firstLine_append_of_mem ((List.mem_cons.1 h).resolve_left (Ne.symm hx))]

end Bytes

theorem BeginsWith.append_right : ∀ {ls : List Text} {b rest : Bytes}, BeginsWith b ls rest →
    b.EndsLine → ∀ t : Bytes, BeginsWith (b ++ t) ls (rest ++ t)
  | [], b, rest, h, _, t => congrArg (· ++ t) h
  | l :: ls, b, rest, ⟨hne, hfirst, h⟩, hb, t => by
    have hbne : b ≠ [] := by
      rintro rfl
      exact encode_ne_nil hne hfirst.symm
    have hle : l.encode.length ≤ b.length := hfirst ▸ (isPrefix_firstLine b).length_le
    refine ⟨hne, ?_, ?_⟩
    · rw [Bytes.firstLine_append_of_mem (hb.newline_mem hbne), hfirst]
    · rw [List.drop_append_of_le_length hle]
      exact h.append_right (hb.drop _) t

end HdlScaffold
