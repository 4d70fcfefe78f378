import HdlScaffold.Proofs.Blocks

/-!
# Asking a source again

A reading may leave its reader anywhere: before a line that concerns two blocks, in the middle of a
block that was never closed, or past a line that is no text, where the offset lags behind. Whatever it
does, it keeps the source (`KeepsSource`), and every query goes back to the start of the source first.
So a query put after any others is answered as by a reader that was never used
(`answers_eq_map_fresh`).
-/

namespace HdlScaffold

namespace LineReader

theorem source_next (r : LineReader) : r.next.2.source = r.source := by
  unfold next
  simp only []
  split_ifs
  · rfl
  · cases Text.decode? (firstLine r.remaining) <;> rfl

theorem source_stepBack (r : LineReader) : r.stepBack.source = r.source := by
  unfold stepBack
  split_ifs <;> rfl

end LineReader

namespace Header

namespace Reading

variable {α β σ : Type}

/-- Wherever the reading starts and however it ends, the reader keeps its source. -/
def KeepsSource (x : Reading α) : Prop := ∀ r, (x r).reader.source = r.source

theorem KeepsSource.bind {x : Reading α} {f : α → Reading β} (hx : x.KeepsSource)
    (hf : ∀ a, (f a).KeepsSource) : (x >>= f).KeepsSource := by
  intro r
  rcases ha : (x r).answer with e | a
  · rw [bind_of_error ha]
    exact hx r
  · rw [bind_of_ok ha]
    exact (hf a _).trans (hx r)

theorem keepsSource_ofExcept (x : Except Error α) : (ofExcept x).KeepsSource := fun _ => rfl

theorem keepsSource_pure (a : α) : (pure a : Reading α).KeepsSource := fun _ => rfl

theorem keepsSource_note (n : Note) : (note n).KeepsSource := fun _ => rfl

theorem keepsSource_unclosed (block : Block) : (unclosed block : Reading α).KeepsSource :=
  fun _ => rfl

theorem keepsSource_restart : restart.KeepsSource := fun _ => rfl

theorem keepsSource_until? (step : σ → Text → Except Error (σ ⊕ β)) (s : σ) :
    (until? step s).KeepsSource := by
  intro r
  fun_induction until? step s r with
  | case1 s r e r' h => exact congrArg (·.2.source) h ▸ r.source_next
  | case2 s r r' h => exact congrArg (·.2.source) h ▸ r.source_next
  | case3 s r line r' h => exact congrArg (·.2.source) h ▸ r.source_next
  | case4 s r line r' h s' _ ih => exact ih.trans (congrArg (·.2.source) h ▸ r.source_next)
  | case5 s r line r' h =>
    exact r'.source_stepBack.trans (congrArg (·.2.source) h ▸ r.source_next)

theorem keepsSource_find? (pick : Text → Option β) : (find? pick).KeepsSource :=
  keepsSource_until? _ _

end Reading

open Reading

theorem keepsSource_seek {block : Block} {opens? : Text → Option Bool} {α σ : Type}
    {gather : σ → Text → Except Error (σ ⊕ List α)} {start : σ} {absent ends : Nat → Note} :
    (seek block opens? gather start absent ends).KeepsSource := by
  refine (keepsSource_find? _).bind fun found => ?_
  rcases found with _ | ⟨_ | _, line⟩
  · exact keepsSource_unclosed _
  · exact (keepsSource_note _).bind fun _ => keepsSource_pure _
  · refine (keepsSource_until? _ _).bind fun gathered => ?_
    rcases gathered with _ | ⟨declared, line⟩
    · exact keepsSource_unclosed _
    · exact (keepsSource_note _).bind fun _ => keepsSource_pure _

theorem keepsSource_firstModule? : firstModule?.KeepsSource := by
  refine keepsSource_restart.bind fun _ => (keepsSource_find? _).bind fun found => ?_
  rcases found with _ | ⟨name, line⟩
  · exact (keepsSource_note _).bind fun _ => keepsSource_pure _
  · refine (keepsSource_note _).bind fun _ => KeepsSource.bind ?_ fun ps => KeepsSource.bind ?_
      fun qs => (keepsSource_note _).bind fun _ => (keepsSource_ofExcept _).bind fun _ =>
        keepsSource_pure _
    · rw [parameterBlock_eq_seek]
      exact keepsSource_seek
    · rw [portBlock_eq_seek]
      exact keepsSource_seek

theorem keepsSource_firstTimescale? : firstTimescale?.KeepsSource :=
  keepsSource_restart.bind fun _ => (keepsSource_find? _).bind fun _ => keepsSource_pure _

/-- What a source can be asked for. -/
inductive Query where
  | firstModule
  | firstTimescale
  deriving DecidableEq, Repr

/-- How a query is answered, a module on the left and a timescale on the right. -/
def Query.reading : Query → Reading (Option Module ⊕ Option Text)
  | .firstModule => do return .inl (← firstModule?)
  | .firstTimescale => do return .inr (← firstTimescale?)

/-- An answer, with the notes taken for it. -/
abbrev Query.Reply := Except Error (Option Module ⊕ Option Text) × List Note

/-- The queries one after another on one reader, each starting where the last one left it. -/
def Query.answers : LineReader → List Query → List Query.Reply
  | _, [] => []
  | r, q :: qs =>
    let outcome := q.reading r
    (outcome.answer, outcome.notes) :: answers outcome.reader qs

/-- The answer to a query from a reader that was never used. -/
def Query.fresh (source : Bytes) (q : Query) : Query.Reply :=
  ((q.reading (.ofBytes source)).answer, (q.reading (.ofBytes source)).notes)

namespace Query

theorem keepsSource_reading (q : Query) : q.reading.KeepsSource := by
  cases q
  · exact keepsSource_firstModule?.bind fun _ => keepsSource_pure _
  · exact keepsSource_firstTimescale?.bind fun _ => keepsSource_pure _

theorem reading_eq_ofBytes (q : Query) (r : LineReader) :
    q.reading r = q.reading (.ofBytes r.source) := by
  -- each begins with a restart, which is the same from both readers
  cases q <;> rfl

/-- The answers do not depend on what was asked before, nor on where the reader stands. -/
theorem answers_eq_map_fresh (r : LineReader) (qs : List Query) :
    answers r qs = qs.map (fresh r.source) := by
  induction qs generalizing r with
  | nil => rfl
  | cons q qs ih =>
    -- the reader that `q` leaves behind may stand anywhere, but has the source of `r`
    rw [answers, List.map_cons, ih, keepsSource_reading q r, fresh, ← reading_eq_ofBytes]

end Query

end Header

end HdlScaffold
