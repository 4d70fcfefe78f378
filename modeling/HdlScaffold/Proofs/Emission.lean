import HdlScaffold.Emission

/-!
# What reaches a sink

A sink that takes at least one byte at a time holds in the end as much of a text as it has room for,
whatever the portions (`writeAll_eq`). The result tells which it was: all of the text, with the sink
flushed once, or a beginning of it and the sink's complaint (`Sink.reports_emit`).
-/

namespace HdlScaffold

namespace Sink

variable {s : Sink} {bytes : Bytes}

/-- The sink with these bytes taken as well. -/
def taking (s : Sink) (bytes : Bytes) : Sink := { s with written := s.written ++ bytes }

/-- What is reported when bytes are left over for a full sink. -/
def complaint (s : Sink) : IoError := s.fullError.getD .writeZero

@[simp] theorem taking_nil (s : Sink) : s.taking [] = s := by
  rw [taking, List.append_nil]

@[simp] theorem taking_taking (s : Sink) (a b : Bytes) :
    (s.taking a).taking b = s.taking (a ++ b) := by
  simp only [taking, List.append_assoc]

@[simp] theorem room_taking (s : Sink) (bytes : Bytes) :
    (s.taking bytes).room = s.room - bytes.length := by
  simp only [room, taking, List.length_append]
  omega

@[simp] theorem complaint_taking (s : Sink) (bytes : Bytes) :
    (s.taking bytes).complaint = s.complaint := rfl

section Steps

theorem write_of_full (h : s.room = 0) (bytes : Bytes) :
    s.write bytes = (s.fullError.elim (.ok 0) .error, s) := by
  unfold write
  split
  · rename_i e he
    rw [he]
    rfl
  · rename_i hsilent
    have hnone : s.fullError = none := Option.eq_none_iff_forall_ne_some.2 fun e => hsilent e h
    show (Except.ok _, s.taking (bytes.take (min s.portion s.room))) = _
    rw [h, Nat.min_zero, List.take_zero, taking_nil, hnone]
    rfl

theorem write_of_room (h : 0 < s.room) (bytes : Bytes) :
    s.write bytes = (.ok (bytes.take (min s.portion s.room)).length,
      s.taking (bytes.take (min s.portion s.room))) := by
  unfold write
  split
  · omega
  · rfl

theorem writeAll_of_full (h : s.room = 0) (hb : bytes ≠ []) :
    s.writeAll bytes = (.error s.complaint, s) := by
  unfold writeAll complaint
  rw [dif_neg hb, write_of_full h]
  cases s.fullError <;> rfl

/-- As long as there is room a portion is taken, and the rest is offered again. -/
theorem writeAll_of_room (hs : 1 ≤ s.portion) (h : 0 < s.room) (hb : bytes ≠ []) :
    ∃ taken rest, bytes = taken ++ rest ∧ taken ≠ [] ∧ taken.length ≤ s.room ∧
      s.writeAll bytes = (s.taking taken).writeAll rest := by
  have hlength := List.length_pos_iff.2 hb
  refine ⟨bytes.take (min s.portion s.room), bytes.drop (min s.portion s.room),
    (List.take_append_drop _ _).symm, ?_, ?_, ?_⟩
  · rw [ne_eq, List.take_eq_nil_iff]
    rintro (hzero | hnil)
    · omega
    · exact hb hnil
  · rw [List.length_take]
    omega
  · have hdrop : bytes.drop (bytes.take (min s.portion s.room)).length
        = bytes.drop (min s.portion s.room) := by
      rw [List.length_take, List.drop_eq_drop_iff]
      omega
    rw [writeAll, dif_neg hb, write_of_room h, ← hdrop]
    obtain ⟨n, hn⟩ : ∃ n, (bytes.take (min s.portion s.room)).length = n + 1 :=
      ⟨min (min s.portion s.room) bytes.length - 1, by rw [List.length_take]; omega⟩
    simp only [hn]

end Steps

/-- However the bytes are portioned, a sink takes as many as it has room for. -/
theorem writeAll_eq (hs : 1 ≤ s.portion) (bytes : Bytes) :
    s.writeAll bytes = (if bytes.length ≤ s.room then .ok () else .error s.complaint,
      s.taking (bytes.take s.room)) := by
  -- on the number of bytes that are left, for whatever the sink has taken before
  induction hn : bytes.length using Nat.strongRecOn generalizing s bytes with
  | _ n ih =>
    subst hn
    by_cases hb : bytes = []
    · subst hb
      rw [writeAll, dif_pos rfl]
      simp
    rcases Nat.eq_zero_or_pos s.room with hfull | hroom
    · have hlength := List.length_pos_iff.2 hb
      rw [writeAll_of_full hfull hb, if_neg (by omega), hfull, List.take_zero, taking_nil]
    · obtain ⟨taken, rest, rfl, hne, hle, hstep⟩ := writeAll_of_room hs hroom hb
      have hlength := List.length_pos_iff.2 hne
      have hportion : 1 ≤ (s.taking taken).portion := hs
      have hfits : rest.length ≤ s.room - taken.length ↔ (taken ++ rest).length ≤ s.room := by
        rw [List.length_append]
        omega
      rw [hstep, ih rest.length (by rw [List.length_append]; omega) hportion rest rfl, room_taking,
        taking_taking, complaint_taking, List.take_append, List.take_of_length_le hle]
      simp only [hfits]

/-- The result of writing the bytes to `s`, which is `after` then, tells what was taken. -/
structure Reports (s : Sink) (bytes : Bytes) (result : Except Error Unit) (after : Sink) : Prop where
  /-- The bytes taken are the first ones, as many as there is room for: the whole capacity if the sink
  holds nothing yet. -/
  written : after.written = s.written ++ bytes.take (min s.room bytes.length)
  flushes : after.flushes = s.flushes + if after.written = s.written ++ bytes then 1 else 0
  ok_iff : result = .ok () ↔ after.written = s.written ++ bytes ∧ s.flushError = none
  flush_failed : after.written = s.written ++ bytes →
    ∀ e, s.flushError = some e → result = .error (.unwritable e)
  /-- A full sink may fail with an error of its own. -/
  refused : after.written ≠ s.written ++ bytes →
    ∀ e, s.fullError = some e → result = .error (.unwritable e)
  /-- Without one it takes no bytes. -/
  stalled : after.written ≠ s.written ++ bytes → s.fullError = none →
    ∃ e, result = .error (.unwritable e) ∧ e.message = "failed to write whole buffer"

section Texts

variable {t : Text}

theorem writeText_of_room (hs : 1 ≤ s.portion) (h : t.encode.length ≤ s.room) :
    s.writeText t = (s.flushError.elim (.ok ()) fun e => .error (.unwritable e),
      { s.taking t.encode with flushes := s.flushes + 1 }) := by
  unfold writeText
  rw [writeAll_eq hs, if_pos h, List.take_of_length_le h]
  simp only [flush, taking]
  cases s.flushError <;> rfl

theorem writeText_of_no_room (hs : 1 ≤ s.portion) (h : s.room < t.encode.length) :
    s.writeText t = (.error (.unwritable s.complaint), s.taking (t.encode.take s.room)) := by
  unfold writeText
  rw [writeAll_eq hs, if_neg (by omega)]

theorem reports_of_room (hs : 1 ≤ s.portion) (h : t.encode.length ≤ s.room) :
    s.Reports t.encode (s.writeText t).1 (s.writeText t).2 := by
  have hall : (s.taking t.encode).written = s.written ++ t.encode := rfl
  rw [writeText_of_room hs h]
  exact {
    written := by rw [Nat.min_eq_right h, List.take_length, hall]
    flushes := by rw [if_pos hall]
    ok_iff := by
      cases s.flushError with
      | none => exact ⟨fun _ => ⟨hall, rfl⟩, fun _ => rfl⟩
      | some e => exact ⟨nofun, fun hnone => nomatch hnone.2⟩
    flush_failed := fun _ e he => by rw [he]; rfl
    refused := fun hnot => absurd hall hnot
    stalled := fun hnot => absurd hall hnot }

theorem reports_of_no_room (hs : 1 ≤ s.portion) (h : s.room < t.encode.length) :
    s.Reports t.encode (s.writeText t).1 (s.writeText t).2 := by
  have hcut : (s.taking (t.encode.take s.room)).written ≠ s.written ++ t.encode := by
    intro heq
    have hlength := congrArg List.length (List.append_cancel_left heq)
    rw [List.length_take] at hlength
    omega
  rw [writeText_of_no_room hs h]
  exact {
    written := by rw [Nat.min_eq_left (Nat.le_of_lt h)]; rfl
    flushes := by rw [if_neg hcut]; rfl
    ok_iff := ⟨nofun, fun hall => absurd hall.1 hcut⟩
    flush_failed := fun hall => absurd hall hcut
    refused := fun _ e he => by rw [complaint, he]; rfl
    stalled := fun _ he => ⟨.writeZero, by rw [complaint, he]; rfl, rfl⟩ }

end Texts

/-- Writing a document leaves as much of it in the sink as there is room for, and the result says
whether that is all of it. -/
theorem reports_emit (s : Sink) (hs : 1 ≤ s.portion) (o : FileOptions) (m : Module) (d : Document) :
    s.Reports (o.document m d).encode (s.emit o m d).1 (s.emit o m d).2 := by
  rcases Nat.lt_or_ge s.room (o.document m d).encode.length with hlt | hge
  · exact reports_of_no_room hs hlt
  · exact reports_of_room hs hge

/-- A module whose name is one character of two bytes. -/
def microModule : Module where
  name := ['µ']
  parameters := []
  ports := .ofList []
  name_trimmed := by decide

/-- Room for the bytes up to the middle of the name. -/
def smallSink : Sink := { portion := 3, capacity := 8 }

/-- Room for the whole declaration, but flushing fails. -/
def stuckSink : Sink :=
  { portion := 10, capacity := 25, flushError := some (.device "flush failed") }

theorem reports_emit_microModule :
    let o : FileOptions := { indent := .ofColumns 4 24 }
    (1 ≤ smallSink.portion ∧
      (smallSink.emit o microModule .declaration).2.written = Text.encode "module ".toList ++ [0xC2] ∧
      (smallSink.emit o microModule .declaration).2.flushes = 0 ∧
      ∃ e, (smallSink.emit o microModule .declaration).1 = .error (.unwritable e) ∧
        e.message = "failed to write whole buffer") ∧
    (1 ≤ stuckSink.portion ∧
      (stuckSink.emit o microModule .declaration).2.written
        = Text.encode "module µ ();\n\nendmodule\n".toList ∧
      (stuckSink.emit o microModule .declaration).2.flushes = 1 ∧
      (stuckSink.emit o microModule .declaration).1
        = .error (.unwritable (.device "flush failed"))) := by
  intro o
  have hcut := smallSink.reports_emit (by decide) o microModule .declaration
  have hfull := stuckSink.reports_emit (by decide) o microModule .declaration
  have hbeginning : (smallSink.emit o microModule .declaration).2.written
      = Text.encode "module ".toList ++ [0xC2] := hcut.written.trans (by decide +kernel)
  have hall : (stuckSink.emit o microModule .declaration).2.written
      = stuckSink.written ++ (o.document microModule .declaration).encode :=
    hfull.written.trans (by decide +kernel)
  have hnot : (smallSink.emit o microModule .declaration).2.written
      ≠ smallSink.written ++ (o.document microModule .declaration).encode := by
    rw [hbeginning]
    decide +kernel
  refine ⟨⟨by decide, hbeginning, ?_, hcut.stalled hnot rfl⟩,
    ⟨by decide, hall.trans (by decide +kernel), ?_, hfull.flush_failed hall _ rfl⟩⟩
  · rw [hcut.flushes, if_neg hnot]
    rfl
  · rw [hfull.flushes, if_pos hall]
    rfl

end Sink

end HdlScaffold
