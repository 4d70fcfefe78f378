import HdlScaffold.Proofs.Blocks
import HdlScaffold.Proofs.Places

/-!
# The numbers of a reader

A line that is no text moves the position on and leaves offset, line number and the length of the last
line as they were, so a reader may have a line to step back over that does not lie right behind it.
What stays true is that the last line lies within the offset, the offset behind the position and the
position within the source (`InBounds`). Every operation keeps this, whether it fails or not. So a step
back that subtracts only where a number is left, and moves only within the source, can always be made,
also inside the search for a block (`Agrees`), and it is the step back of the reader
(`Operation.run?_ofBytes`).
-/

namespace HdlScaffold

/-- The difference of two numbers, if there is one. -/
def difference? (a b : Nat) : Option Nat := if b ≤ a then some (a - b) else none

namespace LineReader

/-- The reader's numbers fit together and lie within the source. -/
structure InBounds (r : LineReader) (source : Bytes) : Prop where
  source_eq : r.source = source
  lastLength_le : r.lastLength ≤ r.offset
  offset_le : r.offset ≤ r.position
  position_le : r.position ≤ source.length
  lineNumber_pos : 0 < r.lastLength → 1 ≤ r.lineNumber

/-- The reader at another position, which has to lie within the source. -/
def moveTo? (r : LineReader) (position : Nat) : Option LineReader :=
  if position ≤ r.source.length then some { r with position } else none

/-- Steps back, where both differences exist and the line lies within the source. -/
def stepBack? (r : LineReader) : Option LineReader :=
  if r.lastLength = 0 then some r
  else do
    let offset ← difference? r.offset r.lastLength
    let moved ← r.moveTo? offset
    let lineNumber ← difference? r.lineNumber 1
    return { moved with offset, lastLength := 0, lineNumber }

/-- Shows the next line, where the step back can be made. -/
def peek? (r : LineReader) : Option (Except Error (Option Text) × LineReader) :=
  match r.next with
  | (.error e, r) => some (.error e, r)
  | (.ok line, r) => r.stepBack?.map (.ok line, ·)

/-- What reading on can do: there is no line left, or some bytes are passed, which are handed out as a
line unless they are no text. -/
theorem next_cases (r : LineReader) :
    r.next = (.ok none, { r with lastLength := 0 }) ∨
    ∃ n, 0 < n ∧ n ≤ r.source.length - r.position ∧
      (r.next = (.error (.unreadable .invalidUtf8), { r with position := r.position + n }) ∨
      ∃ line, r.next = (.ok (some line),
        { r with
          position := r.position + n
          offset := r.offset + n
          lastLength := n
          lineNumber := r.lineNumber + 1 })) := by
  have hle := (isPrefix_firstLine r.remaining).length_le
  rw [remaining, List.length_drop] at hle
  unfold next
  by_cases hnil : firstLine r.remaining = []
  · exact Or.inl (by simp only [hnil, if_true])
  · refine Or.inr ⟨_, List.length_pos_iff.2 hnil, hle, ?_⟩
    rcases hline : Text.decode? (firstLine r.remaining) with _ | line
    · exact Or.inl (by simp only [hnil, if_false, hline])
    · exact Or.inr ⟨line, by simp only [hnil, if_false, hline]⟩

variable {r s : LineReader} {source : Bytes} {answer : Except Error (Option Text)}

theorem inBounds_ofBytes (source : Bytes) : (ofBytes source).InBounds source :=
  ⟨rfl, Nat.le_refl _, Nat.le_refl _, Nat.zero_le _, fun h => absurd h (Nat.lt_irrefl _)⟩

theorem InBounds.next (h : r.InBounds source) (hs : r.next = (answer, s)) : s.InBounds source := by
  obtain ⟨rfl, hlast, hoffset, hposition, hnumber⟩ := h
  rcases r.next_cases with hnext | ⟨n, hn, hle, hnext | ⟨line, hnext⟩⟩ <;>
    obtain ⟨-, rfl⟩ := Prod.mk.inj (hnext.symm.trans hs)
  · exact ⟨rfl, Nat.zero_le _, hoffset, hposition, fun h => absurd h (Nat.lt_irrefl _)⟩
  · -- a line that is no text moves the position alone
    refine ⟨rfl, hlast, Nat.le_trans hoffset (Nat.le_add_right _ _), ?_, hnumber⟩
    show r.position + n ≤ _
    omega
  · refine ⟨rfl, Nat.le_add_left _ _, Nat.add_le_add_right hoffset n, ?_, fun _ =>
      Nat.le_add_left _ _⟩
    show r.position + n ≤ _
    omega

theorem InBounds.stepBack (h : r.InBounds source) : r.stepBack.InBounds source := by
  obtain ⟨rfl, hlast, hoffset, hposition, hnumber⟩ := h
  unfold LineReader.stepBack
  split_ifs with hzero
  · exact ⟨rfl, hlast, hoffset, hposition, hnumber⟩
  · refine ⟨rfl, Nat.zero_le _, Nat.le_refl _, ?_, fun h => absurd h (Nat.lt_irrefl _)⟩
    show r.offset - r.lastLength ≤ _
    omega

theorem InBounds.stepBack?_eq (h : r.InBounds source) : r.stepBack? = some r.stepBack := by
  obtain ⟨rfl, hlast, hoffset, hposition, hnumber⟩ := h
  unfold stepBack? LineReader.stepBack
  split_ifs with hzero
  · rfl
  · -- the offset may lie far behind the position, but not outside the source
    have hplace : r.offset - r.lastLength ≤ r.source.length := by omega
    have hline : 1 ≤ r.lineNumber := hnumber (Nat.pos_of_ne_zero hzero)
    simp only [difference?, moveTo?, hlast, hplace, hline, if_true, Option.bind_eq_bind,
      Option.bind_some, Option.pure_def]

theorem InBounds.peek?_eq (h : r.InBounds source) : r.peek? = some r.peek := by
  unfold peek? peek
  rcases hnext : r.next with ⟨e | line, s⟩
  · rfl
  · simp only [(h.next hnext).stepBack?_eq, Option.map_some]

theorem InBounds.peek (h : r.InBounds source) : r.peek.2.InBounds source := by
  unfold LineReader.peek
  rcases hnext : r.next with ⟨e | line, s⟩
  · exact h.next hnext
  · exact (h.next hnext).stepBack

end LineReader

namespace Header

/-- A piece of reading that has no outcome where it cannot step back. -/
def Checked (α : Type) := LineReader → Option (Outcome α)

namespace Checked

variable {α β σ : Type}

/-- A piece of reading that does not step back. -/
def ofReading (x : Reading α) : Checked α := fun r => some (x r)

/-- One piece of reading after another, as `Reading.andThen`. -/
def andThen (c : Checked α) (f : α → Checked β) : Checked β := fun r =>
  (c r).bind fun first =>
    match first.answer with
    | .error e => some ⟨.error e, first.reader, first.notes⟩
    | .ok a => (f a first.reader).map fun second =>
        { second with notes := first.notes ++ second.notes }

/-- Reads lines until `step` answers on one, as `Reading.until?`. -/
def until? (step : σ → Text → Except Error (σ ⊕ β)) (s : σ) : Checked (Option (β × Nat)) := fun r =>
  match _h : r.next with
  | (.error e, r') => some ⟨.error e, r', []⟩
  | (.ok none, r') => some ⟨.ok none, r', []⟩
  | (.ok (some line), r') =>
    match step s line with
    | .error e => some ⟨.error e, r', []⟩
    | .ok (.inl s') => until? step s' r'
    | .ok (.inr b) => r'.stepBack?.map (⟨.ok (some (b, r'.lineNumber)), ·, []⟩)
termination_by r => r.remaining.length
decreasing_by exact LineReader.remaining_lt_of_next _h

def find? (pick : Text → Option β) : Checked (Option (β × Nat)) :=
  until? (fun _ line => .ok ((pick line).elim (.inl ()) .inr)) ()

/-- The search for a block, as `Header.seek`. -/
def seek (block : Block) (opens? : Text → Option Bool)
    (gather : σ → Text → Except Error (σ ⊕ List α)) (start : σ) (absent ends : Nat → Note) :
    Checked (List α) :=
  (find? opens?).andThen fun
    | none => ofReading (Reading.unclosed block)
    | some (false, line) => ofReading do
      Reading.note (absent line)
      return []
    | some (true, _) => (until? gather start).andThen fun
      | none => ofReading (Reading.unclosed block)
      | some (declared, line) => ofReading do
        Reading.note (ends line)
        return declared

def parameterBlock : Checked (List Parameter) :=
  seek .parameter parametersOpen? gatherParameters ({}, []) .noParameterBlock .parameterBlockEnds

def portBlock : Checked (List Port) :=
  seek .port portsOpen? gatherPorts (true, {}, []) .noPortList .portBlockEnds

/-- Where the reader is in bounds, the checked reading has the outcome of the other one, and leaves the
reader in bounds. -/
def Agrees (c : Checked α) (x : Reading α) : Prop :=
  ∀ ⦃r : LineReader⦄ ⦃source : Bytes⦄, r.InBounds source →
    c r = some (x r) ∧ (x r).reader.InBounds source

theorem agrees_ofReading {x : Reading α} (h : ∀ r, (x r).reader = r) : (ofReading x).Agrees x :=
  fun r _ hr => ⟨rfl, (h r).symm ▸ hr⟩

theorem Agrees.andThen {c : Checked α} {x : Reading α} {f : α → Checked β} {g : α → Reading β}
    (hc : c.Agrees x) (hf : ∀ a, (f a).Agrees (g a)) : (c.andThen f).Agrees (x >>= g) := by
  intro r source hr
  obtain ⟨hfirst, hs⟩ := hc hr
  unfold Checked.andThen
  rcases ha : (x r).answer with e | a
  · rw [Reading.bind_of_error ha]
    simp only [hfirst, Option.bind_some, ha]
    exact ⟨trivial, hs⟩
  · obtain ⟨hsecond, ht⟩ := hf a hs
    rw [Reading.bind_of_ok ha]
    simp only [hfirst, Option.bind_some, ha, hsecond, Option.map_some]
    exact ⟨trivial, ht⟩

/-- A search steps back from the line it answers on, and reads on from every other one. -/
theorem agrees_until? (step : σ → Text → Except Error (σ ⊕ β)) (s : σ) :
    (until? step s).Agrees (Reading.until? step s) := by
  intro r source hr
  -- both searches take the same lines, so the cases of one are those of the other
  fun_induction until? step s r with
  | case1 s r e r' h =>
    rw [Reading.until?_of_next_error h]
    exact ⟨rfl, hr.next h⟩
  | case2 s r r' h =>
    rw [Reading.until?_of_next_none h]
    exact ⟨rfl, hr.next h⟩
  | case3 s r line r' h e hstep =>
    rw [Reading.until?_of_next_some h, hstep]
    exact ⟨rfl, hr.next h⟩
  | case4 s r line r' h s' hstep ih =>
    rw [Reading.until?_of_next_some h, hstep]
    exact ih (hr.next h)
  | case5 s r line r' h b hstep =>
    have hs : r'.InBounds source := hr.next h
    rw [Reading.until?_of_next_some h, hstep, hs.stepBack?_eq]
    exact ⟨rfl, hs.stepBack⟩

theorem agrees_find? (pick : Text → Option β) : (find? pick).Agrees (Reading.find? pick) :=
  agrees_until? _ _

theorem agrees_seek (block : Block) (opens? : Text → Option Bool)
    (gather : σ → Text → Except Error (σ ⊕ List α)) (start : σ) (absent ends : Nat → Note) :
    (seek block opens? gather start absent ends).Agrees
      (Header.seek block opens? gather start absent ends) := by
  refine (agrees_find? opens?).andThen fun found => ?_
  rcases found with _ | ⟨_ | _, line⟩
  · exact agrees_ofReading fun _ => rfl
  · exact agrees_ofReading fun _ => rfl
  · refine (agrees_until? gather start).andThen fun gathered => ?_
    rcases gathered with _ | ⟨declared, line⟩
    · exact agrees_ofReading fun _ => rfl
    · exact agrees_ofReading fun _ => rfl

theorem agrees_parameterBlock : parameterBlock.Agrees Header.parameterBlock := by
  rw [parameterBlock_eq_seek]
  exact agrees_seek _ _ _ _ _ _

theorem agrees_portBlock : portBlock.Agrees Header.portBlock := by
  rw [portBlock_eq_seek]
  exact agrees_seek _ _ _ _ _ _

end Checked

/-- What a reader of headers can be asked to do. -/
inductive Operation where
  | onLines (o : LineReader.Operation)
  | parameterBlock
  | portBlock
  deriving DecidableEq, Repr

namespace Operation

/-- The reader after an operation, whether that answers or fails. -/
def perform (r : LineReader) : Operation → LineReader
  | onLines o => (r.perform o).2
  | parameterBlock => (Header.parameterBlock r).reader
  | portBlock => (Header.portBlock r).reader

/-- The reader after an operation, if every step back in it can be made. -/
def perform? (r : LineReader) : Operation → Option LineReader
  | onLines .next => some r.next.2
  | onLines .peek => r.peek?.map Prod.snd
  | onLines .stepBack => r.stepBack?
  | onLines .restart => some r.restart
  | parameterBlock => (Checked.parameterBlock r).map Outcome.reader
  | portBlock => (Checked.portBlock r).map Outcome.reader

/-- The reader after operations one after another, each starting where the last one left it. -/
def run (r : LineReader) (os : List Operation) : LineReader := os.foldl perform r

def run? (r : LineReader) (os : List Operation) : Option LineReader := os.foldlM perform? r

variable {r : LineReader} {source : Bytes}

theorem perform?_of_inBounds (h : r.InBounds source) (o : Operation) :
    perform? r o = some (perform r o) ∧ (perform r o).InBounds source := by
  cases o with
  | onLines o =>
    cases o with
    | next => exact ⟨rfl, h.next rfl⟩
    | peek => exact ⟨by rw [perform?, h.peek?_eq]; rfl, h.peek⟩
    | stepBack => exact ⟨h.stepBack?_eq, h.stepBack⟩
    | restart => exact ⟨rfl, h.source_eq ▸ LineReader.inBounds_ofBytes _⟩
  | parameterBlock =>
    obtain ⟨hchecked, hs⟩ := Checked.agrees_parameterBlock h
    exact ⟨by rw [perform?, hchecked]; rfl, hs⟩
  | portBlock =>
    obtain ⟨hchecked, hs⟩ := Checked.agrees_portBlock h
    exact ⟨by rw [perform?, hchecked]; rfl, hs⟩

theorem run?_of_inBounds (h : r.InBounds source) (os : List Operation) :
    run? r os = some (run r os) ∧ (run r os).InBounds source := by
  induction os generalizing r with
  | nil => exact ⟨rfl, h⟩
  | cons o os ih =>
    obtain ⟨hperform, hs⟩ := perform?_of_inBounds h o
    obtain ⟨hrun, ht⟩ := ih hs
    refine ⟨?_, ht⟩
    rw [run?, List.foldlM_cons, hperform]
    exact hrun

/-- After any operations on any bytes, failed ones among them, no step back was impossible, and the
reader's numbers fit together and lie within the source. -/
theorem run?_ofBytes (source : Bytes) (os : List Operation) :
    let r := run (.ofBytes source) os
    run? (.ofBytes source) os = some r ∧ r.source = source ∧
      r.lastLength ≤ r.offset ∧ r.offset ≤ r.position ∧ r.position ≤ source.length ∧
      (0 < r.lastLength → 1 ≤ r.lineNumber) := by
  obtain ⟨hrun, h⟩ := run?_of_inBounds (LineReader.inBounds_ofBytes source) os
  exact ⟨hrun, h.source_eq, h.lastLength_le, h.offset_le, h.position_le, h.lineNumber_pos⟩

/-- A header, with a line that is no text between its name and its ports. -/
def strayBytes : Bytes :=
  Text.encode "module m\n".toList ++ [255, 10] ++ Text.encode "(input a);\n".toList

/-- The search for the ports fails on the second line, and the line to step back over is still the
first. -/
theorem run?_ofBytes_strayBytes :
    let r := run (.ofBytes strayBytes) [.onLines .next, .portBlock]
    0 < r.lastLength ∧ 1 ≤ r.lineNumber ∧ r.lastLength ≤ r.offset ∧ r.offset < r.position ∧
      run? (.ofBytes strayBytes) [.onLines .next, .portBlock, .onLines .stepBack]
        = some (run (.ofBytes strayBytes) [.onLines .next, .portBlock, .onLines .stepBack]) := by
  intro r
  have hlast : 0 < r.lastLength := by decide +kernel
  obtain ⟨-, -, hle, -, -, hnumber⟩ := run?_ofBytes strayBytes [.onLines .next, .portBlock]
  refine ⟨hlast, hnumber hlast, hle, by decide +kernel, ?_⟩
  exact (run?_ofBytes strayBytes [.onLines .next, .portBlock, .onLines .stepBack]).1

end Operation

end Header

end HdlScaffold
