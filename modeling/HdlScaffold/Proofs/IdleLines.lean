import HdlScaffold.Proofs.Locality
import HdlScaffold.Proofs.SideBySide
import Mathlib.Data.List.Forall2

/-!
# Idle lines at the end of a source

An idle line names no module, gives no timescale and has neither tokens nor delimiters. Behind the lines
of a source such lines change no answer: a search that stops anywhere stops in front of them, and one
that does not goes on over them to the end. Only the number of lines is another, which an error about an
open block tells (`Module.ofSource?_of_longerBy`).
-/

namespace HdlScaffold

/-- The line says nothing. -/
structure Text.Idle (l : Text) : Prop where
  headerName? : headerName? l = none
  timescale? : timescale? l = none
  lineTokens : lineTokens l = []
  ofLine? : Delimiters.ofLine? l = none

/-- The lines of `t` are like those of `u`, and `n` idle ones follow them. -/
def Text.LongerBy (n : Nat) (t u : Text) : Prop :=
  ∃ front idle, t.lines = front ++ idle ∧ List.Forall₂ Text.Alike front u.lines ∧
    (∀ l ∈ idle, l.Idle) ∧ idle.length = n

theorem mapError_linesLater_zero {α : Type} (x : Except Error α) :
    x.mapError (Error.linesLater 0) = x := by
  rcases x with (_ | _) | a <;> simp [Except.mapError, Error.linesLater]

variable {t u : Text} {n : Nat}

theorem Text.LongerBy.length_lines (h : t.LongerBy n u) : t.lines.length = n + u.lines.length := by
  obtain ⟨front, idle, ht, halike, -, rfl⟩ := h
  rw [ht, List.length_append, halike.length_eq, Nat.add_comm]

namespace Header

namespace Reading

variable {α β σ : Type} {r r' : LineReader}

/-- The step cannot tell like lines apart, and goes on over an idle line. -/
structure Blind (step : σ → Text → Except Error (σ ⊕ β)) : Prop where
  alike : ∀ s l k, l.Alike k → step s l = step s k
  idle : ∀ s l, l.Idle → ∃ s', step s l = .ok (.inl s')

variable {step : σ → Text → Except Error (σ ⊕ β)}

theorem Blind.through (h : Blind step) : ∀ {ls : List Text}, (∀ l ∈ ls, l.Idle) → ∀ s,
    ∃ s', Through step s ls s'
  | [], _, s => ⟨s, rfl⟩
  | l :: ls, hls, s => by
    obtain ⟨s₁, hs₁⟩ := h.idle s l (hls l (by simp))
    obtain ⟨s', hs'⟩ := h.through (fun k hk => hls k (List.mem_cons_of_mem _ hk)) s₁
    exact ⟨s', s₁, hs₁, hs'⟩

/-- Abreast readers come to the same stop, or both to the end of their texts. -/
theorem until?_of_longerBy (h : t.LongerBy n u) (hstep : Blind step) (s : σ)
    (hr : r.Abreast t u r') :
    ((until? step s r).answer = .ok none ∧ (until? step s r').answer = .ok none ∧
      (until? step s r).reader.lineNumber = t.lines.length ∧
      (until? step s r').reader.lineNumber = u.lines.length) ∨
    ((until? step s r).answer = (until? step s r').answer ∧ (until? step s r).answer ≠ .ok none ∧
      (until? step s r).reader.Abreast t u (until? step s r').reader) := by
  obtain ⟨front, idle, ht, halike, hidle, -⟩ := h
  obtain ⟨⟨i, b⟩, hr, hr'⟩ := hr
  -- by induction on the number of lines that lie ahead in the shorter text
  induction hn : u.lines.length - i using Nat.strongRecOn generalizing s r r' i b with
  | ind m ih =>
    have hi := hr'.passed_le
    rcases forall₂_getElem? halike i with ⟨-, hk⟩ | ⟨l, k, hl, hk, hlk⟩
    · have hcount : i = front.length := by
        rw [halike.length_eq]
        exact Nat.le_antisymm hi (List.getElem?_eq_none_iff.1 hk)
      have hbefore := hr.before
      rw [ht, hcount, List.drop_left] at hbefore
      obtain ⟨s', hs'⟩ := hstep.through hidle s
      obtain ⟨notes, hend⟩ := until?_of_end hbefore hs'
      obtain ⟨hnext', hend'⟩ := hr'.next_of_none hk
      rw [hend, until?_of_next_none hnext']
      refine Or.inl ⟨rfl, rfl, ?_, ?_⟩
      · simp only [LineReader.pass, hr.lineNumber_eq, ht, List.length_append, hcount]
      · rw [hend'.lineNumber_eq, hcount, halike.length_eq]
    · have hfront := (List.getElem?_eq_some_iff.1 hl).1
      have hlt : t.lines[i]? = some l := by rw [ht, List.getElem?_append_left hfront, hl]
      have hilt := (List.getElem?_eq_some_iff.1 hk).1
      obtain ⟨hnext, hpast⟩ := hr.next_of_some hlt
      obtain ⟨hnext', hpast'⟩ := hr'.next_of_some hk
      rw [until?_of_next_some hnext, until?_of_next_some hnext', hstep.alike s l k hlk]
      rcases step s k with e | s' | found
      · exact Or.inr ⟨rfl, by simp, _, hpast, hpast'⟩
      · exact ih _ (by omega) s' _ _ hpast hpast' rfl
      · refine Or.inr ⟨?_, by simp, _, hpast.stepBack, hpast'.stepBack⟩
        simp only [hpast.lineNumber_eq, hpast'.lineNumber_eq]

/-- Abreast readers both run out of lines in the same block, or get the same answer and stay
abreast. -/
def Trails (t u : Text) (x : Reading α) : Prop :=
  ∀ r s, r.Abreast t u s →
    (∃ block, (x r).answer = .error (.unclosed block t.lines.length) ∧
      (x s).answer = .error (.unclosed block u.lines.length)) ∨
    ((x r).answer = (x s).answer ∧ (x r).reader.Abreast t u (x s).reader)

theorem Agrees.trails {x : Reading α} (h : x.Agrees t u) : x.Trails t u :=
  fun r s hrs => Or.inr (h r s hrs)

theorem Trails.bind {x : Reading α} {f : α → Reading β} (hx : x.Trails t u)
    (hf : ∀ a, (f a).Trails t u) : (x >>= f).Trails t u := by
  intro r s h
  rcases hx r s h with ⟨block, hr, hs⟩ | ⟨hanswer, habreast⟩
  · rw [bind_of_error hr, bind_of_error hs]
    exact Or.inl ⟨block, rfl, rfl⟩
  · rcases ha : (x r).answer with e | a <;> rw [ha] at hanswer
    · rw [bind_of_error ha, bind_of_error hanswer.symm]
      exact Or.inr ⟨rfl, habreast⟩
    · rw [bind_of_ok ha, bind_of_ok hanswer.symm]
      exact hf a _ _ habreast

/-- A search that finds nothing reports its block where the text ends. -/
theorem until?_bind_trails (h : t.LongerBy n u) (hstep : Blind step) {s : σ} {block : Block}
    {f : Option (β × Nat) → Reading α} (hnone : f none = unclosed block)
    (hsome : ∀ b, (f (some b)).Trails t u) : (until? step s >>= f).Trails t u := by
  intro r r' habreast
  rcases until?_of_longerBy h hstep s habreast with ⟨ha, ha', hline, hline'⟩ | ⟨heq, hne, hrest⟩
  · rw [bind_of_ok ha, bind_of_ok ha', hnone]
    refine Or.inl ⟨block, ?_, ?_⟩
    · rw [← hline]
      rfl
    · rw [← hline']
      rfl
  · rcases ha : (until? step s r).answer with e | _ | b <;> rw [ha] at heq
    · rw [bind_of_error ha, bind_of_error heq.symm]
      exact Or.inr ⟨rfl, hrest⟩
    · exact absurd ha hne
    · rw [bind_of_ok ha, bind_of_ok heq.symm]
      exact hsome b _ _ hrest

theorem blind_find? {pick : Text → Option β} (halike : ∀ l k, l.Alike k → pick l = pick k)
    (hidle : ∀ l, l.Idle → pick l = none) :
    Blind fun (_ : Unit) line => .ok ((pick line).elim (.inl ()) .inr) where
  alike _ l k h := by rw [halike l k h]
  idle _ l h := ⟨(), by rw [hidle l h]; rfl⟩

end Reading

open Reading

theorem trails_seek {α σ : Type} (h : t.LongerBy n u) {opens? : Text → Option Bool}
    (hopens : ∀ l k, l.Alike k → opens? l = opens? k) (hidle : ∀ l, l.Idle → opens? l = none)
    {gather : σ → Text → Except Error (σ ⊕ List α)} (hgather : Blind gather) {block : Block}
    {start : σ} {absent ends : Nat → Note} :
    (seek block opens? gather start absent ends).Trails t u := by
  refine until?_bind_trails h (blind_find? hopens hidle) rfl fun found => ?_
  rcases found with ⟨_ | _, line⟩
  · exact ((agrees_note _).bind fun _ => agrees_pure _).trails
  · refine until?_bind_trails h hgather rfl fun gathered => ?_
    exact ((agrees_note _).bind fun _ => agrees_pure _).trails

theorem parameterBlock_trails (h : t.LongerBy n u) : parameterBlock.Trails t u := by
  rw [parameterBlock_eq_seek]
  refine trails_seek h (fun l k hlk => ?_) (fun l hl => ?_)
    ⟨fun s l k hlk => ?_, fun s l hl => ⟨s, ?_⟩⟩
  · rw [parametersOpen?, hlk.ofLine?, parametersOpen?]
  · rw [parametersOpen?, hl.ofLine?]
    rfl
  · rw [gatherParameters, hlk.lineTokens, parametersEnd, hlk.ofLine?, gatherParameters, parametersEnd]
  · have hfeed : s.1.feed (lineTokens l) = .ok (s.1, []) := by
      rw [hl.lineTokens, parameterFeed_nil]
    rw [gatherParameters_eq hfeed, parametersEnd, hl.ofLine?, List.append_nil]
    rfl

theorem portBlock_trails (h : t.LongerBy n u) : portBlock.Trails t u := by
  rw [portBlock_eq_seek]
  refine trails_seek h (fun l k hlk => ?_) (fun l hl => ?_)
    ⟨fun s l k hlk => ?_, fun s l hl => ⟨(false, s.2), ?_⟩⟩
  · rw [portsOpen?, hlk.ofLine?, portsOpen?]
  · rw [portsOpen?, hl.ofLine?]
    rfl
  · rw [gatherPorts, hlk.lineTokens, portsEnd, hlk.ofLine?, gatherPorts, portsEnd]
  · have hfeed : s.2.1.feed (lineTokens l) = .ok (s.2.1, []) := by rw [hl.lineTokens]; rfl
    rw [gatherPorts_eq hfeed, portsEnd, hl.ofLine?, List.append_nil]
    rfl

theorem answer_restart (r : LineReader) : (restart r).answer = .ok () := rfl

/-- What a search for a header or a timescale comes to on the two texts. -/
theorem find?_of_longerBy {β : Type} (h : t.LongerBy n u) {pick : Text → Option β}
    (halike : ∀ l k, l.Alike k → pick l = pick k) (hidle : ∀ l, l.Idle → pick l = none)
    {r r' : LineReader} (hr : r.Abreast t u r') :
    (find? pick r).answer = (find? pick r').answer ∧
      ∀ b, (find? pick r).answer = .ok (some b) →
        (find? pick r).reader.Abreast t u (find? pick r').reader := by
  rcases until?_of_longerBy h (blind_find? halike hidle) () hr with ⟨ha, ha', -⟩ | ⟨heq, -, hrest⟩
  · exact ⟨ha.trans ha'.symm, fun b hb => absurd (ha.symm.trans hb) (by simp)⟩
  · exact ⟨heq, fun _ _ => hrest⟩

/-- Both texts run out of lines in the same block, or the answers are the same. -/
theorem firstModule?_of_longerBy (h : t.LongerBy n u) {r r' : LineReader} (hr : r.Abreast t u r') :
    (∃ block, (firstModule? r).answer = .error (.unclosed block t.lines.length) ∧
      (firstModule? r').answer = .error (.unclosed block u.lines.length)) ∨
    (firstModule? r).answer = (firstModule? r').answer := by
  obtain ⟨-, hstart⟩ := agrees_restart r r' hr
  obtain ⟨heq, habreast⟩ := find?_of_longerBy h (fun _ _ hlk => hlk.headerName?)
    (fun _ hl => hl.headerName?) hstart
  rw [firstModule?, bind_of_ok (answer_restart r), bind_of_ok (answer_restart r')]
  rcases ha : (find? headerName? (restart r).reader).answer with e | _ | ⟨name, line⟩ <;>
    rw [ha] at heq
  · rw [bind_of_error ha, bind_of_error heq.symm]
    exact Or.inr rfl
  · rw [bind_of_ok ha, bind_of_ok heq.symm]
    exact Or.inr rfl
  · have hblocks : Trails t u (do
        note (.headerFound name line)
        let ps ← parameterBlock
        let qs ← portBlock
        note (.moduleRead name ps.length qs.length)
        let m ← ofExcept (Module.create name ps qs)
        return some m) :=
      (agrees_note _).trails.bind fun _ => (parameterBlock_trails h).bind fun ps =>
        (portBlock_trails h).bind fun qs => (agrees_note _).trails.bind fun _ =>
          (agrees_ofExcept _).trails.bind fun m => (agrees_pure _).trails
    rw [bind_of_ok ha, bind_of_ok heq.symm]
    exact (hblocks _ _ (habreast _ ha)).imp_right And.left

theorem firstTimescale?_of_longerBy (h : t.LongerBy n u) {r r' : LineReader}
    (hr : r.Abreast t u r') :
    (firstTimescale? r).answer = (firstTimescale? r').answer := by
  obtain ⟨-, hstart⟩ := agrees_restart r r' hr
  obtain ⟨heq, -⟩ := find?_of_longerBy h (fun _ _ hlk => hlk.timescale?)
    (fun _ hl => hl.timescale?) hstart
  rw [firstTimescale?, bind_of_ok (answer_restart r), bind_of_ok (answer_restart r')]
  rcases ha : (find? timescale? (restart r).reader).answer with e | found <;> rw [ha] at heq
  · rw [bind_of_error ha, bind_of_error heq.symm]
  · rw [bind_of_ok ha, bind_of_ok heq.symm]
    rfl

end Header

namespace Module

theorem line_eq_of_ofSource? {block : Block} {line : Nat}
    (h : ofSource? t.encode = .error (.unclosed block line)) : line = t.lines.length := by
  obtain ⟨v, -, hverdict⟩ := exists_verdict t.lines
  have hanswer := hverdict [] t.encode [] (by simp) t.beginsWith_lines (Or.inl (Or.inl rfl))
  rw [h] at hanswer
  cases v with
  | noHeader => simp [Verdict.answer] at hanswer
  | found m => simp [Verdict.answer] at hanswer
  | cutOff block' =>
    simp only [Verdict.answer, Block.cutOff, if_true, Except.error.injEq, Error.unclosed.injEq]
      at hanswer
    exact hanswer.2

/-- Idle lines behind a source only move the end that an open block runs into. -/
theorem ofSource?_of_longerBy (h : t.LongerBy n u) :
    ofSource? t.encode = (ofSource? u.encode).mapError (Error.linesLater n) := by
  have hcount := h.length_lines
  rcases Header.firstModule?_of_longerBy h (LineReader.abreast_ofBytes t u) with
    ⟨block, ht, hu⟩ | heq
  · rw [ofSource?, ofSource?, ht, hu, hcount]
    rfl
  · have hsame : ofSource? t.encode = ofSource? u.encode := heq
    rcases hu : ofSource? u.encode with e | found <;> rw [hu] at hsame
    · cases e with
      | unclosed block line =>
        -- the same line ends both texts, so no idle line follows
        have hn : n = 0 := by
          have h₁ := line_eq_of_ofSource? hsame
          have h₂ := line_eq_of_ofSource? hu
          omega
        rw [hsame, hn, mapError_linesLater_zero]
      | _ => exact hsame
    · exact hsame

end Module

end HdlScaffold
