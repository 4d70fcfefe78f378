import HdlScaffold.Proofs.Blocks
import HdlScaffold.Proofs.Places

/-!
# Two sources side by side

Lines are alike when they name the same module, give the same timescale and have the same tokens and
delimiters. Two texts with as many lines, each like its partner, are read in step: the readers always
stand at the same place (`Abreast`), so they stop on the same lines, and every piece of reading answers
the same on both, down to the line that an error names (`firstModule?_agrees`, `firstTimescale?_agrees`).
-/

namespace HdlScaffold

/-- The lines say the same. -/
structure Text.Alike (l k : Text) : Prop where
  headerName? : headerName? l = headerName? k
  timescale? : timescale? l = timescale? k
  lineTokens : lineTokens l = lineTokens k
  ofLine? : Delimiters.ofLine? l = Delimiters.ofLine? k

/-- The readers stand at the same place, each in its own text. -/
def LineReader.Abreast (t u : Text) (r s : LineReader) : Prop :=
  ∃ p, r.StandsAt t p ∧ s.StandsAt u p

theorem forall₂_getElem? {R : Text → Text → Prop} {ls ks : List Text} (h : List.Forall₂ R ls ks) :
    ∀ i : Nat, (ls[i]? = none ∧ ks[i]? = none) ∨
      ∃ l k, ls[i]? = some l ∧ ks[i]? = some k ∧ R l k := by
  induction h with
  | nil => exact fun i => Or.inl ⟨rfl, rfl⟩
  | cons hR _ ih =>
    intro i
    cases i with
    | zero => exact Or.inr ⟨_, _, rfl, rfl, hR⟩
    | succ i => exact ih i

namespace Header

namespace Reading

variable {α β σ : Type} {t u : Text}

/-- Abreast readers get the same answer and stay abreast. -/
def Agrees (t u : Text) (x : Reading α) : Prop :=
  ∀ r s, r.Abreast t u s → (x r).answer = (x s).answer ∧ (x r).reader.Abreast t u (x s).reader

theorem Agrees.bind {x : Reading α} {f : α → Reading β} (hx : x.Agrees t u)
    (hf : ∀ a, (f a).Agrees t u) : (x >>= f).Agrees t u := by
  intro r s h
  obtain ⟨hanswer, habreast⟩ := hx r s h
  rcases ha : (x r).answer with e | a <;> rw [ha] at hanswer
  · rw [bind_of_error ha, bind_of_error hanswer.symm]
    exact ⟨rfl, habreast⟩
  · rw [bind_of_ok ha, bind_of_ok hanswer.symm]
    exact hf a _ _ habreast

theorem agrees_ofExcept (x : Except Error α) : (ofExcept x).Agrees t u := fun _ _ h => ⟨rfl, h⟩

theorem agrees_pure (a : α) : (pure a : Reading α).Agrees t u := agrees_ofExcept _

theorem agrees_note (n : Note) : (note n).Agrees t u := fun _ _ h => ⟨rfl, h⟩

theorem agrees_restart : restart.Agrees t u := by
  rintro r s ⟨p, hr, hs⟩
  exact ⟨rfl, {}, (hr.perform .restart).2, (hs.perform .restart).2⟩

theorem agrees_unclosed (block : Block) : (unclosed block : Reading α).Agrees t u := by
  rintro r s ⟨p, hr, hs⟩
  refine ⟨?_, p, hr, hs⟩
  simp only [unclosed, hr.lineNumber_eq, hs.lineNumber_eq]

/-- Searches whose steps cannot tell like lines apart stop on the same line. -/
theorem agrees_until? (hlines : List.Forall₂ Text.Alike t.lines u.lines)
    {step : σ → Text → Except Error (σ ⊕ β)} (hstep : ∀ s l k, l.Alike k → step s l = step s k)
    (s : σ) : (until? step s).Agrees t u := by
  rintro r r' ⟨⟨i, b⟩, hr, hr'⟩
  -- by induction on the number of lines that lie ahead
  induction hn : t.lines.length - i using Nat.strongRecOn generalizing s r r' i b with
  | ind n ih =>
    rcases forall₂_getElem? hlines i with ⟨hl, hk⟩ | ⟨l, k, hl, hk, halike⟩
    · obtain ⟨hnext, hend⟩ := hr.next_of_none hl
      obtain ⟨hnext', hend'⟩ := hr'.next_of_none hk
      rw [until?_of_next_none hnext, until?_of_next_none hnext']
      exact ⟨rfl, _, hend, hend'⟩
    · obtain ⟨hnext, hpast⟩ := hr.next_of_some hl
      obtain ⟨hnext', hpast'⟩ := hr'.next_of_some hk
      have hi := (List.getElem?_eq_some_iff.1 hl).1
      rw [until?_of_next_some hnext, until?_of_next_some hnext', hstep s l k halike]
      rcases step s k with e | s' | found
      · exact ⟨rfl, _, hpast, hpast'⟩
      · exact ih _ (by omega) s' _ _ _ _ hpast hpast' rfl
      · refine ⟨?_, _, hpast.stepBack, hpast'.stepBack⟩
        simp only [hpast.lineNumber_eq, hpast'.lineNumber_eq]

theorem agrees_find? (hlines : List.Forall₂ Text.Alike t.lines u.lines) {pick : Text → Option β}
    (hpick : ∀ l k, l.Alike k → pick l = pick k) : (find? pick).Agrees t u :=
  agrees_until? hlines (fun _ l k h => by rw [hpick l k h]) ()

end Reading

open Reading

variable {t u : Text}

theorem agrees_seek {α σ : Type} (hlines : List.Forall₂ Text.Alike t.lines u.lines)
    {opens? : Text → Option Bool} (hopens : ∀ l k, l.Alike k → opens? l = opens? k)
    {gather : σ → Text → Except Error (σ ⊕ List α)}
    (hgather : ∀ s l k, l.Alike k → gather s l = gather s k) {block : Block} {start : σ}
    {absent ends : Nat → Note} : (seek block opens? gather start absent ends).Agrees t u := by
  refine (agrees_find? hlines hopens).bind fun found => ?_
  rcases found with _ | ⟨_ | _, line⟩
  · exact agrees_unclosed _
  · exact (agrees_note _).bind fun _ => agrees_pure _
  · refine (agrees_until? hlines hgather _).bind fun gathered => ?_
    rcases gathered with _ | ⟨declared, line⟩
    · exact agrees_unclosed _
    · exact (agrees_note _).bind fun _ => agrees_pure _

theorem parameterBlock_agrees (h : List.Forall₂ Text.Alike t.lines u.lines) :
    parameterBlock.Agrees t u := by
  rw [parameterBlock_eq_seek]
  refine agrees_seek h (fun l k hlk => ?_) (fun s l k hlk => ?_)
  · rw [parametersOpen?, hlk.ofLine?, parametersOpen?]
  · rw [gatherParameters, hlk.lineTokens, parametersEnd, hlk.ofLine?, gatherParameters, parametersEnd]

theorem portBlock_agrees (h : List.Forall₂ Text.Alike t.lines u.lines) :
    portBlock.Agrees t u := by
  rw [portBlock_eq_seek]
  refine agrees_seek h (fun l k hlk => ?_) (fun s l k hlk => ?_)
  · rw [portsOpen?, hlk.ofLine?, portsOpen?]
  · rw [gatherPorts, hlk.lineTokens, portsEnd, hlk.ofLine?, gatherPorts, portsEnd]

theorem firstModule?_agrees (h : List.Forall₂ Text.Alike t.lines u.lines) :
    firstModule?.Agrees t u := by
  refine agrees_restart.bind fun _ => (agrees_find? h fun _ _ hlk => hlk.headerName?).bind
    fun found => ?_
  rcases found with _ | ⟨name, line⟩
  · exact (agrees_note _).bind fun _ => agrees_pure _
  · exact (agrees_note _).bind fun _ => (parameterBlock_agrees h).bind fun ps =>
      (portBlock_agrees h).bind fun qs => (agrees_note _).bind fun _ =>
        (agrees_ofExcept _).bind fun m => agrees_pure _

theorem firstTimescale?_agrees (h : List.Forall₂ Text.Alike t.lines u.lines) :
    firstTimescale?.Agrees t u :=
  agrees_restart.bind fun _ => (agrees_find? h fun _ _ hlk => hlk.timescale?).bind
    fun _ => agrees_pure _

end Header

theorem LineReader.abreast_ofBytes (t u : Text) :
    (ofBytes t.encode).Abreast t u (ofBytes u.encode) :=
  ⟨{}, standsAt_ofBytes t, standsAt_ofBytes u⟩

end HdlScaffold
