import HdlScaffold.Proofs.DeclarationLists
import Mathlib.Data.List.Forall2

/-!
# Where ports come from

Whatever the tokens are, and in whatever order, a port that is found was declared by one of their words
(`DeclaredAt`): a plain name with a direction's keyword before it, the list not ended in between, and a
width that is made of ranges between the two. Later ports come from later words
(`PortContext.exists_feedLines_declaredAt`). The context carries what is needed for this from one token
to the next and from one line to the next (`PortContext.Remembers`).
-/

namespace HdlScaffold.Header

section Declared

/-- A keyword of the direction was read, nothing since then opened another declaration or ended the
list, and the ranges are some of those read since, in order. -/
def OpenSince (past : List Token) (d : Direction) (gs : List Text) : Prop :=
  ∃ before since, past = before ++ .word d.keyword :: since ∧ (∀ k ∈ since, StaysInside k) ∧
    gs.Sublist (rangesOf since)

/-- The word at place `i` declares the port. Bracketed ranges are taken over as they are. -/
structure DeclaredAt (ts : List Token) (i : Nat) (p : Port) : Prop where
  word : ts[i]? = some (.word p.identifier)
  identifier : isIdentifier p.identifier = true
  no_direction : Direction.ofKeyword? p.identifier = none
  no_type : p.identifier ∉ portTypeKeywords
  declaration : ∃ gs, OpenSince (ts.take i) p.direction gs ∧
    p.width = (gathered gs).map Width.ofToken ∧
    ((∀ g ∈ gs, g.IsGroup) → p.width = (gathered gs).map .literal)

/-- The ports are declared one after another at places from `i` up to `j`. -/
def DeclaredBetween (ts : List Token) (i j : Nat) (ps : List Port) : Prop :=
  ∃ places : List Nat, places.Pairwise (· < ·) ∧ (∀ n ∈ places, i ≤ n ∧ n < j) ∧
    List.Forall₂ (DeclaredAt ts) places ps

variable {ts past : List Token} {i j l : Nat} {d : Direction} {gs : List Text} {k : Token}

theorem declaredBetween_nil : DeclaredBetween ts i j [] := ⟨[], by simp, by simp, .nil⟩

theorem DeclaredAt.between {p : Port} (h : DeclaredAt ts i p) : DeclaredBetween ts i (i + 1) [p] :=
  ⟨[i], by simp, by simp, .cons h .nil⟩

theorem DeclaredBetween.append {ps qs : List Port} (hij : i ≤ j) (hjl : j ≤ l)
    (h : DeclaredBetween ts i j ps) (h' : DeclaredBetween ts j l qs) :
    DeclaredBetween ts i l (ps ++ qs) := by
  obtain ⟨places, hsorted, hbounds, hps⟩ := h
  obtain ⟨places', hsorted', hbounds', hqs⟩ := h'
  refine ⟨places ++ places', ?_, fun n hn => ?_, List.rel_append hps hqs⟩
  · refine List.pairwise_append.2 ⟨hsorted, hsorted', fun a ha b hb => ?_⟩
    have := hbounds a ha
    have := hbounds' b hb
    omega
  · rcases List.mem_append.1 hn with hn | hn
    · have := hbounds n hn
      omega
    · have := hbounds' n hn
      omega

theorem openSince_keyword (past : List Token) (d : Direction) :
    OpenSince (past ++ [.word d.keyword]) d [] := ⟨past, [], rfl, by simp, by simp⟩

theorem OpenSince.snoc {gs' : List Text} (h : OpenSince past d gs) (hk : StaysInside k)
    (hgs' : gs'.Sublist (gs ++ rangesOf [k])) : OpenSince (past ++ [k]) d gs' := by
  obtain ⟨before, since, rfl, hsince, hgs⟩ := h
  refine ⟨before, since ++ [k], by simp, fun j hj => ?_, ?_⟩
  · rcases List.mem_append.1 hj with hj | hj
    · exact hsince j hj
    · rwa [List.mem_singleton.1 hj]
  · rw [rangesOf, List.filterMap_append]
    exact hgs'.trans (hgs.append_right _)

end Declared

namespace PortContext

/-- The direction and the width of the context are those of the declaration that is open. -/
def Remembers (s : PortContext) (past : List Token) : Prop :=
  ∀ d ∈ s.direction, ∃ gs, OpenSince past d gs ∧ s.width = gathered gs

variable {s t : PortContext} {past whole : List Token} {k : Token}

theorem remembers_of_none (h : s.direction = none) (past : List Token) : s.Remembers past := by
  intro d hd
  simp [h] at hd

theorem Remembers.keep (h : s.Remembers past) (hk : StaysInside k) (hd : t.direction = s.direction)
    (hw : t.width = s.width) : t.Remembers (past ++ [k]) := by
  intro d hmem
  obtain ⟨gs, hopen, hgs⟩ := h d (hd ▸ hmem)
  exact ⟨gs, hopen.snoc hk (List.sublist_append_left _ _), hw.trans hgs⟩

theorem Remembers.declaredAt {d : Direction} {w : Text} {rest : List Token} (h : s.Remembers past)
    (hd : s.direction = some d) (hkeyword : Direction.ofKeyword? w = none)
    (hname : isPortName w rest = true) (hwhole : past ++ [.word w] <+: whole) :
    ∃ p, Port.create d w (s.width.map Width.ofToken) = .ok p ∧ DeclaredAt whole past.length p := by
  simp only [isPortName, Bool.and_eq_true, Bool.not_eq_true', List.contains_eq_mem,
    decide_eq_false_iff_not] at hname
  obtain ⟨⟨htype, hw⟩, -⟩ := hname
  obtain ⟨gs, hopen, hgs⟩ := h d hd
  obtain ⟨later, rfl⟩ := hwhole
  refine ⟨_, Port.create_of_solid d _ (solid_of_isIdentifier hw), ?_, hw, hkeyword, htype, gs, ?_⟩
  · simp
  · rw [List.append_assoc, List.take_left, hgs]
    exact ⟨hopen, rfl, map_ofToken_gathered⟩

/-- One token leaves a context that remembers it too, and declares a port only at its own place. -/
theorem Remembers.exists_step (h : s.Remembers past) (rest : List Token)
    (hwhole : past ++ [k] <+: whole) : ∃ t ps, s.step k rest = .ok (t, ps) ∧
      t.Remembers (past ++ [k]) ∧ DeclaredBetween whole past.length (past.length + 1) ps := by
  have hquiet : ∀ {t : PortContext}, t.Remembers (past ++ [k]) → ∃ u ps,
      (.ok (t, []) : Except Error _) = .ok (u, ps) ∧ u.Remembers (past ++ [k]) ∧
        DeclaredBetween whole past.length (past.length + 1) ps :=
    fun ht => ⟨_, [], rfl, ht, declaredBetween_nil⟩
  fun_cases step s k rest with
  | case1 w d hkeyword =>
    refine hquiet fun e he => ⟨[], ?_, rfl⟩
    obtain rfl : d = e := Option.some.inj he
    rw [Direction.ofKeyword?_eq_some_iff.1 hkeyword]
    exact openSince_keyword past d
  | case2 w d hd hkeyword hname =>
    obtain ⟨p, hcreate, hp⟩ :=
      h.declaredAt hd hkeyword (Bool.and_eq_true_iff.1 hname).2 hwhole
    exact ⟨{ s with expectsName := false }, [p], by rw [hcreate]; rfl, h.keep hkeyword rfl rfl,
      hp.between⟩
  | case3 _ _ _ hkeyword | case4 _ _ hkeyword => exact hquiet (h.keep hkeyword rfl rfl)
  | case5 r _ =>
    refine hquiet fun d hd => ?_
    obtain ⟨gs, hopen, hgs⟩ := h d hd
    exact ⟨gs ++ [r], hopen.snoc trivial (List.Sublist.refl _), by rw [gathered_concat, ← hgs]⟩
  | case6 | case7 | case8 => exact hquiet (h.keep trivial rfl rfl)
  | case9 | case10 => exact hquiet (remembers_of_none rfl _)
  | case11 _ hword _ _ _ hclose hend =>
    have hk : StaysInside k := by
      cases k with
      | word w => exact (hword w rfl).elim
      | closeParen => exact hclose rfl
      | semicolon => exact hend rfl
      | range | hash | openParen | comma | equals | other => trivial
    exact hquiet (h.keep hk rfl rfl)

-- `whole` is everything that will have been fed, so that places do not shift from line to line
theorem Remembers.exists_feed : ∀ {ts past : List Token} {s : PortContext}, s.Remembers past →
    past ++ ts <+: whole → ∃ t ps, s.feed ts = .ok (t, ps) ∧ t.Remembers (past ++ ts) ∧
      DeclaredBetween whole past.length (past ++ ts).length ps
  | [], past, s, h, _ => ⟨s, [], rfl, by rwa [List.append_nil], declaredBetween_nil⟩
  | k :: ts, past, s, h, hwhole => by
    rw [List.append_cons] at hwhole ⊢
    obtain ⟨u, found, hstep, hu, hfound⟩ :=
      h.exists_step (k := k) ts ((List.prefix_append _ _).trans hwhole)
    obtain ⟨t, more, hfeed, ht, hmore⟩ := hu.exists_feed hwhole
    rw [List.length_append, List.length_singleton] at hmore
    refine ⟨t, found ++ more, ?_, ht, hfound.append (by omega) (by simp) hmore⟩
    simp only [feed, hstep, hfeed, bind, Except.bind, pure, Except.pure]

theorem Remembers.exists_feedLines : ∀ {lines : List (List Token)} {past : List Token}
    {s : PortContext}, s.Remembers past → past ++ lines.flatten <+: whole →
      ∃ t ps, feedLines feed s lines = .ok (t, ps) ∧
        DeclaredBetween whole past.length (past ++ lines.flatten).length ps
  | [], _, s, _, _ => ⟨s, [], rfl, declaredBetween_nil⟩
  | ts :: lines, past, s, h, hwhole => by
    rw [List.flatten_cons, ← List.append_assoc] at hwhole ⊢
    obtain ⟨u, found, hfeed, hu, hfound⟩ := h.exists_feed ((List.prefix_append _ _).trans hwhole)
    obtain ⟨t, more, hlines, hmore⟩ := hu.exists_feedLines hwhole
    refine ⟨t, found ++ more, ?_, hfound.append (by simp) (by simp) hmore⟩
    simp only [feedLines, hfeed, hlines, bind, Except.bind, pure, Except.pure]

/-- Every line of tokens can be read, and every port that is found was declared by a word of its own,
in the order of the words. -/
theorem exists_feedLines_declaredAt (lines : List (List Token)) :
    ∃ t ps places, feedLines feed {} lines = .ok (t, ps) ∧ places.Pairwise (· < ·) ∧
      List.Forall₂ (DeclaredAt lines.flatten) places ps := by
  obtain ⟨t, ps, hfeed, places, hsorted, -, hps⟩ :=
    (remembers_of_none (s := {}) rfl []).exists_feedLines (List.prefix_refl lines.flatten)
  exact ⟨t, ps, places, hfeed, hsorted, hps⟩

end PortContext

end HdlScaffold.Header
