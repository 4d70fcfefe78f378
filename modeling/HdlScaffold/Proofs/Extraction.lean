import HdlScaffold.Proofs.WellFormed

/-!
# What can be extracted from a line

Whatever stands on a line, the readers of declarations go through all its tokens
(`ParameterContext.exists_feed`, `PortContext.exists_feed`), and what they find has a known form. Names
are plain and no keywords, a width is made of bracketed groups, and a default is cut out of the tokens
of its line. So a declaration that was found is well formed unless parentheses or comments stand in its
texts (`Parameter.Extracted.wellFormed`, `Port.Extracted.wellFormed`).
-/

namespace HdlScaffold

section Texts

theorem Text.trim_of_ends {t : Text} (hhead : ∀ c ∈ t.head?, isBlank c = false)
    (hlast : ∀ c ∈ t.getLast?, isBlank c = false) : t.trim = t := by
  have hstart : t.dropWhile isBlank = t := dropWhile_isBlank_of_head hhead
  have hend : t.reverse.dropWhile isBlank = t.reverse :=
    dropWhile_isBlank_of_head fun c hc => hlast c (by rwa [List.head?_reverse] at hc)
  rw [trim, trimStart, trimEnd, hstart, hend, List.reverse_reverse]

theorem Token.getLast?_join {ts : List Token} (h : ∀ k ∈ ts, k.Lexed) :
    ∀ c ∈ (join ts).getLast?, isBlank c = false := by
  fun_induction join ts with
  | case1 => simp
  | case2 t u rest ih =>
    obtain ⟨gap, -, hj, -⟩ := join_cons (word u) rest
    have hne : join (word u :: rest) ≠ [] := by
      rw [hj]
      simp [text_ne_nil (h (word u) (by simp))]
    intro c hc
    refine ih (fun k hk => h k (List.mem_cons_of_mem _ hk)) c ?_
    rwa [List.getLast?_append_of_ne_nil _ (by simp), List.getLast?_cons_of_ne_nil hne] at hc
  | case3 k rest _ ih =>
    have hrest := ih fun j hj => h j (List.mem_cons_of_mem _ hj)
    intro c hc
    rw [List.getLast?_append, Option.mem_def, Option.or_eq_some_iff] at hc
    rcases hc with hc | ⟨-, hc⟩
    · exact hrest c hc
    · exact isBlank_of_mem_text (h k (by simp)) (List.mem_of_getLast? hc)

theorem Token.trim_join {ts : List Token} (h : ∀ k ∈ ts, k.Lexed) : (join ts).trim = join ts := by
  refine Text.trim_of_ends ?_ (getLast?_join h)
  rcases ts with _ | ⟨k, ts⟩
  · simp [join]
  · obtain ⟨gap, -, hj, -⟩ := join_cons k ts
    obtain ⟨d, u, hd⟩ := List.exists_cons_of_ne_nil (text_ne_nil (h k (by simp)))
    intro c hc
    rw [hj, hd] at hc
    obtain rfl : d = c := Option.some.inj hc
    exact isBlank_of_mem_text (h k (by simp)) (by simp [hd])

/-- A bracket, its partner, and between them neither brackets nor blanks. -/
def Text.IsGroup (g : Text) : Prop :=
  ∃ inner, g = '[' :: (inner ++ [']']) ∧ ∀ c ∈ inner, isRangeChar c = true ∧ isBlank c = false

/-- One group after another. -/
def Text.IsGroups (t : Text) : Prop :=
  ∃ gs : List Text, gs ≠ [] ∧ t = gs.flatten ∧ ∀ g ∈ gs, g.IsGroup

theorem Text.IsGroups.isBusRange {t : Text} (h : t.IsGroups) (hopen : '(' ∉ t) (hclose : ')' ∉ t)
    (hcomment : ¬ HasComment t) : t.IsBusRange := by
  obtain ⟨gs, hne, rfl, hg⟩ := h
  refine ⟨⟨gs, hne, rfl, fun g hgs => ?_⟩, hcomment⟩
  obtain ⟨inner, rfl, hi⟩ := hg g hgs
  have hmem : ∀ c ∈ inner, c ∈ gs.flatten := fun c hc =>
    List.mem_flatten.2 ⟨_, hgs, by simp [hc]⟩
  refine ⟨inner, rfl, fun c hc => ⟨(hi c hc).1, (hi c hc).2, ?_, ?_⟩⟩ <;> rintro rfl
  · exact hopen (hmem _ hc)
  · exact hclose (hmem _ hc)

/-- Groups are read as a literal width. -/
theorem Text.IsGroups.ofToken_eq {t : Text} (h : t.IsGroups) : Width.ofToken t = .literal t := by
  obtain ⟨gs, hne, rfl, hg⟩ := h
  have hblank : ∀ c ∈ gs.flatten, isBlank c = false := by
    intro c hc
    obtain ⟨g, hgs, hc⟩ := List.mem_flatten.1 hc
    exact Token.isBlank_of_mem_text (k := .range g) (hg g hgs) hc
  obtain ⟨g, gs, rfl⟩ := List.exists_cons_of_ne_nil hne
  obtain ⟨inner, rfl, -⟩ := hg g (by simp)
  exact Width.ofToken_of_bracket hblank

end Texts

section Parameters

/-- A parameter as reading finds it: its default was cut out of the tokens of a text, and up to its
first parenthesis it holds no separator. -/
structure Parameter.Extracted (p : Parameter) : Prop where
  identifier : isIdentifier p.identifier = true
  ne_parameter : p.identifier ≠ "parameter".toList
  ne_localparam : p.identifier ≠ "localparam".toList
  default : ∀ v ∈ p.default, ∃ (t : Text) (ts : List Token), ts <:+: tokens t ∧ v = Token.join ts ∧
    (.openParen ∉ ts → .comma ∉ ts ∧ .semicolon ∉ ts)

theorem Parameter.Extracted.wellFormed {p : Parameter} (h : p.Extracted)
    (hdefault : ∀ v ∈ p.default, '(' ∉ v ∧ ')' ∉ v ∧ ¬ HasComment v) : p.WellFormed := by
  refine ⟨h.identifier, h.ne_parameter, h.ne_localparam, fun v hv => ?_⟩
  obtain ⟨hopen, hclose, hcomment⟩ := hdefault v hv
  obtain ⟨t, ts, hts, rfl, hseparator⟩ := h.default v hv
  have htokens : lineTokens (Token.join ts) = ts := by
    rw [lineTokens_of_not hcomment, tokens_join_of_infix hts]
  have hparen : Token.openParen ∉ ts := fun hk =>
    hopen ((Token.text_infix_join hk).subset (by simp [Token.text]))
  obtain ⟨hcomma, hsemicolon⟩ := hseparator hparen
  exact ⟨by rw [htokens], hopen, hclose, hcomment, by rwa [htokens], by rwa [htokens]⟩

theorem Parameter.exists_create {w : Text} (hw : isIdentifier w = true) (value : Option Text) :
    ∃ p, create w value = .ok p ∧ p.identifier = w ∧ p.default = usableDefault value := by
  have htrim : w.trim = w := Text.trim_of_no_blank (solid_of_isIdentifier hw).2
  have hne : w.trim ≠ [] := by
    rw [htrim]
    exact ne_nil_of_isIdentifier hw
  exact ⟨_, dif_neg hne, htrim, rfl⟩

namespace Header

theorem takeValue_separators : ∀ {ts : List Token}, .openParen ∉ (takeValue 0 ts).1 →
    .comma ∉ (takeValue 0 ts).1 ∧ .semicolon ∉ (takeValue 0 ts).1
  | [], _ => by simp [takeValue]
  | k :: ts, h => by
    have ih := @takeValue_separators ts
    cases k with
    | openParen => simp [takeValue, valueDepth?] at h
    | closeParen | comma | semicolon => simp [takeValue, valueDepth?]
    | word | range | hash | equals | other => simpa [takeValue, valueDepth?] using ih (by
        simpa [takeValue, valueDepth?] using h)

/-- A default is what stands between the equals sign and the rest of the line. -/
theorem takeDefault_cases (ts : List Token) : takeDefault ts = (none, ts) ∨
    ∃ vs rest, takeDefault ts = (some (Token.join vs), rest) ∧ ts = .equals :: (vs ++ rest) ∧
      (.openParen ∉ vs → .comma ∉ vs ∧ .semicolon ∉ vs) := by
  unfold takeDefault
  split
  · exact Or.inr ⟨_, _, rfl, by rw [takeValue_append], takeValue_separators⟩
  · exact Or.inl rfl

/-- The name before a default, and what follows the default, when the name declares a parameter. -/
theorem exists_create_takeDefault {t w : Text} {rest : List Token} (hw : isIdentifier w = true)
    (hparameter : w ≠ "parameter".toList) (hlocalparam : w ≠ "localparam".toList)
    (h : rest <:+: tokens t) : ∃ p, Parameter.create w (takeDefault rest).1 = .ok p ∧
      p.Extracted ∧ (takeDefault rest).2 <:+: tokens t := by
  obtain ⟨p, hcreate, rfl, hdefault⟩ := Parameter.exists_create hw (takeDefault rest).1
  refine ⟨p, hcreate, ⟨hw, hparameter, hlocalparam, fun v hv => ?_⟩, ?_⟩
  all_goals rcases takeDefault_cases rest with hd | ⟨vs, after, hd, hrest, hseparator⟩
  · rw [hdefault, hd] at hv
    simp [Parameter.usableDefault] at hv
  · have hvs : vs <:+: tokens t := List.IsInfix.trans ⟨[.equals], after, by simp [hrest]⟩ h
    have hlexed : ∀ k ∈ vs, k.Lexed := fun k hk => lexed_of_mem_tokens t k (hvs.subset hk)
    refine ⟨t, vs, hvs, ?_, hseparator⟩
    rw [hdefault, hd, Parameter.usableDefault, Option.map_some, Token.trim_join hlexed,
      Option.mem_def, Option.filter_eq_some_iff] at hv
    exact (Option.some.inj hv.1).symm
  · rwa [hd]
  · rw [hd]
    exact List.IsInfix.trans ⟨.equals :: vs, [], by simp [hrest]⟩ h

/-- Reading parameters never fails, whatever the tokens are. -/
theorem ParameterContext.exists_feed (s : ParameterContext) {t : Text} {ts : List Token} :
    ts <:+: tokens t → ∃ u ps, s.feed ts = .ok (u, ps) ∧ ∀ p ∈ ps, p.Extracted := by
  have htail : ∀ {k : Token} {rest : List Token}, k :: rest <:+: tokens t → rest <:+: tokens t :=
    fun h => (List.suffix_cons _ _).isInfix.trans h
  -- only a word makes a parameter; every other token at most changes the context
  fun_induction ParameterContext.feed s ts with
  | case1 s => exact fun _ => ⟨s, [], rfl, by simp⟩
  | case4 s w rest hparameter hlocalparam hdeclares ih =>
    intro h
    have hw : isIdentifier w = true := by
      simp only [declares, Bool.and_eq_true] at hdeclares
      exact hdeclares.1.2
    obtain ⟨p, hcreate, hp, hafter⟩ :=
      exists_create_takeDefault hw hparameter hlocalparam (htail h)
    obtain ⟨u, ps, hfeed, hps⟩ := ih hafter
    refine ⟨u, p :: ps, by rw [hcreate, hfeed]; rfl, ?_⟩
    simpa using ⟨hp, hps⟩
  | case2 | case3 | case5 | case6 | case7 | case8 | case9 =>
    next ih => exact fun h => ih (htail h)

end Header

end Parameters

section Ports

/-- A port as reading finds it. -/
structure Port.Extracted (p : Port) : Prop where
  identifier : isIdentifier p.identifier = true
  no_direction : Direction.ofKeyword? p.identifier = none
  no_type : p.identifier ∉ Header.portTypeKeywords
  width : ∀ w ∈ p.width, ∃ t : Text, w = .literal t ∧ t.IsGroups

namespace Port.Extracted

variable {p : Port}

theorem isGroups (h : p.Extracted) : ∀ w ∈ p.width, w.text.IsGroups := by
  intro w hw
  obtain ⟨t, rfl, ht⟩ := h.width w hw
  exact ht

theorem readBack_eq (h : p.Extracted) : p.readBack = p := by
  have hwidth : p.width.map (fun w => Width.literal w.text) = p.width := by
    rcases hp : p.width with _ | w
    · rfl
    · obtain ⟨t, rfl, -⟩ := h.width w hp
      rfl
  unfold readBack
  rw [hwidth]

theorem wellFormed (h : p.Extracted)
    (hwidth : ∀ w ∈ p.width, '(' ∉ w.text ∧ ')' ∉ w.text ∧ ¬ HasComment w.text) : p.WellFormed := by
  refine ⟨h.identifier, h.no_direction, h.no_type, fun w hw => ?_⟩
  obtain ⟨hopen, hclose, hcomment⟩ := hwidth w hw
  exact (h.isGroups w hw).isBusRange hopen hclose hcomment

end Port.Extracted

namespace Header.PortContext

/-- The ranges that the context carries make up a width. -/
def Sound (s : PortContext) : Prop := ∀ t ∈ s.width, t.IsGroups

theorem Sound.extend {s : PortContext} (hs : s.Sound) {g : Text} (hg : g.IsGroup) :
    (s.width.getD [] ++ g).IsGroups := by
  rcases hw : s.width with _ | t
  · exact ⟨[g], by simp, by simp, by simpa using hg⟩
  · obtain ⟨gs, hne, rfl, hgs⟩ := hs t hw
    refine ⟨gs ++ [g], by simp, by simp, fun k hk => ?_⟩
    rcases List.mem_append.1 hk with hk | hk
    · exact hgs k hk
    · rwa [List.mem_singleton.1 hk]

theorem Sound.exists_create {s : PortContext} (hs : s.Sound) (d : Direction) {w : Text}
    {rest : List Token} (hkeyword : Direction.ofKeyword? w = none)
    (hname : isPortName w rest = true) :
    ∃ p, Port.create d w (s.width.map Width.ofToken) = .ok p ∧ p.Extracted := by
  simp only [isPortName, Bool.and_eq_true, Bool.not_eq_true', List.contains_eq_mem,
    decide_eq_false_iff_not] at hname
  obtain ⟨⟨htype, hw⟩, -⟩ := hname
  refine ⟨_, Port.create_of_solid d _ (solid_of_isIdentifier hw), hw, hkeyword, htype, fun v hv => ?_⟩
  obtain ⟨t, ht, rfl⟩ := Option.map_eq_some_iff.1 hv
  exact ⟨t, (hs t ht).ofToken_eq, hs t ht⟩

theorem exists_step {s : PortContext} (hs : s.Sound) {k : Token} (hk : k.Lexed)
    (rest : List Token) :
    ∃ u ps, s.step k rest = .ok (u, ps) ∧ u.Sound ∧ ∀ p ∈ ps, p.Extracted := by
  -- most tokens declare nothing, and keep the width or forget it
  have hquiet : ∀ {u : PortContext}, u.Sound → ∃ v ps, (.ok (u, []) : Except Error _) = .ok (v, ps) ∧
      v.Sound ∧ ∀ p ∈ ps, Port.Extracted p := fun hu => ⟨_, [], rfl, hu, by simp⟩
  have hnone : ∀ {u : PortContext}, u.width = none → u.Sound := fun hu t ht => by simp [hu] at ht
  fun_cases step s k rest with
  | case1 | case9 | case10 => exact hquiet (hnone rfl)
  | case2 w d _ hkeyword hname =>
    obtain ⟨p, hcreate, hp⟩ := hs.exists_create d hkeyword (Bool.and_eq_true_iff.1 hname).2
    exact ⟨{ s with expectsName := false }, [p], by rw [hcreate]; rfl, hs, by simpa using hp⟩
  | case5 r _ =>
    refine hquiet fun t ht => ?_
    obtain rfl := Option.some.inj ht
    exact hs.extend hk
  | case3 | case4 | case6 | case7 | case8 | case11 => exact hquiet hs

/-- Reading ports never fails, whatever the tokens are. -/
theorem exists_feed : ∀ {s : PortContext} {ts : List Token}, s.Sound → (∀ k ∈ ts, k.Lexed) →
    ∃ u ps, s.feed ts = .ok (u, ps) ∧ u.Sound ∧ ∀ p ∈ ps, p.Extracted
  | s, [], hs, _ => ⟨s, [], rfl, hs, by simp⟩
  | s, k :: rest, hs, h => by
    obtain ⟨u, found, hstep, hu, hfound⟩ := exists_step hs (h k (by simp)) rest
    obtain ⟨v, more, hfeed, hv, hmore⟩ := exists_feed hu fun j hj => h j (List.mem_cons_of_mem _ hj)
    refine ⟨v, found ++ more, ?_, hv, ?_⟩
    · simp only [feed, hstep, hfeed, bind, Except.bind, pure, Except.pure]
    · intro p hp
      rcases List.mem_append.1 hp with hp | hp
      · exact hfound p hp
      · exact hmore p hp

end Header.PortContext

end Ports

end HdlScaffold
