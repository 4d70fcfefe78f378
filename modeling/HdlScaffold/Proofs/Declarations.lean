import HdlScaffold.Proofs.Blocks
import HdlScaffold.Proofs.WellFormed

/-!
# Declarations on any lines

The lists of a header are made of phrases, each of which stays on one line: a keyword, a range, a
separator, or a parameter's name with its default. What a phrase declares does not depend on how much
of the list follows it on its line (`Takes`), so a list declares the same however its phrases are
divided into lines (`Run.feedLines`).
-/

namespace HdlScaffold.Header

section Runs

variable {σ α : Type} {feed : σ → List Token → Except Error (σ × List α)}

/-- The phrase takes the context from `s` to `t` and declares `as`, whatever part of `later` follows
it on its line. -/
def Takes (feed : σ → List Token → Except Error (σ × List α)) (s : σ) (phrase later : List Token)
    (t : σ) (as : List α) : Prop :=
  ∀ rest, rest <+: later →
    feed s (phrase ++ rest) = (feed t rest).map fun x => (x.1, as ++ x.2)

/-- The phrases, with `later` behind them, take the context from `s` to `t` and declare `as`. -/
inductive Run (feed : σ → List Token → Except Error (σ × List α)) (later : List Token) :
    σ → List (List Token) → σ → List α → Prop
  | nil (s : σ) : Run feed later s [] s []
  | cons {s t u : σ} {phrase : List Token} {phrases : List (List Token)} {as bs : List α} :
    Takes feed s phrase (phrases.flatten ++ later) t as → Run feed later t phrases u bs →
      Run feed later s (phrase :: phrases) u (as ++ bs)

variable {later : List Token} {s t u : σ} {ps qs : List (List Token)} {as bs : List α}

theorem takes_of_feed_eq {phrase : List Token}
    (h : ∀ rest, feed s (phrase ++ rest) = feed t rest) : Takes feed s phrase later t [] := by
  intro rest _
  rw [h]
  rcases feed t rest with e | ⟨u, as⟩ <;> rfl

theorem Takes.append {phrase phrase' : List Token} (h : Takes feed s phrase (phrase' ++ later) t as)
    (h' : Takes feed t phrase' later u bs) :
    Takes feed s (phrase ++ phrase') later u (as ++ bs) := by
  intro rest hrest
  rw [List.append_assoc, h _ (List.prefix_append_right_inj _ |>.2 hrest), h' rest hrest]
  rcases feed u rest with e | ⟨v, found⟩
  · rfl
  · simp [Except.map]

theorem Run.append (h : Run feed (qs.flatten ++ later) s ps t as) (h' : Run feed later t qs u bs) :
    Run feed later s (ps ++ qs) u (as ++ bs) := by
  induction h with
  | nil => exact h'
  | @cons s t u phrase phrases as cs htakes _ ih =>
    rw [List.append_assoc]
    refine .cons ?_ (ih h')
    show Takes feed s phrase ((phrases ++ qs).flatten ++ later) t as
    rwa [List.flatten_append, List.append_assoc]

theorem Run.single {phrase : List Token} (h : Takes feed s phrase later t as) :
    Run feed later s [phrase] t as := by
  have hrun : Run feed later s [phrase] t (as ++ []) := .cons h (.nil t)
  rwa [List.append_nil] at hrun

/-- The first phrases of a run, fed as one line. -/
theorem Run.feed_flatten (hnil : ∀ s, feed s [] = .ok (s, [])) :
    ∀ {g : List (List Token)} {s : σ} {as : List α}, Run feed later s (g ++ ps) u as →
      ∃ t found more, feed s g.flatten = .ok (t, found) ∧ Run feed later t ps u more ∧
        as = found ++ more
  | [], s, as, h => ⟨s, [], as, hnil s, h, rfl⟩
  | phrase :: g, s, as, h => by
    obtain _ | ⟨htakes, hrun⟩ := h
    obtain ⟨t, found, more, hf, hr, rfl⟩ := Run.feed_flatten hnil hrun
    refine ⟨t, _, more, ?_, hr, (List.append_assoc _ _ _).symm⟩
    have hpre : g.flatten <+: (g ++ ps).flatten ++ later := by
      rw [List.flatten_append, List.append_assoc]
      exact List.prefix_append _ _
    rw [List.flatten_cons, htakes _ hpre, hf]
    rfl

/-- However the phrases of a run are divided into lines, they declare the same. -/
theorem Run.feedLines (hnil : ∀ s, feed s [] = .ok (s, [])) :
    ∀ {gs : List (List (List Token))} {s : σ} {as : List α}, Run feed later s gs.flatten u as →
      feedLines feed s (gs.map List.flatten) = .ok (u, as)
  | [], _, _, h => by
    cases h
    rfl
  | g :: gs, s, as, h => by
    rw [List.flatten_cons] at h
    obtain ⟨t, found, more, hf, hr, rfl⟩ := Run.feed_flatten hnil h
    rw [List.map_cons, Header.feedLines, hf]
    simp only [bind, Except.bind, Run.feedLines hnil hr, pure, Except.pure]

/-- Phrases that change nothing. -/
theorem Run.of_still : ∀ {ps : List (List Token)},
    (∀ phrase ∈ ps, ∀ later, Takes feed s phrase later s []) → Run feed later s ps s []
  | [], _ => .nil s
  | phrase :: ps, h => by
    have hps : Run feed later s ps s [] := Run.of_still fun q hq => h q (List.mem_cons_of_mem _ hq)
    exact .cons (h phrase (by simp) _) hps

/-- The entries one after another, with a comma between. -/
def separated : List (List (List Token)) → List (List Token)
  | [] => []
  | [entry] => entry
  | entry :: rest => entry ++ [.comma] :: separated rest

/-- An entry of a list ends where these tokens follow. -/
def EndsEntry (later : List Token) : Prop := ∀ k ∈ later.head?, k = .comma ∨ k = .closeParen

theorem EndsEntry.of_prefix {rest : List Token} (h : EndsEntry later) (hr : rest <+: later) :
    EndsEntry rest := by
  obtain ⟨tail, rfl⟩ := hr
  intro k hk
  refine h k ?_
  rw [Option.mem_def] at hk ⊢
  rw [List.head?_append, hk, Option.some_or]

theorem EndsEntry.isTypePosition_eq (h : EndsEntry later) : isTypePosition later = false := by
  rcases later with _ | ⟨k, later⟩
  · rfl
  · rcases h k rfl with rfl | rfl <;> rfl

/-- A list declares what its entries declare. Each entry is read from a context in `I` and leaves one
in `J`, and a comma leads from `J` back to `I`. -/
theorem run_separated {β : Type} {phrases : β → List (List Token)} {declared : β → List α}
    {I J : σ → Prop} (hcomma : ∀ s later, J s → ∃ t, I t ∧ Takes feed s [.comma] later t [])
    (hl : EndsEntry later) :
    ∀ {bs : List β}, (∀ b ∈ bs, ∀ s later, I s → EndsEntry later →
        ∃ t, J t ∧ Run feed later s (phrases b) t (declared b)) →
      ∀ s, I s → ∃ t, Run feed later s (separated (bs.map phrases)) t (bs.flatMap declared)
  | [], _, s, _ => ⟨s, .nil s⟩
  | [b], h, s, hs => by
    obtain ⟨t, -, ht⟩ := h b (by simp) s later hs hl
    exact ⟨t, by rwa [List.flatMap_singleton]⟩
  | b :: c :: bs, h, s, hs => by
    have hb : EndsEntry (([.comma] :: separated ((c :: bs).map phrases)).flatten ++ later) := by
      intro k hk
      exact Or.inl (Option.some.inj hk).symm
    obtain ⟨t, hJ, ht⟩ := h b (by simp) s _ hs hb
    obtain ⟨u, hI, hu⟩ := hcomma t ((separated ((c :: bs).map phrases)).flatten ++ later) hJ
    obtain ⟨v, hv⟩ := run_separated hcomma hl (fun d hd => h d (List.mem_cons_of_mem _ hd)) u hI
    have hrest := Run.cons hu hv
    rw [List.nil_append] at hrest
    exact ⟨v, ht.append hrest⟩

end Runs

section Parameters

variable {s t : ParameterContext} {later : List Token}

/-- A parameter's name with its default. -/
def namePhrase (p : Parameter) : List Token :=
  .word p.identifier :: p.default.elim [] fun v => .equals :: lineTokens v

/-- A parameter's declaration: the keyword, and the name with its default. -/
def parameterPhrases (p : Parameter) : List (List Token) :=
  [[.word "parameter".toList], namePhrase p]

theorem parameterFeed_nil (s : ParameterContext) : s.feed [] = .ok (s, []) := by
  rw [ParameterContext.feed]

theorem takes_parameterKeyword :
    Takes ParameterContext.feed s [.word "parameter".toList] later ⟨true, true⟩ [] :=
  takes_of_feed_eq fun rest => by rw [List.singleton_append, ParameterContext.feed, if_pos rfl]

theorem takes_parameterComma : Takes ParameterContext.feed s [.comma] later
    { s with expectsName := s.declaring || s.expectsName } [] :=
  takes_of_feed_eq fun rest => by rw [List.singleton_append, ParameterContext.feed]

theorem takes_parameterClose : Takes ParameterContext.feed s [.closeParen] later {} [] :=
  takes_of_feed_eq fun rest => by rw [List.singleton_append, ParameterContext.feed]

theorem takes_parameterOpen : Takes ParameterContext.feed s [.hash, .openParen] later s [] :=
  takes_of_feed_eq fun rest => by
    rw [List.cons_append, List.singleton_append, ParameterContext.feed, ParameterContext.feed] <;>
      simp

/-- Outside a declaration only the keyword changes anything. -/
theorem feed_idle : ∀ {phrase : List Token}, .word "parameter".toList ∉ phrase →
    ∀ rest, ParameterContext.feed {} (phrase ++ rest) = ParameterContext.feed {} rest
  | [], _, _ => rfl
  | k :: phrase, h, rest => by
    simp only [List.mem_cons, not_or] at h
    have ih := feed_idle h.2 rest
    rw [List.cons_append]
    cases k with
    | word w =>
      have hw : w ≠ "parameter".toList := fun hw => h.1 (by rw [hw])
      rw [ParameterContext.feed, if_neg hw]
      split_ifs with h1 h2
      · exact ih
      · simp [ParameterContext.declares] at h2
      · exact ih
    | comma | closeParen | semicolon =>
      rw [ParameterContext.feed]
      exact ih
    | range | other | hash | openParen | equals => rw [ParameterContext.feed, ih] <;> simp

/-- Any word in front of the declarations leaves them to their own keywords. -/
theorem takes_word_idle (w : Text) :
    ∃ t, ∀ later, Takes ParameterContext.feed {} [.word w] later t [] := by
  by_cases hw : w = "parameter".toList
  · exact ⟨⟨true, true⟩, fun _ => hw ▸ takes_parameterKeyword⟩
  · exact ⟨{}, fun _ => takes_of_feed_eq (feed_idle (by simpa using Ne.symm hw))⟩

theorem run_parameterIdle {ps : List (List Token)}
    (h : ∀ phrase ∈ ps, .word "parameter".toList ∉ phrase) :
    Run ParameterContext.feed later {} ps {} [] :=
  .of_still fun phrase hp _ => takes_of_feed_eq (feed_idle (h phrase hp))

/-- A value runs up to the end of its entry. -/
theorem takeValue_of_endsEntry : ∀ {ts : List Token},
    (∀ k ∈ ts, valueDepth? 0 k = some 0) → ∀ {rest : List Token}, EndsEntry rest →
      takeValue 0 (ts ++ rest) = (ts, rest)
  | [], _, [], _ => rfl
  | [], _, k :: rest, hr => by rcases hr k rfl with rfl | rfl <;> rfl
  | k :: ts, h, rest, hr => by
    rw [List.cons_append, takeValue, h k (by simp)]
    simp only [takeValue_of_endsEntry (fun j hj => h j (List.mem_cons_of_mem _ hj)) hr]

theorem valueDepth?_of_plain {v : Text} (h : v.IsPlainValue) :
    ∀ k ∈ lineTokens v, valueDepth? 0 k = some 0 := by
  intro k hk
  cases k with
  | openParen => exact absurd hk h.openParen_not_mem
  | closeParen => exact absurd hk h.closeParen_not_mem
  | comma => exact absurd hk h.no_comma
  | semicolon => exact absurd hk h.no_semicolon
  | word | range | hash | equals | other => rfl

theorem takeDefault_namePhrase {p : Parameter} (hp : p.WellFormed) {rest : List Token}
    (hr : EndsEntry rest) :
    takeDefault ((p.default.elim [] fun v => .equals :: lineTokens v) ++ rest)
      = (p.default, rest) := by
  rcases hd : p.default with _ | v
  · rcases rest with _ | ⟨k, rest⟩
    · rfl
    · rcases hr k rfl with rfl | rfl <;> rfl
  · have hv := hp.default v hd
    show takeDefault (.equals :: (lineTokens v ++ rest)) = _
    rw [takeDefault, takeValue_of_endsEntry (valueDepth?_of_plain hv) hr]
    simp only [hv.joined]

theorem create_default (p : Parameter) : Parameter.create p.identifier p.default = .ok p := by
  have hi := p.identifier_trimmed
  have hd : Parameter.usableDefault p.default = p.default := by
    rcases h : p.default with _ | v
    · rfl
    · have hv := p.default_trimmed v h
      simp [Parameter.usableDefault, hv.2, hv.1]
  unfold Parameter.create
  rw [dif_neg (by rw [hi.2]; exact hi.1)]
  cases p
  simp only [Except.ok.injEq, Parameter.mk.injEq]
  exact ⟨hi.2, hd⟩

theorem takes_namePhrase {p : Parameter} (hp : p.WellFormed) (hl : EndsEntry later) :
    Takes ParameterContext.feed ⟨true, true⟩ (namePhrase p) later ⟨true, false⟩ [p] := by
  intro rest hrest
  have hr := hl.of_prefix hrest
  have htype : isTypePosition ((p.default.elim [] fun v => .equals :: lineTokens v) ++ rest)
      = false := by
    rcases p.default with _ | v
    · exact hr.isTypePosition_eq
    · rfl
  have hdeclares : ParameterContext.declares ⟨true, true⟩ p.identifier
      ((p.default.elim [] fun v => .equals :: lineTokens v) ++ rest) = true := by
    simp [ParameterContext.declares, hp.identifier, htype]
  rw [namePhrase, List.cons_append, ParameterContext.feed, if_neg hp.ne_parameter,
    if_neg hp.ne_localparam, if_pos hdeclares, takeDefault_namePhrase hp hr, create_default]
  rcases ParameterContext.feed ⟨true, false⟩ rest with e | ⟨u, ps⟩ <;> rfl

/-- A parameter list declares its parameters, whatever stands before it. -/
theorem run_parameterList {ps : List Parameter} (h : ∀ p ∈ ps, p.WellFormed) (hl : EndsEntry later)
    (s : ParameterContext) :
    ∃ t, Run ParameterContext.feed later s (separated (ps.map parameterPhrases)) t ps := by
  have hentry : ∀ p ∈ ps, ∀ (s : ParameterContext) (later : List Token), True → EndsEntry later →
      ∃ t, True ∧ Run ParameterContext.feed later s (parameterPhrases p) t [p] := by
    intro p hp s later _ hl
    exact ⟨_, trivial, .cons takes_parameterKeyword (.single (takes_namePhrase (h p hp) hl))⟩
  have hrun := run_separated (fun s _ _ => ⟨_, trivial, takes_parameterComma⟩) hl hentry s trivial
  rwa [List.flatMap_singleton'] at hrun

end Parameters

section Ports

variable {s t : PortContext} {later : List Token}

/-- A port's declaration: the direction, the type keywords, the ranges and the name. -/
def portPhrases (types : List Text) (p : Port) : List (List Token) :=
  [.word p.direction.keyword] :: types.map (fun w => [.word w]) ++
    ((p.width.elim [] fun w => tokens w.text).map fun k => [k]) ++ [[.word p.identifier]]

theorem PortContext.feed_of_step {k : Token} {rest : List Token} {found : List Port}
    (h : s.step k rest = .ok (t, found)) :
    s.feed (k :: rest) = (t.feed rest).map fun x => (x.1, found ++ x.2) := by
  rw [feed, h]
  rcases hf : t.feed rest with e | ⟨u, ps⟩ <;> simp [bind, Except.bind, hf] <;> rfl

theorem PortContext.feed_of_quiet_step {k : Token} {rest : List Token}
    (h : s.step k rest = .ok (t, [])) : s.feed (k :: rest) = t.feed rest := by
  rw [feed_of_step h]
  rcases t.feed rest with e | ⟨u, ps⟩ <;> rfl

theorem takes_of_step {k : Token} {found : List Port}
    (h : ∀ rest, rest <+: later → s.step k rest = .ok (t, found)) :
    Takes PortContext.feed s [k] later t found :=
  fun rest hrest => PortContext.feed_of_step (h rest hrest)

theorem takes_direction (d : Direction) :
    Takes PortContext.feed s [.word d.keyword] later ⟨some d, none, true⟩ [] :=
  takes_of_step fun rest _ => by simp [PortContext.step]

/-- A word that names no direction changes nothing before a direction was given. -/
theorem takes_wordBefore {w : Text} (hw : Direction.ofKeyword? w = none)
    (hs : s.direction = none) : Takes PortContext.feed s [.word w] later s [] :=
  takes_of_step fun rest _ => by simp [PortContext.step, hw, hs]

theorem takes_type {w : Text} (hw : w ∈ portTypeKeywords) :
    Takes PortContext.feed s [.word w] later s [] := by
  have hd : Direction.ofKeyword? w = none := by
    have : ∀ v ∈ portTypeKeywords, Direction.ofKeyword? v = none := by decide
    exact this w hw
  refine takes_of_step fun rest _ => ?_
  rcases hs : s.direction with _ | d <;>
    simp [PortContext.step, hd, hs, PortContext.isPortName, hw]

theorem takes_portComma : Takes PortContext.feed s [.comma] later
    { s with expectsName := s.direction.isSome || s.expectsName } [] :=
  takes_of_step fun _ _ => rfl

theorem takes_portClose : Takes PortContext.feed s [.closeParen] later {} [] :=
  takes_of_step fun _ _ => rfl

theorem takes_portEnd : Takes PortContext.feed s [.semicolon] later {} [] :=
  takes_of_step fun _ _ => rfl

theorem takes_portOpen : Takes PortContext.feed s [.openParen] later s [] :=
  takes_of_step fun _ _ => rfl

/-- Outside a port list only a direction changes anything. -/
theorem portFeed_idle : ∀ {phrase : List Token},
    (∀ w, .word w ∈ phrase → Direction.ofKeyword? w = none) →
    ∀ rest, PortContext.feed {} (phrase ++ rest) = PortContext.feed {} rest
  | [], _, _ => rfl
  | k :: phrase, h, rest => by
    have hstep : PortContext.step {} k (phrase ++ rest) = .ok ({}, []) := by
      cases k with
      | word w => simp [PortContext.step, h w (by simp)]
      | range | hash | openParen | closeParen | comma | semicolon | equals | other => rfl
    rw [List.cons_append, PortContext.feed_of_quiet_step hstep]
    exact portFeed_idle (fun w hw => h w (List.mem_cons_of_mem _ hw)) rest

theorem run_portIdle {ps : List (List Token)}
    (h : ∀ phrase ∈ ps, ∀ w, .word w ∈ phrase → Direction.ofKeyword? w = none) :
    Run PortContext.feed later {} ps {} [] :=
  .of_still fun phrase hp _ => takes_of_feed_eq (portFeed_idle (h phrase hp))

theorem run_types : ∀ {types : List Text}, (∀ w ∈ types, w ∈ portTypeKeywords) →
    Run PortContext.feed later s (types.map fun w => [.word w]) s []
  | types, h => .of_still fun phrase hp later => by
    obtain ⟨w, hw, rfl⟩ := List.mem_map.1 hp
    exact takes_type (h w hw)

/-- The ranges of a declaration are gathered into its width. -/
theorem run_ranges {d : Direction} : ∀ (gs : List Text) (width : Option Text),
    Run PortContext.feed later ⟨some d, width, true⟩ (gs.map fun g => [.range g])
      ⟨some d, if gs = [] then width else some (width.getD [] ++ gs.flatten), true⟩ []
  | [], _ => .nil _
  | g :: gs, width => by
    have hg : Takes PortContext.feed ⟨some d, width, true⟩ [.range g]
        ((gs.map fun g => [Token.range g]).flatten ++ later)
        ⟨some d, some (width.getD [] ++ g), true⟩ [] := takes_of_step fun _ _ => rfl
    have hrun := Run.cons hg (run_ranges gs (some (width.getD [] ++ g)))
    by_cases h : gs = []
    · simpa [h] using hrun
    · simpa [h] using hrun

theorem run_width {p : Port} (hp : p.WellFormed) {d : Direction} :
    Run PortContext.feed later ⟨some d, none, true⟩
      ((p.width.elim [] fun w => tokens w.text).map fun k => [k])
      ⟨some d, p.width.map Width.text, true⟩ [] := by
  rcases hw : p.width with _ | w
  · exact .nil _
  · obtain ⟨gs, hne, hgs, hg⟩ := (hp.width w hw).ranges
    have hrun : Run PortContext.feed later ⟨some d, none, true⟩ (gs.map fun g => [.range g]) _ [] :=
      run_ranges gs none
    rw [if_neg hne] at hrun
    simpa [hgs, tokens_flatten hg, Function.comp_def] using hrun

theorem takes_portName {p : Port} (hp : p.WellFormed) (hl : EndsEntry later) :
    Takes PortContext.feed ⟨some p.direction, p.width.map Width.text, true⟩ [.word p.identifier] later
      ⟨some p.direction, p.width.map Width.text, false⟩ [p.readBack] := by
  refine takes_of_step fun rest hrest => ?_
  have hname : PortContext.isPortName p.identifier rest = true := by
    simp [PortContext.isPortName, hp.no_type, hp.identifier,
      (hl.of_prefix hrest).isTypePosition_eq]
  have hwidth : (p.width.map Width.text).map Width.ofToken = p.readBack.width := by
    rcases hw : p.width with _ | w
    · simp [Port.readBack, hw]
    · simp [Port.readBack, hw, (hp.width w hw).ofToken_eq]
  simp only [PortContext.step, hp.no_direction, hname, Bool.and_self, if_true, hwidth,
    Port.create_of_solid p.direction _ p.solid]
  rfl

theorem run_portPhrases {types : List Text} (ht : ∀ w ∈ types, w ∈ portTypeKeywords) {p : Port}
    (hp : p.WellFormed) (hl : EndsEntry later) : ∃ t,
      Run PortContext.feed later s (portPhrases types p) t [p.readBack] := by
  have hname := Run.single (takes_portName hp hl)
  have hrest := ((run_types ht).append (run_width hp)).append hname
  exact ⟨_, .cons (takes_direction p.direction) hrest⟩

/-- A port list declares its ports, whatever stands before it. -/
theorem run_portList {ps : List (List Text × Port)}
    (h : ∀ p ∈ ps, (∀ w ∈ p.1, w ∈ portTypeKeywords) ∧ p.2.WellFormed) (hl : EndsEntry later)
    (s : PortContext) :
    ∃ t, Run PortContext.feed later s (separated (ps.map fun p => portPhrases p.1 p.2)) t
      (ps.map fun p => p.2.readBack) := by
  have hentry : ∀ p ∈ ps, ∀ (s : PortContext) (later : List Token), True → EndsEntry later →
      ∃ t, True ∧ Run PortContext.feed later s (portPhrases p.1 p.2) t [p.2.readBack] := by
    intro p hp s later _ hl
    obtain ⟨t, ht⟩ := run_portPhrases (h p hp).1 (h p hp).2 hl
    exact ⟨t, trivial, ht⟩
  have hrun := run_separated (fun _ _ _ => ⟨_, trivial, takes_portComma⟩) hl hentry s trivial
  rwa [← List.map_eq_flatMap] at hrun

end Ports

end HdlScaffold.Header
