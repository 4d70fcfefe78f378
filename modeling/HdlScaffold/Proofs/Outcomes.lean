import HdlScaffold.Proofs.Regeneration
import HdlScaffold.Proofs.SourceLines

/-!
# How reading a source ends

The lines of a source that can be read settle what comes of them (`Module.exists_verdict`): no header
is among them, or a header with both its blocks is, and then nothing behind these lines matters, or a
block is still open where they end. In the last case, and only then, an error names a line, and it is
the number of all lines of the source. No other error comes up, apart from a line that is no text
(`Module.ofSource?_outcomes`).
-/

namespace HdlScaffold

section Headers

/-- The line begins, perhaps behind blanks, with the keyword of a module and a name. -/
def Text.IsHeader (l : Text) : Prop :=
  ∃ margin gap name rest : Text, l = margin ++ ("module".toList ++ (gap ++ (name ++ rest))) ∧
    (∀ c ∈ margin, isBlank c = true) ∧ gap ≠ [] ∧ (∀ c ∈ gap, isBlank c = true) ∧
    isModuleName name = true

theorem isNameChar_head?_dropWhile (t : Text) :
    ∀ c ∈ (t.dropWhile isNameChar).head?, isNameChar c = false := by
  intro c hc
  have h := List.head?_dropWhile_not isNameChar t
  rwa [Option.mem_def.1 hc] at h

theorem eq_of_takeName? {t name rest : Text} (h : takeName? t = some (name, rest)) :
    t = name ++ rest ∧ isModuleName name = true ∧ ∀ c ∈ rest.head?, isNameChar c = false := by
  have hname := Header.isModuleName_of_takeName? h
  rcases t with _ | ⟨c, t⟩
  · simp [takeName?] at h
  · rw [takeName?, Option.ite_none_right_eq_some] at h
    obtain ⟨rfl, rfl⟩ := Prod.mk.inj (Option.some.inj h.2)
    refine ⟨?_, hname, isNameChar_head?_dropWhile t⟩
    rw [List.cons_append, List.takeWhile_append_dropWhile]

theorem exists_blanks_trimStart (t : Text) :
    ∃ blanks, t = blanks ++ t.trimStart ∧ ∀ c ∈ blanks, isBlank c = true :=
  ⟨t.takeWhile isBlank, (List.takeWhile_append_dropWhile).symm, fun _ hc => List.mem_takeWhile_imp hc⟩

theorem isSome_headerName?_iff {l : Text} : (headerName? l).isSome = true ↔ l.IsHeader := by
  constructor
  · intro h
    obtain ⟨name, h⟩ := Option.isSome_iff_exists.1 h
    simp only [headerName?, afterKeyword?, Option.bind_eq_bind, Option.bind_eq_some_iff] at h
    obtain ⟨rest, ⟨⟨keyword, rest'⟩, hkeyword, hrest⟩, ⟨name', after⟩, hname, -⟩ := h
    rw [Option.ite_none_right_eq_some] at hrest
    obtain ⟨rfl, hrest⟩ := hrest
    obtain rfl := Option.some.inj hrest
    obtain ⟨hl, -, hnot⟩ := eq_of_takeName? hkeyword
    obtain ⟨hr, hmodule, -⟩ := eq_of_takeName? hname
    obtain ⟨margin, hmargin, hblank⟩ := exists_blanks_trimStart l
    obtain ⟨gap, hgap, hblank'⟩ := exists_blanks_trimStart rest'
    refine ⟨margin, gap, name', after, by rw [← hr, ← hgap, ← hl, ← hmargin], hblank, ?_, hblank',
      hmodule⟩
    -- without blanks between them, the keyword would run on into the name
    rintro rfl
    rw [List.nil_append] at hgap
    rw [← hgap] at hr
    rcases name' with _ | ⟨c, name'⟩
    · simp [isModuleName] at hmodule
    · have hc := hnot c (by rw [hr]; rfl)
      rw [isNameChar_of_mem hmodule c (by simp)] at hc
      simp at hc
  · rintro ⟨margin, gap, name, rest, rfl, hmargin, hne, hgap, hname⟩
    have hlong : isModuleName (name ++ rest.takeWhile isNameChar) = true := by
      rcases name with _ | ⟨c, name⟩
      · simp [isModuleName] at hname
      · simp only [isModuleName, List.cons_append, List.all_append, Bool.and_eq_true,
          List.all_eq_true] at hname ⊢
        exact ⟨hname.1, hname.2, fun d hd => List.mem_takeWhile_imp hd⟩
    have hname' : name ++ rest
        = (name ++ rest.takeWhile isNameChar) ++ rest.dropWhile isNameChar := by
      rw [List.append_assoc, List.takeWhile_append_dropWhile]
    rw [hname', headerName?_module hmargin hne hgap hlong (isNameChar_head?_dropWhile rest)]
    rfl

end Headers

/-- What is wrong when a block is open and no further line can be read. -/
def Block.cutOff (block : Block) (line : Nat) (rest : Bytes) : Error :=
  if rest = [] then .unclosed block line else .unreadable .invalidUtf8

theorem LineReader.next_of_undecodable {r : LineReader} (hne : r.remaining ≠ [])
    (h : Text.decode? (firstLine r.remaining) = none) :
    ∃ s, r.next = (.error (.unreadable .invalidUtf8), s) := by
  unfold next
  simp only [Bytes.firstLine_ne_nil hne, if_false, h]
  exact ⟨_, rfl⟩

namespace Header

namespace Reading

variable {α β σ : Type} {step : σ → Text → Except Error (σ ⊕ β)} {rest : Bytes}

theorem Fails.bind {x : Reading α} {f : α → Reading β} {e : Error} {r s : LineReader}
    (h : x.Fails r e s) : (x >>= f).Fails r e s := by
  obtain ⟨notes, hx⟩ := h
  refine ⟨notes, ?_⟩
  rw [bind_of_error (e := e) (by rw [hx]), hx]

theorem until?_of_undecodable (hne : rest ≠ []) (hrest : Text.decode? (firstLine rest) = none) :
    ∀ {ls : List Text} {s s' : σ} {r : LineReader}, r.Before ls rest → Through step s ls s' →
      ∃ t, (until? step s).Fails r (.unreadable .invalidUtf8) t
  | [], s, s', r, h, _ => by
    have hremaining : r.remaining = rest := h.begins
    obtain ⟨t, ht⟩ := LineReader.next_of_undecodable (hremaining ▸ hne) (hremaining ▸ hrest)
    exact ⟨t, [], until?_of_next_error ht⟩
  | l :: ls, s, s', r, h, ⟨u, hu, hs⟩ => by
    obtain ⟨t, notes, ih⟩ := until?_of_undecodable hne hrest h.handOut hs
    refine ⟨t, notes, ?_⟩
    rw [until?_of_next_some (LineReader.next_of_before h), hu]
    exact ih

/-- A search that goes on over all the lines there are leaves its block cut off. -/
theorem exists_fails_of_through {f : Option (β × Nat) → Reading α} {block : Block}
    (hf : f none = unclosed block) (hend : rest.EndsText) {ls : List Text} {s s' : σ}
    {r : LineReader} (h : r.Before ls rest) (hs : Through step s ls s') :
    ∃ t, (until? step s >>= f).Fails r (block.cutOff (r.lineNumber + ls.length) rest) t := by
  by_cases hrest : rest = []
  · subst hrest
    refine ⟨r.pass ls, (until?_of_end h hs).bind_fails ?_⟩
    rw [hf]
    exact fails_unclosed block (r.pass ls)
  · obtain ⟨t, ht⟩ := until?_of_undecodable hrest (hend.resolve_left hrest) h hs
    rw [Block.cutOff, if_neg hrest]
    exact ⟨t, ht.bind⟩

/-- From the states with the property, the step fails on no line, and what it goes on with has the
property again. -/
def Sure (step : σ → Text → Except Error (σ ⊕ β)) (I : σ → Prop) : Prop :=
  ∀ s l, I s → ∃ x, step s l = .ok x ∧ ∀ s', x = .inl s' → I s'

/-- A search that cannot fail stops on one of the lines, or goes on over all of them. -/
theorem Sure.stops_or_through {I : σ → Prop} (h : Sure step I) : ∀ (ls : List Text) {s : σ}, I s →
    (∃ pre l post s' b, ls = pre ++ l :: post ∧ Through step s pre s' ∧ step s' l = .ok (.inr b)) ∨
      ∃ s', Through step s ls s'
  | [], s, _ => Or.inr ⟨s, rfl⟩
  | l :: ls, s, hs => by
    obtain ⟨u | b, hstep, hu⟩ := h s l hs
    · rcases h.stops_or_through ls (hu u rfl) with ⟨pre, k, post, s', b, rfl, hpre, hk⟩ | ⟨s', hls⟩
      · exact Or.inl ⟨l :: pre, k, post, s', b, rfl, ⟨u, hstep, hpre⟩, hk⟩
      · exact Or.inr ⟨s', u, hstep, hls⟩
    · exact Or.inl ⟨[], l, ls, s, b, rfl, rfl, hstep⟩

/-- On these lines the reading answers `a` and passes `pre`, whatever comes behind the lines. -/
def Settles (x : Reading α) (ls : List Text) (a : α) (pre : List Text) : Prop :=
  ∀ r rest, r.Before ls rest → x.Yields r a (r.pass pre)

/-- Behind these lines the block is still open. -/
def RunsOut (x : Reading α) (block : Block) (ls : List Text) : Prop :=
  ∀ r rest, r.Before ls rest → rest.EndsText →
    ∃ s, x.Fails r (block.cutOff (r.lineNumber + ls.length) rest) s

end Reading

open Reading

theorem seek_settles_or_runsOut {α σ : Type} {block : Block} {opens? : Text → Option Bool}
    {gather : σ → Text → Except Error (σ ⊕ List α)} {start : σ} {absent ends : Nat → Note}
    {I : σ → Prop} (hgather : Sure gather I) (hstart : I start) (ls : List Text) :
    (∃ as pre post, ls = pre ++ post ∧
      (seek block opens? gather start absent ends).Settles ls as pre) ∨
    (seek block opens? gather start absent ends).RunsOut block ls := by
  rcases h : ls.findSome? opens? with _ | opening
  · refine Or.inr fun r rest hr hend => ?_
    exact exists_fails_of_through rfl hend hr (through_of_none (List.findSome?_eq_none_iff.1 h))
  · obtain ⟨pre, l, post, rfl, hl, hpre⟩ := List.findSome?_eq_some_iff.1 h
    cases opening with
    | false => exact Or.inl ⟨[], pre, l :: post, rfl, fun r rest hr => seek_of_absent pre hr hpre hl⟩
    | true =>
      rcases hgather.stops_or_through (l :: post) hstart with
        ⟨mid, k, post', s, as, hsplit, hmid, hk⟩ | ⟨s, hthrough⟩
      · refine Or.inl ⟨as, pre ++ mid, k :: post', by rw [hsplit, List.append_assoc], ?_⟩
        intro r rest hr
        rw [hsplit] at hr
        refine seek_of_through pre mid hr hpre (fun j hj => ?_) hmid hk
        rw [← @head?_append_cons _ mid post' k, ← hsplit] at hj
        rwa [← Option.some.inj hj]
      · refine Or.inr fun r rest hr hend => ?_
        have hcount : r.lineNumber + (pre ++ l :: post).length
            = (r.pass pre).lineNumber + (l :: post).length := by
          rw [List.length_append, ← Nat.add_assoc]
          rfl
        rw [hcount]
        refine Exists.imp (fun t => (find?_of_before hr hpre hl).bind_fails) ?_
        exact exists_fails_of_through rfl hend hr.pass hthrough

theorem sure_gatherParameters : Sure gatherParameters fun _ => True := by
  rintro ⟨s, acc⟩ l -
  obtain ⟨u, ps, hfeed, -⟩ := s.exists_feed (t := beforeComment l) List.infix_rfl
  exact ⟨_, gatherParameters_eq hfeed, fun _ _ => trivial⟩

theorem sure_gatherPorts : Sure gatherPorts fun s => s.2.1.Sound := by
  rintro ⟨b, s, acc⟩ l hs
  obtain ⟨u, ps, hfeed, hu, -⟩ :=
    PortContext.exists_feed hs (lexed_of_mem_tokens (beforeComment l))
  refine ⟨_, gatherPorts_eq hfeed, fun s' hs' => ?_⟩
  split_ifs at hs'
  obtain rfl := Sum.inl.inj hs'
  exact hu

theorem parameterBlock_settles_or_runsOut (ls : List Text) :
    (∃ ps pre post, ls = pre ++ post ∧ parameterBlock.Settles ls ps pre) ∨
      parameterBlock.RunsOut .parameter ls := by
  rw [parameterBlock_eq_seek]
  exact seek_settles_or_runsOut sure_gatherParameters trivial ls

theorem portBlock_settles_or_runsOut (ls : List Text) :
    (∃ ps pre post, ls = pre ++ post ∧ portBlock.Settles ls ps pre) ∨
      portBlock.RunsOut .port ls := by
  rw [portBlock_eq_seek]
  exact seek_settles_or_runsOut sure_gatherPorts (by simp [PortContext.Sound]) ls

/-- One of the two blocks fails. -/
def BlocksFail (r : LineReader) (e : Error) : Prop :=
  (∃ s, parameterBlock.Fails r e s) ∨
    ∃ ps s t, parameterBlock.Yields r ps s ∧ portBlock.Fails s e t

theorem blocks_settle_or_runOut (ls : List Text) :
    (∃ ps qs, ∀ r rest, r.Before ls rest →
      ∃ s t, parameterBlock.Yields r ps s ∧ portBlock.Yields s qs t) ∨
    ∃ block : Block, ∀ r rest, r.Before ls rest → rest.EndsText →
      BlocksFail r (block.cutOff (r.lineNumber + ls.length) rest) := by
  rcases parameterBlock_settles_or_runsOut ls with ⟨ps, pre, post, rfl, hps⟩ | hout
  · rcases portBlock_settles_or_runsOut post with ⟨qs, mid, post', -, hqs⟩ | hout
    · exact Or.inl ⟨ps, qs, fun r rest hr => ⟨_, _, hps r rest hr, hqs _ rest hr.pass⟩⟩
    · refine Or.inr ⟨.port, fun r rest hr hend => Or.inr ?_⟩
      obtain ⟨t, ht⟩ := hout _ rest hr.pass hend
      rw [List.length_append, ← Nat.add_assoc]
      exact ⟨ps, _, t, hps r rest hr, ht⟩
  · exact Or.inr ⟨.parameter, fun r rest hr hend => Or.inl (hout r rest hr hend)⟩

end Header

namespace Module

theorem exists_create {name : Text} (h : isModuleName name = true) (ps : List Parameter)
    (qs : List Port) : ∃ m, create name ps qs = .ok m := by
  have hne : name.trim ≠ [] := by
    rw [trim_of_isModuleName h]
    exact ne_nil_of_isIdentifier (isIdentifier_of_isModuleName h)
  exact ⟨_, dif_neg hne⟩

/-- What the lines of a source that can be read come to. -/
inductive Verdict where
  | noHeader
  | found (m : Module)
  | cutOff (block : Block)

/-- The answer on a source with so many readable lines, followed by `rest`. -/
def Verdict.answer (lines : Nat) (rest : Bytes) : Verdict → Except Error (Option Module)
  | noHeader => if rest = [] then .ok none else .error (.unreadable .invalidUtf8)
  | found m => .ok (some m)
  | cutOff block => .error (block.cutOff lines rest)

open Header Reading

variable {source rest : Bytes} {pre post : List Text} {l name : Text}

theorem ofSource?_of_yields {found : Option Module} {s : LineReader}
    (h : firstModule?.Yields (.ofBytes source) found s) : ofSource? source = .ok found := by
  obtain ⟨notes, h⟩ := h
  rw [ofSource?, h]

theorem ofSource?_of_fails {e : Error} {s : LineReader}
    (h : firstModule?.Fails (.ofBytes source) e s) : ofSource? source = .error e := by
  obtain ⟨notes, h⟩ := h
  rw [ofSource?, h]

theorem ofSource?_of_noHeader {ls : List Text} (h : BeginsWith source ls rest)
    (hls : ∀ k ∈ ls, headerName? k = none) (hend : rest.EndsText) :
    ofSource? source = Verdict.noHeader.answer ls.length rest := by
  have hr := LineReader.ofBytes_before h
  by_cases hrest : rest = []
  · subst hrest
    rw [Verdict.answer, if_pos rfl]
    exact ofSource?_of_yields ((yields_restart _).bind ((find?_of_end hr hls).bind
      ((yields_note _ _).bind (yields_pure _ _))))
  · obtain ⟨t, ht⟩ :=
      until?_of_undecodable hrest (hend.resolve_left hrest) hr (through_of_none hls)
    rw [Verdict.answer, if_neg hrest]
    exact ofSource?_of_fails ((yields_restart _).bind_fails (Fails.bind ht))

theorem ofSource?_of_blocksFail (h : BeginsWith source (pre ++ l :: post) rest)
    (hpre : ∀ k ∈ pre, headerName? k = none) (hl : headerName? l = some name) {e : Error}
    (hblocks : BlocksFail ((LineReader.ofBytes source).pass pre) e) :
    ofSource? source = .error e := by
  have hfind := find?_of_before (LineReader.ofBytes_before h) hpre hl
  rcases hblocks with ⟨s, hps⟩ | ⟨ps, s, t, hps, hqs⟩
  · exact ofSource?_of_fails ((yields_restart _).bind_fails (hfind.bind_fails
      ((yields_note _ _).bind_fails hps.bind)))
  · exact ofSource?_of_fails ((yields_restart _).bind_fails (hfind.bind_fails
      ((yields_note _ _).bind_fails (hps.bind_fails hqs.bind))))

/-- Lines come to the same thing behind any lines that are no headers, and a module that was found is
found whatever comes behind the lines. -/
theorem exists_verdict (ls : List Text) : ∃ v : Verdict,
    (v = .noHeader ↔ ∀ l ∈ ls, headerName? l = none) ∧
    ∀ (front : List Text) (source rest : Bytes), (∀ l ∈ front, headerName? l = none) →
      BeginsWith source (front ++ ls) rest → rest.EndsText ∨ (∃ m, v = .found m) →
      ofSource? source = v.answer (front ++ ls).length rest := by
  rcases h : ls.findSome? headerName? with _ | name
  · have hnone := List.findSome?_eq_none_iff.1 h
    refine ⟨.noHeader, iff_of_true rfl hnone, fun front source rest hfront hbegins hend => ?_⟩
    exact ofSource?_of_noHeader hbegins (List.forall_mem_append.2 ⟨hfront, hnone⟩)
      (hend.resolve_right (by simp))
  · obtain ⟨pre, l, post, rfl, hl, hpre⟩ := List.findSome?_eq_some_iff.1 h
    have hheader : ¬ ∀ k ∈ pre ++ l :: post, headerName? k = none := fun hall => by
      simp [hall l (by simp)] at hl
    rcases blocks_settle_or_runOut (l :: post) with ⟨ps, qs, hblocks⟩ | ⟨block, hblocks⟩
    · obtain ⟨m, hm⟩ := exists_create (isModuleName_of_headerName? hl) ps qs
      refine ⟨.found m, iff_of_false (by simp) hheader, fun front source rest hfront hbegins _ => ?_⟩
      rw [← List.append_assoc] at hbegins
      obtain ⟨s, t, hps, hqs⟩ := hblocks _ rest (LineReader.ofBytes_before hbegins).pass
      exact ofSource?_of_yields (firstModule?_of_blocks hbegins
        (List.forall_mem_append.2 ⟨hfront, hpre⟩) hl hps hqs hm)
    · refine ⟨.cutOff block, iff_of_false (by simp) hheader,
        fun front source rest hfront hbegins hend => ?_⟩
      rw [← List.append_assoc] at hbegins ⊢
      have hfail := hblocks _ rest (LineReader.ofBytes_before hbegins).pass
        (hend.resolve_right (by simp))
      have hcount : ((LineReader.ofBytes source).pass (front ++ pre)).lineNumber + (l :: post).length
          = (front ++ pre ++ l :: post).length := by
        simp [LineReader.pass, LineReader.ofBytes, Nat.add_assoc]
      rw [hcount] at hfail
      exact ofSource?_of_blocksFail hbegins (List.forall_mem_append.2 ⟨hfront, hpre⟩) hl hfail

/-- Nothing can go wrong in reading the first module of a source but a line that is no text and a block
that the source does not close. -/
theorem ofSource?_outcomes (source : Bytes) :
    (∀ description refusal, ofSource? source ≠ .error (.invalidSpec description refusal)) ∧
    (∀ cause, ofSource? source ≠ .error (.unwritable cause)) ∧
    (∀ cause, ofSource? source = .error (.unreadable cause) →
      ∃ b ∈ source.lines, Text.decode? b = none) ∧
    (ofSource? source = .ok none ↔
      ∀ b ∈ source.lines, ∃ l, Text.decode? b = some l ∧ ¬ l.IsHeader) ∧
    ∀ block line, ofSource? source = .error (.unclosed block line) →
      (∀ b ∈ source.lines, (Text.decode? b).isSome = true) ∧
      (∃ b ∈ source.lines, ∃ l, Text.decode? b = some l ∧ l.IsHeader) ∧
      line = source.lines.length := by
  obtain ⟨ls, rest, hbegins, hend, hlines⟩ := Bytes.exists_readable source
  obtain ⟨v, hnone, hverdict⟩ := exists_verdict ls
  have hanswer : ofSource? source = v.answer ls.length rest :=
    hverdict [] source rest (by simp) hbegins (Or.inl hend)
  have hquiet : (∀ b ∈ source.lines, ∃ l, Text.decode? b = some l ∧ ¬ l.IsHeader) ↔
      rest = [] ∧ v = .noHeader := by
    rw [Bytes.forall_lines_iff hend hlines, hnone]
    simp only [← isSome_headerName?_iff, Option.not_isSome_iff_eq_none]
  rw [hanswer, hquiet]
  by_cases hrest : rest = []
  · subst hrest
    rw [Bytes.lines_nil, List.append_nil] at hlines
    cases v with
    | noHeader => simp [Verdict.answer]
    | found m => simp [Verdict.answer]
    | cutOff block =>
      obtain ⟨l, hl, hheader⟩ : ∃ l ∈ ls, ¬ headerName? l = none := by
        simpa only [reduceCtorEq, false_iff, not_forall, exists_prop] using hnone
      simp only [Verdict.answer, Block.cutOff, if_true, reduceCtorEq, ne_eq, not_false_iff,
        Except.error.injEq, Error.unclosed.injEq, implies_true, true_and, and_false, false_imp_iff]
      rintro - line ⟨-, rfl⟩
      refine ⟨?_, ⟨l.encode, ?_, l, l.decode?_encode, ?_⟩, ?_⟩
      · rw [hlines]
        simp
      · rw [hlines]
        exact List.mem_map_of_mem hl
      · exact isSome_headerName?_iff.1 (Option.isSome_iff_ne_none.2 hheader)
      · rw [hlines, List.length_map]
  · have hbad := Bytes.exists_undecodable hend hlines hrest
    cases v with
    | noHeader | cutOff => simp [Verdict.answer, Block.cutOff, hrest, hbad]
    | found m => simp [Verdict.answer, hrest]

/-- A header whose ports are not closed. -/
def openHeader : Bytes := Text.encode "module m #(\nparameter A = 1\n) (input a,\n".toList

theorem ofSource?_openHeader : ofSource? openHeader = .error (.unclosed .port 3) := by
  have hread : (ofSource? openHeader).map Option.isSome = .error (.unclosed .port 3) := by
    decide +kernel
  rcases h : ofSource? openHeader with e | found <;> rw [h] at hread
  · rw [Except.error.inj hread]
  · simp [Except.map] at hread

theorem ofSource?_outcomes_openHeader :
    ofSource? openHeader = .error (.unclosed .port 3) ∧
    (∃ b ∈ openHeader.lines, ∃ l, Text.decode? b = some l ∧ l.IsHeader) ∧
    openHeader.lines.length = 3 := by
  obtain ⟨-, -, -, -, hunclosed⟩ := ofSource?_outcomes openHeader
  obtain ⟨-, hheader, hline⟩ := hunclosed .port 3 ofSource?_openHeader
  exact ⟨ofSource?_openHeader, hheader, hline.symm⟩

end Module

end HdlScaffold
