import HdlScaffold.Proofs.Writing

/-!
# Headers in any layout

A header says the same however it is laid out: where the phrases of its lists stand on one line or on
many, and which of the parentheses share a line, makes no difference to the module that is read
(`Module.ofSource?_of_laidOut`). The row that closes the parameter list is read for both lists, which
is why each list has to be idle for the other.
-/

namespace HdlScaffold

open Header

section ParameterBlock

variable {r : LineReader} {rest : Bytes} {rows : List Row} {name : Text} {R : List (List Token)}

/-- The name of the module opens and ends nothing. -/
theorem quiet_modulePhrase (hname : isModuleName name = true) {g : List (List Token)} {l : Text}
    (h : RowText g l) (hg : ∀ p ∈ g, p = modulePhrase name) :
    ∀ c ∈ l, c ≠ '(' ∧ c ≠ ')' ∧ c ≠ ';' := by
  have hchars : ∀ k ∈ modulePhrase name, ∀ c ∈ k.text, isNameChar c = true := by
    intro k hk
    rcases List.mem_cons.1 hk with rfl | hk
    · decide
    · rw [List.mem_singleton.1 hk]
      exact isNameChar_of_mem hname
  intro c hc
  have hnot : isNameChar c = false → isBlank c = true := by
    intro hn
    by_contra hb
    obtain ⟨p, hp, k, hk, hck⟩ := (h.mem_iff (by simpa using hb)).1 hc
    rw [hg p hp] at hk
    simp [hchars k hk c hck] at hn
  refine ⟨?_, ?_, ?_⟩ <;> rintro rfl <;> exact absurd (hnot (by decide)) (by decide)

theorem parametersOpen?_modulePhrase (hname : isModuleName name = true) {g : List (List Token)}
    {l : Text} (h : RowText g l) (hg : ∀ p ∈ g, p = modulePhrase name) :
    parametersOpen? l = none := by
  rw [parametersOpen?_eq, Delimiters.ofText,
    Delimiters.addAll_of_quiet (quiet_modulePhrase hname h hg)]
  rfl

theorem parametersOpen?_opening {x y : List (List Token)} {l : Text}
    (h : RowText (x ++ [.hash, .openParen] :: y) l) : parametersOpen? l = some true := by
  obtain ⟨a, u, b, rfl, -, hu, -⟩ := h.split
  rw [hu.opening, parametersOpen?_eq]
  exact if_pos Delimiters.ofText_opensParameters

theorem parameter_not_mem_modulePhrase (hkey : name ∉ headerKeywords) :
    .word "parameter".toList ∉ modulePhrase name := by
  intro h
  rcases List.mem_cons.1 h with h | h
  · exact absurd h (by decide)
  · have hn : "parameter".toList = name := Token.word.inj (List.mem_singleton.1 h)
    exact hkey (hn ▸ by decide)

/-- The rows of a parameter list, whatever stands before and behind it on them. -/
theorem run_parameterRows {ps : List Parameter} (hps : ∀ p ∈ ps, p.WellFormed)
    {x y : List (List Token)} (hx : ∀ p ∈ x, .word "parameter".toList ∉ p)
    (hy : ∀ p ∈ y, .word "parameter".toList ∉ p) :
    Run ParameterContext.feed [] {} (x ++ [.hash, .openParen] ::
      (separated (ps.map parameterPhrases) ++ [.closeParen] :: y)) {} ps := by
  have hends : EndsEntry (([.closeParen] :: y).flatten ++ []) := fun k hk =>
    Or.inr (Option.some.inj hk).symm
  obtain ⟨t, ht⟩ := run_parameterList hps hends {}
  have hclose : Run ParameterContext.feed [] t ([.closeParen] :: y) {} ([] ++ []) :=
    .cons takes_parameterClose (run_parameterIdle hy)
  have hlist := ht.append hclose
  rw [List.append_nil, List.append_nil] at hlist
  exact (run_parameterIdle hx).append (.cons takes_parameterOpen hlist)

/-- The parameters of the rows from the one that opens the list to the one that closes it. -/
theorem parameterBlock_of_gathered {pre mid post : List Row} {l : Row}
    (hbefore : r.Before ((pre ++ (mid ++ l :: post)).map Row.text) rest)
    (hsound : ∀ k ∈ mid ++ [l], k.Sound) (hpre : ∀ k ∈ pre, parametersOpen? k.text = none)
    (hopen : ∀ k ∈ (mid ++ [l]).head?, parametersOpen? k.text = some true)
    (hmid : ∀ k ∈ mid, [.closeParen] ∉ k.phrases) (hl : [.closeParen] ∈ l.phrases)
    {t : ParameterContext} {ps : List Parameter}
    (hrun : Run ParameterContext.feed [] {} ((mid ++ [l]).flatMap Row.phrases) t ps) :
    parameterBlock.Yields r ps (r.pass ((pre ++ mid).map Row.text)) := by
  have hend : ∀ k ∈ mid ++ [l], parametersEnd k.text = decide ([.closeParen] ∈ k.phrases) := by
    intro k hk
    rw [parametersEnd_eq, decide_eq_decide]
    exact k.written.closeParen_mem_iff (hsound k hk).phrases
  have hfeed := feedLines_of_run parameterFeed_nil hsound hrun
  rw [List.map_append, List.map_singleton] at hfeed
  rw [List.map_append, List.map_append, List.map_cons] at hbefore
  rw [List.map_append]
  refine parameterBlock_of_lines _ _ hbefore ?_ ?_ ?_ ?_ hfeed
  · simpa using hpre
  · rw [← List.map_singleton, ← List.map_append, List.head?_map]
    simpa using hopen
  · intro u hu
    obtain ⟨k, hk, rfl⟩ := List.mem_map.1 hu
    rw [hend k (List.mem_append_left _ hk), decide_eq_false_iff_not]
    exact hmid k hk
  · rw [hend l (by simp), decide_eq_true_iff]
    exact hl

/-- A parameter list is read from the row that opens it to the row that closes it. -/
theorem parameterBlock_of_list {ps : List Parameter} (hname : isModuleName name = true)
    (hkey : name ∉ headerKeywords) (hps : ∀ p ∈ ps, p.WellFormed)
    (hbefore : r.Before (rows.map Row.text) rest) (hsound : ∀ x ∈ rows, x.Sound)
    (hrows : rows.flatMap Row.phrases = modulePhrase name :: (parameterList (some ps) ++ R))
    (hR : ∀ p ∈ R, .word "parameter".toList ∉ p) :
    ∃ pre post lead, rows = pre ++ post ∧ lead <:+ modulePhrase name :: parameterList (some ps) ∧
      post.flatMap Row.phrases = lead ++ R ∧
      parameterBlock.Yields r ps (r.pass (pre.map Row.text)) := by
  have hplain := not_mem_of_plain (plain_parameters hps)
  have hmodule : [.hash, .openParen] ∉ [modulePhrase name] ∧ [.openParen] ∉ [modulePhrase name] ∧
      [.closeParen] ∉ [modulePhrase name] :=
    not_mem_of_plain (by simpa using plain_modulePhrase hname)
  rw [parameterList, List.cons_append, List.append_assoc, List.singleton_append] at hrows
  -- the row that opens the list
  obtain ⟨pre, x, post, y, c, rfl, hy, hx, hpost⟩ := exists_row (x := [modulePhrase name]) hrows hmodule.1
  have hpre : ∀ k ∈ pre, ∀ p ∈ k.phrases, p = modulePhrase name := fun k hk p hp =>
    List.mem_singleton.1 (hy ▸ List.mem_append_left _ (List.mem_flatMap.2 ⟨k, hk, hp⟩))
  have hymodule : ∀ p ∈ y, p = modulePhrase name := fun p hp =>
    List.mem_singleton.1 (hy ▸ List.mem_append_right _ hp)
  -- the row that closes it
  have hopened : (x :: post).flatMap Row.phrases
      = (y ++ [.hash, .openParen] :: separated (ps.map parameterPhrases)) ++ [.closeParen] :: R := by
    rw [List.flatMap_cons, hx, List.append_assoc, List.cons_append, ← hpost]
    simp
  have hunclosed : [.closeParen] ∉ y ++ [.hash, .openParen] :: separated (ps.map parameterPhrases) := by
    simp only [List.mem_append, List.mem_cons, not_or]
    exact ⟨fun hc => hmodule.2.2 (by simp [hymodule _ hc]), by simp, hplain.2.2⟩
  obtain ⟨mid, l, post', z, b, hmid, hz, hl, hR'⟩ := exists_row hopened hunclosed
  refine ⟨pre ++ mid, l :: post', z ++ [[.closeParen]], by rw [List.append_assoc, ← hmid], ?_, ?_, ?_⟩
  · refine ⟨pre.flatMap Row.phrases ++ mid.flatMap Row.phrases, ?_⟩
    show _ = [modulePhrase name] ++ parameterList (some ps)
    rw [parameterList, hy, List.append_assoc, ← List.append_assoc _ z, ← hz]
    simp
  · rw [List.flatMap_cons, hl, hR']
    simp
  · have hhead : (mid ++ [l]).head? = some x := by
      rw [← @head?_append_cons _ mid post' l, ← hmid]
      rfl
    have hphrases : (mid ++ [l]).flatMap Row.phrases = y ++ [.hash, .openParen] ::
        (separated (ps.map parameterPhrases) ++ [.closeParen] :: b) := by
      rw [List.flatMap_append, List.flatMap_singleton, hl, ← List.append_assoc, ← hz]
      simp
    have hidle : ∀ p ∈ y, .word "parameter".toList ∉ p := fun p hp =>
      hymodule p hp ▸ parameter_not_mem_modulePhrase hkey
    have hrun := run_parameterRows hps hidle fun p hp => hR p (hR' ▸ List.mem_append_left _ hp)
    rw [← hphrases] at hrun
    rw [hmid] at hbefore hsound
    refine parameterBlock_of_gathered hbefore (fun k hk => hsound k ?_) (fun k hk => ?_) ?_
      (fun k hk hc => ?_) (by simp [hl]) hrun
    · rcases List.mem_append.1 hk with hk | hk
      · simp [hk]
      · simp [List.mem_singleton.1 hk]
    · exact parametersOpen?_modulePhrase hname k.written (hpre k hk)
    · rw [hhead]
      intro k hk
      obtain rfl := Option.some.inj hk
      exact parametersOpen?_opening (hx ▸ x.written)
    · exact hunclosed (hz ▸ List.mem_append_left _ (List.mem_flatMap.2 ⟨k, hk, hc⟩))

/-- What stands in front of the port list does not end in a hash. -/
theorem getLast?_lead {o : Option (List Parameter)} {lead : List (List Token)}
    (h : lead <:+ modulePhrase name :: parameterList o) : lead.flatten.getLast? ≠ some .hash := by
  rcases List.eq_nil_or_concat lead with rfl | ⟨lead, q, rfl⟩
  · simp
  · rw [List.concat_eq_append] at h ⊢
    have hq : q = modulePhrase name ∨ q = [.closeParen] := by
      obtain ⟨pre, hpre⟩ := h
      rw [← List.append_assoc] at hpre
      have hlast := congrArg List.getLast? hpre
      cases o with
      | none => simpa [parameterList] using Or.inl hlast
      | some ps =>
        rw [parameterList, ← List.cons_append, ← List.cons_append, List.getLast?_concat,
          List.getLast?_concat] at hlast
        exact Or.inr (Option.some.inj hlast)
    rcases hq with rfl | rfl <;> simp [modulePhrase]

/-- A row with the port list's parenthesis or the semicolon and no parameter list opens none. -/
theorem parametersOpen?_of_noList (hname : isModuleName name = true) {p : List Token}
    (hp : p = [.openParen] ∨ p = [.semicolon]) {x : Row} (h : x.Sound) {y b : List (List Token)}
    (hx : x.phrases = y ++ p :: b) (hy : y <:+ modulePhrase name :: parameterList none)
    (hb : [.hash, .openParen] ∉ b ∧ [.openParen] ∉ b) : parametersOpen? x.text = some false := by
  obtain ⟨hphrases, hapart⟩ := h
  rw [hx] at hphrases hapart
  rw [List.flatten_append] at hapart
  have hwritten : RowText (y ++ p :: b) x.text := hx ▸ x.written
  obtain ⟨a, u, t, ht, ha, hu, hbt⟩ := hwritten.split
  have hlast := ha.getLast?_ne (fun q hq => hphrases q (List.mem_append_left _ hq))
    (bracketsApart_of_append hapart).1 (getLast?_lead hy)
  have hopenA : '(' ∉ a := fun hc =>
    (quiet_modulePhrase hname ha (fun q hq => List.mem_singleton.1 (hy.subset hq)) _ hc).1 rfl
  have hopenT : '(' ∉ t := hbt.openParen_not_mem
    (fun q hq => hphrases q (List.mem_append_right _ (List.mem_cons_of_mem _ hq))) hb.1 hb.2
  rw [parametersOpen?_eq, ht]
  rcases hp with rfl | rfl
  · have hu' : u = ['('] := hu.text_eq
    rw [hu', List.singleton_append, Delimiters.ofText_not_opensParameters hopenA hlast hopenT,
      Delimiters.ofText_opensPorts hlast]
    rfl
  · have hu' : u = [';'] := hu.text_eq
    have hnot : (Delimiters.ofText (a ++ (u ++ t))).opensParameters = false :=
      Delimiters.opensParameters_addAll (Or.inl (by simp [hu', hopenA, hopenT])) none
    have hends : (Delimiters.ofText (a ++ (u ++ t))).endsDeclaration = true := by
      rw [Delimiters.ofText, Delimiters.endsDeclaration_addAll]
      simp [hu']
    simp [hnot, hends]

/-- Where the port list or the end of the header comes first, no parameter list is looked for. -/
theorem parameterBlock_of_noList (hname : isModuleName name = true) {p : List Token}
    (hp : p = [.openParen] ∨ p = [.semicolon])
    (hbefore : r.Before (rows.map Row.text) rest) (hsound : ∀ x ∈ rows, x.Sound)
    (hrows : rows.flatMap Row.phrases = modulePhrase name :: p :: R)
    (hR : [.hash, .openParen] ∉ R ∧ [.openParen] ∉ R) :
    ∃ pre post lead, rows = pre ++ post ∧ lead <:+ modulePhrase name :: parameterList none ∧
      post.flatMap Row.phrases = lead ++ p :: R ∧
      parameterBlock.Yields r [] (r.pass (pre.map Row.text)) := by
  have hmodule : p ∉ [modulePhrase name] := by
    rcases hp with rfl | rfl <;> simp [modulePhrase]
  obtain ⟨pre, x, post, y, b, rfl, hy, hx, hpost⟩ := exists_row (x := [modulePhrase name]) hrows hmodule
  have hysuffix : y <:+ modulePhrase name :: parameterList none := ⟨_, hy.symm⟩
  have hpre : ∀ k ∈ pre, ∀ q ∈ k.phrases, q = modulePhrase name := fun k hk q hq =>
    List.mem_singleton.1 (hy ▸ List.mem_append_left _ (List.mem_flatMap.2 ⟨k, hk, hq⟩))
  refine ⟨pre, x :: post, y, rfl, hysuffix, ?_, ?_⟩
  · rw [List.flatMap_cons, hx, hpost]
    simp
  · rw [List.map_append, List.map_cons] at hbefore
    refine parameterBlock_of_absent _ hbefore (fun t ht => ?_) ?_
    · obtain ⟨k, hk, rfl⟩ := List.mem_map.1 ht
      exact parametersOpen?_modulePhrase hname k.written (hpre k hk)
    · exact parametersOpen?_of_noList hname hp (hsound x (by simp)) hx hysuffix
        ⟨fun hq => hR.1 (hpost ▸ List.mem_append_left _ hq),
          fun hq => hR.2 (hpost ▸ List.mem_append_left _ hq)⟩

end ParameterBlock

section PortBlock

variable {r : LineReader} {rest : Bytes} {rows : List Row}

theorem portsOpen?_of_closed {x : Row} (h : x.Sound) (hopen : [.openParen] ∉ x.phrases) :
    portsOpen? x.text = if ';' ∈ x.text then some false else none := by
  have hports : (Delimiters.ofText x.text).opensPorts = false :=
    x.written.opensPorts_addAll h.phrases hopen {} none
  rw [portsOpen?_eq, hports, Delimiters.ofText, Delimiters.endsDeclaration_addAll]
  simp

/-- A semicolon in front of any port list ends the search for one. -/
theorem portBlock_of_semicolon {pre post : List Row}
    (hbefore : r.Before ((pre ++ post).map Row.text) rest) (hsound : ∀ x ∈ pre, x.Sound)
    (hopen : ∀ x ∈ pre, [.openParen] ∉ x.phrases) (hsemicolon : ∃ x ∈ pre, ';' ∈ x.text) :
    ∃ ls, portBlock.Yields r [] (r.pass ls) := by
  obtain ⟨before, x, after, rfl, hx, hnone⟩ := exists_first hsemicolon
  rw [List.append_assoc, List.cons_append, List.map_append, List.map_cons] at hbefore
  refine ⟨_, portBlock_of_absent _ hbefore (fun t ht => ?_) ?_⟩
  · obtain ⟨k, hk, rfl⟩ := List.mem_map.1 ht
    have hmem : k ∈ before ++ x :: after := List.mem_append_left _ hk
    rw [portsOpen?_of_closed (hsound k hmem) (hopen k hmem), if_neg (hnone k hk)]
  · rw [portsOpen?_of_closed (hsound x (by simp)) (hopen x (by simp)), if_pos hx]

/-- The rows of a port list, whatever stands before and behind it on them. -/
theorem run_portRows {qs : List (List Text × Port)}
    (hqs : ∀ p ∈ qs, (∀ w ∈ p.1, w ∈ portTypeKeywords) ∧ p.2.WellFormed) {x y : List (List Token)}
    (hx : ∀ p ∈ x, ∀ w, .word w ∈ p → Direction.ofKeyword? w = none)
    (hy : ∀ p ∈ y, ∀ w, .word w ∈ p → Direction.ofKeyword? w = none) :
    Run PortContext.feed [] {} (x ++ [.openParen] ::
      (separated (qs.map fun p => portPhrases p.1 p.2) ++ [.closeParen] :: y)) {}
      (qs.map fun p => p.2.readBack) := by
  have hends : EndsEntry (([.closeParen] :: y).flatten ++ []) := fun k hk =>
    Or.inr (Option.some.inj hk).symm
  obtain ⟨t, ht⟩ := run_portList hqs hends {}
  have hclose : Run PortContext.feed [] t ([.closeParen] :: y) {} ([] ++ []) :=
    .cons takes_portClose (run_portIdle hy)
  have hlist := ht.append hclose
  rw [List.append_nil, List.append_nil] at hlist
  exact (run_portIdle hx).append (.cons takes_portOpen hlist)

/-- The ports of the rows from the one that opens the list to the one that closes it. -/
theorem portBlock_of_gathered {pre mid post : List Row} {l : Row}
    (hbefore : r.Before ((pre ++ (mid ++ l :: post)).map Row.text) rest)
    (hsound : ∀ k ∈ mid ++ [l], k.Sound) (hpre : ∀ k ∈ pre, portsOpen? k.text = none)
    (hopen : ∀ k ∈ (mid ++ [l]).head?, portsOpen? k.text = some true)
    (hfirst : ∀ k ∈ mid.head?, portsEnd true k.text = false)
    (hmid : ∀ k ∈ mid.tail, portsEnd false k.text = false) (hl : portsEnd mid.isEmpty l.text = true)
    {t : PortContext} {ps : List Port}
    (hrun : Run PortContext.feed [] {} ((mid ++ [l]).flatMap Row.phrases) t ps) :
    portBlock.Yields r ps (r.pass (pre.map Row.text ++ mid.map Row.text)) := by
  have hfeed := feedLines_of_run (fun _ => rfl) hsound hrun
  rw [List.map_append, List.map_singleton] at hfeed
  rw [List.map_append, List.map_append, List.map_cons] at hbefore
  refine portBlock_of_lines _ _ hbefore ?_ ?_ ?_ ?_ ?_ hfeed
  · simpa using hpre
  · rw [← List.map_singleton, ← List.map_append, List.head?_map]
    simpa using hopen
  · rw [List.head?_map]
    simpa using hfirst
  · intro t ht
    rw [← List.map_tail] at ht
    obtain ⟨k, hk, rfl⟩ := List.mem_map.1 ht
    exact hmid k hk
  · rwa [List.isEmpty_map]

/-- A closing parenthesis ends the port list on a row that opens nothing. -/
theorem portsEnd_of_closing {x : Row} (h : x.Sound) (hclose : [.closeParen] ∈ x.phrases)
    (hhash : [.hash, .openParen] ∉ x.phrases) (hopen : [.openParen] ∉ x.phrases) :
    portsEnd false x.text = true := by
  have hnot : (Delimiters.ofText x.text).opensParameters = false :=
    Delimiters.opensParameters_addAll
      (Or.inl (x.written.openParen_not_mem h.phrases hhash hopen)) none
  have hcloses : 1 ≤ (Delimiters.ofText x.text).closes := by
    rw [Delimiters.ofText, Delimiters.closes_addAll, Nat.zero_add, List.one_le_count_iff]
    exact (x.written.closeParen_mem_iff h.phrases).2 hclose
  rw [portsEnd_eq]
  simp [Delimiters.endsPorts, hnot, hcloses]

/-- The row that opens the port list closes it too if a parenthesis closes behind. -/
theorem portRow_opening {name : Text} {o : Option (List Parameter)} {x : Row} (h : x.Sound)
    {a c : List (List Token)} (ha : a <:+ modulePhrase name :: parameterList o)
    (hopen : [.openParen] ∉ a) (hx : x.phrases = a ++ [.openParen] :: c) :
    portsOpen? x.text = some true ∧
      ∃ t, RowText c t ∧ portsEnd true x.text = decide ([.closeParen] ∈ c) := by
  obtain ⟨hphrases, hapart⟩ := h
  rw [hx] at hphrases hapart
  rw [List.flatten_append] at hapart
  have hwritten : RowText (a ++ [.openParen] :: c) x.text := hx ▸ x.written
  obtain ⟨s, u, t, ht, hs, hu, hc⟩ := hwritten.split
  have hu' : u = ['('] := hu.text_eq
  have hphrasesA : ∀ p ∈ a, IsPhrase p := fun p hp => hphrases p (List.mem_append_left _ hp)
  have hphrasesC : ∀ p ∈ c, IsPhrase p := fun p hp =>
    hphrases p (List.mem_append_right _ (List.mem_cons_of_mem _ hp))
  have hlast := hs.getLast?_ne hphrasesA (bracketsApart_of_append hapart).1 (getLast?_lead ha)
  have hclosed : (Delimiters.ofText s).opensPorts = false :=
    hs.opensPorts_addAll hphrasesA hopen {} none
  rw [ht, hu', List.singleton_append]
  refine ⟨?_, t, hc, ?_⟩
  · rw [portsOpen?_eq, Delimiters.ofText_opensPorts hlast]
    rfl
  · rw [portsEnd_eq, if_pos rfl, Delimiters.closesOwnPorts,
      Delimiters.ofText_closesAfterPorts hlast hclosed, decide_eq_decide,
      ← hc.closeParen_mem_iff hphrasesC]
    exact List.one_le_count_iff

/-- The row with the list's closing parenthesis ends it, whatever entries and semicolon it shows. -/
theorem portsEnd_of_lastRow {qs : List (List Text × Port)}
    (hqs : ∀ p ∈ qs, (∀ w ∈ p.1, w ∈ portTypeKeywords) ∧ p.2.WellFormed) {l : Row} (h : l.Sound)
    {z b : List (List Token)} (hl : l.phrases = z ++ [.closeParen] :: b)
    (hz : z ⊆ separated (qs.map fun p => portPhrases p.1 p.2)) (hb : b ⊆ [[.semicolon]]) :
    portsEnd false l.text = true := by
  have hplain := not_mem_of_plain (plain_ports hqs)
  have hphrases : ∀ p ∈ l.phrases, p ∈ separated (qs.map fun p => portPhrases p.1 p.2) ∨
      p = [.closeParen] ∨ p = [.semicolon] := by
    intro p hp
    rw [hl] at hp
    rcases List.mem_append.1 hp with hp | hp
    · exact Or.inl (hz hp)
    · rcases List.mem_cons.1 hp with hp | hp
      · exact Or.inr (Or.inl hp)
      · exact Or.inr (Or.inr (List.mem_singleton.1 (hb hp)))
  refine portsEnd_of_closing h (by simp [hl]) (fun hm => ?_) fun hm => ?_
  · simpa [hplain.1] using hphrases _ hm
  · simpa [hplain.2.1] using hphrases _ hm

/-- From the row that opens the port list on, its entries are read up to the row that closes it. -/
theorem portBlock_of_opening {name : Text} {o : Option (List Parameter)}
    {qs : List (List Text × Port)}
    (hqs : ∀ p ∈ qs, (∀ w ∈ p.1, w ∈ portTypeKeywords) ∧ p.2.WellFormed)
    {pre post : List Row} {x : Row} {a c : List (List Token)}
    (ha : a <:+ modulePhrase name :: parameterList o) (hopen : [.openParen] ∉ a)
    (hidle : ∀ p ∈ a, ∀ w, .word w ∈ p → Direction.ofKeyword? w = none)
    (hbefore : r.Before ((pre ++ x :: post).map Row.text) rest)
    (hsound : ∀ k ∈ x :: post, k.Sound) (hpre : ∀ k ∈ pre, portsOpen? k.text = none)
    (hx : x.phrases = a ++ [.openParen] :: c)
    (hc : separated (qs.map fun p => portPhrases p.1 p.2) ++ [.closeParen] :: [[.semicolon]]
      = c ++ post.flatMap Row.phrases) :
    ∃ ls, portBlock.Yields r (qs.map fun p => p.2.readBack) (r.pass ls) := by
  have hplain := not_mem_of_plain (plain_ports hqs)
  have hxSound := hsound x (by simp)
  obtain ⟨hxopen, t, hct, hxend⟩ := portRow_opening hxSound ha hopen hx
  -- what follows the parenthesis on its row counts as a row for the search of the closing one
  obtain ⟨mid, l, post', z, b, hmid, hz, hl, hb⟩ := @exists_row (⟨c, t, hct⟩ :: post) _ _ _ hc.symm
    hplain.2.2
  have hsemicolon : b ⊆ [[.semicolon]] := fun p hp => hb ▸ List.mem_append_left _ hp
  have hrun := run_portRows hqs hidle (y := b) fun p hp w hw => by
    simp [List.mem_singleton.1 (hsemicolon hp)] at hw
  cases mid with
  | nil =>
    obtain ⟨rfl, rfl⟩ := List.cons.inj hmid
    have hc' : c = separated (qs.map fun p => portPhrases p.1 p.2) ++ [.closeParen] :: b := by
      rw [hz]
      exact hl
    rw [hc'] at hx hxend
    refine ⟨_, @portBlock_of_gathered r rest pre [] post x hbefore (by simpa using hxSound) hpre
      (by simpa using hxopen) (by simp) (by simp) (by simpa using hxend) {} _ ?_⟩
    simpa [hx] using hrun
  | cons y mid =>
    obtain ⟨rfl, rfl⟩ := List.cons.inj hmid
    have hentries : ∀ p ∈ c ++ (mid.flatMap Row.phrases ++ z),
        p ∈ separated (qs.map fun p => portPhrases p.1 p.2) := by
      intro p hp
      rw [hz]
      simpa using hp
    have hunclosed : ∀ k ∈ mid, [.closeParen] ∉ k.phrases := fun k hk hm =>
      hplain.2.2 (hentries _ (List.mem_append_right _
        (List.mem_append_left _ (List.mem_flatMap.2 ⟨k, hk, hm⟩))))
    refine ⟨_, @portBlock_of_gathered r rest pre (x :: mid) post' l hbefore (fun k hk => hsound k ?_)
      hpre (by simpa using hxopen) ?_ (fun k hk => ?_) ?_ {} _ ?_⟩
    · rcases List.mem_append.1 hk with hk | hk
      · exact List.mem_append_left (l :: post') hk
      · simp [List.mem_singleton.1 hk]
    · intro k hk
      obtain rfl := Option.some.inj hk
      rw [hxend, decide_eq_false_iff_not]
      exact fun hm => hplain.2.2 (hentries _ (List.mem_append_left _ hm))
    · refine portsEnd_of_not_mem ?_
      have hk' : k ∈ mid := hk
      rw [k.written.closeParen_mem_iff (hsound k (by simp [hk'])).phrases]
      exact hunclosed k hk'
    · exact portsEnd_of_lastRow hqs (hsound l (by simp)) hl
        (fun p hp => hentries p (List.mem_append_right _ (List.mem_append_right _ hp))) hsemicolon
    · rw [hz] at hrun
      simpa [hx, hl] using hrun

/-- A port list is read wherever it stands, unless a semicolon on an earlier row ends the search;
then there are no ports to be read. -/
theorem portBlock_of_list {name : Text} {o : Option (List Parameter)} {lead : List (List Token)}
    (hlead : lead <:+ modulePhrase name :: parameterList o) (hopen : [.openParen] ∉ lead)
    (hidle : ∀ p ∈ lead, ∀ w, .word w ∈ p → Direction.ofKeyword? w = none)
    {qs : List (List Text × Port)}
    (hqs : ∀ p ∈ qs, (∀ w ∈ p.1, w ∈ portTypeKeywords) ∧ p.2.WellFormed)
    (hsemicolon : qs ≠ [] → ∀ p ∈ lead, ∀ k ∈ p, ';' ∉ k.text)
    (hbefore : r.Before (rows.map Row.text) rest) (hsound : ∀ x ∈ rows, x.Sound)
    (hrows : rows.flatMap Row.phrases = lead ++ (portList (some qs) ++ [[.semicolon]])) :
    ∃ ls, portBlock.Yields r (qs.map fun p => p.2.readBack) (r.pass ls) := by
  rw [portList, List.cons_append, List.append_assoc, List.singleton_append] at hrows
  obtain ⟨pre, x, post, a, c, rfl, ha, hx, hc⟩ := exists_row hrows hopen
  have hpre : ∀ k ∈ pre, ∀ p ∈ k.phrases, p ∈ lead := fun k hk p hp =>
    ha ▸ List.mem_append_left _ (List.mem_flatMap.2 ⟨k, hk, hp⟩)
  have hpreSound : ∀ k ∈ pre, k.Sound := fun k hk => hsound k (List.mem_append_left _ hk)
  have hpreOpen : ∀ k ∈ pre, [.openParen] ∉ k.phrases := fun k hk hm => hopen (hpre k hk _ hm)
  by_cases hs : ∃ k ∈ pre, ';' ∈ k.text
  · have hnone : qs = [] := by
      by_contra hne
      obtain ⟨k, hk, hm⟩ := hs
      obtain ⟨p, hp, j, hj, hm⟩ := (k.written.mem_iff (by decide)).1 hm
      exact hsemicolon hne p (hpre k hk p hp) j hj hm
    rw [hnone]
    exact portBlock_of_semicolon hbefore hpreSound hpreOpen hs
  · have haSuffix : a <:+ lead := ⟨_, ha.symm⟩
    refine portBlock_of_opening hqs (haSuffix.trans hlead) (fun hm => hopen (haSuffix.subset hm))
      (fun p hp => hidle p (haSuffix.subset hp)) hbefore
      (fun k hk => hsound k (List.mem_append_right _ hk)) (fun k hk => ?_) hx hc
    rw [portsOpen?_of_closed (hpreSound k hk) (hpreOpen k hk), if_neg fun hm => hs ⟨k, hk, hm⟩]

end PortBlock

section Reading

variable {m : Module} {r : LineReader} {rest : Bytes} {rows : List Row}

theorem headerName?_blank {l : Text} (h : ∀ c ∈ l, isBlank c = true) : headerName? l = none := by
  have htrim : Text.trimStart l = [] := List.dropWhile_eq_nil_iff.2 h
  unfold headerName?
  rw [htrim]
  rfl

theorem Header.RowText.isBlank {l : Text} (h : RowText [] l) : ∀ c ∈ l, isBlank c = true := by
  cases h
  assumption

theorem headerName?_row {name : Text} (hname : isModuleName name = true) {b : List (List Token)}
    {l : Text} (h : RowText (modulePhrase name :: b) l) : headerName? l = some name := by
  obtain _ | @⟨_, _, lead, u, t, hlead, written, apart, -⟩ := h
  obtain _ | @⟨_, _, _, gap, v, hgap, -, hne, -, hv⟩ := written
  have ht : ∀ c ∈ t.head?, isNameChar c = false := by
    intro c hc
    rw [Bool.eq_false_iff]
    intro hn
    have hword := apart rfl c hc
    simp [isWordChar_of_isNameChar hn] at hword
  have hv' : v = name := hv.text_eq
  rw [hv', List.append_assoc, List.append_assoc]
  exact headerName?_module hlead (hne rfl rfl) hgap hname ht

/-- The parameters are read, and the reader is left where the port list is still to come. -/
theorem parameterBlock_of_writing (w : m.Writing) (hm : m.WellFormed) (hkeywords : m.KeywordFree)
    (hbefore : r.Before (rows.map Row.text) rest) (hsound : ∀ x ∈ rows, x.Sound)
    (hrows : rows.flatMap Row.phrases = w.phrases) :
    ∃ pre post lead, rows = pre ++ post ∧
      lead <:+ modulePhrase m.name :: parameterList w.parameters ∧
      post.flatMap Row.phrases = lead ++ (portList w.ports ++ [[.semicolon]]) ∧
      parameterBlock.Yields r m.parameters (r.pass (pre.map Row.text)) := by
  have heq := w.parameters_eq
  rw [Module.Writing.phrases] at hrows
  rcases ho : w.parameters with _ | ps <;> rw [ho] at hrows heq
  · have hplain := not_mem_of_plain (plain_ports (w.wellFormed_ports hm))
    rw [← heq]
    rcases hq : w.ports with _ | qs <;> rw [hq] at hrows hplain
    · exact parameterBlock_of_noList hm.name (Or.inr rfl) hbefore hsound hrows (by simp)
    · rw [portList, List.cons_append] at hrows ⊢
      exact parameterBlock_of_noList hm.name (Or.inl rfl) hbefore hsound hrows
        (by simpa using ⟨hplain.1, hplain.2.1⟩)
  · obtain rfl : ps = m.parameters := heq
    exact parameterBlock_of_list hm.name hkeywords.name hm.parameters hbefore hsound hrows
      (w.idle_ports hm hkeywords)

theorem portBlock_of_writing (w : m.Writing) (hm : m.WellFormed) (hkeywords : m.KeywordFree)
    (hsemicolon : m.ports.toList ≠ [] → ∀ p ∈ m.parameters, ∀ v ∈ p.default, ';' ∉ v)
    {lead : List (List Token)} (hlead : lead <:+ modulePhrase m.name :: parameterList w.parameters)
    (hbefore : r.Before (rows.map Row.text) rest) (hsound : ∀ x ∈ rows, x.Sound)
    (hrows : rows.flatMap Row.phrases = lead ++ (portList w.ports ++ [[.semicolon]])) :
    ∃ ls, portBlock.Yields r ((w.ports.getD []).map fun p => p.2.readBack) (r.pass ls) := by
  have hopen := fun hp => w.openParen_not_mem_lead hm (hlead.subset hp)
  rcases hq : w.ports with _ | qs
  · rw [hq] at hrows
    have hphrase : ∀ x ∈ rows, ∀ p ∈ x.phrases, p ∈ lead ++ [[.semicolon]] := fun x hx p hp =>
      hrows ▸ List.mem_flatMap.2 ⟨x, hx, hp⟩
    obtain ⟨x, hx, hp⟩ := List.mem_flatMap.1 (show [.semicolon] ∈ rows.flatMap Row.phrases by
      simp [hrows])
    rw [← List.append_nil rows] at hbefore
    refine portBlock_of_semicolon hbefore hsound (fun y hy hm => ?_) ⟨x, hx, ?_⟩
    · rcases List.mem_append.1 (hphrase y hy _ hm) with hm | hm
      · exact hopen hm
      · simp at hm
    · exact (x.written.mem_iff (by decide)).2 ⟨_, hp, .semicolon, by simp, by simp [Token.text]⟩
  · have hqs := w.wellFormed_ports hm
    rw [hq] at hrows hqs
    refine portBlock_of_list hlead hopen (fun p hp => w.idle_lead hkeywords p (hlead.subset hp)) hqs
      (fun hne p hp => ?_) hbefore hsound hrows
    refine w.semicolon_lead hm (hsemicolon ?_) p (hlead.subset hp)
    obtain ⟨q, hmem⟩ := List.exists_mem_of_ne_nil _ hne
    exact List.ne_nil_of_mem (w.mem_ports (by rw [hq]; exact hmem))

end Reading

/-- However the header is laid out, and whatever stands around it, the module is read from it. -/
theorem Module.ofSource?_of_laidOut {m : Module} (hm : m.WellFormed) (hkeywords : m.KeywordFree)
    (hbrackets : bracketsApart m.defaultTokens = true)
    (hsemicolon : m.ports.toList ≠ [] → ∀ p ∈ m.parameters, ∀ v ∈ p.default, ';' ∉ v)
    (w : m.Writing) {pre : List Text} (hpre : ∀ l ∈ pre, l.IsLine ∧ headerName? l = none)
    {lead t : Text} (hlead : ∀ c ∈ lead, isBlank c = true) (hlaidOut : LaidOut w.phrases t)
    {rest : Bytes} (hrest : rest = [] ∨ rest.head? = some 10) :
    ∃ m', Module.ofSource? (Text.encode (pre.flatten ++ (lead ++ t)) ++ rest) = .ok (some m') ∧
      m'.outline = m.outline := by
  have hphrases := w.isPhrase hm
  obtain ⟨rows, rest', hrows, hbegins⟩ := exists_rows hlaidOut
    (fun p hp k hk => ((hphrases p hp).lexed k hk).1) hlead hrest
  have hsound := sound_of_flatMap hrows hphrases (w.bracketsApart_phrases hm hbrackets)
  -- rows in front of the one with the name are blank
  obtain ⟨blank, x, post, a, b, rfl, ha, hx, -⟩ := @exists_row rows _ [] _ hrows (by simp)
  obtain ⟨hblank, rfl⟩ := List.append_eq_nil_iff.1 ha.symm
  rw [List.flatMap_append, hblank, List.nil_append] at hrows
  have hnone : ∀ l ∈ pre ++ blank.map Row.text, headerName? l = none := by
    intro l hl
    rcases List.mem_append.1 hl with hl | hl
    · exact (hpre l hl).2
    · obtain ⟨k, hk, rfl⟩ := List.mem_map.1 hl
      have hwritten : RowText [] k.text := List.flatMap_eq_nil_iff.1 hblank k hk ▸ k.written
      exact headerName?_blank hwritten.isBlank
  have hlines : BeginsWith (Text.encode (pre.flatten ++ (lead ++ t)) ++ rest)
      ((pre ++ blank.map Row.text) ++ (x :: post).map Row.text) rest' := by
    rw [Text.encode_append, List.append_assoc, List.append_assoc, ← List.map_append]
    exact (beginsWith_of_isLine (fun l hl => (hpre l hl).1) _).append hbegins
  have hbefore := (LineReader.ofBytes_before hlines).pass
  have hsound' : ∀ k ∈ x :: post, k.Sound := fun k hk => hsound k (List.mem_append_right _ hk)
  obtain ⟨front, back, phrases, hcut, hsuffix, hback, hps⟩ :=
    parameterBlock_of_writing w hm hkeywords hbefore hsound' hrows
  rw [hcut, List.map_append] at hbefore
  rw [hcut] at hsound'
  obtain ⟨ls, hqs⟩ := portBlock_of_writing w hm hkeywords hsemicolon hsuffix hbefore.pass
    (fun k hk => hsound' k (List.mem_append_right _ hk)) hback
  obtain ⟨m', hm', houtline⟩ := m.exists_create_readBack w.ports_eq
  rw [List.map_map] at hm'
  obtain ⟨notes, hread⟩ := firstModule?_of_blocks hlines hnone
    (headerName?_row hm.name (hx ▸ x.written)) hps hqs hm'
  exact ⟨m', by rw [Module.ofSource?, hread], houtline⟩

section Sample

def crampedParameter : Parameter where
  identifier := "A".toList
  default := some "[#".toList
  identifier_trimmed := by decide
  default_trimmed := by decide

def crampedPort : Port where
  direction := .input
  identifier := "a".toList
  width := some (.literal "[;]".toList)
  solid := by decide

/-- A module whose texts hold a stray bracket, a hash and a semicolon. -/
def crampedModule : Module where
  name := "m".toList
  parameters := [crampedParameter]
  ports := .ofList [crampedPort]
  name_trimmed := by decide

def crampedWriting : crampedModule.Writing where
  parameters := some [crampedParameter]
  ports := some [(["wire".toList], crampedPort)]
  parameters_eq := rfl
  ports_eq d := by cases d <;> rfl
  types := by decide

theorem lineTokens_cramped : lineTokens "[#".toList = [.other '[', .hash] := by decide +kernel

theorem wellFormed_crampedModule : crampedModule.WellFormed := by
  refine ⟨by decide, ?_, ?_⟩
  · intro p hp
    rw [List.mem_singleton.1 hp]
    refine ⟨by decide, by decide, by decide, ?_⟩
    intro v hv
    rw [← Option.some.inj hv]
    refine ⟨?_, by decide, by decide, by decide, ?_, ?_⟩ <;> rw [lineTokens_cramped] <;> decide
  · have hports : crampedModule.ports.toList = [crampedPort] := rfl
    intro p hp
    rw [hports] at hp
    rw [List.mem_singleton.1 hp]
    refine ⟨by decide, by decide, by decide, fun w hw => ?_⟩
    rw [← Option.some.inj hw]
    refine ⟨⟨["[;]".toList], by decide, rfl, fun g hg => ?_⟩, by decide⟩
    rw [List.mem_singleton.1 hg]
    exact ⟨";".toList, rfl, by decide⟩

theorem keywordFree_crampedModule : crampedModule.KeywordFree := by
  refine ⟨by decide, by decide, ?_, by decide⟩
  intro p hp v hv w hw
  rw [List.mem_singleton.1 hp] at hv
  rw [← Option.some.inj hv, lineTokens_cramped] at hw
  simp at hw

theorem phrases_crampedWriting : crampedWriting.phrases =
    [[.word "module".toList, .word "m".toList], [.hash, .openParen], [.word "parameter".toList],
      [.word "A".toList, .equals, .other '[', .hash], [.closeParen], [.openParen],
      [.word "input".toList], [.word "wire".toList], [.range "[;]".toList], [.word "a".toList],
      [.closeParen], [.semicolon]] := by decide +kernel

theorem laidOut_cramped : LaidOut crampedWriting.phrases
    "module\tm\n#(\nparameter A =[#\n)(input\nwire\n[;]\na\n);".toList := by
  have hname : OnLine [.word "module".toList, .word "m".toList]
      ("module".toList ++ ("\t".toList ++ "m".toList)) := by
    refine .cons ?_ ?_ ?_ ?_ (.single _) <;> decide
  have hopen : OnLine [.hash, .openParen] ("#".toList ++ ([] ++ "(".toList)) := by
    refine .cons ?_ ?_ ?_ ?_ (.single _) <;> decide
  have hparameter : OnLine [.word "A".toList, .equals, .other '[', .hash]
      ("A".toList ++ (" ".toList ++ ("=".toList ++ ([] ++ ("[".toList ++ ([] ++ "#".toList)))))) := by
    refine .cons ?_ ?_ ?_ ?_ (.cons ?_ ?_ ?_ ?_ (.cons ?_ ?_ ?_ ?_ (.single _))) <;> decide
  have hports : LaidOut [[.openParen], [.word "input".toList], [.word "wire".toList],
      [.range "[;]".toList], [.word "a".toList], [.closeParen], [.semicolon]]
      ("(".toList ++ ([] ++ ("input".toList ++ ("\n".toList ++ ("wire".toList ++ ("\n".toList ++
        ("[;]".toList ++ ("\n".toList ++ ("a".toList ++ ("\n".toList ++ (")".toList ++
          ([] ++ ";".toList)))))))))))) := by
    refine .cons (.single _) ?_ ?_ (.cons (.single _) ?_ ?_ (.cons (.single _) ?_ ?_
      (.cons (.single _) ?_ ?_ (.cons (.single _) ?_ ?_ (.cons (.single _) ?_ ?_
        (.single (.single _))))))) <;> decide
  rw [phrases_crampedWriting]
  refine @LaidOut.cons _ _ _ _ "\n".toList _ hname ?_ ?_
    (@LaidOut.cons _ _ _ _ "\n".toList _ hopen ?_ ?_
      (@LaidOut.cons [.word "parameter".toList] _ _ _ " ".toList _ (.single _) ?_ ?_
        (@LaidOut.cons _ _ _ _ "\n".toList _ hparameter ?_ ?_
          (@LaidOut.cons [.closeParen] _ _ _ [] _ (.single _) ?_ ?_ hports)))) <;> decide

theorem Module.ofSource?_of_laidOut_cramped :
    crampedModule.WellFormed ∧ crampedModule.KeywordFree ∧
      ∃ m', Module.ofSource? (Text.encode (["// module m\n".toList].flatten ++ ("\n ".toList ++
          "module\tm\n#(\nparameter A =[#\n)(input\nwire\n[;]\na\n);".toList)) ++ [10, 255])
        = .ok (some m') ∧ m'.outline = crampedModule.outline := by
  have hpre : ∀ l ∈ ["// module m\n".toList], Text.IsLine l ∧ headerName? l = none := by
    intro l hl
    rw [List.mem_singleton.1 hl]
    exact ⟨⟨"// module m".toList, rfl, by decide⟩, by decide⟩
  have hsemicolon : crampedModule.ports.toList ≠ [] →
      ∀ p ∈ crampedModule.parameters, ∀ v ∈ p.default, ';' ∉ v := fun _ => by decide
  exact ⟨wellFormed_crampedModule, keywordFree_crampedModule,
    ofSource?_of_laidOut wellFormed_crampedModule keywordFree_crampedModule
      (by decide +kernel) hsemicolon crampedWriting hpre (by decide)
      laidOut_cramped (Or.inr rfl)⟩

end Sample

/-- Headers that are read as something else than what they declare: a blank stands between the hash and
its parenthesis; an opening bracket in one default meets a closing one in the next; a semicolon in a
default comes on a line before the one that opens the port list. -/
theorem Module.ofSource?_of_looseHeaders :
    (Module.ofSource? (Text.encode "module m # (parameter A = 1);\n".toList)).toOption.map
        (Option.map fun m => m.parameters.map Parameter.outline) = some (some []) ∧
      (Module.ofSource?
        (Text.encode "module m #(parameter A = [, parameter B = ]);\n".toList)).toOption.map
        (Option.map fun m => m.parameters.map Parameter.outline)
        = some (some [("A".toList, some "[,parameterB=]".toList)]) ∧
      (Module.ofSource?
        (Text.encode "module m #(parameter A = [;])\n(input a);\n".toList)).toOption.map
        (Option.map fun m => m.ports.toList.length) = some (some 0) := by
  refine ⟨?_, ?_, ?_⟩ <;> decide +kernel

end HdlScaffold
