import HdlScaffold.Proofs.Rows
import HdlScaffold.Proofs.WrittenLines

/-!
# What a header is written from

A module's header is a list of phrases: its name, its two lists as far as they are written, and the
semicolon (`Module.Writing.phrases`). Only the parentheses of the two lists are delimiters among them
(`Module.Writing.isPhrase`), what precedes the port list declares no port, and what follows the
parameter list declares no parameter.
-/

namespace HdlScaffold

open Header

section Writings

/-- The words that begin the entries of a header's lists. -/
def headerKeywords : List Text :=
  ["parameter", "localparam", "input", "output", "inout"].map String.toList

/-- No name and no word of a default value is a keyword. -/
structure Module.KeywordFree (m : Module) : Prop where
  name : m.name ∉ headerKeywords
  identifier : ∀ p ∈ m.parameters, p.identifier ∉ headerKeywords
  default : ∀ p ∈ m.parameters, ∀ v ∈ p.default, ∀ w, .word w ∈ lineTokens v → w ∉ headerKeywords
  ports : ∀ p ∈ m.ports.toList, p.identifier ∉ headerKeywords

/-- The tokens of the default values, one after another. -/
def Module.defaultTokens (m : Module) : List Token :=
  m.parameters.flatMap fun p => p.default.elim [] lineTokens

/-- How a module's lists are written. A list without entries may be left out, ports of different
directions may be mixed, and any types may stand before a port's name. -/
structure Module.Writing (m : Module) where
  parameters : Option (List Parameter)
  /-- The ports, each with the type keywords in front of it. -/
  ports : Option (List (List Text × Port))
  parameters_eq : parameters.getD [] = m.parameters
  ports_eq : ∀ d, ((ports.getD []).map Prod.snd).filter (fun p => p.direction = d) = m.ports.get d
  types : ∀ p ∈ ports.getD [], ∀ w ∈ p.1, w ∈ portTypeKeywords

def modulePhrase (name : Text) : List Token := [.word "module".toList, .word name]

def parameterList : Option (List Parameter) → List (List Token)
  | none => []
  | some ps => [.hash, .openParen] :: (separated (ps.map parameterPhrases) ++ [[.closeParen]])

def portList : Option (List (List Text × Port)) → List (List Token)
  | none => []
  | some ps => [.openParen] :: (separated (ps.map fun p => portPhrases p.1 p.2) ++ [[.closeParen]])

/-- The phrases of the header. -/
def Module.Writing.phrases {m : Module} (w : m.Writing) : List (List Token) :=
  modulePhrase m.name :: (parameterList w.parameters ++ (portList w.ports ++ [[.semicolon]]))

end Writings

section Plain

theorem plain_identifier {w : Text} (h : isIdentifier w = true) : (Token.word w).Plain := by
  have hchars := isWordChar_of_isIdentifier h
  refine ⟨⟨ne_nil_of_isIdentifier h, fun c hc => (hchars c hc).1⟩,
    Style.not_hasComment_identifier h, fun hc => ?_, fun hc => ?_⟩
  · exact absurd (hchars _ hc).1 (by decide)
  · exact absurd (hchars _ hc).1 (by decide)

theorem plain_comma : Token.comma.Plain := ⟨trivial, by decide, by decide, by decide⟩

theorem plain_equals : Token.equals.Plain := ⟨trivial, by decide, by decide, by decide⟩

theorem plain_semicolon : Token.semicolon.Plain := ⟨trivial, by decide, by decide, by decide⟩

theorem plain_default {v : Text} (hv : v.IsPlainValue) : ∀ k ∈ lineTokens v, k.Plain := fun k hk =>
  ⟨hv.lexed k hk, fun hc => hv.no_comment (hc.of_infix (hv.text_infix hk)),
    fun hc => hv.no_open ((hv.text_infix hk).subset hc),
    fun hc => hv.no_close ((hv.text_infix hk).subset hc)⟩

theorem Text.IsBusRange.exists_range {t : Text} (ht : t.IsBusRange) {k : Token}
    (hk : k ∈ tokens t) : ∃ g, k = .range g ∧ g <:+: t := by
  obtain ⟨gs, -, hgs, hg⟩ := ht.ranges
  rw [hgs, tokens_flatten hg] at hk
  obtain ⟨g, hm, rfl⟩ := List.mem_map.1 hk
  rw [hgs]
  exact ⟨g, rfl, List.infix_of_mem_flatten hm⟩

theorem plain_range {t : Text} (ht : t.IsBusRange) : ∀ k ∈ tokens t, k.Plain := by
  intro k hk
  have hlexed := lexed_of_mem_tokens t k hk
  obtain ⟨g, rfl, htext⟩ := ht.exists_range hk
  exact ⟨hlexed, fun hc => ht.no_comment (hc.of_infix htext),
    fun hc => (ht.mem (htext.subset hc)).2.1 rfl, fun hc => (ht.mem (htext.subset hc)).2.2 rfl⟩

theorem mem_separated {p : List Token} : ∀ {es : List (List (List Token))}, p ∈ separated es →
    p = [.comma] ∨ ∃ e ∈ es, p ∈ e
  | [], h => by simp [separated] at h
  | [e], h => Or.inr ⟨e, by simp, h⟩
  | e :: f :: es, h => by
    rcases List.mem_append.1 (show p ∈ e ++ [.comma] :: separated (f :: es) from h) with h | h
    · exact Or.inr ⟨e, by simp, h⟩
    · rcases List.mem_cons.1 h with rfl | h
      · exact Or.inl rfl
      · rcases mem_separated h with h | ⟨x, hx, hp⟩
        · exact Or.inl h
        · exact Or.inr ⟨x, List.mem_cons_of_mem _ hx, hp⟩

theorem plain_modulePhrase {name : Text} (h : isModuleName name = true) :
    ∀ k ∈ modulePhrase name, k.Plain := by
  intro k hk
  rcases List.mem_cons.1 hk with rfl | hk
  · exact plain_identifier (by decide)
  · rw [List.mem_singleton.1 hk]
    exact plain_identifier (isIdentifier_of_isModuleName h)

theorem mem_parameterEntries {ps : List Parameter} {q : List Token}
    (hq : q ∈ separated (ps.map parameterPhrases)) {k : Token} (hk : k ∈ q) :
    k = .comma ∨ k = .equals ∨ k = .word "parameter".toList ∨
      ∃ p ∈ ps, k = .word p.identifier ∨ ∃ v ∈ p.default, k ∈ lineTokens v := by
  rcases mem_separated hq with rfl | ⟨e, he, hq⟩
  · exact Or.inl (List.mem_singleton.1 hk)
  · obtain ⟨p, hp, rfl⟩ := List.mem_map.1 he
    rcases List.mem_cons.1 hq with rfl | hq
    · exact Or.inr (Or.inr (Or.inl (List.mem_singleton.1 hk)))
    · rw [List.mem_singleton.1 hq] at hk
      rcases List.mem_cons.1 hk with hk | hk
      · exact Or.inr (Or.inr (Or.inr ⟨p, hp, Or.inl hk⟩))
      · rcases hd : p.default with _ | v <;> rw [hd] at hk
        · simp at hk
        · rcases List.mem_cons.1 hk with hk | hk
          · exact Or.inr (Or.inl hk)
          · exact Or.inr (Or.inr (Or.inr ⟨p, hp, Or.inr ⟨v, hd, hk⟩⟩))

theorem plain_parameters {ps : List Parameter} (h : ∀ p ∈ ps, p.WellFormed) :
    ∀ q ∈ separated (ps.map parameterPhrases), ∀ k ∈ q, k.Plain := by
  intro q hq k hk
  rcases mem_parameterEntries hq hk with rfl | rfl | rfl | ⟨p, hp, rfl | ⟨v, hv, hk⟩⟩
  · exact plain_comma
  · exact plain_equals
  · exact plain_identifier (by decide)
  · exact plain_identifier (h p hp).identifier
  · exact plain_default ((h p hp).default v hv) k hk

theorem mem_portEntries {qs : List (List Text × Port)} {q : List Token}
    (hq : q ∈ separated (qs.map fun p => portPhrases p.1 p.2)) {k : Token} (hk : k ∈ q) :
    k = .comma ∨ ∃ p ∈ qs, k = .word p.2.direction.keyword ∨ (∃ w ∈ p.1, k = .word w) ∨
      (∃ w ∈ p.2.width, k ∈ tokens w.text) ∨ k = .word p.2.identifier := by
  rcases mem_separated hq with rfl | ⟨e, he, hq⟩
  · exact Or.inl (List.mem_singleton.1 hk)
  · obtain ⟨p, hp, rfl⟩ := List.mem_map.1 he
    refine Or.inr ⟨p, hp, ?_⟩
    rcases List.mem_append.1 hq with hq | hq
    · rcases List.mem_append.1 hq with hq | hq
      · rcases List.mem_cons.1 hq with rfl | hq
        · exact Or.inl (List.mem_singleton.1 hk)
        · obtain ⟨w, hw, rfl⟩ := List.mem_map.1 hq
          exact Or.inr (Or.inl ⟨w, hw, List.mem_singleton.1 hk⟩)
      · obtain ⟨j, hj, rfl⟩ := List.mem_map.1 hq
        rw [List.mem_singleton.1 hk]
        rcases hd : p.2.width with _ | w <;> rw [hd] at hj
        · simp at hj
        · exact Or.inr (Or.inr (Or.inl ⟨w, rfl, hj⟩))
    · rw [List.mem_singleton.1 hq] at hk
      exact Or.inr (Or.inr (Or.inr (List.mem_singleton.1 hk)))

theorem plain_ports {qs : List (List Text × Port)}
    (h : ∀ p ∈ qs, (∀ w ∈ p.1, w ∈ portTypeKeywords) ∧ p.2.WellFormed) :
    ∀ q ∈ separated (qs.map fun p => portPhrases p.1 p.2), ∀ k ∈ q, k.Plain := by
  intro q hq k hk
  rcases mem_portEntries hq hk with rfl | ⟨p, hp, rfl | ⟨w, hw, rfl⟩ | ⟨w, hw, hk⟩ | rfl⟩
  · exact plain_comma
  · exact plain_identifier (Style.isIdentifier_keyword _)
  · exact plain_identifier (Style.isIdentifier_of_portTypeKeywords w ((h p hp).1 w hw))
  · exact plain_range ((h p hp).2.width w hw) k hk
  · exact plain_identifier (h p hp).2.identifier

theorem not_mem_of_plain {ps : List (List Token)} (h : ∀ p ∈ ps, ∀ k ∈ p, k.Plain) :
    [.hash, .openParen] ∉ ps ∧ [.openParen] ∉ ps ∧ [.closeParen] ∉ ps := by
  refine ⟨fun hp => (h _ hp .openParen (by simp)).no_open (by simp [Token.text]),
    fun hp => (h _ hp .openParen (by simp)).no_open (by simp [Token.text]),
    fun hp => (h _ hp .closeParen (by simp)).no_close (by simp [Token.text])⟩

end Plain

section Headers

variable {m : Module} {w : m.Writing}

theorem Module.Writing.mem_ports (w : m.Writing) {p : List Text × Port} (hp : p ∈ w.ports.getD []) :
    p.2 ∈ m.ports.toList := by
  have hfilter : p.2 ∈ m.ports.get p.2.direction := by
    rw [← w.ports_eq]
    exact List.mem_filter.2 ⟨List.mem_map_of_mem hp, by simp⟩
  exact List.mem_flatMap.2 ⟨_, Direction.mem_all _, hfilter⟩

theorem Module.Writing.wellFormed_ports (w : m.Writing) (hm : m.WellFormed) :
    ∀ p ∈ w.ports.getD [], (∀ t ∈ p.1, t ∈ portTypeKeywords) ∧ p.2.WellFormed := fun p hp =>
  ⟨w.types p hp, hm.ports _ (w.mem_ports hp)⟩

theorem mem_parameterList {o : Option (List Parameter)} {p : List Token} (h : p ∈ parameterList o) :
    p = [.hash, .openParen] ∨ p = [.closeParen] ∨
      p ∈ separated ((o.getD []).map parameterPhrases) := by
  cases o with
  | none => simp [parameterList] at h
  | some ps =>
    simp only [parameterList, List.mem_cons, List.mem_append, List.not_mem_nil, or_false] at h
    exact h.imp_right Or.symm

theorem mem_portList {o : Option (List (List Text × Port))} {p : List Token} (h : p ∈ portList o) :
    p = [.openParen] ∨ p = [.closeParen] ∨
      p ∈ separated ((o.getD []).map fun q => portPhrases q.1 q.2) := by
  cases o with
  | none => simp [portList] at h
  | some qs =>
    simp only [portList, List.mem_cons, List.mem_append, List.not_mem_nil, or_false] at h
    exact h.imp_right Or.symm

theorem Module.Writing.isPhrase (w : m.Writing) (hm : m.WellFormed) :
    ∀ p ∈ w.phrases, IsPhrase p := by
  intro p hp
  rcases List.mem_cons.1 hp with rfl | hp
  · exact .of_plain (plain_modulePhrase hm.name)
  · rcases List.mem_append.1 hp with hp | hp
    · rcases mem_parameterList hp with rfl | rfl | hp
      · exact Or.inl rfl
      · exact Or.inr (Or.inr (Or.inl rfl))
      · rw [w.parameters_eq] at hp
        exact .of_plain (plain_parameters hm.parameters p hp)
    · rcases List.mem_append.1 hp with hp | hp
      · rcases mem_portList hp with rfl | rfl | hp
        · exact Or.inr (Or.inl rfl)
        · exact Or.inr (Or.inr (Or.inl rfl))
        · exact .of_plain (plain_ports (w.wellFormed_ports hm) p hp)
      · rw [List.mem_singleton.1 hp]
        exact .of_plain (by simpa using plain_semicolon)

theorem filter_parameters : ∀ ps : List Parameter,
    (separated (ps.map parameterPhrases)).flatten.filter Token.isBracket
      = (ps.flatMap fun p => p.default.elim [] lineTokens).filter Token.isBracket
  | [] => rfl
  | [p] => by
    rcases hd : p.default with _ | v <;>
      simp [separated, parameterPhrases, namePhrase, hd, Token.isBracket]
  | p :: q :: ps => by
    have ih := filter_parameters (q :: ps)
    show ((parameterPhrases p ++ [.comma] :: separated ((q :: ps).map parameterPhrases)).flatten).filter
      _ = _
    rw [List.flatten_append, List.filter_append, List.flatten_cons, List.filter_append, ih,
      List.flatMap_cons, List.filter_append]
    rcases hd : p.default with _ | v <;> simp [parameterPhrases, namePhrase, hd, Token.isBracket]

theorem no_other_ports (hm : m.WellFormed) (w : m.Writing) :
    ∀ k ∈ (portList w.ports ++ [[Token.semicolon]]).flatten, ∀ c, k ≠ .other c := by
  rintro k hk c rfl
  obtain ⟨p, hp, hk⟩ := List.mem_flatten.1 hk
  rcases List.mem_append.1 hp with hp | hp
  · rcases mem_portList hp with rfl | rfl | hp
    · simp at hk
    · simp at hk
    · rcases mem_portEntries hp hk with h | ⟨q, hq, h | ⟨t, -, h⟩ | ⟨v, hv, h⟩ | h⟩ <;>
        try simp at h
      obtain ⟨g, hg, -⟩ := ((w.wellFormed_ports hm q hq).2.width v hv).exists_range h
      simp at hg
  · rw [List.mem_singleton.1 hp] at hk
    simp at hk

/-- The stray brackets of a header are those of its default values. -/
theorem Module.Writing.bracketsApart_phrases (w : m.Writing) (hm : m.WellFormed)
    (hb : bracketsApart m.defaultTokens = true) : bracketsApart w.phrases.flatten = true := by
  have hfilter : (parameterList w.parameters).flatten.filter Token.isBracket
      = m.defaultTokens.filter Token.isBracket := by
    rw [defaultTokens, ← w.parameters_eq]
    rcases w.parameters with _ | ps
    · rfl
    · rw [parameterList, List.flatten_cons, List.flatten_append, List.filter_append,
        List.filter_append, filter_parameters]
      simp [Token.isBracket]
  have hparameters : bracketsApart (parameterList w.parameters).flatten = true := by
    rw [← bracketsApart_filter, hfilter, bracketsApart_filter]
    exact hb
  rw [phrases, List.flatten_cons, List.flatten_append]
  show bracketsApart ((parameterList w.parameters).flatten ++ _) = true
  rw [(bracketsApart_append (no_other_ports hm w)).2]
  exact hparameters

theorem not_direction {t : Text} (h : t ∉ headerKeywords) : Direction.ofKeyword? t = none := by
  rw [Option.eq_none_iff_forall_ne_some]
  intro d hd
  rw [Direction.ofKeyword?_eq_some_iff.1 hd] at h
  cases d <;> exact h (by decide)

/-- In front of the port list no direction is named. -/
theorem Module.Writing.idle_lead (w : m.Writing) (hkeywords : m.KeywordFree) :
    ∀ p ∈ modulePhrase m.name :: parameterList w.parameters, ∀ t, .word t ∈ p →
      Direction.ofKeyword? t = none := by
  intro p hp t ht
  rcases List.mem_cons.1 hp with rfl | hp
  · rcases List.mem_cons.1 ht with h | h
    · rw [Token.word.inj h]
      decide
    · rw [Token.word.inj (List.mem_singleton.1 h)]
      exact not_direction hkeywords.name
  · rcases mem_parameterList hp with rfl | rfl | hp
    · simp at ht
    · simp at ht
    · rw [w.parameters_eq] at hp
      rcases mem_parameterEntries hp ht with h | h | h | ⟨q, hq, h | ⟨v, hv, h⟩⟩
      · simp at h
      · simp at h
      · rw [Token.word.inj h]
        decide
      · rw [Token.word.inj h]
        exact not_direction (hkeywords.identifier q hq)
      · exact not_direction (hkeywords.default q hq v hv t h)

/-- Behind the parameter list no parameter is declared. -/
theorem Module.Writing.idle_ports (w : m.Writing) (hm : m.WellFormed) (hkeywords : m.KeywordFree) :
    ∀ p ∈ portList w.ports ++ [[Token.semicolon]], .word "parameter".toList ∉ p := by
  intro p hp ht
  rcases List.mem_append.1 hp with hp | hp
  · rcases mem_portList hp with rfl | rfl | hp
    · simp at ht
    · simp at ht
    · rcases mem_portEntries hp ht with h | ⟨q, hq, h | ⟨t, htypes, h⟩ | ⟨v, hv, h⟩ | h⟩
      · simp at h
      · have hkeyword := Token.word.inj h
        cases hd : q.2.direction <;> rw [hd] at hkeyword <;> exact absurd hkeyword (by decide)
      · have htype := w.types q hq t htypes
        rw [← Token.word.inj h] at htype
        exact absurd htype (by decide)
      · obtain ⟨g, hg, -⟩ := ((w.wellFormed_ports hm q hq).2.width v hv).exists_range h
        simp at hg
      · have hname := hkeywords.ports q.2 (w.mem_ports hq)
        rw [← Token.word.inj h] at hname
        exact hname (by decide)
  · rw [List.mem_singleton.1 hp] at ht
    simp at ht

theorem Module.Writing.openParen_not_mem_lead (w : m.Writing) (hm : m.WellFormed) :
    [.openParen] ∉ modulePhrase m.name :: parameterList w.parameters := by
  intro h
  rcases List.mem_cons.1 h with h | h
  · simp [modulePhrase] at h
  · rcases mem_parameterList h with h | h | h
    · simp at h
    · simp at h
    · rw [w.parameters_eq] at h
      exact (not_mem_of_plain (plain_parameters hm.parameters)).2.1 h

theorem Module.Writing.semicolon_lead (w : m.Writing) (hm : m.WellFormed)
    (hsemicolon : ∀ p ∈ m.parameters, ∀ v ∈ p.default, ';' ∉ v) :
    ∀ p ∈ modulePhrase m.name :: parameterList w.parameters, ∀ k ∈ p, ';' ∉ k.text := by
  have hidentifier : ∀ {t : Text}, isIdentifier t = true → ';' ∉ (Token.word t).text := fun ht hc =>
    absurd (isWordChar_of_isIdentifier ht _ hc).1 (by decide)
  intro p hp k hk
  rcases List.mem_cons.1 hp with rfl | hp
  · rcases List.mem_cons.1 hk with rfl | hk
    · decide
    · rw [List.mem_singleton.1 hk]
      exact hidentifier (isIdentifier_of_isModuleName hm.name)
  · rcases mem_parameterList hp with rfl | rfl | hp
    · rcases List.mem_cons.1 hk with rfl | hk
      · decide
      · rw [List.mem_singleton.1 hk]
        decide
    · rw [List.mem_singleton.1 hk]
      decide
    · rw [w.parameters_eq] at hp
      rcases mem_parameterEntries hp hk with rfl | rfl | rfl | ⟨q, hq, rfl | ⟨v, hv, h⟩⟩
      · decide
      · decide
      · decide
      · exact hidentifier (hm.parameters q hq).identifier
      · have hvalue := (hm.parameters q hq).default v hv
        have htext := hvalue.text_infix h
        exact fun hc => hsemicolon q hq v hv (htext.subset hc)

end Headers

end HdlScaffold
