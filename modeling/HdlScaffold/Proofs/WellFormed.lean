import HdlScaffold.Header.PortList
import HdlScaffold.Proofs.Lexing
import HdlScaffold.Proofs.PortOrder

/-!
# Well-formed modules

A well-formed module is one whose header can be written down and read again: names are plain and no
keywords, default values read as they are written and hold no delimiter of a header, and widths are
bracketed ranges. Reading gives every width as a range (`Port.readBack`), which changes nothing that
counts when ports are compared (`outline_readBack`), so a module made of what was read has the outline
of the module that was written (`Module.exists_create_readBack`).
-/

namespace HdlScaffold

/-- A letter or underscore, then letters, digits and underscores. -/
def isModuleName : Text → Bool
  | [] => false
  | c :: t => isNameStart c && t.all isNameChar

/-- A value that reads as it is written, without parentheses, comments or separators. -/
structure Text.IsPlainValue (v : Text) : Prop where
  joined : Token.join (lineTokens v) = v
  no_open : '(' ∉ v
  no_close : ')' ∉ v
  no_comment : ¬ HasComment v
  no_comma : Token.comma ∉ lineTokens v
  no_semicolon : Token.semicolon ∉ lineTokens v

/-- A bracket, its partner, and between them neither brackets nor blanks nor parentheses. -/
def Text.IsRange (g : Text) : Prop :=
  ∃ inner, g = '[' :: (inner ++ [']']) ∧
    ∀ c ∈ inner, isRangeChar c = true ∧ isBlank c = false ∧ c ≠ '(' ∧ c ≠ ')'

/-- One range after another, without a comment. -/
structure Text.IsBusRange (t : Text) : Prop where
  ranges : ∃ gs : List Text, gs ≠ [] ∧ t = gs.flatten ∧ ∀ g ∈ gs, g.IsRange
  no_comment : ¬ HasComment t

structure Parameter.WellFormed (p : Parameter) : Prop where
  identifier : isIdentifier p.identifier = true
  ne_parameter : p.identifier ≠ "parameter".toList
  ne_localparam : p.identifier ≠ "localparam".toList
  default : ∀ v ∈ p.default, v.IsPlainValue

structure Port.WellFormed (p : Port) : Prop where
  identifier : isIdentifier p.identifier = true
  no_direction : Direction.ofKeyword? p.identifier = none
  no_type : p.identifier ∉ Header.portTypeKeywords
  width : ∀ w ∈ p.width, w.text.IsBusRange

structure Module.WellFormed (m : Module) : Prop where
  name : isModuleName m.name = true
  parameters : ∀ p ∈ m.parameters, p.WellFormed
  ports : ∀ p ∈ m.ports.toList, p.WellFormed

section Names

theorem toNat_of_isAlphanum {c : Char} (h : c.isAlphanum = true) :
    (48 ≤ c.toNat ∧ c.toNat ≤ 57) ∨ (65 ≤ c.toNat ∧ c.toNat ≤ 90) ∨
      (97 ≤ c.toNat ∧ c.toNat ≤ 122) := by
  have hdef : c.isAlphanum = ((decide (65 ≤ c.val ∧ c.val ≤ 90) ||
      (decide (97 ≤ c.val) && decide (c.val ≤ 122))) ||
        (decide (48 ≤ c.val) && decide (c.val ≤ 57))) := rfl
  rw [hdef] at h
  simp only [Bool.or_eq_true, Bool.and_eq_true, decide_eq_true_eq, UInt32.le_iff_toNat_le] at h
  simp only [Char.toNat]
  rcases h with (h | h) | h
  · exact Or.inr (Or.inl h)
  · exact Or.inr (Or.inr h)
  · exact Or.inl h

theorem isBlank_of_isAlphanum {c : Char} (h : c.isAlphanum = true) : isBlank c = false := by
  have hn := toNat_of_isAlphanum h
  simp only [isBlank, blankRanges, List.any_cons, List.any_nil, Bool.or_false, Bool.or_eq_false_iff,
    Bool.and_eq_false_iff, decide_eq_false_iff_not]
  omega

theorem isWordChar_of_isNameChar {c : Char} (h : isNameChar c = true) : isWordChar c = true := by
  simp only [isNameChar, Bool.or_eq_true, beq_iff_eq] at h
  rcases h with h | rfl
  · have hd : c ∉ delimiters := by
      intro hm
      have hmem : c ∈ ['#', '(', ')', '[', ']', ',', ';', '='] := hm
      simp only [List.mem_cons, List.not_mem_nil, or_false] at hmem
      rcases hmem with rfl | rfl | rfl | rfl | rfl | rfl | rfl | rfl <;> exact absurd h (by decide)
    simp [isWordChar, isBlank_of_isAlphanum h, hd]
  · decide

theorem isNameChar_of_isNameStart {c : Char} (h : isNameStart c = true) : isNameChar c = true := by
  simp only [isNameStart, isNameChar, Char.isAlphanum, Bool.or_eq_true, beq_iff_eq] at h ⊢
  rcases h with h | h
  · exact Or.inl (Or.inl h)
  · exact Or.inr h

theorem isNameChar_of_mem {w : Text} (h : isModuleName w = true) : ∀ c ∈ w, isNameChar c = true := by
  cases w with
  | nil => simp
  | cons d t =>
    simp only [isModuleName, Bool.and_eq_true, List.all_eq_true] at h
    intro c hc
    rcases List.mem_cons.1 hc with rfl | hc
    · exact isNameChar_of_isNameStart h.1
    · exact h.2 c hc

theorem isIdentifier_of_isModuleName {w : Text} (h : isModuleName w = true) :
    isIdentifier w = true := by
  cases w with
  | nil => simp [isModuleName] at h
  | cons c t =>
    simp only [isModuleName, isIdentifier, Bool.and_eq_true, List.all_eq_true, Bool.or_eq_true,
      beq_iff_eq] at h ⊢
    exact ⟨h.1, fun d hd => Or.inl (h.2 d hd)⟩

theorem ne_nil_of_isIdentifier {w : Text} (h : isIdentifier w = true) : w ≠ [] := by
  rintro rfl
  simp [isIdentifier] at h

theorem isWordChar_of_isIdentifier {w : Text} (h : isIdentifier w = true) :
    ∀ c ∈ w, isWordChar c = true ∧ c ≠ '/' := by
  cases w with
  | nil => simp
  | cons d t =>
    have hname : ∀ {c}, isNameChar c = true → isWordChar c = true ∧ c ≠ '/' := by
      intro c hc
      refine ⟨isWordChar_of_isNameChar hc, ?_⟩
      rintro rfl
      exact absurd hc (by decide)
    simp only [isIdentifier, Bool.and_eq_true, List.all_eq_true, Bool.or_eq_true, beq_iff_eq] at h
    intro c hc
    rcases List.mem_cons.1 hc with rfl | hc
    · exact hname (isNameChar_of_isNameStart h.1)
    · rcases h.2 c hc with hc | rfl
      · exact hname hc
      · decide

theorem solid_of_isIdentifier {w : Text} (h : isIdentifier w = true) : w.Solid :=
  ⟨ne_nil_of_isIdentifier h, fun c hc => isBlank_of_isWordChar (isWordChar_of_isIdentifier h c hc).1⟩

theorem trim_of_isModuleName {w : Text} (h : isModuleName w = true) : w.trim = w :=
  (solid_of_isIdentifier (isIdentifier_of_isModuleName h)).trimmed.2

theorem isNameChar_of_isBlank {c : Char} (h : isBlank c = true) : isNameChar c = false := by
  rw [Bool.eq_false_iff]
  intro hn
  have := isBlank_of_isWordChar (isWordChar_of_isNameChar hn)
  simp [h] at this

theorem takeName?_append {w u : Text} (hw : isModuleName w = true)
    (hu : ∀ c ∈ u.head?, isNameChar c = false) : takeName? (w ++ u) = some (w, u) := by
  cases w with
  | nil => simp [isModuleName] at hw
  | cons c t =>
    simp only [isModuleName, Bool.and_eq_true, List.all_eq_true] at hw
    rw [List.cons_append, takeName?, if_pos hw.1, takeWhile_append_of_head hw.2 hu,
      dropWhile_append_of_head hw.2 hu]

theorem afterKeyword?_append {w u : Text} (hw : isModuleName w = true)
    (hu : ∀ c ∈ u.head?, isNameChar c = false) (keyword : Text) :
    afterKeyword? keyword (w ++ u) = if w = keyword then some u else none := by
  unfold afterKeyword?
  rw [takeName?_append hw hu]
  rfl

theorem head?_of_isModuleName {w u : Text} (hw : isModuleName w = true) :
    ∀ c ∈ (w ++ u).head?, isBlank c = false := by
  cases w with
  | nil => simp [isModuleName] at hw
  | cons d t =>
    simp only [isModuleName, Bool.and_eq_true] at hw
    intro c hc
    obtain rfl : d = c := Option.some.inj hc
    exact isBlank_of_isWordChar (isWordChar_of_isNameChar (isNameChar_of_isNameStart hw.1))

/-- The line that the keyword and the name stand on is a header of that name. -/
theorem headerName?_module {lead gap name u : Text} (hlead : ∀ c ∈ lead, isBlank c = true)
    (hne : gap ≠ []) (hgap : ∀ c ∈ gap, isBlank c = true) (hname : isModuleName name = true)
    (hu : ∀ c ∈ u.head?, isNameChar c = false) :
    headerName? (lead ++ ("module".toList ++ (gap ++ (name ++ u)))) = some name := by
  have hmodule : isModuleName "module".toList = true := by decide
  have hfollow : ∀ c ∈ (gap ++ (name ++ u)).head?, isNameChar c = false := by
    obtain ⟨d, g, rfl⟩ := List.exists_cons_of_ne_nil hne
    intro c hc
    obtain rfl : d = c := Option.some.inj hc
    exact isNameChar_of_isBlank (hgap d (by simp))
  have hline : Text.trimStart (lead ++ ("module".toList ++ (gap ++ (name ++ u))))
      = "module".toList ++ (gap ++ (name ++ u)) :=
    dropWhile_append_of_head hlead (head?_of_isModuleName hmodule)
  have hrest : Text.trimStart (gap ++ (name ++ u)) = name ++ u :=
    dropWhile_append_of_head hgap (head?_of_isModuleName hname)
  unfold headerName?
  rw [hline, afterKeyword?_append hmodule hfollow, if_pos rfl]
  simp only [Option.bind_eq_bind, Option.bind_some, hrest, takeName?_append hname hu]

end Names

section Values

theorem Token.isBlank_of_mem_text {k : Token} (hk : k.Lexed) {c : Char} (hc : c ∈ k.text) :
    isBlank c = false := by
  cases k with
  | word w => exact isBlank_of_isWordChar (hk.2 c hc)
  | range r =>
    obtain ⟨inner, rfl, hi⟩ := hk
    simp only [text, List.mem_cons, List.mem_append, List.not_mem_nil, or_false] at hc
    rcases hc with rfl | hc | rfl
    · decide
    · exact (hi c hc).2
    · decide
  | other d =>
    obtain rfl : c = d := by simpa [text] using hc
    rcases hk with rfl | rfl <;> decide
  | hash | openParen | closeParen | comma | semicolon | equals =>
    obtain rfl := List.mem_singleton.1 hc
    decide

theorem Token.mem_join {c : Char} : ∀ {ts : List Token}, c ∈ join ts → c = ' ' ∨ ∃ k ∈ ts, c ∈ k.text
  | [], h => by simp [join] at h
  | t :: ts, h => by
    obtain ⟨gap, hgap, hj, -⟩ := join_cons t ts
    rw [hj] at h
    rcases List.mem_append.1 h with h | h
    · exact Or.inr ⟨t, by simp, h⟩
    · rcases List.mem_append.1 h with h | h
      · exact Or.inl (hgap c h)
      · rcases mem_join h with h | ⟨k, hk, hc⟩
        · exact Or.inl h
        · exact Or.inr ⟨k, List.mem_cons_of_mem _ hk, hc⟩

namespace Text.IsPlainValue

variable {v : Text}

theorem lineTokens_eq (h : v.IsPlainValue) : lineTokens v = tokens v :=
  lineTokens_of_not h.no_comment

theorem lexed (h : v.IsPlainValue) : ∀ k ∈ lineTokens v, k.Lexed := by
  rw [h.lineTokens_eq]
  exact lexed_of_mem_tokens v

theorem newline_not_mem (h : v.IsPlainValue) : '\n' ∉ v := by
  intro hn
  rw [← h.joined] at hn
  rcases Token.mem_join hn with hn | ⟨k, hk, hn⟩
  · exact absurd hn (by decide)
  · exact absurd (Token.isBlank_of_mem_text (h.lexed k hk) hn) (by decide)

theorem text_infix (h : v.IsPlainValue) {k : Token} (hk : k ∈ lineTokens v) : k.text <:+: v := by
  have := Token.text_infix_join hk
  rwa [h.joined] at this

theorem openParen_not_mem (h : v.IsPlainValue) : Token.openParen ∉ lineTokens v := fun hk =>
  h.no_open ((h.text_infix hk).subset (by simp [Token.text]))

theorem closeParen_not_mem (h : v.IsPlainValue) : Token.closeParen ∉ lineTokens v := fun hk =>
  h.no_close ((h.text_infix hk).subset (by simp [Token.text]))

end Text.IsPlainValue

theorem tokens_flatten_append : ∀ {gs : List Text}, (∀ g ∈ gs, g.IsRange) → ∀ u : Text,
    tokens (gs.flatten ++ u) = gs.map .range ++ tokens u
  | [], _, _ => rfl
  | g :: gs, h, u => by
    obtain ⟨inner, rfl, hi⟩ := h g (by simp)
    have hf : inner.filter (fun d => !isBlank d) = inner :=
      List.filter_eq_self.2 fun c hc => by simp [(hi c hc).2.1]
    have hr := tokens_range (fun c hc => (hi c hc).1) (gs.flatten ++ u)
    rw [hf, tokens_flatten_append fun k hk => h k (List.mem_cons_of_mem _ hk)] at hr
    simpa using hr

theorem tokens_flatten {gs : List Text} (h : ∀ g ∈ gs, g.IsRange) :
    tokens gs.flatten = gs.map .range := by
  have := tokens_flatten_append h []
  simpa [tokens_nil] using this

/-- What begins with a bracket is no number, and no parameter's name. -/
theorem Width.ofToken_of_bracket {u : Text} (h : ∀ c ∈ '[' :: u, isBlank c = false) :
    ofToken ('[' :: u) = .literal ('[' :: u) := by
  have hnat : Text.natural? bitsLimit ('[' :: u) = none := by
    simp [Text.natural?, Text.digits?, show Char.isDigit '[' = false by decide]
  unfold ofToken
  rw [Text.trim_of_no_blank h]
  simp only [hnat]
  rfl

namespace Text.IsBusRange

variable {t : Text}

theorem mem (h : t.IsBusRange) {c : Char} (hc : c ∈ t) :
    isBlank c = false ∧ c ≠ '(' ∧ c ≠ ')' := by
  obtain ⟨gs, -, rfl, hg⟩ := h.ranges
  obtain ⟨g, hgs, hc⟩ := List.mem_flatten.1 hc
  obtain ⟨inner, rfl, hi⟩ := hg g hgs
  simp only [List.mem_cons, List.mem_append, List.not_mem_nil, or_false] at hc
  rcases hc with rfl | hc | rfl
  · decide
  · exact (hi c hc).2
  · decide

theorem newline_not_mem (h : t.IsBusRange) : '\n' ∉ t := fun hn =>
  absurd (h.mem hn).1 (by decide)

theorem head? (h : t.IsBusRange) : t.head? = some '[' := by
  obtain ⟨gs, hne, rfl, hg⟩ := h.ranges
  obtain ⟨g, hs, rfl⟩ := List.exists_cons_of_ne_nil hne
  obtain ⟨inner, rfl, -⟩ := hg g (by simp)
  rfl

/-- A range is read as a literal width. -/
theorem ofToken_eq (h : t.IsBusRange) : Width.ofToken t = .literal t := by
  obtain ⟨u, rfl⟩ := List.head?_eq_some_iff.1 h.head?
  exact Width.ofToken_of_bracket fun c hc => (h.mem hc).1

end Text.IsBusRange

end Values

namespace Port

/-- The port as reading gives it: a width is a range. -/
def readBack (p : Port) : Port :=
  { p with width := p.width.map fun w => .literal w.text }

@[simp] theorem outline_readBack (p : Port) : p.readBack.outline = p.outline := by
  simp only [outline, readBack, Option.map_map]
  rfl

end Port

/-- The module read from a header has the outline of the module that was written, if the ports of
each direction come in the same order. -/
theorem Module.exists_create_readBack (m : Module) {ps : List Port}
    (h : ∀ d, ps.filter (fun p => p.direction = d) = m.ports.get d) :
    ∃ m', create m.name m.parameters (ps.map Port.readBack) = .ok m' ∧
      m'.outline = m.outline := by
  have htrim := m.name_trimmed.2
  have hget : ∀ d, ((PortTable.ofList (ps.map Port.readBack)).get d).map Port.outline
      = (m.ports.get d).map Port.outline := by
    intro d
    show ((ps.map Port.readBack).filter fun p => p.direction = d).map Port.outline = _
    rw [List.filter_map, ← h d, List.map_map]
    exact congrArg₂ List.map (funext Port.outline_readBack) rfl
  have hname : m.name.trim ≠ [] := by
    rw [htrim]
    exact m.name_trimmed.1
  refine ⟨⟨m.name.trim, m.parameters, .ofList (ps.map Port.readBack), Text.trimmed_trim hname⟩,
    dif_neg hname, ?_⟩
  simp only [outline, htrim, PortTable.toList, List.map_flatMap, hget]

section Outlines

theorem isEmpty_eq_of_map {α κ : Type} {key : α → κ} {l l' : List α} (h : l.map key = l'.map key) :
    l.isEmpty = l'.isEmpty := by
  rw [← List.isEmpty_map, h, List.isEmpty_map]

theorem map_eq_of_key {α β κ : Type} {key : α → κ} {f : α → β} (hf : ∀ a b, key a = key b → f a = f b) :
    ∀ {l l' : List α}, l.map key = l'.map key → l.map f = l'.map f
  | [], [], _ => rfl
  | [], _ :: _, h => by simp at h
  | _ :: _, [], h => by simp at h
  | a :: l, b :: l', h => by
    simp only [List.map_cons, List.cons.injEq] at h ⊢
    exact ⟨hf a b h.1, map_eq_of_key hf h.2⟩

theorem Module.map_outline_get {m m' : Module} (h : m.outline = m'.outline) (d : Direction) :
    (m.ports.get d).map Port.outline = (m'.ports.get d).map Port.outline :=
  PortTable.map_outline_toList_iff.1 (Prod.mk.inj (Prod.mk.inj h).2).2 d

theorem Port.readBack_eq_of_outline {p q : Port} (h : p.outline = q.outline) :
    p.readBack = q.readBack := by
  obtain ⟨hdirection, hrest⟩ := Prod.mk.inj h
  obtain ⟨hidentifier, hwidth⟩ := Prod.mk.inj hrest
  have hliteral : p.readBack.width = q.readBack.width := by
    have := congrArg (Option.map Width.literal) hwidth
    rwa [Option.map_map, Option.map_map] at this
  cases p
  cases q
  simp only [readBack, mk.injEq] at hdirection hidentifier hliteral ⊢
  exact ⟨hdirection, hidentifier, hliteral⟩

theorem Parameter.eq_of_outline {p q : Parameter} (h : p.outline = q.outline) : p = q := by
  cases p
  cases q
  simpa [outline] using h

/-- Modules whose widths are all ranges are equal when their outlines are. -/
theorem Module.eq_of_outline {m m' : Module} (hm : ∀ p ∈ m.ports.toList, p.readBack = p)
    (hm' : ∀ p ∈ m'.ports.toList, p.readBack = p) (h : m.outline = m'.outline) : m = m' := by
  have hname : m.name = m'.name := (Prod.mk.inj h).1
  have hparameters : m.parameters = m'.parameters := by
    have := map_eq_of_key (f := id) (fun _ _ => Parameter.eq_of_outline)
      (Prod.mk.inj (Prod.mk.inj h).2).1
    rwa [List.map_id, List.map_id] at this
  have hsame : ∀ (t : PortTable) d, (∀ p ∈ t.toList, p.readBack = p) →
      (t.get d).map Port.readBack = t.get d := by
    intro t d ht
    rw [List.map_congr_left fun p hp => ht p (List.mem_flatMap.2 ⟨d, Direction.mem_all d, hp⟩)]
    exact List.map_id _
  have hports : m.ports = m'.ports := by
    refine PortTable.ext fun d => ?_
    rw [← hsame m.ports d hm, ← hsame m'.ports d hm']
    exact map_eq_of_key (fun _ _ => Port.readBack_eq_of_outline) (m.map_outline_get h d)
  cases m
  cases m'
  simp only [mk.injEq] at hname hparameters hports ⊢
  exact ⟨hname, hparameters, hports⟩

end Outlines

end HdlScaffold
