import HdlScaffold.Proofs.Declarations
import HdlScaffold.Style

/-!
# Lines of a written declaration

A declaration is written in lines of known form. Each line of a list holds one entry, whose fields
read the same whatever follows them (`Text.ReadsAlone`), so the tokens of the line are the phrases of
the entry and perhaps a comma (`lineTokens_entryLines`).
-/

namespace HdlScaffold

section Fields

/-- The text reads the same whatever follows it, as long as no word runs on. -/
def Text.ReadsAlone (f : Text) : Prop :=
  ∀ u : Text, (∀ c ∈ u.head?, isWordChar c = false) → tokens (f ++ u) = tokens f ++ tokens u

theorem tokens_of_word {w : Text} (hne : w ≠ []) (hw : ∀ c ∈ w, isWordChar c = true) :
    tokens w = [.word w] := by
  have := tokens_word hne hw (t := []) (by simp)
  rwa [List.append_nil, tokens_nil] at this

theorem readsAlone_word {w : Text} (hne : w ≠ []) (hw : ∀ c ∈ w, isWordChar c = true) :
    w.ReadsAlone := by
  intro u hu
  rw [tokens_word hne hw hu, tokens_of_word hne hw, List.singleton_append]

theorem readsAlone_identifier {w : Text} (h : isIdentifier w = true) : w.ReadsAlone :=
  readsAlone_word (ne_nil_of_isIdentifier h) fun c hc => (isWordChar_of_isIdentifier h c hc).1

theorem readsAlone_ranges {t : Text} (h : t.IsBusRange) : t.ReadsAlone := by
  obtain ⟨gs, -, rfl, hg⟩ := h.ranges
  intro u _
  rw [tokens_flatten_append hg, tokens_flatten hg]

theorem tokens_identifier {w : Text} (h : isIdentifier w = true) : tokens w = [.word w] :=
  tokens_of_word (ne_nil_of_isIdentifier h) fun c hc => (isWordChar_of_isIdentifier h c hc).1

/-- Neither of two texts has a comment, and no slash stands between them. -/
theorem not_hasComment_around {a b : Text} {c : Char} (ha : ¬ HasComment a) (hb : ¬ HasComment b)
    (hc : c ≠ '/') : ¬ HasComment (a ++ c :: b) := by
  have hone : '/' ∉ [c] := by simpa using Ne.symm hc
  have hcb : ¬ HasComment ([c] ++ b) :=
    not_hasComment_append (not_hasComment_of_not_mem hone) hb fun h =>
      absurd (Option.some.inj h) hc
  exact not_hasComment_append ha hcb fun _ h => hc (Option.some.inj h)

theorem Indent.align_eq (i : Indent) (leading : List Text) (last : Text) : ∃ n,
    i.align (leading ++ [last])
      = (leading.flatMap fun f => f ++ ['\t']) ++ (List.replicate n '\t' ++ last) := by
  unfold Indent.align
  simp only [List.getLast?_append, List.getLast?_singleton, Option.some_or, List.dropLast_concat,
    List.append_assoc]
  exact ⟨_, rfl⟩

theorem Indent.mem_align {i : Indent} {leading : List Text} {last : Text} {c : Char}
    (h : c ∈ i.align (leading ++ [last])) : c = '\t' ∨ ∃ f ∈ leading ++ [last], c ∈ f := by
  obtain ⟨n, hn⟩ := i.align_eq leading last
  rw [hn] at h
  rcases List.mem_append.1 h with h | h
  · obtain ⟨f, hf, hc⟩ := List.mem_flatMap.1 h
    rcases List.mem_append.1 hc with hc | hc
    · exact Or.inr ⟨f, by simp [hf], hc⟩
    · exact Or.inl (List.mem_singleton.1 hc)
  · rcases List.mem_append.1 h with h | h
    · exact Or.inl (List.eq_of_mem_replicate h)
    · exact Or.inr ⟨last, by simp, h⟩

theorem tokens_leading : ∀ {leading : List Text}, (∀ f ∈ leading, f.ReadsAlone) → ∀ u : Text,
    tokens ((leading.flatMap fun f => f ++ ['\t']) ++ u) = leading.flatMap tokens ++ tokens u
  | [], _, _ => rfl
  | f :: leading, h, u => by
    have htab : isBlank '\t' = true := by decide
    have ih := tokens_leading (fun g hg => h g (List.mem_cons_of_mem _ hg)) u
    rw [List.flatMap_cons, List.append_assoc, List.append_assoc, List.singleton_append,
      h f (by simp) _ (by simp [isWordChar_of_isBlank htab]), tokens_blank htab, ih,
      List.flatMap_cons, List.append_assoc]

theorem tokens_align {i : Indent} {leading : List Text} (h : ∀ f ∈ leading, f.ReadsAlone)
    (last u : Text) : tokens (i.align (leading ++ [last]) ++ u)
      = leading.flatMap tokens ++ tokens (last ++ u) := by
  obtain ⟨n, hn⟩ := i.align_eq leading last
  have htabs : ∀ c ∈ List.replicate n '\t', isBlank c = true := by
    intro c hc
    rw [List.eq_of_mem_replicate hc]
    decide
  rw [hn, List.append_assoc, tokens_leading h, List.append_assoc, tokens_blanks htabs]

theorem not_hasComment_leading {t : Text} (ht : ¬ HasComment t) : ∀ {leading : List Text},
    (∀ f ∈ leading, ¬ HasComment f) →
      ¬ HasComment ((leading.flatMap fun f => f ++ ['\t']) ++ t)
  | [], _ => ht
  | f :: leading, h => by
    have ih := not_hasComment_leading ht fun g hg => h g (List.mem_cons_of_mem _ hg)
    rw [List.flatMap_cons, List.append_assoc, List.append_assoc, List.singleton_append]
    exact not_hasComment_around (h f (by simp)) ih (by decide)

theorem not_hasComment_align {i : Indent} {leading : List Text} {last : Text}
    (h : ∀ f ∈ leading ++ [last], ¬ HasComment f) :
    ¬ HasComment (i.align (leading ++ [last])) := by
  obtain ⟨n, hn⟩ := i.align_eq leading last
  have htabs : '/' ∉ List.replicate n '\t' := fun hm =>
    absurd (List.eq_of_mem_replicate hm) (by decide)
  have hlast : ¬ HasComment (List.replicate n '\t' ++ last) := by
    refine not_hasComment_append (not_hasComment_of_not_mem htabs) (h last (by simp)) fun hs => ?_
    exact absurd (List.mem_of_getLast? hs) htabs
  rw [hn]
  exact not_hasComment_leading hlast fun f hf => h f (by simp [hf])

end Fields

section Entries

variable {β : Type}

/-- The lines of a list, one for each entry. -/
def entryLines : List Text → List Text
  | [] => []
  | [entry] => ['\t' :: (entry ++ ['\n'])]
  | entry :: rest => ('\t' :: (entry ++ [',', '\n'])) :: entryLines rest

theorem flatten_entryLines : ∀ entries : List Text,
    (entryLines entries).flatten = listLines ['\t'] entries
  | [] => rfl
  | [entry] => by simp [entryLines, listLines]
  | entry :: next :: rest => by
    have ih := flatten_entryLines (next :: rest)
    show '\t' :: (entry ++ [',', '\n']) ++ (entryLines (next :: rest)).flatten = _
    rw [ih]
    show _ = ['\t'] ++ entry ++ ",\n".toList ++ listLines ['\t'] (next :: rest)
    simp

theorem exists_of_mem_entryLines {l : Text} : ∀ {entries : List Text}, l ∈ entryLines entries →
    ∃ entry ∈ entries, l = '\t' :: (entry ++ ['\n']) ∨ l = '\t' :: (entry ++ [',', '\n'])
  | [entry], h => ⟨entry, by simp, Or.inl (List.mem_singleton.1 h)⟩
  | entry :: next :: rest, h => by
    rcases List.mem_cons.1 h with rfl | h
    · exact ⟨entry, by simp, Or.inr rfl⟩
    · obtain ⟨e, he, hl⟩ := exists_of_mem_entryLines h
      exact ⟨e, List.mem_cons_of_mem _ he, hl⟩

theorem isLine_of_mem_entryLines {entries : List Text} (h : ∀ e ∈ entries, '\n' ∉ e) :
    ∀ l ∈ entryLines entries, l.IsLine := by
  intro l hl
  obtain ⟨e, he, rfl | rfl⟩ := exists_of_mem_entryLines hl
  · exact ⟨'\t' :: e, rfl, by simpa using h e he⟩
  · exact ⟨'\t' :: (e ++ [',']), by simp, by simpa using h e he⟩

theorem closeParen_not_mem_entryLines {entries : List Text} (h : ∀ e ∈ entries, ')' ∉ e) :
    ∀ l ∈ entryLines entries, ')' ∉ l := by
  intro l hl
  obtain ⟨e, he, rfl | rfl⟩ := exists_of_mem_entryLines hl <;> simpa using h e he

/-- The phrases of a list, those of one entry to a line. -/
def entryGroups : List (List (List Token)) → List (List (List Token))
  | [] => []
  | [entry] => [entry]
  | entry :: rest => (entry ++ [[.comma]]) :: entryGroups rest

theorem flatten_entryGroups : ∀ entries : List (List (List Token)),
    (entryGroups entries).flatten = Header.separated entries
  | [] => rfl
  | [entry] => by simp [entryGroups, Header.separated]
  | entry :: next :: rest => by
    have ih := flatten_entryGroups (next :: rest)
    show entry ++ [[.comma]] ++ (entryGroups (next :: rest)).flatten
      = entry ++ [.comma] :: Header.separated (next :: rest)
    rw [ih, List.append_assoc, List.singleton_append]

/-- An entry reads as its phrases, with the end of its line behind it. -/
structure EntryReads (entry : Text) (phrases : List (List Token)) : Prop where
  no_comment : ¬ HasComment entry
  tokens_append : ∀ u : Text, (∀ c ∈ u.head?, isWordChar c = false) → closeRange? u = none →
    tokens (entry ++ u) = phrases.flatten ++ tokens u

theorem EntryReads.lineTokens_eq {entry : Text} {phrases : List (List Token)}
    (h : EntryReads entry phrases) {u : Text} (hu : u = ['\n'] ∨ u = [',', '\n']) :
    lineTokens ('\t' :: (entry ++ u)) = phrases.flatten ++ tokens u := by
  have hcomment : ¬ HasComment ('\t' :: (entry ++ u)) := by
    rcases hu with rfl | rfl <;>
      exact not_hasComment_around (a := []) (by decide)
        (not_hasComment_around h.no_comment (by decide) (by decide)) (by decide)
  have hword : ∀ c ∈ u.head?, isWordChar c = false := by rcases hu with rfl | rfl <;> decide
  have hclose : closeRange? u = none := by rcases hu with rfl | rfl <;> rfl
  rw [lineTokens_of_not hcomment, tokens_blank (by decide), h.tokens_append u hword hclose]

theorem lineTokens_entryLines {write : β → Text} {phrases : β → List (List Token)} :
    ∀ {bs : List β}, (∀ b ∈ bs, EntryReads (write b) (phrases b)) →
      (entryLines (bs.map write)).map lineTokens
        = (entryGroups (bs.map phrases)).map List.flatten
  | [], _ => rfl
  | [b], h => by
    have hb := (h b (by simp)).lineTokens_eq (Or.inl rfl)
    rw [tokens_blank (by decide), tokens_nil, List.append_nil] at hb
    simp [entryLines, entryGroups, hb]
  | b :: c :: bs, h => by
    have hb := (h b (by simp)).lineTokens_eq (Or.inr rfl)
    rw [tokens_mark (k := .comma) rfl, tokens_blank (by decide), tokens_nil] at hb
    have ih := lineTokens_entryLines fun d hd => h d (List.mem_cons_of_mem _ hd)
    show lineTokens ('\t' :: (write b ++ [',', '\n'])) ::
        (entryLines ((c :: bs).map write)).map lineTokens
      = (phrases b ++ [[Token.comma]]).flatten :: (entryGroups ((c :: bs).map phrases)).map List.flatten
    rw [hb, ih, List.flatten_append]
    rfl

end Entries

namespace Style

open Header (parameterPhrases portPhrases namePhrase)

variable (s : Style)

/-- The type keywords that stand in a port's declaration. -/
def portTypes (p : Port) : List Text :=
  if s.outputReg && p.direction = .output then [s.language.registerKeyword] else []

theorem mem_portTypeKeywords {p : Port} : ∀ w ∈ s.portTypes p, w ∈ Header.portTypeKeywords := by
  have hregister : s.language.registerKeyword ∈ Header.portTypeKeywords := by
    cases s.language <;> decide
  intro w hw
  unfold portTypes at hw
  split_ifs at hw
  · rwa [List.mem_singleton.1 hw]
  · simp at hw

theorem isIdentifier_of_portTypeKeywords : ∀ w ∈ Header.portTypeKeywords,
    isIdentifier w = true := by decide

theorem isIdentifier_keyword (d : Direction) : isIdentifier d.keyword = true := by
  cases d <;> decide

/-- The fields of a port's declaration in front of its name. -/
def portLeading (p : Port) : List Text :=
  p.direction.keyword :: s.portTypes p ++ (p.width.map Width.text).toList

theorem portDeclaration_eq (p : Port) :
    s.portDeclaration p = s.indent.align (s.portLeading p ++ [p.identifier]) := by
  simp [portDeclaration, portFields, portLeading, portTypes]

variable {s}

theorem mem_portLeading {p : Port} (hp : p.WellFormed) {f : Text} (hf : f ∈ s.portLeading p) :
    isIdentifier f = true ∨ f.IsBusRange := by
  rcases List.mem_append.1 hf with hf | hf
  · rcases List.mem_cons.1 hf with rfl | hf
    · exact Or.inl (isIdentifier_keyword _)
    · exact Or.inl (isIdentifier_of_portTypeKeywords f (s.mem_portTypeKeywords f hf))
  · obtain ⟨w, hw, rfl⟩ := Option.map_eq_some_iff.1 (Option.mem_toList.1 hf)
    exact Or.inr (hp.width w hw)

theorem not_hasComment_identifier {w : Text} (h : isIdentifier w = true) : ¬ HasComment w :=
  not_hasComment_of_not_mem fun hm => (isWordChar_of_isIdentifier h _ hm).2 rfl

theorem flatMap_tokens_portLeading (p : Port) :
    (s.portLeading p).flatMap tokens ++ [.word p.identifier]
      = (portPhrases (s.portTypes p) p).flatten := by
  have htypes : (s.portTypes p).flatMap tokens = (s.portTypes p).map .word := by
    rw [List.map_eq_flatMap]
    refine List.flatMap_congr fun w hw => ?_
    exact tokens_identifier (isIdentifier_of_portTypeKeywords w (s.mem_portTypeKeywords w hw))
  have hwidth : ((p.width.map Width.text).toList).flatMap tokens
      = p.width.elim [] fun w => tokens w.text := by
    rcases p.width with _ | w <;> simp
  have hsingle : ∀ ts : List Token, (ts.map fun k => [k]).flatten = ts := by
    intro ts
    rw [← List.flatMap_def]
    exact List.flatMap_singleton' ts
  have hwords : ((s.portTypes p).map fun w => [Token.word w]).flatten
      = (s.portTypes p).map .word := by
    rw [← List.flatMap_def, ← List.map_eq_flatMap]
  simp only [portLeading, portPhrases, List.flatMap_append, List.flatMap_cons, List.flatten_append,
    List.flatten_cons, htypes, hwidth, hsingle, hwords, tokens_identifier (isIdentifier_keyword _)]
  simp

theorem entryReads_port {p : Port} (hp : p.WellFormed) :
    EntryReads (s.portDeclaration p) (portPhrases (s.portTypes p) p) := by
  rw [portDeclaration_eq]
  refine ⟨not_hasComment_align fun f hf => ?_, fun u hu _ => ?_⟩
  · rcases List.mem_append.1 hf with hf | hf
    · rcases mem_portLeading hp hf with hf | hf
      · exact not_hasComment_identifier hf
      · exact hf.no_comment
    · rw [List.mem_singleton.1 hf]
      exact not_hasComment_identifier hp.identifier
  · have halone : ∀ f ∈ s.portLeading p, f.ReadsAlone := by
      intro f hf
      rcases mem_portLeading hp hf with hf | hf
      · exact readsAlone_identifier hf
      · exact readsAlone_ranges hf
    rw [tokens_align halone, readsAlone_identifier hp.identifier u hu,
      tokens_identifier hp.identifier, ← List.append_assoc, flatMap_tokens_portLeading]

/-- What the characters of a port's declaration can be. -/
theorem mem_portDeclaration {p : Port} (hp : p.WellFormed) {c : Char}
    (hc : c ∈ s.portDeclaration p) : c ≠ '\n' ∧ c ≠ ')' := by
  have hname : ∀ {w : Text}, isIdentifier w = true → c ∈ w → c ≠ '\n' ∧ c ≠ ')' := by
    intro w hw hc
    have := (isWordChar_of_isIdentifier hw c hc).1
    constructor <;> rintro rfl <;> exact absurd this (by decide)
  rw [portDeclaration_eq] at hc
  rcases Indent.mem_align hc with rfl | ⟨f, hf, hc⟩
  · decide
  · rcases List.mem_append.1 hf with hf | hf
    · rcases mem_portLeading hp hf with hf | hf
      · exact hname hf hc
      · refine ⟨?_, (hf.mem hc).2.2⟩
        rintro rfl
        exact hf.newline_not_mem hc
    · rw [List.mem_singleton.1 hf] at hc
      exact hname hp.identifier hc

theorem parameterDeclaration_eq (p : Parameter) :
    s.parameterDeclaration p = s.indent.align (["parameter".toList] ++ [p.declaration]) := rfl

theorem not_hasComment_declaration {p : Parameter} (hp : p.WellFormed) :
    ¬ HasComment p.declaration := by
  have hname := not_hasComment_identifier hp.identifier
  unfold Parameter.declaration
  split
  · rename_i v hv
    rw [List.append_assoc]
    have heq : ¬ HasComment ([' ', '='] ++ ' ' :: v) :=
      not_hasComment_around (by decide) (hp.default v hv).no_comment (by decide)
    exact not_hasComment_append hname heq fun _ h => absurd (Option.some.inj h) (by decide)
  · exact hname

theorem tokens_declaration {p : Parameter} (hp : p.WellFormed) {u : Text}
    (hu : ∀ c ∈ u.head?, isWordChar c = false) (hclose : closeRange? u = none) :
    tokens (p.declaration ++ u) = namePhrase p ++ tokens u := by
  have hname := readsAlone_identifier hp.identifier
  unfold Parameter.declaration namePhrase
  split
  · rename_i v hv
    have hspace : isBlank ' ' = true := by decide
    have hstep : tokens (" = ".toList ++ (v ++ u)) = .equals :: tokens (v ++ u) := by
      show tokens (' ' :: '=' :: ' ' :: (v ++ u)) = _
      rw [tokens_blank hspace, tokens_mark (k := .equals) rfl, tokens_blank hspace]
    have hends : ∀ c ∈ (" = ".toList ++ (v ++ u)).head?, isWordChar c = false := by
      intro c hc
      obtain rfl : ' ' = c := Option.some.inj hc
      exact isWordChar_of_isBlank hspace
    rw [List.append_assoc, List.append_assoc, hname _ hends, tokens_identifier hp.identifier, hstep,
      tokens_append v hu hclose, hv, Option.elim_some, (hp.default v hv).lineTokens_eq]
    simp
  · rename_i hv
    rw [hname u hu, tokens_identifier hp.identifier, hv, Option.elim_none]

theorem entryReads_parameter {p : Parameter} (hp : p.WellFormed) :
    EntryReads (s.parameterDeclaration p) (parameterPhrases p) := by
  have hkeyword : isIdentifier "parameter".toList = true := by decide
  rw [parameterDeclaration_eq]
  refine ⟨not_hasComment_align fun f hf => ?_, fun u hu hclose => ?_⟩
  · rcases List.mem_append.1 hf with hf | hf <;> rw [List.mem_singleton.1 hf]
    · exact not_hasComment_identifier hkeyword
    · exact not_hasComment_declaration hp
  · have halone : ∀ f ∈ ["parameter".toList], Text.ReadsAlone f := by
      intro f hf
      rw [List.mem_singleton.1 hf]
      exact readsAlone_identifier hkeyword
    rw [tokens_align halone, tokens_declaration hp hu hclose, List.flatMap_singleton,
      tokens_identifier hkeyword, ← List.append_assoc]
    simp [parameterPhrases]

/-- In front of its default, a declaration consists of words, tabs and the equals sign. -/
theorem exists_parameterDeclaration_eq {p : Parameter} (hp : isIdentifier p.identifier = true) :
    ∃ lead, (∀ c ∈ lead, c ∉ "#();\n".toList) ∧
      s.parameterDeclaration p = lead ++ p.default.getD [] := by
  obtain ⟨n, hn⟩ := s.indent.align_eq ["parameter".toList] p.declaration
  obtain ⟨sign, hsign, hdeclaration⟩ : ∃ sign : Text, (∀ c ∈ sign, c ∉ "#();\n".toList) ∧
      p.declaration = p.identifier ++ sign ++ p.default.getD [] := by
    unfold Parameter.declaration
    split
    · rename_i v hv
      exact ⟨" = ".toList, by decide, by rw [hv, Option.getD_some]⟩
    · rename_i hv
      exact ⟨[], by simp, by rw [hv, Option.getD_none, List.append_nil, List.append_nil]⟩
  refine ⟨"parameter\t".toList ++ (List.replicate n '\t' ++ (p.identifier ++ sign)), fun c hc => ?_, ?_⟩
  · rcases List.mem_append.1 hc with hc | hc
    · exact (by decide : ∀ c ∈ "parameter\t".toList, c ∉ "#();\n".toList) c hc
    · rcases List.mem_append.1 hc with hc | hc
      · rw [List.eq_of_mem_replicate hc]
        decide
      · rcases List.mem_append.1 hc with hc | hc
        · have hword := (isWordChar_of_isIdentifier hp c hc).1
          exact fun hm => absurd hword
            ((by decide : ∀ c ∈ "#();\n".toList, ¬ isWordChar c = true) c hm)
        · exact hsign c hc
  · rw [parameterDeclaration_eq, hn, hdeclaration]
    simp

/-- What the characters of a parameter's declaration can be. -/
theorem mem_parameterDeclaration {p : Parameter} (hp : p.WellFormed) {c : Char}
    (hc : c ∈ s.parameterDeclaration p) : c ≠ '\n' ∧ c ≠ ')' := by
  obtain ⟨lead, hlead, heq⟩ := exists_parameterDeclaration_eq (s := s) hp.identifier
  rw [heq] at hc
  rcases List.mem_append.1 hc with hc | hc
  · constructor <;> rintro rfl <;> exact hlead _ hc (by decide)
  · rcases hv : p.default with _ | v <;> rw [hv] at hc
    · cases hc
    · have hplain := hp.default v hv
      constructor <;> rintro rfl
      · exact hplain.newline_not_mem hc
      · exact hplain.no_close hc

end Style

end HdlScaffold
