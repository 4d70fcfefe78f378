import HdlScaffold.Document
import HdlScaffold.Proofs.RoundTrip
import HdlScaffold.SourceFile

/-!
# Reading a module file

Around the declaration of a module file stand a timescale and include guards. None of their lines is
taken for a header, and no line of the declaration for a timescale, so a file gives back what it was
written from (`SourceFile.exists_reading_moduleFile`).
-/

namespace HdlScaffold

open Header

section Timescales

/-- A unit and a precision with a slash between them. -/
def Text.IsTimescale (t : Text) : Prop :=
  ∃ u p : Text, t = u ++ '/' :: p ∧ (u ≠ [] ∧ ∀ c ∈ u, isQuantityChar c = true) ∧
    p ≠ [] ∧ ∀ c ∈ p, isQuantityChar c = true

theorem takeQuantity?_append {u rest : Text} (hne : u ≠ []) (hu : ∀ c ∈ u, isQuantityChar c = true)
    (hrest : ∀ c ∈ rest.head?, isQuantityChar c = false) :
    takeQuantity? (u ++ rest) = some (u, rest) := by
  unfold takeQuantity?
  simp only [takeWhile_append_of_head hu hrest, dropWhile_append_of_head hu hrest, if_neg hne]

theorem mem_of_takeQuantity? {t u rest : Text} (h : takeQuantity? t = some (u, rest)) :
    u ≠ [] ∧ ∀ c ∈ u, isQuantityChar c = true := by
  unfold takeQuantity? at h
  simp only [] at h
  split_ifs at h with hne
  simp only [Option.some.injEq, Prod.mk.injEq] at h
  obtain ⟨rfl, -⟩ := h
  exact ⟨hne, fun c hc => List.mem_takeWhile_imp hc⟩

theorem isTimescale_of_unitAndPrecision? {raw t : Text} (h : unitAndPrecision? raw = some t) :
    t.IsTimescale := by
  unfold unitAndPrecision? at h
  simp only [Option.bind_eq_bind, Option.bind_eq_some_iff, Option.some.injEq] at h
  obtain ⟨⟨u, rest⟩, hu, rest', -, ⟨p, rest''⟩, hp, rfl⟩ := h
  exact ⟨u, p, by simp, mem_of_takeQuantity? hu, mem_of_takeQuantity? hp⟩

theorem isBlank_of_isQuantityChar {c : Char} (h : isQuantityChar c = true) : isBlank c = false := by
  simp only [isQuantityChar, Bool.or_eq_true, beq_iff_eq] at h
  rcases h with h | rfl
  · exact isBlank_of_isAlphanum h
  · decide

theorem trimStart_quantity {u rest : Text} (hne : u ≠ []) (hu : ∀ c ∈ u, isQuantityChar c = true) :
    Text.trimStart (u ++ rest) = u ++ rest := by
  obtain ⟨c, v, rfl⟩ := List.exists_cons_of_ne_nil hne
  refine Text.dropWhile_isBlank_of_head fun d hd => ?_
  obtain rfl : c = d := Option.some.inj hd
  exact isBlank_of_isQuantityChar (hu c (by simp))

/-- A timescale in its normal form is read as it is. -/
theorem unitAndPrecision?_append {t rest : Text} (ht : t.IsTimescale)
    (hrest : ∀ c ∈ rest.head?, isQuantityChar c = false) :
    unitAndPrecision? (' ' :: (t ++ rest)) = some t := by
  obtain ⟨u, p, rfl, ⟨hune, hu⟩, hpne, hp⟩ := ht
  have hstart : Text.trimStart (' ' :: (u ++ '/' :: (p ++ rest))) = u ++ '/' :: (p ++ rest) := by
    show Text.trimStart (u ++ '/' :: (p ++ rest)) = _
    exact trimStart_quantity hune hu
  have hslash : Text.dropOpening? ['/'] (Text.trimStart ('/' :: (p ++ rest))) = some (p ++ rest) := rfl
  unfold unitAndPrecision?
  rw [List.append_assoc, List.cons_append, hstart,
    takeQuantity?_append hune hu (by simp [isQuantityChar])]
  simp only [Option.bind_eq_bind, Option.bind_some, hslash, trimStart_quantity hpne hp,
    takeQuantity?_append hpne hp hrest]
  simp

theorem timescale?_line {t : Text} (ht : t.IsTimescale) :
    timescale? ("`timescale ".toList ++ t ++ ['\n']) = some t := by
  have hname : isModuleName "timescale".toList = true := by decide
  have hspace : ∀ c ∈ (' ' :: (t ++ ['\n'])).head?, isNameChar c = false := by
    intro c hc
    obtain rfl : ' ' = c := Option.some.inj hc
    decide
  have hopening : Text.dropOpening? ['\x60'] (Text.trimStart ("`timescale ".toList ++ t ++ ['\n']))
      = some ("timescale".toList ++ ' ' :: (t ++ ['\n'])) := rfl
  unfold timescale?
  rw [hopening, Option.bind_eq_bind, Option.bind_some, afterKeyword?_append hname hspace, if_pos rfl]
  exact unitAndPrecision?_append ht (by decide)

/-- A line whose first character is no backquote gives no timescale. -/
theorem timescale?_of_first {lead u : Text} {c : Char} (hlead : ∀ d ∈ lead, isBlank d = true)
    (hc : isBlank c = false) (hne : c ≠ '\x60') : timescale? (lead ++ c :: u) = none := by
  have htrim : Text.trimStart (lead ++ c :: u) = c :: u :=
    dropWhile_append_of_head hlead (by simpa using hc)
  have hopening : Text.dropOpening? ['\x60'] (c :: u) = none := by
    simp [Text.dropOpening?, List.isPrefixOf, Ne.symm hne]
  unfold timescale?
  rw [htrim, hopening]
  rfl

theorem headerName?_directive (u : Text) : headerName? ('\x60' :: u) = none := rfl

theorem timescale?_directive {w u : Text} (hw : isModuleName w = true)
    (hu : ∀ c ∈ u.head?, isNameChar c = false) (hne : w ≠ "timescale".toList) :
    timescale? ('\x60' :: (w ++ u)) = none := by
  have hopening : Text.dropOpening? ['\x60'] (Text.trimStart ('\x60' :: (w ++ u))) = some (w ++ u) :=
    rfl
  unfold timescale?
  rw [hopening, Option.bind_eq_bind, Option.bind_some, afterKeyword?_append hw hu, if_neg hne]
  rfl

/-- The text is made of lines, none of which gives a timescale. -/
def Text.Scaleless (t : Text) : Prop :=
  ∃ ls : List Text, t = ls.flatten ∧ ∀ l ∈ ls, l.IsLine ∧ timescale? l = none

end Timescales

section Lines

variable (o : FileOptions) (m : Module)

namespace FileOptions

def timescaleLines : List Text :=
  o.timescale.elim [] fun t => ["`timescale ".toList ++ t ++ ['\n'], ['\n']]

def guardLines : List Text :=
  if o.includeGuards then
    ["`ifndef ".toList ++ o.guardMacro m ++ ['\n'], "`define ".toList ++ o.guardMacro m ++ ['\n'],
      ['\n']]
  else []

def closingLines : List Text :=
  if o.includeGuards then [['\n'], "`endif // ".toList ++ o.guardMacro m ++ ['\n']] else []

theorem flatten_timescaleLines : o.timescaleLines.flatten = o.timescaleLine := by
  unfold timescaleLine timescaleLines
  rcases o.timescale with _ | t <;> simp

theorem moduleFile_eq : o.moduleFile m
    = ((o.timescaleLines ++ o.guardLines m).flatten ++ o.declaration m) ++
        (o.closingLines m).flatten := by
  rw [List.flatten_append, flatten_timescaleLines]
  unfold moduleFile guardLines closingLines
  split_ifs <;> simp

end FileOptions

variable {o m}

theorem newline_not_mem_upperChar {c : Char} (h : isNameChar c = true) : '\n' ∉ upperChar c := by
  have hsmall : c.toNat < 128 := by
    simp only [isNameChar, Bool.or_eq_true, beq_iff_eq] at h
    rcases h with h | rfl
    · have := toNat_of_isAlphanum h
      omega
    · decide
  have hall : ∀ n : Fin 128, isNameChar (Char.ofNat n) = true → '\n' ∉ upperChar (Char.ofNat n) := by
    decide +kernel
  have hc := hall ⟨c.toNat, hsmall⟩
  simp only [Char.ofNat_toNat] at hc
  exact hc h

theorem newline_not_mem_guardMacro (hm : isModuleName m.name = true) : '\n' ∉ o.guardMacro m := by
  have hlanguage : '\n' ∉ o.language.extension.upper := by cases o.language <;> decide
  have hname : '\n' ∉ m.name.upper := by
    intro h
    obtain ⟨c, hc, hn⟩ := List.mem_flatMap.1 h
    exact newline_not_mem_upperChar (isNameChar_of_mem hm c hc) hn
  unfold FileOptions.guardMacro
  simp [hlanguage, hname]

theorem isLine_directive {w u : Text} (hw : '\n' ∉ w) (hu : '\n' ∉ u) :
    Text.IsLine (w ++ u ++ ['\n']) := ⟨w ++ u, rfl, by simp [hw, hu]⟩

theorem isLine_newline : Text.IsLine ['\n'] := ⟨[], rfl, by simp⟩

theorem newline_not_mem_timescale {t : Text} (ht : t.IsTimescale) : '\n' ∉ t := by
  obtain ⟨u, p, rfl, ⟨-, hu⟩, -, hp⟩ := ht
  intro h
  rcases List.mem_append.1 h with h | h
  · exact absurd (hu _ h) (by decide)
  · rcases List.mem_cons.1 h with h | h
    · exact absurd h (by decide)
    · exact absurd (hp _ h) (by decide)

theorem mem_timescaleLines (ht : ∀ t ∈ o.timescale, t.IsTimescale) :
    ∀ l ∈ o.timescaleLines, l.IsLine ∧ headerName? l = none := by
  unfold FileOptions.timescaleLines
  rcases ho : o.timescale with _ | t
  · simp
  · have hnew := newline_not_mem_timescale (ht t ho)
    intro l hl
    simp only [Option.elim_some, List.mem_cons, List.not_mem_nil, or_false] at hl
    rcases hl with rfl | rfl
    · exact ⟨isLine_directive (by decide) hnew, headerName?_directive _⟩
    · exact ⟨isLine_newline, rfl⟩

/-- The lines of the guards are neither headers nor timescales. -/
theorem mem_guardLines (hm : isModuleName m.name = true) {l : Text}
    (hl : l ∈ o.guardLines m ∨ l ∈ o.closingLines m) :
    l.IsLine ∧ headerName? l = none ∧ timescale? l = none := by
  have hmacro := newline_not_mem_guardMacro hm (o := o)
  have hdirective : ∀ {w u : Text}, isModuleName w = true → w ≠ "timescale".toList →
      timescale? (('\x60' :: (w ++ ' ' :: u)) ++ o.guardMacro m ++ ['\n']) = none := by
    intro w u hw hne
    rw [List.cons_append, List.cons_append, List.append_assoc, List.append_assoc, List.cons_append]
    exact timescale?_directive hw (by simp [isNameChar]) hne
  unfold FileOptions.guardLines FileOptions.closingLines at hl
  split_ifs at hl
  · simp only [List.mem_cons, List.not_mem_nil, or_false] at hl
    rcases hl with (rfl | rfl | rfl) | rfl | rfl
    · exact ⟨isLine_directive (by decide) hmacro, headerName?_directive _,
        hdirective (w := "ifndef".toList) (u := []) (by decide) (by decide)⟩
    · exact ⟨isLine_directive (by decide) hmacro, headerName?_directive _,
        hdirective (w := "define".toList) (u := []) (by decide) (by decide)⟩
    · exact ⟨isLine_newline, rfl, rfl⟩
    · exact ⟨isLine_newline, rfl, rfl⟩
    · exact ⟨isLine_directive (by decide) hmacro, headerName?_directive _,
        hdirective (w := "endif".toList) (u := "// ".toList) (by decide) (by decide)⟩
  · simp at hl

theorem timescale?_name {lead w u : Text} (hlead : ∀ d ∈ lead, isBlank d = true)
    (hw : isIdentifier w = true) : timescale? (lead ++ (w ++ u)) = none := by
  cases w with
  | nil => simp [isIdentifier] at hw
  | cons c w =>
    have hword := (isWordChar_of_isIdentifier hw c (by simp)).1
    simp only [isIdentifier, Bool.and_eq_true] at hw
    refine timescale?_of_first hlead (isBlank_of_isWordChar hword) ?_
    rintro rfl
    exact absurd hw.1 (by decide)

theorem exists_align_eq (i : Indent) (f : Text) (leading : List Text) (last : Text) :
    ∃ u, i.align (f :: leading ++ [last]) = f ++ u := by
  obtain ⟨n, hn⟩ := i.align_eq (f :: leading) last
  exact ⟨_, by rw [hn, List.flatMap_cons, List.append_assoc, List.append_assoc]⟩

theorem timescale?_entryLines {entries : List Text}
    (h : ∀ e ∈ entries, ∃ w u : Text, isIdentifier w = true ∧ e = w ++ u) :
    ∀ l ∈ entryLines entries, timescale? l = none := by
  have htab : ∀ c ∈ ['\t'], isBlank c = true := by decide
  intro l hl
  obtain ⟨e, he, hle⟩ := exists_of_mem_entryLines hl
  obtain ⟨w, u, hw, rfl⟩ := h e he
  rcases hle with rfl | rfl <;> rw [List.append_assoc] <;>
    exact @timescale?_name ['\t'] w _ htab hw

/-- No line of a written declaration is taken for a timescale. -/
theorem timescale?_headerLines (s : Style) (m : Module) :
    ∀ l ∈ s.headerLines m, timescale? l = none := by
  have hmodule : ∀ u, timescale? ("module ".toList ++ u) = none := fun u =>
    @timescale?_of_first [] _ _ (by simp) (by decide) (by decide)
  intro l hl
  rcases List.mem_append.1 hl with hl | hl
  · unfold Style.parameterLines at hl
    split_ifs at hl
    · simp at hl
    · rcases List.mem_cons.1 hl with rfl | hl
      · exact hmodule _
      · refine timescale?_entryLines (fun e he => ?_) l hl
        obtain ⟨p, -, rfl⟩ := List.mem_map.1 he
        obtain ⟨u, hu⟩ := exists_align_eq s.indent "parameter".toList [] p.declaration
        exact ⟨_, u, by decide, hu⟩
  · rcases List.mem_cons.1 hl with rfl | hl
    · unfold Module.portLead
      split_ifs
      · rw [List.append_assoc]
        exact hmodule _
      · exact @timescale?_of_first [] _ _ (by simp) (by decide) (by decide)
    · unfold Style.portLines at hl
      split_ifs at hl
      · simp at hl
      · rcases List.mem_append.1 hl with hl | hl
        · refine timescale?_entryLines (fun e he => ?_) l hl
          obtain ⟨p, -, rfl⟩ := List.mem_map.1 he
          obtain ⟨u, hu⟩ := exists_align_eq s.indent p.direction.keyword
            (s.portTypes p ++ (p.width.map Width.text).toList) p.identifier
          refine ⟨_, u, Style.isIdentifier_keyword p.direction, ?_⟩
          rw [Style.portDeclaration_eq, ← hu]
          rfl
        · rw [List.mem_singleton.1 hl]
          rfl

end Lines

section Reading

variable {o : FileOptions} {m : Module}

/-- The only timescale of a module file is the one on its first line. -/
theorem exists_moduleFile_eq (o : FileOptions) (hm : m.Unbroken) :
    ∃ rest, o.moduleFile m = o.timescaleLine ++ rest ∧ rest.Scaleless := by
  refine ⟨_, ?_, o.guardLines m ++ o.headerLines m ++ [['\n'], "endmodule\n".toList] ++
    o.closingLines m, rfl, fun l hl => ?_⟩
  · rw [o.moduleFile_eq, List.flatten_append, o.flatten_timescaleLines, Style.declaration_eq]
    simp
  · simp only [List.mem_append, List.mem_cons, List.not_mem_nil, or_false] at hl
    rcases hl with ((hl | hl) | rfl | rfl) | hl
    · have hguard := mem_guardLines hm.name (Or.inl hl)
      exact ⟨hguard.1, hguard.2.2⟩
    · exact ⟨isLine_of_mem_headerLines hm l hl, timescale?_headerLines _ m l hl⟩
    · exact ⟨isLine_newline, rfl⟩
    · exact ⟨⟨"endmodule".toList, rfl, by decide⟩, rfl⟩
    · have hguard := mem_guardLines hm.name (Or.inr hl)
      exact ⟨hguard.1, hguard.2.2⟩

/-- The timescale of a file is the one it was written with. -/
theorem exists_yields_timescale (ht : ∀ t ∈ o.timescale, t.IsTimescale) {rest : Text}
    (hrest : rest.Scaleless) {r : LineReader} (hr : r.source = (o.timescaleLine ++ rest).encode) :
    ∃ t, firstTimescale?.Yields r o.timescale t := by
  obtain ⟨ls, rfl, hls⟩ := hrest
  have hlines : ∀ l ∈ o.timescaleLines ++ ls, l.IsLine := by
    intro l hl
    rcases List.mem_append.1 hl with hl | hl
    · exact (mem_timescaleLines ht l hl).1
    · exact (hls l hl).1
  have hbegins := beginsWith_of_isLine hlines []
  have hbefore : r.restart.Before (o.timescaleLines ++ ls) [] := LineReader.ofBytes_before (by
    rwa [List.append_nil, List.flatten_append, o.flatten_timescaleLines, ← hr] at hbegins)
  rcases ho : o.timescale with _ | t
  · simp only [FileOptions.timescaleLines, ho, Option.elim_none, List.nil_append] at hbefore
    have hfind := Reading.find?_of_end hbefore fun l hl => (hls l hl).2
    exact ⟨_, (Reading.yields_restart r).bind (hfind.bind (Reading.yields_pure _ _))⟩
  · have hfirst : timescale? ("`timescale ".toList ++ t ++ ['\n']) = some t :=
      timescale?_line (ht t ho)
    simp only [FileOptions.timescaleLines, ho, Option.elim_some, List.cons_append] at hbefore
    have hnext : r.restart.Before ([] ++ ("`timescale ".toList ++ t ++ ['\n']) :: _) [] := hbefore
    have hfind := Reading.find?_of_before hnext (by simp) hfirst
    exact ⟨_, (Reading.yields_restart r).bind (hfind.bind (Reading.yields_pure _ _))⟩

/-- A module file gives back the timescale and the module that it was written from. -/
theorem SourceFile.exists_reading_moduleFile (hm : m.WellFormed)
    (ht : ∀ t ∈ o.timescale, t.IsTimescale) (language : Language) :
    ∃ f, (SourceFile.reading language (.ofBytes (o.moduleFile m).encode)).answer = .ok (some f) ∧
      f.language = language ∧ f.timescale = o.timescale ∧ f.module.outline = m.outline := by
  have hpre : ∀ l ∈ o.timescaleLines ++ o.guardLines m, l.IsLine ∧ headerName? l = none := by
    intro l hl
    rcases List.mem_append.1 hl with hl | hl
    · exact mem_timescaleLines ht l hl
    · exact ⟨(mem_guardLines hm.name (Or.inl hl)).1, (mem_guardLines hm.name (Or.inl hl)).2.1⟩
  have hsource : (o.moduleFile m).encode
      = Text.encode ((o.timescaleLines ++ o.guardLines m).flatten ++ o.declaration m) ++
          Text.encode (o.closingLines m).flatten := by
    rw [o.moduleFile_eq, Text.encode_append]
  obtain ⟨m', ls, hmodule, houtline⟩ := exists_yields_declaration hm o.toStyle hpre _ hsource
  obtain ⟨rest, hfile, hrest⟩ := exists_moduleFile_eq o hm.inLines.unbroken
  obtain ⟨t, htimescale⟩ := exists_yields_timescale ht hrest
    (r := (LineReader.ofBytes (o.moduleFile m).encode).pass ls) (congrArg Text.encode hfile)
  have hread : (SourceFile.reading language).Yields (.ofBytes (o.moduleFile m).encode)
      (some ⟨language, o.timescale, m'⟩) t :=
    hmodule.bind (htimescale.bind (Reading.yields_pure _ _))
  obtain ⟨notes, hnotes⟩ := hread
  refine ⟨⟨language, o.timescale, m'⟩, ?_, rfl, rfl, houtline⟩
  rw [hnotes]

end Reading

end HdlScaffold
