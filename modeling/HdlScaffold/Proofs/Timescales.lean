import HdlScaffold.Execution
import HdlScaffold.Proofs.ModuleFile
import HdlScaffold.Proofs.Outcomes
import HdlScaffold.Proofs.Signals

/-!
# Timescales

A timescale is read off the beginning of a text: a unit, a slash and a precision, with blanks allowed
in front of each. The reading takes as much of the text as it can (`unitAndPrecision?_eq_some_iff`), and
what it returns is read back as it is. No line of a written file but the first can be taken for a
timescale (`exists_moduleFile_eq`, `exists_testbench_eq`).
-/

namespace HdlScaffold

open Header

section Grammar

variable {raw t u p : Text}

/-- The text begins with the unit `u`, a slash and the precision `p`, perhaps with blanks in front of
each of the three. -/
structure Text.OpensScale (raw u p : Text) : Prop where
  unit : u ≠ [] ∧ ∀ c ∈ u, isQuantityChar c = true
  precision : p ≠ [] ∧ ∀ c ∈ p, isQuantityChar c = true
  layout : ∃ lead before after rest : Text,
    raw = lead ++ (u ++ (before ++ '/' :: (after ++ (p ++ rest)))) ∧
      (∀ c ∈ lead, isBlank c = true) ∧ (∀ c ∈ before, isBlank c = true) ∧
        ∀ c ∈ after, isBlank c = true

theorem takeQuantity?_eq_some {rest : Text} (h : takeQuantity? t = some (u, rest)) :
    t = u ++ rest := by
  unfold takeQuantity? at h
  simp only [] at h
  split_ifs at h
  simp only [Option.some.injEq, Prod.mk.injEq] at h
  obtain ⟨rfl, rfl⟩ := h
  exact List.takeWhile_append_dropWhile.symm

/-- A quantity goes on as far as the characters allow. -/
theorem takeQuantity?_of_quantity (hne : u ≠ []) (hu : ∀ c ∈ u, isQuantityChar c = true) (t : Text) :
    takeQuantity? (u ++ t) = some (u ++ t.takeWhile isQuantityChar, t.dropWhile isQuantityChar) := by
  unfold takeQuantity?
  simp only [List.takeWhile_append_of_pos hu, List.dropWhile_append_of_pos hu, List.append_eq_nil_iff,
    hne, false_and, if_false]

theorem trimStart_gap {gap : Text} (hgap : ∀ c ∈ gap, isBlank c = true) (hne : u ≠ [])
    (hu : ∀ c ∈ u, isQuantityChar c = true) (t : Text) :
    Text.trimStart (gap ++ (u ++ t)) = u ++ t := by
  refine dropWhile_append_of_head hgap ?_
  obtain ⟨c, v, rfl⟩ := List.exists_cons_of_ne_nil hne
  intro d hd
  obtain rfl : c = d := Option.some.inj hd
  exact isBlank_of_isQuantityChar (hu c (by simp))

/-- What follows a unit ends it. -/
theorem not_isQuantityChar_gap {before t : Text} (hbefore : ∀ c ∈ before, isBlank c = true) :
    ∀ c ∈ (before ++ '/' :: t).head?, isQuantityChar c = false := by
  intro c hc
  cases before with
  | nil =>
    obtain rfl : '/' = c := Option.some.inj hc
    decide
  | cons d before =>
    obtain rfl : d = c := Option.some.inj hc
    rw [← Bool.not_eq_true]
    intro hd
    exact absurd (hbefore d (by simp)) (by simp [isBlank_of_isQuantityChar hd])

theorem Text.OpensScale.exists_unitAndPrecision? (h : raw.OpensScale u p) :
    ∃ more, unitAndPrecision? raw = some (u ++ '/' :: (p ++ more)) ∧ raw.OpensScale u (p ++ more) := by
  obtain ⟨⟨hune, hu⟩, ⟨hpne, hp⟩, lead, before, after, rest, rfl, hlead, hbefore, hafter⟩ := h
  refine ⟨rest.takeWhile isQuantityChar, ?_, ⟨hune, hu⟩, ⟨by simp [hpne], fun c hc => ?_⟩, lead,
    before, after, rest.dropWhile isQuantityChar, ?_, hlead, hbefore, hafter⟩
  · have hslash : Text.dropOpening? ['/'] (Text.trimStart (before ++ '/' :: (after ++ (p ++ rest))))
        = some (after ++ (p ++ rest)) := by
      have hvisible : isBlank '/' = false := by decide
      rw [Text.trimStart, dropWhile_append_of_head hbefore (by simpa using hvisible)]
      rfl
    unfold unitAndPrecision?
    rw [trimStart_gap hlead hune hu, takeQuantity?_append hune hu (not_isQuantityChar_gap hbefore)]
    simp only [Option.bind_eq_bind, Option.bind_some, hslash, trimStart_gap hafter hpne hp,
      takeQuantity?_of_quantity hpne hp]
    simp
  · rcases List.mem_append.1 hc with hc | hc
    · exact hp c hc
    · exact List.mem_takeWhile_imp hc
  · rw [List.append_assoc, List.takeWhile_append_dropWhile]

theorem exists_opensScale (h : unitAndPrecision? raw = some t) :
    ∃ u p, t = u ++ '/' :: p ∧ raw.OpensScale u p := by
  unfold unitAndPrecision? at h
  simp only [Option.bind_eq_bind, Option.bind_eq_some_iff, Option.some.injEq] at h
  obtain ⟨⟨u, afterUnit⟩, hu, afterSlash, hslash, ⟨p, rest⟩, hp, rfl⟩ := h
  obtain ⟨lead, hraw, hlead⟩ := exists_blanks_trimStart raw
  obtain ⟨before, hunit, hbefore⟩ := exists_blanks_trimStart afterUnit
  obtain ⟨after, hprecision, hafter⟩ := exists_blanks_trimStart afterSlash
  have hcut : afterUnit.trimStart = '/' :: afterSlash := by
    unfold Text.dropOpening? at hslash
    split_ifs at hslash with hopening
    obtain ⟨v, hv⟩ := List.isPrefixOf_iff_prefix.1 hopening
    rw [← hv] at hslash ⊢
    rw [← Option.some.inj hslash]
    rfl
  refine ⟨u, p, by simp, mem_of_takeQuantity? hu, mem_of_takeQuantity? hp, lead, before, after, rest,
    ?_, hlead, hbefore, hafter⟩
  rw [← takeQuantity?_eq_some hp, ← hprecision, ← hcut, ← hunit, ← takeQuantity?_eq_some hu, ← hraw]

theorem eq_of_quantities {u' p' : Text} (hu : ∀ c ∈ u, isQuantityChar c = true)
    (hu' : ∀ c ∈ u', isQuantityChar c = true) (h : u ++ '/' :: p = u' ++ '/' :: p') :
    u = u' ∧ p = p' := by
  have hslash : ∀ {v : Text}, ∀ c ∈ ('/' :: v).head?, isQuantityChar c = false := by
    intro v c hc
    obtain rfl : '/' = c := Option.some.inj hc
    decide
  have hunit : u = u' := by
    rw [← takeWhile_append_of_head hu hslash, h, takeWhile_append_of_head hu' hslash]
  subst hunit
  exact ⟨rfl, List.cons.inj (List.append_cancel_left h) |>.2⟩

/-- The timescale of a text is made of the longest unit and precision that it begins with. -/
theorem unitAndPrecision?_eq_some_iff : unitAndPrecision? raw = some t ↔
    ∃ u p, t = u ++ '/' :: p ∧ raw.OpensScale u p ∧
      ∀ u' p', raw.OpensScale u' p' → u' = u ∧ p' <+: p := by
  constructor
  · intro h
    obtain ⟨u, p, rfl, hopens⟩ := exists_opensScale h
    refine ⟨u, p, rfl, hopens, fun u' p' hopens' => ?_⟩
    obtain ⟨more, hmore, -⟩ := hopens'.exists_unitAndPrecision?
    have heq := Option.some.inj (h.symm.trans hmore)
    obtain ⟨rfl, rfl⟩ := eq_of_quantities hopens.unit.2 hopens'.unit.2 heq
    exact ⟨rfl, List.prefix_append p' more⟩
  · rintro ⟨u, p, rfl, hopens, hlongest⟩
    obtain ⟨more, hmore, hopens'⟩ := hopens.exists_unitAndPrecision?
    have hle := (hlongest _ _ hopens').2.length_le
    rw [List.length_append] at hle
    have hnil : more = [] := List.length_eq_zero_iff.1 (by omega)
    rw [hmore, hnil, List.append_nil]

theorem isSome_unitAndPrecision?_iff :
    (unitAndPrecision? raw).isSome = true ↔ ∃ u p, raw.OpensScale u p := by
  constructor
  · intro h
    obtain ⟨t, ht⟩ := Option.isSome_iff_exists.1 h
    obtain ⟨u, p, -, hopens⟩ := exists_opensScale ht
    exact ⟨u, p, hopens⟩
  · rintro ⟨u, p, hopens⟩
    obtain ⟨more, hmore, -⟩ := hopens.exists_unitAndPrecision?
    rw [hmore]
    rfl

theorem unitAndPrecision?_of_isTimescale (ht : t.IsTimescale) : unitAndPrecision? t = some t := by
  have h : unitAndPrecision? (' ' :: (t ++ [])) = some t := unitAndPrecision?_append ht (by simp)
  rwa [List.append_nil] at h

/-- The text of a directive is read as the text alone. -/
theorem timescale?_directive_append (raw : Text) :
    timescale? ("`timescale ".toList ++ raw) = unitAndPrecision? raw := by
  have hopening : Text.dropOpening? ['\x60'] (Text.trimStart ("`timescale ".toList ++ raw))
      = some ("timescale".toList ++ ' ' :: raw) := rfl
  unfold timescale?
  rw [hopening, Option.bind_eq_bind, Option.bind_some,
    afterKeyword?_append (by decide) (by simp [isNameChar]), if_pos rfl]
  rfl

theorem ModuleRequest.normalTimescale_of_some (r : ModuleRequest) (hr : r.timescale = some raw) :
    r.normalTimescale
      = (unitAndPrecision? raw).elim (.error (.badTimescale raw)) fun t => .ok (some t) := by
  unfold normalTimescale
  rw [hr]
  rcases h : unitAndPrecision? raw with _ | t <;> simp only [h, Option.elim_none, Option.elim_some]

end Grammar

section Lines

/-- The text stays on one line and begins with neither a blank nor a backquote. -/
def Text.IsStatement (e : Text) : Prop :=
  '\n' ∉ e ∧ (e.head?.any fun c => !isBlank c && c != '\x60') = true

instance (e : Text) : Decidable e.IsStatement := inferInstanceAs (Decidable (_ ∧ _))

variable {e u lead margin : Text}

theorem Text.IsStatement.append (he : e.IsStatement) (hu : '\n' ∉ u) : (e ++ u).IsStatement := by
  obtain ⟨hnew, hfirst⟩ := he
  refine ⟨by simp [hnew, hu], ?_⟩
  cases e with
  | nil => simp at hfirst
  | cons c v => exact hfirst

theorem isStatement_name (h : isModuleName e = true) : e.IsStatement := by
  refine ⟨fun hn => absurd (isNameChar_of_mem h _ hn) (by decide), ?_⟩
  cases e with
  | nil => simp [isModuleName] at h
  | cons c v =>
    have hc := isNameChar_of_mem h c (by simp)
    have hne : c ≠ '\x60' := by
      rintro rfl
      exact absurd hc (by decide)
    simp [isBlank_of_isWordChar (isWordChar_of_isNameChar hc), hne]

theorem isStatement_align {i : Indent} {f last : Text} (leading : List Text) (hf : f.IsStatement)
    (hnew : ∀ g ∈ leading ++ [last], '\n' ∉ g) : (i.align (f :: leading ++ [last])).IsStatement := by
  obtain ⟨v, hv⟩ := exists_align_eq i f leading last
  rw [hv]
  refine hf.append fun hn => ?_
  have hmem : '\n' ∈ i.align ((f :: leading) ++ [last]) := by
    rw [List.cons_append] at hv ⊢
    rw [hv]
    exact List.mem_append_right f hn
  rcases Indent.mem_align hmem with h | ⟨g, hg, h⟩
  · exact absurd h (by decide)
  · rcases List.mem_cons.1 hg with rfl | hg
    · exact hf.1 h
    · exact hnew g hg h

namespace Text.Scaleless

variable {a b : Text}

theorem append (ha : a.Scaleless) (hb : b.Scaleless) : (a ++ b).Scaleless := by
  obtain ⟨ls, rfl, hls⟩ := ha
  obtain ⟨ks, rfl, hks⟩ := hb
  exact ⟨ls ++ ks, by simp, fun l hl => (List.mem_append.1 hl).elim (hls l) (hks l)⟩

theorem nil : Text.Scaleless [] := ⟨[], rfl, by simp⟩

theorem newline : Text.Scaleless ['\n'] :=
  ⟨[['\n']], rfl, fun l hl => by
    rw [List.mem_singleton.1 hl]
    exact ⟨isLine_newline, rfl⟩⟩

theorem flatMap {α : Type} {f : α → Text} {l : List α} (h : ∀ x ∈ l, (f x).Scaleless) :
    Text.Scaleless (l.flatMap f) := by
  induction l with
  | nil => exact nil
  | cons x l ih => exact append (h x (by simp)) (ih fun y hy => h y (by simp [hy]))

theorem statement (hlead : ∀ c ∈ lead, c = '\t') (he : e.IsStatement) :
    (lead ++ e ++ ['\n']).Scaleless := by
  obtain ⟨hnew, hfirst⟩ := he
  obtain ⟨c, hhead, hc⟩ := (Option.any_eq_true _ _).1 hfirst
  obtain ⟨v, rfl⟩ := List.head?_eq_some_iff.1 hhead
  obtain ⟨hc, hne⟩ : isBlank c = false ∧ c ≠ '\x60' := by simpa using hc
  have hblank : ∀ c ∈ lead, isBlank c = true := fun c hc => by
    rw [hlead c hc]
    decide
  refine ⟨[lead ++ c :: v ++ ['\n']], by simp, fun l hl => ?_⟩
  rw [List.mem_singleton.1 hl]
  refine ⟨isLine_directive (fun h => absurd (hlead _ h) (by decide)) hnew, ?_⟩
  rw [List.append_assoc]
  exact timescale?_of_first hblank hc hne

theorem listLines (hmargin : ∀ c ∈ margin, c = '\t') {entries : List Text}
    (h : ∀ e ∈ entries, e.IsStatement) : (listLines margin entries).Scaleless := by
  induction entries with
  | nil => exact nil
  | cons e rest ih =>
    have he := h e (by simp)
    cases rest with
    | nil => exact statement hmargin he
    | cons e' rest =>
      have hline := statement hmargin (he.append (u := [',']) (by simp))
      have hrest := ih fun x hx => h x (by simp [hx])
      simpa [HdlScaffold.listLines] using hline.append hrest

end Text.Scaleless

end Lines

section Testbenches

variable {m : Module}

theorem isStatement_connection (s : Style) {name value : Text} (hname : '\n' ∉ name)
    (hvalue : '\n' ∉ value) : (s.connection name value).IsStatement := by
  have hdot : Text.IsStatement (['.'] ++ name) := Text.IsStatement.append (by decide) hname
  exact isStatement_align [] hdot (by simpa using hvalue)

theorem Port.newline_not_mem_signal (p : Port) (strip : Bool) : '\n' ∉ p.signal strip := fun h =>
  absurd (p.not_blank_signal strip _ h) (by decide)

theorem isStatement_portConnection (s : Style) (ps : List Port) {e : Text}
    (he : e ∈ ps.map fun p => s.connection p.identifier (p.signal s.stripEndings)) :
    e.IsStatement := by
  obtain ⟨p, -, rfl⟩ := List.mem_map.1 he
  exact isStatement_connection s (fun h => absurd (p.solid.2 _ h) (by decide))
    (p.newline_not_mem_signal _)

theorem Module.Unbroken.isStatement_parameterConnection (hm : m.Unbroken) (s : Style) {e : Text}
    (he : e ∈ m.parameters.map fun p => s.connection p.identifier p.passedValue) :
    e.IsStatement := by
  obtain ⟨p, hp, rfl⟩ := List.mem_map.1 he
  obtain ⟨hidentifier, hdefault⟩ := hm.parameters p hp
  refine isStatement_connection s hidentifier ?_
  unfold Parameter.passedValue
  rcases hv : p.default with _ | v <;> rw [hv] at hdefault <;> assumption

theorem Module.Unbroken.isStatement_variableDeclaration (hm : m.Unbroken) (s : Style) {p : Port}
    (hp : p ∈ m.ports.toList) : (s.variableDeclaration p).IsStatement := by
  have hkeyword : (s.language.variableKeyword p.direction).IsStatement :=
    isStatement_name (by cases s.language <;> cases p.direction <;> decide)
  refine Text.IsStatement.append (isStatement_align _ hkeyword fun g hg => ?_) (by decide)
  rcases List.mem_append.1 hg with hg | hg
  · obtain ⟨w, hw, rfl⟩ := Option.map_eq_some_iff.1 (Option.mem_toList.1 hg)
    exact hm.widths p hp w hw
  · rw [List.mem_singleton.1 hg]
    exact p.newline_not_mem_signal _

theorem Module.Unbroken.scaleless_instantiation (hm : m.Unbroken) (s : Style) {name margin : Text}
    (hname : '\n' ∉ name) (hmargin : ∀ c ∈ margin, c = '\t') :
    (s.instantiation m name margin).Scaleless := by
  have hinner : ∀ c ∈ margin ++ ['\t'], c = '\t' := fun c hc =>
    (List.mem_append.1 hc).elim (hmargin c) List.mem_singleton.1
  -- the ports follow the name of the module, or the bracket that closes the parameters
  have hports : ∀ {e : Text}, e.IsStatement → (margin ++ e ++ [' '] ++ name ++
      if m.ports.toList.isEmpty then " ();\n".toList
      else " (\n".toList ++ listLines (margin ++ ['\t'])
          (m.ports.toList.map fun p => s.connection p.identifier (p.signal s.stripEndings)) ++
        margin ++ ");\n".toList).Scaleless := by
    intro e he
    have hopen := he.append (u := [' '] ++ name) (by simpa using hname)
    split_ifs
    · simpa using Text.Scaleless.statement hmargin (hopen.append (u := " ();".toList) (by decide))
    · have hfirst := Text.Scaleless.statement hmargin (hopen.append (u := " (".toList) (by decide))
      have hlast : (margin ++ ");".toList ++ ['\n']).Scaleless :=
        Text.Scaleless.statement hmargin (by decide)
      have hlines := Text.Scaleless.listLines hinner fun e he =>
        isStatement_portConnection s m.ports.toList he
      simpa using hfirst.append (hlines.append hlast)
  have hmodule := isStatement_name hm.name
  unfold Style.instantiation
  by_cases hempty : m.parameters.isEmpty = true
  · simp only [if_pos hempty, List.append_nil]
    exact hports hmodule
  · simp only [if_neg hempty]
    have hfirst := Text.Scaleless.statement hmargin (hmodule.append (u := " #(".toList) (by decide))
    have hlines := Text.Scaleless.listLines hinner fun e he =>
      hm.isStatement_parameterConnection s he
    have hrest := hports (e := [')']) (by decide)
    have hall := hfirst.append (hlines.append hrest)
    simp only [List.append_assoc] at hall ⊢
    exact hall

theorem Module.Unbroken.scaleless_testbenchVariables (hm : m.Unbroken) (o : FileOptions)
    (d : Direction) : (o.testbenchVariables m d).Scaleless := by
  have htab : ∀ c ∈ ['\t'], c = '\t' := by simp
  unfold FileOptions.testbenchVariables
  split_ifs
  · exact Text.Scaleless.nil
  · have hheading : Text.IsStatement ("// dut ".toList ++ d.keyword ++ ['s']) := by
      cases d <;> decide
    have hvariables : Text.Scaleless
        ((m.ports.get d).flatMap fun p => ['\t'] ++ o.variableDeclaration p ++ ['\n']) :=
      Text.Scaleless.flatMap fun p hp => Text.Scaleless.statement htab
        (hm.isStatement_variableDeclaration _ (List.mem_flatMap.2 ⟨d, d.mem_all, hp⟩))
    have hall := (Text.Scaleless.statement htab hheading).append
      (hvariables.append Text.Scaleless.newline)
    simpa using hall

/-- The only timescale of a testbench is the one on its first line. -/
theorem exists_testbench_eq (o : FileOptions) (hm : m.Unbroken) :
    ∃ rest, o.testbench m = o.timescaleLine ++ rest ∧ rest.Scaleless := by
  have hname : '\n' ∉ FileOptions.testbenchName m ++ [';'] := by
    simp [FileOptions.testbenchName, newline_not_mem_moduleName hm.name]
  have hmodule : Text.Scaleless
      ([] ++ ("module ".toList ++ (FileOptions.testbenchName m ++ [';'])) ++ ['\n']) :=
    .statement (by simp) (Text.IsStatement.append (by decide) hname)
  have hvariables : Text.Scaleless (Direction.all.flatMap (o.testbenchVariables m)) :=
    .flatMap fun d _ => hm.scaleless_testbenchVariables o d
  have hbegin : Text.Scaleless (['\t'] ++ "initial begin".toList ++ ['\n']) :=
    .statement (by simp) (by decide)
  have hfinish : Text.Scaleless (['\t', '\t'] ++ "$finish;".toList ++ ['\n']) :=
    .statement (by simp) (by decide)
  have hend : Text.Scaleless (['\t'] ++ "end".toList ++ ['\n']) :=
    .statement (by simp) (by decide)
  have hinstance : (o.instantiation m "dut".toList ['\t']).Scaleless :=
    hm.scaleless_instantiation o.toStyle (by decide) (by simp)
  have hclose : Text.Scaleless ([] ++ "endmodule".toList ++ ['\n']) :=
    .statement (by simp) (by decide)
  have hnew := Text.Scaleless.newline
  refine ⟨_, ?_, hmodule.append (hnew.append (hvariables.append (hbegin.append (hfinish.append
    (hend.append (hnew.append (hinstance.append (hnew.append hclose))))))))⟩
  unfold FileOptions.testbench
  simp

end Testbenches

/-- The timescale of a text is the longest unit and precision in front, is whole when read again, and is
what a module file and a testbench written with it give back. -/
theorem unitAndPrecision?_normalForm (raw : Text) :
    (∀ r : ModuleRequest, r.timescale = some raw → r.normalTimescale
        = (unitAndPrecision? raw).elim (.error (.badTimescale raw)) fun t => .ok (some t)) ∧
      timescale? ("`timescale ".toList ++ raw) = unitAndPrecision? raw ∧
      ((unitAndPrecision? raw).isSome = true ↔ ∃ u p, raw.OpensScale u p) ∧
      (∀ t, unitAndPrecision? raw = some t →
        (∃ u p, t = u ++ '/' :: p ∧ raw.OpensScale u p ∧
          ∀ u' p', raw.OpensScale u' p' → u' = u ∧ p' <+: p) ∧
        unitAndPrecision? t = some t) ∧
      ∀ (m : Module) (o : FileOptions), m.Unbroken →
        (o.timescale = none ∨ o.timescale = unitAndPrecision? raw) →
          (firstTimescale? (.ofBytes (o.moduleFile m).encode)).answer = .ok o.timescale ∧
            (firstTimescale? (.ofBytes (o.testbench m).encode)).answer = .ok o.timescale := by
  refine ⟨fun r hr => r.normalTimescale_of_some hr, timescale?_directive_append raw,
    isSome_unitAndPrecision?_iff, fun t ht => ?_, ?_⟩
  · exact ⟨unitAndPrecision?_eq_some_iff.1 ht,
      unitAndPrecision?_of_isTimescale (isTimescale_of_unitAndPrecision? ht)⟩
  · intro m o hm ho
    have hscale : ∀ t ∈ o.timescale, t.IsTimescale := by
      intro t ht
      rcases ho with ho | ho <;> rw [ho] at ht
      · simp at ht
      · exact isTimescale_of_unitAndPrecision? ht
    have hreads : ∀ {file rest : Text}, file = o.timescaleLine ++ rest → rest.Scaleless →
        (firstTimescale? (.ofBytes file.encode)).answer = .ok o.timescale := by
      rintro _ rest rfl hrest
      obtain ⟨r, notes, h⟩ := exists_yields_timescale hscale hrest
        (r := .ofBytes (o.timescaleLine ++ rest).encode) rfl
      rw [h]
    obtain ⟨rest, hmodule, hrest⟩ := exists_moduleFile_eq o hm
    obtain ⟨rest', htestbench, hrest'⟩ := exists_testbench_eq o hm
    exact ⟨hreads hmodule hrest, hreads htestbench hrest'⟩

def sampleOptions : FileOptions where
  indent := .ofColumns 4 24
  timescale := some "1ns/10.ps".toList
  includeGuards := true

theorem unitAndPrecision?_normalForm_sample :
    unitAndPrecision? " 1ns /\n10.ps_x".toList = some "1ns/10.ps".toList ∧ sampleModule.Unbroken ∧
      (firstTimescale? (.ofBytes (sampleOptions.moduleFile sampleModule).encode)).answer
        = .ok (some "1ns/10.ps".toList) ∧
      (firstTimescale? (.ofBytes (sampleOptions.testbench sampleModule).encode)).answer
        = .ok (some "1ns/10.ps".toList) := by
  have hscale : unitAndPrecision? " 1ns /\n10.ps_x".toList = some "1ns/10.ps".toList := by decide
  have hfiles := (unitAndPrecision?_normalForm " 1ns /\n10.ps_x".toList).2.2.2.2 sampleModule
    sampleOptions wellFormed_sampleModule.inLines.unbroken (Or.inr hscale.symm)
  exact ⟨hscale, wellFormed_sampleModule.inLines.unbroken, hfiles⟩

end HdlScaffold
