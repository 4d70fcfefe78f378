import HdlScaffold.Document
import HdlScaffold.Proofs.WrittenLines
import Mathlib.Data.List.DropRight
import Mathlib.Data.List.Nodup

/-!
# Signals of a testbench

A testbench declares one variable for each port and wires the port to it. The variable has the name of
the port, perhaps without an ending that names a direction, so two ports can meet in one variable. They
do exactly when their names leave the same stem (`Port.withoutEnding_eq_iff`). In every other case, and
always when the endings are kept, each port has a variable of its own
(`FileOptions.nodup_declaredNames_iff`).
-/

namespace HdlScaffold

namespace Text

variable {t u e x : Text} {c : Char}

theorem dropEnding?_eq_some_iff : dropEnding? e t = some u ↔ t = u ++ e := by
  rw [dropEnding?, Option.ite_none_right_eq_some, List.isSuffixOf_iff_suffix]
  constructor
  · rintro ⟨⟨v, rfl⟩, h⟩
    rw [List.length_append, Nat.add_sub_cancel, List.take_left] at h
    rw [Option.some.inj h]
  · rintro rfl
    refine ⟨List.suffix_append u e, ?_⟩
    rw [List.length_append, Nat.add_sub_cancel, List.take_left]

/-- The last word of a text. -/
def lastWord (t : Text) : Text := t.rtakeWhile fun c => !isBlank c

theorem lastWord_append_cons (hc : isBlank c = true) (ht : ∀ d ∈ t, isBlank d = false) :
    (x ++ c :: t).lastWord = t := by
  rw [lastWord, List.rtakeWhile, List.reverse_append, List.reverse_cons, List.append_assoc,
    List.takeWhile_append_of_pos (by simpa using ht), List.singleton_append,
    List.takeWhile_cons_of_neg (by simp [hc]), List.append_nil, List.reverse_reverse]

end Text

namespace Port

variable {a b e f stem : Text}

theorem eq_of_suffix_ending :
    ∀ e ∈ directionEndings, ∀ f ∈ directionEndings, e <:+ f → e = f := by decide

/-- A name has one ending at most. -/
theorem ending_unique (he : e ∈ directionEndings) (hf : f ∈ directionEndings)
    (h : a ++ e = b ++ f) : a = b ∧ e = f := by
  -- both end the same text, so one of them ends in the other
  have hef : e = f := by
    rcases List.suffix_or_suffix_of_suffix (List.suffix_append a e) (h ▸ List.suffix_append b f)
      with hs | hs
    · exact eq_of_suffix_ending e he f hf hs
    · exact (eq_of_suffix_ending f hf e he hs).symm
  rw [hef] at h
  exact ⟨List.append_cancel_right h, hef⟩

/-- The stem is what the name leaves without an ending that names a direction: the name is the stem
and such an ending, or it is the stem and no ending comes off it. -/
def Leaves (name stem : Text) : Prop :=
  stem ≠ [] ∧ ((∃ e ∈ directionEndings, name = stem ++ e) ∨
    name = stem ∧ ∀ e ∈ directionEndings, ∀ u, name = u ++ e → u = [])

/-- In whichever order the endings are tried, what is found is what one of them leaves. -/
theorem findSome?_dropEnding?_iff {endings : List Text} (h : endings.Perm directionEndings) :
    endings.findSome? (Text.dropEnding? · a) = some stem ↔ ∃ e ∈ directionEndings, a = stem ++ e := by
  constructor
  · intro hfind
    obtain ⟨e, he, hstem⟩ := List.exists_of_findSome?_eq_some hfind
    exact ⟨e, h.mem_iff.1 he, Text.dropEnding?_eq_some_iff.1 hstem⟩
  · rintro ⟨e, he, rfl⟩
    rcases hfind : endings.findSome? (Text.dropEnding? · (stem ++ e)) with _ | u
    · have hnone := List.findSome?_eq_none_iff.1 hfind e (h.mem_iff.2 he)
      rw [Text.dropEnding?_eq_some_iff.2 rfl] at hnone
      cases hnone
    · obtain ⟨f, hf, hu⟩ := List.exists_of_findSome?_eq_some hfind
      rw [(ending_unique he (h.mem_iff.1 hf) (Text.dropEnding?_eq_some_iff.1 hu)).1]

theorem withoutEnding_append (hstem : stem ≠ []) (he : e ∈ directionEndings) :
    withoutEnding (stem ++ e) = stem := by
  have hfind : directionEndings.findSome? (Text.dropEnding? · (stem ++ e)) = some stem :=
    (findSome?_dropEnding?_iff (List.Perm.refl _)).2 ⟨e, he, rfl⟩
  obtain ⟨c, u, rfl⟩ := List.exists_cons_of_ne_nil hstem
  rw [withoutEnding, hfind]

theorem withoutEnding_of_forall (h : ∀ e ∈ directionEndings, ∀ u, a = u ++ e → u = []) :
    withoutEnding a = a := by
  rcases hfind : directionEndings.findSome? (Text.dropEnding? · a) with _ | _ | ⟨c, u⟩
  · rw [withoutEnding, hfind]
  · rw [withoutEnding, hfind]
  · obtain ⟨e, he, hu⟩ := List.exists_of_findSome?_eq_some hfind
    cases h e he _ (Text.dropEnding?_eq_some_iff.1 hu)

/-- A name comes off its stem with an ending, or no ending comes off it. -/
theorem ending_cases (a : Text) : (∃ e ∈ directionEndings, ∃ u, u ≠ [] ∧ a = u ++ e) ∨
    ∀ e ∈ directionEndings, ∀ u, a = u ++ e → u = [] := by
  by_cases h : ∃ e ∈ directionEndings, ∃ u, u ≠ [] ∧ a = u ++ e
  · exact Or.inl h
  · push Not at h
    exact Or.inr fun e he u hu => by_contra fun hne => h e he u hne hu

theorem withoutEnding_eq_iff (ha : a ≠ []) : withoutEnding a = stem ↔ Leaves a stem := by
  constructor
  · rintro rfl
    rcases ending_cases a with ⟨e, he, u, hu, rfl⟩ | h
    · rw [withoutEnding_append hu he]
      exact ⟨hu, Or.inl ⟨e, he, rfl⟩⟩
    · rw [withoutEnding_of_forall h]
      exact ⟨ha, Or.inr ⟨rfl, h⟩⟩
  · rintro ⟨hstem, ⟨e, he, rfl⟩ | ⟨rfl, h⟩⟩
    · exact withoutEnding_append hstem he
    · exact withoutEnding_of_forall h

theorem isPrefix_withoutEnding (a : Text) : withoutEnding a <+: a := by
  rcases ending_cases a with ⟨e, he, u, hu, rfl⟩ | h
  · rw [withoutEnding_append hu he]
    exact List.prefix_append u e
  · rw [withoutEnding_of_forall h]

theorem not_blank_signal (p : Port) (strip : Bool) : ∀ c ∈ p.signal strip, isBlank c = false := by
  unfold signal
  split_ifs
  · exact fun c hc => p.solid.2 c ((isPrefix_withoutEnding _).subset hc)
  · exact p.solid.2

end Port

theorem Indent.exists_align_eq_tab (i : Indent) (f : Text) (leading : List Text) (last : Text) :
    ∃ x, i.align (f :: leading ++ [last]) = x ++ '\t' :: last := by
  obtain ⟨n, hn⟩ := i.align_eq (f :: leading) last
  obtain ⟨before, g, hg⟩ := (List.eq_nil_or_concat (f :: leading)).resolve_left (by simp)
  have htabs : '\t' :: (List.replicate n '\t' ++ last) = List.replicate n '\t' ++ '\t' :: last := by
    rw [← List.cons_append, ← List.replicate_succ, List.replicate_succ', List.append_assoc,
      List.singleton_append]
  refine ⟨(before.flatMap fun f => f ++ ['\t']) ++ g ++ List.replicate n '\t', ?_⟩
  rw [hn, hg]
  simpa using htabs

/-- The name that a declaration declares: its last word, without the semicolon. -/
def Text.declaredName (declaration : Text) : Text := Text.lastWord declaration.dropLast

/-- The name that a connection passes: its last word, without the parentheses. -/
def Text.connectedName (connection : Text) : Text := connection.lastWord.tail.dropLast

theorem Style.declaredName_variableDeclaration (s : Style) (p : Port) :
    (s.variableDeclaration p).declaredName = p.signal s.stripEndings := by
  obtain ⟨x, hx⟩ := s.indent.exists_align_eq_tab (s.language.variableKeyword p.direction)
    (p.width.map Width.text).toList (p.signal s.stripEndings)
  have hfields : s.variableFields p = s.language.variableKeyword p.direction ::
      (p.width.map Width.text).toList ++ [p.signal s.stripEndings] := rfl
  rw [Text.declaredName, variableDeclaration, List.dropLast_concat, hfields, hx,
    Text.lastWord_append_cons (by decide) (p.not_blank_signal _)]

theorem Style.connectedName_connection (s : Style) {name value : Text}
    (h : ∀ c ∈ value, isBlank c = false) : (s.connection name value).connectedName = value := by
  obtain ⟨x, hx⟩ := s.indent.exists_align_eq_tab ('.' :: name) [] (['('] ++ value ++ [')'])
  have hword : ∀ c ∈ ['('] ++ value ++ [')'], isBlank c = false := by
    intro c hc
    rcases List.mem_append.1 hc with hc | hc
    · rcases List.mem_append.1 hc with hc | hc
      · rw [List.mem_singleton.1 hc]
        decide
      · exact h c hc
    · rw [List.mem_singleton.1 hc]
      decide
  rw [Text.connectedName, connection, ← List.singleton_append, hx,
    Text.lastWord_append_cons (by decide) hword, List.singleton_append, List.cons_append,
    List.tail_cons, List.dropLast_concat]

theorem infix_listLines {margin entry : Text} : ∀ {entries : List Text}, entry ∈ entries →
    margin ++ entry <:+: listLines margin entries
  | [_], h => by
    obtain rfl := List.mem_singleton.1 h
    exact (List.prefix_append _ _).isInfix
  | first :: next :: rest, h => by
    rw [listLines.eq_3 margin first (next :: rest) (by simp)]
    rcases List.mem_cons.1 h with rfl | h
    · rw [List.append_assoc _ ",\n".toList]
      exact (List.prefix_append _ _).isInfix
    · exact (infix_listLines h).trans (List.suffix_append _ _).isInfix

namespace FileOptions

variable (o : FileOptions) (m : Module)

/-- The names that the testbench declares, one for each port. -/
def declaredNames : List Text :=
  m.ports.toList.map fun p => (o.variableDeclaration p).declaredName

/-- The connection of a port in the testbench. -/
def benchConnection (p : Port) : Text :=
  o.connection p.identifier (p.signal o.stripEndings)

/-- The names that the testbench wires the ports to. -/
def connectedNames : List Text := m.ports.toList.map fun p => (o.benchConnection p).connectedName

variable {o m}

theorem declaredNames_eq : o.declaredNames m = m.ports.toList.map fun p => p.signal o.stripEndings :=
  List.map_congr_left fun p _ => o.declaredName_variableDeclaration p

theorem connectedNames_eq : o.connectedNames m = o.declaredNames m := by
  rw [declaredNames_eq]
  exact List.map_congr_left fun p _ => o.connectedName_connection (p.not_blank_signal _)

theorem declaration_infix_testbench {p : Port} (hp : p ∈ m.ports.toList) :
    '\t' :: o.variableDeclaration p ++ ['\n'] <:+: o.testbench m := by
  obtain ⟨d, hd, hp⟩ := List.mem_flatMap.1 hp
  have hline : '\t' :: o.variableDeclaration p ++ ['\n'] <:+: o.testbenchVariables m d := by
    have hlines : '\t' :: o.variableDeclaration p ++ ['\n'] ∈
        (m.ports.get d).map fun p => ['\t'] ++ o.variableDeclaration p ++ ['\n'] :=
      List.mem_map.2 ⟨p, hp, rfl⟩
    rw [testbenchVariables, if_neg (by simpa using List.ne_nil_of_mem hp)]
    exact (List.infix_of_mem_flatten hlines).trans (List.infix_append _ _ _)
  have hvariables : o.testbenchVariables m d <:+: Direction.all.flatMap (o.testbenchVariables m) :=
    List.infix_of_mem_flatten (List.mem_map_of_mem hd)
  refine (hline.trans hvariables).trans ?_
  rw [testbench, List.append_assoc _ (o.instantiation _ _ _), List.append_assoc _ (String.toList _)]
  exact List.infix_append _ _ _

theorem connection_infix_testbench {p : Port} (hp : p ∈ m.ports.toList) :
    ['\t', '\t'] ++ o.benchConnection p <:+: o.testbench m := by
  have hentry : o.benchConnection p ∈ m.ports.toList.map o.benchConnection :=
    List.mem_map_of_mem hp
  have hports : ['\t', '\t'] ++ o.benchConnection p <:+: o.instantiation m "dut".toList ['\t'] := by
    have hlist : ['\t', '\t'] ++ o.benchConnection p <:+:
        listLines (['\t'] ++ ['\t']) (m.ports.toList.map o.benchConnection) := infix_listLines hentry
    simp only [Style.instantiation]
    rw [if_neg (c := m.ports.toList.isEmpty = true) (by simpa using List.ne_nil_of_mem hp)]
    refine hlist.trans ?_
    refine List.IsInfix.trans ?_ (List.suffix_append _ _).isInfix
    rw [List.append_assoc]
    exact List.infix_append _ _ _
  exact hports.trans (List.infix_append _ _ _)

theorem nodup_signals_iff (hports : (m.ports.toList.map Port.identifier).Nodup) (strip : Bool) :
    (m.ports.toList.map fun p => p.signal strip).Nodup ↔
      (strip = true → ∀ a ∈ m.ports.toList.map Port.identifier,
        ∀ b ∈ m.ports.toList.map Port.identifier, ∀ stem,
          Port.Leaves a stem → Port.Leaves b stem → a = b) := by
  have hne : ∀ a ∈ m.ports.toList.map Port.identifier, a ≠ [] := by
    intro a ha
    obtain ⟨p, -, rfl⟩ := List.mem_map.1 ha
    exact p.solid.1
  cases strip with
  | false => simpa [Port.signal] using hports
  | true =>
    have hstems : (m.ports.toList.map fun p => p.signal true)
        = (m.ports.toList.map Port.identifier).map Port.withoutEnding := by
      rw [List.map_map]
      rfl
    rw [hstems, List.nodup_map_iff_inj_on hports]
    constructor
    · intro h _ a ha b hb stem hstem hstem'
      refine h a ha b hb ?_
      rw [(Port.withoutEnding_eq_iff (hne a ha)).2 hstem,
        (Port.withoutEnding_eq_iff (hne b hb)).2 hstem']
    · intro h a ha b hb heq
      exact h rfl a ha b hb _ ((Port.withoutEnding_eq_iff (hne a ha)).1 heq)
        ((Port.withoutEnding_eq_iff (hne b hb)).1 rfl)

/-- The testbench declares a variable for each port and wires the port to it. If the ports have
different names, so have the variables, unless endings are dropped and two names leave one stem. -/
theorem nodup_declaredNames_iff (o : FileOptions) (m : Module)
    (hports : (m.ports.toList.map Port.identifier).Nodup) :
    (∀ p ∈ m.ports.toList, '\t' :: o.variableDeclaration p ++ ['\n'] <:+: o.testbench m ∧
      ['\t', '\t'] ++ o.benchConnection p <:+: o.testbench m) ∧
    o.connectedNames m = o.declaredNames m ∧
    ((o.declaredNames m).Nodup ↔
      (o.stripEndings = true → ∀ a ∈ m.ports.toList.map Port.identifier,
        ∀ b ∈ m.ports.toList.map Port.identifier, ∀ stem,
          Port.Leaves a stem → Port.Leaves b stem → a = b)) := by
  refine ⟨fun p hp => ⟨declaration_infix_testbench hp, connection_infix_testbench hp⟩,
    connectedNames_eq, ?_⟩
  rw [declaredNames_eq]
  exact nodup_signals_iff hports _

/-- A module whose two ports leave one stem. -/
def throughput : Module where
  name := ['m']
  parameters := []
  ports := .ofList
    [⟨.input, "a_i".toList, none, by decide⟩, ⟨.output, "a_o".toList, none, by decide⟩]
  name_trimmed := by decide

/-- A module whose two ports leave different stems. -/
def passage : Module where
  name := ['m']
  parameters := []
  ports := .ofList
    [⟨.input, "a_i".toList, none, by decide⟩, ⟨.output, "b_o".toList, none, by decide⟩]
  name_trimmed := by decide

def benchOptions (strip : Bool) : FileOptions where
  indent := .ofColumns Indent.defaultTabWidth Indent.defaultColumn
  stripEndings := strip

theorem nodup_declaredNames_throughput :
    (throughput.ports.toList.map Port.identifier).Nodup ∧
      ((benchOptions false).declaredNames throughput).Nodup ∧
    (passage.ports.toList.map Port.identifier).Nodup ∧
      (benchOptions true).declaredNames passage = [['a'], ['b']] ∧
      ∀ a ∈ passage.ports.toList.map Port.identifier,
        ∀ b ∈ passage.ports.toList.map Port.identifier, ∀ stem,
          Port.Leaves a stem → Port.Leaves b stem → a = b :=
  ⟨by decide, (nodup_declaredNames_iff (benchOptions false) throughput (by decide)).2.2.2 nofun,
    by decide, by decide,
    (nodup_declaredNames_iff (benchOptions true) passage (by decide)).2.2.1 (by decide) rfl⟩

theorem not_nodup_declaredNames_throughput :
    (throughput.ports.toList.map Port.identifier).Nodup ∧
      ¬ ((benchOptions true).declaredNames throughput).Nodup := by decide

end FileOptions

end HdlScaffold
