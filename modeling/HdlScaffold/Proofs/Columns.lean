import HdlScaffold.Proofs.RoundTrip
import Mathlib.Algebra.GroupWithZero.Nat

/-!
# Columns

What is written counts tab stops only: a field costs as many as it fills and one for the tab behind it.
Printed from a tab stop, a field and its tab end on a tab stop again, so these counts add up to the
column that the last field starts in (`Indent.exists_lead_align`). On the line of a port, one tab in,
that column is the same for all ports whose fields leave room for it
(`Indent.columnAfter_align_declaration`).
-/

namespace HdlScaffold

namespace Text

/-- The column that a printed character leads to, with tab stops every `w` columns. -/
def nextColumn (w column : Nat) (c : Char) : Nat :=
  if c = '\t' then (column / w + 1) * w else if c = '\n' then 0 else column + 1

/-- The column that printing the text from a column leads to. -/
def columnAfter (w column : Nat) (t : Text) : Nat := t.foldl (nextColumn w) column

/-- ASCII without tabs and line feeds: each character is one byte and takes up one column. -/
def IsCell (f : Text) : Prop := ∀ c ∈ f, c.toNat < 128 ∧ c ≠ '\t' ∧ c ≠ '\n'

instance (f : Text) : Decidable f.IsCell := inferInstanceAs (Decidable (∀ c ∈ f, _))

theorem columnAfter_append (w column : Nat) (a b : Text) :
    columnAfter w column (a ++ b) = columnAfter w (columnAfter w column a) b := List.foldl_append

theorem columnAfter_newline (w column : Nat) (t : Text) : columnAfter w column (t ++ ['\n']) = 0 := by
  rw [columnAfter_append]
  rfl

/-- From a column `n` behind a tab stop, a tab leads to the stop behind the last one filled. -/
theorem columnAfter_tab {w : Nat} (hw : 0 < w) (k n : Nat) :
    columnAfter w (k * w + n) ['\t'] = (k + (n / w + 1)) * w := by
  have hdiv : (k * w + n) / w = k + n / w := by
    rw [Nat.add_comm, Nat.add_mul_div_right n k hw, Nat.add_comm]
  show ((k * w + n) / w + 1) * w = _
  rw [hdiv, Nat.add_assoc]

theorem columnAfter_tabs {w : Nat} (hw : 0 < w) (k : Nat) : ∀ n : Nat,
    columnAfter w (k * w) (List.replicate n '\t') = (k + n) * w
  | 0 => rfl
  | n + 1 => by
    have hlast := columnAfter_tab hw (k + n) 0
    rw [Nat.add_zero, Nat.zero_div] at hlast
    rw [List.replicate_succ', columnAfter_append, columnAfter_tabs hw k n, hlast, Nat.zero_add,
      Nat.add_assoc]

namespace IsCell

variable {f : Text}

theorem tail {c : Char} (h : IsCell (c :: f)) : IsCell f := fun d hd => h d (List.mem_cons_of_mem c hd)

theorem columnAfter_eq (w : Nat) : ∀ {f : Text}, f.IsCell → ∀ column,
    columnAfter w column f = column + f.length
  | [], _, _ => rfl
  | c :: f, h, column => by
    obtain ⟨-, htab, hnewline⟩ := h c (by simp)
    have hnext : nextColumn w column c = column + 1 := by
      rw [nextColumn, if_neg htab, if_neg hnewline]
    show columnAfter w (nextColumn w column c) f = _
    rw [hnext, columnAfter_eq w h.tail, List.length_cons]
    omega

theorem byteLength_eq : ∀ {f : Text}, f.IsCell → f.byteLength = f.length
  | [], _ => rfl
  | c :: f, h => by
    have hsize : c.utf8Size = 1 := Char.utf8Size_eq_one_iff.2
      (UInt32.le_iff_toNat_le.2 (Nat.le_of_lt_succ (h c (by simp)).1))
    rw [byteLength, hsize, byteLength_eq h.tail, List.length_cons]
    omega

end IsCell

end Text

namespace Indent

variable (i : Indent) {leading : List Text}

theorem usedTabs_eq : ∀ {leading : List Text}, (∀ f ∈ leading, Text.IsCell f) →
    i.usedTabs leading = (leading.map fun f => f.length / i.tabWidth + 1).sum
  | [], _ => rfl
  | f :: leading, h => by
    have ih := usedTabs_eq fun g hg => h g (List.mem_cons_of_mem f hg)
    rw [usedTabs, fieldTabs, (h f (by simp)).byteLength_eq, ih, List.map_cons, List.sum_cons]

/-- A field printed from a tab stop, with the tab behind it, takes up the tab stops it is said to. -/
theorem columnAfter_field {f : Text} (hf : f.IsCell) (k : Nat) :
    Text.columnAfter i.tabWidth (k * i.tabWidth) (f ++ ['\t']) = (k + i.fieldTabs f) * i.tabWidth := by
  rw [Text.columnAfter_append, hf.columnAfter_eq, Text.columnAfter_tab i.tabWidth_pos, fieldTabs,
    hf.byteLength_eq]

theorem columnAfter_leading : ∀ {leading : List Text}, (∀ f ∈ leading, Text.IsCell f) → ∀ k,
    Text.columnAfter i.tabWidth (k * i.tabWidth) (leading.flatMap fun f => f ++ ['\t'])
      = (k + i.usedTabs leading) * i.tabWidth
  | [], _, _ => rfl
  | f :: leading, h, k => by
    have ih := columnAfter_leading fun g hg => h g (List.mem_cons_of_mem f hg)
    rw [List.flatMap_cons, Text.columnAfter_append, i.columnAfter_field (h f (by simp)), ih, usedTabs,
      Nat.add_assoc]

theorem align_append (hne : leading ≠ []) (last : Text) : i.align (leading ++ [last])
    = (leading.flatMap fun f => f ++ ['\t']) ++
        List.replicate (i.desiredTabs - i.usedTabs leading) '\t' ++ last := by
  simp only [align, List.getLast?_append, List.getLast?_singleton, Option.some_or,
    List.dropLast_concat, List.isEmpty_iff, if_neg hne]

/-- Printed from a tab stop, the last field starts at the stop it should start at, or behind the fields
in front of it if these leave no room. -/
theorem exists_lead_align (hne : leading ≠ []) (hcells : ∀ f ∈ leading, Text.IsCell f) (last : Text)
    (k : Nat) : ∃ lead, i.align (leading ++ [last]) = lead ++ last ∧
      lead.columnAfter i.tabWidth (k * i.tabWidth)
        = (k + max i.desiredTabs (i.usedTabs leading)) * i.tabWidth := by
  refine ⟨_, i.align_append hne last, ?_⟩
  rw [Text.columnAfter_append, i.columnAfter_leading hcells, Text.columnAfter_tabs i.tabWidth_pos]
  have hstops : k + i.usedTabs leading + (i.desiredTabs - i.usedTabs leading)
      = k + max i.desiredTabs (i.usedTabs leading) := by omega
  rw [hstops]

end Indent

section Lists

/-- The lines of entries that others follow. -/
def linesAbove (margin : Text) (entries : List Text) : Text :=
  entries.flatMap fun entry => margin ++ entry ++ ",\n".toList

theorem exists_listLines_append (margin entry : Text) (rest : List Text) : ∃ tail,
    ∀ entries, listLines margin (entries ++ entry :: rest)
      = linesAbove margin entries ++ (margin ++ entry ++ tail) := by
  obtain ⟨tail, htail⟩ : ∃ tail, listLines margin (entry :: rest) = margin ++ entry ++ tail := by
    cases rest with
    | nil => exact ⟨['\n'], rfl⟩
    | cons next rest =>
      exact ⟨",\n".toList ++ listLines margin (next :: rest), by rw [← List.append_assoc]; rfl⟩
  refine ⟨tail, fun entries => ?_⟩
  induction entries with
  | nil => exact htail
  | cons first entries ih =>
    rw [List.cons_append, listLines.eq_3 margin first (entries ++ entry :: rest) (by simp), ih,
      linesAbove, linesAbove, List.flatMap_cons, List.append_assoc (margin ++ first ++ _)]

theorem columnAfter_linesAbove (w : Nat) (margin : Text) {head : Text}
    (hhead : head.columnAfter w 0 = 0) (entries : List Text) :
    Text.columnAfter w 0 (head ++ linesAbove margin entries) = 0 := by
  rcases List.eq_nil_or_concat' entries with rfl | ⟨front, entry, rfl⟩
  · rwa [linesAbove, List.flatMap_nil, List.append_nil]
  · have hends : head ++ linesAbove margin (front ++ [entry])
        = head ++ linesAbove margin front ++ margin ++ entry ++ [','] ++ ['\n'] := by
      simp [linesAbove]
    rw [hends, Text.columnAfter_newline]

end Lists

namespace Style

variable (s : Style)

theorem isCell_portLeading {p : Port} (hp : ∀ w ∈ p.width, w.text.IsCell) :
    ∀ f ∈ s.portLeading p, f.IsCell := by
  have hkeywords : ∀ w ∈ Header.portTypeKeywords, Text.IsCell w := by decide
  have hdirection : Text.IsCell p.direction.keyword := by cases p.direction <;> decide
  intro f hf
  rcases List.mem_append.1 hf with hf | hf
  · rcases List.mem_cons.1 hf with rfl | hf
    · exact hdirection
    · exact hkeywords f (s.mem_portTypeKeywords f hf)
  · obtain ⟨w, hw, rfl⟩ := Option.map_eq_some_iff.1 (Option.mem_toList.1 hf)
    exact hp w hw

/-- On its line, one tab in, the name of a port whose fields leave room starts behind as many tab stops
as are asked for. -/
theorem exists_lead_portDeclaration {p : Port} (hwidth : ∀ w ∈ p.width, w.text.IsCell)
    (hroom : s.indent.usedTabs (s.portLeading p) ≤ s.indent.desiredTabs) :
    ∃ lead : Text, '\t' :: s.portDeclaration p = lead ++ p.identifier ∧
      lead.columnAfter s.indent.tabWidth 0 = (s.indent.desiredTabs + 1) * s.indent.tabWidth := by
  have hne : s.portLeading p ≠ [] := by simp [portLeading]
  obtain ⟨lead, hlead, hcolumn⟩ :=
    s.indent.exists_lead_align hne (s.isCell_portLeading hwidth) p.identifier 1
  have htab := Text.columnAfter_tab s.indent.tabWidth_pos 0 0
  rw [Nat.zero_mul, Nat.zero_div] at htab
  refine ⟨['\t'] ++ lead, by rw [portDeclaration_eq, hlead]; rfl, ?_⟩
  rw [Text.columnAfter_append, htab, hcolumn, Nat.max_eq_left hroom, Nat.add_comm]

/-- A declaration begins with the same lines above its ports whichever port is looked at. -/
theorem exists_declaration_eq (m : Module) : ∃ head : Text,
    head.columnAfter s.indent.tabWidth 0 = 0 ∧ ∀ ps p qs, m.ports.toList = ps ++ p :: qs →
      ∃ tail, s.declaration m = head ++ linesAbove ['\t'] (ps.map s.portDeclaration) ++
        (['\t'] ++ s.portDeclaration p ++ tail) := by
  unfold declaration
  generalize (if m.parameters.isEmpty then [] else _) = parameters
  refine ⟨"module ".toList ++ m.name ++ parameters ++ " (".toList ++ ['\n'],
    Text.columnAfter_newline _ _ _, fun ps p qs hports => ?_⟩
  obtain ⟨rest, hrest⟩ := exists_listLines_append ['\t'] (s.portDeclaration p)
    (qs.map s.portDeclaration)
  refine ⟨rest ++ ");\n".toList ++ "\nendmodule\n".toList, ?_⟩
  rw [hports, if_neg (by simp), List.map_append, List.map_cons, hrest]
  simp

end Style

/-- The last of several aligned fields starts at the tab stop that was asked for, or at the first one
that the fields in front of it leave free. So in the declaration of a module, the names of all ports
whose fields leave room start in one column. -/
theorem Indent.columnAfter_align_declaration :
    (∀ (tabWidth column start : Nat) (leading : List Text) (last : Text), leading ≠ [] →
      (∀ f ∈ leading, Text.IsCell f) → max tabWidth 1 ∣ start →
      ∃ lead, (ofColumns tabWidth column).align (leading ++ [last]) = lead ++ last ∧
        lead.columnAfter (max tabWidth 1) start = start + max (column / max tabWidth 1)
          (leading.map fun f => f.length / max tabWidth 1 + 1).sum * max tabWidth 1) ∧
    ∀ (s : Style) (m : Module), ∃ head : Text, ∀ ps p qs, m.ports.toList = ps ++ p :: qs →
      (∀ w ∈ p.width, w.text.IsCell) →
      s.indent.usedTabs (s.portLeading p) ≤ s.indent.desiredTabs →
      ∃ lead tail, '\t' :: s.portDeclaration p = lead ++ p.identifier ∧
        s.declaration m = head ++ linesAbove ['\t'] (ps.map s.portDeclaration) ++
          (lead ++ p.identifier ++ tail) ∧
        Text.columnAfter s.indent.tabWidth 0
            (head ++ linesAbove ['\t'] (ps.map s.portDeclaration) ++ lead)
          = (s.indent.desiredTabs + 1) * s.indent.tabWidth := by
  constructor
  · rintro tabWidth column start leading last hne hcells ⟨k, rfl⟩
    obtain ⟨lead, hlead, hcolumn⟩ := (ofColumns tabWidth column).exists_lead_align hne hcells last k
    refine ⟨lead, hlead, ?_⟩
    rw [usedTabs_eq _ hcells] at hcolumn
    rw [Nat.mul_comm (max tabWidth 1) k, ← Nat.add_mul]
    exact hcolumn
  · intro s m
    obtain ⟨head, hhead, hdeclaration⟩ := s.exists_declaration_eq m
    refine ⟨head, fun ps p qs hports hwidth hroom => ?_⟩
    obtain ⟨lead, hlead, hcolumn⟩ := s.exists_lead_portDeclaration hwidth hroom
    obtain ⟨tail, htail⟩ := hdeclaration ps p qs hports
    rw [List.singleton_append, hlead] at htail
    refine ⟨lead, tail, hlead, htail, ?_⟩
    rw [Text.columnAfter_append, columnAfter_linesAbove _ _ hhead, hcolumn]

def sampleStyle : Style where
  indent := .ofColumns 4 24
  language := .systemVerilog
  outputReg := true

/-- Fields that leave no room push the last one on; the fields of two ports leave room, those of the
output none to spare. -/
theorem Indent.columnAfter_align_declaration_sample :
    (∃ lead, (ofColumns 4 8).align ["wire".toList, "[ADDRESS-1:0]".toList, ['x']] = lead ++ ['x'] ∧
      lead.columnAfter 4 12 = 36) ∧
    ∀ p ∈ [sampleInput, sampleOutput], ∃ above tail,
      sampleStyle.declaration sampleModule = above ++ (p.identifier ++ tail) ∧
      above.columnAfter 4 0 = 28 := by
  constructor
  · exact columnAfter_align_declaration.1 4 8 12 ["wire".toList, "[ADDRESS-1:0]".toList] ['x']
      (by decide) (by decide) (by decide)
  · obtain ⟨head, hports⟩ := columnAfter_align_declaration.2 sampleStyle sampleModule
    have hshown : ∀ ps p qs, [sampleInput, sampleOutput] = ps ++ p :: qs →
        (∀ w ∈ p.width, w.text.IsCell) → sampleStyle.indent.usedTabs (sampleStyle.portLeading p) ≤ 6 →
        ∃ above tail, sampleStyle.declaration sampleModule = above ++ (p.identifier ++ tail) ∧
          Text.columnAfter 4 0 above = 28 := by
      intro ps p qs hsplit hwidth hroom
      obtain ⟨lead, tail, -, htext, hcolumn⟩ := hports ps p qs hsplit hwidth hroom
      refine ⟨_, tail, ?_, hcolumn⟩
      rw [htext]
      simp only [List.append_assoc]
    simp only [List.mem_cons, List.not_mem_nil, or_false, forall_eq_or_imp, forall_eq]
    exact ⟨hshown [] sampleInput [sampleOutput] rfl (by decide) (by decide),
      hshown [sampleInput] sampleOutput [] rfl (by decide) (by decide)⟩

end HdlScaffold
