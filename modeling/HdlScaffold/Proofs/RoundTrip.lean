import HdlScaffold.Proofs.WrittenLines

/-!
# Reading a written declaration

The declaration of a well-formed module, written in any style, is read back as a module with the same
outline. The lines in front of it may be anything but headers, and anything may follow it
(`exists_yields_declaration`), so the same holds of a declaration inside a file.
-/

namespace HdlScaffold

open Header

section Lines

/-- The lines in front of the one that opens the port list. -/
def Style.parameterLines (s : Style) (m : Module) : List Text :=
  if m.parameters.isEmpty then []
  else
    ("module ".toList ++ (m.name ++ " #(\n".toList)) ::
      entryLines (m.parameters.map s.parameterDeclaration)

/-- What stands in front of the port list on its first line. -/
def Module.portLead (m : Module) : Text :=
  if m.parameters.isEmpty then "module ".toList ++ m.name else [')']

/-- How the port list begins. -/
def Module.portOpening (m : Module) : Text :=
  if m.ports.toList.isEmpty then " ();\n".toList else " (\n".toList

/-- The lines after the one that opens the port list. -/
def Style.portLines (s : Style) (m : Module) : List Text :=
  if m.ports.toList.isEmpty then []
  else entryLines (m.ports.toList.map s.portDeclaration) ++ [");\n".toList]

def Style.headerLines (s : Style) (m : Module) : List Text :=
  s.parameterLines m ++ (m.portLead ++ m.portOpening) :: s.portLines m

theorem Style.declaration_eq (s : Style) (m : Module) :
    s.declaration m = (s.headerLines m).flatten ++ "\nendmodule\n".toList := by
  unfold declaration headerLines parameterLines portLines Module.portLead Module.portOpening
  by_cases hp : m.parameters.isEmpty <;> by_cases hq : m.ports.toList.isEmpty <;>
    simp [hp, hq, flatten_entryLines]

variable {s : Style} {m : Module}

/-- The names are plain and every default stands on one line, so that the declaration has the lines it
is meant to have. -/
structure Module.InLines (m : Module) : Prop where
  name : isModuleName m.name = true
  parameters : ∀ p ∈ m.parameters, isIdentifier p.identifier = true ∧ '\n' ∉ p.default.getD []
  ports : ∀ p ∈ m.ports.toList, p.WellFormed

/-- The names of the module and of its parameters are plain and every default stands on one line. -/
structure Module.PlainHead (m : Module) : Prop where
  name : isModuleName m.name = true
  parameters : ∀ p ∈ m.parameters, isIdentifier p.identifier = true ∧ '\n' ∉ p.default.getD []

theorem Module.InLines.plainHead (hm : m.InLines) : m.PlainHead := ⟨hm.name, hm.parameters⟩

theorem Module.WellFormed.inLines (hm : m.WellFormed) : m.InLines := by
  refine ⟨hm.name, fun p hp => ⟨(hm.parameters p hp).identifier, ?_⟩, hm.ports⟩
  rcases hv : p.default with _ | v
  · simp
  · exact ((hm.parameters p hp).default v hv).newline_not_mem

/-- The name is plain and no other text has a line feed in it, so that all that is written of the
module has the lines it is meant to have. -/
structure Module.Unbroken (m : Module) : Prop where
  name : isModuleName m.name = true
  parameters : ∀ p ∈ m.parameters, '\n' ∉ p.identifier ∧ '\n' ∉ p.default.getD []
  widths : ∀ p ∈ m.ports.toList, ∀ w ∈ p.width, '\n' ∉ w.text

theorem newline_not_mem_identifier {w : Text} (h : isIdentifier w = true) : '\n' ∉ w := fun hn =>
  absurd (isWordChar_of_isIdentifier h _ hn).1 (by decide)

theorem newline_not_mem_moduleName (hname : isModuleName m.name = true) : '\n' ∉ m.name := fun h =>
  absurd (isNameChar_of_mem hname _ h) (by decide)

theorem Module.PlainHead.newline_not_mem (hm : m.PlainHead) :
    ∀ p ∈ m.parameters, '\n' ∉ p.identifier ∧ '\n' ∉ p.default.getD [] := fun p hp =>
  ⟨newline_not_mem_identifier (hm.parameters p hp).1, (hm.parameters p hp).2⟩

theorem Module.InLines.unbroken (hm : m.InLines) : m.Unbroken :=
  ⟨hm.name, hm.plainHead.newline_not_mem, fun p hp w hw =>
    ((hm.ports p hp).width w hw).newline_not_mem⟩

theorem newline_not_mem_parameterDeclaration {p : Parameter} (hidentifier : '\n' ∉ p.identifier)
    (hdefault : '\n' ∉ p.default.getD []) : '\n' ∉ s.parameterDeclaration p := by
  have hdeclaration : '\n' ∉ p.declaration := by
    unfold Parameter.declaration
    rcases hv : p.default with _ | v <;> rw [hv] at hdefault
    · exact hidentifier
    · simpa [hidentifier] using hdefault
  intro hn
  rcases @Indent.mem_align _ ["parameter".toList] _ _ hn with hn | ⟨f, hf, hn⟩
  · exact absurd hn (by decide)
  · rcases List.mem_pair.1 hf with rfl | rfl
    · exact absurd hn (by decide)
    · exact hdeclaration hn

theorem Module.Unbroken.newline_not_mem_port (hm : m.Unbroken) {p : Port}
    (hp : p ∈ m.ports.toList) : '\n' ∉ s.portDeclaration p := by
  rw [Style.portDeclaration_eq]
  intro hn
  rcases Indent.mem_align hn with hn | ⟨f, hf, hn⟩
  · exact absurd hn (by decide)
  · rcases List.mem_append.1 hf with hf | hf
    · rcases List.mem_append.1 hf with hf | hf
      · rcases List.mem_cons.1 hf with rfl | hf
        · exact newline_not_mem_identifier (Style.isIdentifier_keyword _) hn
        · exact newline_not_mem_identifier
            (Style.isIdentifier_of_portTypeKeywords f (s.mem_portTypeKeywords f hf)) hn
      · obtain ⟨w, hw, rfl⟩ := Option.map_eq_some_iff.1 (Option.mem_toList.1 hf)
        exact hm.widths p hp w hw hn
    · rw [List.mem_singleton.1 hf] at hn
      exact absurd (p.solid.2 _ hn) (by decide)

theorem isLine_of_mem_parameterLines (hname : isModuleName m.name = true)
    (hparameters : ∀ p ∈ m.parameters, '\n' ∉ p.identifier ∧ '\n' ∉ p.default.getD []) :
    ∀ l ∈ s.parameterLines m, l.IsLine := by
  have hnewline := newline_not_mem_moduleName hname
  intro l hl
  unfold Style.parameterLines at hl
  split_ifs at hl
  · simp at hl
  · rcases List.mem_cons.1 hl with rfl | hl
    · exact ⟨"module ".toList ++ (m.name ++ " #(".toList), by simp, by simp [hnewline]⟩
    · refine isLine_of_mem_entryLines (fun e he => ?_) l hl
      obtain ⟨p, hp, rfl⟩ := List.mem_map.1 he
      exact newline_not_mem_parameterDeclaration (hparameters p hp).1 (hparameters p hp).2

theorem isLine_portOpening (hname : isModuleName m.name = true) :
    (m.portLead ++ m.portOpening).IsLine := by
  have hnewline := newline_not_mem_moduleName hname
  have hlead : '\n' ∉ m.portLead := by
    unfold Module.portLead
    split_ifs <;> simp [hnewline]
  unfold Module.portOpening
  split_ifs
  · exact ⟨m.portLead ++ " ();".toList, by simp, by simp [hlead]⟩
  · exact ⟨m.portLead ++ " (".toList, by simp, by simp [hlead]⟩

theorem isLine_of_mem_headerLines (hm : m.Unbroken) : ∀ l ∈ s.headerLines m, l.IsLine := by
  intro l hl
  rcases List.mem_append.1 hl with hl | hl
  · exact isLine_of_mem_parameterLines hm.name hm.parameters l hl
  · rcases List.mem_cons.1 hl with rfl | hl
    · exact isLine_portOpening hm.name
    · unfold Style.portLines at hl
      split_ifs at hl
      · simp at hl
      · rcases List.mem_append.1 hl with hl | hl
        · refine isLine_of_mem_entryLines (fun e he hn => ?_) l hl
          obtain ⟨p, hp, rfl⟩ := List.mem_map.1 he
          exact hm.newline_not_mem_port hp hn
        · rw [List.mem_singleton.1 hl]
          exact ⟨");".toList, rfl, by decide⟩

end Lines

section Leads

/-- A text that may stand in front of a port list: it declares no port and opens nothing. -/
structure LeadsPorts (lead : Text) : Prop where
  no_comment : ¬ HasComment lead
  alone : lead.ReadsAlone
  closes : (Delimiters.ofText lead).closesAfterPorts = 0
  takes : ∀ later, ∃ t, Takes PortContext.feed {} (tokens lead) later t []

theorem tokens_module {name u : Text} (h : isModuleName name = true)
    (hu : ∀ c ∈ u.head?, isWordChar c = false) :
    tokens ("module ".toList ++ (name ++ u))
      = .word "module".toList :: .word name :: tokens u := by
  have hname := isIdentifier_of_isModuleName h
  have hkeyword : isIdentifier "module".toList = true := by decide
  have hspace : isBlank ' ' = true := by decide
  show tokens ("module".toList ++ ' ' :: (name ++ u)) = _
  rw [readsAlone_identifier hkeyword _ (by simp [isWordChar_of_isBlank hspace]),
    tokens_identifier hkeyword, tokens_blank hspace, readsAlone_identifier hname u hu,
    tokens_identifier hname]
  rfl

theorem not_hasComment_module {name : Text} (h : isModuleName name = true) :
    ¬ HasComment ("module ".toList ++ name) := by
  have hname := Style.not_hasComment_identifier (isIdentifier_of_isModuleName h)
  exact not_hasComment_append (by decide) hname fun hl => absurd hl (by decide)

theorem quiet_module {name : Text} (h : isModuleName name = true) :
    ∀ c ∈ "module ".toList ++ name, c ≠ '(' ∧ c ≠ ')' ∧ c ≠ ';' := by
  intro c hc
  rcases List.mem_append.1 hc with hc | hc
  · have : ∀ c ∈ "module ".toList, c ≠ '(' ∧ c ≠ ')' ∧ c ≠ ';' := by decide
    exact this c hc
  · have := isNameChar_of_mem h c hc
    refine ⟨?_, ?_, ?_⟩ <;> rintro rfl <;> exact absurd this (by decide)

/-- The module's name may be any word: a direction in its place declares nothing by itself. -/
theorem leadsPorts_module {name : Text} (h : isModuleName name = true) :
    LeadsPorts ("module ".toList ++ name) := by
  have htokens : tokens ("module ".toList ++ name) = [.word "module".toList, .word name] := by
    have := tokens_module h (u := []) (by simp)
    rwa [List.append_nil, tokens_nil] at this
  refine ⟨not_hasComment_module h, fun u hu => ?_, ?_, fun later => ?_⟩
  · rw [List.append_assoc, tokens_module h hu, htokens]
    rfl
  · rw [Delimiters.ofText, Delimiters.addAll_of_quiet (quiet_module h)]
  · have hmodule : Takes PortContext.feed {} [.word "module".toList] ([.word name] ++ later) {} [] :=
      takes_wordBefore (by decide) rfl
    obtain ⟨t, ht⟩ : ∃ t, Takes PortContext.feed {} [.word name] later t [] := by
      rcases hd : Direction.ofKeyword? name with _ | d
      · exact ⟨_, takes_wordBefore hd rfl⟩
      · rw [Direction.ofKeyword?_eq_some_iff.1 hd]
        exact ⟨_, takes_direction d⟩
    rw [htokens]
    exact ⟨t, hmodule.append ht⟩

theorem leadsPorts_closeParen : LeadsPorts [')'] := by
  have htokens : ∀ u, tokens (')' :: u) = .closeParen :: tokens u := fun u => tokens_mark rfl u
  refine ⟨by decide, fun u _ => ?_, rfl, fun later => ⟨{}, ?_⟩⟩
  · rw [htokens, tokens_nil]
    exact htokens u
  · rw [htokens, tokens_nil]
    exact takes_portClose

theorem leadsPorts_portLead {m : Module} (hname : isModuleName m.name = true) :
    LeadsPorts m.portLead := by
  unfold Module.portLead
  split_ifs
  · exact leadsPorts_module hname
  · exact leadsPorts_closeParen

theorem LeadsPorts.lineTokens_append {lead : Text} (h : LeadsPorts lead) {u : Text}
    (hcomment : ¬ HasComment u) (hslash : u.head? ≠ some '/')
    (hu : ∀ c ∈ u.head?, isWordChar c = false) :
    lineTokens (lead ++ u) = tokens lead ++ tokens u := by
  rw [lineTokens_of_not (not_hasComment_append h.no_comment hcomment fun _ => hslash), h.alone u hu]

theorem tokens_noPorts : tokens " ();\n".toList = [.openParen, .closeParen, .semicolon] := by
  decide +kernel

theorem tokens_somePorts : tokens " (\n".toList = [.openParen] := by decide +kernel

theorem lineTokens_endPorts : lineTokens ");\n".toList = [.closeParen, .semicolon] := by
  decide +kernel

end Leads

section Blocks

variable {s : Style} {m : Module} {r : LineReader} {rest : Bytes} {pre post : List Text}

theorem lineTokens_opening {lead : Text} (h : LeadsPorts lead) (m : Module) :
    lineTokens (lead ++ m.portOpening) = tokens lead ++ tokens m.portOpening := by
  unfold Module.portOpening
  split_ifs <;> exact h.lineTokens_append (by decide) (by decide) (by decide)

theorem portsOpen?_opening (lead : Text) (m : Module) :
    portsOpen? (lead ++ m.portOpening) = some true := by
  rw [portsOpen?_eq, Delimiters.ofText, Delimiters.addAll_append]
  unfold Module.portOpening
  split_ifs <;> simp_all [Delimiters.addAll, Delimiters.add]

theorem portBlock_of_noPorts {lead : Text} (hlead : LeadsPorts lead)
    (h : r.Before (pre ++ (lead ++ " ();\n".toList) :: post) rest)
    (hpre : ∀ l ∈ pre, portsOpen? l = none)
    (hopen : portsOpen? (lead ++ " ();\n".toList) = some true)
    (htokens : lineTokens (lead ++ " ();\n".toList) = tokens lead ++ tokens " ();\n".toList) :
    ∃ ls, portBlock.Yields r [] (r.pass ls) := by
  have hclose : portsEnd true (lead ++ " ();\n".toList) = true := by
    rw [portsEnd_eq, Delimiters.ofText, Delimiters.addAll_append]
    simp [Delimiters.addAll, Delimiters.add, Delimiters.closesOwnPorts]
  obtain ⟨t, ht⟩ := hlead.takes ([[.openParen], [.closeParen], [.semicolon]].flatten ++ [])
  have hrun : Run PortContext.feed [] {}
      [[tokens lead, [.openParen], [.closeParen], [.semicolon]]].flatten {} [] :=
    .cons ht (.cons takes_portOpen (.cons takes_portClose (.single takes_portEnd)))
  have hfeed := hrun.feedLines fun _ => rfl
  rw [tokens_noPorts] at htokens
  refine ⟨_, portBlock_of_lines pre [] h hpre (by simpa using hopen) (by simp) (by simp) hclose
    (u := {}) ?_⟩
  rw [List.nil_append, List.map_singleton, htokens]
  exact hfeed

theorem run_writtenPorts (s : Style) (hqs : ∀ p ∈ m.ports.toList, p.WellFormed) {lead : Text}
    (hlead : LeadsPorts lead) :
    Run PortContext.feed [] {}
      ([[tokens lead, [.openParen]]] ++
        entryGroups (m.ports.toList.map fun p => portPhrases (s.portTypes p) p) ++
        [[[Token.closeParen], [Token.semicolon]]]).flatten {} (m.ports.toList.map Port.readBack) := by
  have hports : ∀ p ∈ m.ports.toList.map fun p => (s.portTypes p, p),
      (∀ w ∈ p.1, w ∈ portTypeKeywords) ∧ p.2.WellFormed := by
    intro q hq
    obtain ⟨p, hp, rfl⟩ := List.mem_map.1 hq
    exact ⟨s.mem_portTypeKeywords, hqs p hp⟩
  have hends : EndsEntry ([[.closeParen], [.semicolon]].flatten ++ []) := fun k hk =>
    Or.inr (Option.some.inj hk).symm
  rw [List.flatten_append, List.flatten_append, flatten_entryGroups, List.append_assoc]
  obtain ⟨t, ht⟩ := hlead.takes _
  obtain ⟨u, hu⟩ := run_portList hports hends t
  rw [List.map_map, List.map_map] at hu
  have hlist := hu.append (.cons takes_portClose (.single takes_portEnd))
  rw [List.nil_append, List.append_nil] at hlist
  exact .cons ht (.cons takes_portOpen hlist)

theorem portBlock_of_somePorts (hqs : ∀ p ∈ m.ports.toList, p.WellFormed) {lead : Text}
    (hlead : LeadsPorts lead)
    (h : r.Before (pre ++ ((lead ++ " (\n".toList) ::
      entryLines (m.ports.toList.map s.portDeclaration) ++ ");\n".toList :: post)) rest)
    (hpre : ∀ l ∈ pre, portsOpen? l = none)
    (hopen : portsOpen? (lead ++ " (\n".toList) = some true)
    (htokens : lineTokens (lead ++ " (\n".toList) = tokens lead ++ tokens " (\n".toList) :
    ∃ ls, portBlock.Yields r (m.ports.toList.map Port.readBack) (r.pass ls) := by
  have hfirst : portsEnd true (lead ++ " (\n".toList) = false := by
    have hnone := hlead.closes
    rw [Delimiters.ofText] at hnone
    rw [portsEnd_eq, Delimiters.ofText, Delimiters.addAll_append]
    simp [Delimiters.addAll, Delimiters.add, Delimiters.closesOwnPorts, hnone]
  have hmid : ∀ l ∈ entryLines (m.ports.toList.map s.portDeclaration),
      portsEnd false l = false := by
    refine fun l hl => portsEnd_of_not_mem (closeParen_not_mem_entryLines (fun e he hc => ?_) l hl)
    obtain ⟨p, hp, rfl⟩ := List.mem_map.1 he
    exact (Style.mem_portDeclaration (hqs p hp) hc).2 rfl
  have hlines : (entryLines (m.ports.toList.map s.portDeclaration)).map lineTokens
      = (entryGroups (m.ports.toList.map fun p => portPhrases (s.portTypes p) p)).map List.flatten :=
    lineTokens_entryLines fun p hp => Style.entryReads_port (hqs p hp)
  have hfeed := (run_writtenPorts s hqs hlead).feedLines fun _ => rfl
  rw [List.map_append, List.map_append, ← hlines] at hfeed
  have hlast : portsEnd false ");\n".toList = true := by decide
  refine ⟨_, portBlock_of_lines pre ((lead ++ " (\n".toList) :: _) h hpre
    (by simpa using hopen) (by simpa using hfirst) hmid hlast (u := {}) ?_⟩
  rw [List.map_append, List.map_cons, htokens, tokens_somePorts, List.map_singleton,
    lineTokens_endPorts]
  simpa using hfeed

/-- The ports are read from the line that opens their list on, behind lines that do not stop the
search. -/
theorem portBlock_of_written (hqs : ∀ p ∈ m.ports.toList, p.WellFormed) {lead : Text}
    (hlead : LeadsPorts lead) (hpre : ∀ l ∈ pre, portsOpen? l = none)
    (h : r.Before (pre ++ ((lead ++ m.portOpening) :: s.portLines m ++ post)) rest) :
    ∃ ls, portBlock.Yields r (m.ports.toList.map Port.readBack) (r.pass ls) := by
  have hopen := portsOpen?_opening lead m
  have htokens := lineTokens_opening hlead m
  unfold Style.portLines Module.portOpening at h
  unfold Module.portOpening at hopen htokens
  split_ifs at h hopen htokens with hnone
  · rw [List.isEmpty_iff.1 hnone]
    exact portBlock_of_noPorts hlead h hpre hopen htokens
  · rw [List.cons_append, List.append_assoc, List.singleton_append] at h
    exact portBlock_of_somePorts hqs hlead h hpre hopen htokens

theorem lineTokens_parameterOpening (hname : isModuleName m.name = true) :
    lineTokens ("module ".toList ++ (m.name ++ " #(\n".toList))
      = [.word "module".toList, .word m.name, .hash, .openParen] := by
  have hcomment : ¬ HasComment ("module ".toList ++ m.name ++ " #(\n".toList) :=
    not_hasComment_append (not_hasComment_module hname) (by decide) fun _ => by decide
  have hopening : tokens " #(\n".toList = [.hash, .openParen] := by decide +kernel
  rw [List.append_assoc] at hcomment
  rw [lineTokens_of_not hcomment, tokens_module hname (by decide), hopening]

theorem parametersOpen?_parameterOpening (hname : isModuleName m.name = true) :
    parametersOpen? ("module ".toList ++ (m.name ++ " #(\n".toList)) = some true := by
  rw [parametersOpen?_eq, Delimiters.ofText, ← List.append_assoc, Delimiters.addAll_append,
    Delimiters.addAll_of_quiet (quiet_module hname)]
  simp [Delimiters.addAll, Delimiters.add]

/-- Without parameters, the line of the module's name opens the port list. -/
theorem parametersOpen?_portOpening (hname : isModuleName m.name = true) :
    parametersOpen? ("module ".toList ++ m.name ++ m.portOpening) = some false := by
  rw [parametersOpen?_eq, Delimiters.ofText, Delimiters.addAll_append,
    Delimiters.addAll_of_quiet (quiet_module hname)]
  unfold Module.portOpening
  split_ifs <;> simp_all [Delimiters.addAll, Delimiters.add]

theorem closeParen_not_mem_parameterOpening (hname : isModuleName m.name = true) :
    ')' ∉ "module ".toList ++ (m.name ++ " #(\n".toList) := by
  rw [← List.append_assoc]
  intro hc
  rcases List.mem_append.1 hc with hc | hc
  · exact (quiet_module hname _ hc).2.1 rfl
  · exact absurd hc (by decide)

/-- The keyword that begins each declaration makes good whatever the module's name did. -/
theorem run_writtenParameters (hm : m.WellFormed) :
    Run ParameterContext.feed [] {}
      ([[[Token.word "module".toList], [Token.word m.name], [Token.hash, Token.openParen]]] ++
        entryGroups (m.parameters.map parameterPhrases) ++
        [[[Token.closeParen], tokens m.portOpening]]).flatten {} m.parameters := by
  have hidle : Token.word "parameter".toList ∉ tokens m.portOpening := by
    unfold Module.portOpening
    split_ifs
    · rw [tokens_noPorts]
      decide
    · rw [tokens_somePorts]
      decide
  have hends : EndsEntry ([[.closeParen], tokens m.portOpening].flatten ++ []) := fun k hk =>
    Or.inr (Option.some.inj hk).symm
  have hmodule : ∀ rest, ParameterContext.feed {} ([.word "module".toList] ++ rest)
      = ParameterContext.feed {} rest := feed_idle (by decide)
  rw [List.flatten_append, List.flatten_append, flatten_entryGroups, List.append_assoc]
  obtain ⟨t, ht⟩ := takes_word_idle m.name
  obtain ⟨u, hu⟩ := run_parameterList hm.parameters hends t
  have hrun := hu.append (.cons takes_parameterClose (.single (takes_of_feed_eq (feed_idle hidle))))
  rw [List.nil_append, List.append_nil] at hrun
  exact .cons (takes_of_feed_eq hmodule) (.cons (ht _) (.cons takes_parameterOpen hrun))

/-- The parameters are read up to the line that opens the port list. -/
theorem parameterBlock_of_written (hm : m.WellFormed)
    (h : r.Before (s.parameterLines m ++ (m.portLead ++ m.portOpening) :: post) rest) :
    parameterBlock.Yields r m.parameters (r.pass (s.parameterLines m)) := by
  unfold Style.parameterLines Module.portLead at h
  unfold Style.parameterLines
  split_ifs at h ⊢ with hnone
  · rw [List.isEmpty_iff.1 hnone]
    exact parameterBlock_of_absent [] h (by simp) (parametersOpen?_portOpening hm.name)
  · have hmid : ∀ l ∈ ("module ".toList ++ (m.name ++ " #(\n".toList)) ::
        entryLines (m.parameters.map s.parameterDeclaration), parametersEnd l = false := by
      intro l hl
      rw [parametersEnd_eq, decide_eq_false_iff_not]
      rcases List.mem_cons.1 hl with rfl | hl
      · exact closeParen_not_mem_parameterOpening hm.name
      · refine closeParen_not_mem_entryLines (fun e he hc => ?_) l hl
        obtain ⟨p, hp, rfl⟩ := List.mem_map.1 he
        exact (Style.mem_parameterDeclaration (hm.parameters p hp) hc).2 rfl
    have hlines : (entryLines (m.parameters.map s.parameterDeclaration)).map lineTokens
        = (entryGroups (m.parameters.map parameterPhrases)).map List.flatten :=
      lineTokens_entryLines fun p hp => Style.entryReads_parameter (hm.parameters p hp)
    have hfeed := (run_writtenParameters hm).feedLines parameterFeed_nil
    rw [List.map_append, List.map_append, ← hlines] at hfeed
    refine parameterBlock_of_lines [] (_ :: _) h (by simp)
      (by simpa using parametersOpen?_parameterOpening hm.name) hmid ?_ (u := {}) ?_
    · rw [parametersEnd_eq, decide_eq_true_eq]
      simp
    · have hlast : lineTokens ([')'] ++ m.portOpening) = .closeParen :: tokens m.portOpening := by
        rw [lineTokens_opening leadsPorts_closeParen, tokens_mark (k := .closeParen) rfl, tokens_nil]
        rfl
      rw [List.map_append, List.map_cons, lineTokens_parameterOpening hm.name, List.map_singleton, hlast]
      simpa using hfeed

end Blocks

theorem exists_headerLines_eq (s : Style) (m : Module) : ∃ u post,
    s.headerLines m = ("module ".toList ++ (m.name ++ u)) :: post ∧
      ∀ c ∈ u.head?, isNameChar c = false := by
  unfold Style.headerLines Style.parameterLines Module.portLead Module.portOpening
  split_ifs
  · exact ⟨_, _, by rw [List.append_assoc]; rfl, by decide⟩
  · exact ⟨_, _, by rw [List.append_assoc]; rfl, by decide⟩
  · exact ⟨_, _, rfl, by decide⟩
  · exact ⟨_, _, rfl, by decide⟩

/-- Inside a file, after lines that are no headers, a written declaration is the first module. -/
theorem exists_yields_declaration {m : Module} (hm : m.WellFormed) (s : Style) {pre : List Text}
    (hpre : ∀ l ∈ pre, l.IsLine ∧ headerName? l = none) (rest : Bytes) {source : Bytes}
    (hsource : source = Text.encode (pre.flatten ++ s.declaration m) ++ rest) :
    ∃ m' ls, firstModule?.Yields (.ofBytes source) (some m') ((LineReader.ofBytes source).pass ls) ∧
      m'.outline = m.outline := by
  have hlines : ∀ l ∈ pre ++ s.headerLines m, l.IsLine := by
    intro l hl
    rcases List.mem_append.1 hl with hl | hl
    · exact (hpre l hl).1
    · exact isLine_of_mem_headerLines hm.inLines.unbroken l hl
  have hbegins := beginsWith_of_isLine hlines (Text.encode "\nendmodule\n".toList ++ rest)
  rw [← List.append_assoc, ← Text.encode_append, List.flatten_append, List.append_assoc,
    ← s.declaration_eq, ← hsource] at hbegins
  obtain ⟨m', hm', houtline⟩ := m.exists_create_readBack m.ports.filter_toList
  have hbefore := (LineReader.ofBytes_before hbegins).pass
  have hps := parameterBlock_of_written hm hbefore
  have hports := hbefore.pass
  rw [← List.append_nil (_ :: s.portLines m)] at hports
  obtain ⟨ls, hqs⟩ := portBlock_of_written hm.ports (leadsPorts_portLead hm.name)
    (List.forall_mem_nil _) hports
  obtain ⟨u, post, hhead, hu⟩ := exists_headerLines_eq s m
  have hname : headerName? ("module ".toList ++ (m.name ++ u)) = some m.name :=
    @headerName?_module [] [' '] _ _ (by simp) (by simp) (by decide) hm.name hu
  rw [hhead] at hbegins
  rw [LineReader.pass_pass, LineReader.pass_pass] at hqs
  rw [LineReader.pass_pass] at hps
  exact ⟨m', _, firstModule?_of_blocks hbegins (fun k hk => (hpre k hk).2) hname hps hqs hm', houtline⟩

/-- A written declaration reads back as the module it declares. -/
theorem Module.ofSource?_encode_declaration {m : Module} (hm : m.WellFormed) (s : Style) :
    ∃ m', Module.ofSource? (Text.encode (s.declaration m)) = .ok (some m') ∧
      m'.outline = m.outline := by
  have hnone : ∀ l ∈ ([] : List Text), l.IsLine ∧ headerName? l = none := by simp
  obtain ⟨m', ls, ⟨notes, hread⟩, houtline⟩ := exists_yields_declaration hm s hnone [] rfl
  rw [List.flatten_nil, List.nil_append, List.append_nil] at hread
  refine ⟨m', ?_, houtline⟩
  rw [Module.ofSource?, hread]

section Sample

def sampleParameter : Parameter where
  identifier := "parameters".toList
  default := some "W +[;]1".toList
  identifier_trimmed := by decide
  default_trimmed := by decide

def sampleInput : Port where
  direction := .input
  identifier := "data$".toList
  width := some (.literal "[W-1:0][;]".toList)
  solid := by decide

def sampleOutput : Port where
  direction := .output
  identifier := "q".toList
  width := some (.bits 8)
  solid := by decide

/-- A module whose name and whose texts come close to the words of a header. -/
def sampleModule : Module where
  name := "input".toList
  parameters := [sampleParameter]
  ports := .ofList [sampleInput, sampleOutput]
  name_trimmed := by decide

theorem isPlainValue_sample : Text.IsPlainValue "W +[;]1".toList :=
  ⟨by decide +kernel, by decide, by decide, by decide, by decide +kernel, by decide +kernel⟩

theorem isBusRange_sampleInput : Text.IsBusRange "[W-1:0][;]".toList := by
  refine ⟨⟨["[W-1:0]".toList, "[;]".toList], by decide, rfl, ?_⟩, by decide⟩
  intro g hg
  rcases List.mem_cons.1 hg with rfl | hg
  · exact ⟨"W-1:0".toList, rfl, by decide⟩
  · rw [List.mem_singleton.1 hg]
    exact ⟨";".toList, rfl, by decide⟩

theorem isBusRange_sampleOutput : Text.IsBusRange (Width.bits 8).text :=
  ⟨⟨["[7:0]".toList], by decide, by decide, fun g hg => by
    rw [List.mem_singleton.1 hg]
    exact ⟨"7:0".toList, rfl, by decide⟩⟩, by decide⟩

theorem wellFormed_sampleOutput : sampleOutput.WellFormed := by
  refine ⟨by decide, by decide, by decide, fun w hw => ?_⟩
  rw [← Option.some.inj hw]
  exact isBusRange_sampleOutput

theorem wellFormed_sampleModule : sampleModule.WellFormed := by
  refine ⟨by decide, ?_, ?_⟩
  · intro p hp
    rw [List.mem_singleton.1 hp]
    refine ⟨by decide, by decide, by decide, ?_⟩
    intro v hv
    rw [← Option.some.inj hv]
    exact isPlainValue_sample
  · have hports : sampleModule.ports.toList = [sampleInput, sampleOutput] := rfl
    intro p hp
    rw [hports] at hp
    rcases List.mem_cons.1 hp with rfl | hp
    · refine ⟨by decide, by decide, by decide, fun w hw => ?_⟩
      rw [← Option.some.inj hw]
      exact isBusRange_sampleInput
    · rw [List.mem_singleton.1 hp]
      exact wellFormed_sampleOutput

theorem Module.ofSource?_encode_declaration_sample : sampleModule.WellFormed ∧
    ∃ m', Module.ofSource? (Text.encode
        (Style.declaration ⟨.ofColumns 4 24, .systemVerilog, true, false⟩ sampleModule))
      = .ok (some m') ∧ m'.outline = sampleModule.outline :=
  ⟨wellFormed_sampleModule, ofSource?_encode_declaration wellFormed_sampleModule _⟩

end Sample

end HdlScaffold
