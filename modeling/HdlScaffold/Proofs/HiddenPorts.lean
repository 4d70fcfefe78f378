import HdlScaffold.Proofs.BlockSearch
import HdlScaffold.Proofs.Outcomes
import HdlScaffold.Proofs.Respacing
import Mathlib.Data.List.Forall2

/-!
# Defaults that hide the ports

The parameters of a written declaration end on the first line with a closing parenthesis, and that one
may be in a default. The ports are looked for from that line on. As long as the search stops on no default
(`Parameter.StopsSearch`), it comes to the port list, and what is read from there on does not depend on
the defaults (`exists_settles_portList`), whatever the ports are like. Otherwise it takes a default for
the port list or for the end of the header, and the ports that are written make no difference
(`Module.ofSource?_declaration_defaults`).
-/

namespace HdlScaffold

open Header

section Lines

variable {s : Style}

theorem ofText_parameterLine {p : Parameter} (hp : isIdentifier p.identifier = true) {rest : Text}
    (hrest : rest = ['\n'] ∨ rest = [',', '\n']) :
    Delimiters.ofText ('\t' :: (s.parameterDeclaration p ++ rest))
      = Delimiters.ofText (p.default.getD []) := by
  obtain ⟨lead, hlead, heq⟩ := Style.exists_parameterDeclaration_eq (s := s) hp
  have hnone : ∀ c ∈ '\t' :: lead, c ∉ "#();\n".toList :=
    List.forall_mem_cons.2 ⟨by decide, hlead⟩
  have hquiet : ∀ c ∈ '\t' :: lead, c ≠ '(' ∧ c ≠ ')' ∧ c ≠ ';' := by
    intro c hc
    refine ⟨?_, ?_, ?_⟩ <;> rintro rfl <;> exact hnone _ hc (by decide)
  have hrest' : ∀ c ∈ rest, c ≠ '(' ∧ c ≠ ')' ∧ c ≠ ';' := by
    rcases hrest with rfl | rfl <;> decide
  have hlast : (List.getLast? ('\t' :: lead)).or none ≠ some '#' := by
    rw [Option.or_none]
    exact fun h => hnone _ (List.mem_of_getLast? h) (by decide)
  rw [heq, List.append_assoc, ← List.cons_append, Delimiters.ofText, Delimiters.addAll_append,
    Delimiters.addAll_of_quiet hquiet, Delimiters.addAll_append, Delimiters.addAll_of_quiet hrest']
  -- the default may begin with a parenthesis, but no hash stands in front of it
  exact (Respaced.refl _).addAll_eq {} (iff_of_false hlast (by simp))

/-- The line of a parameter has the delimiters of its default. -/
theorem forall₂_parameterLines : ∀ {ps : List Parameter},
    (∀ p ∈ ps, isIdentifier p.identifier = true) →
    List.Forall₂ (fun p l => Delimiters.ofText l = Delimiters.ofText (p.default.getD [])) ps
      (entryLines (ps.map s.parameterDeclaration))
  | [], _ => .nil
  | [p], h => .cons (ofText_parameterLine (h p (by simp)) (Or.inl rfl)) .nil
  | p :: q :: ps, h => .cons (ofText_parameterLine (h p (by simp)) (Or.inr rfl))
    (forall₂_parameterLines fun r hr => h r (List.mem_cons_of_mem _ hr))

theorem forall₂_dropWhile {α β : Type} {R : α → β → Prop} {f : α → Bool} {g : β → Bool}
    (hfg : ∀ a b, R a b → f a = g b) {as : List α} {bs : List β} (h : List.Forall₂ R as bs) :
    List.Forall₂ R (as.dropWhile f) (bs.dropWhile g) := by
  induction h with
  | nil => exact .nil
  | @cons a b as bs hab h ih =>
    rw [List.dropWhile_cons, List.dropWhile_cons, hfg a b hab]
    split_ifs
    · exact ih
    · exact .cons hab h

theorem exists_of_mem_right {α β : Type} {R : α → β → Prop} {as : List α} {bs : List β}
    (h : List.Forall₂ R as bs) {b : β} (hb : b ∈ bs) : ∃ a ∈ as, R a b := by
  induction h with
  | nil => cases hb
  | cons hab _ ih =>
    rcases List.mem_cons.1 hb with rfl | hb
    · exact ⟨_, by simp, hab⟩
    · obtain ⟨a, ha, hR⟩ := ih hb
      exact ⟨a, List.mem_cons_of_mem _ ha, hR⟩

end Lines

/-- A closing parenthesis in the default ends the parameters. -/
def Parameter.endsBlock (p : Parameter) : Bool := (p.default.getD []).contains ')'

/-- The search for the ports stops on the default: it has a semicolon, or an opening parenthesis that
stands behind no hash. -/
def Parameter.StopsSearch (p : Parameter) : Prop :=
  (∃ a b, (p.default.getD []).OpensBare a b) ∨ ';' ∈ p.default.getD []

theorem Parameter.stopsSearch_iff {p : Parameter} :
    p.StopsSearch ↔ portsOpen? (p.default.getD []) ≠ none := by
  have hends : (Delimiters.ofText (p.default.getD [])).endsDeclaration
      = decide (';' ∈ p.default.getD []) := by
    rw [Delimiters.ofText, Delimiters.endsDeclaration_addAll, Bool.false_or]
  rw [StopsSearch, ← Delimiters.opensPorts_iff, portsOpen?_eq, hends]
  cases (Delimiters.ofText (p.default.getD [])).opensPorts <;> simp

instance (p : Parameter) : Decidable p.StopsSearch := decidable_of_iff' _ p.stopsSearch_iff

/-- A default on which the search for the ports stops stands behind the closing parenthesis of an
earlier one, or of its own. -/
def Module.HidesPorts (m : Module) : Prop :=
  ∃ p ∈ m.parameters.dropWhile fun p => !p.endsBlock, p.StopsSearch

instance (m : Module) : Decidable m.HidesPorts :=
  inferInstanceAs (Decidable (∃ p ∈ m.parameters.dropWhile fun p => !p.endsBlock, p.StopsSearch))

/-- The lines of the parameters from the first one with a closing parenthesis on. -/
def Style.laterLines (s : Style) (m : Module) : List Text :=
  (entryLines (m.parameters.map s.parameterDeclaration)).dropWhile fun l => !l.contains ')'

section Blocks

variable {s : Style} {m : Module}

theorem contains_closeParen_eq {t u : Text} (h : Delimiters.ofText t = Delimiters.ofText u) :
    t.contains ')' = u.contains ')' := by
  have hcount : ∀ w : Text, (Delimiters.ofText w).closes = w.count ')' := fun w => by
    rw [Delimiters.ofText, Delimiters.closes_addAll, Nat.zero_add]
  have heq := congrArg Delimiters.closes h
  rw [hcount, hcount] at heq
  rw [Bool.eq_iff_iff, List.contains_iff_mem, List.contains_iff_mem, ← List.count_pos_iff, heq,
    List.count_pos_iff]

theorem forall₂_laterLines (hm : m.PlainHead) :
    List.Forall₂ (fun p l => Delimiters.ofText l = Delimiters.ofText (p.default.getD []))
      (m.parameters.dropWhile fun p => !p.endsBlock) (s.laterLines m) := by
  refine forall₂_dropWhile (fun p l h => ?_) (forall₂_parameterLines fun p hp => (hm.parameters p hp).1)
  rw [Parameter.endsBlock, contains_closeParen_eq h]

theorem closeParen_mem_of_laterLines {l : Text} {post : List Text} (h : s.laterLines m = l :: post) :
    ')' ∈ l := by
  have hhead := List.head?_dropWhile_not (fun l : Text => !l.contains ')')
    (entryLines (m.parameters.map s.parameterDeclaration))
  rw [← Style.laterLines, h] at hhead
  simpa using hhead

/-- The parameters are read up to the first line with a closing parenthesis. -/
theorem exists_settles_parameterBlock (hname : isModuleName m.name = true) (hne : m.parameters ≠ [])
    {rest post : List Text} {l : Text} (hrest : s.laterLines m ++ rest = l :: post) (hl : ')' ∈ l) :
    ∃ ps before, s.parameterLines m = before ++ s.laterLines m ∧
      parameterBlock.Settles (s.parameterLines m ++ rest) ps before := by
  have hlines : s.parameterLines m = ("module ".toList ++ (m.name ++ " #(\n".toList)) ::
      entryLines (m.parameters.map s.parameterDeclaration) := if_neg (by simpa using hne)
  obtain ⟨mid, hmid, hnone⟩ : ∃ mid, s.parameterLines m
      = ("module ".toList ++ (m.name ++ " #(\n".toList)) :: mid ++ s.laterLines m ∧
        ∀ k ∈ mid, ')' ∉ k := by
    refine ⟨_, by rw [hlines, List.cons_append, Style.laterLines, List.takeWhile_append_dropWhile],
      fun k hk => ?_⟩
    simpa using List.mem_takeWhile_imp hk
  obtain ⟨u, ps, hfeed⟩ := exists_feedLines_parameters
    (("module ".toList ++ (m.name ++ " #(\n".toList)) :: mid ++ [l])
  refine ⟨ps, _, hmid, fun r source h => ?_⟩
  rw [hmid, List.append_assoc, hrest] at h
  refine parameterBlock_of_lines [] (_ :: mid) h (by simp)
    (by simpa using parametersOpen?_parameterOpening hname) (fun k hk => ?_) ?_ hfeed
  · rw [parametersEnd_eq, decide_eq_false_iff_not]
    rcases List.mem_cons.1 hk with rfl | hk
    · exact closeParen_not_mem_parameterOpening hname
    · exact hnone k hk
  · rwa [parametersEnd_eq, decide_eq_true_eq]

theorem exists_settles_headerLines (hname : isModuleName m.name = true) (ls : List Text) :
    ∃ ps before, s.parameterLines m = before ++ s.laterLines m ∧
      parameterBlock.Settles (s.parameterLines m ++ (m.portLead ++ m.portOpening) :: ls) ps before := by
  by_cases hne : m.parameters = []
  · have hlines : s.parameterLines m = [] := if_pos (by simp [hne])
    refine ⟨[], [], by rw [hlines, Style.laterLines, hne]; rfl, fun r source h => ?_⟩
    rw [hlines, Module.portLead, if_pos (by simp [hne])] at h
    exact parameterBlock_of_absent [] h (by simp) (parametersOpen?_portOpening hname)
  · -- the line that opens the ports has a closing parenthesis, if no line before it has
    have hclose : ')' ∈ m.portLead ++ m.portOpening := by
      rw [Module.portLead, if_neg (by simpa using hne)]
      simp
    rcases hlater : s.laterLines m with _ | ⟨l, post⟩
    · rw [← hlater]
      exact exists_settles_parameterBlock hname hne (by rw [hlater]; rfl) hclose
    · rw [← hlater]
      exact exists_settles_parameterBlock hname hne (by rw [hlater]; rfl)
        (closeParen_mem_of_laterLines hlater)

/-- The search passes the line of a parameter, unless it stops on the default. -/
theorem portsOpen?_laterLines (hm : m.PlainHead) (hopen : ¬ m.HidesPorts) :
    ∀ l ∈ s.laterLines m, portsOpen? l = none := by
  intro l hl
  obtain ⟨p, hp, hdelimiters⟩ := exists_of_mem_right (forall₂_laterLines hm) hl
  have hdefault : portsOpen? (p.default.getD []) = none := by
    by_contra hstops
    exact hopen ⟨p, hp, Parameter.stopsSearch_iff.2 hstops⟩
  rw [← hdefault, portsOpen?_eq, portsOpen?_eq, hdelimiters]

end Blocks

section Balance

/-- Every closing parenthesis has its opening one before it, and the other way round. -/
def Text.Balanced (t : Text) : Prop :=
  (∀ a ∈ t.inits, a.count ')' ≤ a.count '(') ∧ t.count '(' = t.count ')'

instance (t : Text) : Decidable t.Balanced := inferInstanceAs (Decidable (_ ∧ _))

/-- The first parenthesis that is taken for the port list's is closed again. -/
theorem Text.Balanced.closesOwnPorts {t : Text} (h : t.Balanced)
    (hopen : (Delimiters.ofText t).opensPorts = true) :
    (Delimiters.ofText t).closesOwnPorts = true := by
  obtain ⟨a, b, rfl, hlast, hclosed⟩ := Delimiters.exists_bare_of_opensPorts rfl hopen
  have ha : a.count ')' ≤ a.count '(' := h.1 a ((List.mem_inits _ _).2 ⟨_, rfl⟩)
  have htotal := h.2
  rw [List.count_append, List.count_append, List.count_cons_self,
    List.count_cons_of_ne (by decide)] at htotal
  rw [Delimiters.closesOwnPorts, Delimiters.ofText_closesAfterPorts (by simpa using hlast) hclosed,
    decide_eq_true_eq]
  omega

variable {s : Style} {m : Module}

/-- The ports end on the line of the parameter that is taken for their opening. -/
theorem portsEnd_laterLines (hm : m.PlainHead)
    (hbalanced : ∀ p ∈ m.parameters, (p.default.getD []).Balanced) {l : Text}
    (hl : l ∈ s.laterLines m) (hopens : portsOpen? l = some true) : portsEnd true l = true := by
  obtain ⟨p, hp, hdelimiters⟩ := exists_of_mem_right (forall₂_laterLines hm) hl
  have hopen : (Delimiters.ofText (p.default.getD [])).opensPorts = true := by
    by_contra hnot
    rw [portsOpen?_eq, hdelimiters, if_neg hnot] at hopens
    split_ifs at hopens
    simp at hopens
  rw [portsEnd_eq, if_pos rfl, hdelimiters]
  exact (hbalanced p ((List.dropWhile_suffix _).subset hp)).closesOwnPorts hopen

/-- The search stops on a line of the parameters, and the ports end there. -/
theorem exists_settles_portBlock (hm : m.PlainHead)
    (hbalanced : ∀ p ∈ m.parameters, (p.default.getD []).Balanced) (hhides : m.HidesPorts) :
    ∃ qs before, portBlock.Settles (s.laterLines m) qs before := by
  obtain ⟨p, hp, hstops⟩ := hhides
  obtain ⟨k, hk, hdelimiters⟩ := exists_of_mem_right (forall₂_laterLines (s := s) hm).flip hp
  have hstop : portsOpen? k ≠ none := by
    rw [portsOpen?_eq, hdelimiters, ← portsOpen?_eq]
    exact Parameter.stopsSearch_iff.1 hstops
  -- some line before `k` may stop the search already
  rcases hfind : (s.laterLines m).findSome? portsOpen? with _ | opening
  · exact absurd (List.findSome?_eq_none_iff.1 hfind k hk) hstop
  · obtain ⟨pre, l, post, hsplit, hl, hpre⟩ := List.findSome?_eq_some_iff.1 hfind
    cases opening with
    | false =>
      rw [hsplit]
      exact ⟨[], pre, fun r rest h => portBlock_of_absent pre h hpre hl⟩
    | true =>
      have hends : portsEnd true l = true :=
        portsEnd_laterLines hm hbalanced (s := s) (by rw [hsplit]; simp) hl
      obtain ⟨u, qs, hfeed⟩ := exists_feedLines_ports [l]
      rw [hsplit]
      exact ⟨qs, pre ++ [], fun r rest h => portBlock_of_lines pre [] h hpre (by simpa using hl)
        (by simp) (by simp) hends hfeed⟩

end Balance

section PortLists

/-- The ports are those on the lines from the one that opens their list to the first that ends it,
whatever stands in front without stopping the search. -/
theorem exists_settles_of_opening {opening : Text} {ls : List Text}
    (hopen : portsOpen? opening = some true)
    (hends : portsEnd true opening = true ∨ ∃ l ∈ ls, portsEnd false l = true) :
    ∃ qs, ∀ pre : List Text, (∀ l ∈ pre, portsOpen? l = none) →
      ∃ before, portBlock.Settles (pre ++ opening :: ls) qs before := by
  by_cases hown : portsEnd true opening = true
  · obtain ⟨u, qs, hfeed⟩ := exists_feedLines_ports [opening]
    exact ⟨qs, fun pre hpre => ⟨pre ++ [], fun r rest h => portBlock_of_lines pre [] h hpre
      (by simpa using hopen) (by simp) (by simp) hown hfeed⟩⟩
  · obtain ⟨l, hl⟩ := Option.isSome_iff_exists.1 (List.find?_isSome.2 (hends.resolve_left hown))
    obtain ⟨hend, mid, post, rfl, hmid⟩ := List.find?_eq_some_iff_append.1 hl
    obtain ⟨u, qs, hfeed⟩ := exists_feedLines_ports (opening :: mid ++ [l])
    refine ⟨qs, fun pre hpre => ⟨pre ++ opening :: mid, fun r rest h =>
      portBlock_of_lines pre (opening :: mid) h hpre (by simpa using hopen) (by simpa using hown)
        (fun k hk => by simpa using hmid k hk) hend hfeed⟩⟩

theorem endsLine_flatten : ∀ {ls : List Text}, (∀ l ∈ ls, l.EndsLine) → Text.EndsLine ls.flatten
  | [], _ => nofun
  | l :: _, h => (h l List.mem_cons_self).append
    (endsLine_flatten fun k hk => h k (List.mem_cons_of_mem _ hk))

theorem endsLine_entryLines {entries : List Text} : ∀ l ∈ entryLines entries, l.EndsLine := by
  intro l hl c hc
  obtain ⟨e, -, rfl | rfl⟩ := exists_of_mem_entryLines hl
  · simpa [List.getLast?_cons] using hc.symm
  · simpa [List.getLast?_cons] using hc.symm

theorem endsLine_portLines (s : Style) (m : Module) : Text.EndsLine (s.portLines m).flatten := by
  refine endsLine_flatten fun l hl => ?_
  unfold Style.portLines at hl
  split_ifs at hl
  · cases hl
  · rcases List.mem_append.1 hl with hl | hl
    · exact endsLine_entryLines l hl
    · rw [List.mem_singleton.1 hl]
      exact fun c hc => (Option.some.inj hc).symm

/-- The line behind the last port ends the list, if no line of the ports does. -/
theorem exists_settles_portList (s : Style) (m : Module) : ∃ qs, ∀ pre : List Text,
    (∀ l ∈ pre, portsOpen? l = none) → ∃ before,
      portBlock.Settles (pre ++ (m.portLead ++ m.portOpening) :: Text.lines (s.portLines m).flatten)
        qs before := by
  refine exists_settles_of_opening (portsOpen?_opening _ m) ?_
  by_cases hnone : m.ports.toList.isEmpty = true
  · left
    rw [Module.portOpening, if_pos hnone, portsEnd_eq, Delimiters.ofText, Delimiters.addAll_append]
    simp [Delimiters.addAll, Delimiters.add, Delimiters.closesOwnPorts]
  · right
    refine ⟨");\n".toList, ?_, by decide⟩
    rw [Style.portLines, if_neg hnone, List.flatten_append,
      Text.lines_append_of_endsLine (endsLine_flatten endsLine_entryLines)]
    exact List.mem_append_right _ (by decide)

end PortLists

namespace Module

variable {m : Module}

theorem ports_of_create {name : Text} {ps : List Parameter} {qs : List Port}
    (h : create name ps qs = .ok m) : m.ports = .ofList qs := (of_create h).2.2

theorem headerName?_of_headerLines (hname : isModuleName m.name = true) {s : Style} {l : Text}
    {ls post : List Text} (h : s.parameterLines m ++ (m.portLead ++ m.portOpening) :: ls = l :: post) :
    headerName? l = some m.name := by
  obtain ⟨u, post', hhead, hu⟩ := exists_headerLines_eq s m
  have hfirst : (s.headerLines m).head? = some l := by
    rw [Style.headerLines, head?_append_cons, ← head?_append_cons, h]
    rfl
  rw [hhead] at hfirst
  obtain rfl := Option.some.inj hfirst
  exact @headerName?_module [] [' '] _ _ (by simp) (by simp) (by decide) hname hu

/-- A module is read, with the ports that come of the lines from the later parameters on. -/
theorem exists_ofSource?_of_ports (hm : m.PlainHead) {s : Style} {ls : List Text}
    (hls : ∀ l ∈ ls, l.IsLine) (hflat : ls.flatten = (s.portLines m).flatten) {qs : List Port}
    (hqs : ∀ r rest, r.Before (s.laterLines m ++ (m.portLead ++ m.portOpening) :: ls) rest →
      ∃ before, portBlock.Yields r qs (r.pass before)) :
    ∃ n, ofSource? (s.declaration m).encode = .ok (some n) ∧ n.ports = .ofList qs := by
  have hlines : ∀ l ∈ s.parameterLines m ++ (m.portLead ++ m.portOpening) :: ls, l.IsLine :=
    List.forall_mem_append.2 ⟨isLine_of_mem_parameterLines hm.name hm.newline_not_mem,
      List.forall_mem_cons.2 ⟨isLine_portOpening hm.name, hls⟩⟩
  have hsource : s.declaration m
      = (s.parameterLines m ++ (m.portLead ++ m.portOpening) :: ls).flatten
        ++ "\nendmodule\n".toList := by
    rw [s.declaration_eq, Style.headerLines, List.flatten_append, List.flatten_append,
      List.flatten_cons, List.flatten_cons, hflat]
  have hbegins := beginsWith_of_isLine hlines (Text.encode "\nendmodule\n".toList)
  rw [← Text.encode_append, ← hsource] at hbegins
  obtain ⟨ps, before, hsplit, hps⟩ := exists_settles_headerLines (s := s) hm.name ls
  have hbefore := LineReader.ofBytes_before hbegins
  have hparameters := hps _ _ hbefore
  rw [hsplit, List.append_assoc] at hbefore
  obtain ⟨_, hports⟩ := hqs _ _ hbefore.pass
  obtain ⟨n, hn⟩ := exists_create hm.name ps qs
  obtain ⟨l, post, hfirst⟩ : ∃ l post,
      s.parameterLines m ++ (m.portLead ++ m.portOpening) :: ls = l :: post :=
    List.exists_cons_of_ne_nil (by simp)
  rw [hfirst] at hbegins
  exact ⟨n, ofSource?_of_yields (firstModule?_of_blocks hbegins (List.forall_mem_nil _)
    (headerName?_of_headerLines hm.name hfirst) hparameters hports hn), ports_of_create hn⟩

/-- Unless the defaults hide them, the ports are read back. -/
theorem exists_ofSource?_declaration (hm : m.InLines) (hopen : ¬ m.HidesPorts) (s : Style) :
    ∃ n, ofSource? (s.declaration m).encode = .ok (some n) ∧
      n.ports = .ofList (m.ports.toList.map Port.readBack) := by
  have hlines : ∀ l ∈ s.portLines m, l.IsLine := fun l hl =>
    isLine_of_mem_headerLines hm.unbroken l (List.mem_append_right _ (List.mem_cons_of_mem _ hl))
  refine exists_ofSource?_of_ports hm.plainHead hlines rfl fun r rest h => ?_
  rw [← List.append_nil (_ :: s.portLines m)] at h
  exact portBlock_of_written hm.ports (leadsPorts_portLead hm.name)
    (portsOpen?_laterLines hm.plainHead hopen) h

/-- Unless the defaults hide them, what is read as ports depends on how the port list is written and
on nothing in front of it. -/
theorem exists_ports (s : Style) (m : Module) : ∃ qs, ∀ m' : Module, m'.PlainHead →
    ¬ m'.HidesPorts → m'.portLead ++ m'.portOpening = m.portLead ++ m.portOpening →
    s.portLines m' = s.portLines m →
    ∃ n, ofSource? (s.declaration m').encode = .ok (some n) ∧ n.ports = .ofList qs := by
  obtain ⟨qs, hqs⟩ := exists_settles_portList s m
  refine ⟨qs, fun m' hm' hopen hopening hports => ?_⟩
  refine exists_ofSource?_of_ports hm' (Text.isLine_of_mem_lines (endsLine_portLines s m))
    (by rw [Text.flatten_lines, hports]) fun r rest h => ?_
  rw [hopening] at h
  obtain ⟨before, hsettles⟩ := hqs _ (portsOpen?_laterLines hm' hopen)
  exact ⟨before, hsettles r rest h⟩

/-- If the defaults hide the ports, nothing behind the parameters is read. -/
theorem exists_ofSource?_of_hidesPorts (hm : m.PlainHead)
    (hbalanced : ∀ p ∈ m.parameters, (p.default.getD []).Balanced) (hhides : m.HidesPorts)
    (s : Style) : ∃ n, ∀ rest : Bytes,
      ofSource? (Text.encode (s.parameterLines m).flatten ++ rest) = .ok (some n) := by
  obtain ⟨qs, before', hqs⟩ := exists_settles_portBlock (s := s) hm hbalanced hhides
  obtain ⟨p, hp, -⟩ := hhides
  have hne : m.parameters ≠ [] := List.ne_nil_of_mem ((List.dropWhile_suffix _).subset hp)
  obtain ⟨k, hk, -⟩ := exists_of_mem_right (forall₂_laterLines (s := s) hm).flip hp
  obtain ⟨l, post, hlater⟩ := List.exists_cons_of_ne_nil (List.ne_nil_of_mem hk)
  obtain ⟨ps, before, hsplit, hps⟩ := exists_settles_parameterBlock hm.name hne
    ((List.append_nil _).trans hlater) (closeParen_mem_of_laterLines hlater)
  rw [List.append_nil] at hps
  obtain ⟨n, hn⟩ := exists_create hm.name ps qs
  refine ⟨n, fun rest => ?_⟩
  have hlines : ∀ k ∈ s.parameterLines m, k.IsLine :=
    isLine_of_mem_parameterLines hm.name hm.newline_not_mem
  have hbegins := beginsWith_of_isLine hlines rest
  generalize Text.encode (s.parameterLines m).flatten ++ rest = source at hbegins ⊢
  have hbefore := LineReader.ofBytes_before hbegins
  have hparameters := hps _ _ hbefore
  rw [hsplit] at hbefore
  have hports := hqs _ _ hbefore.pass
  have hfirst : s.parameterLines m = _ :: _ := if_neg (by simpa using hne)
  have hname := headerName?_of_headerLines hm.name
    (show s.parameterLines m ++ _ :: [] = _ :: _ by rw [hfirst, List.cons_append])
  rw [hfirst] at hbegins
  exact ofSource?_of_yields (firstModule?_of_blocks hbegins (List.forall_mem_nil _) hname
    hparameters hports hn)

theorem portOpening_eq_of_outlines {m' : Module}
    (h : m'.ports.toList.map Port.outline = m.ports.toList.map Port.outline) :
    m'.portOpening = m.portOpening := by
  rw [portOpening, portOpening, isEmpty_eq_of_map h]

theorem portLines_eq_of_outlines {m' : Module} (s : Style)
    (h : m'.ports.toList.map Port.outline = m.ports.toList.map Port.outline) :
    s.portLines m' = s.portLines m := by
  rw [Style.portLines, Style.portLines, isEmpty_eq_of_map h, map_eq_of_key (fun p q hpq => ?_) h]
  obtain ⟨hdirection, hrest⟩ := Prod.mk.inj hpq
  obtain ⟨hidentifier, hwidth⟩ := Prod.mk.inj hrest
  simp only [Style.portDeclaration, Style.portFields, hdirection, hidentifier, hwidth]

theorem portLead_eq_of_identifiers {m' : Module} (hname : m'.name = m.name)
    (h : m'.parameters.map Parameter.identifier = m.parameters.map Parameter.identifier) :
    m'.portLead = m.portLead := by
  rw [portLead, portLead, hname, isEmpty_eq_of_map h]

/-- Two modules that differ in nothing but their defaults give the same ports when their declarations
are read, whatever ports they are, unless the defaults hide them. Ports with plain names and widths are
those that were written, whatever else the modules differ in and in whatever style. Defaults that hide
the ports, hide whatever ports there are. -/
theorem ofSource?_declaration_defaults (hm : m.PlainHead) (s : Style) :
    (∀ m' : Module, m'.PlainHead → m'.name = m.name →
      m'.parameters.map Parameter.identifier = m.parameters.map Parameter.identifier →
      m'.ports.toList.map Port.outline = m.ports.toList.map Port.outline →
      ¬ m.HidesPorts → ¬ m'.HidesPorts → ∃ n n',
        ofSource? (s.declaration m).encode = .ok (some n) ∧
        ofSource? (s.declaration m').encode = .ok (some n') ∧ n.ports = n'.ports) ∧
    (∀ m' : Module, m.InLines → m'.InLines →
      m'.ports.toList.map Port.outline = m.ports.toList.map Port.outline →
      ¬ m.HidesPorts → ¬ m'.HidesPorts → ∀ s' : Style, ∃ n n',
        ofSource? (s.declaration m).encode = .ok (some n) ∧
        ofSource? (s'.declaration m').encode = .ok (some n') ∧ n.ports = n'.ports ∧
        n.ports.toList.map Port.outline = m.ports.toList.map Port.outline) ∧
    ((∀ p ∈ m.parameters, (p.default.getD []).Balanced) → m.HidesPorts →
      ∃ n, ∀ ports : PortTable,
        ofSource? (s.declaration { m with ports }).encode = .ok (some n)) := by
  refine ⟨?_, ?_, ?_⟩
  · intro m' hm' hname hidentifiers hports hopen hopen'
    obtain ⟨qs, hqs⟩ := exists_ports s m
    obtain ⟨n, hn, hnports⟩ := hqs m hm hopen rfl rfl
    obtain ⟨n', hn', hnports'⟩ := hqs m' hm' hopen'
      (by rw [portLead_eq_of_identifiers hname hidentifiers, portOpening_eq_of_outlines hports])
      (portLines_eq_of_outlines s hports)
    exact ⟨n, n', hn, hn', by rw [hnports, hnports']⟩
  · intro m' hm hm' hports hopen hopen' s'
    obtain ⟨n, hn, hnports⟩ := exists_ofSource?_declaration hm hopen s
    obtain ⟨n', hn', hnports'⟩ := exists_ofSource?_declaration hm' hopen' s'
    obtain ⟨back, hback, houtline⟩ := m.exists_create_readBack m.ports.filter_toList
    refine ⟨n, n', hn, hn', ?_, ?_⟩
    · rw [hnports, hnports', map_eq_of_key (fun _ _ => Port.readBack_eq_of_outline) hports]
    · rw [hnports, ← ports_of_create hback]
      exact (Prod.mk.inj (Prod.mk.inj houtline).2).2
  · intro hbalanced hhides
    obtain ⟨n, hn⟩ := exists_ofSource?_of_hidesPorts hm hbalanced hhides s
    refine ⟨n, fun ports => ?_⟩
    have hsource := s.declaration_eq { m with ports }
    rw [Style.headerLines, List.flatten_append, List.append_assoc] at hsource
    rw [hsource, Text.encode_append]
    exact hn _

end Module

section Sample

/-- A module with one output, whose depth is the given value. -/
def sizedModule (v : Text) (hv : v.Trimmed) : Module where
  name := "fifo".toList
  parameters := [{
    identifier := "DEPTH".toList
    default := some v
    identifier_trimmed := by decide
    default_trimmed := by simpa using hv }]
  ports := .ofList [sampleOutput]
  name_trimmed := by decide

theorem inLines_sizedModule {v : Text} (hv : v.Trimmed) (hline : '\n' ∉ v) :
    (sizedModule v hv).InLines := by
  have hname : isModuleName "fifo".toList = true := by decide
  have hidentifier : isIdentifier "DEPTH".toList = true := by decide
  refine ⟨hname, fun p hp => ?_, fun p hp => ?_⟩
  · rw [List.mem_singleton.1 hp]
    exact ⟨hidentifier, hline⟩
  · have hports : (sizedModule v hv).ports.toList = [sampleOutput] := rfl
    rw [hports] at hp
    rw [List.mem_singleton.1 hp]
    exact wellFormed_sampleOutput

def literalDepth : Module := sizedModule "8".toList (by decide)

/-- The parenthesis stands behind a hash, so it is not taken for the port list's. -/
def scopedDepth : Module := sizedModule "Sizes#(8)::DEPTH".toList (by decide)

/-- The depth is the result of a call. -/
def calledDepth : Module := sizedModule "$clog2(8)".toList (by decide)

/-- The module with an output whose width has blanks in it. -/
def spaced (m : Module) : Module :=
  { m with ports := .ofList [{ sampleOutput with width := some (.literal "[7 : 0]".toList) }] }

theorem Module.ofSource?_declaration_defaults_depth :
    (¬ (spaced literalDepth).HidesPorts ∧ ¬ (spaced scopedDepth).HidesPorts ∧ ∃ n n',
      ofSource? (Style.declaration { indent := .ofColumns 4 24 } (spaced literalDepth)).encode
        = .ok (some n) ∧
      ofSource? (Style.declaration { indent := .ofColumns 4 24 } (spaced scopedDepth)).encode
        = .ok (some n') ∧ n.ports = n'.ports) ∧
    (¬ literalDepth.HidesPorts ∧ ¬ scopedDepth.HidesPorts ∧ ∃ n n',
      ofSource? (Style.declaration { indent := .ofColumns 4 24 } literalDepth).encode
        = .ok (some n) ∧
      ofSource? (Style.declaration { indent := .ofColumns 8 40, outputReg := true }
        scopedDepth).encode = .ok (some n') ∧ n.ports = n'.ports ∧
      n.ports.toList.map Port.outline = literalDepth.ports.toList.map Port.outline) ∧
    (calledDepth.HidesPorts ∧ ∃ n, ∀ ports : PortTable,
      ofSource? (Style.declaration { indent := .ofColumns 4 24 }
        { calledDepth with ports }).encode = .ok (some n)) := by
  have hliteral : literalDepth.InLines := inLines_sizedModule _ (by decide)
  have hscoped : scopedDepth.InLines := inLines_sizedModule _ (by decide)
  have hcalled : calledDepth.InLines := inLines_sizedModule _ (by decide)
  have hspaced : ∀ {m : Module}, m.InLines → (spaced m).PlainHead := fun h => ⟨h.name, h.parameters⟩
  have hopen : ¬ literalDepth.HidesPorts := by decide +kernel
  have hopen' : ¬ scopedDepth.HidesPorts := by decide +kernel
  have hhides : calledDepth.HidesPorts := by decide +kernel
  exact ⟨⟨hopen, hopen', (ofSource?_declaration_defaults (hspaced hliteral) _).1 _ (hspaced hscoped)
      rfl rfl rfl hopen hopen'⟩,
    ⟨hopen, hopen', (ofSource?_declaration_defaults hliteral.plainHead _).2.1 _ hliteral hscoped rfl
      hopen hopen' _⟩,
    hhides, (ofSource?_declaration_defaults hcalled.plainHead _).2.2 (by decide +kernel) hhides⟩

/-- Blanks in a width are lost, though the ports are the same for both defaults. -/
example : [spaced literalDepth, spaced scopedDepth].map (fun m =>
    (Module.ofSource? (Style.declaration { indent := .ofColumns 4 24 } m).encode).map
      (Option.map fun n => n.ports.toList.map fun p => p.width.map Width.text))
    = List.replicate 2 (.ok (some [some "[7:0]".toList])) := by decide +kernel

theorem Module.ofSource?_declaration_calledDepth :
    (literalDepth.name, literalDepth.parameters.map Parameter.identifier, literalDepth.ports)
      = (calledDepth.name, calledDepth.parameters.map Parameter.identifier, calledDepth.ports) ∧
    (∀ m ∈ [literalDepth, calledDepth], m.InLines ∧ ∀ p ∈ m.parameters, ∀ v ∈ p.default,
      Token.join (lineTokens v) = v ∧ v.Balanced ∧ ¬ HasComment v ∧ ',' ∉ v ∧ ';' ∉ v) ∧
    (ofSource? (Style.declaration { indent := .ofColumns 4 24 } literalDepth).encode).map
      (Option.map fun n => n.ports.toList.map Port.identifier) = .ok (some ["q".toList]) ∧
    (ofSource? (Style.declaration { indent := .ofColumns 4 24 } calledDepth).encode).map
      (Option.map fun n => n.ports.toList.map Port.identifier) = .ok (some []) := by
  refine ⟨rfl, ?_, by decide +kernel, by decide +kernel⟩
  intro m hm
  rcases List.mem_pair.1 hm with rfl | rfl
  · exact ⟨inLines_sizedModule _ (by decide), by decide +kernel⟩
  · exact ⟨inLines_sizedModule _ (by decide), by decide +kernel⟩

end Sample

end HdlScaffold
