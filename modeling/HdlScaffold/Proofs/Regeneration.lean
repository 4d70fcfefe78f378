import HdlScaffold.Proofs.Extraction
import HdlScaffold.Proofs.RoundTrip

/-!
# Regeneration

A module read from any source, however mangled, has names and widths of a known form
(`Header.gives_firstModule?`). If no parenthesis and no comment stands in its defaults and widths, it is
well formed, and the declaration written for it reads back as the very same module, so writing and
reading once more changes nothing (`Module.ofSource?_declaration_of_ofSource?`).
-/

namespace HdlScaffold

/-- A module as reading finds it. -/
structure Module.Extracted (m : Module) : Prop where
  name : isModuleName m.name = true
  parameters : ∀ p ∈ m.parameters, p.Extracted
  ports : ∀ p ∈ m.ports.toList, p.Extracted

namespace Header

namespace Reading

variable {α β σ : Type} {P : α → Prop} {Q : β → Prop}

/-- Wherever the reading starts, what it answers has the property. -/
def Gives (x : Reading α) (P : α → Prop) : Prop := ∀ r a, (x r).answer = .ok a → P a

theorem Gives.bind {x : Reading α} {f : α → Reading β} (hx : x.Gives P)
    (hf : ∀ a, P a → (f a).Gives Q) : (x >>= f).Gives Q := by
  intro r b h
  rcases ha : (x r).answer with e | a
  · rw [bind_of_error ha] at h
    cases h
  · rw [bind_of_ok ha] at h
    exact hf a (hx r a ha) _ b h

theorem gives_ofExcept {x : Except Error α} (h : ∀ a, x = .ok a → P a) : (ofExcept x).Gives P :=
  fun _ a ha => h a ha

theorem gives_pure {a : α} (h : P a) : (pure a : Reading α).Gives P :=
  gives_ofExcept fun _ hb => Except.ok.inj hb ▸ h

theorem gives_unclosed (block : Block) : (unclosed block : Reading α).Gives P := by
  intro r a h
  cases h

/-- Nothing is known of the unit that a note or a restart gives. -/
theorem Gives.after {x : Reading Unit} {y : Reading β} (hy : y.Gives Q) :
    (x >>= fun _ => y).Gives Q :=
  Gives.bind (P := fun _ => True) (fun _ _ _ => trivial) fun _ _ => hy

/-- A search keeps what each step keeps, and its answer is one that a step gave. -/
theorem gives_until? {step : σ → Text → Except Error (σ ⊕ β)} {I : σ → Prop}
    (hstep : ∀ s l x, I s → step s l = .ok x → x.elim I Q) {s : σ} (hs : I s) :
    (until? step s).Gives fun found => ∀ b ∈ found, Q b.1 := by
  intro r found h
  fun_induction until? step s r with
  | case1 => cases h
  | case2 =>
    obtain rfl := Except.ok.inj h
    simp
  | case3 => cases h
  | case4 s r line r' _ s' hl ih => exact ih (hstep s line _ hs hl) h
  | case5 s r line r' _ b hl =>
    obtain rfl := Except.ok.inj h
    simpa using hstep s line _ hs hl

theorem gives_find? {pick : Text → Option β} (h : ∀ l b, pick l = some b → Q b) :
    (find? pick).Gives fun found => ∀ b ∈ found, Q b.1 := by
  refine gives_until? (I := fun _ => True) (fun _ l x _ hx => ?_) trivial
  obtain rfl := Except.ok.inj hx
  rcases hl : pick l with _ | b
  · trivial
  · exact h l b hl

end Reading

open Reading

theorem isModuleName_of_takeName? {t name rest : Text} (h : takeName? t = some (name, rest)) :
    isModuleName name = true := by
  rcases t with _ | ⟨c, t⟩
  · simp [takeName?] at h
  · rw [takeName?, Option.ite_none_right_eq_some] at h
    obtain ⟨hc, h⟩ := h
    obtain ⟨rfl, -⟩ := Prod.mk.inj (Option.some.inj h)
    simp [isModuleName, hc]

theorem isModuleName_of_headerName? {l name : Text} (h : headerName? l = some name) :
    isModuleName name = true := by
  simp only [headerName?, Option.bind_eq_bind, Option.bind_eq_some_iff] at h
  obtain ⟨rest, -, ⟨name', after⟩, hname, h⟩ := h
  obtain rfl := Option.some.inj h
  exact isModuleName_of_takeName? hname

/-- A block holds what its lines declare, if each line adds such declarations. -/
theorem gives_seek {α σ : Type} {I : σ → Prop} {Q : List α → Prop} {block : Block}
    {opens? : Text → Option Bool} {gather : σ → Text → Except Error (σ ⊕ List α)} {start : σ}
    {absent ends : Nat → Note} (hgather : ∀ s l x, I s → gather s l = .ok x → x.elim I Q)
    (hstart : I start) (hnone : Q []) : (seek block opens? gather start absent ends).Gives Q := by
  refine Gives.bind (gives_find? (Q := fun _ => True) fun _ _ _ => trivial) fun found _ => ?_
  rcases found with _ | ⟨_ | _, line⟩
  · exact gives_unclosed _
  · exact (gives_pure hnone).after
  · refine Gives.bind (gives_until? hgather hstart) fun gathered h => ?_
    rcases gathered with _ | ⟨declared, line⟩
    · exact gives_unclosed _
    · exact (gives_pure (h _ rfl)).after

theorem gives_parameterBlock : parameterBlock.Gives fun ps => ∀ p ∈ ps, p.Extracted := by
  rw [parameterBlock_eq_seek]
  refine gives_seek (I := fun s => ∀ p ∈ s.2, p.Extracted) ?_ (by simp) (by simp)
  rintro ⟨s, acc⟩ l x hacc hx
  obtain ⟨u, ps, hfeed, hps⟩ := s.exists_feed (t := beforeComment l) List.infix_rfl
  have hall : ∀ p ∈ acc ++ ps, p.Extracted := List.forall_mem_append.2 ⟨hacc, hps⟩
  rw [gatherParameters_eq hfeed] at hx
  obtain rfl := Except.ok.inj hx
  split_ifs
  · exact hall
  · exact hall

theorem gives_portBlock : portBlock.Gives fun ps => ∀ p ∈ ps, p.Extracted := by
  rw [portBlock_eq_seek]
  refine gives_seek (I := fun s => s.2.1.Sound ∧ ∀ p ∈ s.2.2, p.Extracted) ?_
    ⟨by simp [PortContext.Sound], by simp⟩ (by simp)
  rintro ⟨b, s, acc⟩ l x ⟨hs, hacc⟩ hx
  obtain ⟨u, ps, hfeed, hu, hps⟩ :=
    PortContext.exists_feed hs (lexed_of_mem_tokens (beforeComment l))
  have hall : ∀ p ∈ acc ++ ps, p.Extracted := List.forall_mem_append.2 ⟨hacc, hps⟩
  rw [gatherPorts_eq hfeed] at hx
  obtain rfl := Except.ok.inj hx
  split_ifs
  · exact hall
  · exact ⟨hu, hall⟩

theorem extracted_of_create {name : Text} {ps : List Parameter} {qs : List Port} {m : Module}
    (hname : isModuleName name = true) (hps : ∀ p ∈ ps, p.Extracted) (hqs : ∀ p ∈ qs, p.Extracted)
    (h : Module.create name ps qs = .ok m) : m.Extracted := by
  obtain ⟨htrim, hparameters, hports⟩ := Module.of_create h
  refine ⟨?_, hparameters ▸ hps, fun p hp => ?_⟩
  · rw [htrim, trim_of_isModuleName hname, hname]
  · rw [hports] at hp
    exact hqs p ((PortTable.stablySorts_toList_ofList qs).perm.mem_iff.1 hp)

/-- Whatever the source is, a module read from it has the form of one that was extracted. -/
theorem gives_firstModule? : firstModule?.Gives fun found => ∀ m ∈ found, m.Extracted := by
  refine (Gives.bind (gives_find? fun _ _ => isModuleName_of_headerName?) fun found hname => ?_).after
  rcases found with _ | ⟨name, line⟩
  · exact (gives_pure (by simp)).after
  · refine (gives_parameterBlock.bind fun ps hps => gives_portBlock.bind fun qs hqs =>
      ((gives_ofExcept (P := Module.Extracted) fun m hm => ?_).bind fun m hm => ?_).after).after
    · exact extracted_of_create (hname _ rfl) hps hqs hm
    · exact gives_pure (by simpa using hm)

end Header

namespace Module

/-- The defaults and the widths, as they are written. -/
def valueTexts (m : Module) : List Text :=
  m.parameters.filterMap Parameter.default ++
    m.ports.toList.filterMap fun p => p.width.map Width.text

variable {m : Module}

theorem Extracted.wellFormed (h : m.Extracted)
    (hvalues : ∀ v ∈ m.valueTexts, '(' ∉ v ∧ ')' ∉ v ∧ ¬ HasComment v) : m.WellFormed := by
  refine ⟨h.name, fun p hp => (h.parameters p hp).wellFormed fun v hv => hvalues v ?_,
    fun p hp => (h.ports p hp).wellFormed fun w hw => hvalues _ ?_⟩
  · exact List.mem_append_left _ (List.mem_filterMap.2 ⟨p, hp, hv⟩)
  · exact List.mem_append_right _ (List.mem_filterMap.2 ⟨p, hp, by rw [hw]; rfl⟩)

theorem extracted_of_ofSource? {source : Bytes} (h : ofSource? source = .ok (some m)) :
    m.Extracted := Header.gives_firstModule? _ _ h m rfl

/-- Reading a written declaration gives a module back to the letter, if it came from reading. -/
theorem Extracted.ofSource?_declaration (h : m.Extracted) (hm : m.WellFormed) (s : Style) :
    ofSource? (s.declaration m).encode = .ok (some m) := by
  have hnone : ∀ l ∈ ([] : List Text), l.IsLine ∧ headerName? l = none := by simp
  obtain ⟨m', ls, ⟨notes, hread⟩, houtline⟩ := exists_yields_declaration hm s hnone [] rfl
  rw [List.flatten_nil, List.nil_append, List.append_nil] at hread
  have hsource : ofSource? (s.declaration m).encode = .ok (some m') := by
    rw [ofSource?, hread]
  -- both modules were read, so every width is a range, and ranges are compared by their texts
  have heq : m' = m := eq_of_outline
    (fun p hp => ((extracted_of_ofSource? hsource).ports p hp).readBack_eq)
    (fun p hp => (h.ports p hp).readBack_eq) houtline
  rw [hsource, heq]

/-- What is read from a source, well formed or not, is written so that it reads back the same. -/
theorem ofSource?_declaration_of_ofSource? {source : Bytes} (h : ofSource? source = .ok (some m)) :
    isModuleName m.name = true ∧
    (∀ p ∈ m.parameters, isIdentifier p.identifier = true ∧
      p.identifier ≠ "parameter".toList ∧ p.identifier ≠ "localparam".toList) ∧
    (∀ p ∈ m.ports.toList, isIdentifier p.identifier = true ∧
      Direction.ofKeyword? p.identifier = none ∧ p.identifier ∉ Header.portTypeKeywords ∧
      ∀ w ∈ p.width, w.text.IsGroups) ∧
    ((∀ v ∈ m.valueTexts, '(' ∉ v ∧ ')' ∉ v ∧ ¬ ['/', '/'] <:+: v) →
      ∀ s : Style, ofSource? (s.declaration m).encode = .ok (some m)) := by
  have hm := extracted_of_ofSource? h
  refine ⟨hm.name, fun p hp => ?_, fun p hp => ?_, fun hvalues s => ?_⟩
  · have hp := hm.parameters p hp
    exact ⟨hp.identifier, hp.ne_parameter, hp.ne_localparam⟩
  · have hp := hm.ports p hp
    exact ⟨hp.identifier, hp.no_direction, hp.no_type, hp.isGroups⟩
  · exact hm.ofSource?_declaration (hm.wellFormed hvalues) s

/-- Stray brackets, a default that runs into the next declaration, and bytes that are no text. -/
def mangledSource : Bytes :=
  Text.encode (")(\nmodule m$ #(parameter A = [, B = ] ;0 (\n".toList ++
    ") ] (input [ 7 ] [x\n, output [;] q]\n)\n".toList) ++ [0xff]

theorem ofSource?_declaration_mangledSource : ∃ m, ofSource? mangledSource = .ok (some m) ∧
    m.valueTexts = ["[,B=]", "[7]", "[;]"].map String.toList ∧
    ∀ s : Style, ofSource? (s.declaration m).encode = .ok (some m) := by
  have hread : (ofSource? mangledSource).toOption.map (Option.map valueTexts)
      = some (some (["[,B=]", "[7]", "[;]"].map String.toList)) := by
    decide +kernel
  rcases h : ofSource? mangledSource with e | _ | m <;> rw [h] at hread <;>
    simp only [Except.toOption, Option.map_some, Option.map_none, reduceCtorEq,
      Option.some.injEq] at hread
  refine ⟨m, rfl, hread, (ofSource?_declaration_of_ofSource? h).2.2.2 ?_⟩
  rw [hread]
  decide

end Module

end HdlScaffold
