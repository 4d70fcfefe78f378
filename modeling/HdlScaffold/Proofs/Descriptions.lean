import HdlScaffold.Proofs.Declarations
import HdlScaffold.Proofs.Extraction
import HdlScaffold.Proofs.IntegerWidths

/-!
# Compact descriptions

A description is cut at its first separator and trimmed, and a width is put into brackets. What comes
out is a fixed point: the compact form of a port describes an equal port, because a width in brackets
is taken as it is (`Port.exists_ofDescription_description`), and the declaration of a parameter
describes that parameter (`Parameter.ofDescription_declaration`). A description that is refused is
shown whole (`Port.ofDescription_cases`, `Parameter.ofDescription_cases`).
-/

namespace HdlScaffold

namespace Text

theorem trim_cons_blank {c : Char} (hc : isBlank c = true) (t : Text) : trim (c :: t) = t.trim := by
  rw [trim, trim, trimStart, trimStart, List.dropWhile_cons_of_pos hc]

theorem trim_concat_blank {c : Char} (hc : isBlank c = true) (t : Text) :
    trim (t ++ [c]) = t.trim := by
  have hend : ∀ u : Text, trimEnd (u ++ [c]) = u.trimEnd := by
    intro u
    rw [trimEnd, trimEnd, List.reverse_append, List.reverse_singleton, List.singleton_append,
      List.dropWhile_cons_of_pos hc]
  rw [trim, trim, trimStart, trimStart, List.dropWhile_append]
  split_ifs with hblank
  · rw [List.isEmpty_iff] at hblank
    rw [hblank, List.dropWhile_cons_of_pos hc, List.dropWhile_nil]
  · exact hend _

theorem mem_of_mem_trim {c : Char} {t : Text} (h : c ∈ t.trim) : c ∈ t := by
  rw [trim, trimEnd, List.mem_reverse] at h
  have hstart := (List.dropWhile_suffix isBlank).subset h
  exact (List.dropWhile_suffix isBlank).subset (List.mem_reverse.1 hstart)

/-- The text opens with a bracket and has no blank at its end. -/
structure IsBracketed (t : Text) : Prop where
  opens : t.head? = some '['
  trimmed : t.trim = t

theorem isBracketed_of_last {t : Text} {c : Char} (hc : isBlank c = false) :
    IsBracketed ('[' :: (t ++ [c])) := by
  refine ⟨rfl, trim_of_ends (fun d hd => ?_) fun d hd => ?_⟩
  · obtain rfl : '[' = d := Option.some.inj hd
    decide
  · rw [← List.cons_append, List.getLast?_concat] at hd
    obtain rfl : c = d := Option.some.inj hd
    exact hc

end Text

namespace Width

/-- Every width is written in brackets, whichever of the three kinds it is. -/
theorem isBracketed_ofToken (token : Text) : (ofToken token).text.IsBracketed := by
  have hclose : isBlank ']' = false := by decide
  unfold ofToken
  simp only
  split
  · rename_i count _
    have htext : (bits (count + 1)).text
        = '[' :: ((Text.ofNat count ++ [':', '0']) ++ [']']) := by
      simp [text]
    rw [htext]
    exact Text.isBracketed_of_last hclose
  · split_ifs with hopens
    · exact ⟨hopens, Text.trim_trim token⟩
    · have htext : (parameter token.trim).text
          = '[' :: ((token.trim ++ ['-', '1', ':', '0']) ++ [']']) := by
        simp [text]
      rw [htext]
      exact Text.isBracketed_of_last hclose

variable {t : Text}

theorem ofToken_of_isBracketed (h : t.IsBracketed) : ofToken t = literal t := by
  obtain ⟨r, rfl⟩ := List.head?_eq_some_iff.1 h.opens
  have hread : Text.natural? bitsLimit ('[' :: r) = none := by
    have hdigits : Text.digits? ('[' :: r) = none := if_neg (by simp)
    show (Text.digits? ('[' :: r)).filter (· < bitsLimit) = none
    rw [hdigits, Option.filter_none]
  simp only [ofToken, h.trimmed, hread]
  rfl

theorem isNonPositive_of_isBracketed (h : t.IsBracketed) : isNonPositive t = false := by
  obtain ⟨r, rfl⟩ := List.head?_eq_some_iff.1 h.opens
  have hdigits : Text.digits? ('[' :: r) = none := if_neg (by simp)
  have hread : Text.integer? ('[' :: r) = none := by
    rw [Text.integer?.eq_3 _ (by simp) (by simp), hdigits]
    rfl
  rw [isNonPositive, Text.signed?, hread, Option.filter_none, Option.any_none]

end Width

namespace Port

/-- The port in compact form: its name, and its width behind a hash. -/
def description (p : Port) : Text := p.identifier ++ p.width.elim [] fun w => '#' :: w.text

theorem create_of_blank (direction : Direction) {name : Text} (width : Option Width)
    (hne : name.trim ≠ []) (hblank : name.trim.any isBlank = true) :
    create direction name width = .error (.invalidSpec name.trim .portNameBlank) := by
  unfold create
  simp only [dif_neg hne, dif_pos hblank]

/-- A refusal shows the whole description. A port that is described has a name without a hash, and a
width in brackets if it has one. -/
theorem ofDescription_cases (direction : Direction) (d : Text) :
    (∃ refusal, ofDescription direction d = .error (.invalidSpec d refusal)) ∨
    ∃ p, ofDescription direction d = .ok p ∧ p.direction = direction ∧ '#' ∉ p.identifier ∧
      ∀ w ∈ p.width, w.text.IsBracketed := by
  obtain ⟨name, token, hhash, hparts⟩ : ∃ name token : Text, '#' ∉ name ∧
      (d.cutAt? '#' = some (name, token) ∨ d.cutAt? '#' = none ∧ d = name ∧ token = []) := by
    rcases hcut : d.cutAt? '#' with _ | ⟨name, token⟩
    · exact ⟨d, [], Text.cutAt?_eq_none_iff.1 hcut, by simp⟩
    · exact ⟨name, token, (Text.eq_of_cutAt? hcut).2, by simp⟩
  by_cases hne : name.trim = []
  · refine Or.inl ⟨.portNameMissing, ?_⟩
    rcases hparts with hcut | ⟨hcut, rfl, rfl⟩ <;> simp only [ofDescription, hcut, if_pos hne]
  by_cases hblank : name.trim.any isBlank = true
  · have hcreate := fun width => create_of_blank direction width hne hblank
    rcases hparts with hcut | ⟨hcut, rfl, rfl⟩ <;>
      simp only [ofDescription, hcut, hcreate, if_neg hne] <;> split_ifs <;> exact Or.inl ⟨_, rfl⟩
  · have hsolid : name.trim.Solid := ⟨hne, by simpa using hblank⟩
    have hcreate := fun width => create_of_solid_trim direction width hsolid
    have hname : '#' ∉ name.trim := fun h => hhash (Text.mem_of_mem_trim h)
    rcases hparts with hcut | ⟨hcut, rfl, rfl⟩
    · simp only [ofDescription, hcut, hcreate, if_neg hne]
      split_ifs
      · exact Or.inr ⟨_, rfl, rfl, hname, by simp⟩
      · exact Or.inl ⟨_, rfl⟩
      · exact Or.inr ⟨_, rfl, rfl, hname, by simpa using Width.isBracketed_ofToken _⟩
    · simp only [ofDescription, hcut, hcreate, if_neg hne, if_true]
      exact Or.inr ⟨_, rfl, rfl, hname, by simp⟩

theorem beq_of_outline {p q : Port} (h : q.outline = p.outline) : (q == p) = true := by
  show (q.outline == p.outline) = true
  exact beq_iff_eq.2 h

/-- The compact form of such a port describes an equal port. -/
theorem exists_ofDescription_description {p : Port} (hhash : '#' ∉ p.identifier)
    (hwidth : ∀ w ∈ p.width, w.text.IsBracketed) :
    ∃ q, ofDescription p.direction p.description = .ok q ∧ (q == p) = true := by
  have hname : p.identifier.trim = p.identifier := p.solid.trimmed.2
  have hsolid : p.identifier.trim.Solid := hname.symm ▸ p.solid
  unfold description
  rcases hw : p.width with _ | w
  · have hcut : p.identifier.cutAt? '#' = none := Text.cutAt?_eq_none_iff.2 hhash
    refine ⟨⟨p.direction, p.identifier.trim, none, hsolid⟩, ?_, beq_of_outline ?_⟩
    · simp only [Option.elim_none, List.append_nil, ofDescription, hcut, if_neg hsolid.1,
        create_of_solid_trim p.direction _ hsolid, if_true]
    · simp only [outline, hname, hw]
  · obtain ⟨hopens, htrim⟩ := hwidth w hw
    have hne : w.text.trim ≠ [] := by
      rw [htrim]
      intro hnil
      rw [hnil] at hopens
      cases hopens
    refine ⟨⟨p.direction, p.identifier.trim, some (.literal w.text), hsolid⟩, ?_, beq_of_outline ?_⟩
    · rw [Option.elim_some, ofDescription_of_token p.direction hsolid hhash hne, htrim,
        Width.isNonPositive_of_isBracketed ⟨hopens, htrim⟩,
        Width.ofToken_of_isBracketed ⟨hopens, htrim⟩, if_neg (by decide)]
    · simp only [outline, hname, hw, Option.map_some, Width.text]

end Port

namespace Parameter

theorem ofDescription_cases (d : Text) :
    (∃ refusal, ofDescription d = .error (.invalidSpec d refusal)) ∨
    ∃ q, ofDescription d = .ok q ∧ '=' ∉ q.identifier := by
  obtain ⟨name, value, hsign, hparts⟩ : ∃ (name : Text) (value : Option Text), '=' ∉ name ∧
      ofDescription d = if name.trim = [] then .error (.invalidSpec d .parameterNameMissing)
        else create name value := by
    rcases hcut : d.cutAt? '=' with _ | ⟨name, value⟩
    · exact ⟨d, none, Text.cutAt?_eq_none_iff.1 hcut, by simp only [ofDescription, hcut]⟩
    · exact ⟨name, some value, (Text.eq_of_cutAt? hcut).2, by simp only [ofDescription, hcut]⟩
  rw [hparts]
  split_ifs with hne
  · exact Or.inl ⟨_, rfl⟩
  · exact Or.inr ⟨_, dif_neg hne, fun h => hsign (Text.mem_of_mem_trim h)⟩

/-- The blanks around a name and a value do not count. -/
theorem create_eq_of_trim {name name' : Text} {value value' : Option Text}
    (hname : name.trim = name'.trim) (hvalue : value.map Text.trim = value'.map Text.trim) :
    create name value = create name' value' := by
  simp only [create, usableDefault, hname, hvalue]

theorem ofDescription_declaration {q : Parameter} (hsign : '=' ∉ q.identifier) :
    ofDescription q.declaration = .ok q := by
  have hspace : isBlank ' ' = true := by decide
  have hne : q.identifier.trim ≠ [] := by
    rw [q.identifier_trimmed.2]
    exact q.identifier_trimmed.1
  have hcreate := Header.create_default q
  unfold declaration
  rcases hv : q.default with _ | v
  · have hcut : q.identifier.cutAt? '=' = none := Text.cutAt?_eq_none_iff.2 hsign
    rw [hv] at hcreate
    simp only [ofDescription, hcut, if_neg hne, hcreate]
  · have hname : Text.trim (q.identifier ++ [' ']) = q.identifier.trim :=
      Text.trim_concat_blank hspace _
    have hsplit : q.identifier ++ " = ".toList ++ v
        = (q.identifier ++ [' ']) ++ '=' :: (' ' :: v) := by simp
    have hcut : Text.cutAt? '=' ((q.identifier ++ [' ']) ++ '=' :: (' ' :: v))
        = some (q.identifier ++ [' '], ' ' :: v) := Text.cutAt?_append _ (by simp [hsign])
    simp only [hsplit, ofDescription, hcut, hname, if_neg hne]
    rw [← hcreate, hv]
    exact create_eq_of_trim hname (by simp only [Option.map_some, Text.trim_cons_blank hspace])

end Parameter

/-- What is described can be described again in its normal form, and what is refused is shown as it
was given. -/
theorem ofDescription_idempotent (direction : Direction) (d : Text) :
    (∀ p, Port.ofDescription direction d = .ok p →
      ∃ q, Port.ofDescription direction p.description = .ok q ∧ (q == p) = true) ∧
    (∀ q, Parameter.ofDescription d = .ok q → Parameter.ofDescription q.declaration = .ok q) ∧
    (∀ e, Port.ofDescription direction d = .error e → ∃ refusal, e = .invalidSpec d refusal) ∧
    ∀ e, Parameter.ofDescription d = .error e → ∃ refusal, e = .invalidSpec d refusal := by
  refine ⟨fun p hp => ?_, fun q hq => ?_, fun e he => ?_, fun e he => ?_⟩
  · rcases Port.ofDescription_cases direction d with ⟨_, h⟩ | ⟨p', h, rfl, hhash, hwidth⟩
    · rw [hp] at h
      cases h
    · obtain rfl : p = p' := Except.ok.inj (hp.symm.trans h)
      exact Port.exists_ofDescription_description hhash hwidth
  · rcases Parameter.ofDescription_cases d with ⟨_, h⟩ | ⟨q', h, hsign⟩
    · rw [hq] at h
      cases h
    · obtain rfl : q = q' := Except.ok.inj (hq.symm.trans h)
      exact Parameter.ofDescription_declaration hsign
  · rcases Port.ofDescription_cases direction d with ⟨refusal, h⟩ | ⟨_, h, -⟩
    · exact ⟨refusal, Except.error.inj (he.symm.trans h)⟩
    · rw [he] at h
      cases h
  · rcases Parameter.ofDescription_cases d with ⟨refusal, h⟩ | ⟨_, h, -⟩
    · exact ⟨refusal, Except.error.inj (he.symm.trans h)⟩
    · rw [he] at h
      cases h

/-- Both separators twice: the width of a port, and the name and the value of a parameter. -/
def crowdedDescription : Text := " q # W = 2#3 ".toList

theorem ofDescription_idempotent_crowdedDescription :
    (∃ p q, Port.ofDescription .input crowdedDescription = .ok p ∧
      p.description = "q#[W = 2#3-1:0]".toList ∧
      Port.ofDescription .input "q#[W = 2#3-1:0]".toList = .ok q ∧ (q == p) = true) ∧
    (∃ q, Parameter.ofDescription crowdedDescription = .ok q ∧
      q.declaration = "q # W = 2#3".toList ∧
      Parameter.ofDescription "q # W = 2#3".toList = .ok q) ∧
    ∀ e, Port.ofDescription .output " #8".toList = .error e →
      ∃ refusal, e = .invalidSpec " #8".toList refusal := by
  have hcrowded := ofDescription_idempotent .input crowdedDescription
  refine ⟨?_, ?_, (ofDescription_idempotent .output " #8".toList).2.2.1⟩
  · have hcompact : (Port.ofDescription .input crowdedDescription).map Port.description
        = .ok "q#[W = 2#3-1:0]".toList := by decide +kernel
    rcases hp : Port.ofDescription .input crowdedDescription with e | p <;> rw [hp] at hcompact
    · cases hcompact
    · have hdescription : p.description = "q#[W = 2#3-1:0]".toList := Except.ok.inj hcompact
      obtain ⟨q, hq, heq⟩ := hcrowded.1 p hp
      exact ⟨p, q, rfl, hdescription, hdescription ▸ hq, heq⟩
  · have hdeclared : (Parameter.ofDescription crowdedDescription).map Parameter.declaration
        = .ok "q # W = 2#3".toList := by decide +kernel
    rcases hq : Parameter.ofDescription crowdedDescription with e | q <;> rw [hq] at hdeclared
    · cases hdeclared
    · have hdeclaration : q.declaration = "q # W = 2#3".toList := Except.ok.inj hdeclared
      exact ⟨q, rfl, hdeclaration, hdeclaration ▸ hcrowded.2.1 q hq⟩

end HdlScaffold
