/-!
# Texts

A text is the list of its characters. What is read and what is written are lists from end to end,
so a rule about texts is a rule about lists; `String` appears in messages only.
-/

namespace HdlScaffold

/-- A text, as the list of its characters. -/
abbrev Text := List Char

namespace Text

-- There are finitely many characters, and going through all of them would decide these too.
instance decidableForallMem (p : Char → Prop) [DecidablePred p] (t : Text) :
    Decidable (∀ c ∈ t, p c) := List.decidableBAll p t

instance decidableForallMemOption (p : Char → Prop) [DecidablePred p] (c? : Option Char) :
    Decidable (∀ c ∈ c?, p c) := Option.decidableForallMem c?

/-- The parts before and after the first `sep`, if there is one. -/
def cutAt? (sep : Char) : Text → Option (Text × Text)
  | [] => none
  | c :: t => if c = sep then some ([], t) else (cutAt? sep t).map fun p => (c :: p.1, p.2)

/-- The parts before and after the last `sep`, if there is one. -/
def cutAtLast? (sep : Char) (t : Text) : Option (Text × Text) :=
  (cutAt? sep t.reverse).map fun p => (p.2.reverse, p.1.reverse)

/-- What stands before `ending`, if the text ends in it. -/
def dropEnding? (ending t : Text) : Option Text :=
  if ending.isSuffixOf t then some (t.take (t.length - ending.length)) else none

/-- What stands after `opening`, if the text begins with it. -/
def dropOpening? (opening t : Text) : Option Text :=
  if opening.isPrefixOf t then some (t.drop opening.length) else none

theorem cutAt?_eq_none_iff {sep : Char} {t : Text} : t.cutAt? sep = none ↔ sep ∉ t := by
  induction t with
  | nil => simp [cutAt?]
  | cons c t ih =>
    by_cases h : c = sep
    · simp [cutAt?, h]
    · simp [cutAt?, h, ih, Ne.symm h]

/-- A cut loses the separator and nothing else, and it is the first one. -/
theorem eq_of_cutAt? {sep : Char} {t a b : Text} (h : t.cutAt? sep = some (a, b)) :
    t = a ++ sep :: b ∧ sep ∉ a := by
  induction t generalizing a with
  | nil => simp [cutAt?] at h
  | cons c t ih =>
    by_cases hc : c = sep
    · simp only [cutAt?, hc, if_true, Option.some.injEq, Prod.mk.injEq] at h
      obtain ⟨rfl, rfl⟩ := h
      simp [hc]
    · simp only [cutAt?, hc, if_false, Option.map_eq_some_iff, Prod.mk.injEq] at h
      obtain ⟨⟨a', b'⟩, h', rfl, rfl⟩ := h
      obtain ⟨rfl, hn⟩ := ih h'
      simp [hn, Ne.symm hc]

/-- Text before the first separator is what a cut returns first. -/
theorem cutAt?_append {sep : Char} {a : Text} (b : Text) (h : sep ∉ a) :
    cutAt? sep (a ++ sep :: b) = some (a, b) := by
  induction a with
  | nil => simp [cutAt?]
  | cons c a ih =>
    simp only [List.mem_cons, not_or] at h
    simp [cutAt?, Ne.symm h.1, ih h.2]

/-- Text after the last separator is what a cut there returns second. -/
theorem cutAtLast?_append {sep : Char} (a : Text) {b : Text} (h : sep ∉ b) :
    cutAtLast? sep (a ++ sep :: b) = some (a, b) := by
  have hreverse : (a ++ sep :: b).reverse = b.reverse ++ sep :: a.reverse := by simp
  rw [cutAtLast?, hreverse, cutAt?_append _ fun hb => h (List.mem_reverse.1 hb)]
  simp

/-- A cut at the last separator loses it and nothing else. -/
theorem eq_of_cutAtLast? {sep : Char} {t a b : Text} (h : t.cutAtLast? sep = some (a, b)) :
    t = a ++ sep :: b := by
  rw [cutAtLast?, Option.map_eq_some_iff] at h
  obtain ⟨⟨b', a'⟩, hcut, heq⟩ := h
  obtain ⟨rfl, rfl⟩ := Prod.mk.inj heq
  have hreverse := congrArg List.reverse (eq_of_cutAt? hcut).1
  simpa using hreverse

end Text

end HdlScaffold
