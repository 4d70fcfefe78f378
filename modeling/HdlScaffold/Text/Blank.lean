import HdlScaffold.Text.Basic

/-!
# Blank characters

A blank is a character with the Unicode property `White_Space`. Trimming removes the blanks at both
ends of a text.
-/

namespace HdlScaffold

/-- The ranges of the property `White_Space`, first and last code point of each. -/
def blankRanges : List (Nat × Nat) :=
  [(0x9, 0xD), (0x20, 0x20), (0x85, 0x85), (0xA0, 0xA0), (0x1680, 0x1680), (0x2000, 0x200A),
    (0x2028, 0x2029), (0x202F, 0x202F), (0x205F, 0x205F), (0x3000, 0x3000)]

/-- The character is white space. -/
def isBlank (c : Char) : Bool :=
  blankRanges.any fun r => r.1 ≤ c.toNat && c.toNat ≤ r.2

namespace Text

/-- The text from its first character that is no blank. -/
def trimStart (t : Text) : Text := t.dropWhile isBlank

/-- The text up to its last character that is no blank. -/
def trimEnd (t : Text) : Text := (t.reverse.dropWhile isBlank).reverse

/-- The text without the blanks at its two ends. -/
def trim (t : Text) : Text := t.trimStart.trimEnd

/-- The text holds a character and no blank. -/
def Solid (t : Text) : Prop := t ≠ [] ∧ ∀ c ∈ t, isBlank c = false

/-- The text holds a character and has no blank at either end. -/
def Trimmed (t : Text) : Prop := t ≠ [] ∧ t.trim = t

instance (t : Text) : Decidable t.Solid := inferInstanceAs (Decidable (_ ∧ _))

instance (t : Text) : Decidable t.Trimmed := inferInstanceAs (Decidable (_ ∧ _))

theorem dropWhile_isBlank_of_solid {t : Text} (h : ∀ c ∈ t, isBlank c = false) :
    t.dropWhile isBlank = t := by
  cases t with
  | nil => rfl
  | cons c t => simp [h c (by simp)]

/-- A text without blanks is its own trim. -/
theorem trim_of_no_blank {t : Text} (h : ∀ c ∈ t, isBlank c = false) : t.trim = t := by
  simp only [trim, trimStart, trimEnd]
  rw [dropWhile_isBlank_of_solid h,
    dropWhile_isBlank_of_solid fun c hc => h c (List.mem_reverse.1 hc), List.reverse_reverse]

theorem Solid.trimmed {t : Text} (h : t.Solid) : t.Trimmed := ⟨h.1, trim_of_no_blank h.2⟩

theorem dropWhile_dropWhile_isBlank (t : Text) :
    (t.dropWhile isBlank).dropWhile isBlank = t.dropWhile isBlank := by
  induction t with
  | nil => rfl
  | cons c t ih => by_cases h : isBlank c <;> simp [h, ih]

theorem head_dropWhile_isBlank {t : Text} {c : Char}
    (h : (t.dropWhile isBlank).head? = some c) : isBlank c = false := by
  induction t with
  | nil => simp at h
  | cons d t ih =>
    by_cases hd : isBlank d
    · simp only [List.dropWhile_cons, hd, if_true] at h
      exact ih h
    · simp only [List.dropWhile_cons, hd] at h
      simp only [Bool.false_eq_true, if_false, List.head?_cons, Option.some.injEq] at h
      subst h
      simpa using hd

theorem dropWhile_isBlank_of_head {t : Text} (h : ∀ c, t.head? = some c → isBlank c = false) :
    t.dropWhile isBlank = t := by
  cases t with
  | nil => rfl
  | cons c t => simp [h c rfl]

/-- Cutting blanks off the end leaves the first character in place. -/
theorem head_trimEnd {t : Text} {c : Char} (h : t.trimEnd.head? = some c) : t.head? = some c := by
  have hs : (t.reverse.dropWhile isBlank) <:+ t.reverse := List.dropWhile_suffix _
  have hp : t.trimEnd <+: t := List.reverse_suffix.1 (by simpa [trimEnd] using hs)
  obtain ⟨r, hr⟩ := hp
  rw [← hr]
  cases ht : t.trimEnd with
  | nil => simp [ht] at h
  | cons d s => rw [ht] at h; simpa using h

/-- Trimming twice is trimming once. -/
theorem trim_trim (t : Text) : t.trim.trim = t.trim := by
  have hs : t.trim.trimStart = t.trim :=
    dropWhile_isBlank_of_head fun c h => head_dropWhile_isBlank (t := t) (head_trimEnd h)
  have he : t.trimStart.trimEnd.trimEnd = t.trimStart.trimEnd := by
    simp only [trimEnd, List.reverse_reverse, dropWhile_dropWhile_isBlank]
  rw [trim, hs, trim, he]

theorem trimmed_trim {t : Text} (h : t.trim ≠ []) : t.trim.Trimmed := ⟨h, trim_trim t⟩

end Text

end HdlScaffold
