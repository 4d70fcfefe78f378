import HdlScaffold.Proofs.Signals

/-!
# Endings of names

An ending that names a direction begins with an underscore and has no other one. So it can only be what
stands from the last underscore on: a name has one ending at most, the order in which the endings are
tried makes no difference (`withoutAnyOf_of_perm`), and taking the ending off is a cut at the last
underscore (`withoutEnding_eq_cutEnding`).
-/

namespace HdlScaffold

namespace Port

/-- The endings that name a direction, from the shortest to the longest for each. -/
def endingsByDirection : List Text :=
  ["_i", "_in", "_input", "_o", "_out", "_output"].map String.toList

/-- The name without the first of the endings that it has, unless nothing else is left. -/
def withoutAnyOf (endings : List Text) (identifier : Text) : Text :=
  match endings.findSome? (Text.dropEnding? · identifier) with
  | some (c :: stem) => c :: stem
  | _ => identifier

/-- The name up to its last underscore, if an ending that names a direction starts there and something
stands before it. -/
def cutEnding (identifier : Text) : Text :=
  match identifier.cutAtLast? '_' with
  | some (stem, word) => if stem ≠ [] ∧ '_' :: word ∈ endingsByDirection then stem else identifier
  | none => identifier

theorem perm_endingsByDirection : endingsByDirection.Perm directionEndings := by decide

theorem exists_word_of_mem : ∀ e ∈ endingsByDirection, ∃ word, e = '_' :: word ∧ '_' ∉ word := by
  intro e he
  have hform : ∀ e ∈ endingsByDirection, e.head? = some '_' ∧ '_' ∉ e.tail := by decide
  obtain ⟨hhead, htail⟩ := hform e he
  obtain ⟨word, rfl⟩ := List.head?_eq_some_iff.1 hhead
  exact ⟨word, rfl, htail⟩

theorem withoutAnyOf_of_perm {endings : List Text} (h : endings.Perm directionEndings) (x : Text) :
    withoutAnyOf endings x = withoutEnding x := by
  have hfind : endings.findSome? (Text.dropEnding? · x)
      = directionEndings.findSome? (Text.dropEnding? · x) := by
    refine Option.ext fun stem => ?_
    rw [findSome?_dropEnding?_iff h, findSome?_dropEnding?_iff (List.Perm.refl _)]
  rw [withoutAnyOf, hfind]
  rfl

theorem withoutEnding_eq_cutEnding (x : Text) : withoutEnding x = cutEnding x := by
  rcases ending_cases x with ⟨e, he, u, hu, rfl⟩ | h
  · have hmem := perm_endingsByDirection.mem_iff.2 he
    obtain ⟨word, rfl, hword⟩ := exists_word_of_mem e hmem
    rw [withoutEnding_append hu he, cutEnding, Text.cutAtLast?_append u hword]
    exact (if_pos ⟨hu, hmem⟩).symm
  · rw [withoutEnding_of_forall h, cutEnding]
    rcases hcut : x.cutAtLast? '_' with _ | ⟨stem, word⟩
    · rfl
    · refine (if_neg fun ⟨hstem, hmem⟩ => hstem ?_).symm
      exact h _ (perm_endingsByDirection.mem_iff.1 hmem) stem (Text.eq_of_cutAtLast? hcut)

/-- Taking an ending off is a cut at the last underscore: the stem in front of an ending is left, any
other name stays, and no name has two endings, whatever order they are tried in. -/
theorem withoutEnding_of_split (x : Text) :
    (∀ y, ∀ e ∈ endingsByDirection, y ≠ [] → x = y ++ e → withoutEnding x = y) ∧
    ((∀ y, ∀ e ∈ endingsByDirection, y ≠ [] → x ≠ y ++ e) → withoutEnding x = x) ∧
    (∀ y z, ∀ e ∈ endingsByDirection, ∀ f ∈ endingsByDirection, x = y ++ e → x = z ++ f →
      y = z ∧ e = f) ∧
    (∀ endings : List Text, endings.Perm endingsByDirection →
      withoutAnyOf endings x = withoutEnding x) ∧
    (x ≠ [] → withoutEnding x ≠ []) ∧
    withoutEnding x = cutEnding x := by
  have hmem : ∀ {e}, e ∈ endingsByDirection ↔ e ∈ directionEndings :=
    perm_endingsByDirection.mem_iff
  refine ⟨?_, ?_, ?_, ?_, ?_, withoutEnding_eq_cutEnding x⟩
  · rintro y e he hy rfl
    exact withoutEnding_append hy (hmem.1 he)
  · intro h
    refine withoutEnding_of_forall fun e he u hu => ?_
    exact by_contra fun hne => h u e (hmem.2 he) hne hu
  · rintro y z e he f hf rfl heq
    exact ending_unique (hmem.1 he) (hmem.1 hf) heq
  · exact fun endings h => withoutAnyOf_of_perm (h.trans perm_endingsByDirection) x
  · exact fun hx => ((withoutEnding_eq_iff hx).1 rfl).1

/-- A name with one ending in front of another, and one that is nothing but an ending. -/
theorem withoutEnding_of_split_samples :
    withoutEnding "x_in_o".toList = "x_in".toList ∧
    withoutAnyOf endingsByDirection "x_in_o".toList = withoutEnding "x_in_o".toList ∧
    withoutEnding "_output".toList = "_output".toList ∧ withoutEnding "_output".toList ≠ [] := by
  obtain ⟨hstem, -, -, horder, -, -⟩ := withoutEnding_of_split "x_in_o".toList
  obtain ⟨-, hother, hunique, -, hne, -⟩ := withoutEnding_of_split "_output".toList
  refine ⟨hstem _ "_o".toList (by decide) (by decide) (by decide), horder _ (List.Perm.refl _),
    hother fun y e he hy heq => hy ?_, hne (by decide)⟩
  exact (hunique y [] e he "_output".toList (by decide) heq rfl).1

end Port

end HdlScaffold
