import HdlScaffold.Text.Basic

/-!
# Port directions
-/

namespace HdlScaffold

/-- The way signals pass through a port. -/
inductive Direction where
  | input
  | output
  | inout
  deriving DecidableEq, Repr

namespace Direction

/-- The three directions in the order in which ports are listed. -/
def all : List Direction := [input, output, inout]

/-- The word that declares the direction. -/
def keyword : Direction → Text
  | input => "input".toList
  | output => "output".toList
  | inout => "inout".toList

/-- The direction that a word declares. -/
def ofKeyword? (word : Text) : Option Direction := all.find? fun d => d.keyword == word

@[simp] theorem ofKeyword?_keyword (d : Direction) : ofKeyword? d.keyword = some d := by
  cases d <;> decide

theorem ofKeyword?_eq_some_iff {word : Text} {d : Direction} :
    ofKeyword? word = some d ↔ word = d.keyword := by
  constructor
  · intro h
    have := List.find?_some h
    exact (eq_of_beq this).symm
  · rintro rfl
    exact ofKeyword?_keyword d

theorem mem_all (d : Direction) : d ∈ all := by cases d <;> decide

end Direction

end HdlScaffold
