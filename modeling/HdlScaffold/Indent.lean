import HdlScaffold.Text.Utf8

/-!
# Columns

The fields of a declaration are divided by tabs, and further tabs in front of the last field move it
to a common column where the fields before it leave room.
-/

namespace HdlScaffold

/-- Where the last field of a line should start, with tab stops every `tabWidth` columns. -/
structure Indent where
  tabWidth : Nat
  column : Nat
  tabWidth_pos : 0 < tabWidth
  deriving Repr

namespace Indent

/-- A tab width of zero counts as one. -/
def ofColumns (tabWidth column : Nat) : Indent := ⟨max tabWidth 1, column, by omega⟩

def defaultTabWidth : Nat := 4

def defaultColumn : Nat := 24

/-- The tab stop that the last field should start at. -/
def desiredTabs (i : Indent) : Nat := i.column / i.tabWidth

/-- The tab stops that a field and the tab behind it take up. -/
def fieldTabs (i : Indent) (field : Text) : Nat := field.byteLength / i.tabWidth + 1

/-- The tab stops that the fields in front of the last one take up. -/
def usedTabs (i : Indent) : List Text → Nat
  | [] => 0
  | field :: rest => i.fieldTabs field + usedTabs i rest

/-- The fields on one line, the last of them moved to its column. -/
def align (i : Indent) (fields : List Text) : Text :=
  match fields.getLast? with
  | none => []
  | some last =>
    let leading := fields.dropLast
    let extra := if leading.isEmpty then 0 else i.desiredTabs - i.usedTabs leading
    (leading.flatMap fun f => f ++ ['\t']) ++ List.replicate extra '\t' ++ last

end Indent

end HdlScaffold
