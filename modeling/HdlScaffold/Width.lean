import HdlScaffold.Text.Blank
import HdlScaffold.Text.Numeral

/-!
# Bus widths

A width is written as a bracketed range. A number of bits and the name of a parameter are shorthands
for one, and two widths are equal when their ranges are the same text.
-/

namespace HdlScaffold

/-- The width of a bus. -/
inductive Width where
  /-- So many bits. -/
  | bits (count : Nat)
  /-- A range, given as it is to be written. -/
  | literal (range : Text)
  /-- As many bits as the parameter says. -/
  | parameter (name : Text)
  deriving Repr

namespace Width

/-- The range that is written for the width. -/
def text : Width → Text
  | bits count => "[".toList ++ Text.ofNat (count - 1) ++ ":0]".toList
  | literal range => range
  | parameter name => "[".toList ++ name ++ "-1:0]".toList

instance : BEq Width := ⟨fun v w => v.text == w.text⟩

/-- Numbers of bits are 64-bit words. -/
def bitsLimit : Nat := 0x10000000000000000

/-- Numbers are told from names as signed 128-bit words. -/
def signedLimit : Nat := 0x80000000000000000000000000000000

/-- The width that a token stands for: a positive number first, then a range, else a parameter. -/
def ofToken (token : Text) : Width :=
  let token := token.trim
  match token.natural? bitsLimit with
  | some (count + 1) => bits (count + 1)
  | _ => if token.head? = some '[' then literal token else parameter token

/-- The token is a number that no bus can have as its width. -/
def isNonPositive (token : Text) : Bool := (token.signed? signedLimit).any (· ≤ 0)

end Width

end HdlScaffold
