import HdlScaffold.Text.Basic

/-!
# Decimal numerals

Reading and writing of numbers as runs of the ten ASCII digits. A numeral may have leading zeros and
a sign in front; it denotes nothing when it is empty or when its number leaves the range asked for.
-/

namespace HdlScaffold.Text

/-- The number that a non-empty run of digits denotes. -/
def digits? (t : Text) : Option Nat :=
  if t ≠ [] ∧ t.all Char.isDigit then some (Nat.ofDigitChars 10 t 0) else none

/-- The number below `limit` that a run of digits denotes, with or without a plus sign in front. -/
def natural? (limit : Nat) (t : Text) : Option Nat :=
  let body := match t with
    | '+' :: r => r
    | _ => t
  (digits? body).filter (· < limit)

/-- The integer that a run of digits denotes, with or without a sign in front. -/
def integer? : Text → Option Int
  | '-' :: r => (digits? r).map fun n => -(n : Int)
  | '+' :: r => (digits? r).map fun n => (n : Int)
  | t => (digits? t).map fun n => (n : Int)

/-- The integer of a numeral, if it is at least `-limit` and below `limit`. -/
def signed? (limit : Nat) (t : Text) : Option Int :=
  (integer? t).filter fun v => -(limit : Int) ≤ v && v < (limit : Int)

/-- The shortest numeral of a number. -/
def ofNat (n : Nat) : Text := Nat.toDigits 10 n

end HdlScaffold.Text
