import HdlScaffold.Line
import HdlScaffold.Parameter

/-!
# Reading parameter declarations

The tokens of a parameter block come line by line. A context carries over from one line to the next
whether a declaration is open and whether the next word may be a name; a default value never runs over
the end of its line.
-/

namespace HdlScaffold.Header

/-- The nesting depth after one more token of a value, unless the token ends the value. -/
def valueDepth? (depth : Nat) : Token → Option Nat
  | .openParen => some (depth + 1)
  | .closeParen => if depth = 0 then none else some (depth - 1)
  | .comma => if depth = 0 then none else some depth
  | .semicolon => if depth = 0 then none else some depth
  | _ => some depth

/-- The tokens of a value, and the rest from the token that ends it. -/
def takeValue (depth : Nat) : List Token → List Token × List Token
  | [] => ([], [])
  | t :: rest =>
    match valueDepth? depth t with
    | none => ([], t :: rest)
    | some d => (t :: (takeValue d rest).1, (takeValue d rest).2)

/-- The default value after a name, and the rest of the line after it. -/
def takeDefault : List Token → Option Text × List Token
  | .equals :: rest => (some (Token.join (takeValue 0 rest).1), (takeValue 0 rest).2)
  | rest => (none, rest)

theorem takeValue_append (depth : Nat) (ts : List Token) :
    (takeValue depth ts).1 ++ (takeValue depth ts).2 = ts := by
  induction ts generalizing depth with
  | nil => rfl
  | cons t rest ih =>
    simp only [takeValue]
    split
    · rfl
    · simp [ih]

theorem length_takeDefault_le (ts : List Token) : (takeDefault ts).2.length ≤ ts.length := by
  unfold takeDefault
  split
  · rename_i rest
    have h := congrArg List.length (takeValue_append 0 rest)
    simp only [List.length_append] at h
    simp only [List.length_cons]
    omega
  · exact Nat.le_refl _

/-- Where the reading of parameter declarations stands. -/
structure ParameterContext where
  /-- Inside a declaration. -/
  declaring : Bool := false
  /-- The next word may be a parameter's name. -/
  expectsName : Bool := false
  deriving DecidableEq, Repr

namespace ParameterContext

/-- The word declares a parameter here. -/
def declares (s : ParameterContext) (w : Text) (rest : List Token) : Bool :=
  s.declaring && s.expectsName && isIdentifier w && !isTypePosition rest

/-- The parameters that a line's tokens declare, and the context after them. -/
def feed (s : ParameterContext) :
    List Token → Except Error (ParameterContext × List Parameter)
  | [] => .ok (s, [])
  | .word w :: rest =>
    if w = "parameter".toList then feed ⟨true, true⟩ rest
    else if w = "localparam".toList then feed ⟨false, false⟩ rest
    else if s.declares w rest then do
      let p ← Parameter.create w (takeDefault rest).1
      let (s, ps) ← feed { s with expectsName := false } (takeDefault rest).2
      return (s, p :: ps)
    else feed s rest
  | .closeParen :: rest => feed ⟨false, false⟩ rest
  | .semicolon :: rest => feed ⟨false, false⟩ rest
  | .comma :: rest => feed { s with expectsName := s.declaring || s.expectsName } rest
  | _ :: rest => feed s rest
termination_by ts => ts.length
decreasing_by
  · simp
  · simp
  · exact Nat.lt_succ_of_le (length_takeDefault_le rest)
  · simp
  · simp
  · simp
  · simp
  · simp

end ParameterContext

end HdlScaffold.Header
