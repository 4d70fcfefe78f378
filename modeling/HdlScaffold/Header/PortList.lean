import HdlScaffold.Header.ParameterList
import HdlScaffold.Port

/-!
# Reading port declarations

The tokens of a port block come line by line. A context carries over the direction and the width of the
declaration that is open: names after a comma share both.
-/

namespace HdlScaffold.Header

/-- Words that may stand between a direction and a port's name. -/
def portTypeKeywords : List Text :=
  ["reg", "wire", "logic", "signed", "unsigned", "var", "bit", "tri"].map String.toList

/-- Where the reading of port declarations stands. -/
structure PortContext where
  direction : Option Direction := none
  /-- The ranges of the declaration so far. -/
  width : Option Text := none
  /-- The next word may be a port's name. -/
  expectsName : Bool := false
  deriving DecidableEq, Repr

namespace PortContext

/-- The word names a port when a name may come. -/
def isPortName (w : Text) (rest : List Token) : Bool :=
  !portTypeKeywords.contains w && isIdentifier w && !isTypePosition rest

/-- The context after one token, and the port that the token declares. -/
def step (s : PortContext) (t : Token) (rest : List Token) :
    Except Error (PortContext × List Port) :=
  match t with
  | .word w =>
    match Direction.ofKeyword? w, s.direction with
    | some d, _ => .ok ({ direction := some d, width := none, expectsName := true }, [])
    | none, some d =>
      if s.expectsName && isPortName w rest then do
        let p ← Port.create d w (s.width.map Width.ofToken)
        return ({ s with expectsName := false }, [p])
      else .ok (s, [])
    | none, none => .ok (s, [])
  | .range r =>
    if s.direction.isSome && s.expectsName then
      .ok ({ s with width := some (s.width.getD [] ++ r) }, [])
    else .ok (s, [])
  | .comma => .ok ({ s with expectsName := s.direction.isSome || s.expectsName }, [])
  | .equals => .ok ({ s with expectsName := false }, [])
  | .closeParen => .ok ({}, [])
  | .semicolon => .ok ({}, [])
  | _ => .ok (s, [])

/-- The ports that a line's tokens declare, and the context after them. -/
def feed (s : PortContext) : List Token → Except Error (PortContext × List Port)
  | [] => .ok (s, [])
  | t :: rest => do
    let (s, found) ← s.step t rest
    let (s, more) ← feed s rest
    return (s, found ++ more)

end PortContext

end HdlScaffold.Header
