import HdlScaffold.Token

/-!
# What a line of source says

A line may name a module, give a timescale, or hold delimiters of a header block. The delimiters are
counted on the line as it stands, comments included.
-/

namespace HdlScaffold

/-- The character may begin a name. -/
def isNameStart (c : Char) : Bool := c.isAlpha || c == '_'

/-- The character may stand inside a module's name. -/
def isNameChar (c : Char) : Bool := c.isAlphanum || c == '_'

/-- The character may stand in a quantity of a timescale. -/
def isQuantityChar (c : Char) : Bool := c.isAlphanum || c == '.'

/-- The word is a plain name: a letter or underscore, then letters, digits, underscores and dollar
signs. -/
def isIdentifier : Text → Bool
  | [] => false
  | c :: t => isNameStart c && t.all fun d => isNameChar d || d == '$'

/-- The name that a text begins with, and what follows it. -/
def takeName? : Text → Option (Text × Text)
  | [] => none
  | c :: t =>
    if isNameStart c then some (c :: t.takeWhile isNameChar, t.dropWhile isNameChar) else none

/-- What follows the keyword, if the text begins with it as a whole name. -/
def afterKeyword? (keyword t : Text) : Option Text := do
  let (name, rest) ← takeName? t
  if name = keyword then some rest else none

/-- The quantity that a text begins with, and what follows it. -/
def takeQuantity? (t : Text) : Option (Text × Text) :=
  let quantity := t.takeWhile isQuantityChar
  if quantity = [] then none else some (quantity, t.dropWhile isQuantityChar)

/-- The name of the module whose header starts on the line. -/
def headerName? (line : Text) : Option Text := do
  let rest ← afterKeyword? "module".toList line.trimStart
  let (name, _) ← takeName? rest.trimStart
  some name

/-- A unit and a precision with a slash between them, written without blanks. -/
def unitAndPrecision? (t : Text) : Option Text := do
  let (unit, rest) ← takeQuantity? t.trimStart
  let rest ← Text.dropOpening? ['/'] rest.trimStart
  let (precision, _) ← takeQuantity? rest.trimStart
  some (unit ++ ['/'] ++ precision)

/-- The timescale that the line gives. -/
def timescale? (line : Text) : Option Text := do
  let rest ← Text.dropOpening? ['\x60'] line.trimStart
  let rest ← afterKeyword? "timescale".toList rest
  unitAndPrecision? rest

/-- The next token that is no range is a plain name, so the word before it is a type. -/
def isTypePosition (rest : List Token) : Bool :=
  match rest.dropWhile Token.isRange with
  | .word w :: _ => isIdentifier w
  | _ => false

/-- The block delimiters on a line. -/
structure Delimiters where
  /-- A parenthesis directly after a hash opens the parameter block. -/
  opensParameters : Bool := false
  /-- Any other opening parenthesis opens the port block. -/
  opensPorts : Bool := false
  /-- The closing parentheses. -/
  closes : Nat := 0
  /-- The closing parentheses after the first one that opens the port block. -/
  closesAfterPorts : Nat := 0
  /-- A semicolon ends the declaration. -/
  endsDeclaration : Bool := false
  deriving DecidableEq, Repr

namespace Delimiters

/-- The delimiters with one more character of the line, given the character before it. -/
def add (d : Delimiters) (previous : Option Char) (c : Char) : Delimiters :=
  if c = '(' then
    if previous = some '#' then { d with opensParameters := true } else { d with opensPorts := true }
  else if c = ')' then
    { d with
      closes := d.closes + 1
      closesAfterPorts := if d.opensPorts then d.closesAfterPorts + 1 else d.closesAfterPorts }
  else if c = ';' then { d with endsDeclaration := true }
  else d

/-- The delimiters with the rest of a line. -/
def addAll (d : Delimiters) (previous : Option Char) : Text → Delimiters
  | [] => d
  | c :: t => addAll (d.add previous c) (some c) t

/-- The delimiters of a line, or nothing when it has none. -/
def ofLine? (line : Text) : Option Delimiters :=
  if line.any fun c => c == '(' || c == ')' || c == ';' then some (addAll {} none line) else none

/-- A line inside an open port block ends it. With a parameter clause on the line the block ends
only if two parentheses close. -/
def endsPorts (d : Delimiters) : Bool := (d.closes ≥ 1 && !d.opensParameters) || d.closes ≥ 2

/-- The line that opens the port block also closes it. -/
def closesOwnPorts (d : Delimiters) : Bool := d.closesAfterPorts ≥ 1

end Delimiters

end HdlScaffold
