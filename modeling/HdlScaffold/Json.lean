import HdlScaffold.Module

/-!
# JSON documents

Values are written over several lines, two blanks deeper for each level; an empty list stays on its
line. Within strings, quotes, backslashes and control characters are escaped, and nothing else is.
-/

namespace HdlScaffold

/-- A value of a document. -/
inductive Json where
  | null
  | string (t : Text)
  | array (items : List Json)
  | object (fields : List (Text × Json))

namespace Json

/-- One digit in base sixteen. -/
def hexDigit (n : Nat) : Char := Nat.digitChar n

/-- The characters that stand for one character within a string. -/
def escapeChar (c : Char) : Text :=
  if c = '\"' then "\\\"".toList
  else if c = '\\' then "\\\\".toList
  else if c = '\x08' then "\\b".toList
  else if c = '\x0c' then "\\f".toList
  else if c = '\n' then "\\n".toList
  else if c = '\r' then "\\r".toList
  else if c = '\t' then "\\t".toList
  else if c.toNat < 0x20 then
    "\\u00".toList ++ [hexDigit (c.toNat / 16), hexDigit (c.toNat % 16)]
  else [c]

/-- A text between quotes. -/
def quote (t : Text) : Text := ['\"'] ++ t.flatMap escapeChar ++ ['\"']

/-- Items between brackets, each on a line of its own, at the given depth. -/
def enclose (depth : Nat) (opening closing : Char) (items : List Text) : Text :=
  let margin (n : Nat) : Text := '\n' :: List.replicate (2 * n) ' '
  if items.isEmpty then [opening, closing]
  else
    [opening] ++ [','].intercalate (items.map (margin (depth + 1) ++ ·)) ++ margin depth ++ [closing]

mutual

/-- The text of a value at the given depth. -/
def render (depth : Nat) : Json → Text
  | null => "null".toList
  | string t => quote t
  | array items => enclose depth '[' ']' (renderItems (depth + 1) items)
  | object fields => enclose depth '\x7b' '\x7d' (renderFields (depth + 1) fields)

/-- The texts of the items of a list. -/
def renderItems (depth : Nat) : List Json → List Text
  | [] => []
  | item :: rest => render depth item :: renderItems depth rest

/-- The texts of the fields of an object. -/
def renderFields (depth : Nat) : List (Text × Json) → List Text
  | [] => []
  | (key, value) :: rest =>
    (quote key ++ ": ".toList ++ render depth value) :: renderFields depth rest

end

/-- A field with a key that is written out. -/
def entry (key : String) (value : Json) : Text × Json := (key.toList, value)

/-- A field that is left out when there is no value. -/
def entry? (key : String) (value : Option Text) : List (Text × Json) :=
  (value.map fun t => entry key (string t)).toList

end Json

def Parameter.toJson (p : Parameter) : Json :=
  .object (Json.entry "identifier" (.string p.identifier) :: Json.entry? "default_value" p.default)

def Port.toJson (p : Port) : Json :=
  .object ([Json.entry "direction" (.string p.direction.keyword),
    Json.entry "identifier" (.string p.identifier)] ++ Json.entry? "width" (p.width.map Width.text))

def PortTable.toJson (t : PortTable) : Json :=
  .object (Direction.all.map fun d => (d.keyword, .array ((t.get d).map Port.toJson)))

def Module.toJson (m : Module) : Json :=
  .object [Json.entry "name" (.string m.name),
    Json.entry "parameters" (.array (m.parameters.map Parameter.toJson)),
    Json.entry "ports" m.ports.toJson]

end HdlScaffold
