import HdlScaffold.Settings.Basic
import HdlScaffold.Text.Numeral

/-!
# Settings files

Settings are kept in a TOML document with three keys, each of them optional. A codec reads a document as
a table and a table as settings, and writes settings the same way back. How settings are loaded and
saved is said for any codec; the one that is used otherwise is the standard one.

The three keys hold integers or booleans, so a document that sets them is a list of lines `key = value`
with comments between them. The standard codec reads no others: strings, dates, arrays and tables would
have the wrong type for every key there is. Integers have 64 bits with a sign.
-/

namespace HdlScaffold

namespace Toml

/-- A value that a key can have. -/
inductive Value where
  | integer (n : Int)
  | boolean (b : Bool)
  /-- A string, a float, a date, an array or a table. -/
  | other
  deriving DecidableEq, Repr

/-- What a document sets, in order. -/
abbrev Table := List (Text × Value)

/-- Integers of a document reach up to this number, which they leave out, and down to its negative. -/
def integerLimit : Nat := 0x8000000000000000

/-- Blanks within a line. -/
def isSpace (c : Char) : Bool := c == ' ' || c == '\t'

/-- Characters that comments and quoted keys may hold: no control characters but the tab. -/
def isAllowed (c : Char) : Bool := c == '\t' || (0x20 ≤ c.toNat && c.toNat != 0x7F)

/-- Characters of keys without quotes. -/
def isBareChar (c : Char) : Bool := c.isAlphanum || c == '_' || c == '-'

/-- Nothing is left of a line but a comment. -/
def isLineEnd (t : Text) : Bool :=
  match t.dropWhile isSpace with
  | [] => true
  | c :: comment => c == '#' && comment.all isAllowed

/-! ## Numbers -/

/-- The value of a digit in the given base. -/
def digit? (base : Nat) (c : Char) : Option Nat :=
  let value :=
    if c.isDigit then some (c.toNat - '0'.toNat)
    else if 'a' ≤ c ∧ c ≤ 'f' then some (c.toNat - 'a'.toNat + 10)
    else if 'A' ≤ c ∧ c ≤ 'F' then some (c.toNat - 'A'.toNat + 10)
    else none
  value.filter (· < base)

/-- The number with more digits after it; an underscore may stand between two digits. -/
def moreDigits? (base n : Nat) : Text → Option Nat
  | [] => some n
  | '_' :: c :: t => (digit? base c).bind fun d => moreDigits? base (n * base + d) t
  | c :: t => (digit? base c).bind fun d => moreDigits? base (n * base + d) t

/-- The number of a run of digits. -/
def digits? (base : Nat) : Text → Option Nat
  | [] => none
  | c :: t => (digit? base c).bind fun d => moreDigits? base d t

/-- A decimal number has no zero in front. -/
def decimal? : Text → Option Nat
  | ['0'] => some 0
  | '0' :: _ => none
  | t => digits? 10 t

/-- The integer has 64 bits with a sign. -/
def inRange (n : Int) : Bool := -(integerLimit : Int) ≤ n && n < (integerLimit : Int)

/-- The integer that a word stands for, unless it is out of range. -/
def integer? (word : Text) : Option Int :=
  let n : Option Int := match word with
    | '0' :: 'x' :: t => (digits? 16 t).map Int.ofNat
    | '0' :: 'o' :: t => (digits? 8 t).map Int.ofNat
    | '0' :: 'b' :: t => (digits? 2 t).map Int.ofNat
    | '+' :: t => (decimal? t).map Int.ofNat
    | '-' :: t => (decimal? t).map fun n => -Int.ofNat n
    | t => (decimal? t).map Int.ofNat
  n.filter inRange

/-- The value that a word stands for. -/
def value? (word : Text) : Option Value :=
  if word = "true".toList then some (.boolean true)
  else if word = "false".toList then some (.boolean false)
  else (integer? word).map .integer

/-! ## Keys -/

/-- The character that an escape with hexadecimal digits stands for. -/
def escaped? (hex : Text) : Option Char := do
  let n ← hex.foldlM (fun n c => (digit? 16 c).map fun d => 16 * n + d) 0
  if n.isValidChar then some (Char.ofNat n) else none

/-- The rest of a key in double quotes, and what follows it. -/
def basicKey? : Text → Option (Text × Text)
  | [] => none
  | '\"' :: t => some ([], t)
  | '\\' :: 'b' :: t => (basicKey? t).map fun p => ('\x08' :: p.1, p.2)
  | '\\' :: 't' :: t => (basicKey? t).map fun p => ('\t' :: p.1, p.2)
  | '\\' :: 'n' :: t => (basicKey? t).map fun p => ('\n' :: p.1, p.2)
  | '\\' :: 'f' :: t => (basicKey? t).map fun p => ('\x0c' :: p.1, p.2)
  | '\\' :: 'r' :: t => (basicKey? t).map fun p => ('\r' :: p.1, p.2)
  | '\\' :: '\"' :: t => (basicKey? t).map fun p => ('\"' :: p.1, p.2)
  | '\\' :: '\\' :: t => (basicKey? t).map fun p => ('\\' :: p.1, p.2)
  | '\\' :: 'u' :: a :: b :: c :: d :: t => do
    let x ← escaped? [a, b, c, d]
    let p ← basicKey? t
    return (x :: p.1, p.2)
  | '\\' :: 'U' :: a :: b :: c :: d :: e :: f :: g :: h :: t => do
    let x ← escaped? [a, b, c, d, e, f, g, h]
    let p ← basicKey? t
    return (x :: p.1, p.2)
  | c :: t =>
    if c ≠ '\\' ∧ isAllowed c then (basicKey? t).map fun p => (c :: p.1, p.2) else none

/-- The rest of a key in single quotes, and what follows it. -/
def literalKey? (t : Text) : Option (Text × Text) := do
  let (key, rest) ← t.cutAt? '\x27'
  if key.all isAllowed then some (key, rest) else none

/-- The key that a text begins with, and what follows it. -/
def key? : Text → Option (Text × Text)
  | '\"' :: t => basicKey? t
  | '\x27' :: t => literalKey? t
  | t =>
    let key := t.takeWhile isBareChar
    if key = [] then none else some (key, t.dropWhile isBareChar)

/-! ## Documents -/

/-- What a line sets, if it is not empty. -/
def line? (t : Text) : Option (Option (Text × Value)) :=
  if isLineEnd t then some none
  else do
    let (key, rest) ← key? (t.dropWhile isSpace)
    let rest ← Text.dropOpening? ['='] (rest.dropWhile isSpace)
    let rest := rest.dropWhile isSpace
    let isWordChar (c : Char) : Bool := !isSpace c && c != '#'
    let value ← value? (rest.takeWhile isWordChar)
    if isLineEnd (rest.dropWhile isWordChar) then some (some (key, value)) else none

/-- The line without the carriage return in front of its line feed. -/
def withoutReturn (t : Text) : Text := if t.getLast? = some '\r' then t.dropLast else t

/-- The lines of a document. The mark of the byte order may stand in front of it. -/
def lines (t : Text) : List Text :=
  let t := (Text.dropOpening? ['\uFEFF'] t).getD t
  let ls := t.splitOn '\n'
  ls.dropLast.map withoutReturn ++ ls.getLast?.toList

/-- What the lines of a document set, in order. -/
def entries? (t : Text) : Option Table :=
  ((lines t).mapM line?).map fun found => found.filterMap id

/-- The table of a document. A key may be set once. -/
def parse? (t : Text) : Option Table :=
  (entries? t).filter fun table => (table.map Prod.fst).Nodup

/-- The word that a value is written as, unless it has none. -/
def Value.word? : Value → Option Text
  | .integer n =>
    let numeral := match n with
      | .ofNat n => Text.ofNat n
      | .negSucc n => '-' :: Text.ofNat (n + 1)
    if inRange n then some numeral else none
  | .boolean b => some (if b then "true" else "false").toList
  | .other => none

/-- The document that sets keys to words, one a line. -/
def document (ls : List (Text × Text)) : Text :=
  ls.flatMap fun l => l.1 ++ " = ".toList ++ l.2 ++ ['\n']

/-- The key and the word of its value. -/
def assignment? (e : Text × Value) : Option (Text × Text) := e.2.word?.map fun word => (e.1, word)

/-- The document of a table. -/
def print? (table : Table) : Option Text := (table.mapM assignment?).map document

/-- The value of a key as `read` takes it, or the default where the table lacks the key. -/
def Table.field? {α : Type} (table : Table) (key : Text) (read : Value → Option α) (default : α) :
    Option α :=
  match table.lookup key with
  | none => some default
  | some v => read v

def Value.natural? : Value → Option Nat
  | .integer n => n.toNat?
  | _ => none

def Value.boolean? : Value → Option Bool
  | .boolean b => some b
  | _ => none

end Toml

namespace Settings

def tabWidthKey : Text := "tab_width".toList

def columnKey : Text := "indent_column".toList

def stripEndingsKey : Text := "strip_io_suffix".toList

/-- The keys of settings. -/
def keys : List Text := [tabWidthKey, columnKey, stripEndingsKey]

/-- The settings that a table gives. It has no keys but those of settings. -/
def ofTable? (table : Toml.Table) : Option Settings :=
  let default : Settings := {}
  if table.all fun e => keys.contains e.1 then do
    let tabWidth ← table.field? tabWidthKey Toml.Value.natural? default.tabWidth
    let column ← table.field? columnKey Toml.Value.natural? default.column
    let stripEndings ← table.field? stripEndingsKey Toml.Value.boolean? default.stripEndings
    return { tabWidth, column, stripEndings }
  else none

/-- The table that gives the settings. -/
def toTable (s : Settings) : Toml.Table :=
  [(tabWidthKey, .integer s.tabWidth), (columnKey, .integer s.column),
    (stripEndingsKey, .boolean s.stripEndings)]

/-- Readers and writers of settings: documents are read as tables and tables as settings, and written
the same way back. -/
structure Codec where
  parse? : Text → Option Toml.Table
  print? : Toml.Table → Option Text
  ofTable? : Toml.Table → Option Settings
  toTable : Settings → Toml.Table

/-- The codec of settings files. -/
def Codec.standard : Codec where
  parse? := Toml.parse?
  print? := Toml.print?
  ofTable? := Settings.ofTable?
  toTable := Settings.toTable

end Settings

end HdlScaffold
