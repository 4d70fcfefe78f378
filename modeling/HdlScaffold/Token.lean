import HdlScaffold.Text.Blank

/-!
# Tokens of a line

A line is read up to its comment and divided into words, bracketed ranges and punctuation. Every line
has tokens: a bracket without its partner is a token of its own.
-/

namespace HdlScaffold

/-- The smallest pieces of a header line. -/
inductive Token where
  /-- A run of characters that are neither blanks nor punctuation. -/
  | word (text : Text)
  /-- A bracketed range, the blanks inside left out. -/
  | range (text : Text)
  | hash
  | openParen
  | closeParen
  | comma
  | semicolon
  | equals
  /-- A bracket without its partner. -/
  | other (c : Char)
  deriving DecidableEq, Repr

namespace Token

/-- The characters of the token. -/
def text : Token → Text
  | word t => t
  | range t => t
  | hash => ['#']
  | openParen => ['(']
  | closeParen => [')']
  | comma => [',']
  | semicolon => [';']
  | equals => ['=']
  | other c => [c]

def isWord : Token → Bool
  | word _ => true
  | _ => false

def isRange : Token → Bool
  | range _ => true
  | _ => false

/-- The token that a punctuation character is. -/
def ofChar? : Char → Option Token
  | '#' => some hash
  | '(' => some openParen
  | ')' => some closeParen
  | ',' => some comma
  | ';' => some semicolon
  | '=' => some equals
  | _ => none

/-- The tokens as a value is written: a blank stands between two words and nowhere else. -/
def join : List Token → Text
  | [] => []
  | word t :: word u :: rest => t ++ ' ' :: join (word u :: rest)
  | t :: rest => t.text ++ join rest

end Token

/-- The characters that end a word. -/
def delimiters : Text := "#()[],;=".toList

/-- The character may stand in a word. -/
def isWordChar (c : Char) : Bool := !isBlank c && !delimiters.contains c

/-- The line up to its comment. -/
def beforeComment : Text → Text
  | [] => []
  | [c] => [c]
  | c :: d :: t => if c = '/' ∧ d = '/' then [] else c :: beforeComment (d :: t)

/-- The character may stand inside a range. -/
def isRangeChar (c : Char) : Bool := c != '[' && c != ']'

/-- What stands between an opening bracket and its partner, and what follows the partner. -/
def closeRange? (t : Text) : Option (Text × Text) :=
  match t.dropWhile isRangeChar with
  | ']' :: rest => some (t.takeWhile isRangeChar, rest)
  | _ => none

theorem length_of_closeRange? {t inner rest : Text} (h : closeRange? t = some (inner, rest)) :
    rest.length < t.length := by
  have hs := (List.dropWhile_suffix (l := t) isRangeChar).length_le
  unfold closeRange? at h
  split at h
  · rename_i hd
    simp only [Option.some.injEq, Prod.mk.injEq] at h
    obtain ⟨-, rfl⟩ := h
    rw [hd, List.length_cons] at hs
    omega
  · simp at h

/-- The tokens of a text without comments. -/
def tokens : Text → List Token
  | [] => []
  | c :: t =>
    if isBlank c then tokens t
    else if isWordChar c then
      .word (c :: t.takeWhile isWordChar) :: tokens (t.dropWhile isWordChar)
    else if c = '[' then
      match _h : closeRange? t with
      | some (inner, rest) =>
        .range ('[' :: inner.filter (fun d => !isBlank d) ++ [']']) :: tokens rest
      | none => .other c :: tokens t
    else (Token.ofChar? c).getD (.other c) :: tokens t
termination_by t => t.length
decreasing_by
  · simp
  · have := (List.dropWhile_suffix (l := t) isWordChar).length_le
    simp only [List.length_cons]
    omega
  · have := length_of_closeRange? _h
    simp only [List.length_cons]
    omega
  · simp
  · simp

/-- The tokens of a line, its comment left out. -/
def lineTokens (line : Text) : List Token := tokens (beforeComment line)

end HdlScaffold
