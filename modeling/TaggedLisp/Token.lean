/-!
# Tokens

Source text is a sequence of tokens. A token keeps its lexeme and the line it starts on, so that a
form built from it can be written back and every later diagnostic can name a line.
-/

namespace TaggedLisp

/-- The two shapes of a sequence of forms: a list stands in parentheses, a vector in square
brackets. -/
inductive Shape where
  | list
  | vector
  deriving DecidableEq, Repr, Inhabited

namespace Shape

/-- The character that opens a sequence. -/
def opener : Shape → Char
  | list => '('
  | vector => '['

/-- The character that closes a sequence. -/
def closer : Shape → Char
  | list => ')'
  | vector => ']'

end Shape

/-- What a token is. -/
inductive TokenKind where
  | opening (shape : Shape)
  | closing (shape : Shape)
  | quote
  | symbol
  | string
  | number
  | boolean (value : Bool)
  | nil
  deriving DecidableEq, Repr, Inhabited

/-- A token. The lexeme of a string token is its text without quotes and escapes. -/
structure Token where
  kind : TokenKind
  lexeme : String
  /-- The line that the token starts on, counted from one. -/
  line : Nat
  deriving DecidableEq, Repr, Inhabited

end TaggedLisp
