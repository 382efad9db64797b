import TaggedLisp.Token

/-!
# Forms

A program is a sequence of forms: atoms, and lists and vectors of forms. Every form keeps the token
it was read from, for the line numbers of later diagnostics.
-/

namespace TaggedLisp

/-- A form without parts. Numbers are signed words of 64 bits. -/
inductive Atom where
  | nil
  | boolean (value : Bool)
  | number (value : Int64)
  | string (value : String)
  | symbol (name : String)
  deriving DecidableEq, Repr, Inhabited

/-- A form. -/
inductive Form where
  | atom (atom : Atom) (token : Token)
  | group (shape : Shape) (elems : List Form) (token : Token)
  deriving Repr, Inhabited

namespace Form

/-- The token that the form was read from. -/
def token : Form → Token
  | atom _ t | group _ _ t => t

/-- The line that the form starts on. -/
def line (f : Form) : Nat := f.token.line

/-- The name of a symbol. -/
def symbol? : Form → Option String
  | atom (.symbol name) _ => some name
  | _ => none

/-- The form that a quote mark before `quoted` stands for. The quote mark is its token. -/
def quote (mark : Token) (quoted : Form) : Form :=
  group .list [atom (.symbol "quote") ⟨.symbol, "quote", mark.line⟩, quoted] mark

end Form

end TaggedLisp
