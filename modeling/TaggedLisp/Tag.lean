/-!
# Tagged words

Every value of a running program is one word. Its three low bits are a tag that says what the rest
of the word is.
-/

namespace TaggedLisp

/-- What a word holds. -/
inductive Tag where
  | nil
  | bool
  | int
  | closure
  | list
  | string
  deriving DecidableEq, Repr, Inhabited

namespace Tag

/-- The bits of a word that hold the tag. -/
def mask : Int64 := 7

/-- A tag as the low bits of a word. -/
def bits : Tag → Int64
  | nil => 0
  | bool => 1
  | int => 2
  | closure => 3
  | list => 4
  | string => 5

/-- The name of a tag. -/
def name : Tag → String
  | nil => "nil"
  | bool => "bool"
  | int => "int"
  | closure => "closure"
  | list => "list"
  | string => "string"

/-- Every tag, by its bits. -/
def all : List Tag := [nil, bool, int, closure, list, string]

end Tag

/-- The word of an integer: its bits above the tag, which three of them do not survive. -/
def integerWord (n : Int64) : Int64 := (n <<< 3) ||| Tag.int.bits

/-- The word of `true`. -/
def trueWord : Int64 := ((1 : Int64) <<< 3) ||| Tag.bool.bits

/-- The word of `false`. -/
def falseWord : Int64 := Tag.bool.bits

end TaggedLisp
