import TaggedLisp.Text.Columns

/-!
# Documents

A document is a text whose lines are not broken yet. It is made of words, possibly in colour, and of
places where a line may end. `nest` and `align` say how far the lines inside are indented, `group`
marks a part that goes on one line when it fits.
-/

namespace TaggedLisp

/-- The colours that a word can have. -/
inductive Ink where
  | green
  | yellow
  | blue
  | magenta
  | cyan
  deriving DecidableEq, Repr, Inhabited

/-- A text whose lines are not broken yet. -/
inductive Doc where
  | nil
  | text (word : String) (ink : Option Ink)
  /-- A place where the line may end; a space when it does not. -/
  | line
  | append (left right : Doc)
  /-- Lines inside are indented further by `columns`. -/
  | nest (columns : Nat) (body : Doc)
  /-- Lines inside are indented to the column that the document starts at. -/
  | align (body : Doc)
  /-- Goes on one line when it fits. -/
  | group (body : Doc)
  deriving Repr, Inhabited

namespace Doc

/-- An uncoloured word. -/
def word (s : String) : Doc := text s none

/-- A word in colour. -/
def inked (ink : Ink) (s : String) : Doc := text s (some ink)

/-- A space at which a line never ends. -/
def space : Doc := word " "

/-- One document after another; the empty one leaves no trace. -/
def cat : Doc → Doc → Doc
  | nil, d => d
  | d, nil => d
  | d, e => append d e

instance : Append Doc := ⟨cat⟩

/-- The documents `ds`, with `sep` between neighbours. -/
def joined (sep : Doc) : List Doc → Doc
  | [] => nil
  | d :: ds => ds.foldl (fun acc e ↦ acc ++ sep ++ e) d

/-- `d` between the words `left` and `right`. -/
def enclosed (left right : String) (d : Doc) : Doc := word left ++ d ++ word right

/-- `d` in parentheses. -/
def parens (d : Doc) : Doc := enclosed "(" ")" d

/-- `d` in square brackets. -/
def brackets (d : Doc) : Doc := enclosed "[" "]" d

/-- A part in parentheses that is broken as a whole, its later lines one column further in. -/
def clause (d : Doc) : Doc := parens (group (nest 1 d))

/-! ## Measures -/

/-- The number of constructors. -/
def size : Doc → Nat
  | nil | text .. | line => 1
  | append l r => l.size + r.size + 1
  | nest _ d | align d | group d => d.size + 1

theorem size_pos (d : Doc) : 0 < d.size := by cases d <;> simp [size]

/-- What comes of setting a document on a line with `room` columns left: the columns that are left
after it, or the verdict that settles whether the line is wide enough. A word that is too long
settles it at once. So does a place where the line may end, unless lines are kept whole. -/
def trial (whole : Bool) : Doc → (room : Nat) → Except Bool Nat
  | nil, room => .ok room
  | text s _, room => if Text.columns s ≤ room then .ok (room - Text.columns s) else .error false
  | line, room =>
    if whole then if 1 ≤ room then .ok (room - 1) else .error false
    else .error true
  | append l r, room =>
    match l.trial whole room with
    | .ok room => r.trial whole room
    | .error verdict => .error verdict
  | nest _ d, room | align d, room | group d, room => d.trial whole room

end Doc

end TaggedLisp
