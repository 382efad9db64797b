import TaggedLisp.Layout.Doc

/-!
# Breaking a document into lines

`Doc.pieces` decides for each place where a line may end whether it ends there. A group is tried on
one line first: it stays there when the page is wide enough for it and for what follows it up to the
next possible line end. A new line is indented as the document after the line end asks for.

The result is a list of pieces, from which `render` makes text with or without colour.
-/

namespace TaggedLisp

/-- A document that waits to be set: how far its new lines are indented and whether its lines stay
unbroken. -/
structure Doc.Pending where
  indent : Nat
  flat : Bool
  doc : Doc
  deriving Repr, Inhabited

/-- A piece of a page. -/
inductive Piece where
  | text (word : String) (ink : Option Ink)
  /-- A possible line end that became a space. -/
  | gap
  /-- A line end and the indent of the new line. -/
  | newline (indent : Nat)
  deriving Repr, Inhabited

namespace Doc.Pending

/-- Whether the waiting documents have room up to the first place where a line may end. -/
def fit : List Pending → (room : Nat) → Bool
  | [], _ => true
  | p :: ps, room =>
    match p.doc.trial false room with
    | .ok room => fit ps room
    | .error verdict => verdict

/-- Whether `body` has room on the line that has come to column `pos`, and what follows it up to the
next place where a line may end. -/
def fits (width pos : Nat) (body : Doc) (rest : List Pending) : Bool :=
  pos ≤ width &&
    match body.trial true (width - pos) with
    | .ok room => fit rest room
    | .error verdict => verdict

/-- The number of constructors of the waiting documents. -/
def size : List Pending → Nat
  | [] => 0
  | p :: ps => p.doc.size + size ps

/-- Sets the waiting documents from column `pos` on, on a page of `width` columns. -/
def pieces (width pos : Nat) : List Pending → List Piece
  | [] => []
  | ⟨indent, flat, doc⟩ :: rest =>
    match doc with
    | .nil => pieces width pos rest
    | .text word ink => .text word ink :: pieces width (pos + Text.columns word) rest
    | .line =>
      if flat then .gap :: pieces width (pos + 1) rest
      else
        -- what follows the line end says how far the new line is indented
        let indent := (rest.head?.map Pending.indent).getD indent
        .newline indent :: pieces width indent rest
    | .append l r => pieces width pos (⟨indent, flat, l⟩ :: ⟨indent, flat, r⟩ :: rest)
    | .nest columns body => pieces width pos (⟨indent + columns, flat, body⟩ :: rest)
    | .align body => pieces width pos (⟨pos, flat, body⟩ :: rest)
    | .group body => pieces width pos (⟨indent, flat || fits width pos body rest, body⟩ :: rest)
termination_by ps => size ps
decreasing_by all_goals simp [size, Doc.size]; try omega

end Doc.Pending

/-- The pieces of `d` on a page of `width` columns. -/
def Doc.pieces (width : Nat) (d : Doc) : List Piece := Doc.Pending.pieces width 0 [⟨0, false, d⟩]

/-! ## Pages as text -/

/-- The code by which a terminal is told a colour. -/
def Ink.code : Ink → String
  | green => "\x1b[32m"
  | yellow => "\x1b[33m"
  | blue => "\x1b[34m"
  | magenta => "\x1b[35m"
  | cyan => "\x1b[36m"

/-- The code that ends all colouring. -/
def Ink.reset : String := "\x1b[0m"

/-- A piece as text, in colour when `coloured`. -/
def Piece.render (coloured : Bool) : Piece → String
  | text word none => word
  | text word (some ink) => if coloured then Ink.reset ++ ink.code ++ word ++ Ink.reset else word
  | gap => " "
  | newline indent => String.ofList ('\n' :: List.replicate indent ' ')

/-- A document as text on a page of `width` columns. -/
def Doc.render (width : Nat) (coloured : Bool) (d : Doc) : String :=
  String.join ((d.pieces width).map (Piece.render coloured))

end TaggedLisp
