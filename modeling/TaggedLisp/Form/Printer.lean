import TaggedLisp.Form
import TaggedLisp.Layout.Page
import TaggedLisp.Text.Quoted

/-!
# Forms as text

A form is written as it would be read, with quote marks spelled out, on a page of 70 columns.
-/

namespace TaggedLisp

/-- A document in the brackets of its shape. -/
def Shape.enclose : Shape → Doc → Doc
  | list => Doc.parens
  | vector => Doc.brackets

/-- An atom as a document. -/
def Atom.doc : Atom → Doc
  | nil => .inked .magenta "nil"
  | boolean b => .inked .magenta (toString b)
  | number n => .inked .cyan (toString n.toInt)
  | string s => .inked .yellow (Text.quote s)
  | symbol name => .word name

namespace Form

mutual

/-- A form as a document. -/
def doc : Form → Doc
  | atom a _ => a.doc
  | group shape elems _ =>
    .align (shape.enclose (Doc.group (.nest 1 (Doc.joined .line (docs elems)))))

/-- The documents of a sequence of forms. -/
def docs : List Form → List Doc
  | [] => []
  | f :: fs => f.doc :: docs fs

end

/-- The page on which forms are written. -/
def pageWidth : Nat := 70

/-- A form as text. -/
def render (f : Form) (coloured : Bool) : String := f.doc.render pageWidth coloured

end Form

end TaggedLisp
