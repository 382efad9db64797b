import TaggedLisp.Expr
import TaggedLisp.Layout.Page
import TaggedLisp.Text.Quoted
import TaggedLisp.Ty.Table

/-!
# Typed expressions as text

Every expression is followed by a colon and its type as the table knows it. A function shows its
captures in braces.
-/

namespace TaggedLisp

/-- A literal as text. -/
def Literal.render : Literal → String
  | nil => "nil"
  | boolean b => toString b
  | number n => toString n.toInt
  | string s => Text.quote s

/-- The word that heads a sequence of the shape. -/
def Shape.keyword : Shape → String
  | list => "list"
  | vector => "vector"

/-- The parameters of a function as text. -/
def FnHead.render (h : FnHead) : String :=
  "[" ++ String.intercalate " " (h.params ++ (h.rest.map fun r ↦ ["&", r]).getD []) ++ "]"

namespace Expr

/-- A keyword. -/
def keyword (s : String) : Doc := .inked .green s

mutual

/-- An expression as a document. -/
def doc (T : TypeTable) : Expr → Doc
  | literal v n => typed T n (.word v.render)
  | symbol name n => typed T n (.word name)
  | group shape elems n =>
    typed T n (Doc.clause (keyword shape.keyword ++ .line ++ Doc.joined .line (docs T elems)))
  | cond test yes no n =>
    typed T n (Doc.clause
      (keyword "if" ++ .space ++ test.doc T ++ .line ++ yes.doc T ++ .line ++ no.doc T))
  | letIn bindings body n =>
    typed T n (Doc.clause
      (keyword "let" ++ .space ++ .align (Doc.brackets (Doc.joined .line (bindingDocs T bindings)))
        ++ .line ++ body.doc T))
  | fn head body n =>
    let name := match head.name with
      | some name => Doc.space ++ .word name
      | none => .nil
    let captured := "\x7b" ++ String.intercalate " " n.captures ++ "\x7d"
    typed T n (Doc.clause
      (keyword "fn" ++ name ++ .space ++ .word head.render ++ .space ++ .inked .yellow captured
        ++ .line ++ body.doc T))
  | seq steps n =>
    typed T n (Doc.clause (keyword "do" ++ .line ++ Doc.joined .line (docs T steps)))
  | call callee args _ n =>
    typed T n (Doc.clause (Doc.joined .line (callee.doc T :: docs T args)))
where
  /-- A document followed by the type that the note gives. -/
  typed (T : TypeTable) (n : Note) (d : Doc) : Doc :=
    .align (d ++ .inked .blue (": " ++ T.display n.ty))

/-- The documents of several expressions. -/
def docs (T : TypeTable) : List Expr → List Doc
  | [] => []
  | e :: es => e.doc T :: docs T es

/-- The documents of the bindings of a `let`. -/
def bindingDocs (T : TypeTable) : List (String × Expr) → List Doc
  | [] => []
  | (name, e) :: bs => (Doc.word name ++ .space ++ e.doc T) :: bindingDocs T bs

end

/-- The page on which expressions are written. -/
def pageWidth : Nat := 80

/-- An expression as text. -/
def render (T : TypeTable) (e : Expr) (coloured : Bool) : String :=
  (e.doc T).render pageWidth coloured

end Expr

end TaggedLisp
