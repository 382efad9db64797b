import TaggedLisp.Ir.Block
import TaggedLisp.Layout.Page
import TaggedLisp.Text.Quoted

/-!
# Intermediate code as text

Both forms are written as parenthesized clauses that start with a keyword, on a page of 80 columns.
-/

namespace TaggedLisp.Ir

/-- A constant as text. -/
def Const.render : Const → String
  | int n => toString n.toInt
  | bool b => toString b
  | nil => "nil"
  | str s => Text.quote s
  | label l => "@" ++ l

/-- A temporary as text. -/
def Temp.render (t : Temp) : String :=
  match t.hint with
  | some hint => hint ++ "." ++ toString t.id
  | none => "t" ++ toString t.id

/-- A keyword. -/
def keyword (s : String) : Doc := .inked .green s

/-- A clause: a head and what belongs to it, each part on a line of its own when the clause is
broken. -/
def clause (head : Doc) (parts : List Doc) : Doc :=
  Doc.clause (parts.foldl (fun d p ↦ d ++ .line ++ p) head)

def Const.doc (c : Const) : Doc := .inked .magenta c.render

def Temp.doc (t : Temp) : Doc := .inked .cyan t.render

/-- A label as a document. -/
def labelDoc (l : String) : Doc := .inked .yellow l

def Operand.doc : Operand → Doc
  | const c => c.doc
  | temp t => t.doc

/-- The clause of a tagged part. -/
def tagClause (t : Tag) (body : Doc) : Doc :=
  clause (keyword "tag" ++ .space ++ .word t.name) [body]

/-- The clause of a choice. -/
def phiClause (dest : Temp) (sources : List (String × Temp)) : Doc :=
  clause (keyword "phi")
    (dest.doc :: sources.map fun (l, t) ↦ Doc.brackets (labelDoc l ++ .word ": " ++ t.doc))

/-- The clause of a captured variable. -/
def captureClause (cell : Cell) (source : Doc) : Doc :=
  clause (keyword "capture") [cell.slot.doc, source]

/-- The clause of a function. -/
def funcClause (head : FuncHead) (captures : List Doc) (body : Doc) : Doc :=
  let params := Doc.brackets (Doc.joined .space (head.params.map Temp.doc))
  let mark := if head.variadic then Doc.word " &" else .nil
  clause (keyword "func" ++ .space ++ labelDoc head.label ++ .space ++ params ++ mark)
    (captures ++ [body])

/-! ## Trees -/

mutual

/-- A tree as a document. -/
def Tree.doc : Tree → Doc
  | .const c => c.doc
  | .temp t => t.doc
  | .tag t e => tagClause t e.doc
  | .untag e => clause (keyword "untag") [e.doc]
  | .call callee args => clause (keyword "call") (callee.doc :: treeDocs args)
  | .func head captures body => funcClause head (captureDocs captures) body.doc
  | .after s e => clause (keyword "eseq") [s.doc, e.doc]

/-- The documents of several trees. -/
def treeDocs : List Tree → List Doc
  | [] => []
  | e :: es => e.doc :: treeDocs es

/-- The clauses of captured variables. -/
def captureDocs : List (Cell × Tree) → List Doc
  | [] => []
  | (cell, e) :: cs => captureClause cell e.doc :: captureDocs cs

/-- A step as a document. -/
def Effect.doc : Effect → Doc
  | .move dest source => clause (keyword "move") [dest.doc, source.doc]
  | .seq effects => clause (keyword "seq") (effectDocs effects)
  | .jump l => clause (keyword "jump") [labelDoc l]
  | .branch cond l => clause (keyword "cjump") [cond.doc, labelDoc l]
  | .phi dest sources => phiClause dest sources
  | .label l => labelDoc l ++ .word ":"
  | .eval e => clause (keyword "exp") [e.doc]

/-- The documents of several steps. -/
def effectDocs : List Effect → List Doc
  | [] => []
  | s :: ss => s.doc :: effectDocs ss

end

/-! ## Blocks -/

mutual

/-- One step of computation as a document. -/
def Rhs.doc : Rhs → Doc
  | .value v => v.doc
  | .tag t v => tagClause t v.doc
  | .untag v => clause (keyword "untag") [v.doc]
  | .call callee args => clause (keyword "call") (callee.doc :: args.map Operand.doc)
  | .func head captures body =>
    funcClause head (captures.map fun (cell, v) ↦ captureClause cell v.doc) body.doc

/-- A statement as a document. -/
def Stmt.doc : Stmt → Doc
  | .move dest source => clause (keyword "move") [dest.doc, source.doc]
  | .jump l => clause (keyword "jump") [labelDoc l]
  | .branch cond l => clause (keyword "cjump") [cond.doc, labelDoc l]
  | .phi dest sources => phiClause dest sources
  | .label l => labelDoc l ++ .word ":"

/-- The documents of several statements. -/
def stmtDocs : List Stmt → List Doc
  | [] => []
  | s :: ss => s.doc :: stmtDocs ss

/-- A block as a document. -/
def Block.doc : Block → Doc
  | .mk stmts value => clause (keyword "block") (stmtDocs stmts ++ [value.doc])

end

/-- The page on which intermediate code is written. -/
def pageWidth : Nat := 80

/-- A tree as text. -/
def Tree.render (e : Tree) (coloured : Bool) : String := e.doc.render pageWidth coloured

/-- A block as text. -/
def Block.render (b : Block) (coloured : Bool) : String := b.doc.render pageWidth coloured

end TaggedLisp.Ir
