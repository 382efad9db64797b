import TaggedLisp.Ir.Tree

/-!
# Intermediate code as blocks

The second intermediate form of a program. A block is a flat sequence of statements and what it
answers. Operands are constants and temporaries, so the order of all that happens is that of the
statements.
-/

namespace TaggedLisp.Ir

/-- A word that needs no computation. -/
inductive Operand where
  | const (value : Const)
  | temp (temp : Temp)
  deriving DecidableEq, Repr, Inhabited

mutual

/-- One step of computation. -/
inductive Rhs where
  | value (value : Operand)
  | tag (tag : Tag) (value : Operand)
  | untag (value : Operand)
  | call (callee : Operand) (args : List Operand)
  | func (head : FuncHead) (captures : List (Cell × Operand)) (body : Block)

/-- A statement. -/
inductive Stmt where
  | move (dest : Temp) (source : Rhs)
  | jump (target : String)
  /-- Jumps when the condition is true and goes on otherwise. -/
  | branch (cond : Operand) (target : String)
  /-- Takes the temporary that belongs to the label by which control came. -/
  | phi (dest : Temp) (sources : List (String × Temp))
  | label (name : String)

/-- Statements and what they lead to. -/
inductive Block where
  | mk (stmts : List Stmt) (value : Rhs)

end

instance : Inhabited Rhs := ⟨.value default⟩
instance : Inhabited Stmt := ⟨.label default⟩
instance : Inhabited Block := ⟨.mk [] default⟩

namespace Block

/-- The statements of a block. -/
def stmts : Block → List Stmt
  | mk stmts _ => stmts

/-- What a block answers. -/
def value : Block → Rhs
  | mk _ value => value

end Block

end TaggedLisp.Ir
