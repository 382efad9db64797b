import TaggedLisp.Ir.Block

/-!
# From trees to blocks

Whatever nests in a tree is computed by statements of its own, in the order of evaluation: the
arguments of a call from left to right, then the callee; the words that a function captures where it
is made. A constant or a temporary is its own operand, any other operand gets a temporary without a
hint. The body of a function is a block of its own.
-/

namespace TaggedLisp.Ir

/-- A step of flattening; the state is the next unused number. -/
abbrev Flatten := StateM Nat

namespace Flatten

/-- Draws a temporary without a hint. -/
def synthetic : Flatten Temp := modifyGet fun n ↦ (⟨n, none⟩, n + 1)

/-- The operand that `e` becomes, given the statements and the computation it was flattened to. -/
def operand (e : Tree) (stmts : List Stmt) (value : Rhs) : Flatten (List Stmt × Operand) := do
  match e with
  | .const c => return (stmts, .const c)
  | .temp t => return (stmts, .temp t)
  | _ =>
    let t ← synthetic
    return (stmts ++ [.move t value], .temp t)

end Flatten

mutual

/-- The statements that a tree needs first, and what it then computes. -/
def Tree.flatten : Tree → Flatten (List Stmt × Rhs)
  | .const c => return ([], .value (.const c))
  | .temp t => return ([], .value (.temp t))
  | .tag t e => do
    let (stmts, value) ← e.flatten
    let (stmts, v) ← Flatten.operand e stmts value
    return (stmts, .tag t v)
  | .untag e => do
    let (stmts, value) ← e.flatten
    let (stmts, v) ← Flatten.operand e stmts value
    return (stmts, .untag v)
  | .call callee args => do
    let (argStmts, args) ← flattenOperands args
    let (stmts, value) ← callee.flatten
    let (stmts, callee) ← Flatten.operand callee stmts value
    let t ← Flatten.synthetic
    return (argStmts ++ stmts ++ [.move t (.call callee args)], .value (.temp t))
  | .func head captures body => do
    let (stmts, captures) ← flattenCaptures captures
    let (inner, value) ← body.flatten
    return (stmts, .func head captures (.mk inner value))
  | .after effect e => do
    let first ← effect.flatten
    let (stmts, value) ← e.flatten
    return (first ++ stmts, value)

/-- The statements that several operands need, in order, and the operands. -/
def flattenOperands : List Tree → Flatten (List Stmt × List Operand)
  | [] => return ([], [])
  | e :: es => do
    let (stmts, value) ← e.flatten
    let (stmts, v) ← Flatten.operand e stmts value
    let (rest, vs) ← flattenOperands es
    return (stmts ++ rest, v :: vs)

/-- The statements that captured words need, in order, and the operands. -/
def flattenCaptures : List (Cell × Tree) → Flatten (List Stmt × List (Cell × Operand))
  | [] => return ([], [])
  | (cell, e) :: cs => do
    let (stmts, value) ← e.flatten
    let (stmts, v) ← Flatten.operand e stmts value
    let (rest, vs) ← flattenCaptures cs
    return (stmts ++ rest, (cell, v) :: vs)

/-- The statements of a step. Of an expression evaluated for its effect, only the statements are
left. -/
def Effect.flatten : Effect → Flatten (List Stmt)
  | .move dest source => do
    let (stmts, value) ← source.flatten
    return stmts ++ [.move dest value]
  | .seq effects => flattenEffects effects
  | .jump l => return [.jump l]
  | .branch cond l => do
    let (stmts, value) ← cond.flatten
    let (stmts, v) ← Flatten.operand cond stmts value
    return stmts ++ [.branch v l]
  | .phi dest sources => return [.phi dest sources]
  | .label l => return [.label l]
  | .eval e => do
    let (stmts, _) ← e.flatten
    return stmts

/-- The statements of several steps, in order. -/
def flattenEffects : List Effect → Flatten (List Stmt)
  | [] => return []
  | s :: ss => do
    let first ← s.flatten
    let rest ← flattenEffects ss
    return first ++ rest

end

/-- The block of a tree. -/
def Tree.block (e : Tree) : Flatten Block := do
  let (stmts, value) ← e.flatten
  return .mk stmts value

/-- The blocks of a program. -/
def blocks : List Tree → Flatten (List Block)
  | [] => return []
  | e :: es => do
    let b ← e.block
    return b :: (← blocks es)

end TaggedLisp.Ir
