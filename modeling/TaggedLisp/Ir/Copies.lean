import TaggedLisp.Ir.Block

/-!
# Copy propagation

A move of one temporary into another that stands for no variable only copies. Such a move is
dropped, and every later mention of the copy is replaced by what it was copied from. Temporaries are
unique in a whole program, so what is learned in one block holds in all later ones and inside
functions.
-/

namespace TaggedLisp.Ir

/-- The copies dropped so far. -/
structure Copies where
  /-- What each copy was made from, the latest first. -/
  sources : List (Nat × Temp)
  /-- The number of moves dropped. -/
  dropped : Nat
  deriving Repr, Inhabited

namespace Copies

/-- No copy dropped yet. -/
def none : Copies := ⟨[], 0⟩

/-- What `t` was copied from, through at most `n` copies. -/
def originWithin (sources : List (Nat × Temp)) : (n : Nat) → Temp → Temp
  | 0, t => t
  | n + 1, t =>
    match sources.lookup t.id with
    | .none => t
    | some u => originWithin sources n u

/-- What `t` was first copied from. Copies that do not run in a circle are fewer than the dropped
moves. -/
def origin (c : Copies) (t : Temp) : Temp := originWithin c.sources c.sources.length t

/-- An operand with the origin for a copy. -/
def operand (c : Copies) : Operand → Operand
  | .temp t => .temp (c.origin t)
  | v => v

/-- Notes that a move of `source` into `dest` is dropped. -/
def drop (c : Copies) (dest source : Temp) : Copies :=
  ⟨(dest.id, source) :: c.sources, c.dropped + 1⟩

end Copies

/-- A step of copy propagation. -/
abbrev Propagate := StateM Copies

mutual

/-- A computation with origins for copies. -/
def Rhs.propagate : Rhs → Propagate Rhs
  | .value v => do return .value ((← get).operand v)
  | .tag t v => do return .tag t ((← get).operand v)
  | .untag v => do return .untag ((← get).operand v)
  | .call callee args => do
    let c ← get
    return .call (c.operand callee) (args.map c.operand)
  | .func head captures body => do
    let c ← get
    let captures := captures.map fun (cell, v) ↦ (cell, c.operand v)
    return .func head captures (← body.propagate)

/-- A block without copies. -/
def Block.propagate : Block → Propagate Block
  | .mk stmts value => do
    let stmts ← propagateAll stmts
    return .mk stmts (← value.propagate)

/-- Statements without copies. -/
def propagateAll : List Stmt → Propagate (List Stmt)
  | [] => return []
  | s :: ss => do
    let first ← s.propagate
    let rest ← propagateAll ss
    return first ++ rest

/-- A statement with origins for copies, or nothing when it only copies. -/
def Stmt.propagate : Stmt → Propagate (List Stmt)
  | .move dest source => do
    let source ← source.propagate
    match source with
    | .value (.temp t) =>
      if dest.isSynthetic then
        modify (·.drop dest t)
        return []
      else return [.move dest source]
    | _ => return [.move dest source]
  | .branch cond l => do return [.branch ((← get).operand cond) l]
  | .phi dest sources => do
    let c ← get
    return [.phi dest (sources.map fun (l, t) ↦ (l, c.origin t))]
  | .jump l => return [.jump l]
  | .label l => return [.label l]

end

/-- Blocks without copies, with what is learned in each used in the later ones. -/
def propagateBlocks : List Block → Propagate (List Block)
  | [] => return []
  | b :: bs => do
    let b ← b.propagate
    return b :: (← propagateBlocks bs)

/-- A program without copies. -/
def withoutCopies (bs : List Block) : List Block := ((propagateBlocks bs).run .none).1

end TaggedLisp.Ir
