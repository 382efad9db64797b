import TaggedLisp.Check
import TaggedLisp.Form.Reader
import TaggedLisp.Ir.Copies
import TaggedLisp.Ir.Flatten
import TaggedLisp.Ir.Lower
import TaggedLisp.Machine.Translate

/-!
# Sessions

A session compiles programs one after another. Every program is checked, lowered and translated
afresh, but the numbers for temporaries and labels go on from one program to the next, so labels of
different programs never clash. Numbers that were drawn before a fault stay drawn.
-/

namespace TaggedLisp

/-- What a session keeps between programs. -/
structure Session where
  /-- The next unused number. -/
  next : Nat
  /-- Whether copies are dropped from blocks. -/
  optimize : Bool
  deriving DecidableEq, Repr, Inhabited

/-- All that is made of one program. -/
structure Compilation where
  forms : List Form
  types : TypeTable
  exprs : List Expr
  trees : List Ir.Tree
  blocks : List Ir.Block
  program : Machine.Program
  deriving Inhabited

/-- The expressions of a program and what is known about their types in the end. -/
def checkProgram (forms : List Form) : Except Fault (List Expr × TypeTable) :=
  match (checkAll forms).outcome .start with
  | (.ok es, c) => .ok (es, c.types)
  | (.error f, _) => .error f

namespace Session

/-- A session in which nothing was compiled yet. -/
def start (optimize : Bool) : Session := ⟨0, optimize⟩

/-- A step of a session. -/
abbrev Compile := Pass Session

/-- A result that does not depend on the session. -/
def ofExcept {α : Type} (r : Except Fault α) : Compile α := ExceptT.mk (pure r)

/-- The trees of a program. -/
def lower (es : List Expr) : Compile (List Ir.Tree) :=
  ExceptT.mk fun s ↦
    let (r, l) := (lowerAll es).outcome (.start s.next)
    (r, { s with next := l.next })

/-- The blocks of a program, without copies if the session drops them. -/
def blocks (trees : List Ir.Tree) : Compile (List Ir.Block) := do
  let s ← get
  let (bs, next) := (Ir.blocks trees).run s.next
  set { s with next := next }
  return if s.optimize then Ir.withoutCopies bs else bs

/-- The machine code of a program. -/
def translate (es : List Expr) : Compile Machine.Program :=
  ExceptT.mk fun s ↦
    let (r, t) := (translateAll es).outcome (.start s.next)
    (r.map fun _ ↦ t.program, { s with next := t.next })

/-- All that is made of the forms of a program. -/
def compileForms (forms : List Form) : Compile Compilation := do
  let (es, types) ← ofExcept (checkProgram forms)
  let trees ← lower es
  let bs ← blocks trees
  let program ← translate es
  return ⟨forms, types, es, trees, bs, program⟩

/-- All that is made of the text of a program. -/
def compile (source : String) : Compile Compilation := do
  compileForms (← ofExcept (read source))

/-- The machine code of a program alone. Its expressions are lowered for the faults that this may
bring up; no blocks are made of the trees. -/
def compileToCode (source : String) : Compile Machine.Program := do
  let forms ← ofExcept (read source)
  let (es, _) ← ofExcept (checkProgram forms)
  let _ ← lower es
  translate es

end Session

end TaggedLisp
