import TaggedLisp.Builtin
import TaggedLisp.Expr
import TaggedLisp.Ir.Tree
import TaggedLisp.Pass
import TaggedLisp.Scopes

/-!
# From expressions to trees

Every variable becomes a temporary of its own. The body of a function sees the global names, its own
parameters, and a temporary for each variable that it captures; the function itself notes what those
variables are worth where it is made. A function that calls itself goes through the label of its
closure.

Numbers for temporaries and labels are drawn in the order in which the constructs are met.
-/

namespace TaggedLisp.Ir

/-- What is known while expressions are lowered: the next unused number, and what each visible name
stands for. -/
structure Lowerer where
  next : Nat
  scopes : Scopes Tree
  deriving Inhabited

/-- Only the builtin functions are known; numbers are drawn from `next` on. -/
def Lowerer.start (next : Nat) : Lowerer :=
  ⟨next, builtins.foldl (fun s b ↦ s.defineGlobal b.name (.closure (.builtin b.symbol))) .empty⟩

/-- A step of lowering. -/
abbrev Lower := Pass Lowerer

namespace Lower

/-- Draws a number. -/
def draw : Lower Nat := modifyGet fun s ↦ (s.next, { s with next := s.next + 1 })

/-- Draws a temporary for the variable `name`. -/
def named (name : String) : Lower Temp := do return ⟨← draw, some name⟩

/-- Lets `name` stand for `e` in the current frame. -/
def define (name : String) (e : Tree) : Lower Unit :=
  modify fun s ↦ { s with scopes := s.scopes.define name e }

/-- Lets `name` stand for `e` in the global frame. -/
def defineGlobal (name : String) (e : Tree) : Lower Unit :=
  modify fun s ↦ { s with scopes := s.scopes.defineGlobal name e }

/-- What `name` stands for. -/
def resolve (name : String) (line : Nat) : Lower Tree := do
  match (← get).scopes.lookup name with
  | some e => return e
  | none => Pass.fail (.unresolvedSymbol name) line

/-- Runs `body` in a frame below the one that `parent` picks. -/
def within {α : Type} (parent : Scopes Tree → ScopeId) (body : Lower α) : Lower α :=
  Pass.between (fun s ↦ { s with scopes := s.scopes.enterFrom (parent s.scopes) })
    (fun before after ↦ { after with scopes := after.scopes.exit before.scopes.current }) body

/-- Runs `body` in a frame nested in the current one. -/
def nested {α : Type} (body : Lower α) : Lower α := within Scopes.current body

/-- Runs `body` in a frame from which only the global names are seen. -/
def isolated {α : Type} (body : Lower α) : Lower α := within (fun _ ↦ ScopeId.global) body

/-! ## Parts of constructs -/

/-- A literal. -/
def literal : Literal → Tree
  | .nil => .tag .nil (.const .nil)
  | .boolean b => .tag .bool (.const (.bool b))
  | .number n => .tag .int (.const (.int n))
  | .string s => .tag .string (.const (.str s))

/-- A sequence of words. The empty one is the empty list, whatever its shape. -/
def sequence (shape : Shape) (elems : List Tree) : Tree :=
  if elems.isEmpty then .tag .list (.const .nil)
  else .call (.label (.routine shape.routine)) elems

/-- The temporaries in which the branches of a conditional leave their words, and the one in which
they meet. -/
structure Join where
  id : Nat
  yes : Temp
  no : Temp
  result : Temp

/-- Draws what a conditional needs. -/
def join : Lower Join := do
  let id ← draw
  let yes ← named "if_true"
  let no ← named "if_false"
  let result ← named "if_result"
  return ⟨id, yes, no, result⟩

/-- A conditional of lowered parts. -/
def cond (j : Join) (test yes no : Tree) : Tree :=
  let yesLabel := (Label.yes j.id).render
  let noLabel := (Label.no j.id).render
  let afterLabel := (Label.after j.id).render
  .after
    (.seq
      [ .branch (.untag test) yesLabel,
        .label noLabel,
        .move j.no no,
        .jump afterLabel,
        .label yesLabel,
        .move j.yes yes,
        .label afterLabel,
        .phi j.result [(yesLabel, j.yes), (noLabel, j.no)] ])
    (.temp j.result)

/-- Steps in order; the last one gives the value. -/
def steps : List Tree → Tree
  | [] => literal .nil
  | e :: es => .after (.seq ((e :: es).dropLast.map .eval)) ((e :: es).getLast (by simp))

/-- A call of lowered parts. From the position `spread` on, the arguments go into one list. -/
def call (spread : Option Nat) (callee : Tree) (args : List Tree) : Tree :=
  match spread with
  | none => .call (.untag callee) args
  | some n => .call (.untag callee) (args.take n ++ [sequence .list (args.drop n)])

/-- The captured variables of a function: what each is worth here, and a temporary for it inside. -/
def captures (line : Nat) : List String → Lower (List (Cell × Tree))
  | [] => return []
  | name :: names => do
    let source ← resolve name line
    let slot ← named name
    return (⟨name, slot⟩, source) :: (← captures line names)

/-- Makes the captured variables of a function visible inside it. -/
def defineCells (cells : List Cell) : Lower Unit :=
  modify fun s ↦
    { s with scopes := cells.foldl (fun s c ↦ s.define c.name (.temp c.slot)) s.scopes }

/-- Draws a temporary for each parameter and makes it visible. -/
def params : List String → Lower (List Temp)
  | [] => return []
  | name :: names => do
    let t ← named name
    define name (.temp t)
    return t :: (← params names)

/-- A function with head `h`, whose body `body` lowers. -/
def fn (h : FnHead) (n : Note) (body : Lower Tree) : Lower Tree := do
  let id ← draw
  let own := Tree.closure (.closure h.name id)
  let captured ← captures n.token.line n.captures
  let (temps, body) ← isolated do
    defineCells (captured.map Prod.fst)
    let temps ← params h.allParams
    match h.name with
    | some name => define name own
    | none => pure ()
    let body ← body
    return (temps, body)
  let head : FuncHead := ⟨(Label.code h.name id).render, temps, h.rest.isSome⟩
  let function := Tree.tag .closure (.func head captured body)
  if h.isGlobal then
    let name := h.name.getD "defn"
    defineGlobal name own
    let t ← named name
    return .after (.move t function) (.temp t)
  else return function

end Lower

end TaggedLisp.Ir

/-! ## Expressions -/

namespace TaggedLisp

open Ir

mutual

/-- Lowers an expression. -/
def Expr.lower : Expr → Lower Tree
  | .literal v _ => return Lower.literal v
  | .symbol name n => Lower.resolve name n.token.line
  | .group shape elems _ => do return Lower.sequence shape (← lowerAll elems)
  | .cond test yes no _ => do
    let j ← Lower.join
    let test ← test.lower
    let yes ← yes.lower
    let no ← no.lower
    return Lower.cond j test yes no
  | .letIn bindings body _ =>
    Lower.nested do
      let moves ← lowerBindings bindings
      return .after (.seq moves) (← body.lower)
  | .fn head body n => Lower.fn head n body.lower
  | .seq steps _ => do return Lower.steps (← lowerAll steps)
  | .call callee args spread _ => do
    let callee ← callee.lower
    let args ← lowerAll args
    return Lower.call spread callee args

/-- Lowers several expressions in order. -/
def lowerAll : List Expr → Lower (List Tree)
  | [] => return []
  | e :: es => do
    let t ← e.lower
    return t :: (← lowerAll es)

/-- Lowers names and values in turn; each value sees the names before it. -/
def lowerBindings : List (String × Expr) → Lower (List Effect)
  | [] => return []
  | (name, value) :: bs => do
    let value ← value.lower
    let t ← Lower.named name
    Lower.define name (.temp t)
    return .move t value :: (← lowerBindings bs)

end

end TaggedLisp
