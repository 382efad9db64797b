import TaggedLisp.Builtin
import TaggedLisp.Expr
import TaggedLisp.Fault
import TaggedLisp.Proofs.Dialogue
import TaggedLisp.Ty.Table

/-!
# The values of expressions

A reference evaluation with functions as values. `Expr.eval` computes words and leaves it to the
runtime what a call does; here a call enters the function that it calls, so one can say which
function that is and what it gets. Every call is announced before it happens, and the builtin
functions are asked for their results. As there, the arguments of a call come before its callee, and
the arguments from the position on that the call carries arrive in one list.

Values are followed on their way through the program. The depth of a followed value says how much is
known about where it comes from: nothing at depth zero, that it is a function that takes as many
arguments as its type says at depth one, and at every further depth the same of what it answers.
Names that are bound by a `let` or captured, expressions one after another and the first branch of a
conditional pass values on as they are. Elsewhere a value goes from an expression of one type to a
place of another one: an argument becomes a parameter, the second branch the value of a conditional,
what a function answers the value of a call, and a function is known to its own body by its name.
There the value is followed as far as both types are known to be function types and agree in the
table `T` of the whole program, or as far as that is sure without looking there. What a builtin
function answers is not followed, and so nothing that was put into a list.
-/

namespace TaggedLisp

/-! ## Function types -/

/-- How many calls deep a type is written out as a function type. -/
def Ty.depth : Ty → Nat
  | .fn _ _ ret => ret.depth + 1
  | .base _ | .var _ => 0

namespace TypeTable

/-- How many calls deep a type is known to be a function type. -/
def depth (T : TypeTable) (t : Ty) : Nat := (T.expand t).depth

/-- How many calls deep two types that agree are both known to be function types. -/
def shared (T : TypeTable) (a b : Ty) : Nat :=
  if T.satisfies a b then min (T.depth a) (T.depth b) else 0

end TypeTable

/-- How many arguments a function takes. -/
def FnHead.arity (h : FnHead) : Arity :=
  match h.rest with
  | some _ => .atLeast h.params.length
  | none => .exactly h.params.length

/-- How many arguments a builtin function takes. -/
def Builtin.arity (b : Builtin) : Arity :=
  match b.rest with
  | some _ => .atLeast b.params.length
  | none => .exactly b.params.length

/-- The position from which arguments go into one list. -/
def Arity.spread : Arity → Option Nat
  | .exactly _ => none
  | .atLeast n => some n

/-! ## Values -/

/-- Something that was followed on its way. -/
structure Followed (α : Type) where
  value : α
  depth : Nat

/-- A value that goes from a place of type `a` to one of type `b`, where the types are sure to take
as many arguments for so many calls. -/
def Followed.handed {α : Type} (T : TypeTable) (sure : Nat) (a b : Ty) (r : Followed α) :
    Followed α :=
  { r with depth := min r.depth (max sure (T.shared a b)) }

/-- What a name is bound to. -/
inductive Origin (α : Type) where
  /-- The value of an expression that has the type of the name. -/
  | bound (r : Followed α)
  /-- A value of the type `ty`, which is sure to take as many arguments as the type of the name for
  so many calls. -/
  | passed (sure : Nat) (ty : Ty) (r : Followed α)

/-- The value of a name. -/
def Origin.value {α : Type} : Origin α → α
  | bound r | passed _ _ r => r.value

inductive Value where
  | literal (v : Literal)
  | group (shape : Shape) (elems : List Value)
  | builtin (b : Builtin)
  /-- A function of a type, with the names that are visible where it stands. -/
  | closure (ty : Ty) (seen : List (String × Origin Value)) (head : FnHead) (body : Expr)
  deriving Inhabited

/-- The names that are visible at some place, the innermost first. -/
abbrev Env := List (String × Origin Value)

namespace Value

/-- The type that is written out for a function. -/
def ty? : Value → Option Ty
  | builtin b => some b.ty
  | closure ty _ _ _ => some ty
  | literal _ | group _ _ => none

/-- How many arguments a value takes, if it is a function. -/
def arity? : Value → Option Arity
  | builtin b => some b.arity
  | closure _ _ h _ => some h.arity
  | literal _ | group _ _ => none

/-- Whether a value is `f` or a sequence that `f` can be taken out of. -/
inductive Holds (f : Value) : Value → Prop where
  | self : Holds f f
  | elem {shape elems v} (hv : v ∈ elems) (h : Holds f v) : Holds f (group shape elems)

end Value

/-! ## Dialogues about values -/

/-- What arrives at a function that is called with `args`: those from `spread` on are put together.
-/
def packed {α : Type} (pack : List α → α) (spread : Option Nat) (args : List α) : List α :=
  match spread with
  | none => args
  | some n => args.take n ++ [pack (args.drop n)]

/-- A call that is about to happen. -/
structure CallSite where
  /-- The position from which the arguments go into one list, as the call carries it. -/
  spread : Option Nat
  function : Followed Value
  args : List Value

/-- What arrives at the function. -/
def CallSite.arriving (site : CallSite) : List Value :=
  packed (.group .list) site.spread site.args

/-- What a program tells and asks its surroundings. -/
inductive Request where
  | call (site : CallSite)
  /-- The result of a builtin function. -/
  | builtin (b : Builtin) (args : List Value)

/-- What is answered to a request. -/
@[reducible] def Request.Answer : Request → Type
  | call _ => Unit
  | builtin _ _ => Value

/-- A builtin function makes no functions: those of the program that can be taken out of its result
could be taken out of its arguments. -/
def Request.Honest : (q : Request) → q.Answer → Prop
  | call _, _ => True
  | builtin _ args, r => ∀ ty seen h body, Value.Holds (.closure ty seen h body) r →
      ∃ v ∈ args, Value.Holds (.closure ty seen h body) v

/-- A computation with values. -/
abbrev Valuation := Dialogue Request.Answer

section

variable (T : TypeTable)

/-! ## Definitions -/

mutual

/-- The names that are visible after an expression. Global functions are defined where they stand in
the program, whether that place is reached or not. -/
def Expr.declare : Expr → Env → Env
  | .literal _ _, ρ | .symbol _ _, ρ | .letIn _ _ _, ρ => ρ
  | .group _ elems _, ρ => declareAll elems ρ
  | .cond test yes no _, ρ => no.declare (yes.declare (test.declare ρ))
  | .fn h body n, ρ =>
    match h.isGlobal, h.name with
    | true, some name => (name, .bound ⟨.closure n.ty ρ h body, T.depth n.ty⟩) :: ρ
    | _, _ => ρ
  | .seq steps _, ρ => declareAll steps ρ
  | .call callee args _ _, ρ => declareAll args (callee.declare ρ)

def declareAll : List Expr → Env → Env
  | [], ρ => ρ
  | e :: es, ρ => declareAll es (e.declare ρ)

end

/-- The names of a function: its parameters with what arrives for them, and its own. -/
def FnHead.frame (h : FnHead) (ty : Ty) (self : Value) (arriving : List (Origin Value)) : Env :=
  h.allParams.zip arriving ++ h.name.toList.map (·, .passed 1 ty ⟨self, T.depth ty⟩)

/-- Several things that arrive as one list. -/
def Origin.pack (os : List (Origin Value)) : Origin Value :=
  .bound ⟨.group .list (os.map value), 0⟩

/-! ## Evaluation -/

section

variable (run : Env → Expr → Valuation (Followed Value))

/-- The values of several expressions, evaluated in order. -/
def runAll : Env → List Expr → Valuation (List (Followed Value))
  | _, [] => return []
  | ρ, e :: es => do
    let r ← run ρ e
    let rs ← runAll (e.declare T ρ) es
    return r :: rs

/-- The names after the bindings of a `let`; each value sees the names before it. -/
def runBindings : Env → List (String × Expr) → Valuation Env
  | ρ, [] => return ρ
  | ρ, (name, value) :: bs => do
    let r ← run ρ value
    runBindings ((name, .bound r) :: ρ) bs

/-- A call of the type `ty` of a function with arguments of the types `tys`. There must arrive as
many as the function has parameters. -/
def runCall (spread : Option Nat) (ty : Ty) (f : Followed Value) (tys : List Ty)
    (args : List (Followed Value)) : Valuation (Followed Value) :=
  let site : CallSite := ⟨spread, f, args.map Followed.value⟩
  let arriving := packed .pack spread (tys.zipWith (.passed 0) args)
  .ask (.call site) fun _ ↦
    match f.value with
    | .builtin b => .ask (.builtin b site.arriving) fun v ↦ return ⟨v, 0⟩
    | .closure own seen h body =>
      if arriving.length = h.allParams.length then do
        let r ← run ((h.frame T own f.value arriving).reverse ++ seen) body
        return r.handed T (f.depth - 1) body.ty ty
      else .stop
    | .literal _ | .group _ _ => .stop

end

/-- The value of an expression, in `fuel` steps down at most. The then branch of a conditional is
taken when its test is `true` and nothing else. -/
def Expr.run : (fuel : Nat) → Env → Expr → Valuation (Followed Value)
  | 0, _, _ => .stop
  | _ + 1, _, .literal v _ => return ⟨.literal v, 0⟩
  | _ + 1, ρ, .symbol name n =>
    match ρ.lookup name with
    | some (.bound r) => return r
    | some (.passed sure ty r) => return r.handed T sure ty n.ty
    | none => .stop
  | fuel + 1, ρ, .group shape elems _ => do
    let rs ← runAll T (Expr.run fuel) ρ elems
    return ⟨.group shape (rs.map Followed.value), 0⟩
  | fuel + 1, ρ, .cond test yes no _ => do
    let r ← Expr.run fuel ρ test
    match r.value with
    | .literal (.boolean true) => Expr.run fuel (test.declare T ρ) yes
    | _ =>
      let r ← Expr.run fuel (yes.declare T (test.declare T ρ)) no
      return r.handed T (min no.ty.depth yes.ty.depth) no.ty yes.ty
  | fuel + 1, ρ, .letIn bindings body _ => do
    Expr.run fuel (← runBindings (Expr.run fuel) ρ bindings) body
  | _ + 1, ρ, .fn h body n => return ⟨.closure n.ty ρ h body, T.depth n.ty⟩
  | fuel + 1, ρ, .seq steps _ => do
    return (← runAll T (Expr.run fuel) ρ steps).getLastD ⟨.literal .nil, 0⟩
  | fuel + 1, ρ, .call callee args spread n => do
    let rs ← runAll T (Expr.run fuel) (callee.declare T ρ) args
    let f ← Expr.run fuel ρ callee
    runCall T (Expr.run fuel) spread n.ty f (args.map Expr.ty) rs

/-- The names that every program sees. -/
def Env.start : Env :=
  builtins.foldl (fun ρ b ↦ (b.name, .bound ⟨.builtin b, T.depth b.ty⟩) :: ρ) []

/-- The values of the expressions of a program. -/
def runProgram (fuel : Nat) (es : List Expr) : Valuation (List (Followed Value)) :=
  runAll T (Expr.run T fuel) (.start T) es

end

end TaggedLisp
