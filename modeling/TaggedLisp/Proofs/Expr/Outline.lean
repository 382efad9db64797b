import TaggedLisp.Proofs.Expr.Evaluation

/-!
# The branches and calls of an expression

Two back ends make code from an expression, one for the machine and one in the intermediate form.
The code is not the same, but both have the branches and calls of the expression in one order: that
in which they would be evaluated, where the branch of a conditional that is taken when the test is
true comes behind the other one, and the body of a function stands where the function is made.

Sequences are made by routines of the runtime, the empty one without a call. The surplus arguments
of a call are such a sequence.
-/

namespace TaggedLisp

/-- A place in code from which control may go elsewhere. -/
inductive Point where
  | branch
  /-- A call of a closure with some words. -/
  | apply (words : Nat)
  /-- A call of a routine of the runtime with some words. -/
  | routine (label : String) (words : Nat)
  deriving DecidableEq, Repr

/-- The call that makes a sequence of some words. -/
def Shape.gathering (shape : Shape) (words : Nat) : List Point :=
  if words = 0 then [] else [.routine shape.routine.name words]

/-- The call that makes a list of the surplus arguments, where there are `count` arguments. -/
def gatheringSurplus (spread : Option Nat) (count : Nat) : List Point :=
  match spread with
  | none => []
  | some n => Shape.list.gathering (count - n)

mutual

/-- The branches and calls of an expression. -/
def Expr.outline : Expr → List Point
  | .literal _ _ | .symbol _ _ => []
  | .group shape elems _ => outlineAll elems ++ shape.gathering elems.length
  | .cond test yes no _ => test.outline ++ .branch :: (no.outline ++ yes.outline)
  | .letIn bindings body _ => outlineBindings bindings ++ body.outline
  | .fn _ body _ => body.outline
  | .seq steps _ => outlineAll steps
  | .call callee args spread _ =>
    outlineAll args ++ gatheringSurplus spread args.length ++ callee.outline ++
      [.apply (passedExprs spread args).length]

def outlineAll : List Expr → List Point
  | [] => []
  | e :: es => e.outline ++ outlineAll es

def outlineBindings : List (String × Expr) → List Point
  | [] => []
  | (_, value) :: bs => value.outline ++ outlineBindings bs

end

theorem outlineAll_append (es es' : List Expr) :
    outlineAll (es ++ es') = outlineAll es ++ outlineAll es' := by
  induction es with
  | nil => rfl
  | cons e es ih => rw [List.cons_append, outlineAll, outlineAll, ih, List.append_assoc]

/-- Making the list of the surplus arguments is a part of passing them. -/
theorem outlineAll_passedExprs (spread : Option Nat) (args : List Expr) :
    outlineAll (passedExprs spread args)
      = outlineAll args ++ gatheringSurplus spread args.length := by
  cases spread with
  | none => exact (List.append_nil _).symm
  | some n =>
    have hsurplus : outlineAll [.group .list (args.drop n) default]
        = outlineAll (args.drop n) ++ Shape.list.gathering (args.length - n) := by
      simp only [outlineAll, Expr.outline, List.length_drop, List.append_nil]
    rw [passedExprs, outlineAll_append, hsurplus, ← List.append_assoc, ← outlineAll_append,
      List.take_append_drop]
    rfl

end TaggedLisp
