import TaggedLisp.Builtin
import TaggedLisp.Expr
import TaggedLisp.Pass
import TaggedLisp.Scopes
import TaggedLisp.Ty.Table

/-!
# Checking forms

Checking makes a typed expression of a form. Types flow from the parts to the whole. A parameter
starts as an open placeholder and is narrowed when the body hands it to something that asks for a
type; an open placeholder that is called gets the signature of that first call. Once a function is
checked, the placeholder that its body answers is frozen.

A fault leaves the scopes as they were before the form. Placeholders that were narrowed on the way
stay narrowed, and a global function that was finished inside stays bound.
-/

namespace TaggedLisp

/-- What is known while forms are checked: the placeholders and the types of the visible names. -/
structure Checker where
  types : TypeTable
  scopes : Scopes Ty
  deriving Repr, Inhabited

/-- Only the builtin functions are known. -/
def Checker.start : Checker :=
  ⟨.empty, builtins.foldl (fun s b ↦ s.defineGlobal b.name b.ty) .empty⟩

/-- A step of checking. -/
abbrev Check := Pass Checker

namespace Check

/-- The smallest integer that a tagged word holds. -/
def minInteger : Int64 := -((1 : Int64) <<< 60)

/-- The largest integer that a tagged word holds. -/
def maxInteger : Int64 := ((1 : Int64) <<< 60) - 1

/-! ## Steps on the state -/

/-- A new open placeholder. -/
def fresh (name : String) : Check Ty :=
  modifyGet fun s ↦
    let (t, T) := s.types.fresh name
    (t, { s with types := T })

/-- Binds a name in the current frame. -/
def define (name : String) (t : Ty) : Check Unit :=
  modify fun s ↦ { s with scopes := s.scopes.define name t }

/-- Binds a name in the global frame. -/
def defineGlobal (name : String) (t : Ty) : Check Unit :=
  modify fun s ↦ { s with scopes := s.scopes.defineGlobal name t }

/-- Closes the placeholders on the chain of `t` to narrowing. -/
def freeze (t : Ty) : Check Unit :=
  modify fun s ↦ { s with types := s.types.freeze t }

/-- Whether `actual` agrees with `expected` in all that is known. -/
def satisfies (actual expected : Ty) : Check Bool := do
  return (← get).types.satisfies actual expected

/-- A type as it is displayed now. -/
def display (t : Ty) : Check String := do
  return (← get).types.display t

/-- Runs `body` in a frame of its own, which is dropped afterwards. -/
def nested {α : Type} (body : Check α) : Check α :=
  Pass.between (fun s ↦ { s with scopes := s.scopes.enter })
    (fun before after ↦ { after with scopes := after.scopes.exit before.scopes.current }) body

/-- Two types had to agree at `meeting` and do not. -/
def mismatch {α : Type} (meeting : Meeting) (expected actual : Ty) (line : Nat) : Check α := do
  Pass.fail (.typeMismatch meeting (← display expected) (← display actual)) line

/-- Narrows `actual` towards `expected`, as `meeting` asks for. -/
def narrow (actual expected : Ty) (meeting : Meeting) (line : Nat) : Check Unit := do
  let s ← get
  match s.types.narrow actual expected with
  | .ok (_, T) => set { s with types := T }
  | .error .incompatible => mismatch meeting expected actual line
  | .error .frozen => Pass.fail (.frozenType (← display actual) (← display expected)) line

/-! ## Atoms -/

/-- A literal of a type. -/
def literal (v : Literal) (ty : Ty) (t : Token) : Expr := .literal v ⟨ty, [], t⟩

/-- A symbol stands for its innermost visible binding. It is captured unless that is global. -/
def symbol (name : String) (t : Token) : Check Expr := do
  match (← get).scopes.lookupWithScope name with
  | none => Pass.fail (.unresolvedSymbol name) t.line
  | some (ty, scope) =>
    return .symbol name ⟨ty, if scope = ScopeId.global then [] else [name], t⟩

/-- An atom. A number must fit a tagged word. -/
def atom (a : Atom) (t : Token) : Check Expr :=
  match a with
  | .nil => return literal .nil .nil t
  | .boolean b => return literal (.boolean b) .boolean t
  | .number n =>
    if minInteger ≤ n ∧ n ≤ maxInteger then return literal (.number n) .number t
    else Pass.fail (.integerRange (toString n.toInt)) t.line
  | .string s => return literal (.string s) .string t
  | .symbol name => symbol name t

/-- A sequence of data. -/
def sequence (shape : Shape) (elems : List Expr) (t : Token) : Expr :=
  .group shape elems ⟨.ofShape shape, Expr.capturesOf elems, t⟩

/-! ## Conditionals and sequences -/

/-- A conditional. Both branches must agree; its type is that of the first. -/
def cond (op : Token) (test yes no : Expr) : Check Expr := do
  if ← satisfies no.ty yes.ty then
    return .cond test yes no ⟨yes.ty, Expr.capturesOf [test, yes, no], op⟩
  else mismatch .branches yes.ty no.ty op.line

/-- Expressions one after another; the last one gives value and type. -/
def seq (op : Token) (steps : List Expr) : Expr :=
  match steps.getLast? with
  | none => .missing op.line
  | some last => .seq steps ⟨last.ty, Expr.capturesOf steps, op⟩

/-! ## Bindings -/

/-- The names that a `let` captures: those of each value that are not bound before it, then those of
the body that are not bound at all. -/
def letCaptures (bindings : List (String × Expr)) (body : Expr) : Captures :=
  let step := fun (acc : Captures × List String) (b : String × Expr) ↦
    (Captures.union acc.1 (b.2.captures.without acc.2), acc.2 ++ [b.1])
  let (captures, bound) := bindings.foldl step ([], [])
  Captures.union captures (body.captures.without bound)

/-- A `let` of checked parts. -/
def letIn (op : Token) (bindings : List (String × Expr)) (body : Expr) : Expr :=
  .letIn bindings body ⟨body.ty, letCaptures bindings body, op⟩

/-! ## Functions -/

/-- The names in a parameter vector. -/
def paramNames (op : Token) : Form → Check (List String)
  | .group .vector elems _ =>
    match elems.mapM Form.symbol? with
    | some names => return names
    | none => Pass.fail (.malformedParams .notSymbols) op.line
  | _ => Pass.fail (.malformedParams .notSymbols) op.line

/-- Splits the names of a parameter vector at the first `&`, which must stand before the last name.
-/
def splitRest (op : Token) (names : List String) : Check (List String × Option String) :=
  match names.span (· != "&") with
  | (params, []) => return (params, none)
  | (params, [_, rest]) =>
    if rest = "&" then Pass.fail (.malformedParams .restNotLast) op.line
    else return (params, some rest)
  | _ => Pass.fail (.malformedParams .restNotLast) op.line

/-- The head of a function. A function to be bound in the global frame may stand only where that
frame is the current one. -/
def fnHead (op : Token) (isGlobal : Bool) (name : Option Form) (params : Form) : Check FnHead := do
  if isGlobal && !(← get).scopes.isGlobal then Pass.fail .defnNotTopLevel op.line
  let name ← match name with
    | none => pure none
    | some form =>
      match form.symbol? with
      | some name => pure (some name)
      | none => Pass.fail (.malformedParams .nameNotSymbol) op.line
  let names ← paramNames op params
  let (params, rest) ← splitRest op names
  return ⟨name, params, rest, isGlobal⟩

/-- Binds each parameter to an open placeholder of its own. -/
def bindParams : List String → Check (List Ty)
  | [] => return []
  | name :: names => do
    let ty ← fresh name
    define name ty
    return ty :: (← bindParams names)

/-- The type of a function with head `h`. Surplus arguments may have any type. -/
def fnTy (h : FnHead) (params : List Ty) (ret : Ty) : Ty := .fn params (h.rest.map fun _ ↦ .any) ret

/-- Makes the parameters of a function visible, and its own name, which hides a parameter of that
name. -/
def bindHead (h : FnHead) : Check (List Ty) := do
  let params ← bindParams h.params
  match h.rest with
  | some rest => define rest .list
  | none => pure ()
  match h.name with
  | some name =>
    let ret ← fresh (name ++ "-ret")
    define name (fnTy h params ret)
  | none => pure ()
  return params

/-- A function with head `h`, whose body `body` checks. -/
def fn (op : Token) (h : FnHead) (body : Check Expr) : Check Expr := do
  let (body, params) ← nested do
    let params ← bindHead h
    let body ← body
    freeze body.ty
    return (body, params)
  let ty := fnTy h params body.ty
  let captures := body.captures.without (h.allParams ++ h.name.toList)
  match h.isGlobal, h.name with
  | true, some name => defineGlobal name ty
  | _, _ => pure ()
  return .fn h body ⟨ty, captures, op⟩

/-! ## Calls -/

/-- Checks an argument against the type that the callee asks for at its position, and narrows it
when it is still open. -/
def constrain (callee : String) (line position : Nat) (arg : Expr) (expected : Ty) :
    Check Unit := do
  let meeting := Meeting.argument position callee
  if ← satisfies arg.ty expected then
    let T := (← get).types
    match T.openVar? arg.ty with
    | some v => if T.isNarrowable v then narrow arg.ty expected meeting line
    | none => pure ()
  else mismatch meeting expected arg.ty line

/-- Checks the arguments from `position` on against the parameters that are left and the rest type.
-/
def constrainAll (callee : String) (line : Nat) (rest : Option Ty) :
    (position : Nat) → List Expr → List Ty → Check Unit
  | _, [], _ => return
  | i, arg :: args, [] => do
    constrain callee line i arg (rest.getD .any)
    constrainAll callee line rest (i + 1) args []
  | i, arg :: args, p :: params => do
    constrain callee line i arg p
    constrainAll callee line rest (i + 1) args params

/-- The type of a call and the position from which its arguments go into one list. -/
def signature (name : String) (line : Nat) (callee : Expr) (args : List Expr) :
    Check (Ty × Option Nat) := do
  let T := (← get).types
  match T.resolve callee.ty with
  | .fn params rest ret =>
    let arity := match rest with
      | some _ => Arity.atLeast params.length
      | none => Arity.exactly params.length
    if arity.admits args.length then
      constrainAll name line rest 0 args params
      return (ret, rest.map fun _ ↦ params.length)
    else Pass.fail (.arityMismatch name arity args.length) line
  | .var v =>
    if T.isNarrowable v then
      let ret ← fresh (name ++ "-ret")
      narrow callee.ty (.fn (args.map Expr.ty) none ret) (.operator name) line
      return (ret, none)
    else return (.any, none)
  | .base .any => return (.any, none)
  | other => Pass.fail (.notAFunction name (← display other)) line

/-- A call of checked parts. -/
def call (op : Form) (callee : Expr) (args : List Expr) : Check Expr := do
  let (ty, spread) ← signature (op.symbol?.getD "expression") op.line callee args
  return .call callee args spread ⟨ty, Expr.capturesOf (callee :: args), op.token⟩

/-- A special form was given the wrong number of forms. -/
def wrongArgs {α : Type} (op : Token) (args : List Form) : Check α :=
  Pass.fail (.wrongArgCount op.lexeme args.length) op.line

end Check

/-! ## Forms -/

mutual

/-- Checks a form as a datum: a list inside is a list, not a call. -/
def Form.checkDatum : Form → Check Expr
  | .atom a t => Check.atom a t
  | .group shape elems t => do
    return Check.sequence shape (← checkData elems) t

/-- Checks several data. -/
def checkData : List Form → Check (List Expr)
  | [] => return []
  | f :: fs => do
    let e ← f.checkDatum
    return e :: (← checkData fs)

end

mutual

/-- Checks a form as an expression. -/
def Form.check : Form → Check Expr
  | .atom a t => Check.atom a t
  | .group .vector elems t => do
    return Check.sequence .vector (← checkData elems) t
  | .group .list [] t => return Check.sequence .list [] t
  | .group .list (op :: args) t =>
    match op with
    | .atom (.symbol name) opToken =>
      match name with
      | "quote" =>
        match args with
        | [datum] => datum.checkDatum
        | _ => Check.wrongArgs opToken args
      | "if" => checkCond opToken args
      | "fn" => checkFn opToken false args
      | "defn" => checkFn opToken true args
      | "let" => checkLet opToken args
      | "do" => do return Check.seq opToken (← checkAll args)
      | _ => do
        let callee ← op.check
        let args ← checkAll args
        Check.call op callee args
    | .group .list _ _ => do
      let callee ← op.check
      let args ← checkAll args
      Check.call op callee args
    | _ => Pass.fail .badOperator t.line

/-- Checks several forms in order. -/
def checkAll : List Form → Check (List Expr)
  | [] => return []
  | f :: fs => do
    let e ← f.check
    return e :: (← checkAll fs)

/-- Checks the parts of a conditional. A branch that is left out is `nil`. -/
def checkCond (op : Token) : List Form → Check Expr
  | [test, yes] => do
    let test ← test.check
    let yes ← yes.check
    Check.cond op test yes (.missing op.line)
  | [test, yes, no] => do
    let test ← test.check
    let yes ← yes.check
    let no ← no.check
    Check.cond op test yes no
  | args => Check.wrongArgs op args

/-- Checks the parts of a function: a name, which a function that is not global may leave out, the
parameters and the body. -/
def checkFn (op : Token) (isGlobal : Bool) : List Form → Check Expr
  | [name, params, body] => do
    let head ← Check.fnHead op isGlobal (some name) params
    Check.fn op head body.check
  | [params, body] =>
    if isGlobal then Check.wrongArgs op [params, body]
    else do
      let head ← Check.fnHead op isGlobal none params
      Check.fn op head body.check
  | args => Check.wrongArgs op args

/-- Checks the parts of a `let`: a vector of names and values, and the body. -/
def checkLet (op : Token) : List Form → Check Expr
  | [bindings, body] =>
    match bindings with
    | .group .vector pairs _ =>
      if pairs.length % 2 = 0 then
        Check.nested do
          let bindings ← checkPairs op pairs
          return Check.letIn op bindings (← body.check)
      else Pass.fail (.malformedBindings .notPairs) op.line
    | _ => Pass.fail (.malformedBindings .notPairs) op.line
  | args => Check.wrongArgs op args

/-- Checks names and values in turn; each value sees the names before it. -/
def checkPairs (op : Token) : List Form → Check (List (String × Expr))
  | [] => return []
  | [_] => Pass.fail (.malformedBindings .notPairs) op.line
  | name :: value :: rest => do
    match name.symbol? with
    | none => Pass.fail (.malformedBindings .nameNotSymbol) op.line
    | some name =>
      let value ← value.check
      Check.define name value.ty
      return (name, value) :: (← checkPairs op rest)

end

end TaggedLisp
