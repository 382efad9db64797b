import TaggedLisp.Form
import TaggedLisp.Ty

/-!
# Typed expressions

What a form means once its names are resolved and its types are known. Every expression carries a
note: its type, the names it takes from enclosing functions and `let`s, and the token it came from.
-/

namespace TaggedLisp

/-! ## Captures -/

/-- Names without repetition, in the order in which they are first met. -/
abbrev Captures := List String

namespace Captures

/-- The names of `a`, then those of `b` that are new. -/
def union (a b : Captures) : Captures := a ++ b.filter (!a.contains ·)

/-- The names of `a` that are not bound by `names`. -/
def without (a : Captures) (names : List String) : Captures := a.filter (!names.contains ·)

/-- A list of names, each kept where it first stands. -/
def ofList (names : List String) : Captures := names.foldl (fun acc n ↦ union acc [n]) []

theorem mem_union {a b : Captures} {x : String} : x ∈ a.union b ↔ x ∈ a ∨ x ∈ b := by
  simp only [union, List.mem_append, List.mem_filter, Bool.not_eq_true', List.contains_eq_mem,
    decide_eq_false_iff_not]
  by_cases h : x ∈ a <;> simp [h]

theorem mem_without {a : Captures} {names : List String} {x : String} :
    x ∈ a.without names ↔ x ∈ a ∧ x ∉ names := by
  simp [without]

theorem nodup_union {a b : Captures} (ha : a.Nodup) (hb : b.Nodup) : (a.union b).Nodup := by
  rw [union, List.nodup_append]
  refine ⟨ha, hb.filter _, fun x hx y hy hxy ↦ ?_⟩
  subst hxy
  simp [hx] at hy

theorem nodup_without {a : Captures} {names : List String} (ha : a.Nodup) :
    (a.without names).Nodup := ha.filter _

end Captures

/-! ## Expressions -/

/-- A value that stands in the program itself. -/
inductive Literal where
  | nil
  | boolean (value : Bool)
  | number (value : Int64)
  | string (value : String)
  deriving DecidableEq, Repr, Inhabited

/-- What is known about an expression besides its meaning. -/
structure Note where
  ty : Ty
  captures : Captures
  token : Token
  deriving Repr, Inhabited

/-- The head of a function: all of it but the body. -/
structure FnHead where
  name : Option String
  params : List String
  /-- The parameter that takes the surplus arguments in a list. -/
  rest : Option String
  /-- Whether the function is bound in the global frame. -/
  isGlobal : Bool
  deriving DecidableEq, Repr, Inhabited

/-- Every parameter, in calling order. -/
def FnHead.allParams (h : FnHead) : List String := h.params ++ h.rest.toList

/-- A typed expression. -/
inductive Expr where
  | literal (value : Literal) (note : Note)
  | symbol (name : String) (note : Note)
  | group (shape : Shape) (elems : List Expr) (note : Note)
  | cond (test yes no : Expr) (note : Note)
  | letIn (bindings : List (String × Expr)) (body : Expr) (note : Note)
  | fn (head : FnHead) (body : Expr) (note : Note)
  | seq (steps : List Expr) (note : Note)
  /-- A call. When `spread` is set, the arguments from that position on go into one list. -/
  | call (callee : Expr) (args : List Expr) (spread : Option Nat) (note : Note)
  deriving Inhabited

namespace Expr

/-- The note of an expression. -/
def note : Expr → Note
  | literal _ n | symbol _ n | group _ _ n | cond _ _ _ n | letIn _ _ n | fn _ _ n | seq _ n
  | call _ _ _ n => n

/-- The type of an expression. -/
def ty (e : Expr) : Ty := e.note.ty

/-- The names that an expression takes from enclosing functions and `let`s. -/
def captures (e : Expr) : Captures := e.note.captures

/-- The line of an expression. -/
def line (e : Expr) : Nat := e.note.token.line

/-- The value `nil` where the program leaves an expression out. -/
def missing (line : Nat) : Expr := literal .nil ⟨.nil, [], ⟨.nil, "nil", line⟩⟩

/-- The names that some of the expressions capture, in order. -/
def capturesOf (es : List Expr) : Captures :=
  es.foldl (fun acc e ↦ Captures.union acc e.captures) []

end Expr

end TaggedLisp
