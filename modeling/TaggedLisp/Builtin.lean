import TaggedLisp.Ty

/-!
# Builtin functions

The functions that every program can call. Each is a closure that the runtime provides under a fixed
label.
-/

namespace TaggedLisp

/-- A function of the runtime. -/
structure Builtin where
  name : String
  /-- The part of its label that is its own. -/
  symbol : String
  params : List BaseTy
  rest : Option BaseTy
  ret : BaseTy
  deriving DecidableEq, Repr, Inhabited

/-- The type of a builtin function. -/
def Builtin.ty (b : Builtin) : Ty := .fn (b.params.map .base) (b.rest.map .base) (.base b.ret)

/-- All builtin functions. -/
def builtins : List Builtin :=
  [ ⟨"+", "plus", [], some .number, .number⟩,
    ⟨"-", "minus", [], some .number, .number⟩,
    ⟨"*", "times", [], some .number, .number⟩,
    ⟨"=", "eq", [.any], some .any, .boolean⟩,
    ⟨"<", "lt", [.number, .number], none, .boolean⟩,
    ⟨">", "gt", [.number, .number], none, .boolean⟩,
    ⟨"mod", "mod", [.number, .number], none, .number⟩,
    ⟨"not", "not", [.any], none, .boolean⟩,
    ⟨"and", "and", [], some .any, .any⟩,
    ⟨"or", "or", [], some .any, .any⟩,
    ⟨"print", "print", [], some .any, .nil⟩,
    ⟨"list", "list", [], some .any, .list⟩,
    ⟨"cons", "cons", [.any, .list], none, .list⟩,
    ⟨"peek", "peek", [.list], none, .any⟩,
    ⟨"pop", "pop", [.list], none, .list⟩,
    ⟨"nth", "nth", [.list, .number], none, .any⟩,
    ⟨"count", "count", [.list], none, .number⟩ ]

end TaggedLisp
