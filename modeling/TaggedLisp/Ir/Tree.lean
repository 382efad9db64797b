import TaggedLisp.Label
import TaggedLisp.Tag

/-!
# Intermediate code as trees

The first intermediate form of a program. Variables are temporaries, conditionals are jumps that
meet in a choice, and calls still nest.
-/

namespace TaggedLisp.Ir

/-- A word known before the program runs. -/
inductive Const where
  | int (value : Int64)
  | bool (value : Bool)
  | nil
  | str (value : String)
  /-- The address of a label. -/
  | label (name : String)
  deriving DecidableEq, Repr, Inhabited

/-- The address of a label. -/
def Const.ofLabel (l : Label) : Const := .label l.render

/-- A temporary. One that stands for a variable of the source has its name for a hint; one without a
hint holds a value between two steps of a computation. -/
structure Temp where
  id : Nat
  hint : Option String
  deriving DecidableEq, Repr, Inhabited

/-- Whether the temporary stands for no variable of the source. -/
def Temp.isSynthetic (t : Temp) : Bool := t.hint.isNone

/-- The head of a function. The parameter that takes the surplus arguments comes last. -/
structure FuncHead where
  label : String
  params : List Temp
  variadic : Bool
  deriving DecidableEq, Repr, Inhabited

/-- The place of a captured variable inside a function. -/
structure Cell where
  name : String
  slot : Temp
  deriving DecidableEq, Repr, Inhabited

mutual

/-- A computation of a word. -/
inductive Tree where
  | const (value : Const)
  | temp (temp : Temp)
  | tag (tag : Tag) (body : Tree)
  | untag (body : Tree)
  | call (callee : Tree) (args : List Tree)
  /-- A function; each captured variable comes with the word it has where the function is made. -/
  | func (head : FuncHead) (captures : List (Cell × Tree)) (body : Tree)
  /-- A computation that has an effect first. -/
  | after (effect : Effect) (body : Tree)

/-- A step that is taken for its effect. -/
inductive Effect where
  | move (dest : Temp) (source : Tree)
  | seq (effects : List Effect)
  | jump (target : String)
  /-- Jumps when the condition is true and goes on otherwise. -/
  | branch (cond : Tree) (target : String)
  /-- Takes the temporary that belongs to the label by which control came. -/
  | phi (dest : Temp) (sources : List (String × Temp))
  | label (name : String)
  | eval (body : Tree)

end

instance : Inhabited Tree := ⟨.const .nil⟩
instance : Inhabited Effect := ⟨.seq []⟩

namespace Tree

/-- The address of a label. -/
def label (l : Label) : Tree := const (.ofLabel l)

/-- The tagged closure that stands under a label. -/
def closure (l : Label) : Tree := tag .closure (label l)

end Tree

end TaggedLisp.Ir
