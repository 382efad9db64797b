import TaggedLisp.Token

/-!
# Labels

The names of places in the machine code and its data. A label is structured: it says what it names,
and the number drawn for the construct that it belongs to. Only `Label.render` knows the spelling.
-/

namespace TaggedLisp

/-- The routines of the runtime. -/
inductive Routine where
  | allocInit
  | allocate
  | deallocate
  | debexit
  | error
  | toBool
  | toInt
  | toClosure
  | toList
  | toString
  | isClosure
  | makeList
  | makeVector
  deriving DecidableEq, Repr, Inhabited

/-- The name of a routine. -/
def Routine.name : Routine → String
  | allocInit => "__alloc_init"
  | allocate => "__allocate"
  | deallocate => "__deallocate"
  | debexit => "__debexit"
  | error => "__error"
  | toBool => "__toBool"
  | toInt => "__toInt"
  | toClosure => "__toClosure"
  | toList => "__toList"
  | toString => "__toString"
  | isClosure => "__isClosure"
  | makeList => "__make_list"
  | makeVector => "__make_vector"

/-- Every routine, in the order in which programs declare them. -/
def Routine.all : List Routine :=
  [allocInit, allocate, deallocate, debexit, error, toBool, toInt, toClosure, toList, toString,
    isClosure, makeList, makeVector]

/-- The routine that makes a sequence of the shape from words on the stack. -/
def Shape.routine : Shape → Routine
  | list => .makeList
  | vector => .makeVector

/-- A place in the machine code or its data. -/
inductive Label where
  /-- Where a program starts. -/
  | start
  | routine (routine : Routine)
  /-- The closure of a builtin function. -/
  | builtin (symbol : String)
  /-- The branch of a conditional that is taken when its test is true. -/
  | yes (id : Nat)
  /-- The other branch of a conditional. -/
  | no (id : Nat)
  /-- What follows a conditional or the code of a function. -/
  | after (id : Nat)
  /-- The code of a function. -/
  | code (name : Option String) (id : Nat)
  /-- The closure of a function without captures. -/
  | closure (name : Option String) (id : Nat)
  /-- The text of a string. -/
  | text (id : Nat)
  deriving DecidableEq, Repr, Inhabited

/-- The name `s` with `_` in place of every character that a label cannot hold. -/
def mangle (s : String) : String :=
  String.ofList (s.toList.map fun c ↦ if c.isAlphanum || c == '_' then c else '_')

/-- The spelling of the label of a function's code. -/
def functionLabel (name : Option String) (id : Nat) : String :=
  match name with
  | some name => "fn" ++ toString id ++ "_" ++ mangle name
  | none => "anon_" ++ toString id

/-- The spelling of a label. -/
def Label.render : Label → String
  | start => "_start"
  | routine r => r.name
  | builtin symbol => "__" ++ symbol ++ "_closure"
  | yes id => "true_" ++ toString id
  | no id => "false_" ++ toString id
  | after id => "after_" ++ toString id
  | code name id => functionLabel name id
  | closure name id => functionLabel name id ++ "_closure"
  | text id => "string_" ++ toString id

end TaggedLisp
