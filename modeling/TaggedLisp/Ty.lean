import TaggedLisp.Token

/-!
# Types

A type is a base type, a function type or a placeholder. Placeholders are numbers; what is known
about them stands in a `TypeTable`, so that everything that mentions a placeholder sees it when it
is narrowed.
-/

namespace TaggedLisp

/-- Types without parts. Everything agrees with `any`. -/
inductive BaseTy where
  | any
  | number
  | string
  | boolean
  | nil
  | list
  | vector
  deriving DecidableEq, Repr, Inhabited

/-- The name of a base type. -/
def BaseTy.name : BaseTy → String
  | any => "Any"
  | number => "Number"
  | string => "String"
  | boolean => "Boolean"
  | nil => "Nil"
  | list => "List"
  | vector => "Vector"

/-- A type. The rest type of a function is that of the surplus arguments it takes, if it takes
any. -/
inductive Ty where
  | base (base : BaseTy)
  | fn (params : List Ty) (rest : Option Ty) (ret : Ty)
  | var (index : Nat)
  deriving Repr, Inhabited

namespace Ty

abbrev any : Ty := base .any
abbrev number : Ty := base .number
abbrev string : Ty := base .string
abbrev boolean : Ty := base .boolean
abbrev nil : Ty := base .nil
abbrev list : Ty := base .list
abbrev vector : Ty := base .vector

/-- Whether the type is `any` itself. -/
def isAny : Ty → Bool
  | base .any => true
  | _ => false

/-- The type of a sequence of the given shape. -/
def ofShape : Shape → Ty
  | .list => list
  | .vector => vector

/-! ## Putting types for placeholders -/

mutual

/-- Puts `σ v` for every placeholder `v`. -/
def subst (σ : Nat → Ty) : Ty → Ty
  | base b => base b
  | fn params rest ret => fn (substAll σ params) (substRest σ rest) (ret.subst σ)
  | var v => σ v

/-- `subst` on each parameter. -/
def substAll (σ : Nat → Ty) : List Ty → List Ty
  | [] => []
  | t :: ts => t.subst σ :: substAll σ ts

/-- `subst` on the rest type. -/
def substRest (σ : Nat → Ty) : Option Ty → Option Ty
  | none => none
  | some t => some (t.subst σ)

end

theorem substAll_eq_map (σ : Nat → Ty) (ts : List Ty) : substAll σ ts = ts.map (subst σ) := by
  induction ts with
  | nil => rfl
  | cons t ts ih => simp [substAll, ih]

theorem substRest_eq_map (σ : Nat → Ty) (t : Option Ty) : substRest σ t = t.map (subst σ) := by
  cases t <;> rfl

/-! ## Agreement -/

mutual

/-- Whether two types agree when nothing is known about their placeholders: `any` and placeholders
agree with every type, base types with themselves, and functions part by part. -/
def agrees (a b : Ty) : Bool :=
  match a with
  | var _ => true
  | base x =>
    match b with
    | var _ => true
    | base y => x == .any || y == .any || x == y
    | fn .. => x == .any
  | fn params rest ret =>
    match b with
    | var _ => true
    | base y => y == .any
    | fn params' rest' ret' =>
      agreesAll params params' && agreesRest rest rest' && ret.agrees ret'

/-- Agreement of two parameter lists: as many, and each with its counterpart. -/
def agreesAll : List Ty → List Ty → Bool
  | [], [] => true
  | t :: ts, u :: us => t.agrees u && agreesAll ts us
  | _, _ => false

/-- Agreement of two rest types: both or neither, and with each other. -/
def agreesRest : Option Ty → Option Ty → Bool
  | none, none => true
  | some t, some u => t.agrees u
  | _, _ => false

end

/-! ## Writing -/

mutual

/-- A type as text, with `name v` for the name of the placeholder `v`. -/
def render (name : Nat → String) : Ty → String
  | base b => b.name
  | fn params rest ret =>
    "(fn [" ++ String.intercalate " " (renderAll name params ++ renderRest name rest) ++ "] "
      ++ ret.render name ++ ")"
  | var v => "?" ++ name v

/-- The texts of the parameters. -/
def renderAll (name : Nat → String) : List Ty → List String
  | [] => []
  | t :: ts => t.render name :: renderAll name ts

/-- The text of the rest parameter, if there is one. -/
def renderRest (name : Nat → String) : Option Ty → List String
  | none => []
  | some t => ["& " ++ t.render name]

end

end Ty

end TaggedLisp
