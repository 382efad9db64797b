import TaggedLisp.Ty

/-!
# What is known about placeholders

A `TypeTable` has a slot for each placeholder. A fresh slot is open: narrowing may write a type into
it, once. That type may again be a placeholder, so a type has a chain of placeholders that ends in a
type with a head or in an unresolved placeholder; `resolve` walks it. No chain visits more slots
than there are, which bounds the walk.

`expand` puts what is known for all placeholders inside a type. On its way down it forgets a slot
once it has used it, so it comes to an end even when a function type mentions itself, as the type of
`x` in `(fn [x] (x x))` does; there the inner mention stays a placeholder.
-/

namespace TaggedLisp

/-- What is known about one placeholder. -/
structure Slot where
  /-- The name by which an unresolved placeholder is displayed. -/
  name : String
  resolved : Option Ty
  /-- Whether the slot may still be narrowed. -/
  narrowable : Bool
  deriving Repr, Inhabited

/-- The slots of all placeholders made so far. -/
structure TypeTable where
  slots : Array Slot
  deriving Repr, Inhabited

/-- Why a type could not be narrowed. -/
inductive NarrowFault where
  | incompatible
  | frozen
  deriving DecidableEq, Repr, Inhabited

namespace TypeTable

/-- The table without placeholders. -/
def empty : TypeTable := ⟨#[]⟩

/-- The number of placeholders. -/
def size (T : TypeTable) : Nat := T.slots.size

/-- A new open placeholder. -/
def fresh (T : TypeTable) (name : String) : Ty × TypeTable :=
  (.var T.size, ⟨T.slots.push ⟨name, none, true⟩⟩)

/-- The type written into the slot of `v`. -/
def resolved? (T : TypeTable) (v : Nat) : Option Ty := T.slots[v]?.bind Slot.resolved

/-- The name of a placeholder. -/
def name (T : TypeTable) (v : Nat) : String := (T.slots[v]?.map Slot.name).getD ""

/-- Whether the slot of `v` may still be narrowed. -/
def isNarrowable (T : TypeTable) (v : Nat) : Bool := (T.slots[v]?.map Slot.narrowable).getD false

/-- Writes `t` into the slot of `v`. -/
def assign (T : TypeTable) (v : Nat) (t : Ty) : TypeTable :=
  ⟨T.slots.modify v fun s ↦ { s with resolved := some t }⟩

/-- Empties the slot of `v`. -/
def forget (T : TypeTable) (v : Nat) : TypeTable :=
  ⟨T.slots.modify v fun s ↦ { s with resolved := none }⟩

/-- Closes the slot of `v` to narrowing. -/
def close (T : TypeTable) (v : Nat) : TypeTable :=
  ⟨T.slots.modify v fun s ↦ { s with narrowable := false }⟩

/-! ## Slots after a step -/

@[simp] theorem size_fresh (T : TypeTable) (name : String) :
    (T.fresh name).2.size = T.size + 1 := by
  simp [fresh, size]

@[simp] theorem size_assign (T : TypeTable) (v : Nat) (t : Ty) : (T.assign v t).size = T.size := by
  simp [assign, size]

@[simp] theorem size_forget (T : TypeTable) (v : Nat) : (T.forget v).size = T.size := by
  simp [forget, size]

@[simp] theorem size_close (T : TypeTable) (v : Nat) : (T.close v).size = T.size := by
  simp [close, size]

/-- A new placeholder has no type yet, and the others keep theirs. -/
theorem resolved?_fresh (T : TypeTable) (name : String) (w : Nat) :
    (T.fresh name).2.resolved? w = T.resolved? w := by
  simp only [fresh, resolved?, Array.getElem?_push]
  split
  · next h => subst h; simp
  · rfl

theorem resolved?_assign (T : TypeTable) (v w : Nat) (t : Ty) :
    (T.assign v t).resolved? w = if v = w ∧ v < T.size then some t else T.resolved? w := by
  simp only [assign, resolved?, size, Array.getElem?_modify]
  by_cases h : v = w
  · subst h
    by_cases hv : v < T.slots.size <;> simp [hv]
  · simp [h]

theorem resolved?_forget (T : TypeTable) (v w : Nat) :
    (T.forget v).resolved? w = if v = w then none else T.resolved? w := by
  simp only [forget, resolved?, Array.getElem?_modify]
  split
  · cases T.slots[w]? <;> rfl
  · rfl

@[simp] theorem resolved?_close (T : TypeTable) (v w : Nat) :
    (T.close v).resolved? w = T.resolved? w := by
  simp only [close, resolved?, Array.getElem?_modify]
  split
  · cases T.slots[w]? <;> rfl
  · rfl

theorem isNarrowable_close (T : TypeTable) (v w : Nat) :
    (T.close v).isNarrowable w = (decide (v ≠ w) && T.isNarrowable w) := by
  simp only [close, isNarrowable, Array.getElem?_modify]
  by_cases h : v = w
  · subst h
    cases T.slots[v]? <;> simp
  · simp [h]

@[simp] theorem isNarrowable_assign (T : TypeTable) (v w : Nat) (t : Ty) :
    (T.assign v t).isNarrowable w = T.isNarrowable w := by
  simp only [assign, isNarrowable, Array.getElem?_modify]
  split
  · cases T.slots[w]? <;> rfl
  · rfl

/-! ## Chains -/

/-- The end of the chain of `t`, after at most `n` slots. -/
def resolveWithin (T : TypeTable) : (n : Nat) → Ty → Ty
  | 0, t => t
  | n + 1, t =>
    match t with
    | .var v =>
      match T.resolved? v with
      | some u => T.resolveWithin n u
      | none => .var v
    | t => t

/-- The end of the chain of `t`: a type with a head, or an unresolved placeholder. -/
def resolve (T : TypeTable) (t : Ty) : Ty := T.resolveWithin T.size t

/-- The unresolved placeholder at the end of the chain of `t`, if it ends in one. -/
def openVar? (T : TypeTable) (t : Ty) : Option Nat :=
  match T.resolve t with
  | .var v => some v
  | _ => none

/-- Closes the first `n` slots on the chain of `t` to narrowing. -/
def freezeWithin : (n : Nat) → TypeTable → Ty → TypeTable
  | 0, T, _ => T
  | n + 1, T, t =>
    match t with
    | .var v =>
      match T.resolved? v with
      | some u => freezeWithin n (T.close v) u
      | none => T.close v
    | _ => T

/-- Closes every slot on the chain of `t` to narrowing. -/
def freeze (T : TypeTable) (t : Ty) : TypeTable := freezeWithin T.size T t

/-! ## Whole types -/

/-- `t` with what is known put for its placeholders, through at most `n` slots on each way down. -/
def expandWithin : (n : Nat) → TypeTable → Ty → Ty
  | 0, _, t => t
  | n + 1, T, t =>
    t.subst fun v ↦
      match T.resolved? v with
      | some u => expandWithin n (T.forget v) u
      | none => .var v

/-- `t` with all that is known put for its placeholders. -/
def expand (T : TypeTable) (t : Ty) : Ty := expandWithin T.size T t

/-- Whether two types agree in all that is known about them. -/
def satisfies (T : TypeTable) (actual expected : Ty) : Bool :=
  (T.expand actual).agrees (T.expand expected)

/-- A type as it is displayed. -/
def display (T : TypeTable) (t : Ty) : String := (T.expand t).render T.name

/-! ## Narrowing -/

/-- Narrows `actual` towards `constraint`, and answers the narrower of the two. A constraint that
is `any` asks for nothing. An open placeholder at the end of the chain of `actual` is resolved to
the constraint, unless the constraint ends in that same placeholder. -/
def narrow (T : TypeTable) (actual constraint : Ty) : Except NarrowFault (Ty × TypeTable) :=
  if (T.resolve constraint).isAny then .ok (actual, T)
  else if !T.satisfies actual constraint then .error .incompatible
  else
    match T.openVar? actual with
    | none => .ok (constraint, T)
    | some v =>
      if T.openVar? constraint = some v then .ok (constraint, T)
      else if T.isNarrowable v then .ok (constraint, T.assign v constraint)
      else .error .frozen

end TypeTable

end TaggedLisp
