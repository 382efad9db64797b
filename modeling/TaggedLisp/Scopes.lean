/-!
# Scopes

The frames of a program's scopes stand in a row and are known by their numbers. A frame names the
frame in which a search goes on when it has no binding for a name. Frame zero holds the global
bindings and has no such parent.

A frame is opened at the end of the row when a construct is entered and dropped when it is left. Its
parent is usually the frame that was current before; the frame of a function body has the global
frame for its parent, so that the body sees nothing of the place where the function is written
except what is put into its own frame.
-/

namespace TaggedLisp

/-- The number of a frame. -/
abbrev ScopeId := Nat

/-- The frame of the global bindings. -/
def ScopeId.global : ScopeId := 0

/-- The bindings of one construct, the latest one first, and the frame to search next. -/
structure Frame (α : Type) where
  parent : Option ScopeId
  bindings : List (String × α)
  deriving Repr, Inhabited

/-- Binds `name` to `value`; an earlier binding of the name is hidden. -/
def Frame.define {α : Type} (f : Frame α) (name : String) (value : α) : Frame α :=
  { f with bindings := (name, value) :: f.bindings }

/-- The value that a name is bound to in the frame itself. -/
def Frame.lookup {α : Type} (f : Frame α) (name : String) : Option α := f.bindings.lookup name

theorem Frame.lookup_define {α : Type} (f : Frame α) (name other : String) (value : α) :
    (f.define name value).lookup other = if other = name then some value else f.lookup other := by
  by_cases h : other = name
  · simp [Frame.define, Frame.lookup, h]
  · simp [Frame.define, Frame.lookup, List.lookup_cons, h, beq_false_of_ne h]

/-- The open frames and the one in which a search starts. -/
structure Scopes (α : Type) where
  frames : List (Frame α)
  current : ScopeId
  deriving Repr, Inhabited

namespace Scopes

variable {α : Type}

/-- The global frame alone, without bindings. -/
def empty : Scopes α := ⟨[⟨none, []⟩], ScopeId.global⟩

/-- Whether no construct is open. -/
def isGlobal (s : Scopes α) : Bool := s.current == ScopeId.global

/-- Opens a frame whose searches go on in `parent`. -/
def enterFrom (s : Scopes α) (parent : ScopeId) : Scopes α :=
  ⟨s.frames ++ [⟨some parent, []⟩], s.frames.length⟩

/-- Opens a frame nested in the current one. -/
def enter (s : Scopes α) : Scopes α := s.enterFrom s.current

/-- Drops the current frame and all that were opened after it, and returns to the frame `saved`. -/
def exit (s : Scopes α) (saved : ScopeId) : Scopes α := ⟨s.frames.take s.current, saved⟩

/-- Binds a name in a frame. -/
def defineIn (s : Scopes α) (scope : ScopeId) (name : String) (value : α) : Scopes α :=
  { s with frames := s.frames.modify scope (·.define name value) }

@[simp] theorem current_defineIn (s : Scopes α) (scope : ScopeId) (name : String) (value : α) :
    (s.defineIn scope name value).current = s.current := rfl

@[simp] theorem length_frames_defineIn (s : Scopes α) (scope : ScopeId) (name : String)
    (value : α) : (s.defineIn scope name value).frames.length = s.frames.length := by
  simp [defineIn]

/-- Binds a name in the current frame. -/
def define (s : Scopes α) (name : String) (value : α) : Scopes α :=
  s.defineIn s.current name value

/-- Binds a name in the global frame. -/
def defineGlobal (s : Scopes α) (name : String) (value : α) : Scopes α :=
  s.defineIn ScopeId.global name value

/-- Leaving a frame right after it was opened undoes the opening. -/
theorem exit_enterFrom (s : Scopes α) (parent : ScopeId) :
    (s.enterFrom parent).exit s.current = s := by
  simp [enterFrom, exit]

/-- What was bound in a frame goes with it. -/
theorem exit_define_enterFrom (s : Scopes α) (parent : ScopeId) (name : String) (value : α) :
    ((s.enterFrom parent).define name value).exit s.current = s := by
  simp [enterFrom, exit, define, defineIn, List.take_modify, List.modify_eq_self]

/-- The frames that a search starting in `scope` visits, at most `n` of them. -/
def visibleWithin (frames : List (Frame α)) : (n : Nat) → ScopeId → List (ScopeId × Frame α)
  | 0, _ => []
  | n + 1, scope =>
    match frames[scope]? with
    | none => []
    | some f =>
      (scope, f) ::
        match f.parent with
        | none => []
        | some parent => visibleWithin frames n parent

/-- The frames that a search visits, innermost first. A parent stands before its children, so there
are no more of them than frames. -/
def visible (s : Scopes α) : List (ScopeId × Frame α) :=
  visibleWithin s.frames s.frames.length s.current

/-- The innermost visible value of a name and the frame that binds it. -/
def lookupWithScope (s : Scopes α) (name : String) : Option (α × ScopeId) :=
  s.visible.findSome? fun (scope, f) ↦ (f.lookup name).map (·, scope)

/-- The innermost visible value of a name. -/
def lookup (s : Scopes α) (name : String) : Option α :=
  (s.lookupWithScope name).map Prod.fst

/-- The latest binding in the current frame is the one that is seen. -/
theorem lookup_define_self {s : Scopes α} (h : s.current < s.frames.length) (name : String)
    (value : α) : (s.define name value).lookup name = some value := by
  obtain ⟨n, hn⟩ : ∃ n, s.frames.length = n + 1 :=
    ⟨_, (Nat.succ_pred_eq_of_pos (Nat.zero_lt_of_lt h)).symm⟩
  simp only [lookup, lookupWithScope, visible, define, length_frames_defineIn, current_defineIn]
  rw [hn]
  simp [visibleWithin, defineIn, h, Frame.lookup_define]

end Scopes

end TaggedLisp
