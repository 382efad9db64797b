import TaggedLisp.Fault

/-!
# Passes

A pass walks a program with a state and may stop with a fault. The state that it had reached is kept
in either case: numbers drawn before a fault stay drawn, and what was written stays written.
-/

namespace TaggedLisp

/-- A computation with a state that may stop with a fault. -/
abbrev Pass (σ α : Type) := ExceptT Fault (StateM σ) α

namespace Pass

variable {σ τ α : Type}

/-- The outcome of a pass and the state it ends in. -/
def outcome (p : Pass σ α) (s : σ) : Except Fault α × σ := StateT.run (ExceptT.run p) s

/-- Stops with a fault. -/
def fail (cause : Cause) (line : Nat) : Pass σ α := throw ⟨cause, line⟩

@[simp] theorem outcome_pure (a : α) (s : σ) : (pure a : Pass σ α).outcome s = (.ok a, s) := rfl

/-- The second step starts where the first one ends, unless that stops with a fault. -/
theorem outcome_bind (p : Pass σ α) (f : α → Pass σ τ) (s : σ) :
    (p >>= f).outcome s =
      match p.outcome s with
      | (.ok a, t) => (f a).outcome t
      | (.error e, t) => (.error e, t) := by
  simp only [outcome, ExceptT.run_bind, StateT.run_bind]
  generalize StateT.run (ExceptT.run p) s = r
  rcases r with ⟨_ | _, _⟩ <;> rfl

@[simp] theorem outcome_fail (cause : Cause) (line : Nat) (s : σ) :
    (fail cause line : Pass σ α).outcome s = (.error ⟨cause, line⟩, s) := rfl

@[simp] theorem outcome_get (s : σ) : (get : Pass σ σ).outcome s = (.ok s, s) := rfl

@[simp] theorem outcome_set (s t : σ) : (set t : Pass σ PUnit).outcome s = (.ok ⟨⟩, t) := rfl

@[simp] theorem outcome_modify (f : σ → σ) (s : σ) :
    (modify f : Pass σ PUnit).outcome s = (.ok ⟨⟩, f s) := rfl

@[simp] theorem outcome_modifyGet (f : σ → α × σ) (s : σ) :
    (modifyGet f : Pass σ α).outcome s = (.ok (f s).1, (f s).2) := rfl

/-- Runs `body` from the state that `enter` makes. What follows, also after a fault, is the state
that `leave` makes of the states before and after. -/
def between (enter : σ → σ) (leave : (before after : σ) → σ) (body : Pass σ α) : Pass σ α :=
  ExceptT.mk fun s ↦
    let (r, t) := body.outcome (enter s)
    (r, leave s t)

theorem outcome_between (enter : σ → σ) (leave : σ → σ → σ) (body : Pass σ α) (s : σ) :
    (between enter leave body).outcome s =
      ((body.outcome (enter s)).1, leave s (body.outcome (enter s)).2) := rfl

end Pass

end TaggedLisp
