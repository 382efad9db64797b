/-!
# Dialogues

What a computation does, as far as its surroundings can see it: it asks questions, goes on with the
answers, and in the end gives a result or stops without one. Nothing is said about who answers, so
two computations with equal dialogues ask the same questions in the same order whatever the answers
are.

A question has a type of answers of its own. A question whose answers carry nothing only announces
that something happens.

Two dialogues whose results are not equal but correspond are compared by `Dialogue.Rel`. Where they
may not stop, relating a computation to another one also shows that it comes to an end.
`Dialogue.Keeps` says of a single dialogue what it asks and comes to as long as it gets answers of a
certain kind.
-/

namespace TaggedLisp

/-- A computation with a result in `α` that asks questions in `ι`. -/
inductive Dialogue {ι : Type} (Answer : ι → Type) (α : Type) where
  | done (result : α)
  /-- The computation ends without a result. -/
  | stop
  | ask (question : ι) (next : Answer question → Dialogue Answer α)

namespace Dialogue

variable {ι : Type} {Answer : ι → Type} {α β γ δ : Type}

/-- Goes on with `f` where `d` has a result. -/
protected def bind : Dialogue Answer α → (α → Dialogue Answer β) → Dialogue Answer β
  | done a, f => f a
  | stop, _ => stop
  | ask q k, f => ask q fun r ↦ (k r).bind f

instance : Monad (Dialogue Answer) where
  pure := done
  bind := Dialogue.bind

@[simp] theorem pure_eq_done (a : α) : (pure a : Dialogue Answer α) = done a := rfl

@[simp] theorem done_bind (a : α) (f : α → Dialogue Answer β) : done a >>= f = f a := rfl

@[simp] theorem stop_bind (f : α → Dialogue Answer β) :
    (stop : Dialogue Answer α) >>= f = stop := rfl

@[simp] theorem ask_bind (q : ι) (k : Answer q → Dialogue Answer α) (f : α → Dialogue Answer β) :
    ask q k >>= f = ask q fun r ↦ k r >>= f := rfl

theorem bind_done (d : Dialogue Answer α) : d >>= done = d := by
  induction d with
  | done a => rfl
  | stop => rfl
  | ask q k ih => rw [ask_bind, funext ih]

theorem bind_assoc (d : Dialogue Answer α) (f : α → Dialogue Answer β)
    (g : β → Dialogue Answer γ) : d >>= f >>= g = d >>= fun a ↦ f a >>= g := by
  induction d with
  | done a => rfl
  | stop => rfl
  | ask q k ih =>
    rw [ask_bind, ask_bind, ask_bind]
    exact congrArg (ask q) (funext ih)

instance : LawfulMonad (Dialogue Answer) :=
  LawfulMonad.mk' _ bind_done (fun _ _ ↦ rfl) bind_assoc

/-! ## Corresponding results -/

/-- Both dialogues ask the same questions, and whatever is answered, they come to results that `R`
relates. That both stop is allowed only if `stops` holds. -/
inductive Rel (stops : Prop) (R : α → β → Prop) : Dialogue Answer α → Dialogue Answer β → Prop where
  | done {a : α} {b : β} (h : R a b) : Rel stops R (.done a) (.done b)
  | stop (h : stops) : Rel stops R .stop .stop
  | ask {q : ι} {k : Answer q → Dialogue Answer α} {k' : Answer q → Dialogue Answer β}
      (h : ∀ r, Rel stops R (k r) (k' r)) : Rel stops R (.ask q k) (.ask q k')

/-- Whatever is answered, the dialogue comes to a result. -/
def Total (d : Dialogue Answer α) : Prop := Rel False (· = ·) d d

namespace Rel

variable {stops : Prop} {R : α → β → Prop} {d : Dialogue Answer α} {d' : Dialogue Answer β}

theorem mono {S : α → β → Prop} (h : Rel stops R d d') (hRS : ∀ a b, R a b → S a b) :
    Rel stops S d d' := by
  induction h with
  | done h => exact .done (hRS _ _ h)
  | stop h => exact .stop h
  | ask _ ih => exact .ask ih

theorem bind {S : γ → δ → Prop} {f : α → Dialogue Answer γ} {g : β → Dialogue Answer δ}
    (h : Rel stops R d d') (hfg : ∀ a b, R a b → Rel stops S (f a) (g b)) :
    Rel stops S (d >>= f) (d' >>= g) := by
  induction h with
  | done h => exact hfg _ _ h
  | stop h => exact .stop h
  | ask _ ih => exact .ask ih

theorem map {S : γ → β → Prop} {f : α → γ} (h : Rel stops R d d')
    (hf : ∀ a b, R a b → S (f a) b) : Rel stops S (d >>= fun a ↦ .done (f a)) d' := by
  rw [← bind_done d']
  exact h.bind fun a b hab ↦ .done (hf a b hab)

theorem refl (h : stops) (d : Dialogue Answer α) : Rel stops (· = ·) d d := by
  induction d with
  | done a => exact .done rfl
  | stop => exact .stop h
  | ask q k ih => exact .ask ih

/-- Dialogues that come to equal results are equal. -/
theorem eq {d e : Dialogue Answer α} (h : Rel stops (· = ·) d e) : d = e := by
  induction h with
  | done h => rw [h]
  | stop _ => rfl
  | ask _ ih => rw [funext ih]

end Rel

/-! ## What is asked -/

/-- The dialogue asks `q` at some point, if everything before is answered in ways that are allowed.
-/
inductive Asks (allowed : ∀ q : ι, Answer q → Prop) (q : ι) : Dialogue Answer α → Prop where
  | here {k : Answer q → Dialogue Answer α} : Asks allowed q (.ask q k)
  | later {q' : ι} {k : Answer q' → Dialogue Answer α} {r : Answer q'} (hr : allowed q' r)
      (h : Asks allowed q (k r)) : Asks allowed q (.ask q' k)

/-- As long as the answers are allowed, only questions that satisfy `P` are asked, and the result
satisfies `R` if there is one. -/
inductive Keeps (allowed : ∀ q : ι, Answer q → Prop) (P : ι → Prop) (R : α → Prop) :
    Dialogue Answer α → Prop where
  | done {a : α} (h : R a) : Keeps allowed P R (.done a)
  | stop : Keeps allowed P R .stop
  | ask {q : ι} {k : Answer q → Dialogue Answer α} (hq : P q)
      (h : ∀ r, allowed q r → Keeps allowed P R (k r)) : Keeps allowed P R (.ask q k)

namespace Keeps

variable {allowed : ∀ q : ι, Answer q → Prop} {P : ι → Prop} {R : α → Prop}
  {d : Dialogue Answer α}

theorem bind {S : β → Prop} {f : α → Dialogue Answer β} (h : Keeps allowed P R d)
    (hf : ∀ a, R a → Keeps allowed P S (f a)) : Keeps allowed P S (d >>= f) := by
  induction h with
  | done h => exact hf _ h
  | stop => exact .stop
  | ask hq _ ih => exact .ask hq ih

theorem asks {q : ι} (h : Keeps allowed P R d) (hq : Asks allowed q d) : P q := by
  induction hq with
  | here => cases h with | ask hq _ => exact hq
  | later hr _ ih => cases h with | ask _ h => exact ih (h _ hr)

end Keeps

end Dialogue

end TaggedLisp
