import TaggedLisp.Pass

/-!
# Outcomes of passes

A pass that ends without a fault went through all its steps. The lemmas below take such a pass apart
into the steps and the states between them. What can be said of the result without looking at the
states is said by `Gives`. Some things can be said of a pass whatever comes of it:
`Leads` relates the state in which it starts to the one that it leaves, also after a fault.
-/

namespace TaggedLisp.Pass

variable {σ τ α : Type}

theorem outcome_bind_of_ok {p : Pass σ α} {f : α → Pass σ τ} {s t : σ} {a : α}
    (h : p.outcome s = (.ok a, t)) : (p >>= f).outcome s = (f a).outcome t := by
  rw [outcome_bind, h]

theorem outcome_bind_ok {p : Pass σ α} {f : α → Pass σ τ} {s u : σ} {b : τ} :
    (p >>= f).outcome s = (.ok b, u) ↔
      ∃ a t, p.outcome s = (.ok a, t) ∧ (f a).outcome t = (.ok b, u) := by
  rw [outcome_bind]
  constructor
  · intro h
    split at h
    · next a t hp => exact ⟨a, t, hp, h⟩
    · cases h
  · rintro ⟨a, t, hp, h⟩
    rw [hp]
    exact h

/-- Whether a pass ends without a fault can be decided by running it. -/
theorem exists_outcome_ok {p : Pass σ α} {s : σ} (h : (p.outcome s).1.toBool = true) :
    ∃ a t, p.outcome s = (.ok a, t) := by
  rcases hs : p.outcome s with ⟨_ | a, t⟩
  · rw [hs] at h
    cases h
  · exact ⟨a, t, rfl⟩

theorem outcome_between_ok {enter : σ → σ} {leave : σ → σ → σ} {body : Pass σ α} {s u : σ} {a : α} :
    (between enter leave body).outcome s = (.ok a, u) ↔
      ∃ t, body.outcome (enter s) = (.ok a, t) ∧ leave s t = u := by
  rw [outcome_between, Prod.mk.injEq]
  constructor
  · rintro ⟨ha, hu⟩
    exact ⟨_, Prod.ext ha rfl, hu⟩
  · rintro ⟨t, ht, hu⟩
    rw [ht]
    exact ⟨rfl, hu⟩

/-! ## What a pass gives -/

/-- Whatever the state, a result of the pass satisfies `P`. -/
def Gives (p : Pass σ α) (P : α → Prop) : Prop :=
  ∀ ⦃s t : σ⦄ ⦃a : α⦄, p.outcome s = (.ok a, t) → P a

namespace Gives

variable {p : Pass σ α} {P : α → Prop}

theorem pure {a : α} (h : P a) : Gives (Pure.pure a : Pass σ α) P := by
  intro s t b hb
  cases hb
  exact h

theorem fail {cause : Cause} {line : Nat} : Gives (Pass.fail cause line : Pass σ α) P := by
  intro s t a h
  cases h

theorem bind {f : α → Pass σ τ} {Q : τ → Prop} (hp : Gives p P) (hf : ∀ a, P a → Gives (f a) Q) :
    Gives (p >>= f) Q := by
  intro s u b h
  obtain ⟨a, t, ha, h⟩ := outcome_bind_ok.mp h
  exact hf a (hp ha) h

theorem between {enter : σ → σ} {leave : σ → σ → σ} (h : Gives p P) :
    Gives (Pass.between enter leave p) P := by
  intro s u a ha
  obtain ⟨t, ht, -⟩ := outcome_between_ok.mp ha
  exact h ht

theorem trivial : Gives p fun _ ↦ True := fun _ _ _ _ ↦ True.intro

end Gives

/-! ## Whatever comes of a pass -/

/-- A pass leads from any state to one that is related to it. -/
def Leads (R : σ → σ → Prop) (p : Pass σ α) : Prop := ∀ s, R s (p.outcome s).2

namespace Leads

variable {R : σ → σ → Prop} {p : Pass σ α}

theorem pure (hR : ∀ s, R s s) (a : α) : Leads R (Pure.pure a : Pass σ α) := hR

theorem fail (hR : ∀ s, R s s) (cause : Cause) (line : Nat) :
    Leads R (Pass.fail cause line : Pass σ α) := hR

theorem bind (hR : ∀ s t u, R s t → R t u → R s u) {f : α → Pass σ τ} (h : Leads R p)
    (hf : ∀ a, Leads R (f a)) : Leads R (p >>= f) := by
  intro s
  have hp := h s
  rw [outcome_bind]
  rcases hs : p.outcome s with ⟨_ | a, t⟩ <;> rw [hs] at hp
  · exact hp
  · exact hR _ _ _ hp (hf a t)

end Leads

end TaggedLisp.Pass
