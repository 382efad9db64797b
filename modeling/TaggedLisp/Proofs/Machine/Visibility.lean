import TaggedLisp.Proofs.Machine.Correctness
import TaggedLisp.Proofs.Machine.Restoring

/-!
# What stays visible

Whatever comes of a translation, it leaves the scopes as they were, but for new global names. So a
translator that goes on after a fault sees what it saw before, and its global names stand for
closures as at the start.
-/

namespace TaggedLisp.Machine

/-- The translators that are come to from the start by translating expressions, with success or
without. -/
inductive Translator.Reached : Translator → Prop where
  | start (next : Nat) : Reached (.start next)
  | translate {t : Translator} (h : Reached t) (e : Expr) : Reached (e.translate.outcome t).2

/-- Only closures are visible to them. -/
theorem Translator.Reached.scopes_eq {t : Translator} (h : t.Reached) :
    ∃ ds, t.scopes = Scopes.empty.defineGlobals .static ds := by
  induction h with
  | start next => exact ⟨builtinClosures, scopes_start next⟩
  | @translate t _ e ih =>
    obtain ⟨ds, hds⟩ := ih
    obtain ⟨ds', hds', -⟩ := (e.translate_gains t).scopes
    exact ⟨ds ++ ds', by rw [hds', hds, Scopes.defineGlobals_append]⟩

/-- The variables that live on the stack live at the depths of words that were pushed. -/
structure Translator.Valid (t : Translator) : Prop where
  wellFormed : t.scopes.WellFormed
  slot : ∀ x k, t.scopes.locals.lookup x = some (.slot k) → 0 < k ∧ k ≤ t.activation.depth
  notGlobal : ∀ x k, t.scopes.globals.lookup x ≠ some (.slot k)

/-- Every translator in use is valid. -/
theorem Translator.Reached.valid {t : Translator} (h : t.Reached) : t.Valid := by
  obtain ⟨ds, hds⟩ := h.scopes_eq
  have hs : (Scopes.empty (α := Place)).WellFormed := Scopes.wellFormed_empty
  refine ⟨hds ▸ hs.defineGlobals _ ds, fun x k hk ↦ ?_, fun x k hk ↦ ?_⟩
  · rw [hds, Scopes.locals_defineGlobals] at hk
    cases hk
  · rw [hds, hs.globals_defineGlobals, ← List.map_reverse] at hk
    obtain ⟨l, -, hl⟩ := List.mem_map.mp (Scopes.mem_of_lookup (List.append_nil _ ▸ hk))
    cases hl

end TaggedLisp.Machine
