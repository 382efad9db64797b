import TaggedLisp.Proofs.Ty.Chain
import TaggedLisp.Proofs.Ty.Placeholders

/-!
# Whole types

`TypeTable.expand` puts all that is known for the placeholders of a type and forgets a slot once it
was used, so two expansions of one type may differ in how far they went. Where one of them stopped,
a placeholder stands, which agrees with everything; so two expansions by what one table says always
agree (`expandWithin_agrees`). Hence types whose chains meet satisfy each other
(`satisfies_of_meet`), and so do two types if the chain of one ends in `any` or in an unresolved
placeholder (`satisfies_of_loose_left`, `satisfies_of_loose_right`).

Two tables expand a type in the same way if the second only adds to the first and leaves the
placeholders alone that are still open in the expansion (`expand_eq`).
-/

namespace TaggedLisp

namespace TypeTable

variable {T T' T₁ T₂ : TypeTable} {t u e c a b : Ty} {v w : Nat} {n m : Nat}

/-! ## Agreement of expansions -/

theorem extends_of_forget (h : T₁.Extends T) (v : Nat) : (T₁.forget v).Extends T := by
  intro w u hw
  rw [resolved?_forget] at hw
  split at hw
  · cases hw
  · exact h hw

theorem expandWithin_succ_var (n : Nat) (T : TypeTable) (v : Nat) :
    expandWithin (n + 1) T (.var v) =
      match T.resolved? v with
      | some u => expandWithin n (T.forget v) u
      | none => .var v := rfl

/-- Two expansions of a type by what `T` says agree, however far they went. -/
theorem expandWithin_agrees (h₁ : T₁.Extends T) (h₂ : T₂.Extends T) :
    (expandWithin n T₁ t).agrees (expandWithin m T₂ t) = true := by
  induction n generalizing m T₁ T₂ t with
  | zero =>
    -- the type itself, which is what placeholders put for themselves give
    rw [expandWithin]
    nth_rewrite 1 [← Ty.subst_var t]
    cases m with
    | zero =>
      rw [expandWithin]
      nth_rewrite 2 [← Ty.subst_var t]
      exact Ty.agrees_subst (fun _ ↦ rfl) t
    | succ m => exact Ty.agrees_subst (fun _ ↦ rfl) t
  | succ n ih =>
    cases m with
    | zero =>
      rw [expandWithin, expandWithin]
      nth_rewrite 2 [← Ty.subst_var t]
      exact Ty.agrees_subst (fun v ↦ Ty.agrees_of_loose_right rfl _) t
    | succ m =>
      refine Ty.agrees_subst (fun v ↦ ?_) t
      cases hu₁ : T₁.resolved? v with
      | none => rfl
      | some u =>
        cases hu₂ : T₂.resolved? v with
        | none => exact Ty.agrees_of_loose_right rfl _
        | some u' =>
          obtain rfl := Option.some.inj ((h₁ hu₁).symm.trans (h₂ hu₂))
          exact ih (extends_of_forget h₁ v) (extends_of_forget h₂ v)

/-! ## Chains that meet -/

/-- The expansion of a type is loose or one of a type that its chain comes by. -/
theorem LeadsTo.expandWithin_cases (h : T.LeadsTo t c) (h₁ : T₁.Extends T) :
    (expandWithin n T₁ t).isLoose = true ∨
      ∃ m T₂, T₂.Extends T ∧ expandWithin n T₁ t = expandWithin m T₂ c := by
  induction h generalizing n T₁ with
  | refl => exact .inr ⟨n, T₁, h₁, rfl⟩
  | @step v u c hv _ ih =>
    cases n with
    | zero => exact .inl rfl
    | succ n =>
      rw [expandWithin_succ_var]
      cases hu : T₁.resolved? v with
      | none => exact .inl rfl
      | some u' =>
        obtain rfl := Option.some.inj (hv.symm.trans (h₁ hu))
        exact ih (extends_of_forget h₁ v)

/-- Types whose chains meet satisfy each other. -/
theorem satisfies_of_meet (ha : T.LeadsTo a c) (hb : T.LeadsTo b c) : T.satisfies a b = true := by
  rw [satisfies, expand, expand]
  rcases ha.expandWithin_cases (.refl T) with hloose | ⟨n, T₁, h₁, ha⟩
  · exact Ty.agrees_of_loose_left hloose _
  · rcases hb.expandWithin_cases (.refl T) with hloose | ⟨m, T₂, h₂, hb⟩
    · exact Ty.agrees_of_loose_right hloose _
    · rw [ha, hb]
      exact expandWithin_agrees h₁ h₂

theorem satisfies_refl (T : TypeTable) (t : Ty) : T.satisfies t t = true :=
  satisfies_of_meet .refl .refl

/-! ## Chains that end loose -/

theorem isLoose_expandWithin (h : e.isLoose = true) (hends : T.Ends e) (h₁ : T₁.Extends T) :
    (expandWithin n T₁ e).isLoose = true := by
  cases n with
  | zero => exact h
  | succ n =>
    cases e with
    | base b => exact h
    | fn => cases h
    | var v =>
      rw [expandWithin_succ_var]
      cases hv : T₁.resolved? v with
      | none => rfl
      | some u => cases (hends v rfl).symm.trans (h₁ hv)

theorem ChainsEnd.isLoose_expand (hT : T.ChainsEnd) (h : (T.resolve t).isLoose = true) :
    (T.expand t).isLoose = true := by
  rcases (hT.leadsTo t).expandWithin_cases (.refl T) with hloose | ⟨m, T₁, h₁, ht⟩
  · exact hloose
  · rw [expand, ht]
    exact isLoose_expandWithin h (hT.ends_resolve t) h₁

theorem ChainsEnd.satisfies_of_loose_left (hT : T.ChainsEnd) (h : (T.resolve a).isLoose = true)
    (b : Ty) : T.satisfies a b = true := Ty.agrees_of_loose_left (hT.isLoose_expand h) _

theorem ChainsEnd.satisfies_of_loose_right (hT : T.ChainsEnd) (h : (T.resolve b).isLoose = true)
    (a : Ty) : T.satisfies a b = true := Ty.agrees_of_loose_right (hT.isLoose_expand h) _

/-! ## Expansions in other tables -/

theorem expandWithin_of_unresolved (h : ∀ v, T.resolved? v = none) :
    expandWithin n T t = t := by
  cases n with
  | zero => rfl
  | succ n =>
    rw [expandWithin]
    exact (Ty.subst_congr fun v _ ↦ by rw [h v]).trans (Ty.subst_var t)

/-- Whether no slot but those in `vs` is resolved. -/
def ResolvedIn (T : TypeTable) (vs : List Nat) : Prop := ∀ v u, T.resolved? v = some u → v ∈ vs

theorem resolvedIn_range (T : TypeTable) : T.ResolvedIn (List.range T.size) := fun _ _ hu ↦
  List.mem_range.mpr (lt_size_of_resolved hu)

theorem ResolvedIn.expandWithin_eq {vs : List Nat} (h : T.ResolvedIn vs) (hvs : vs.length ≤ 0) :
    expandWithin n T t = t := by
  refine expandWithin_of_unresolved fun v ↦ Option.eq_none_iff_forall_not_mem.mpr fun u hu ↦ ?_
  have hmem := h v u hu
  rw [List.eq_nil_of_length_eq_zero (Nat.le_zero.mp hvs)] at hmem
  cases hmem

theorem ResolvedIn.forget {vs : List Nat} (h : T.ResolvedIn vs) (v : Nat) :
    (T.forget v).ResolvedIn (vs.erase v) := by
  intro w u hw
  rw [resolved?_forget] at hw
  split at hw
  · cases hw
  · next hne => exact (List.mem_erase_of_ne (Ne.symm hne)).mpr (h w u hw)

/-- Expanding goes no deeper than there are resolved slots. -/
theorem ResolvedIn.expandWithin_stable {vs : List Nat} (h : T.ResolvedIn vs) (hn : vs.length ≤ n)
    (hm : vs.length ≤ m) : expandWithin n T t = expandWithin m T t := by
  induction n generalizing m T t vs with
  | zero => rw [h.expandWithin_eq hn, h.expandWithin_eq hn]
  | succ n ih =>
    cases m with
    | zero => rw [h.expandWithin_eq hm, h.expandWithin_eq hm]
    | succ m =>
      refine Ty.subst_congr fun v _ ↦ ?_
      cases hv : T.resolved? v with
      | none => rfl
      | some u =>
        have hlength := List.length_erase_of_mem (h v u hv)
        exact ih (h.forget v) (by omega) (by omega)

theorem expand_eq_expandWithin (T : TypeTable) (hn : T.size ≤ n) :
    T.expand t = expandWithin n T t :=
  T.resolvedIn_range.expandWithin_stable (Nat.le_of_eq List.length_range)
    (by rwa [List.length_range])

/-- An expansion is the same in a table that adds nothing to the placeholders that are open in it.
-/
theorem expandWithin_congr (h : T₁.Extends T₂)
    (hopen : ∀ v ∈ (expandWithin n T₁ t).vars, T₁.resolved? v = none → T₂.resolved? v = none) :
    expandWithin n T₁ t = expandWithin n T₂ t := by
  induction n generalizing T₁ T₂ t with
  | zero => rfl
  | succ n ih =>
    refine Ty.subst_congr fun v hv ↦ ?_
    have hmem : ∀ w, w ∈ (expandWithin (n + 1) T₁ (.var v)).vars →
        w ∈ (expandWithin (n + 1) T₁ t).vars := fun w hw ↦ Ty.mem_vars_subst hv hw
    rw [expandWithin_succ_var] at hmem
    cases hu : T₁.resolved? v with
    | none =>
      rw [hu] at hmem
      rw [hopen v (hmem v (List.mem_singleton_self v)) hu]
    | some u =>
      rw [hu] at hmem
      rw [h hu]
      refine ih (fun w u' hw ↦ ?_) fun w hw hnone ↦ ?_
      · rw [resolved?_forget] at hw ⊢
        split at hw
        · cases hw
        · next hne => rw [if_neg hne, h hw]
      · rw [resolved?_forget] at hnone ⊢
        split at hnone
        · next heq => rw [if_pos heq]
        · next hne => rw [if_neg hne, hopen w (hmem w hw) hnone]

theorem expand_eq (hT : T.Extends T') (hsize : T.size ≤ T'.size)
    (hopen : ∀ v ∈ (T.expand t).vars, T.resolved? v = none → T'.resolved? v = none) :
    T'.expand t = T.expand t := by
  have hstable := T.expand_eq_expandWithin (t := t) hsize
  rw [hstable] at hopen ⊢
  exact (expandWithin_congr hT hopen).symm

end TypeTable

end TaggedLisp
