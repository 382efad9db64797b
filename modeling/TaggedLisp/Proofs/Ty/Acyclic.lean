import TaggedLisp.Proofs.Ty.Reach

/-!
# Types without cycles

A table may hold placeholders that are reached from their own types, and a type that depends on none
of these still has a finite meaning. `TypeTable.Acyclic` says so of a single type, whatever else is
in the table.

`expand` forgets a slot once it was used, so that it ends on every type. On the way down a type
without cycles no slot is met twice, and what was forgotten is not missed: a resolved placeholder
expands as its type does (`expand_of_resolved`), and a type as the end of its chain
(`Acyclic.expand_resolve`). In a later table the type is expanded further by expanding the
placeholders that were left (`Acyclic.expand_later`).
-/

namespace TaggedLisp

namespace TypeTable

/-- Whether no placeholder that `t` depends on is reached from its own type. -/
def Acyclic (T : TypeTable) (t : Ty) : Prop :=
  ∀ v u, T.Reaches t v → T.resolved? v = some u → ¬ T.Reaches u v

variable {T T' T₁ : TypeTable} {t u c : Ty} {v w : Nat} {n : Nat}

/-! ## What types on a chain depend on -/

theorem Reaches.of_subset (h : T.Reaches t v) (hsub : t.vars ⊆ u.vars) : T.Reaches u v := by
  cases h with
  | here hv => exact .here (hsub hv)
  | through hw hu h => exact .through (hsub hw) hu h

theorem LeadsTo.reaches (h : T.LeadsTo t c) (hv : T.Reaches c v) : T.Reaches t v := by
  induction h with
  | refl => exact hv
  | step hw _ ih => exact .through (List.mem_singleton_self _) hw (ih hv)

theorem leadsTo_resolveWithin (T : TypeTable) (n : Nat) (t : Ty) :
    T.LeadsTo t (T.resolveWithin n t) := by
  induction n generalizing t with
  | zero => exact .refl
  | succ n ih =>
    cases t with
    | base | fn => exact .refl
    | var v =>
      rw [resolveWithin]
      split
      · next u hu => exact .step hu (ih u)
      · exact .refl

theorem leadsTo_resolve (T : TypeTable) (t : Ty) : T.LeadsTo t (T.resolve t) :=
  T.leadsTo_resolveWithin T.size t

namespace Acyclic

theorem of_finite (h : T.Finite) (t : Ty) : T.Acyclic t := fun v u _ ↦ h v u

theorem of_reaches (h : T.Acyclic t) (hsub : ∀ v, T.Reaches u v → T.Reaches t v) : T.Acyclic u :=
  fun v w hv ↦ h v w (hsub v hv)

theorem of_subset (h : T.Acyclic t) (hsub : u.vars ⊆ t.vars) : T.Acyclic u :=
  h.of_reaches fun _ hv ↦ hv.of_subset hsub

theorem of_leadsTo (h : T.Acyclic t) (hlead : T.LeadsTo t c) : T.Acyclic c :=
  h.of_reaches fun _ ↦ hlead.reaches

theorem resolve (h : T.Acyclic t) : T.Acyclic (T.resolve t) := h.of_leadsTo (T.leadsTo_resolve t)

/-- A cycle stays when more is written. -/
theorem earlier (h : T'.Acyclic t) (hT : T.Extends T') : T.Acyclic t :=
  fun v u hv hu hcycle ↦ h v u (hv.extend hT) (hT hu) (hcycle.extend hT)

theorem notReaches (h : T.Acyclic (.var v)) (hu : T.resolved? v = some u) : ¬ T.Reaches u v :=
  h v u (.here (List.mem_singleton_self v)) hu

/-- The chain of a type without cycles comes to an end, since each slot on it is met once. -/
theorem chainWithin {vs : List Nat} (h : T.Acyclic t) (hin : T.ResolvedIn vs)
    (hn : vs.length ≤ n) : ∃ ws e, T.Chain t ws e := by
  induction n generalizing T t vs with
  | zero =>
    refine ⟨[], t, .done fun v _ ↦ Option.eq_none_iff_forall_not_mem.mpr fun u hu ↦ ?_⟩
    have hmem := hin v u hu
    rw [List.eq_nil_of_length_eq_zero (Nat.le_zero.mp hn)] at hmem
    cases hmem
  | succ n ih =>
    cases t with
    | base | fn => exact ⟨[], _, .done (ends_of_head nofun)⟩
    | var v =>
      cases hu : T.resolved? v with
      | none =>
        refine ⟨[], .var v, .done fun w hw ↦ ?_⟩
        rw [← Ty.var.inj hw, hu]
      | some u =>
        have hforget : (T.forget v).Extends T := extends_of_forget (.refl T) v
        have hlength := List.length_erase_of_mem (hin v u hu)
        have hacyclic : T.Acyclic u := h.of_leadsTo (.step hu .refl)
        obtain ⟨ws, e, he⟩ := ih (hacyclic.earlier hforget) (hin.forget v) (by omega)
        -- the chain does not come back to the slot that was forgotten
        have hends : T.Ends e := by
          rintro w rfl
          have hnone := he.ends w rfl
          rw [resolved?_forget] at hnone
          by_cases hvw : v = w
          · subst hvw
            exact absurd ((he.leadsTo.extend hforget).reaches (.here (List.mem_singleton_self v)))
              (h.notReaches hu)
          · rwa [if_neg hvw] at hnone
        exact ⟨v :: ws, e, .step hu (he.extend hforget hends)⟩

theorem ends_resolve (h : T.Acyclic t) : T.Ends (T.resolve t) := by
  obtain ⟨vs, e, he⟩ := h.chainWithin T.resolvedIn_range (Nat.le_refl _)
  rw [he.resolve_eq]
  exact he.ends

end Acyclic

/-! ## Expansions -/

/-- A type is expanded by expanding its placeholders. -/
theorem expand_eq_subst (T : TypeTable) (t : Ty) :
    T.expand t = t.subst fun v ↦ T.expand (.var v) := by
  simp only [expand]
  cases T.size with
  | zero => exact (Ty.subst_var t).symm
  | succ n => rfl

theorem expand_fn (T : TypeTable) (params : List Ty) (rest : Option Ty) (ret : Ty) :
    T.expand (.fn params rest ret) =
      .fn (params.map T.expand) (rest.map T.expand) (T.expand ret) := by
  rw [expand_eq_subst, Ty.subst, Ty.substAll_eq_map, Ty.substRest_eq_map, ← expand_eq_subst T ret]
  congr 1
  · exact List.map_congr_left fun t _ ↦ (T.expand_eq_subst t).symm
  · exact Option.map_congr fun t _ ↦ (T.expand_eq_subst t).symm

theorem expand_base (T : TypeTable) (b : BaseTy) : T.expand (.base b) = .base b :=
  T.expand_eq_subst (.base b)

theorem expand_of_unresolved (h : T.resolved? v = none) : T.expand (.var v) = .var v := by
  rw [expand]
  cases T.size with
  | zero => rfl
  | succ n => rw [expandWithin_succ_var, h]

/-- What a type does not depend on does not matter for its expansion. -/
theorem expandWithin_eq_of_reaches
    (h : ∀ w, T.Reaches t w → T₁.resolved? w = T.resolved? w) :
    expandWithin n T₁ t = expandWithin n T t := by
  induction n generalizing T T₁ t with
  | zero => rfl
  | succ n ih =>
    refine Ty.subst_congr fun v hv ↦ ?_
    rw [h v (.here hv)]
    cases hu : T.resolved? v with
    | none => rfl
    | some u =>
      refine ih fun w hw ↦ ?_
      rw [resolved?_forget, resolved?_forget,
        h w (.through hv hu (hw.extend (extends_of_forget (.refl T) v)))]

/-- A placeholder that is not reached from its own type expands as that type does. -/
theorem expand_of_resolved (hu : T.resolved? v = some u) (hv : ¬ T.Reaches u v) :
    T.expand (.var v) = T.expand u := by
  obtain ⟨n, hn⟩ : ∃ n, T.size = n + 1 :=
    ⟨T.size - 1, (Nat.succ_pred_eq_of_pos (Nat.zero_lt_of_lt (lt_size_of_resolved hu))).symm⟩
  have hin : (T.forget v).ResolvedIn ((List.range T.size).erase v) := T.resolvedIn_range.forget v
  have hlength := List.length_erase_of_mem (T.resolvedIn_range v u hu)
  rw [List.length_range] at hlength
  calc T.expand (.var v) = expandWithin n (T.forget v) u := by
        rw [expand, hn, expandWithin_succ_var, hu]
    _ = expandWithin T.size (T.forget v) u :=
        hin.expandWithin_stable (by omega) (by omega)
    _ = T.expand u := expandWithin_eq_of_reaches fun w hw ↦ by
        rw [resolved?_forget, if_neg]
        rintro rfl
        exact hv hw

namespace Acyclic

theorem expand_eq (h : T.Acyclic t) (hlead : T.LeadsTo t c) : T.expand t = T.expand c := by
  induction hlead with
  | refl => rfl
  | step hu _ ih =>
    rw [expand_of_resolved hu (h.notReaches hu)]
    exact ih (h.of_leadsTo (.step hu .refl))

/-- A type expands as the end of its chain does. -/
theorem expand_resolve (h : T.Acyclic t) : T.expand (T.resolve t) = T.expand t :=
  (h.expand_eq (T.leadsTo_resolve t)).symm

/-- What was expanded by what is known in an earlier table is expanded further. -/
theorem subst_expandWithin (hT : T₁.Extends T) (h : T.Acyclic t) (n : Nat) :
    ((expandWithin n T₁ t).subst fun v ↦ T.expand (.var v)) = T.expand t := by
  induction n generalizing T₁ t with
  | zero => exact (T.expand_eq_subst t).symm
  | succ n ih =>
    rw [expandWithin, Ty.subst_subst, T.expand_eq_subst t]
    refine Ty.subst_congr fun v hv ↦ ?_
    cases hu : T₁.resolved? v with
    | none => rfl
    | some u =>
      have hvar : T.Acyclic (.var v) := h.of_subset (List.cons_subset.mpr ⟨hv, List.nil_subset _⟩)
      rw [expand_of_resolved (hT hu) (hvar.notReaches (hT hu))]
      exact ih (extends_of_forget hT v) (hvar.of_leadsTo (.step (hT hu) .refl))

/-- In a later table, the placeholders that were left are expanded. -/
theorem expand_later (h : T'.Acyclic t) (hT : T.Extends T') :
    T'.expand t = (T.expand t).subst fun v ↦ T'.expand (.var v) :=
  (h.subst_expandWithin hT T.size).symm

end Acyclic

/-! ## Tables that are written in order -/

/-- If every slot mentions placeholders that were made before it, all types are finite. -/
theorem finite_of_over (h : ∀ v u, T.resolved? v = some u → u.Over v) : T.Finite := by
  have hreach : ∀ {t v n}, T.Reaches t v → t.Over n → v < n := by
    intro t v n hv
    induction hv generalizing n with
    | here hv => exact fun ht ↦ ht _ hv
    | through hw hu _ ih => exact fun ht ↦ Nat.lt_trans (ih (h _ _ hu)) (ht _ hw)
  exact fun v u hu hcycle ↦ Nat.lt_irrefl v (hreach hcycle (h v u hu))

end TypeTable

end TaggedLisp
