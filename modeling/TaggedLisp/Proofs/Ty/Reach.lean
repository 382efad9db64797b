import TaggedLisp.Proofs.Ty.Expansion

/-!
# What a type depends on

The meaning of a type depends on the placeholders that stand in it, on those in the types that these
were resolved to, and so on. `TypeTable.Reaches` says which these are. An unresolved one among them
is found in the expansion (`mem_vars_expand`), so a type has the same expansion in a later table if
and only if none of those that it reached was resolved in between (`expand_eq_iff`).

A placeholder that is reached from its own type has no finite one. `TypeTable.Finite` says that
there are none of these; then nothing that is resolved is left in an expansion
(`Finite.unresolved_of_mem_expand`). Narrowing keeps that up unless it writes a type into a slot
that this type reaches (`finite_assign_iff`). That is more than to ask whether the chain of the type
ends in the slot.
-/

namespace TaggedLisp

namespace TypeTable

/-- Whether `t` depends on `v`: it stands in `t`, or in what is known of a placeholder in `t`. -/
inductive Reaches (T : TypeTable) : (t : Ty) → (v : Nat) → Prop where
  | here {t v} (h : v ∈ t.vars) : Reaches T t v
  | through {t w u v} (hw : w ∈ t.vars) (hu : T.resolved? w = some u) (h : Reaches T u v) :
      Reaches T t v

variable {T T' T₁ T₂ : TypeTable} {t t' u c : Ty} {v w : Nat} {n : Nat}

namespace Reaches

theorem extend (hT : T.Extends T') (h : T.Reaches t v) : T'.Reaches t v := by
  induction h with
  | here h => exact .here h
  | through hw hu _ ih => exact .through hw (hT hu) ih

theorem congr (hT : ∀ w, T'.resolved? w = T.resolved? w) : T'.Reaches t v ↔ T.Reaches t v :=
  ⟨extend fun w _ hw ↦ (hT w).symm.trans hw, extend fun w _ hw ↦ (hT w).trans hw⟩

/-- What is known of a placeholder that a type depends on belongs to what the type depends on. -/
theorem trans (h : T.Reaches t w) (hu : T.resolved? w = some u) (h' : T.Reaches u v) :
    T.Reaches t v := by
  induction h with
  | here hw => exact .through hw hu h'
  | through hw' hu' _ ih => exact .through hw' hu' (ih hu)

end Reaches

/-! ## Expansions -/

/-- To come to `v` one has to pass by a slot once at most. -/
theorem Reaches.forget (h : T.Reaches t v) (w : Nat) :
    (T.forget w).Reaches t v ∨ ∃ u, T.resolved? w = some u ∧ (T.forget w).Reaches u v := by
  induction h with
  | here h => exact .inl (.here h)
  | @through t w' u v hw' hu _ ih =>
    rcases ih with ih | ih
    · by_cases hww' : w = w'
      · subst hww'
        exact .inr ⟨u, hu, ih⟩
      · exact .inl (.through hw' (by rwa [resolved?_forget, if_neg hww']) ih)
    · exact .inr ih

theorem Reaches.mem_vars_expandWithin {vs : List Nat} (hin : T.ResolvedIn vs) (hn : vs.length ≤ n)
    (h : T.Reaches t v) (hv : T.resolved? v = none) : v ∈ (expandWithin n T t).vars := by
  induction n generalizing T t vs with
  | zero =>
    rw [hin.expandWithin_eq hn]
    cases h with
    | here h => exact h
    | through _ hu _ =>
      rw [List.eq_nil_of_length_eq_zero (Nat.le_zero.mp hn)] at hin
      cases hin _ _ hu
  | succ n ih =>
    cases h with
    | here h =>
      refine Ty.mem_vars_subst h ?_
      rw [hv]
      exact List.mem_singleton_self v
    | @through _ w u _ hw hu h =>
      refine Ty.mem_vars_subst hw ?_
      rw [hu]
      -- the slot of `w` is not needed any more behind it
      have hforget : (T.forget w).Reaches u v := by
        rcases h.forget w with h | ⟨u', hu', h⟩
        · exact h
        · rwa [Option.some.inj (hu.symm.trans hu')]
      have hlength := List.length_erase_of_mem (hin w u hu)
      refine ih (hin.forget w) (by omega) hforget ?_
      rw [resolved?_forget]
      split <;> [rfl; exact hv]

theorem reaches_of_mem_vars_expandWithin (hT : T₁.Extends T)
    (hv : v ∈ (expandWithin n T₁ t).vars) : T.Reaches t v := by
  induction n generalizing T₁ t with
  | zero => exact .here hv
  | succ n ih =>
    obtain ⟨w, hw, hv⟩ := Ty.exists_of_mem_vars_subst hv
    cases hu : T₁.resolved? w with
    | none =>
      rw [hu] at hv
      obtain rfl := List.mem_singleton.mp hv
      exact .here hw
    | some u =>
      rw [hu] at hv
      exact .through hw (hT hu) (ih (extends_of_forget hT w) hv)

/-- The unresolved placeholders of an expansion are those that the type depends on. -/
theorem mem_vars_expand (hv : T.resolved? v = none) :
    v ∈ (T.expand t).vars ↔ T.Reaches t v := by
  constructor
  · exact reaches_of_mem_vars_expandWithin (.refl T)
  · exact fun h ↦ h.mem_vars_expandWithin T.resolvedIn_range (Nat.le_of_eq List.length_range) hv

/-- A type that expands to a placeholder leads to it. -/
theorem leadsTo_of_expandWithin_eq (hT : T₁.Extends T) (h : expandWithin n T₁ t = .var v) :
    T.LeadsTo t (.var v) := by
  induction n generalizing T₁ t with
  | zero =>
    obtain rfl : t = .var v := h
    exact .refl
  | succ n ih =>
    cases t with
    | base | fn => cases h
    | var w =>
      rw [expandWithin_succ_var] at h
      cases hu : T₁.resolved? w with
      | none =>
        rw [hu] at h
        obtain rfl : w = v := Ty.var.inj h
        exact .refl
      | some u =>
        rw [hu] at h
        exact .step (hT hu) (ih (extends_of_forget hT w) h)

/-- A chain visits the resolved placeholders that the type leads to. -/
theorem LeadsTo.mem_of_chain {e : Ty} {vs : List Nat} (h : T.LeadsTo t (.var v))
    (hchain : T.Chain t vs e) (hu : T.resolved? v = some u) : v ∈ vs := by
  generalize ht : Ty.var v = s at h
  induction h generalizing vs with
  | refl =>
    subst ht
    cases hchain with
    | done hends => rw [hends v rfl] at hu; cases hu
    | step _ _ => exact List.mem_cons_self
  | step hw _ ih =>
    cases hchain with
    | done hends => rw [hends _ rfl] at hw; cases hw
    | step hw' hrest =>
      obtain rfl := Option.some.inj (hw.symm.trans hw')
      exact List.mem_cons_of_mem _ (ih hrest ht)

/-- What is written in a slot does not lead back to it. -/
theorem ChainsEnd.not_leadsTo (hT : T.ChainsEnd) (hu : T.resolved? v = some u) :
    ¬ T.LeadsTo u (.var v) := by
  intro hlead
  obtain ⟨vs, e, hchain⟩ := hT u
  exact (List.nodup_cons.mp (Chain.step hu hchain).nodup).1 (hlead.mem_of_chain hchain hu)

/-- If a type expands alike in a table in which more is written, nothing more is written in the
placeholders of the expansion. -/
theorem unresolved_of_expandWithin_eq {vs : List Nat} (hT : T.ChainsEnd) (hT₂ : T₂.Extends T)
    (hin : T₂.ResolvedIn vs) (hn : vs.length ≤ n) (h₁₂ : T₁.Extends T₂)
    (h : expandWithin n T₂ t = expandWithin n T₁ t) (hv : v ∈ (expandWithin n T₁ t).vars)
    (hnone : T₁.resolved? v = none) : T₂.resolved? v = none := by
  induction n generalizing T₁ T₂ t vs with
  | zero =>
    rw [List.eq_nil_of_length_eq_zero (Nat.le_zero.mp hn)] at hin
    exact Option.eq_none_iff_forall_not_mem.mpr fun u hu ↦ nomatch hin v u hu
  | succ n ih =>
    obtain ⟨w, hw, hvw⟩ := Ty.exists_of_mem_vars_subst hv
    have hsame := Ty.eq_of_subst_eq h hw
    cases hu₁ : T₁.resolved? w with
    | none =>
      rw [hu₁] at hvw hsame
      obtain rfl := List.mem_singleton.mp hvw
      cases hu₂ : T₂.resolved? v with
      | none => rfl
      | some u =>
        -- what was written expands to the placeholder itself, so its chain would be a ring
        rw [hu₂] at hsame
        exact absurd (leadsTo_of_expandWithin_eq (extends_of_forget hT₂ v) hsame)
          (hT.not_leadsTo (hT₂ hu₂))
    | some u =>
      have hu₂ := h₁₂ hu₁
      rw [hu₁] at hvw hsame
      rw [hu₂] at hsame
      have hne : w ≠ v := by
        rintro rfl
        rw [hu₁] at hnone
        cases hnone
      have hlength := List.length_erase_of_mem (hin w u hu₂)
      have hforget := ih (extends_of_forget hT₂ w) (hin.forget w) (by omega) (fun x u' hx ↦ ?_)
        hsame hvw (by rwa [resolved?_forget, if_neg hne])
      · rwa [resolved?_forget, if_neg hne] at hforget
      · rw [resolved?_forget] at hx ⊢
        split at hx
        · cases hx
        · next hx' => rw [if_neg hx', h₁₂ hx]

/-- A type expands in the same way in a table in which more is written if and only if nothing was
written into the unresolved placeholders that it depends on. -/
theorem expand_eq_iff (hT' : T'.ChainsEnd) (hT : T.Extends T') (hsize : T.size ≤ T'.size) :
    T'.expand t = T.expand t ↔
      ∀ v, T.Reaches t v → T.resolved? v = none → T'.resolved? v = none := by
  constructor
  · intro h v hreach hnone
    have hstable := T.expand_eq_expandWithin (t := t) hsize
    have hmem := (mem_vars_expand hnone).mpr hreach
    rw [hstable] at h hmem
    exact unresolved_of_expandWithin_eq hT' (.refl T') T'.resolvedIn_range
      (Nat.le_of_eq List.length_range) hT h hmem hnone
  · intro h
    exact expand_eq hT hsize fun v hv hnone ↦ h v ((mem_vars_expand hnone).mp hv) hnone

/-! ## Writing into a slot -/

/-- What is written into an unresolved slot adds what it depends on to all that depends on the slot.
-/
theorem reaches_assign_iff (hnone : T.resolved? v = none) (hsize : v < T.size) :
    (T.assign v c).Reaches t w ↔ T.Reaches t w ∨ T.Reaches t v ∧ T.Reaches c w := by
  have hwritten : (T.assign v c).resolved? v = some c := by
    rw [resolved?_assign, if_pos ⟨rfl, hsize⟩]
  have hT := extends_assign hnone c
  constructor
  · intro h
    induction h with
    | here h => exact .inl (.here h)
    | @through t w' u w hw' hu _ ih =>
      by_cases hvw' : v = w'
      · subst hvw'
        obtain rfl := Option.some.inj (hwritten.symm.trans hu)
        refine .inr ⟨.here hw', ?_⟩
        rcases ih with ih | ⟨-, ih⟩ <;> exact ih
      · rw [resolved?_assign, if_neg fun h ↦ hvw' h.1] at hu
        rcases ih with ih | ⟨ih, hc⟩
        · exact .inl (.through hw' hu ih)
        · exact .inr ⟨.through hw' hu ih, hc⟩
  · rintro (h | ⟨ht, hc⟩)
    · exact h.extend hT
    · exact (ht.extend hT).trans hwritten (hc.extend hT)

/-! ## Finite types -/

/-- Whether no placeholder is reached from its own type. -/
def Finite (T : TypeTable) : Prop := ∀ v u, T.resolved? v = some u → ¬ T.Reaches u v

namespace Finite

theorem empty : Finite .empty := fun _ _ h ↦ nomatch h

theorem congr (hT : ∀ w, T'.resolved? w = T.resolved? w) : T'.Finite ↔ T.Finite := by
  simp only [Finite, hT, Reaches.congr hT]

/-- What is put for the placeholders of a type is put for all of them: the walk through the slots
never comes back to one that it has used. -/
theorem unresolved_of_mem_expandWithin {vs : List Nat} (h : T.Finite) (hin : T₁.ResolvedIn vs)
    (hn : vs.length ≤ n) (hsame : ∀ w, T.Reaches t w → T₁.resolved? w = T.resolved? w)
    (hv : v ∈ (expandWithin n T₁ t).vars) : T.resolved? v = none := by
  induction n generalizing T₁ t vs with
  | zero =>
    rw [← hsame v (.here hv)]
    rw [List.eq_nil_of_length_eq_zero (Nat.le_zero.mp hn)] at hin
    exact Option.eq_none_iff_forall_not_mem.mpr fun u hu ↦ nomatch hin v u hu
  | succ n ih =>
    obtain ⟨w, hw, hv⟩ := Ty.exists_of_mem_vars_subst hv
    cases hu : T₁.resolved? w with
    | none =>
      rw [hu] at hv
      obtain rfl := List.mem_singleton.mp hv
      rwa [← hsame v (.here hw)]
    | some u =>
      rw [hu] at hv
      have hwu : T.resolved? w = some u := (hsame w (.here hw)).symm.trans hu
      have hlength := List.length_erase_of_mem (hin w u hu)
      refine ih (hin.forget w) (by omega) (fun x hx ↦ ?_) hv
      have hne : w ≠ x := by
        rintro rfl
        exact h w u hwu hx
      rw [resolved?_forget, if_neg hne]
      exact hsame x (.through hw hwu hx)

theorem unresolved_of_mem_expand (h : T.Finite) (hv : v ∈ (T.expand t).vars) :
    T.resolved? v = none :=
  h.unresolved_of_mem_expandWithin T.resolvedIn_range (Nat.le_of_eq List.length_range)
    (fun _ _ ↦ rfl) hv

end Finite

/-- Writing a type into an unresolved slot keeps all types finite if and only if the slot is not
reached from that type. -/
theorem finite_assign_iff (hnone : T.resolved? v = none) (hsize : v < T.size) :
    (T.assign v c).Finite ↔ T.Finite ∧ ¬ T.Reaches c v := by
  have hwritten : (T.assign v c).resolved? v = some c := by
    rw [resolved?_assign, if_pos ⟨rfl, hsize⟩]
  have hT := extends_assign hnone c
  constructor
  · intro h
    exact ⟨fun w u hu hreach ↦ h w u (hT hu) (hreach.extend hT),
      fun hreach ↦ h v c hwritten (hreach.extend hT)⟩
  · rintro ⟨h, hc⟩ w u hu hreach
    rw [reaches_assign_iff hnone hsize] at hreach
    by_cases hvw : v = w
    · subst hvw
      obtain rfl := Option.some.inj (hwritten.symm.trans hu)
      rcases hreach with hreach | ⟨hreach, -⟩ <;> exact hc hreach
    · rw [resolved?_assign, if_neg fun h ↦ hvw h.1] at hu
      rcases hreach with hreach | ⟨huv, hcw⟩
      · exact h w u hu hreach
      · exact hc (hcw.trans hu huv)

end TypeTable

end TaggedLisp
