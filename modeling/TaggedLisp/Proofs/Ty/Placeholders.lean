import TaggedLisp.Ty

/-!
# Placeholders in types

Which placeholders stand in a type, what putting types for them does, and when the results agree.
A type holds lists of types, and what is proved of types is proved of the members of these lists on
the way; `Ty.memberInduction` hands over the induction hypothesis for the members.
-/

namespace TaggedLisp

namespace Ty

/-- What holds of a type whenever it holds of its parts holds of every type. -/
@[elab_as_elim]
theorem memberInduction {motive : Ty → Prop} (base : ∀ b, motive (.base b))
    (fn : ∀ params rest ret, (∀ t ∈ params, motive t) → (∀ t ∈ rest, motive t) → motive ret →
      motive (.fn params rest ret))
    (var : ∀ v, motive (.var v)) (t : Ty) : motive t :=
  @Ty.rec motive (fun ts ↦ ∀ t ∈ ts, motive t) (fun r ↦ ∀ t ∈ r, motive t) base fn var
    (List.forall_mem_nil _) (fun _ _ ht hts ↦ List.forall_mem_cons.mpr ⟨ht, hts⟩)
    nofun (fun _ ht _ h ↦ Option.some.inj h ▸ ht) t

/-! ## Occurrences -/

mutual

/-- The placeholders that stand in a type. -/
def vars : Ty → List Nat
  | base _ => []
  | fn params rest ret => varsAll params ++ (varsRest rest ++ ret.vars)
  | var v => [v]

/-- `vars` of each parameter. -/
def varsAll : List Ty → List Nat
  | [] => []
  | t :: ts => t.vars ++ varsAll ts

/-- `vars` of the rest type. -/
def varsRest : Option Ty → List Nat
  | none => []
  | some t => t.vars

end

theorem mem_varsAll {ts : List Ty} {v : Nat} : v ∈ varsAll ts ↔ ∃ t ∈ ts, v ∈ t.vars := by
  induction ts with
  | nil => simp [varsAll]
  | cons t ts ih => simp [varsAll, ih]

theorem mem_varsRest {r : Option Ty} {v : Nat} : v ∈ varsRest r ↔ ∃ t ∈ r, v ∈ t.vars := by
  cases r <;> simp [varsRest]

theorem mem_vars_fn {params : List Ty} {rest : Option Ty} {ret : Ty} {v : Nat} :
    v ∈ (fn params rest ret).vars ↔
      (∃ t ∈ params, v ∈ t.vars) ∨ (∃ t ∈ rest, v ∈ t.vars) ∨ v ∈ ret.vars := by
  rw [vars, List.mem_append, List.mem_append, mem_varsAll, mem_varsRest]

/-- Whether only the first `n` placeholders stand in a type. -/
def Over (n : Nat) (t : Ty) : Prop := ∀ v ∈ t.vars, v < n

theorem Over.mono {n m : Nat} {t : Ty} (h : t.Over n) (hnm : n ≤ m) : t.Over m :=
  fun v hv ↦ Nat.lt_of_lt_of_le (h v hv) hnm

theorem over_base (n : Nat) (b : BaseTy) : (base b).Over n := fun _ hv ↦ nomatch hv

theorem over_var {n v : Nat} : (var v).Over n ↔ v < n := by
  simp [Over, vars]

/-- What holds of the placeholders of a function type holds of those of its parts. -/
theorem forall_vars_fn {P : Nat → Prop} {params : List Ty} {rest : Option Ty} {ret : Ty} :
    (∀ v ∈ (fn params rest ret).vars, P v) ↔
      (∀ t ∈ params, ∀ v ∈ t.vars, P v) ∧ (∀ t ∈ rest, ∀ v ∈ t.vars, P v) ∧ ∀ v ∈ ret.vars, P v := by
  simp only [mem_vars_fn]
  constructor
  · intro h
    exact ⟨fun t ht v hv ↦ h v (.inl ⟨t, ht, hv⟩), fun t ht v hv ↦ h v (.inr (.inl ⟨t, ht, hv⟩)),
      fun v hv ↦ h v (.inr (.inr hv))⟩
  · rintro ⟨hparams, hrest, hret⟩ v (⟨t, ht, hv⟩ | ⟨t, ht, hv⟩ | hv)
    · exact hparams t ht v hv
    · exact hrest t ht v hv
    · exact hret v hv

theorem over_fn {n : Nat} {params : List Ty} {rest : Option Ty} {ret : Ty} :
    (fn params rest ret).Over n ↔
      (∀ t ∈ params, t.Over n) ∧ (∀ t ∈ rest, t.Over n) ∧ ret.Over n := forall_vars_fn

/-! ## Putting types for placeholders -/

variable {σ τ : Nat → Ty}

/-- Only what is put for the placeholders of a type matters. -/
theorem subst_congr {t : Ty} (h : ∀ v ∈ t.vars, σ v = τ v) : t.subst σ = t.subst τ := by
  induction t using memberInduction with
  | base b => rfl
  | var v => exact h v (List.mem_singleton_self v)
  | fn params rest ret ihparams ihrest ihret =>
    simp only [mem_vars_fn] at h
    simp only [subst, substAll_eq_map, substRest_eq_map]
    congr 1
    · exact List.map_congr_left fun t ht ↦ ihparams t ht fun v hv ↦ h v (.inl ⟨t, ht, hv⟩)
    · exact Option.map_congr fun t ht ↦ ihrest t ht fun v hv ↦ h v (.inr (.inl ⟨t, ht, hv⟩))
    · exact ihret fun v hv ↦ h v (.inr (.inr hv))

theorem subst_var (t : Ty) : t.subst var = t := by
  induction t using memberInduction with
  | base b => rfl
  | var v => rfl
  | fn params rest ret ihparams ihrest ihret =>
    simp only [subst, substAll_eq_map, substRest_eq_map, ihret]
    congr 1
    · exact (List.map_congr_left ihparams).trans (List.map_id _)
    · exact (Option.map_congr ihrest).trans Option.map_id'

/-- Putting types in what was put before is putting them in all at once. -/
theorem subst_subst (t : Ty) : (t.subst σ).subst τ = t.subst fun v ↦ (σ v).subst τ := by
  induction t using memberInduction with
  | base b => rfl
  | var v => rfl
  | fn params rest ret ihparams ihrest ihret =>
    simp only [subst, substAll_eq_map, substRest_eq_map, List.map_map, Option.map_map, ihret]
    congr 1
    · exact List.map_congr_left ihparams
    · exact Option.map_congr ihrest

/-- What stands in a type that is put for a placeholder stands in the result. -/
theorem mem_vars_subst {t : Ty} {v w : Nat} (hv : v ∈ t.vars) (hw : w ∈ (σ v).vars) :
    w ∈ (t.subst σ).vars := by
  induction t using memberInduction with
  | base b => cases hv
  | var u =>
    obtain rfl := List.mem_singleton.mp hv
    exact hw
  | fn params rest ret ihparams ihrest ihret =>
    simp only [subst, substAll_eq_map, substRest_eq_map, mem_vars_fn]
    rcases mem_vars_fn.mp hv with ⟨t, ht, hv⟩ | ⟨t, ht, hv⟩ | hv
    · exact .inl ⟨_, List.mem_map_of_mem ht, ihparams t ht hv⟩
    · exact .inr (.inl ⟨_, Option.mem_map_of_mem _ ht, ihrest t ht hv⟩)
    · exact .inr (.inr (ihret hv))

/-- What stands in the result stood in a type that was put for a placeholder. -/
theorem exists_of_mem_vars_subst {t : Ty} {w : Nat} (hw : w ∈ (t.subst σ).vars) :
    ∃ v ∈ t.vars, w ∈ (σ v).vars := by
  induction t using memberInduction with
  | base b => cases hw
  | var u => exact ⟨u, List.mem_singleton_self u, hw⟩
  | fn params rest ret ihparams ihrest ihret =>
    simp only [subst, substAll_eq_map, substRest_eq_map, mem_vars_fn] at hw
    rcases hw with ⟨_, ht, hw⟩ | ⟨_, ht, hw⟩ | hw
    · obtain ⟨t, hmem, rfl⟩ := List.mem_map.mp ht
      obtain ⟨v, hv, hw⟩ := ihparams t hmem hw
      exact ⟨v, mem_vars_fn.mpr (.inl ⟨t, hmem, hv⟩), hw⟩
    · obtain ⟨t, hmem, rfl⟩ := Option.map_eq_some_iff.mp ht
      obtain ⟨v, hv, hw⟩ := ihrest t hmem hw
      exact ⟨v, mem_vars_fn.mpr (.inr (.inl ⟨t, hmem, hv⟩)), hw⟩
    · obtain ⟨v, hv, hw⟩ := ihret hw
      exact ⟨v, mem_vars_fn.mpr (.inr (.inr hv)), hw⟩

/-- The result tells what was put for the placeholders of a type. -/
theorem eq_of_subst_eq {t : Ty} {v : Nat} (h : t.subst σ = t.subst τ) (hv : v ∈ t.vars) :
    σ v = τ v := by
  induction t using memberInduction with
  | base b => cases hv
  | var u =>
    obtain rfl := List.mem_singleton.mp hv
    exact h
  | fn params rest ret ihparams ihrest ihret =>
    simp only [subst, substAll_eq_map, substRest_eq_map, fn.injEq] at h
    obtain ⟨hparams, hrest, hret⟩ := h
    rcases mem_vars_fn.mp hv with ⟨t, ht, hvt⟩ | ⟨t, ht, hvt⟩ | hvret
    · exact ihparams t ht (List.map_inj_left.mp hparams t ht) hvt
    · obtain rfl : rest = some t := ht
      exact ihrest t rfl (Option.some.inj hrest) hvt
    · exact ihret hret hvret

/-! ## Agreement -/

/-- Whether a type is `any` or a placeholder, and so agrees with every type. -/
def isLoose : Ty → Bool
  | base .any | var _ => true
  | _ => false

theorem isLoose_of_isAny {a : Ty} (h : a.isAny = true) : a.isLoose = true := by
  cases a with
  | base x => cases x <;> trivial
  | fn | var => cases h

theorem agrees_of_loose_left {a : Ty} (h : a.isLoose = true) (b : Ty) : a.agrees b = true := by
  cases a with
  | base x =>
    cases x with
    | any => cases b <;> rfl
    | _ => cases h
  | fn => cases h
  | var v => rfl

theorem agrees_of_loose_right {b : Ty} (h : b.isLoose = true) (a : Ty) : a.agrees b = true := by
  cases b with
  | base y =>
    cases y with
    | any => cases a <;> simp [agrees]
    | _ => cases h
  | fn => cases h
  | var v => cases a <;> rfl

theorem agreesAll_map {f g : Ty → Ty} {ts : List Ty} (h : ∀ t ∈ ts, (f t).agrees (g t) = true) :
    agreesAll (ts.map f) (ts.map g) = true := by
  induction ts with
  | nil => rfl
  | cons t ts ih =>
    obtain ⟨ht, hts⟩ := List.forall_mem_cons.mp h
    simp [agreesAll, ht, ih hts]

theorem agreesRest_map {f g : Ty → Ty} {r : Option Ty} (h : ∀ t ∈ r, (f t).agrees (g t) = true) :
    agreesRest (r.map f) (r.map g) = true := by
  cases r with
  | none => rfl
  | some t => exact h t rfl

/-- A type agrees with itself whatever is put for its placeholders, if that agrees. -/
theorem agrees_subst (h : ∀ v, (σ v).agrees (τ v) = true) (t : Ty) :
    (t.subst σ).agrees (t.subst τ) = true := by
  induction t using memberInduction with
  | base b => cases b <;> rfl
  | var v => exact h v
  | fn params rest ret ihparams ihrest ihret =>
    simp only [subst, substAll_eq_map, substRest_eq_map, agrees, Bool.and_eq_true]
    exact ⟨⟨agreesAll_map ihparams, agreesRest_map ihrest⟩, ihret⟩

/-! ## Other numbers for placeholders -/

section

variable (f : Nat → Nat)

theorem agreesAll_map_eq {F G : Ty → Ty} {ts us : List Ty}
    (h : ∀ t ∈ ts, ∀ u, (F t).agrees (G u) = t.agrees u) :
    agreesAll (ts.map F) (us.map G) = agreesAll ts us := by
  induction ts generalizing us with
  | nil => cases us <;> rfl
  | cons t ts ih =>
    obtain ⟨ht, hts⟩ := List.forall_mem_cons.mp h
    cases us with
    | nil => rfl
    | cons u us => simp only [List.map_cons, agreesAll, ht, ih hts]

/-- Agreement does not depend on which placeholders stand in the types. -/
theorem agrees_subst_var (a b : Ty) :
    (a.subst fun v ↦ var (f v)).agrees (b.subst fun v ↦ var (f v)) = a.agrees b := by
  induction a using memberInduction generalizing b with
  | base x => cases b <;> rfl
  | var v => rfl
  | fn params rest ret ihparams ihrest ihret =>
    cases b with
    | base y => rfl
    | var v => rfl
    | fn params' rest' ret' =>
      simp only [subst, substAll_eq_map, substRest_eq_map, agrees, agreesAll_map_eq ihparams, ihret]
      congr 2
      cases rest with
      | none => cases rest' <;> rfl
      | some t => cases rest' with
        | none => rfl
        | some u => exact ihrest t rfl u

theorem renderAll_eq_map (name : Nat → String) (ts : List Ty) :
    renderAll name ts = ts.map (render name) := by
  induction ts with
  | nil => rfl
  | cons t ts ih => rw [renderAll, ih, List.map_cons]

/-- A type is written alike with other placeholders of the same names. -/
theorem render_subst_var {name name' : Nat → String} {t : Ty}
    (h : ∀ v ∈ t.vars, name' (f v) = name v) :
    (t.subst fun v ↦ var (f v)).render name' = t.render name := by
  induction t using memberInduction with
  | base b => rfl
  | var v => exact congrArg ("?" ++ ·) (h v (List.mem_singleton_self v))
  | fn params rest ret ihparams ihrest ihret =>
    obtain ⟨hparams, hrest, hret⟩ := forall_vars_fn.mp h
    have hall : (params.map (subst fun v ↦ var (f v))).map (render name') =
        params.map (render name) := by
      rw [List.map_map]
      exact List.map_congr_left fun t ht ↦ ihparams t ht (hparams t ht)
    have hone : renderRest name' (rest.map (subst fun v ↦ var (f v))) = renderRest name rest := by
      cases rest with
      | none => rfl
      | some t => simp only [Option.map_some, renderRest, ihrest t rfl (hrest t rfl)]
    simp only [subst, substAll_eq_map, substRest_eq_map, render, renderAll_eq_map, hall, hone,
      ihret hret]

end

end Ty

end TaggedLisp
