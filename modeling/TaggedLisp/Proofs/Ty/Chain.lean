import Mathlib.Data.List.Perm.Subperm
import TaggedLisp.Ty.Table

/-!
# Chains of placeholders

A placeholder that was narrowed to another one leads on to it, and so on. `TypeTable.resolve` walks
along such a chain and stops after as many slots as the table has. `Chain` describes the walk
without a bound. A chain never visits a slot twice, since it would never end otherwise; so the bound
is never reached, and `Chain.resolve_eq` says that `resolve` finds the end.

That all chains end is kept by everything that is done with a table. Narrowing writes into the slot
at the end of one chain, and not where the chain of the constraint ends, so no chain is closed to a
ring.
-/

namespace TaggedLisp

namespace TypeTable

/-! ## Chains -/

/-- Whether a chain ends in `e`: it has a head or is an unresolved placeholder. -/
def Ends (T : TypeTable) (e : Ty) : Prop := ∀ v, e = .var v → T.resolved? v = none

/-- The chain of `t` visits the placeholders `vs`, each of which is resolved, and ends in `e`. -/
inductive Chain (T : TypeTable) : (t : Ty) → (vs : List Nat) → (e : Ty) → Prop where
  | done {e} (h : T.Ends e) : Chain T e [] e
  | step {v u vs e} (h : T.resolved? v = some u) (hu : Chain T u vs e) :
      Chain T (.var v) (v :: vs) e

/-- Whether the chain of `t` comes by `c`. -/
inductive LeadsTo (T : TypeTable) : (t c : Ty) → Prop where
  | refl {t} : LeadsTo T t t
  | step {v u c} (h : T.resolved? v = some u) (hu : LeadsTo T u c) : LeadsTo T (.var v) c

variable {T T' : TypeTable} {t u e c : Ty} {v w : Nat} {vs : List Nat}

theorem Chain.ends (h : T.Chain t vs e) : T.Ends e := by
  induction h with
  | done h => exact h
  | step _ _ ih => exact ih

/-- A type has one chain at most. -/
theorem Chain.unique {vs' : List Nat} {e' : Ty} (h : T.Chain t vs e) (h' : T.Chain t vs' e') :
    vs = vs' ∧ e = e' := by
  induction h generalizing vs' with
  | done hends =>
    cases h' with
    | done _ => exact ⟨rfl, rfl⟩
    | step hv _ => rw [hends _ rfl] at hv; cases hv
  | step hv _ ih =>
    cases h' with
    | done hends => rw [hends _ rfl] at hv; cases hv
    | step hv' hu' =>
      obtain rfl := Option.some.inj (hv.symm.trans hv')
      obtain ⟨rfl, rfl⟩ := ih hu'
      exact ⟨rfl, rfl⟩

theorem Chain.leadsTo {vs : List Nat} (h : T.Chain t vs e) : T.LeadsTo t e := by
  induction h with
  | done _ => exact .refl
  | step hv _ ih => exact .step hv ih

/-- The rest of a chain from a placeholder on that it visits. -/
theorem Chain.of_mem (h : T.Chain t vs e) (hv : v ∈ vs) :
    ∃ ws, T.Chain (.var v) ws e ∧ ws.length ≤ vs.length := by
  induction h with
  | done _ => cases hv
  | @step w u vs e hw hu ih =>
    rcases List.mem_cons.mp hv with rfl | hv
    · exact ⟨v :: vs, .step hw hu, Nat.le_refl _⟩
    · obtain ⟨ws, hws, hlength⟩ := ih hv
      exact ⟨ws, hws, Nat.le_succ_of_le hlength⟩

/-- No placeholder is visited twice: the chain from there on would be shorter than itself. -/
theorem Chain.nodup (h : T.Chain t vs e) : vs.Nodup := by
  induction h with
  | done _ => exact List.nodup_nil
  | @step v u vs e hv hu ih =>
    refine List.nodup_cons.mpr ⟨fun hmem ↦ ?_, ih⟩
    obtain ⟨ws, hws, hlength⟩ := hu.of_mem hmem
    obtain ⟨rfl, -⟩ := (Chain.step hv hu).unique hws
    exact Nat.not_succ_le_self _ hlength

theorem resolved?_of_le (h : T.size ≤ v) : T.resolved? v = none := by
  rw [resolved?, Array.getElem?_eq_none h]
  rfl

theorem isNarrowable_of_le (h : T.size ≤ v) : T.isNarrowable v = false := by
  rw [isNarrowable, Array.getElem?_eq_none h]
  rfl

theorem name_of_le (h : T.size ≤ v) : T.name v = "" := by
  rw [name, Array.getElem?_eq_none h]
  rfl

theorem lt_size_of_resolved (h : T.resolved? v = some u) : v < T.size := by
  by_contra hv
  rw [resolved?_of_le (Nat.le_of_not_lt hv)] at h
  cases h

theorem lt_size_of_isNarrowable (h : T.isNarrowable v = true) : v < T.size := by
  by_contra hv
  rw [isNarrowable_of_le (Nat.le_of_not_lt hv)] at h
  cases h

theorem Chain.resolved_of_mem (h : T.Chain t vs e) (hv : v ∈ vs) : ∃ u, T.resolved? v = some u := by
  induction h with
  | done _ => cases hv
  | @step _ u _ _ hw _ ih =>
    rcases List.mem_cons.mp hv with rfl | hv
    · exact ⟨u, hw⟩
    · exact ih hv

theorem Chain.lt_size_of_mem (h : T.Chain t vs e) (hv : v ∈ vs) : v < T.size :=
  (h.resolved_of_mem hv).elim fun _ ↦ lt_size_of_resolved

theorem Chain.length_le (h : T.Chain t vs e) : vs.length ≤ T.size := by
  have hsub : vs ⊆ List.range T.size := fun v hv ↦ List.mem_range.mpr (h.lt_size_of_mem hv)
  simpa using (List.subperm_of_subset h.nodup hsub).length_le

/-- The slot in which a chain ends is none of those that it visits. -/
theorem Chain.length_lt (h : T.Chain t vs (.var v)) (hv : v < T.size) : vs.length < T.size := by
  have hnodup : (v :: vs).Nodup := by
    refine List.nodup_cons.mpr ⟨fun hmem ↦ ?_, h.nodup⟩
    obtain ⟨u, hu⟩ := h.resolved_of_mem hmem
    rw [h.ends v rfl] at hu
    cases hu
  have hsub : v :: vs ⊆ List.range T.size :=
    List.cons_subset.mpr ⟨List.mem_range.mpr hv, fun w hw ↦
      List.mem_range.mpr (h.lt_size_of_mem hw)⟩
  simpa [Nat.succ_le_iff] using (List.subperm_of_subset hnodup hsub).length_le

theorem Chain.resolveWithin_eq (h : T.Chain t vs e) {n : Nat} (hn : vs.length ≤ n) :
    T.resolveWithin n t = e := by
  induction h generalizing n with
  | @done e hends =>
    cases n with
    | zero => rfl
    | succ n =>
      cases e with
      | base | fn => rfl
      | var v => rw [resolveWithin, hends v rfl]
  | step hv _ ih =>
    obtain ⟨n, rfl⟩ : ∃ m, n = m + 1 :=
      ⟨n - 1, (Nat.succ_pred_eq_of_pos (Nat.zero_lt_of_lt hn)).symm⟩
    rw [resolveWithin, hv]
    exact ih (Nat.le_of_succ_le_succ hn)

/-- The walk along a chain comes to its end. -/
theorem Chain.resolve_eq (h : T.Chain t vs e) : T.resolve t = e := h.resolveWithin_eq h.length_le

/-! ## Tables whose chains end -/

/-- Whether every chain comes to an end. -/
def ChainsEnd (T : TypeTable) : Prop := ∀ t, ∃ vs e, T.Chain t vs e

namespace ChainsEnd

theorem empty : ChainsEnd .empty := fun t ↦ ⟨[], t, .done fun _ _ ↦ rfl⟩

variable (h : T.ChainsEnd)

include h

theorem chain (t : Ty) : ∃ vs, T.Chain t vs (T.resolve t) := by
  obtain ⟨vs, e, he⟩ := h t
  rw [he.resolve_eq]
  exact ⟨vs, he⟩

theorem ends_resolve (t : Ty) : T.Ends (T.resolve t) := (h.chain t).elim fun _ ↦ Chain.ends

theorem leadsTo (t : Ty) : T.LeadsTo t (T.resolve t) := (h.chain t).elim fun _ ↦ Chain.leadsTo

end ChainsEnd

theorem openVar?_eq_some : T.openVar? t = some v ↔ T.resolve t = .var v := by
  rw [openVar?]
  split
  · next w hw => rw [hw]; simp
  · next hne => exact ⟨nofun, fun hv ↦ absurd hv (hne v)⟩

/-! ## Chains in other tables -/

/-- Whether nothing that is written in `T` is missing in `T'`. -/
def Extends (T T' : TypeTable) : Prop := ∀ ⦃v u⦄, T.resolved? v = some u → T'.resolved? v = some u

theorem Extends.refl (T : TypeTable) : T.Extends T := fun _ _ ↦ id

theorem Extends.trans {T'' : TypeTable} (h : T.Extends T') (h' : T'.Extends T'') : T.Extends T'' :=
  fun _ _ hv ↦ h' (h hv)

/-- A chain goes on in a table in which more is written. -/
theorem Chain.append {ws : List Nat} (hT : T.Extends T') (h : T.Chain t vs e)
    (h' : T'.Chain e ws c) : T'.Chain t (vs ++ ws) c := by
  induction h with
  | done _ => exact h'
  | step hv _ ih => exact .step (hT hv) (ih h')

/-- A chain stays as it is unless something is written where it ends. -/
theorem Chain.extend (hT : T.Extends T') (h : T.Chain t vs e) (he : T'.Ends e) :
    T'.Chain t vs e := by
  have hchain := h.append hT (.done he)
  rwa [List.append_nil] at hchain

theorem LeadsTo.extend (hT : T.Extends T') (h : T.LeadsTo t c) : T'.LeadsTo t c := by
  induction h with
  | refl => exact .refl
  | step hv _ ih => exact .step (hT hv) ih

theorem LeadsTo.trans (h : T.LeadsTo t u) (h' : T.LeadsTo u c) : T.LeadsTo t c := by
  induction h with
  | refl => exact h'
  | step hv _ ih => exact .step hv (ih h')

/-- What has a head ends every chain. -/
theorem ends_of_head (h : ∀ v, e ≠ .var v) : T.Ends e := fun v he ↦ absurd he (h v)

/-- A chain that comes by a head ends there. -/
theorem LeadsTo.resolve_eq (h : T.LeadsTo t e) (hhead : ∀ v, e ≠ .var v) : T.resolve t = e := by
  have hchain : ∃ vs, T.Chain t vs e := by
    induction h with
    | refl => exact ⟨[], .done (ends_of_head hhead)⟩
    | step hv _ ih => exact (ih hhead).elim fun vs hvs ↦ ⟨_, .step hv hvs⟩
  exact hchain.elim fun _ ↦ Chain.resolve_eq

theorem resolve_of_head (hhead : ∀ v, e ≠ .var v) : T.resolve e = e := LeadsTo.refl.resolve_eq hhead

@[simp] theorem resolve_fn (T : TypeTable) (params : List Ty) (rest : Option Ty) (ret : Ty) :
    T.resolve (.fn params rest ret) = .fn params rest ret := resolve_of_head nofun

/-- The head at the end of a chain stays there. -/
theorem Extends.resolve_eq (hT : T.Extends T') (h : T.ChainsEnd) (he : T.resolve t = e)
    (hhead : ∀ v, e ≠ .var v) : T'.resolve t = e := by
  obtain ⟨vs, hvs⟩ := h.chain t
  exact (he ▸ hvs.extend hT (he ▸ ends_of_head hhead)).resolve_eq

/-- So does a placeholder that stays unresolved. -/
theorem Extends.resolve_eq_var (hT : T.Extends T') (h : T.ChainsEnd) (he : T.resolve t = .var v)
    (hv : T'.resolved? v = none) : T'.resolve t = .var v := by
  obtain ⟨vs, hvs⟩ := h.chain t
  refine (he ▸ hvs.extend hT ?_).resolve_eq
  rw [he]
  intro w hw
  rwa [← Ty.var.inj hw]

/-! ## What is written by each step -/

theorem extends_fresh (T : TypeTable) (name : String) : T.Extends (T.fresh name).2 := by
  intro v u h
  rwa [resolved?_fresh]

/-- Freezing closes slots one after another. -/
theorem freeze_induct {P : TypeTable → Prop} (hclose : ∀ T v, P T → P (T.close v)) (h : P T)
    (t : Ty) : P (T.freeze t) := by
  rw [freeze]
  generalize T.size = n
  induction n generalizing T t with
  | zero => exact h
  | succ n ih =>
    cases t with
    | base | fn => exact h
    | var v =>
      rw [freezeWithin]
      split
      · exact ih (hclose T v h) _
      · exact hclose T v h

theorem resolved?_freeze (T : TypeTable) (t : Ty) : ∀ w, (T.freeze t).resolved? w = T.resolved? w :=
  freeze_induct (P := fun T' ↦ ∀ w, T'.resolved? w = T.resolved? w)
    (fun T' v h w ↦ (resolved?_close T' v w).trans (h w)) (fun _ ↦ rfl) t

theorem extends_assign (hv : T.resolved? v = none) (t : Ty) : T.Extends (T.assign v t) := by
  intro w u h
  rw [resolved?_assign]
  split
  · next hw => rw [← hw.1, hv] at h; cases h
  · exact h

theorem ChainsEnd.congr (h : T.ChainsEnd) (hT : ∀ w, T'.resolved? w = T.resolved? w) :
    T'.ChainsEnd := by
  intro t
  obtain ⟨vs, e, he⟩ := h t
  refine ⟨vs, e, he.extend (fun v u hv ↦ (hT v).trans hv) fun v hv ↦ ?_⟩
  rw [hT, he.ends v hv]

theorem ChainsEnd.resolve_freeze (h : T.ChainsEnd) (t u : Ty) :
    (T.freeze t).resolve u = T.resolve u := by
  obtain ⟨vs, hvs⟩ := h.chain u
  exact (hvs.extend (fun v u hv ↦ (resolved?_freeze T t v).trans hv) fun v hv ↦
    (resolved?_freeze T t v).trans (hvs.ends v hv)).resolve_eq

/-- What ends a chain still does after something was written elsewhere. -/
theorem Ends.assign (he : T.Ends e) (hne : e ≠ .var v) (c : Ty) : (T.assign v c).Ends e := by
  rintro w rfl
  rw [resolved?_assign, if_neg fun hw ↦ hne (congrArg Ty.var hw.1.symm)]
  exact he w rfl

section

variable (h : T.ChainsEnd) (hv : T.resolved? v = none)

include h hv

/-- A chain that ends elsewhere stays as it is when something is written into an unresolved slot. -/
theorem ChainsEnd.chain_assign_of_ne (c : Ty) (ht : T.resolve t ≠ .var v) :
    ∃ vs, (T.assign v c).Chain t vs (T.resolve t) := by
  obtain ⟨vs, hvs⟩ := h.chain t
  exact ⟨vs, hvs.extend (extends_assign hv c) ((h.ends_resolve t).assign ht c)⟩

/-- A chain that ends in the slot goes on with what is written there. -/
theorem ChainsEnd.chain_assign_of_eq (hsize : v < T.size) (hc : T.resolve c ≠ .var v)
    (ht : T.resolve t = .var v) : ∃ vs, (T.assign v c).Chain t vs (T.resolve c) := by
  obtain ⟨vs, hvs⟩ := h.chain t
  obtain ⟨ws, hws⟩ := h.chain_assign_of_ne hv c hc
  rw [ht] at hvs
  refine ⟨_, hvs.append (extends_assign hv c) (.step ?_ hws)⟩
  rw [resolved?_assign, if_pos ⟨rfl, hsize⟩]

/-- Writing into an unresolved slot does not close a chain to a ring, unless the chain of what is
written ends in that slot. -/
theorem ChainsEnd.assign (hc : T.resolve c ≠ .var v) : (T.assign v c).ChainsEnd := by
  by_cases hsize : v < T.size
  · intro t
    by_cases ht : T.resolve t = .var v
    · obtain ⟨vs, hvs⟩ := h.chain_assign_of_eq hv hsize hc ht
      exact ⟨vs, _, hvs⟩
    · obtain ⟨vs, hvs⟩ := h.chain_assign_of_ne hv c ht
      exact ⟨vs, _, hvs⟩
  · refine h.congr fun w ↦ ?_
    rw [resolved?_assign, if_neg fun hw ↦ hsize hw.2]

theorem ChainsEnd.resolve_assign_of_ne (c : Ty) (ht : T.resolve t ≠ .var v) :
    (T.assign v c).resolve t = T.resolve t :=
  (h.chain_assign_of_ne hv c ht).elim fun _ ↦ Chain.resolve_eq

theorem ChainsEnd.resolve_assign_of_eq (hsize : v < T.size) (hc : T.resolve c ≠ .var v)
    (ht : T.resolve t = .var v) : (T.assign v c).resolve t = T.resolve c :=
  (h.chain_assign_of_eq hv hsize hc ht).elim fun _ ↦ Chain.resolve_eq

/-- What a type resolves to after something was written into an unresolved slot. -/
theorem ChainsEnd.resolve_assign_cases (hsize : v < T.size) (hc : T.resolve c ≠ .var v) (t : Ty) :
    (T.assign v c).resolve t = T.resolve t ∨ (T.assign v c).resolve t = T.resolve c := by
  by_cases ht : T.resolve t = .var v
  · exact .inr (h.resolve_assign_of_eq hv hsize hc ht)
  · exact .inl (h.resolve_assign_of_ne hv c ht)

end

/-! ## Narrowing -/

/-- What narrowing does when it succeeds: the table stays as it is, or the open placeholder at the
end of the chain of `t` gets the constraint written into its slot. -/
theorem narrow_ok {t' : Ty} (h : T.narrow t c = .ok (t', T')) :
    T' = T ∧ ((T.resolve c).isAny = true ∨
        T.satisfies t c = true ∧ ∀ v, T.resolve t = .var v → T.resolve c = .var v) ∨
      ∃ v, T.resolve t = .var v ∧ T.resolve c ≠ .var v ∧ (T.resolve c).isAny = false ∧
        T.satisfies t c = true ∧ T.isNarrowable v = true ∧ T' = T.assign v c := by
  rw [narrow] at h
  split at h
  · next hany => cases h; exact .inl ⟨rfl, .inl hany⟩
  · next hany =>
    split at h
    · cases h
    · next hagree =>
      have hagree : T.satisfies t c = true := by simpa using hagree
      split at h
      · next hclosed =>
        cases h
        refine .inl ⟨rfl, .inr ⟨hagree, fun v hv ↦ ?_⟩⟩
        rw [openVar?_eq_some.mpr hv] at hclosed
        cases hclosed
      · next v hv =>
        have hv := openVar?_eq_some.mp hv
        split at h
        · next hsame =>
          cases h
          refine .inl ⟨rfl, .inr ⟨hagree, fun w hw ↦ ?_⟩⟩
          rw [openVar?_eq_some.mp hsame, ← hv, hw]
        · next hother =>
          split at h
          · next hopen =>
            cases h
            refine .inr ⟨v, hv, fun hc ↦ hother (openVar?_eq_some.mpr hc), ?_, hagree, hopen, rfl⟩
            simpa using hany
          · cases h

theorem ChainsEnd.narrow {t' : Ty} (h : T.ChainsEnd) (hnarrow : T.narrow t c = .ok (t', T')) :
    T'.ChainsEnd := by
  rcases narrow_ok hnarrow with ⟨rfl, -⟩ | ⟨v, hv, hc, -, -, -, rfl⟩
  · exact h
  · exact h.assign (h.ends_resolve t v hv) hc

end TypeTable

end TaggedLisp
