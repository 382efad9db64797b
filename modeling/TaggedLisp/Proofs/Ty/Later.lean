import Mathlib.Tactic.Tauto
import TaggedLisp.Proofs.Ty.Expansion

/-!
# Later tables

Placeholders are made, narrowed and frozen one after another. `TypeTable.Later` says what stays
through all of that: slots are added, what is written in a slot stays there, and a closed slot stays
closed, and empty if it was empty. `Later.resolve_eq` and `Later.satisfies` read off what is known
for good; types may come to clash later only in placeholders that were still open.

The statements about closed slots are about slots that exist, so the types that are handed around
have to mention none but these. `TypeTable.Sound` says so of the types in the slots.
-/

namespace TaggedLisp

namespace TypeTable

variable {T T' T'' : TypeTable} {t t' e c a b : Ty} {v : Nat}

/-! ## Slots that may be narrowed -/

theorem isNarrowable_fresh (T : TypeTable) (name : String) (v : Nat) :
    (T.fresh name).2.isNarrowable v = if v = T.size then true else T.isNarrowable v := by
  by_cases hv : v = T.slots.size <;> simp [fresh, isNarrowable, size, Array.getElem?_push, hv]

@[simp] theorem size_freeze (T : TypeTable) (t : Ty) : (T.freeze t).size = T.size :=
  freeze_induct (P := fun T' ↦ T'.size = T.size) (fun T' v h ↦ (size_close T' v).trans h) rfl t

theorem isNarrowable_freeze (hv : T.isNarrowable v = false) (t : Ty) :
    (T.freeze t).isNarrowable v = false := by
  refine freeze_induct (P := fun T' ↦ T'.isNarrowable v = false) (fun T' w h ↦ ?_) hv t
  rw [isNarrowable_close, h, Bool.and_false]

theorem Chain.isNarrowable_freezeWithin {vs : List Nat} (h : T.Chain t vs e) {n : Nat}
    (hn : vs.length ≤ n) (hsame : ∀ w, T'.resolved? w = T.resolved? w) (w : Nat) :
    (freezeWithin n T' t).isNarrowable w = true ↔
      T'.isNarrowable w = true ∧ w ∉ vs ∧ (vs.length < n → e ≠ .var w) := by
  induction h generalizing n T' with
  | @done e hends =>
    cases n with
    | zero => simp [freezeWithin]
    | succ n =>
      cases e with
      | base | fn => simp [freezeWithin]
      | var v =>
        rw [freezeWithin, hsame, hends v rfl]
        simp [isNarrowable_close, and_comm]
  | @step v u vs e hv _ ih =>
    obtain ⟨n, rfl⟩ : ∃ m, n = m + 1 :=
      ⟨n - 1, (Nat.succ_pred_eq_of_pos (Nat.zero_lt_of_lt hn)).symm⟩
    rw [freezeWithin, hsame, hv]
    have hclose := ih (Nat.le_of_succ_le_succ hn) fun w' ↦
      (resolved?_close T' v w').trans (hsame w')
    simp only [hclose, isNarrowable_close, Bool.and_eq_true, decide_eq_true_eq, List.mem_cons,
      List.length_cons, Nat.add_lt_add_iff_right, not_or, ne_comm (a := v)]
    tauto

/-- Freezing a type closes the slots that its chain visits and the one in which it ends. -/
theorem Chain.isNarrowable_freeze {vs : List Nat} (h : T.Chain t vs e) (w : Nat) :
    (T.freeze t).isNarrowable w = true ↔ T.isNarrowable w = true ∧ w ∉ vs ∧ e ≠ .var w := by
  rw [freeze, h.isNarrowable_freezeWithin h.length_le fun _ ↦ rfl]
  refine and_congr_right fun hw ↦ and_congr_right fun _ ↦ ⟨fun hne he ↦ ?_, fun hne _ ↦ hne⟩
  subst he
  exact hne (h.length_lt (lt_size_of_isNarrowable hw)) rfl

/-! ## Names -/

theorem name_fresh (T : TypeTable) (x : String) (v : Nat) :
    (T.fresh x).2.name v = if v = T.size then x else T.name v := by
  by_cases hv : v = T.slots.size <;> simp [fresh, name, size, Array.getElem?_push, hv]

@[simp] theorem name_assign (T : TypeTable) (v w : Nat) (t : Ty) :
    (T.assign v t).name w = T.name w := by
  simp only [assign, name, Array.getElem?_modify]
  split
  · cases T.slots[w]? <;> rfl
  · rfl

@[simp] theorem name_close (T : TypeTable) (v w : Nat) : (T.close v).name w = T.name w := by
  simp only [close, name, Array.getElem?_modify]
  split
  · cases T.slots[w]? <;> rfl
  · rfl

@[simp] theorem name_freeze (T : TypeTable) (t : Ty) (w : Nat) : (T.freeze t).name w = T.name w :=
  freeze_induct (P := fun T' ↦ T'.name w = T.name w)
    (fun T' v h ↦ (name_close T' v w).trans h) rfl t

/-! ## Later tables -/

/-- What stays when placeholders are made, narrowed and frozen. -/
structure Later (T T' : TypeTable) : Prop where
  size_le : T.size ≤ T'.size
  writes : T.Extends T'
  closed : ∀ v, v < T.size → T.isNarrowable v = false →
    T'.isNarrowable v = false ∧ (T.resolved? v = none → T'.resolved? v = none)

namespace Later

theorem refl (T : TypeTable) : T.Later T :=
  ⟨Nat.le_refl _, .refl T, fun _ _ hv ↦ ⟨hv, id⟩⟩

theorem trans (h : T.Later T') (h' : T'.Later T'') : T.Later T'' where
  size_le := Nat.le_trans h.size_le h'.size_le
  writes := h.writes.trans h'.writes
  closed v hv hclosed := by
    obtain ⟨hclosed', hnone⟩ := h.closed v hv hclosed
    obtain ⟨hclosed'', hnone'⟩ := h'.closed v (Nat.lt_of_lt_of_le hv h.size_le) hclosed'
    exact ⟨hclosed'', hnone' ∘ hnone⟩

theorem fresh (T : TypeTable) (name : String) : T.Later (T.fresh name).2 where
  size_le := by simp
  writes := extends_fresh T name
  closed v hv hclosed := by
    rw [isNarrowable_fresh, if_neg (Nat.ne_of_lt hv), resolved?_fresh]
    exact ⟨hclosed, id⟩

theorem freeze (T : TypeTable) (t : Ty) : T.Later (T.freeze t) where
  size_le := by simp
  writes v u h := (resolved?_freeze T t v).trans h
  closed v _ hclosed := by
    rw [resolved?_freeze]
    exact ⟨isNarrowable_freeze hclosed t, id⟩

theorem assign (hnone : T.resolved? v = none) (hopen : T.isNarrowable v = true) (t : Ty) :
    T.Later (T.assign v t) where
  size_le := by simp
  writes := extends_assign hnone t
  closed w _ hclosed := by
    rw [isNarrowable_assign, resolved?_assign]
    refine ⟨hclosed, fun hw ↦ ?_⟩
    rw [if_neg, hw]
    rintro ⟨rfl, -⟩
    rw [hopen] at hclosed
    cases hclosed

theorem narrow (hT : T.ChainsEnd) (h : T.narrow t c = .ok (t', T')) : T.Later T' := by
  rcases narrow_ok h with ⟨rfl, -⟩ | ⟨v, hv, -, -, -, hopen, rfl⟩
  · exact refl T'
  · exact assign (hT.ends_resolve t v hv) hopen c

/-- A type whose chain ends in a head has that head for good. -/
theorem resolve_eq (h : T.Later T') (hT : T.ChainsEnd) (he : T.resolve t = e)
    (hhead : ∀ v, e ≠ .var v) : T'.resolve t = e := h.writes.resolve_eq hT he hhead

theorem isAny_resolve (h : T.Later T') (hT : T.ChainsEnd) (hany : (T.resolve t).isAny = true) :
    (T'.resolve t).isAny = true := by
  have hhead : ∀ v, T.resolve t ≠ .var v := fun v hv ↦ by rw [hv] at hany; cases hany
  rwa [h.resolve_eq hT rfl hhead]

/-- A type whose chain ends in a closed placeholder stays unresolved for good. -/
theorem resolve_eq_var (h : T.Later T') (hT : T.ChainsEnd) (he : T.resolve t = .var v)
    (hv : v < T.size) (hclosed : T.isNarrowable v = false) : T'.resolve t = .var v :=
  h.writes.resolve_eq_var hT he ((h.closed v hv hclosed).2 (hT.ends_resolve t v he))

/-- A type expands in the same way later if the placeholders that were open in it still are. -/
theorem expand_eq (h : T.Later T')
    (hopen : ∀ v ∈ (T.expand t).vars, T.resolved? v = none → T'.resolved? v = none) :
    T'.expand t = T.expand t := TypeTable.expand_eq h.writes h.size_le hopen

end Later

/-! ## Types over the slots of a table -/

/-- Whether all chains end and the types in the slots mention existing slots only. -/
structure Sound (T : TypeTable) : Prop where
  ends : T.ChainsEnd
  written : ∀ v u, T.resolved? v = some u → u.Over T.size

namespace Sound

theorem empty : Sound .empty := ⟨.empty, fun _ _ h ↦ nomatch h⟩

theorem fresh (h : T.Sound) (name : String) : (T.fresh name).2.Sound where
  ends := h.ends.congr (resolved?_fresh T name)
  written v u hu := by
    rw [resolved?_fresh] at hu
    exact (h.written v u hu).mono (Later.fresh T name).size_le

theorem freeze (h : T.Sound) (t : Ty) : (T.freeze t).Sound where
  ends := h.ends.congr (resolved?_freeze T t)
  written v u hu := by
    rw [resolved?_freeze] at hu
    rw [size_freeze]
    exact h.written v u hu

theorem narrow (h : T.Sound) (hc : c.Over T.size) (hnarrow : T.narrow t c = .ok (t', T')) :
    T'.Sound where
  ends := h.ends.narrow hnarrow
  written := by
    rcases narrow_ok hnarrow with ⟨rfl, -⟩ | ⟨v, -, -, -, -, -, rfl⟩
    · exact h.written
    · intro w u hu
      rw [size_assign]
      rw [resolved?_assign] at hu
      split at hu
      · cases hu
        exact hc
      · exact h.written w u hu

/-- What a chain ends in mentions existing slots only, if the type does that it starts with. -/
theorem over_resolve (h : T.Sound) (ht : t.Over T.size) : (T.resolve t).Over T.size := by
  have hchain : ∀ {t e : Ty}, T.LeadsTo t e → t.Over T.size → e.Over T.size := by
    intro t e hlead
    induction hlead with
    | refl => exact id
    | step hv _ ih => exact fun _ ↦ ih (h.written _ _ hv)
  exact hchain (h.ends.leadsTo t) ht

theorem lt_size (h : T.Sound) (ht : t.Over T.size) (hv : T.resolve t = .var v) : v < T.size :=
  Ty.over_var.mp (hv ▸ h.over_resolve ht)

/-- A type that ends in a placeholder leads to what it is narrowed to, if that has a head other than
`any`. -/
theorem narrow_leadsTo (h : T.Sound) (ht : t.Over T.size) (hv : T.resolve t = .var v)
    (hhead : ∀ v, c ≠ .var v) (hany : c.isAny = false) (hnarrow : T.narrow t c = .ok (t', T')) :
    T'.LeadsTo t c := by
  have hc : T.resolve c = c := resolve_of_head hhead
  rcases narrow_ok hnarrow with ⟨-, hsame⟩ | ⟨w, hw, -, -, -, -, rfl⟩
  · exfalso
    rw [hc] at hsame
    rcases hsame with hsame | ⟨-, hsame⟩
    · rw [hany] at hsame
      cases hsame
    · exact hhead v (hsame v hv)
  · have hlead := hw ▸ h.ends.leadsTo t
    refine (hlead.extend (extends_assign (h.ends.ends_resolve t w hw) c)).trans (.step ?_ .refl)
    rw [resolved?_assign, if_pos ⟨rfl, h.lt_size ht hw⟩]

end Sound

/-! ## Narrowing an argument -/

/-- The table after `arg` was narrowed to what is expected of it, if it was still open. -/
def accept (T : TypeTable) (arg expected : Ty) : TypeTable :=
  match T.openVar? arg with
  | some v =>
    if T.isNarrowable v then
      match T.narrow arg expected with
      | .ok (_, T') => T'
      | .error _ => T
    else T
  | none => T

/-- Either nothing was narrowed, or it was as narrowing does it. -/
theorem accept_cases (T : TypeTable) (arg expected : Ty) :
    T.accept arg expected = T ∨
      ∃ t, T.narrow arg expected = .ok (t, T.accept arg expected) := by
  rw [accept]
  split
  · split
    · split
      · next t T' h => exact .inr ⟨t, h⟩
      · exact .inl rfl
    · exact .inl rfl
  · exact .inl rfl

theorem Later.accept (hT : T.ChainsEnd) (arg expected : Ty) : T.Later (T.accept arg expected) := by
  rcases accept_cases T arg expected with h | ⟨t, h⟩
  · rw [h]
    exact .refl T
  · exact .narrow hT h

theorem Sound.accept (h : T.Sound) (arg : Ty) {expected : Ty} (hexpected : expected.Over T.size) :
    (T.accept arg expected).Sound := by
  rcases accept_cases T arg expected with hT | ⟨t, ht⟩
  · rwa [hT]
  · exact h.narrow hexpected ht

/-- An open argument that satisfies what is expected of it is narrowed to that. -/
theorem accept_open (hagree : T.satisfies a b = true) (hany : (T.resolve b).isAny = false)
    (hv : T.resolve a = .var v) (hopen : T.isNarrowable v = true) :
    T.accept a b = if T.openVar? b = some v then T else T.assign v b := by
  rw [accept, openVar?_eq_some.mpr hv]
  simp only [hopen, narrow, hany, hagree, openVar?_eq_some.mpr hv, if_true, Bool.not_true]
  by_cases hsame : T.openVar? b = some v <;> simp [hsame]

/-- An argument whose type was an unresolved placeholder satisfies for good what was expected of it:
an open one leads to the expected type from then on, and a closed one stays unresolved. -/
theorem Sound.satisfies_of_unresolved (h : T.Sound) (ha : a.Over T.size)
    (hagree : T.satisfies a b = true) (hv : T.resolve a = .var v) (hlater : (T.accept a b).Later T')
    (hT' : T'.ChainsEnd) : T'.satisfies a b = true := by
  have hT : T.Later T' := (Later.accept h.ends a b).trans hlater
  have hlead : T.LeadsTo a (.var v) := hv ▸ h.ends.leadsTo a
  by_cases hany : (T.resolve b).isAny = true
  · exact hT'.satisfies_of_loose_right (Ty.isLoose_of_isAny (hT.isAny_resolve h.ends hany)) a
  rw [Bool.not_eq_true] at hany
  by_cases hopen : T.isNarrowable v = true
  · rw [accept_open hagree hany hv hopen] at hlater
    split at hlater
    · next hsame =>
      have hb : T.LeadsTo b (.var v) := openVar?_eq_some.mp hsame ▸ h.ends.leadsTo b
      exact satisfies_of_meet (hlead.extend hT.writes) (hb.extend hT.writes)
    · have hwritten : (T.assign v b).resolved? v = some b := by
        rw [resolved?_assign, if_pos ⟨rfl, h.lt_size ha hv⟩]
      refine satisfies_of_meet ((hlead.extend hT.writes).trans (.step ?_ .refl)) .refl
      exact hlater.writes hwritten
  · rw [Bool.not_eq_true] at hopen
    refine hT'.satisfies_of_loose_left ?_ b
    rw [hT.resolve_eq_var h.ends hv (h.lt_size ha hv) hopen]
    rfl

end TypeTable

end TaggedLisp
