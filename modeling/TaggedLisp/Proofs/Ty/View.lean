import TaggedLisp.Proofs.Ty.Later

/-!
# Parts of tables

What is done with a type concerns the placeholders that it depends on and those that are made
meanwhile. A `View` names the placeholders that may be come by in this way, and says where the same
part is found in a second table: the placeholders that are there in the beginning have the same
number in both, and those that are made later are numbered `shift` further on.

`View.Mirrors` says that two tables agree in the part that is seen. Then a type and its copy resolve
and expand alike, satisfy the same types and are displayed by the same text, and whatever is made,
narrowed or frozen in both, they agree again. Slots that are not seen keep what was in them
(`Mirrors.unseen`), so this is what makes one part of a program independent of another one.
-/

namespace TaggedLisp

/-- A part of what is known while forms are checked, and where it is found in another checker. -/
structure View where
  /-- The number of placeholders in the beginning. -/
  base : Nat
  /-- How many more placeholders there are in the other table. -/
  shift : Nat
  /-- The placeholders that may be come by. -/
  Seen : Nat → Prop
  seen_of_le : ∀ v, base ≤ v → Seen v
  /-- The table in the beginning. -/
  origin : TypeTable
  /-- The names that may be looked up. -/
  names : String → Bool

namespace View

variable (V : View)

/-- The number of a placeholder in the other table. -/
def index (v : Nat) : Nat := if v < V.base then v else v + V.shift

/-- A type as it stands in the other table. -/
def ty (t : Ty) : Ty := t.subst fun v ↦ .var (V.index v)

/-- Whether a type mentions placeholders that may be come by, and only the first `n`. -/
def Knows (n : Nat) (t : Ty) : Prop := ∀ v ∈ t.vars, V.Seen v ∧ v < n

variable {V} {t u e c : Ty} {v w n m : Nat}

theorem index_inj : V.index v = V.index w ↔ v = w := by
  simp only [index]
  split <;> split <;> omega

theorem index_of_le (h : V.base ≤ v) : V.index v = v + V.shift := if_neg (Nat.not_lt_of_le h)

@[simp] theorem ty_base (b : BaseTy) : V.ty (.base b) = .base b := rfl

@[simp] theorem ty_var (v : Nat) : V.ty (.var v) = .var (V.index v) := rfl

@[simp] theorem ty_fn (params : List Ty) (rest : Option Ty) (ret : Ty) :
    V.ty (.fn params rest ret) = .fn (params.map V.ty) (rest.map V.ty) (V.ty ret) := by
  simp only [ty, Ty.subst, Ty.substAll_eq_map, Ty.substRest_eq_map]
  rfl

theorem ty_eq_var (h : V.ty t = .var w) : ∃ v, t = .var v ∧ V.index v = w := by
  cases t with
  | base | fn => simp at h
  | var v => exact ⟨v, rfl, Ty.var.inj h⟩

theorem ty_eq_var_index : V.ty t = .var (V.index v) ↔ t = .var v := by
  constructor
  · intro h
    obtain ⟨w, rfl, hw⟩ := ty_eq_var h
    rw [index_inj.mp hw]
  · rintro rfl
    rfl

@[simp] theorem isAny_ty (t : Ty) : (V.ty t).isAny = t.isAny := by
  cases t with
  | base | var => rfl
  | fn => rw [ty_fn]; rfl

/-- What was there in the beginning is the same in the other table. -/
theorem ty_eq_self (h : t.Over V.base) : V.ty t = t := by
  refine (Ty.subst_congr fun v hv ↦ ?_).trans (Ty.subst_var t)
  rw [index, if_pos (h v hv)]

/-! ## Known types -/

theorem Knows.mono (h : V.Knows n t) (hnm : n ≤ m) : V.Knows m t :=
  fun v hv ↦ ⟨(h v hv).1, Nat.lt_of_lt_of_le (h v hv).2 hnm⟩

theorem Knows.over (h : V.Knows n t) : t.Over n := fun v hv ↦ (h v hv).2

theorem knows_base (n : Nat) (b : BaseTy) : V.Knows n (.base b) := fun _ hv ↦ nomatch hv

theorem knows_var : V.Knows n (.var v) ↔ V.Seen v ∧ v < n := by
  simp [Knows, Ty.vars]

theorem knows_fn {params : List Ty} {rest : Option Ty} {ret : Ty} :
    V.Knows n (.fn params rest ret) ↔
      (∀ t ∈ params, V.Knows n t) ∧ (∀ t ∈ rest, V.Knows n t) ∧ V.Knows n ret := Ty.forall_vars_fn

/-- `t'` stands in the other table for `t`. -/
structure Same (V : View) (n : Nat) (t t' : Ty) : Prop where
  eq : t' = V.ty t
  knows : V.Knows n t

theorem Same.mono {t' : Ty} (h : V.Same n t t') (hnm : n ≤ m) : V.Same m t t' :=
  ⟨h.eq, h.knows.mono hnm⟩

theorem same_base (n : Nat) (b : BaseTy) : V.Same n (.base b) (.base b) := ⟨rfl, knows_base n b⟩

/-! ## Reading two tables -/

/-- The tables have the same written in the slots that are seen, and that leads to nothing else. -/
structure Reads (V : View) (T T' : TypeTable) : Prop where
  resolved : ∀ v, V.Seen v → T'.resolved? (V.index v) = (T.resolved? v).map V.ty
  knows : ∀ v u, V.Seen v → T.resolved? v = some u → V.Knows T.size u

variable {T T' : TypeTable}

namespace Reads

variable (h : V.Reads T T')

include h

theorem forget (v : Nat) : V.Reads (T.forget v) (T'.forget (V.index v)) where
  resolved w hw := by
    rw [TypeTable.resolved?_forget, TypeTable.resolved?_forget, h.resolved w hw]
    simp only [index_inj]
    split <;> rfl
  knows w u hw hu := by
    rw [TypeTable.resolved?_forget] at hu
    rw [TypeTable.size_forget]
    split at hu
    · cases hu
    · exact h.knows w u hw hu

theorem chain {vs : List Nat} (hchain : T.Chain t vs e) (ht : V.Knows T.size t) :
    T'.Chain (V.ty t) (vs.map V.index) (V.ty e) ∧ (∀ v ∈ vs, V.Seen v) ∧ V.Knows T.size e := by
  induction hchain with
  | done hends =>
    refine ⟨.done fun w hw ↦ ?_, List.forall_mem_nil _, ht⟩
    obtain ⟨v, rfl, rfl⟩ := ty_eq_var hw
    rw [h.resolved v (knows_var.mp ht).1, hends v rfl, Option.map_none]
  | @step v u vs e hu _ ih =>
    have hseen := (knows_var.mp ht).1
    obtain ⟨hchain, hvs, he⟩ := ih (h.knows v u hseen hu)
    exact ⟨.step (by rw [h.resolved v hseen, hu, Option.map_some]) hchain,
      List.forall_mem_cons.mpr ⟨hseen, hvs⟩, he⟩

theorem expandWithin (ht : V.Knows T.size t) (n : Nat) :
    TypeTable.expandWithin n T' (V.ty t) = V.ty (TypeTable.expandWithin n T t) ∧
      V.Knows T.size (TypeTable.expandWithin n T t) := by
  induction n generalizing T T' t with
  | zero => exact ⟨rfl, ht⟩
  | succ n ih =>
    -- what is put for one placeholder of the type
    have hone (v : Nat) (hv : v ∈ t.vars) : ∃ s,
        TypeTable.expandWithin (n + 1) T (.var v) = s ∧
        TypeTable.expandWithin (n + 1) T' (.var (V.index v)) = V.ty s ∧ V.Knows T.size s := by
      rw [TypeTable.expandWithin_succ_var, TypeTable.expandWithin_succ_var,
        h.resolved v (ht v hv).1]
      cases hu : T.resolved? v with
      | none => exact ⟨_, rfl, rfl, knows_var.mpr (ht v hv)⟩
      | some u =>
        have hu' := h.knows v u (ht v hv).1 hu
        rw [← T.size_forget v] at hu'
        obtain ⟨heq, hknows⟩ := ih (h.forget v) hu'
        rw [TypeTable.size_forget] at hknows
        exact ⟨_, rfl, heq, hknows⟩
    constructor
    · rw [TypeTable.expandWithin, TypeTable.expandWithin, ty, ty, Ty.subst_subst, Ty.subst_subst]
      refine Ty.subst_congr fun v hv ↦ ?_
      obtain ⟨s, hs, hs', -⟩ := hone v hv
      exact hs'.trans (congrArg V.ty hs.symm)
    · intro w hw
      obtain ⟨v, hv, hw⟩ := Ty.exists_of_mem_vars_subst hw
      obtain ⟨s, hs, -, hknows⟩ := hone v hv
      exact hknows w (hs ▸ hw)

end Reads

/-! ## Tables that agree in what is seen -/

/-- The second table holds what is seen of the first one, at the places that the view gives, and the
first one has not changed where nothing is seen. -/
structure Mirrors (V : View) (T T' : TypeTable) : Prop extends V.Reads T T' where
  ends : T.ChainsEnd
  base_le : V.base ≤ T.size
  size : T'.size = T.size + V.shift
  isNarrowable : ∀ v, V.Seen v → T.resolved? v = none →
    T'.isNarrowable (V.index v) = T.isNarrowable v
  name : ∀ v, V.Seen v → T'.name (V.index v) = T.name v
  unseen : ∀ v, ¬ V.Seen v →
    T.resolved? v = V.origin.resolved? v ∧ T.isNarrowable v = V.origin.isNarrowable v

namespace Mirrors

variable {a b : Ty} (h : V.Mirrors T T')

include h

/-! ## What is read off -/

theorem resolve (ht : V.Knows T.size t) :
    T'.resolve (V.ty t) = V.ty (T.resolve t) ∧ V.Knows T.size (T.resolve t) := by
  obtain ⟨vs, hvs⟩ := h.ends.chain t
  obtain ⟨hvs', -, he⟩ := h.chain hvs ht
  exact ⟨hvs'.resolve_eq, he⟩

theorem openVar? (ht : V.Knows T.size t) : T'.openVar? (V.ty t) = (T.openVar? t).map V.index := by
  rw [TypeTable.openVar?, TypeTable.openVar?, (h.resolve ht).1]
  cases T.resolve t with
  | base | var => rfl
  | fn => simp

/-- The open end of a chain is seen, and it can be narrowed in both tables or in neither. -/
theorem openVar?_some (ht : V.Knows T.size t) (hv : T.openVar? t = some v) :
    V.Seen v ∧ T.resolved? v = none ∧ T'.isNarrowable (V.index v) = T.isNarrowable v := by
  have hv := TypeTable.openVar?_eq_some.mp hv
  obtain ⟨hseen, -⟩ := knows_var.mp (hv ▸ (h.resolve ht).2)
  have hnone := h.ends.ends_resolve t v hv
  exact ⟨hseen, hnone, h.isNarrowable v hseen hnone⟩

theorem expand (ht : V.Knows T.size t) :
    T'.expand (V.ty t) = V.ty (T.expand t) ∧ V.Knows T.size (T.expand t) := by
  have hstable : T.expand t = TypeTable.expandWithin T'.size T t :=
    T.expand_eq_expandWithin (by rw [h.size]; exact Nat.le_add_right _ _)
  rw [hstable]
  exact h.expandWithin ht T'.size

theorem satisfies (ha : V.Knows T.size a) (hb : V.Knows T.size b) :
    T'.satisfies (V.ty a) (V.ty b) = T.satisfies a b := by
  rw [TypeTable.satisfies, TypeTable.satisfies, (h.expand ha).1, (h.expand hb).1]
  exact Ty.agrees_subst_var V.index _ _

theorem display (ht : V.Knows T.size t) : T'.display (V.ty t) = T.display t := by
  obtain ⟨heq, hknows⟩ := h.expand ht
  rw [TypeTable.display, TypeTable.display, heq]
  exact Ty.render_subst_var V.index fun v hv ↦ h.name v (hknows v hv).1

/-! ## What is done -/

theorem index_size : V.index T.size = T'.size := by
  rw [index_of_le h.base_le, h.size]

theorem index_eq_size : V.index v = T'.size ↔ v = T.size := by
  rw [← h.index_size, index_inj]

theorem index_lt_size : V.index v < T'.size ↔ v < T.size := by
  have hbase := h.base_le
  rw [index, h.size]
  split <;> omega

theorem fresh (x : String) : V.Mirrors (T.fresh x).2 (T'.fresh x).2 ∧
    V.Same (T.fresh x).2.size (T.fresh x).1 (T'.fresh x).1 := by
  refine ⟨⟨⟨fun v hv ↦ ?_, fun v u hv hu ↦ ?_⟩, h.ends.congr (TypeTable.resolved?_fresh T x), ?_,
    ?_, fun v hv hnone ↦ ?_, fun v hv ↦ ?_, fun v hv ↦ ?_⟩, ?_, ?_⟩
  · rw [TypeTable.resolved?_fresh, TypeTable.resolved?_fresh, h.resolved v hv]
  · rw [TypeTable.resolved?_fresh] at hu
    exact (h.knows v u hv hu).mono (by simp)
  · exact Nat.le_trans h.base_le (by simp)
  · rw [TypeTable.size_fresh, TypeTable.size_fresh, h.size]
    omega
  · rw [TypeTable.resolved?_fresh] at hnone
    rw [TypeTable.isNarrowable_fresh, TypeTable.isNarrowable_fresh, h.isNarrowable v hv hnone]
    simp only [h.index_eq_size]
  · rw [TypeTable.name_fresh, TypeTable.name_fresh, h.name v hv]
    simp only [h.index_eq_size]
  · -- the new placeholder is seen
    have hne : v ≠ T.size := by
      rintro rfl
      exact hv (V.seen_of_le _ h.base_le)
    rw [TypeTable.resolved?_fresh, TypeTable.isNarrowable_fresh, if_neg hne]
    exact h.unseen v hv
  · exact congrArg Ty.var h.index_size.symm
  · exact knows_var.mpr ⟨V.seen_of_le _ h.base_le, by simp⟩

theorem assign (hv : V.Seen v) (hnone : T.resolved? v = none) (hc : V.Knows T.size c)
    (hne : T.resolve c ≠ .var v) : V.Mirrors (T.assign v c) (T'.assign (V.index v) (V.ty c)) := by
  refine ⟨⟨fun w hw ↦ ?_, fun w u hw hu ↦ ?_⟩, h.ends.assign hnone hne, ?_, ?_,
    fun w hw hwnone ↦ ?_, fun w hw ↦ ?_, fun w hw ↦ ?_⟩
  · rw [TypeTable.resolved?_assign, TypeTable.resolved?_assign, h.resolved w hw]
    simp only [index_inj, h.index_lt_size]
    split <;> rfl
  · rw [TypeTable.resolved?_assign] at hu
    rw [TypeTable.size_assign]
    split at hu
    · cases hu
      exact hc
    · exact h.knows w u hw hu
  · rw [TypeTable.size_assign]
    exact h.base_le
  · rw [TypeTable.size_assign, TypeTable.size_assign, h.size]
  · rw [TypeTable.resolved?_assign] at hwnone
    rw [TypeTable.isNarrowable_assign, TypeTable.isNarrowable_assign]
    split at hwnone
    · cases hwnone
    · exact h.isNarrowable w hw hwnone
  · rw [TypeTable.name_assign, TypeTable.name_assign, h.name w hw]
  · have hvw : v ≠ w := by
      rintro rfl
      exact hw hv
    rw [TypeTable.resolved?_assign, TypeTable.isNarrowable_assign, if_neg fun hw ↦ hvw hw.1]
    exact h.unseen w hw

theorem freeze (ht : V.Knows T.size t) : V.Mirrors (T.freeze t) (T'.freeze (V.ty t)) := by
  obtain ⟨vs, hvs⟩ := h.ends.chain t
  obtain ⟨hvs', hseen, he⟩ := h.chain hvs ht
  refine ⟨⟨fun v hv ↦ ?_, fun v u hv hu ↦ ?_⟩, h.ends.congr (TypeTable.resolved?_freeze T t), ?_,
    ?_, fun v hv hnone ↦ ?_, fun v hv ↦ ?_, fun v hv ↦ ?_⟩
  · rw [TypeTable.resolved?_freeze, TypeTable.resolved?_freeze, h.resolved v hv]
  · rw [TypeTable.resolved?_freeze] at hu
    rw [TypeTable.size_freeze]
    exact h.knows v u hv hu
  · rw [TypeTable.size_freeze]
    exact h.base_le
  · rw [TypeTable.size_freeze, TypeTable.size_freeze, h.size]
  · rw [TypeTable.resolved?_freeze] at hnone
    rw [Bool.eq_iff_iff, hvs'.isNarrowable_freeze, hvs.isNarrowable_freeze,
      h.isNarrowable v hv hnone, List.mem_map_of_injective fun _ _ ↦ index_inj.mp, ne_eq,
      ty_eq_var_index]
  · rw [TypeTable.name_freeze, TypeTable.name_freeze, h.name v hv]
  · -- the chain visits seen slots only
    have hmem : v ∉ vs := fun hmem ↦ hv (hseen v hmem)
    have hend : T.resolve t ≠ .var v := fun hend ↦ hv (knows_var.mp (hend ▸ he)).1
    rw [TypeTable.resolved?_freeze, Bool.eq_iff_iff, hvs.isNarrowable_freeze, ← (h.unseen v hv).2]
    exact ⟨(h.unseen v hv).1, and_iff_left ⟨hmem, hend⟩⟩

/-- Narrowing has the same outcome in both tables. -/
theorem narrow (ha : V.Knows T.size a) (hc : V.Knows T.size c) :
    (∃ t t' U U', T.narrow a c = .ok (t, U) ∧ T'.narrow (V.ty a) (V.ty c) = .ok (t', U') ∧
        V.Mirrors U U' ∧ U.size = T.size) ∨
      ∃ fault, T.narrow a c = .error fault ∧ T'.narrow (V.ty a) (V.ty c) = .error fault := by
  have hany : (T'.resolve (V.ty c)).isAny = (T.resolve c).isAny := by
    rw [(h.resolve hc).1, isAny_ty]
  rw [TypeTable.narrow, TypeTable.narrow, hany, h.satisfies ha hc, h.openVar? ha, h.openVar? hc]
  by_cases hasks : (T.resolve c).isAny = true
  · rw [if_pos hasks, if_pos hasks]
    exact .inl ⟨_, _, _, _, rfl, rfl, h, rfl⟩
  rw [if_neg hasks, if_neg hasks]
  by_cases hclash : (!T.satisfies a c) = true
  · rw [if_pos hclash, if_pos hclash]
    exact .inr ⟨_, rfl, rfl⟩
  rw [if_neg hclash, if_neg hclash]
  cases hv : T.openVar? a with
  | none => exact .inl ⟨_, _, _, _, rfl, rfl, h, rfl⟩
  | some v =>
    obtain ⟨hseen, hnone, hopen⟩ := h.openVar?_some ha hv
    have hsame : (T.openVar? c).map V.index = some (V.index v) ↔ T.openVar? c = some v := by
      cases T.openVar? c with
      | none => simp
      | some w => simp [index_inj]
    simp only [Option.map_some, hsame, hopen]
    by_cases hring : T.openVar? c = some v
    · rw [if_pos hring, if_pos hring]
      exact .inl ⟨_, _, _, _, rfl, rfl, h, rfl⟩
    rw [if_neg hring, if_neg hring]
    by_cases hnarrowable : T.isNarrowable v = true
    · rw [if_pos hnarrowable, if_pos hnarrowable]
      refine .inl ⟨_, _, _, _, rfl, rfl, h.assign hseen hnone hc fun hc ↦ ?_, T.size_assign v c⟩
      exact hring (TypeTable.openVar?_eq_some.mpr hc)
    · rw [if_neg hnarrowable, if_neg hnarrowable]
      exact .inr ⟨_, rfl, rfl⟩

end Mirrors

end View

end TaggedLisp
