import TaggedLisp.Proofs.Ty.Later

/-!
# Runs of a table

Three things are done with a table of types: placeholders are made, narrowed and frozen, in any
order. `TypeTable.run` does them one after another, a narrowing that is refused changing nothing.

Narrowing may write a placeholder that is itself unresolved, so what a slot means can change long
after it was written. What is in the slot does not, and that is enough: `Later` holds between any
two tables of a run (`later_stage`), so whatever resolves to a type with a head keeps it. That no
placeholder comes to stand for `any` is a matter of ends of chains. Narrowing asks for more than
`any` at the end of the constraint's chain, and after it every chain ends where it or the
constraint's ended before.
-/

namespace TaggedLisp

/-- What can be done with a table. -/
inductive TableAction where
  | fresh (name : String)
  | narrow (actual constraint : Ty)
  | freeze (t : Ty)

namespace TypeTable

variable {T T' : TypeTable} {t c : Ty} {v : Nat}

/-- The table after an action. A narrowing that is refused leaves it as it is. -/
def perform (T : TypeTable) : TableAction → TypeTable
  | .fresh name => (T.fresh name).2
  | .narrow actual constraint =>
    match T.narrow actual constraint with
    | .ok (_, T') => T'
    | .error _ => T
  | .freeze t => T.freeze t

/-- The table after several actions. -/
def run (T : TypeTable) (as : List TableAction) : TypeTable := as.foldl perform T

theorem run_append (T : TypeTable) (as bs : List TableAction) :
    T.run (as ++ bs) = (T.run as).run bs := List.foldl_append

/-- A refused narrowing aside, an action makes a placeholder, narrows one or freezes a chain. -/
theorem perform_cases (T : TypeTable) (a : TableAction) :
    T.perform a = T ∨ (∃ name, T.perform a = (T.fresh name).2) ∨
      (∃ actual constraint t, T.narrow actual constraint = .ok (t, T.perform a)) ∨
      ∃ t, T.perform a = T.freeze t := by
  cases a with
  | fresh name => exact .inr (.inl ⟨name, rfl⟩)
  | freeze t => exact .inr (.inr (.inr ⟨t, rfl⟩))
  | narrow actual constraint =>
    rw [perform]
    split
    · next t T' h => exact .inr (.inr (.inl ⟨actual, constraint, t, h⟩))
    · exact .inl rfl

/-! ## What is never lost -/

theorem ChainsEnd.perform (h : T.ChainsEnd) (a : TableAction) :
    (T.perform a).ChainsEnd ∧ T.Later (T.perform a) := by
  rcases T.perform_cases a with ha | ⟨name, ha⟩ | ⟨actual, constraint, t, ha⟩ | ⟨t, ha⟩
  · rw [ha]
    exact ⟨h, .refl T⟩
  · rw [ha]
    exact ⟨h.congr (resolved?_fresh T name), .fresh T name⟩
  · exact ⟨h.narrow ha, .narrow h ha⟩
  · rw [ha]
    exact ⟨h.congr (resolved?_freeze T t), .freeze T t⟩

theorem ChainsEnd.run (h : T.ChainsEnd) (as : List TableAction) :
    (T.run as).ChainsEnd ∧ T.Later (T.run as) := by
  induction as generalizing T with
  | nil => exact ⟨h, .refl T⟩
  | cons a as ih =>
    obtain ⟨hends, hlater⟩ := h.perform a
    obtain ⟨hends', hlater'⟩ := ih hends
    exact ⟨hends', hlater.trans hlater'⟩

/-- Whether the table was made from the one without placeholders. -/
def Reachable (T : TypeTable) : Prop := ∃ as, T = empty.run as

theorem Reachable.chainsEnd (h : T.Reachable) : T.ChainsEnd := by
  obtain ⟨as, rfl⟩ := h
  exact (ChainsEnd.empty.run as).1

/-- Placeholders keep their names. -/
theorem name_perform (hv : v < T.size) (a : TableAction) : (T.perform a).name v = T.name v := by
  rcases T.perform_cases a with ha | ⟨name, ha⟩ | ⟨actual, constraint, t, ha⟩ | ⟨t, ha⟩
  · rw [ha]
  · rw [ha, name_fresh, if_neg (Nat.ne_of_lt hv)]
  · rcases narrow_ok ha with ⟨hsame, -⟩ | ⟨w, -, -, -, -, -, hassign⟩
    · rw [hsame]
    · rw [hassign, name_assign]
  · rw [ha, name_freeze]

theorem ChainsEnd.name_run (h : T.ChainsEnd) (hv : v < T.size) (as : List TableAction) :
    (T.run as).name v = T.name v := by
  induction as generalizing T with
  | nil => rfl
  | cons a as ih =>
    obtain ⟨hends, hlater⟩ := h.perform a
    exact (ih hends (Nat.lt_of_lt_of_le hv hlater.size_le)).trans (name_perform hv a)

/-! ## No placeholder stands for `any` -/

/-- Whether no placeholder resolves to `any`. -/
def NoneAny (T : TypeTable) : Prop := ∀ v, (T.resolve (.var v)).isAny = false

theorem NoneAny.empty : NoneAny .empty := fun _ ↦ rfl

theorem NoneAny.congr (h : T.NoneAny) (hT : T.ChainsEnd)
    (hsame : ∀ w, T'.resolved? w = T.resolved? w) : T'.NoneAny := by
  intro v
  obtain ⟨vs, hvs⟩ := hT.chain (.var v)
  have hends : T'.Ends (T.resolve (.var v)) := fun w hw ↦
    (hsame w).trans (hT.ends_resolve (.var v) w hw)
  rw [(hvs.extend (fun w u hw ↦ (hsame w).trans hw) hends).resolve_eq]
  exact h v

theorem NoneAny.narrow {t' : Ty} (h : T.NoneAny) (hT : T.ChainsEnd)
    (hnarrow : T.narrow t c = .ok (t', T')) : T'.NoneAny := by
  rcases narrow_ok hnarrow with ⟨rfl, -⟩ | ⟨v, hv, hc, hany, -, hopen, rfl⟩
  · exact h
  · intro w
    have hnone := hT.ends_resolve t v hv
    rcases hT.resolve_assign_cases hnone (lt_size_of_isNarrowable hopen) hc (.var w) with hw | hw
    · rw [hw]
      exact h w
    · rw [hw]
      exact hany

theorem NoneAny.perform (h : T.NoneAny) (hT : T.ChainsEnd) (a : TableAction) :
    (T.perform a).NoneAny := by
  rcases T.perform_cases a with ha | ⟨name, ha⟩ | ⟨actual, constraint, t, ha⟩ | ⟨t, ha⟩
  · rwa [ha]
  · rw [ha]
    exact h.congr hT (resolved?_fresh T name)
  · exact h.narrow hT ha
  · rw [ha]
    exact h.congr hT (resolved?_freeze T t)

theorem NoneAny.run (h : T.NoneAny) (hT : T.ChainsEnd) (as : List TableAction) :
    (T.run as).NoneAny := by
  induction as generalizing T with
  | nil => exact h
  | cons a as ih => exact ih (h.perform hT a) (hT.perform a).1

/-! ## What is frozen -/

/-- The end of a chain is closed to narrowing once the chain is frozen. -/
theorem ChainsEnd.isNarrowable_freeze_end (h : T.ChainsEnd) (hv : T.resolve t = .var v) :
    (T.freeze t).isNarrowable v = false := by
  obtain ⟨vs, hvs⟩ := h.chain t
  rw [Bool.eq_false_iff, ne_eq, hvs.isNarrowable_freeze, hv]
  exact fun hopen ↦ hopen.2.2 rfl

/-! ## Stages of a run -/

/-- The table after the first `i` actions, from the table without placeholders on. -/
def stage (as : List TableAction) (i : Nat) : TypeTable := empty.run (as.take i)

section

variable (as : List TableAction)

theorem chainsEnd_stage (i : Nat) : (stage as i).ChainsEnd := (ChainsEnd.empty.run _).1

theorem later_stage {i j : Nat} (hij : i ≤ j) : (stage as i).Later (stage as j) := by
  have hsplit : as.take j = as.take i ++ (as.take j).drop i := by
    conv_lhs => rw [← List.take_append_drop i (as.take j), List.take_take, Nat.min_eq_left hij]
  rw [stage, stage, hsplit, run_append]
  exact ((chainsEnd_stage as i).run _).2

theorem stage_succ {i : Nat} {a : TableAction} (ha : as[i]? = some a) :
    stage as (i + 1) = (stage as i).perform a := by
  rw [stage, List.take_add_one, ha, run_append]
  rfl

/-- An action that changes what is in a slot finds it empty and fills it. -/
theorem stage_written {i v : Nat}
    (h : (stage as (i + 1)).resolved? v ≠ (stage as i).resolved? v) :
    (stage as i).resolved? v = none ∧ ∃ u, (stage as (i + 1)).resolved? v = some u := by
  have hwrites := (later_stage as (Nat.le_succ i)).writes
  cases hv : (stage as i).resolved? v with
  | some u => exact absurd ((hwrites hv).trans hv.symm) h
  | none => exact ⟨rfl, Option.ne_none_iff_exists'.mp fun hnone ↦ h (hnone.trans hv.symm)⟩

theorem not_written_twice {i j v : Nat} (hij : i < j)
    (hi : (stage as (i + 1)).resolved? v ≠ (stage as i).resolved? v) :
    (stage as (j + 1)).resolved? v = (stage as j).resolved? v := by
  by_contra hj
  obtain ⟨-, u, hu⟩ := stage_written as hi
  obtain ⟨hnone, -⟩ := stage_written as hj
  rw [(later_stage as hij).writes hu] at hnone
  cases hnone

/-- What is unresolved when it is frozen stays so. -/
theorem resolve_stage_frozen {i j v : Nat} (ha : as[i]? = some (.freeze t)) (hij : i < j)
    (hv : (stage as i).resolve t = .var v) (hsize : v < (stage as i).size) :
    (stage as j).resolved? v = none ∧ (stage as j).resolve t = .var v := by
  have hends := chainsEnd_stage as i
  have hlater : ((stage as i).freeze t).Later (stage as j) := by
    have hlater := later_stage as (Nat.succ_le_of_lt hij)
    rwa [stage_succ as ha] at hlater
  have hnone : (stage as j).resolved? v = none := by
    refine (hlater.closed v ?_ (hends.isNarrowable_freeze_end hv)).2 ?_
    · rwa [size_freeze]
    · rw [resolved?_freeze, hends.ends_resolve t v hv]
  exact ⟨hnone, (later_stage as (Nat.le_of_lt hij)).writes.resolve_eq_var hends hv hnone⟩

/-- **What a table knows only grows.** Whatever is made, narrowed and frozen in whatever order, a
slot is written once at most and keeps what was written, no placeholder resolves to `any`, and a
slot that is closed to narrowing stays closed. A placeholder that is unresolved when it is frozen
stays unresolved, and a type that resolves to one with a head resolves to that from then on. -/
theorem stages_grow :
    (∀ v i j, (stage as (i + 1)).resolved? v ≠ (stage as i).resolved? v →
        (stage as (j + 1)).resolved? v ≠ (stage as j).resolved? v → i = j) ∧
      (∀ i v, (stage as i).resolve (.var v) ≠ .any) ∧
      (∀ i j, i < j → ∀ t v, as[i]? = some (.freeze t) → v < (stage as i).size →
        (stage as i).resolve t = .var v →
          (stage as j).resolved? v = none ∧ (stage as j).resolve t = .var v) ∧
      ∀ i j, i ≤ j →
        (∀ v u, (stage as i).resolved? v = some u → (stage as j).resolved? v = some u) ∧
        (∀ v, v < (stage as i).size → (stage as i).isNarrowable v = false →
          (stage as j).isNarrowable v = false) ∧
        ∀ t e, (stage as i).resolve t = e → (∀ v, e ≠ .var v) → (stage as j).resolve t = e := by
  refine ⟨fun v i j hi hj ↦ ?_, fun i v hany ↦ ?_, fun i j hij t v ha hsize hv ↦ ?_,
    fun i j hij ↦ ⟨fun v u hu ↦ ?_, fun v hv hclosed ↦ ?_, fun t e he hhead ↦ ?_⟩⟩
  · rcases Nat.lt_trichotomy i j with hij | hij | hij
    · exact absurd (not_written_twice as hij hi) hj
    · exact hij
    · exact absurd (not_written_twice as hij hj) hi
  · have hnone := NoneAny.empty.run .empty (as.take i) v
    rw [← stage, hany] at hnone
    cases hnone
  · exact resolve_stage_frozen as ha hij hv hsize
  · exact (later_stage as hij).writes hu
  · exact ((later_stage as hij).closed v hv hclosed).1
  · exact (later_stage as hij).resolve_eq (chainsEnd_stage as i) he hhead

end

/-- `x` is narrowed to `y` and `y` to a number, while `z` is frozen before it is narrowed. -/
def aliasedActions : List TableAction :=
  [.fresh "x", .fresh "y", .fresh "z", .narrow (.var 0) (.var 1), .freeze (.var 2),
    .narrow (.var 0) .number, .narrow (.var 2) .string, .narrow (.var 1) .string]

/-- What is in the slot of `x` stays there when it comes to mean a number, and `z` stays open. -/
theorem aliasedActions_grow :
    (stage aliasedActions 4).resolved? 0 = some (.var 1) ∧
      (stage aliasedActions 6).resolve (.var 0) = .number ∧
      (stage aliasedActions 8).resolved? 0 = some (.var 1) ∧
      (stage aliasedActions 8).resolve (.var 0) = .number ∧
      (stage aliasedActions 8).resolve (.var 2) = .var 2 := by
  have hslot : (stage aliasedActions 4).resolved? 0 = some (.var 1) := rfl
  have hx : (stage aliasedActions 6).resolve (.var 0) = .number := rfl
  have hz : (stage aliasedActions 4).resolve (.var 2) = .var 2 := rfl
  obtain ⟨-, -, hfrozen, hlater⟩ := stages_grow aliasedActions
  exact ⟨hslot, hx, (hlater 4 8 (by decide)).1 0 (.var 1) hslot,
    (hlater 6 8 (by decide)).2.2 (.var 0) .number hx nofun,
    (hfrozen 4 8 (by decide) (.var 2) 2 rfl (by decide) hz).2⟩

end TypeTable

end TaggedLisp
