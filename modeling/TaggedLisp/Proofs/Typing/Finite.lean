import TaggedLisp.Proofs.Steps
import TaggedLisp.Proofs.Ty.Reach
import TaggedLisp.Proofs.Ty.Runs

/-!
# Types that mention themselves

Narrowing asks whether the chain of the constraint ends in the placeholder that it is about to fill.
That placeholder can be reached in another way, from inside a function type, and then it comes to
mention itself. `TypeTable.Knots` says that a narrowing does that. Nothing else that is done with a
table makes a type infinite (`ChainsEnd.finite_run_iff`), and all that checking does with its table
is to make, narrow and freeze placeholders, so `Checker.Reached.finite_iff` tells which checkers
know finite types only.

Checking does tie knots. An open placeholder that is called gets the types of the arguments for its
own parameters, and it may be one of the arguments: behind `(fn [x] (x x))` the type of `x` is a
function that takes an `x` (`selfApplication_infinite`).
-/

namespace TaggedLisp

namespace TypeTable

variable {T : TypeTable} {t c e : Ty} {v w : Nat} {a : TableAction}

/-! ## Knots -/

/-- The action narrows an open placeholder and writes `c` into its slot `v`. -/
structure Fills (T : TypeTable) (a : TableAction) (v : Nat) (c : Ty) : Prop where
  narrows : ∃ actual, a = .narrow actual c ∧ T.resolve actual = .var v
  isNarrowable : T.isNarrowable v = true
  other : T.resolve c ≠ .var v
  result : T.perform a = T.assign v c

/-- Whether an action fills a slot with a type that reaches the slot. -/
def Knots (T : TypeTable) (a : TableAction) : Prop := ∃ v c, T.Fills a v c ∧ T.Reaches c v

/-- An action fills one slot with one type. -/
theorem Fills.unique {c' : Ty} (h : T.Fills a v c) (h' : T.Fills a w c') : v = w ∧ c = c' := by
  obtain ⟨actual, rfl, hv⟩ := h.narrows
  obtain ⟨actual', hsame, hw⟩ := h'.narrows
  obtain ⟨rfl, rfl⟩ := TableAction.narrow.inj hsame
  exact ⟨Ty.var.inj (hv.symm.trans hw), rfl⟩

/-- An action that fills no slot leaves in the slots what is there. -/
theorem resolved?_perform (h : ¬ ∃ v c, T.Fills a v c) (w : Nat) :
    (T.perform a).resolved? w = T.resolved? w := by
  cases a with
  | fresh name => exact resolved?_fresh T name w
  | freeze t => exact resolved?_freeze T t w
  | narrow actual constraint =>
    cases hnarrow : T.narrow actual constraint with
    | error fault => simp only [perform, hnarrow]
    | ok r =>
      have hperform : T.perform (.narrow actual constraint) = r.2 := by simp only [perform, hnarrow]
      rcases narrow_ok hnarrow with ⟨hsame, -⟩ | ⟨v, hv, hc, -, -, hopen, hassign⟩
      · rw [hperform, hsame]
      · exact absurd ⟨v, constraint, ⟨actual, rfl, hv⟩, hopen, hc, hperform.trans hassign⟩ h

namespace ChainsEnd

variable (h : T.ChainsEnd)

include h

/-- An action keeps all types finite if and only if it does not tie a knot. -/
theorem finite_perform_iff (a : TableAction) :
    (T.perform a).Finite ↔ T.Finite ∧ ¬ T.Knots a := by
  by_cases hfills : ∃ v c, T.Fills a v c
  · obtain ⟨v, c, hfill⟩ := hfills
    obtain ⟨actual, -, hv⟩ := hfill.narrows
    have hknots : T.Knots a ↔ T.Reaches c v := by
      constructor
      · rintro ⟨w, c', hfill', hreach⟩
        obtain ⟨rfl, rfl⟩ := hfill.unique hfill'
        exact hreach
      · exact fun hreach ↦ ⟨v, c, hfill, hreach⟩
    rw [hfill.result, hknots]
    exact finite_assign_iff (h.ends_resolve actual v hv)
      (lt_size_of_isNarrowable hfill.isNarrowable)
  · have hknots : ¬ T.Knots a := fun ⟨v, c, hfill, _⟩ ↦ hfills ⟨v, c, hfill⟩
    rw [Finite.congr (resolved?_perform hfills)]
    exact ⟨fun hfinite ↦ ⟨hfinite, hknots⟩, And.left⟩

/-- A run keeps all types finite if and only if none of its actions ties a knot. -/
theorem finite_run_iff (as : List TableAction) : (T.run as).Finite ↔
    T.Finite ∧ ∀ i a, as[i]? = some a → ¬ (T.run (as.take i)).Knots a := by
  induction as generalizing T with
  | nil => exact ⟨fun hfinite ↦ ⟨hfinite, nofun⟩, And.left⟩
  | cons a as ih =>
    change ((T.perform a).run as).Finite ↔ _
    rw [ih (h.perform a).1, h.finite_perform_iff]
    constructor
    · rintro ⟨⟨hfinite, ha⟩, has⟩
      refine ⟨hfinite, fun i a' hi ↦ ?_⟩
      cases i with
      | zero => exact Option.some.inj hi ▸ ha
      | succ i => exact has i a' hi
    · rintro ⟨hfinite, has⟩
      exact ⟨⟨hfinite, has 0 a rfl⟩, fun i a' hi ↦ has (i + 1) a' hi⟩

end ChainsEnd

/-! ## Where knots come from -/

/-- A type depends on what its chain visits and on what the end of the chain depends on. -/
theorem Chain.mem_or_reaches {vs : List Nat} (h : T.Chain t vs e) (hv : T.Reaches t v) :
    v ∈ vs ∨ T.Reaches e v := by
  induction h with
  | done _ => exact .inr hv
  | step hw _ ih =>
    cases hv with
    | here hv => exact .inl (List.mem_singleton.mp hv ▸ List.mem_cons_self)
    | through hw' hu hv =>
      obtain rfl := List.mem_singleton.mp hw'
      obtain rfl := Option.some.inj (hw.symm.trans hu)
      exact (ih hv).imp_left (List.mem_cons_of_mem _)

/-- Only a function type ties a knot: where the chain of the constraint ends in a placeholder, the
test that narrowing makes is enough. -/
theorem ChainsEnd.exists_fn_of_knots (h : T.ChainsEnd) (hknots : T.Knots a) :
    ∃ v c params rest ret, T.Fills a v c ∧ T.resolve c = .fn params rest ret ∧
      T.Reaches (.fn params rest ret) v := by
  obtain ⟨v, c, hfill, hreach⟩ := hknots
  obtain ⟨actual, -, hv⟩ := hfill.narrows
  obtain ⟨vs, hvs⟩ := h.chain c
  rcases hvs.mem_or_reaches hreach with hmem | hreach
  · obtain ⟨u, hu⟩ := hvs.resolved_of_mem hmem
    rw [h.ends_resolve actual v hv] at hu
    cases hu
  · cases he : T.resolve c with
    | fn params rest ret => exact ⟨v, c, params, rest, ret, hfill, he, he ▸ hreach⟩
    | base b =>
      rw [he] at hreach
      cases hreach with
      | here hv => cases hv
      | through hw _ _ => cases hw
    | var w =>
      rw [he] at hreach
      cases hreach with
      | here hvw =>
        rw [List.mem_singleton.mp hvw] at hfill
        exact absurd he hfill.other
      | through hw hu _ =>
        obtain rfl := List.mem_singleton.mp hw
        rw [h.ends_resolve c _ he] at hu
        cases hu

end TypeTable

/-! ## Checkers -/

namespace Checker

open TypeTable (empty run)

variable {c c' : Checker}

/-- All that checking does with a table is to make, narrow and freeze placeholders. -/
theorem runs_stepClosed : StepClosed fun c c' ↦ ∃ as, c'.types = c.types.run as where
  refl _ := ⟨[], rfl⟩
  trans c c' c'' := by
    rintro ⟨as, has⟩ ⟨bs, hbs⟩
    exact ⟨as ++ bs, by rw [hbs, has, TypeTable.run_append]⟩
  fresh _ name := ⟨[.fresh name], rfl⟩
  narrow c actual expected t T h := ⟨[.narrow actual expected], by
    simp only [run, List.foldl_cons, List.foldl_nil, TypeTable.perform, h]⟩
  freeze _ t := ⟨[.freeze t], rfl⟩
  define _ _ _ _ := ⟨[], rfl⟩
  nested _ _ h := h

theorem Reached.exists_run (h : c.Reached) : ∃ as, c.types = empty.run as := by
  induction h with
  | start => exact ⟨[], rfl⟩
  | @check c f _ ih =>
    obtain ⟨as, has⟩ := ih
    obtain ⟨bs, hbs⟩ := f.check_leads runs_stepClosed c
    exact ⟨as ++ bs, by rw [hbs, has, TypeTable.run_append]⟩

theorem Reached.chainsEnd (h : c.Reached) : c.types.ChainsEnd := by
  obtain ⟨as, has⟩ := h.exists_run
  exact has ▸ (TypeTable.ChainsEnd.empty.run as).1

/-- The types that a checker knows are finite if and only if no narrowing on the way to it wrote a
type into a slot that this type reached. -/
theorem Reached.finite_iff (h : c.Reached) : ∃ as, c.types = empty.run as ∧
    (c.types.Finite ↔ ∀ i a, as[i]? = some a → ¬ (empty.run (as.take i)).Knots a) := by
  obtain ⟨as, has⟩ := h.exists_run
  refine ⟨as, has, ?_⟩
  rw [has, TypeTable.ChainsEnd.empty.finite_run_iff]
  exact and_iff_right TypeTable.Finite.empty

end Checker

/-- The form `(fn [x] (x x))`. -/
def selfApplication : Form :=
  let symbol (name : String) : Form := .atom (.symbol name) ⟨.symbol, name, 1⟩
  let list (fs : List Form) : Form := .group .list fs ⟨.opening .list, "(", 1⟩
  let vector (fs : List Form) : Form := .group .vector fs ⟨.opening .vector, "[", 1⟩
  list [symbol "fn", vector [symbol "x"], list [symbol "x", symbol "x"]]

/-- The form is accepted, and `x` takes itself from then on. -/
theorem selfApplication_infinite : (selfApplication.check.outcome .start).1.toBool = true ∧
    ¬ (selfApplication.check.outcome .start).2.types.Finite := by
  have hslot : (selfApplication.check.outcome .start).2.types.resolved? 0
      = some (.fn [.var 0] none (.var 1)) := rfl
  exact ⟨rfl, fun hfinite ↦ hfinite 0 _ hslot (.here List.mem_cons_self)⟩

end TaggedLisp
