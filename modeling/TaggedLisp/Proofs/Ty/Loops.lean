import Mathlib.Logic.Relation
import TaggedLisp.Proofs.Ty.Reach
import TaggedLisp.Proofs.Ty.Runs

/-!
# Loops along chains

A table bounds its walks along chains by the number of its slots. Here they are loops: a round is
repeated as long as it comes to a resolved placeholder. Such a loop could run in a ring for ever, or
ask for a slot that does not exist. `loops_end` says that neither happens, and that the bounded
walks find what the loops find.

No order on the placeholders bounds a chain, since one may be narrowed to a placeholder that was
made before it as well as to one made after it. What keeps a chain from being closed is one test: a
narrowing writes nothing when both chains end in the same place. `ChainsEnd.assign_iff` says that it
takes exactly this test. It does not look into function types, so a function type may come to
mention itself; a chain stops at it all the same.
-/

namespace TaggedLisp

/-! ## Loops -/

/-- Repeating `round` from `a` on comes to an end, with the answer `b`. A round goes on with another
state, gives the answer, or fails, and a loop that comes to a failing round has no answer. -/
inductive LoopEnds {α β : Type} (round : α → Option (α ⊕ β)) : (a : α) → (b : β) → Prop where
  | last {a b} (h : round a = some (.inr b)) : LoopEnds round a b
  | again {a a' b} (h : round a = some (.inl a')) (rest : LoopEnds round a' b) : LoopEnds round a b

/-- A loop has one answer at most. -/
theorem LoopEnds.unique {α β : Type} {round : α → Option (α ⊕ β)} {a : α} {b b' : β}
    (h : LoopEnds round a b) (h' : LoopEnds round a b') : b = b' := by
  induction h with
  | last h =>
    cases h' with
    | last h' => exact Sum.inr.inj (Option.some.inj (h.symm.trans h'))
    | again h' _ => rw [h] at h'; cases h'
  | again h _ ih =>
    cases h' with
    | last h' => rw [h] at h'; cases h'
    | again h' rest' =>
      obtain rfl := Sum.inl.inj (Option.some.inj (h.symm.trans h'))
      exact ih rest'

namespace TypeTable

variable {T T' : TypeTable} {t c e : Ty} {v w : Nat} {vs : List Nat}

/-- A round of `resolve`. It fails at a placeholder that has no slot. -/
def resolveRound (T : TypeTable) : Ty → Option (Ty ⊕ Ty)
  | .var v =>
    if v < T.size then
      match T.resolved? v with
      | some u => some (.inl u)
      | none => some (.inr (.var v))
    else none
  | t => some (.inr t)

/-- A round of `freeze`, which closes the slot that it comes to. -/
def freezeRound : TypeTable × Ty → Option (TypeTable × Ty ⊕ TypeTable)
  | (T, .var v) =>
    if v < T.size then
      match T.resolved? v with
      | some u => some (.inl (T.close v, u))
      | none => some (.inr (T.close v))
    else none
  | (T, _) => some (.inr T)

theorem Chain.resolve_loop (h : T.Chain t vs e) (he : ∀ v, e = .var v → v < T.size) :
    LoopEnds T.resolveRound t e := by
  induction h with
  | @done e hends =>
    cases e with
    | base | fn => exact .last rfl
    | var v => exact .last (by rw [resolveRound, if_pos (he v rfl), hends v rfl])
  | step hv _ ih =>
    exact .again (by rw [resolveRound, if_pos (lt_size_of_resolved hv), hv]) (ih he)

/-- The slots that were closed on the way are still there, with what is written in them. -/
theorem Chain.freezeWithin_loop (h : T.Chain t vs e) (he : ∀ v, e = .var v → v < T.size)
    (hsize : T'.size = T.size) (hsame : ∀ w, T'.resolved? w = T.resolved? w) {n : Nat}
    (hn : vs.length ≤ n) (hlast : ∀ v, e = .var v → vs.length < n) :
    LoopEnds freezeRound (T', t) (freezeWithin n T' t) := by
  induction h generalizing n T' with
  | @done e hends =>
    cases e with
    | base | fn =>
      cases n with
      | zero | succ => exact .last rfl
    | var v =>
      obtain ⟨n, rfl⟩ : ∃ m, n = m + 1 :=
        ⟨n - 1, (Nat.succ_pred_eq_of_pos (Nat.zero_lt_of_lt (hlast v rfl))).symm⟩
      have hnone : T'.resolved? v = none := (hsame v).trans (hends v rfl)
      rw [freezeWithin, hnone]
      exact .last (by rw [freezeRound, if_pos (hsize ▸ he v rfl), hnone])
  | @step v u vs e hv _ ih =>
    obtain ⟨n, rfl⟩ : ∃ m, n = m + 1 :=
      ⟨n - 1, (Nat.succ_pred_eq_of_pos (Nat.zero_lt_of_lt hn)).symm⟩
    have hv' : T'.resolved? v = some u := (hsame v).trans hv
    rw [freezeWithin, hv']
    refine .again (by rw [freezeRound, if_pos (hsize ▸ lt_size_of_resolved hv), hv']) ?_
    refine ih he ((size_close T' v).trans hsize) (fun w ↦ (resolved?_close T' v w).trans (hsame w))
      (Nat.le_of_succ_le_succ hn) fun w hw ↦ Nat.lt_of_succ_lt_succ (hlast w hw)

theorem Chain.freeze_loop (h : T.Chain t vs e) (he : ∀ v, e = .var v → v < T.size) :
    LoopEnds freezeRound (T, t) (T.freeze t) :=
  h.freezeWithin_loop he rfl (fun _ ↦ rfl) h.length_le fun v hv ↦
    (hv ▸ h).length_lt (he v hv)

/-! ## Rings -/

/-- Whether `v` is resolved to the placeholder `w`. -/
def Aliases (T : TypeTable) (v w : Nat) : Prop := T.resolved? v = some (.var w)

theorem leadsTo_of_aliases (h : Relation.TransGen T.Aliases v w) :
    ∃ u, T.resolved? v = some u ∧ T.LeadsTo u (.var w) := by
  induction h with
  | single hw => exact ⟨_, hw, .refl⟩
  | tail _ hw ih =>
    obtain ⟨u, hu, hlead⟩ := ih
    exact ⟨u, hu, hlead.trans (.step hw .refl)⟩

/-- No chain comes back to a placeholder. -/
theorem ChainsEnd.not_ring (h : T.ChainsEnd) (v : Nat) : ¬ Relation.TransGen T.Aliases v v := by
  intro hring
  obtain ⟨u, hu, hlead⟩ := leadsTo_of_aliases hring
  exact h.not_leadsTo hu hlead

/-- Writing into an unresolved slot leaves all chains with an end if and only if the chain of what
is written does not end in that slot. -/
theorem ChainsEnd.assign_iff (h : T.ChainsEnd) (hnone : T.resolved? v = none) (hsize : v < T.size) :
    (T.assign v c).ChainsEnd ↔ T.resolve c ≠ .var v := by
  refine ⟨fun hassign hc ↦ ?_, h.assign hnone⟩
  have hwritten : (T.assign v c).resolved? v = some c := by
    rw [resolved?_assign, if_pos ⟨rfl, hsize⟩]
  exact hassign.not_leadsTo hwritten ((hc ▸ h.leadsTo c).extend (extends_assign hnone c))

end TypeTable

/-! ## Actions on the placeholders of a table -/

instance (n : Nat) (t : Ty) : Decidable (t.Over n) :=
  inferInstanceAs (Decidable (∀ v ∈ t.vars, v < n))

/-- Whether the action mentions only the first `n` placeholders. -/
def TableAction.Over (n : Nat) : TableAction → Prop
  | fresh _ => True
  | narrow actual constraint => actual.Over n ∧ constraint.Over n
  | freeze t => t.Over n

instance (n : Nat) : (a : TableAction) → Decidable (a.Over n)
  | .fresh _ => inferInstanceAs (Decidable True)
  | .narrow actual constraint => inferInstanceAs (Decidable (actual.Over n ∧ constraint.Over n))
  | .freeze t => inferInstanceAs (Decidable (t.Over n))

namespace TypeTable

variable {T : TypeTable} {a : TableAction} {as : List TableAction}

/-- Whether each of the actions mentions only placeholders that the table has by then. -/
def Covers : TypeTable → List TableAction → Prop
  | _, [] => True
  | T, a :: as => a.Over T.size ∧ (T.perform a).Covers as

/-- Whether a table covers the actions, one after the other. -/
def decideCovers : (T : TypeTable) → (as : List TableAction) → Decidable (T.Covers as)
  | _, [] => inferInstanceAs (Decidable True)
  | T, a :: as =>
    have := decideCovers (T.perform a) as
    inferInstanceAs (Decidable (a.Over T.size ∧ (T.perform a).Covers as))

instance : Decidable (T.Covers as) := decideCovers T as

theorem Sound.perform (h : T.Sound) (ha : a.Over T.size) : (T.perform a).Sound := by
  cases a with
  | fresh name => exact h.fresh name
  | freeze t => exact h.freeze t
  | narrow actual constraint =>
    rw [TypeTable.perform]
    split
    · next hnarrow => exact h.narrow ha.2 hnarrow
    · exact h

theorem Sound.run (h : T.Sound) (has : T.Covers as) : (T.run as).Sound := by
  induction as generalizing T with
  | nil => exact h
  | cons a as ih => exact ih (h.perform has.1) has.2

/-- **Chains of placeholders end.** Whatever is made, narrowed and frozen in whatever order, as long
as the types mention placeholders that there are: no placeholder leads back to itself through
placeholders, and from every type the loops of `resolve` and `freeze` come to an end and have the
answers of the bounded walks. Function types that mention themselves are no exception. -/
theorem loops_end (has : empty.Covers as) :
    (∀ v, ¬ Relation.TransGen (empty.run as).Aliases v v) ∧
      ∀ t, t.Over (empty.run as).size →
        (∀ e, LoopEnds (empty.run as).resolveRound t e ↔ e = (empty.run as).resolve t) ∧
        ∀ T, LoopEnds freezeRound (empty.run as, t) T ↔ T = (empty.run as).freeze t := by
  have hsound : (empty.run as).Sound := Sound.empty.run has
  refine ⟨hsound.ends.not_ring, fun t ht ↦ ?_⟩
  obtain ⟨vs, hvs⟩ := hsound.ends.chain t
  have hend : ∀ v, (empty.run as).resolve t = .var v → v < (empty.run as).size := fun v hv ↦
    hsound.lt_size ht hv
  constructor
  · intro e
    have hloop := hvs.resolve_loop hend
    exact ⟨fun h ↦ h.unique hloop, fun h ↦ h ▸ hloop⟩
  · intro T
    have hloop := hvs.freeze_loop hend
    exact ⟨fun h ↦ h.unique hloop, fun h ↦ h ▸ hloop⟩

/-- `x` is narrowed to `z`, which was made after it, `z` to `y`, which was made before it, and `y`
to a function that takes an `x`. -/
def crossedActions : List TableAction :=
  [.fresh "x", .fresh "y", .fresh "z", .narrow (.var 0) (.var 2), .narrow (.var 2) (.var 1),
    .narrow (.var 1) (.fn [.var 0] none .number)]

/-- The chain of `x` ends at the function, although no finite type is the one of `x`. -/
theorem crossedActions_loops : empty.Covers crossedActions ∧
    ¬ (empty.run crossedActions).Finite ∧
    (∀ v, ¬ Relation.TransGen (empty.run crossedActions).Aliases v v) ∧
    LoopEnds (empty.run crossedActions).resolveRound (.var 0) (.fn [.var 0] none .number) ∧
    LoopEnds freezeRound (empty.run crossedActions, .var 0)
      ((((empty.run crossedActions).close 0).close 2).close 1) := by
  have hcovers : empty.Covers crossedActions := by decide
  have hx : (empty.run crossedActions).resolved? 0 = some (.var 2) := rfl
  have hy : (empty.run crossedActions).resolved? 1 = some (.fn [.var 0] none .number) := rfl
  have hz : (empty.run crossedActions).resolved? 2 = some (.var 1) := rfl
  obtain ⟨hring, hloops⟩ := loops_end hcovers
  obtain ⟨hresolve, hfreeze⟩ := hloops (.var 0) (by decide)
  refine ⟨hcovers, fun hfinite ↦ ?_, hring, (hresolve _).mpr rfl, (hfreeze _).mpr rfl⟩
  -- the function takes an `x`, whose chain comes to the function
  have hfn : (empty.run crossedActions).Reaches (.var 2) 1 :=
    .through List.mem_cons_self hz (.here List.mem_cons_self)
  exact hfinite 1 _ hy (.through List.mem_cons_self hx hfn)

end TypeTable

end TaggedLisp
