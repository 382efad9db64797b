import TaggedLisp.Proofs.Ty.Runs

/-!
# Outcomes of a narrowing

A narrowing asks for nothing, is refused or is granted. Which of these it is depends on where the
chains of the two types end, and `narrow_eq_incompatible_iff` and `narrow_eq_frozen_iff` say when it
is refused and with which fault.

A refused narrowing leaves no table, so that one goes on with the old one. A granted one writes into
one slot at most: the unresolved placeholder at the end of the chain that is narrowed gets the
constraint (`narrow_slot_iff`). It is written as it stands, so the chain that is narrowed now comes
by the constraint, and both end in the same place (`ChainsEnd.resolve_narrowed`).
-/

namespace TaggedLisp

namespace TypeTable

variable {T T' : TypeTable} {a c t : Ty} {v w : Nat}

/-! ## Refusals -/

/-- A narrowing that asks for something it could have depends on the end of the chain only. -/
theorem narrow_eq_match (hany : (T.resolve c).isAny = false) (hagree : T.satisfies a c = true) :
    T.narrow a c = match T.openVar? a with
      | none => .ok (c, T)
      | some v =>
        if T.openVar? c = some v then .ok (c, T)
        else if T.isNarrowable v then .ok (c, T.assign v c)
        else .error .frozen := by
  rw [narrow, hany, hagree]
  rfl

theorem narrow_eq_incompatible_iff : T.narrow a c = .error .incompatible ↔
    (T.resolve c).isAny = false ∧ T.satisfies a c = false := by
  by_cases hany : (T.resolve c).isAny = true
  · simp [narrow, hany]
  by_cases hagree : T.satisfies a c = true
  · rw [Bool.not_eq_true] at hany
    rw [narrow_eq_match hany hagree, hagree]
    constructor
    · intro h
      split at h
      · cases h
      · split at h
        · cases h
        · split at h <;> cases h
    · rintro ⟨-, ⟨⟩⟩
  · simp [narrow, hany, hagree]

theorem narrow_eq_frozen_iff : T.narrow a c = .error .frozen ↔
    (T.resolve c).isAny = false ∧ T.satisfies a c = true ∧
      ∃ v, T.resolve a = .var v ∧ T.isNarrowable v = false ∧ T.resolve c ≠ .var v := by
  by_cases hany : (T.resolve c).isAny = true
  · simp [narrow, hany]
  by_cases hagree : T.satisfies a c = true
  · rw [Bool.not_eq_true] at hany
    rw [narrow_eq_match hany hagree]
    simp only [hany, hagree, true_and, ← openVar?_eq_some, ne_eq]
    cases T.openVar? a with
    | none => simp
    | some v =>
      by_cases hsame : T.openVar? c = some v
      · simp [hsame]
      · by_cases hopen : T.isNarrowable v = true <;> simp [hsame, hopen]
  · simp [narrow, hany, hagree]

/-! ## Slots -/

theorem getElem?_assign (T : TypeTable) (v w : Nat) (c : Ty) : (T.assign v c).slots[w]? =
    if v = w then T.slots[w]?.map fun s ↦ { s with resolved := some c } else T.slots[w]? := by
  rw [assign, Array.getElem?_modify]

/-- A slot that is empty changes when something is written into it. -/
theorem getElem?_assign_ne (hnone : T.resolved? v = none) (hsize : v < T.size) (c : Ty) :
    (T.assign v c).slots[v]? ≠ T.slots[v]? := by
  intro h
  have hwritten : (T.assign v c).resolved? v = some c := by
    rw [resolved?_assign, if_pos ⟨rfl, hsize⟩]
  rw [resolved?, h, ← resolved?, hnone] at hwritten
  cases hwritten

/-- A granted narrowing writes into the slot in which the chain ends that is narrowed, if that is
not where the constraint ends and the constraint asks for anything, and into no other slot. -/
theorem ChainsEnd.narrow_slot_iff (h : T.ChainsEnd) (hnarrow : T.narrow a c = .ok (t, T'))
    (w : Nat) : T'.slots[w]? ≠ T.slots[w]? ↔
      T.resolve a = .var w ∧ (T.resolve c).isAny = false ∧ T.resolve c ≠ .var w := by
  rcases narrow_ok hnarrow with ⟨rfl, hkept⟩ | ⟨v, hv, hc, hany, -, hopen, rfl⟩
  · refine ⟨fun hne ↦ absurd rfl hne, fun ⟨hw, hany, hc⟩ ↦ ?_⟩
    rcases hkept with hkept | ⟨-, hsame⟩
    · rw [hany] at hkept
      cases hkept
    · exact absurd (hsame w hw) hc
  · constructor
    · intro hne
      by_cases hvw : v = w
      · subst hvw
        exact ⟨hv, hany, hc⟩
      · rw [getElem?_assign, if_neg hvw] at hne
        exact absurd rfl hne
    · rintro ⟨hw, -, -⟩
      obtain rfl := Ty.var.inj (hv.symm.trans hw)
      exact getElem?_assign_ne (h.ends_resolve a v hv) (lt_size_of_isNarrowable hopen) c

/-- If a narrowing writes anything, both types resolve to the same one afterwards. -/
theorem ChainsEnd.resolve_narrowed (h : T.ChainsEnd) (hnarrow : T.narrow a c = .ok (t, T'))
    (hw : T'.slots[w]? ≠ T.slots[w]?) : T.isNarrowable w = true ∧
      T'.slots[w]? = T.slots[w]?.map (fun s ↦ { s with resolved := some c }) ∧
      T'.resolve a = T'.resolve c := by
  obtain ⟨hend, -, -⟩ := (h.narrow_slot_iff hnarrow w).mp hw
  rcases narrow_ok hnarrow with ⟨rfl, -⟩ | ⟨v, hv, hc, -, -, hopen, rfl⟩
  · exact absurd rfl hw
  · obtain rfl := Ty.var.inj (hv.symm.trans hend)
    have hnone := h.ends_resolve a v hv
    have hsize := lt_size_of_isNarrowable hopen
    refine ⟨hopen, by rw [getElem?_assign, if_pos rfl], ?_⟩
    rw [h.resolve_assign_of_eq hnone hsize hc hv, h.resolve_assign_of_ne hnone c hc]

/-- A narrowing answers its constraint, unless that asks for nothing. -/
theorem narrow_answer (hnarrow : T.narrow a c = .ok (t, T')) :
    t = if (T.resolve c).isAny then a else c := by
  by_cases hany : (T.resolve c).isAny = true
  · rw [narrow, if_pos hany] at hnarrow
    cases hnarrow
    rw [if_pos hany]
  · rw [narrow, if_neg hany] at hnarrow
    rw [if_neg hany]
    split at hnarrow
    · cases hnarrow
    · split at hnarrow
      · cases hnarrow
        rfl
      · split at hnarrow
        · cases hnarrow
          rfl
        · split at hnarrow
          · cases hnarrow
            rfl
          · cases hnarrow

/-! ## Narrowing as a whole -/

/-- **Narrowing is exact and all or nothing.** In every table that was made by making, narrowing and
freezing placeholders: a narrowing is refused as incompatible if and only if the constraint asks for
something that the type does not satisfy, and as frozen if and only if it is satisfied and the chain
of the type ends in a placeholder that is closed to narrowing and is not the one in which the
constraint ends. A refused narrowing changes nothing. A granted one changes the slot of the open
placeholder at the end of the chain of the type, unless the constraint is `any` or ends there too;
it writes the constraint into it and leaves all other slots as they are, and then both types resolve
to the same one. -/
theorem narrow_exact (h : T.Reachable) (a c : Ty) :
    (T.narrow a c = .error .incompatible ↔
        (T.resolve c).isAny = false ∧ T.satisfies a c = false) ∧
      (T.narrow a c = .error .frozen ↔ (T.resolve c).isAny = false ∧ T.satisfies a c = true ∧
        ∃ v, T.resolve a = .var v ∧ T.isNarrowable v = false ∧ T.resolve c ≠ .var v) ∧
      (∀ fault, T.narrow a c = .error fault → T.perform (.narrow a c) = T) ∧
      ∀ t T', T.narrow a c = .ok (t, T') →
        t = (if (T.resolve c).isAny then a else c) ∧
        ∀ w,
          (T'.slots[w]? ≠ T.slots[w]? ↔
            T.resolve a = .var w ∧ (T.resolve c).isAny = false ∧ T.resolve c ≠ .var w) ∧
          (T'.slots[w]? ≠ T.slots[w]? → T.isNarrowable w = true ∧
            T'.slots[w]? = T.slots[w]?.map (fun s ↦ { s with resolved := some c }) ∧
            T'.resolve a = T'.resolve c) := by
  refine ⟨narrow_eq_incompatible_iff, narrow_eq_frozen_iff, fun fault hfault ↦ ?_,
    fun t T' hok ↦ ⟨narrow_answer hok, fun w ↦ ⟨?_, ?_⟩⟩⟩
  · simp only [perform, hfault]
  · exact h.chainsEnd.narrow_slot_iff hok w
  · exact h.chainsEnd.resolve_narrowed hok

/-- `x` is narrowed to `y`, and `z` is frozen. -/
def mixedActions : List TableAction :=
  [.fresh "x", .fresh "y", .fresh "z", .narrow (.var 0) (.var 1), .freeze (.var 2)]

/-- To narrow `x` writes into the slot of `y`, `z` refuses, and a number is no string. -/
theorem mixedActions_outcomes :
    (empty.run mixedActions).narrow (.var 2) .string = .error .frozen ∧
      (empty.run mixedActions).narrow .number .string = .error .incompatible ∧
      ∃ t T', (empty.run mixedActions).narrow (.var 0) .number = .ok (t, T') ∧ t = .number ∧
        T'.slots[0]? = (empty.run mixedActions).slots[0]? ∧
        T'.slots[1]? ≠ (empty.run mixedActions).slots[1]? ∧
        T'.resolve (.var 0) = T'.resolve .number := by
  have hreachable : (empty.run mixedActions).Reachable := ⟨mixedActions, rfl⟩
  obtain ⟨-, hfrozen, -⟩ := narrow_exact hreachable (.var 2) .string
  obtain ⟨hincompatible, -⟩ := narrow_exact hreachable .number .string
  obtain ⟨-, -, -, hgranted⟩ := narrow_exact hreachable (.var 0) .number
  obtain ⟨t, T', hok⟩ :
      ∃ t T', (empty.run mixedActions).narrow (.var 0) .number = .ok (t, T') := ⟨_, _, rfl⟩
  obtain ⟨hanswer, hslots⟩ := hgranted t T' hok
  have hy : T'.slots[1]? ≠ (empty.run mixedActions).slots[1]? := (hslots 1).1.mpr ⟨rfl, rfl, nofun⟩
  refine ⟨hfrozen.mpr ⟨rfl, rfl, 2, rfl, rfl, nofun⟩, hincompatible.mpr ⟨rfl, rfl⟩, t, T', hok,
    hanswer, ?_, hy, ((hslots 1).2 hy).2.2⟩
  by_contra hx
  obtain ⟨hend, -, -⟩ := (hslots 0).1.mp hx
  cases hend

end TypeTable

end TaggedLisp
