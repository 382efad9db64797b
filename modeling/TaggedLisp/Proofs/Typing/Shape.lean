import TaggedLisp.Proofs.Expr.Values
import TaggedLisp.Proofs.Typing

/-!
# Functions of the same shape

Agreement of two types says little where one of them is `any` or a placeholder. What a call needs to
know of its callee is only how many arguments it takes, and `TypeTable.Alike` says of two types that
they are certain to have this in common: they are function types that take as many arguments, and so
are the types of what they answer, for a number of calls one after another.

Two types that agreed at some time are alike for good as far as both are written out
(`alike_of_satisfies`), and two types that agree in a table are alike there as far as the table
knows them (`ChainsEnd.alike_shared`).
-/

namespace TaggedLisp

theorem Ty.length_eq_of_agreesAll : ∀ {ts us : List Ty}, Ty.agreesAll ts us = true →
    ts.length = us.length
  | [], [], _ => rfl
  | t :: ts, u :: us, h => by
    rw [agreesAll, Bool.and_eq_true] at h
    exact congrArg Nat.succ (length_eq_of_agreesAll h.2)

/-- Functions that agree take as many arguments. -/
theorem Ty.arityOf_eq_of_agrees {params params' : List Ty} {rest rest' : Option Ty} {ret ret' : Ty}
    (h : (Ty.fn params rest ret).agrees (.fn params' rest' ret') = true) :
    arityOf params rest = arityOf params' rest' ∧ ret.agrees ret' = true := by
  simp only [agrees, Bool.and_eq_true] at h
  obtain ⟨⟨hparams, hrest⟩, hret⟩ := h
  have hlength := length_eq_of_agreesAll hparams
  refine ⟨?_, hret⟩
  cases rest with
  | none => cases rest' with
    | none => exact congrArg Arity.exactly hlength
    | some _ => cases hrest
  | some _ => cases rest' with
    | none => cases hrest
    | some _ => exact congrArg Arity.atLeast hlength

theorem arityOf_map (f : Ty → Ty) (params : List Ty) (rest : Option Ty) :
    arityOf (params.map f) (rest.map f) = arityOf params rest := by
  cases rest <;> simp [arityOf]

/-- The type of a function says how many arguments it takes. -/
theorem FnHead.arityOf_eq {h : FnHead} {params : List Ty}
    (hparams : params.length = h.params.length) :
    arityOf params (h.rest.map fun _ ↦ .any) = h.arity := by
  obtain ⟨name, names, rest, isGlobal⟩ := h
  cases rest with
  | none => exact congrArg Arity.exactly hparams
  | some _ => exact congrArg Arity.atLeast hparams

theorem Builtin.arityOf_eq (b : Builtin) :
    arityOf (b.params.map .base) (b.rest.map .base) = b.arity := by
  obtain ⟨name, symbol, params, rest, ret⟩ := b
  cases rest <;> simp [arityOf, Builtin.arity]

theorem arityOf_spread (params : List Ty) (rest : Option Ty) :
    (arityOf params rest).spread = rest.map fun _ ↦ params.length := by
  cases rest <;> rfl

namespace TypeTable

/-- Whether `a` and `b` are functions that take as many arguments, and so is what they answer, for
`depth` calls. -/
def Alike (T : TypeTable) : (depth : Nat) → (a b : Ty) → Prop
  | 0, _, _ => True
  | d + 1, a, b => ∃ params rest ret params' rest' ret',
      T.resolve a = .fn params rest ret ∧ T.resolve b = .fn params' rest' ret' ∧
        arityOf params rest = arityOf params' rest' ∧ Alike T d ret ret'

variable {T T' : TypeTable} {a b c t e : Ty} {d : Nat}

namespace Alike

theorem mono {d' : Nat} (h : T.Alike d a b) (hd : d' ≤ d) : T.Alike d' a b := by
  induction d' generalizing d a b with
  | zero => trivial
  | succ d' ih =>
    obtain ⟨d, rfl⟩ : ∃ n, d = n + 1 := Nat.exists_eq_add_of_le' (Nat.le_trans (Nat.succ_pos d') hd)
    obtain ⟨params, rest, ret, params', rest', ret', ha, hb, harity, hret⟩ := h
    exact ⟨_, _, _, _, _, _, ha, hb, harity, ih hret (Nat.le_of_succ_le_succ hd)⟩

theorem trans (h : T.Alike d a b) (h' : T.Alike d b c) : T.Alike d a c := by
  induction d generalizing a b c with
  | zero => trivial
  | succ d ih =>
    obtain ⟨_, _, _, _, _, _, ha, hb, harity, hret⟩ := h
    obtain ⟨_, _, _, _, _, _, hb', hc, harity', hret'⟩ := h'
    obtain ⟨rfl, rfl, rfl⟩ := Ty.fn.inj (hb.symm.trans hb')
    exact ⟨_, _, _, _, _, _, ha, hc, harity.trans harity', ih hret hret'⟩

theorem symm (h : T.Alike d a b) : T.Alike d b a := by
  induction d generalizing a b with
  | zero => trivial
  | succ d ih =>
    obtain ⟨_, _, _, _, _, _, ha, hb, harity, hret⟩ := h
    exact ⟨_, _, _, _, _, _, hb, ha, harity.symm, ih hret⟩

end Alike

/-! ## Types that agree -/

/-- Types that agree, whatever is put for their placeholders, are alike as far as they are written
out. -/
theorem alike_of_agrees {σ τ : Nat → Ty} (T : TypeTable)
    (h : (a.subst σ).agrees (b.subst τ) = true) : T.Alike (min a.depth b.depth) a b := by
  induction a using Ty.memberInduction generalizing b with
  | base | var => rw [Ty.depth, Nat.zero_min]; trivial
  | fn params rest ret _ _ ih =>
    cases b with
    | base | var => trivial
    | fn params' rest' ret' =>
      simp only [Ty.subst, Ty.substAll_eq_map, Ty.substRest_eq_map] at h
      obtain ⟨harity, hret⟩ := Ty.arityOf_eq_of_agrees h
      rw [arityOf_map, arityOf_map] at harity
      rw [Ty.depth, Ty.depth, Nat.succ_min_succ]
      exact ⟨_, _, _, _, _, _, resolve_fn T _ _ _, resolve_fn T _ _ _, harity, ih hret⟩

/-- What is known is put for the placeholders. -/
theorem exists_expandWithin_eq (n : Nat) (T : TypeTable) (t : Ty) :
    ∃ σ, expandWithin n T t = t.subst σ := by
  cases n with
  | zero => exact ⟨.var, (Ty.subst_var t).symm⟩
  | succ n => exact ⟨_, rfl⟩

/-- Types that satisfied each other in some table are alike as far as they are written out. -/
theorem alike_of_satisfies (T : TypeTable) (h : T'.satisfies a b = true) :
    T.Alike (min a.depth b.depth) a b := by
  obtain ⟨σ, hσ⟩ := exists_expandWithin_eq T'.size T' a
  obtain ⟨τ, hτ⟩ := exists_expandWithin_eq T'.size T' b
  rw [satisfies, expand, expand, hσ, hτ] at h
  exact alike_of_agrees T h

/-! ## Types that a table knows -/

/-- A type that expands to a function type ends in one, and what that answers expands alike. -/
theorem ChainsEnd.exists_fn {T₁ : TypeTable} {n : Nat} (hT : T.ChainsEnd) (h₁ : T₁.Extends T)
    (ht : 0 < (expandWithin n T₁ t).depth) :
    ∃ params rest ret, T.resolve t = .fn params rest ret ∧ ∃ params' rest' m, ∃ T₂ : TypeTable,
      T₂.Extends T ∧ arityOf params' rest' = arityOf params rest ∧
        expandWithin n T₁ t = .fn params' rest' (expandWithin m T₂ ret) := by
  have hloose : ∀ {t : Ty}, t.isLoose = true → ¬ 0 < t.depth := by
    intro t ht hd
    cases t with
    | fn => cases ht
    | base | var => cases hd
  rcases (hT.leadsTo t).expandWithin_cases h₁ with hl | ⟨m, T₂, h₂, heq⟩
  · exact absurd ht (hloose hl)
  · rw [heq] at ht ⊢
    cases he : T.resolve t with
    | base b =>
      rw [he] at ht
      cases m <;> cases ht
    | var v =>
      rw [he] at ht
      exact absurd ht (hloose (isLoose_expandWithin rfl (he ▸ hT.ends_resolve t) h₂))
    | fn params rest ret =>
      refine ⟨params, rest, ret, rfl, ?_⟩
      cases m with
      | zero => exact ⟨params, rest, 0, T₂, h₂, rfl, rfl⟩
      | succ m =>
        refine ⟨_, _, m + 1, T₂, h₂, ?_, rfl⟩
        rw [Ty.substAll_eq_map, Ty.substRest_eq_map, arityOf_map]

/-- Types whose expansions agree are alike as far as these are function types. -/
theorem ChainsEnd.alike_of_expandWithin {T₁ T₂ : TypeTable} {n m : Nat} (hT : T.ChainsEnd)
    (h₁ : T₁.Extends T) (h₂ : T₂.Extends T)
    (hagree : (expandWithin n T₁ a).agrees (expandWithin m T₂ b) = true)
    (ha : d ≤ (expandWithin n T₁ a).depth) (hb : d ≤ (expandWithin m T₂ b).depth) :
    T.Alike d a b := by
  induction d generalizing n m T₁ T₂ a b with
  | zero => trivial
  | succ d ih =>
    obtain ⟨_, _, ret, hfn, _, _, n', T₁', h₁', harity, heq⟩ :=
      hT.exists_fn h₁ (Nat.zero_lt_of_lt ha)
    obtain ⟨_, _, ret', hfn', _, _, m', T₂', h₂', harity', heq'⟩ :=
      hT.exists_fn h₂ (Nat.zero_lt_of_lt hb)
    rw [heq, heq'] at hagree
    rw [heq] at ha
    rw [heq'] at hb
    obtain ⟨hsame, hret⟩ := Ty.arityOf_eq_of_agrees hagree
    exact ⟨_, _, _, _, _, _, hfn, hfn', harity.symm.trans (hsame.trans harity'),
      ih h₁' h₂' hret (Nat.le_of_succ_le_succ ha) (Nat.le_of_succ_le_succ hb)⟩

/-- Types are alike as far as they share what they are known to be. -/
theorem ChainsEnd.alike_shared (hT : T.ChainsEnd) (a b : Ty) : T.Alike (T.shared a b) a b := by
  rw [shared]
  split
  · next hagree =>
    exact hT.alike_of_expandWithin (.refl T) (.refl T) hagree (Nat.min_le_left _ _)
      (Nat.min_le_right _ _)
  · trivial

/-- A type is alike to itself as far as it is known. -/
theorem ChainsEnd.alike_self (hT : T.ChainsEnd) (t : Ty) : T.Alike (T.depth t) t t := by
  have hshared := hT.alike_shared t t
  rwa [shared, if_pos (T.satisfies_refl t), Nat.min_self] at hshared

end TypeTable

end TaggedLisp
