import TaggedLisp.Proofs.Ty.Acyclic
import TaggedLisp.Proofs.Ty.Runs

/-!
# Consistency of types

`satisfies` expands two types and asks whether the results agree. The same can be found out without
expanding anything: follow both chains, compare the heads at their ends, and go on with the parts.
`Compared` describes such a comparison. It may pass over two function types that are the same, as
one does that knows them to be one object.

On types without cycles both ways come to the same answer (`Compared.eq_all`,
`Acyclic.compared_cons`), which follows from one equation: types satisfy each other if the end of
one of the chains is loose, or if both have the same head and their parts satisfy each other
(`Acyclic.satisfies_eq`).

Narrowing puts types for placeholders. What agrees afterwards agreed before
(`Ty.agrees_of_agrees_subst`), since a placeholder agrees with everything.
-/

namespace TaggedLisp

namespace Ty

/-! ## Agreement -/

theorem agreesAll_comm {ts us : List Ty} (h : ∀ t ∈ ts, ∀ u, t.agrees u = u.agrees t) :
    agreesAll ts us = agreesAll us ts := by
  induction ts generalizing us with
  | nil => cases us <;> rfl
  | cons t ts ih =>
    obtain ⟨ht, hts⟩ := List.forall_mem_cons.mp h
    cases us with
    | nil => rfl
    | cons u us => rw [agreesAll, agreesAll, ht, ih hts]

theorem agreesRest_comm {r s : Option Ty} (h : ∀ t ∈ r, ∀ u, t.agrees u = u.agrees t) :
    agreesRest r s = agreesRest s r := by
  cases r with
  | none => cases s <;> rfl
  | some t =>
    cases s with
    | none => rfl
    | some u => exact h t rfl u

theorem agrees_comm (a b : Ty) : a.agrees b = b.agrees a := by
  induction a using memberInduction generalizing b with
  | base x =>
    cases b with
    | base y => cases x <;> cases y <;> rfl
    | fn | var => rfl
  | var v => cases b <;> rfl
  | fn params rest ret ihparams ihrest ihret =>
    cases b with
    | base | var => rfl
    | fn params' rest' ret' =>
      rw [agrees, agrees, agreesAll_comm ihparams, agreesRest_comm ihrest, ihret]

section

variable {σ τ : Nat → Ty}

theorem agreesAll_of_agrees_subst {ts us : List Ty}
    (h : ∀ t ∈ ts, ∀ u, (t.subst σ).agrees (u.subst τ) = true → t.agrees u = true)
    (hagree : agreesAll (ts.map (subst σ)) (us.map (subst τ)) = true) :
    agreesAll ts us = true := by
  induction ts generalizing us with
  | nil =>
    cases us with
    | nil => rfl
    | cons => cases hagree
  | cons t ts ih =>
    obtain ⟨ht, hts⟩ := List.forall_mem_cons.mp h
    cases us with
    | nil => cases hagree
    | cons u us =>
      rw [List.map_cons, List.map_cons, agreesAll, Bool.and_eq_true] at hagree
      rw [agreesAll, Bool.and_eq_true]
      exact ⟨ht u hagree.1, ih hts hagree.2⟩

/-- Types that agree once more is known of their placeholders agreed before. -/
theorem agrees_of_agrees_subst {a b : Ty} (h : (a.subst σ).agrees (b.subst τ) = true) :
    a.agrees b = true := by
  induction a using memberInduction generalizing b with
  | base x =>
    cases b with
    | base | fn => exact h
    | var => rfl
  | var v => rfl
  | fn params rest ret ihparams ihrest ihret =>
    cases b with
    | base => exact h
    | var => rfl
    | fn params' rest' ret' =>
      simp only [subst, substAll_eq_map, substRest_eq_map, agrees, Bool.and_eq_true] at h ⊢
      obtain ⟨⟨hparams, hrest⟩, hret⟩ := h
      refine ⟨⟨agreesAll_of_agrees_subst (fun t ht u hu ↦ ihparams t ht hu) hparams, ?_⟩,
        ihret hret⟩
      cases rest with
      | none => cases rest' <;> [rfl; cases hrest]
      | some t =>
        cases rest' with
        | none => cases hrest
        | some u => exact ihrest t rfl hrest

end

/-! ## Agreement part by part -/

/-- The parts of a function type, in the order in which they are compared. -/
def parts : Ty → List Ty
  | fn params rest ret => params ++ rest.toList ++ [ret]
  | _ => []

/-- Whether two types are one base type, or functions with as many parameters and a rest type in
both or in neither. -/
def sameHead : Ty → Ty → Bool
  | base x, base y => x == y
  | fn params rest _, fn params' rest' _ =>
    params.length == params'.length && rest.isSome == rest'.isSome
  | _, _ => false

theorem agrees_base_eq {x y : BaseTy} (hx : (base x).isLoose = false)
    (hy : (base y).isLoose = false) : (base x).agrees (base y) = (base x).sameHead (base y) := by
  have hany : ∀ {z : BaseTy}, (base z).isLoose = false → (z == .any) = false := by
    intro z hz
    cases z <;> [cases hz; rfl; rfl; rfl; rfl; rfl; rfl]
  rw [agrees, hany hx, hany hy, Bool.false_or, Bool.false_or, sameHead]

theorem agreesAll_eq (ts us : List Ty) : agreesAll ts us =
    (ts.length == us.length && (ts.zip us).all fun p ↦ p.1.agrees p.2) := by
  induction ts generalizing us with
  | nil => cases us <;> rfl
  | cons t ts ih =>
    cases us with
    | nil => rfl
    | cons u us =>
      rw [agreesAll, ih, List.zip_cons_cons, List.all_cons, List.length_cons, List.length_cons]
      by_cases hlength : ts.length = us.length
      · simp [hlength]
      · simp [beq_eq_false_iff_ne.mpr hlength]

theorem agreesRest_eq (r s : Option Ty) : agreesRest r s =
    (r.isSome == s.isSome && (r.toList.zip s.toList).all fun p ↦ p.1.agrees p.2) := by
  cases r <;> cases s <;> simp [agreesRest]

theorem agrees_fn_eq (params params' : List Ty) (rest rest' : Option Ty) (ret ret' : Ty) :
    (fn params rest ret).agrees (fn params' rest' ret') =
      ((fn params rest ret).sameHead (fn params' rest' ret') &&
        ((fn params rest ret).parts.zip (fn params' rest' ret').parts).all
          fun p ↦ p.1.agrees p.2) := by
  rw [agrees, agreesAll_eq, agreesRest_eq, sameHead, parts, parts]
  by_cases hlength : params.length = params'.length
  · by_cases hrest : rest.isSome = rest'.isSome
    · have hone : rest.toList.length = rest'.toList.length := by
        cases rest <;> cases rest' <;> simp_all
      rw [List.zip_append (by simp [hlength, hone]), List.zip_append hlength]
      simp [hlength, hrest, Bool.and_assoc]
    · simp [beq_eq_false_iff_ne.mpr hrest]
  · simp [beq_eq_false_iff_ne.mpr hlength]

/-- Types with heads agree if the heads are the same and their parts agree. -/
theorem agrees_eq {a b : Ty} (ha : a.isLoose = false) (hb : b.isLoose = false) : a.agrees b =
    (a.sameHead b && (a.parts.zip b.parts).all fun p ↦ p.1.agrees p.2) := by
  cases a with
  | var v => cases ha
  | base x =>
    cases b with
    | var v => cases hb
    | base y => exact (agrees_base_eq ha hb).trans (Bool.and_true _).symm
    | fn => cases x <;> [cases ha; rfl; rfl; rfl; rfl; rfl; rfl]
  | fn params rest ret =>
    cases b with
    | var v => cases hb
    | base y => cases y <;> [cases hb; rfl; rfl; rfl; rfl; rfl; rfl]
    | fn params' rest' ret' => exact agrees_fn_eq params params' rest rest' ret ret'

/-- What holds of a type whenever it holds of its parts holds of every type. -/
@[elab_as_elim]
theorem partsInduction {motive : Ty → Prop} (h : ∀ t, (∀ u ∈ t.parts, motive u) → motive t)
    (t : Ty) : motive t := by
  induction t using memberInduction with
  | base | var => exact h _ (List.forall_mem_nil _)
  | fn params rest ret ihparams ihrest ihret =>
    refine h _ fun u hu ↦ ?_
    simp only [parts, List.mem_append, Option.mem_toList, List.mem_singleton] at hu
    rcases hu with (hu | hu) | rfl
    · exact ihparams u hu
    · exact ihrest u hu
    · exact ihret

theorem vars_subset_of_mem_parts {t u : Ty} (h : u ∈ t.parts) : u.vars ⊆ t.vars := by
  cases t with
  | base | var => cases h
  | fn params rest ret =>
    intro v hv
    simp only [parts, List.mem_append, Option.mem_toList, List.mem_singleton] at h
    rcases h with (h | h) | rfl
    · exact mem_vars_fn.mpr (.inl ⟨u, h, hv⟩)
    · exact mem_vars_fn.mpr (.inr (.inl ⟨u, h, hv⟩))
    · exact mem_vars_fn.mpr (.inr (.inr hv))

end Ty

namespace TypeTable

variable {T T' : TypeTable} {a b t u e : Ty}

/-! ## Comparing along chains -/

/-- Comparing pairs of types one after another, from outside inwards, comes to the answer `x`.
Behind a pair that clashes nothing is looked at any more. If `sharing` is allowed, types that
resolve to the same one may be passed over without a look at their parts. -/
inductive Compared (T : TypeTable) (sharing : Bool) : List (Ty × Ty) → (x : Bool) → Prop where
  | done : Compared T sharing [] true
  | loose {a b ps x} (h : (T.resolve a).isLoose = true ∨ (T.resolve b).isLoose = true)
      (hps : Compared T sharing ps x) : Compared T sharing ((a, b) :: ps) x
  | shared {a b ps x} (h : sharing = true) (hsame : T.resolve a = T.resolve b)
      (hps : Compared T sharing ps x) : Compared T sharing ((a, b) :: ps) x
  | clash {a b ps} (ha : (T.resolve a).isLoose = false) (hb : (T.resolve b).isLoose = false)
      (hhead : (T.resolve a).sameHead (T.resolve b) = false) :
      Compared T sharing ((a, b) :: ps) false
  | parts {a b ps x} (ha : (T.resolve a).isLoose = false) (hb : (T.resolve b).isLoose = false)
      (hhead : (T.resolve a).sameHead (T.resolve b) = true)
      (hps : Compared T sharing ((T.resolve a).parts.zip (T.resolve b).parts ++ ps) x) :
      Compared T sharing ((a, b) :: ps) x

/-! ## One step of the comparison -/

theorem Ends.isLoose_expand (h : T.Ends e) : (T.expand e).isLoose = e.isLoose := by
  cases e with
  | base b => rw [expand_base]
  | fn => rw [expand_fn]; rfl
  | var v => rw [expand_of_unresolved (h v rfl)]

/-- Expanding a type with a head expands its parts. -/
theorem parts_expand (h : t.isLoose = false) : (T.expand t).parts = t.parts.map T.expand := by
  cases t with
  | base b => rw [expand_base]; rfl
  | var v => cases h
  | fn params rest ret =>
    rw [expand_fn]
    cases rest <;> simp [Ty.parts]

theorem sameHead_expand (ha : a.isLoose = false) (hb : b.isLoose = false) :
    (T.expand a).sameHead (T.expand b) = a.sameHead b := by
  cases a with
  | var v => cases ha
  | base x =>
    cases b with
    | var v => cases hb
    | base y => rw [expand_base, expand_base]
    | fn => rw [expand_base, expand_fn]; rfl
  | fn params rest ret =>
    cases b with
    | var v => cases hb
    | base y => rw [expand_base, expand_fn]; rfl
    | fn params' rest' ret' => simp [expand_fn, Ty.sameHead]

namespace Acyclic

theorem parts (h : T.Acyclic t) (hu : u ∈ t.parts) : T.Acyclic u :=
  h.of_subset (Ty.vars_subset_of_mem_parts hu)

theorem zip (ha : T.Acyclic a) (hb : T.Acyclic b) {p : Ty × Ty}
    (hp : p ∈ (T.resolve a).parts.zip (T.resolve b).parts) :
    T.Acyclic p.1 ∧ T.Acyclic p.2 :=
  ⟨ha.resolve.parts (List.of_mem_zip hp).1, hb.resolve.parts (List.of_mem_zip hp).2⟩

/-- A type can be replaced by what it resolves to. -/
theorem satisfies_resolve_left (h : T.Acyclic a) (b : Ty) :
    T.satisfies (T.resolve a) b = T.satisfies a b := by
  rw [satisfies, satisfies, h.expand_resolve]

theorem satisfies_resolve_right (h : T.Acyclic b) (a : Ty) :
    T.satisfies a (T.resolve b) = T.satisfies a b := by
  rw [satisfies, satisfies, h.expand_resolve]

/-- Two types satisfy each other if one of them resolves to a loose one, or if they resolve to types
with the same head whose parts satisfy each other. -/
theorem satisfies_eq (ha : T.Acyclic a) (hb : T.Acyclic b) : T.satisfies a b =
    ((T.resolve a).isLoose || (T.resolve b).isLoose ||
      ((T.resolve a).sameHead (T.resolve b) &&
        ((T.resolve a).parts.zip (T.resolve b).parts).all fun p ↦ T.satisfies p.1 p.2)) := by
  rw [← ha.satisfies_resolve_left b, ← hb.satisfies_resolve_right (T.resolve a), satisfies]
  have haends := ha.ends_resolve.isLoose_expand
  have hbends := hb.ends_resolve.isLoose_expand
  by_cases haloose : (T.resolve a).isLoose = true
  · rw [Ty.agrees_of_loose_left (haends.trans haloose), haloose]
    rfl
  by_cases hbloose : (T.resolve b).isLoose = true
  · rw [Ty.agrees_of_loose_right (hbends.trans hbloose), hbloose, Bool.or_true]
    rfl
  rw [Bool.not_eq_true] at haloose hbloose
  rw [Ty.agrees_eq (haends.trans haloose) (hbends.trans hbloose), sameHead_expand haloose hbloose,
    parts_expand haloose, parts_expand hbloose, List.zip_map, List.all_map, haloose, hbloose]
  rfl

end Acyclic

/-! ## Whole comparisons -/

section

variable {ps : List (Ty × Ty)} {x sharing : Bool}

/-- Whatever is passed over because it is shared, a comparison finds what `satisfies` says. -/
theorem Compared.eq_all (h : T.Compared sharing ps x)
    (hps : ∀ p ∈ ps, T.Acyclic p.1 ∧ T.Acyclic p.2) :
    x = ps.all fun p ↦ T.satisfies p.1 p.2 := by
  induction h with
  | done => rfl
  | @loose a b ps x hloose _ ih =>
    obtain ⟨⟨ha, hb⟩, hps⟩ := List.forall_mem_cons.mp hps
    have hagree : T.satisfies a b = true := by
      rw [ha.satisfies_eq hb, Bool.or_eq_true, Bool.or_eq_true]
      exact .inl hloose
    rw [List.all_cons, hagree, Bool.true_and, ih hps]
  | @shared a b ps x _ hsame _ ih =>
    obtain ⟨⟨ha, hb⟩, hps⟩ := List.forall_mem_cons.mp hps
    have hagree : T.satisfies a b = true := by
      rw [← ha.satisfies_resolve_left, ← hb.satisfies_resolve_right, hsame]
      exact T.satisfies_refl _
    rw [List.all_cons, hagree, Bool.true_and, ih hps]
  | clash haloose hbloose hhead =>
    obtain ⟨⟨ha, hb⟩, -⟩ := List.forall_mem_cons.mp hps
    rw [List.all_cons, ha.satisfies_eq hb, haloose, hbloose, hhead]
    rfl
  | parts haloose hbloose hhead _ ih =>
    obtain ⟨⟨ha, hb⟩, hps⟩ := List.forall_mem_cons.mp hps
    have hall := ih (List.forall_mem_append.mpr ⟨fun p hp ↦ ha.zip hb hp, hps⟩)
    rw [List.all_cons, ha.satisfies_eq hb, haloose, hbloose, hhead, hall, List.all_append]
    rfl

/-- Pairs that can be compared in front of all others can be compared one after another. -/
theorem Compared.append {qs : List (Ty × Ty)} (h : T.Compared sharing ps x)
    (hqs : ∀ q ∈ qs, ∀ ps x, T.Compared sharing ps x →
      T.Compared sharing (q :: ps) (T.satisfies q.1 q.2 && x)) :
    T.Compared sharing (qs ++ ps) ((qs.all fun q ↦ T.satisfies q.1 q.2) && x) := by
  induction qs with
  | nil => exact h
  | cons q qs ih =>
    obtain ⟨hq, hqs⟩ := List.forall_mem_cons.mp hqs
    rw [List.all_cons, Bool.and_assoc]
    exact hq _ _ (ih hqs)

/-- A comparison of types without cycles comes to an end, even if nothing is shared: every step goes
on with parts of the expansion. -/
theorem Acyclic.compared_cons (ha : T.Acyclic a) (hb : T.Acyclic b)
    (hps : T.Compared false ps x) : T.Compared false ((a, b) :: ps) (T.satisfies a b && x) := by
  generalize hexpand : T.expand a = e
  induction e using Ty.partsInduction generalizing a b ps x with
  | h e ih =>
    rw [ha.satisfies_eq hb]
    by_cases hloose : (T.resolve a).isLoose = true ∨ (T.resolve b).isLoose = true
    · rw [(Bool.or_eq_true _ _).mpr hloose]
      exact .loose hloose hps
    rw [not_or, Bool.not_eq_true, Bool.not_eq_true] at hloose
    obtain ⟨haloose, hbloose⟩ := hloose
    rw [haloose, hbloose]
    by_cases hhead : (T.resolve a).sameHead (T.resolve b) = true
    · rw [hhead]
      refine .parts haloose hbloose hhead (hps.append fun q hq qs y hqs ↦ ?_)
      obtain ⟨hq₁, hq₂⟩ := ha.zip hb hq
      have hmem : T.expand q.1 ∈ e.parts := by
        rw [← hexpand, ← ha.expand_resolve, parts_expand haloose]
        exact List.mem_map_of_mem (List.of_mem_zip hq).1
      exact ih (T.expand q.1) hmem hq₁ hq₂ hqs rfl
    · rw [Bool.not_eq_true] at hhead
      rw [hhead]
      exact .clash haloose hbloose hhead

theorem Acyclic.compared (ha : T.Acyclic a) (hb : T.Acyclic b) :
    T.Compared false [(a, b)] (T.satisfies a b) := by
  have h := ha.compared_cons hb .done
  rwa [Bool.and_true] at h

end

/-! ## Later tables -/

/-- What is narrowed makes no types compatible that were not. -/
theorem Acyclic.satisfies_earlier (ha : T'.Acyclic a) (hb : T'.Acyclic b) (hT : T.Extends T')
    (h : T'.satisfies a b = true) : T.satisfies a b = true := by
  rw [satisfies, ha.expand_later hT, hb.expand_later hT] at h
  exact Ty.agrees_of_agrees_subst h

/-- **Types without cycles are consistent or not, and narrowing makes none consistent.** In every
table, a type satisfies itself, `satisfies` is symmetric and says the same of a type as of what it
resolves to. Comparing two types along their chains comes to an end with this answer, and passing
over what is shared does not change it. If two types satisfy each other in a table in which more was
made, narrowed and frozen, they did so before. -/
theorem satisfies_consistent (ha : T.Acyclic a) (hb : T.Acyclic b) :
    T.satisfies a a = true ∧
      T.satisfies b a = T.satisfies a b ∧
      T.satisfies (T.resolve a) b = T.satisfies a b ∧
      T.satisfies a (T.resolve b) = T.satisfies a b ∧
      T.Compared false [(a, b)] (T.satisfies a b) ∧
      (∀ x, T.Compared true [(a, b)] x → x = T.satisfies a b) ∧
      (T.Reachable → ∀ as, (T.run as).Acyclic a → (T.run as).Acyclic b →
        (T.run as).satisfies a b = true → T.satisfies a b = true) := by
  refine ⟨T.satisfies_refl a, Ty.agrees_comm _ _, ha.satisfies_resolve_left b,
    hb.satisfies_resolve_right a, ha.compared hb, fun x hx ↦ ?_, fun hT as ha' hb' h ↦ ?_⟩
  · have hall := hx.eq_all (List.forall_mem_singleton.mpr ⟨ha, hb⟩)
    rwa [List.all_cons, List.all_nil, Bool.and_true] at hall
  · exact ha'.satisfies_earlier hb' (hT.chainsEnd.run as).2.writes h

/-- `x` is narrowed to a function that takes a `y`. -/
def takingActions : List TableAction :=
  [.fresh "y", .fresh "x", .narrow (.var 1) (.fn [.var 0] none .number)]

/-- What `x` takes is a string in the end, and it could have been one before. -/
theorem takingActions_consistent :
    (empty.run takingActions).Acyclic (.var 1) ∧
      ((empty.run takingActions).run [.narrow (.var 0) .string]).Acyclic (.var 1) ∧
      ((empty.run takingActions).run [.narrow (.var 0) .string]).satisfies (.var 1)
        (.fn [.string] none .any) = true ∧
      (empty.run takingActions).satisfies (.var 1) (.fn [.string] none .any) = true := by
  have hslot : (Ty.fn [.var 0] none .number).Over 1 := (show ∀ w ∈ [0], w < 1 by decide)
  have hbefore : (empty.run takingActions).Finite := finite_of_over fun v u hu ↦
    match v with
    | 0 => nomatch hu
    | 1 => Option.some.inj hu ▸ hslot
    | v + 2 => nomatch hu
  have hafter : ((empty.run takingActions).run [.narrow (.var 0) .string]).Finite :=
    finite_of_over fun v u hu ↦
      match v with
      | 0 => Option.some.inj hu ▸ Ty.over_base 0 .string
      | 1 => Option.some.inj hu ▸ hslot
      | v + 2 => nomatch hu
  have hagree : ((empty.run takingActions).run [.narrow (.var 0) .string]).satisfies (.var 1)
      (.fn [.string] none .any) = true := rfl
  obtain ⟨-, -, -, -, -, -, hearlier⟩ := satisfies_consistent (.of_finite hbefore (.var 1))
    (.of_finite hbefore (.fn [.string] none .any))
  exact ⟨.of_finite hbefore _, .of_finite hafter _, hagree,
    hearlier ⟨takingActions, rfl⟩ _ (.of_finite hafter _) (.of_finite hafter _) hagree⟩

end TypeTable

end TaggedLisp
