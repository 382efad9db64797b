import TaggedLisp.Proofs.Captures
import TaggedLisp.Proofs.Typing

/-!
# Calls in the final table

A call is checked against what is known of the types at that time. What is found out afterwards is
written into the same table, so the question is whether the check would still succeed in the end.

The number of arguments always fits: a callee that has a function type in the end had it when the
call was checked, or got it from the call. An argument keeps satisfying what was expected of it
unless a placeholder inside one of the two types was open then and is narrowed later
(`Sound.satisfies_lasting`). It has to be inside: where the type of the argument is itself an
unresolved placeholder, it is narrowed to what is expected and follows it from then on. An open
parameter, in contrast, asks for nothing and is not narrowed by the call, so a function that calls
itself before it uses its parameter may have passed anything (`openRecursion_clashes`).
-/

namespace TaggedLisp

/-! ## Checks that last -/

/-- Whether a check of `a` against `b` that was made in the table `T` is certain to hold in `T'`:
one of the two types asks for nothing, or no placeholder that was open in them has been narrowed. -/
def Lasting (T T' : TypeTable) (a b : Ty) : Prop :=
  (T.resolve a).isLoose = true ∨ (T.resolve b).isAny = true ∨
    ∀ v, v ∈ (T.expand a).vars ∨ v ∈ (T.expand b).vars → T.resolved? v = none → T'.resolved? v = none

namespace TypeTable

variable {T T' : TypeTable} {a b : Ty}

/-- A check that lasts holds in every later table. -/
theorem Sound.satisfies_lasting (h : T.Sound) (ha : a.Over T.size) (hagree : T.satisfies a b = true)
    (hlater : (T.accept a b).Later T') (hT' : T'.ChainsEnd) (hlasts : Lasting T T' a b) :
    T'.satisfies a b = true := by
  have hT : T.Later T' := (Later.accept h.ends a b).trans hlater
  rcases hlasts with hloose | hany | hopen
  · cases ha' : T.resolve a with
    | var v => exact h.satisfies_of_unresolved ha hagree ha' hlater hT'
    | base | fn =>
      refine hT'.satisfies_of_loose_left ?_ b
      rwa [hT.resolve_eq h.ends rfl (by rw [ha']; nofun)]
  · exact hT'.satisfies_of_loose_right (Ty.isLoose_of_isAny (hT.isAny_resolve h.ends hany)) a
  · rwa [satisfies, hT.expand_eq fun v hv ↦ hopen v (.inl hv),
      hT.expand_eq fun v hv ↦ hopen v (.inr hv)]

/-- Before and after an argument of several ones is narrowed. -/
theorem Sound.acceptAll_at (h : T.Sound) {pairs : List (Ty × Ty)} {i : Nat}
    (hpairs : ∀ p ∈ pairs, p.2.Over T.size) (hi : pairs[i]? = some (a, b)) :
    (T.acceptAll (pairs.take i)).Sound ∧ T.Later (T.acceptAll (pairs.take i)) ∧
      ((T.acceptAll (pairs.take i)).accept a b).Later (T.acceptAll pairs) := by
  induction pairs generalizing T i with
  | nil => cases hi
  | cons p pairs ih =>
    obtain ⟨hp, hpairs⟩ := List.forall_mem_cons.mp hpairs
    have hlater := Later.accept h.ends p.1 p.2
    have hpairs : ∀ p' ∈ pairs, p'.2.Over (T.accept p.1 p.2).size :=
      fun p' hp' ↦ (hpairs p' hp').mono hlater.size_le
    cases i with
    | zero =>
      cases hi
      exact ⟨h, .refl T, ((h.accept a hp).acceptAll hpairs).2⟩
    | succ i =>
      obtain ⟨hsound, hbefore, hafter⟩ := ih (h.accept p.1 hp) hpairs hi
      exact ⟨hsound, hlater.trans hbefore, hafter⟩

end TypeTable

/-! ## The checks of a program -/

/-- The table in which the argument at position `i` of a call was checked. -/
def CallCheck.tableAt (k : CallCheck) (params : List Ty) (rest : Option Ty) (i : Nat) : TypeTable :=
  k.table.acceptAll ((expectations (rest.getD .any) (k.args.map Expr.ty) params).take i)

/-- The call was checked in a sound table that knows its parts, and what it left is an earlier table
of `T`. -/
structure CallCheck.Before (k : CallCheck) (T : TypeTable) : Prop where
  sound : k.table.Sound
  callee : k.callee.ty.Over k.table.size
  args : ∀ t ∈ k.args.map Expr.ty, t.Over k.table.size
  signed : ∃ T₁ ty spread, Signed k.table k.callee.ty (k.args.map Expr.ty) T₁ ty spread ∧ T₁.Later T

theorem CallCheck.Before.later {k : CallCheck} {T T' : TypeTable} (h : k.Before T)
    (hT : T.Later T') : k.Before T' where
  sound := h.sound
  callee := h.callee
  args := h.args
  signed := by
    obtain ⟨T₁, ty, spread, hsigned, hlater⟩ := h.signed
    exact ⟨T₁, ty, spread, hsigned, hlater.trans hT⟩

namespace Typed

variable {T T' : TypeTable} {p : Phrase} {ks : List CallCheck}

/-- All calls of a phrase were checked before its table was reached. -/
theorem checks_before (h : Typed T p T' ks) (hT : T.Sound) : ∀ k ∈ ks, k.Before T' := by
  induction h with
  | literal | symbol | nil | bound => exact List.forall_mem_nil _
  | group _ _ ih | cond _ _ _ ih | seq _ _ _ ih => exact ih hT
  | letIn hfirst hsecond _ ih ih' | cons hfirst hsecond ih ih' | bind hfirst hsecond ih ih' =>
    obtain ⟨hsound, -⟩ := hfirst.sound hT
    obtain ⟨-, hlater, -⟩ := hsecond.sound hsound
    exact List.forall_mem_append.mpr ⟨fun k hk ↦ (ih hT k hk).later hlater, ih' hsound⟩
  | @fn _ h _ _ T' _ _ _ ih => exact fun k hk ↦ (ih (hT.enter h).1 k hk).later (.freeze T' _)
  | call hparts hsigned ih =>
    obtain ⟨hsound, hcallee, hargs, -, hlater⟩ := hparts.signed hT hsigned
    refine List.forall_mem_append.mpr ⟨fun k hk ↦ (ih hT k hk).later hlater, ?_⟩
    exact List.forall_mem_singleton.mpr ⟨hsound, hcallee, hargs, _, _, _, hsigned, .refl _⟩

/-- What is found among the checks of one of several expressions is found among those of all. -/
theorem exists_of_mem {es : List Expr} {e : Expr} {P : CallCheck → Prop}
    (h : Typed T (.exprs es) T' ks) (he : e ∈ es)
    (hP : ∀ {T T' ks}, Typed T (.expr e) T' ks → ∃ k ∈ ks, P k) : ∃ k ∈ ks, P k := by
  induction es generalizing T ks with
  | nil => cases he
  | cons e' es ih =>
    cases h with
    | cons he' hes =>
      rcases List.mem_cons.mp he with rfl | he
      · obtain ⟨k, hk, hPk⟩ := hP he'
        exact ⟨k, List.mem_append_left _ hk, hPk⟩
      · obtain ⟨k, hk, hPk⟩ := ih hes he
        exact ⟨k, List.mem_append_right _ hk, hPk⟩

theorem exists_of_binding {before after : List (String × Expr)} {name : String} {value : Expr}
    {P : CallCheck → Prop} (h : Typed T (.bindings (before ++ (name, value) :: after)) T' ks)
    (hP : ∀ {T T' ks}, Typed T (.expr value) T' ks → ∃ k ∈ ks, P k) : ∃ k ∈ ks, P k := by
  induction before generalizing T ks with
  | nil =>
    cases h with
    | bind hvalue _ =>
      obtain ⟨k, hk, hPk⟩ := hP hvalue
      exact ⟨k, List.mem_append_left _ hk, hPk⟩
  | cons b before ih =>
    cases h with
    | bind _ hrest =>
      obtain ⟨k, hk, hPk⟩ := ih hrest
      exact ⟨k, List.mem_append_right _ hk, hPk⟩

/-- Every call that stands in a typed expression was checked. -/
theorem exists_check {e callee : Expr} {args : List Expr} {spread : Option Nat} {n : Note}
    {bound : List String} (hwithin : (Expr.call callee args spread n).Within bound e)
    (h : Typed T (.expr e) T' ks) : ∃ k ∈ ks, k.callee = callee ∧ k.args = args := by
  induction hwithin generalizing T T' ks with
  | here =>
    cases h with
    | call _ _ => exact ⟨_, List.mem_append_right _ (List.mem_singleton_self _), rfl, rfl⟩
  | elem he _ ih =>
    cases h with
    | group helems _ => exact helems.exists_of_mem he ih
  | branch he _ ih =>
    cases h with
    | cond hparts _ _ => exact hparts.exists_of_mem he ih
  | step he _ ih =>
    cases h with
    | seq hsteps _ _ => exact hsteps.exists_of_mem he ih
  | operand he _ ih =>
    cases h with
    | call hoperands _ =>
      obtain ⟨k, hk, hparts⟩ := hoperands.exists_of_mem he ih
      exact ⟨k, List.mem_append_left _ hk, hparts⟩
  | value _ ih =>
    cases h with
    | letIn hbindings _ _ =>
      obtain ⟨k, hk, hparts⟩ := hbindings.exists_of_binding ih
      exact ⟨k, List.mem_append_left _ hk, hparts⟩
  | letBody _ ih =>
    cases h with
    | letIn _ hbody _ =>
      obtain ⟨k, hk, hparts⟩ := ih hbody
      exact ⟨k, List.mem_append_right _ hk, hparts⟩
  | fnBody _ ih =>
    cases h with
    | fn hbody _ => exact ih hbody

end Typed

/-! ## Consistency -/

/-- Whether a call fits the function type that its callee has in the table `T`: it has as many
arguments as that takes, and every argument satisfied what is expected of it when it was checked and
satisfies it in `T` if that check lasts, or if the type was made of the call. -/
def CallCheck.Fits (k : CallCheck) (T : TypeTable) (params : List Ty) (rest : Option Ty) : Prop :=
  (arityOf params rest).admits k.args.length = true ∧
    ∀ i a b, (expectations (rest.getD .any) (k.args.map Expr.ty) params)[i]? = some (a, b) →
      (k.tableAt params rest i).satisfies a b = true ∧
        ((∃ v, k.table.resolve k.callee.ty = .var v) ∨ Lasting (k.tableAt params rest i) T a b →
          T.satisfies a b = true)

/-- If the callee of a call has a function type in a later table, it had it when the call was
checked, or it got it from the call. -/
theorem Signed.of_resolve {T T₁ T' : TypeTable} {callee ty : Ty} {args : List Ty}
    {spread : Option Nat} (h : Signed T callee args T₁ ty spread) (hT : T.Sound)
    (hcallee : callee.Over T.size) (hargs : ∀ t ∈ args, t.Over T.size) (hlater : T₁.Later T')
    {params : List Ty} {rest : Option Ty} {ret : Ty}
    (hfn : T'.resolve callee = .fn params rest ret) :
    ty = ret ∧ spread = (rest.map fun _ ↦ params.length) ∧
      (arityOf params rest).admits args.length = true ∧
      ((T.resolve callee = .fn params rest ret ∧
          Accepted T (expectations (rest.getD .any) args params) ∧
          T₁ = T.acceptAll (expectations (rest.getD .any) args params)) ∨
        ((∃ v, T.resolve callee = .var v) ∧ params = args ∧ rest = none)) := by
  obtain ⟨-, hlater₁, -⟩ := h.sound hT hcallee hargs
  have hT' := hlater₁.trans hlater
  cases h with
  | @known params' rest' ret' hknown harity haccepted =>
    have hsame := hT'.resolve_eq hT.ends hknown nofun
    obtain ⟨rfl, rfl, rfl⟩ := Ty.fn.inj (hfn.symm.trans hsame)
    exact ⟨rfl, rfl, harity, .inl ⟨hknown, haccepted, rfl⟩⟩
  | @inferred v name t _ hopen _ hnarrow =>
    -- the call itself is the signature
    have hsignature : T'.resolve callee = .fn args none (.var T.size) := by
      have hhead : ∀ v, Ty.fn args none (.var T.size) ≠ .var v := nofun
      have hfresh := TypeTable.Later.fresh T name
      have hcallee' : (T.fresh name).2.resolve callee = .var v :=
        hfresh.writes.resolve_eq_var hT.ends hopen <| by
          rw [TypeTable.resolved?_fresh, hT.ends.ends_resolve _ v hopen]
      have hlead := (hT.fresh name).narrow_leadsTo (hcallee.mono hfresh.size_le) hcallee'
        hhead rfl hnarrow
      exact (hlead.extend hlater.writes).resolve_eq hhead
    obtain ⟨rfl, rfl, rfl⟩ := Ty.fn.inj (hfn.symm.trans hsignature)
    exact ⟨rfl, rfl, by simp [arityOf, Arity.admits], .inr ⟨⟨v, hopen⟩, rfl, rfl⟩⟩
  | frozen hvar hclosed =>
    cases hfn.symm.trans (hT'.resolve_eq_var hT.ends hvar (hT.lt_size hcallee hvar) hclosed)
  | dynamic hany => cases hfn.symm.trans (hT'.resolve_eq hT.ends hany nofun)

/-- If the callee of a checked call has a function type in a later table, the call fits it there. -/
theorem CallCheck.Before.fits {k : CallCheck} {T : TypeTable} (h : k.Before T) (hT : T.ChainsEnd)
    {params : List Ty} {rest : Option Ty} {ret : Ty}
    (hfn : T.resolve k.callee.ty = .fn params rest ret) : k.Fits T params rest := by
  obtain ⟨T₁, ty, spread, hsigned, hlater⟩ := h.signed
  obtain ⟨-, -, harity, hhow⟩ := hsigned.of_resolve h.sound h.callee h.args hlater hfn
  refine ⟨by rwa [List.length_map] at harity, fun i a b hi ↦ ?_⟩
  have hpair := hi
  rw [getElem?_expectations] at hpair
  obtain ⟨arg, harg, hpair⟩ := Option.map_eq_some_iff.mp hpair
  obtain ⟨rfl, rfl⟩ := Prod.mk.inj hpair
  rcases hhow with ⟨hknown, haccepted, rfl⟩ | ⟨-, rfl, rfl⟩
  · refine ⟨haccepted i _ hi, fun hlasts ↦ ?_⟩
    have hlasts := hlasts.resolve_left <| by
      rintro ⟨v, hv⟩
      cases hknown.symm.trans hv
    have ha : arg.Over k.table.size := h.args _ (List.mem_of_getElem? harg)
    obtain ⟨hsound, hbefore, hafter⟩ := h.sound.acceptAll_at
      (over_expectations (hknown ▸ h.sound.over_resolve h.callee)) hi
    exact hsound.satisfies_lasting (ha.mono hbefore.size_le) (haccepted i _ hi)
      (hafter.trans hlater) hT hlasts
  · -- what is expected of an argument is its own type
    rw [harg, Option.getD_some]
    exact ⟨TypeTable.satisfies_refl _ _, fun _ ↦ T.satisfies_refl _⟩

/-- **Calls stay consistent.** Every call of an accepted program was checked on the way. If its
callee resolves to a function type in the final table, the number of arguments fits, and every
argument satisfied what is expected of it when it was checked. It still does in the final table if
its type or what is expected of it asked for nothing then, if the call gave the callee its type, or
if no placeholder that was open in the two types has been narrowed since. -/
theorem calls_consistent {forms : List Form} {es : List Expr} {T : TypeTable}
    (h : checkProgram forms = .ok (es, T)) :
    ∃ ks, Typed .empty (.exprs es) T ks ∧
      (∀ e ∈ es, ∀ bound callee args spread n, (Expr.call callee args spread n).Within bound e →
        ∃ k ∈ ks, k.callee = callee ∧ k.args = args) ∧
      ∀ k ∈ ks, ∀ params rest ret, T.resolve k.callee.ty = .fn params rest ret →
        k.Fits T params rest := by
  obtain ⟨ks, htyped⟩ := checkProgram_typed h
  obtain ⟨hsound, -⟩ := htyped.sound .empty
  refine ⟨ks, htyped, fun e he bound callee args spread n hwithin ↦ ?_,
    fun k hk params rest ret hfn ↦ ?_⟩
  · exact htyped.exists_of_mem he (Typed.exists_check hwithin)
  · exact (htyped.checks_before .empty k hk).fits hsound.ends hfn

/-- The form `(fn [x] (do (not x) (+ x 1)))`. -/
def narrowedLater : Form :=
  let symbol (name : String) : Form := .atom (.symbol name) ⟨.symbol, name, 1⟩
  let list (fs : List Form) : Form := .group .list fs ⟨.opening .list, "(", 1⟩
  let vector (fs : List Form) : Form := .group .vector fs ⟨.opening .vector, "[", 1⟩
  let sum := list [symbol "+", symbol "x", .atom (.number 1) ⟨.number, "1", 1⟩]
  list [symbol "fn", vector [symbol "x"], list [symbol "do", list [symbol "not", symbol "x"], sum]]

set_option maxRecDepth 8000 in
/-- The argument of the first call is narrowed by the second one, and still is what `not` expects.
-/
theorem narrowedLater_fits : ∃ es T, checkProgram [narrowedLater] = .ok (es, T) ∧
    T.resolve (.var 0) = .number ∧ T.satisfies (.var 0) .any = true := by
  obtain ⟨es, T, h, hx, e, he, bound, callee, x, spread, n, hwithin, hcallee, hty⟩ :
      ∃ es T, checkProgram [narrowedLater] = .ok (es, T) ∧ T.resolve (.var 0) = .number ∧
        ∃ e ∈ es, ∃ bound callee x spread n, (Expr.call callee [x] spread n).Within bound e ∧
          T.resolve callee.ty = .fn [.any] none .boolean ∧ x.ty = .var 0 := by
    refine ⟨[.fn ⟨none, ["x"], none, false⟩ (.seq [.call (.symbol "not" _) [.symbol "x" _] none _,
      .call _ _ _ _] _) _], _, rfl, rfl, _, List.mem_singleton_self _, _, _, _, _, _,
      .fnBody (.step List.mem_cons_self .here), rfl, rfl⟩
  refine ⟨es, T, h, hx, ?_⟩
  obtain ⟨ks, -, hnodes, hfits⟩ := calls_consistent h
  obtain ⟨k, hk, rfl, hargs⟩ := hnodes e he _ _ _ _ _ hwithin
  obtain ⟨-, hargs'⟩ := hfits k hk _ _ _ hcallee
  have hfirst : (expectations .any (k.args.map Expr.ty) [.any])[0]? = some (.var 0, .any) := by
    rw [hargs, List.map_singleton, hty]
    rfl
  -- what `not` expects asks for nothing
  exact (hargs' 0 (.var 0) .any hfirst).2
    (.inr (.inr (.inl (congrArg Ty.isAny (TypeTable.resolve_of_head (e := .any) nofun)))))

/-- The form `(defn g [x] (do (g "a") (+ x 1)))`. -/
def openRecursion : Form :=
  let symbol (name : String) : Form := .atom (.symbol name) ⟨.symbol, name, 1⟩
  let list (fs : List Form) : Form := .group .list fs ⟨.opening .list, "(", 1⟩
  let vector (fs : List Form) : Form := .group .vector fs ⟨.opening .vector, "[", 1⟩
  let recursion := list [symbol "g", .atom (.string "a") ⟨.string, "a", 1⟩]
  let sum := list [symbol "+", symbol "x", .atom (.number 1) ⟨.number, "1", 1⟩]
  list [symbol "defn", symbol "g", vector [symbol "x"], list [symbol "do", recursion, sum]]

set_option maxRecDepth 8000 in
/-- The parameter is open when the function calls itself with a string, and a number in the end. -/
theorem openRecursion_clashes : ∃ es T, checkProgram [openRecursion] = .ok (es, T) ∧
    ∃ e ∈ es, ∃ bound callee args spread n, (Expr.call callee args spread n).Within bound e ∧
      ∃ params rest ret, T.resolve callee.ty = .fn params rest ret ∧
        ∃ (i : Nat) (a b : Ty),
          (expectations (rest.getD .any) (args.map Expr.ty) params)[i]? = some (a, b) ∧
          T.satisfies a b = false := by
  refine ⟨[.fn ⟨some "g", ["x"], none, true⟩ (.seq [.call (.symbol "g" _) [.literal (.string "a") _]
    none _, .call _ _ _ _] _) _], _, rfl, _, List.mem_singleton_self _, _, _, _, _, _,
    .fnBody (.step List.mem_cons_self .here), _, _, _, rfl, 0, _, _, rfl, rfl⟩

end TaggedLisp
