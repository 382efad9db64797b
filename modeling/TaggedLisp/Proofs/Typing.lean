import TaggedLisp.Proofs.Steps
import TaggedLisp.Proofs.Ty.Later
import TaggedLisp.Session

/-!
# Types in checked expressions

`Typed` says how the types in an expression come about: which table each part is checked in, what a
function and a call add to it, and where two types had to agree. It walks the expression through the
same tables as the checker walked the form, and `checkAll_types` says that everything the checker
makes is typed in this sense. What is proved about the types in checked programs is proved by
induction over `Typed`, which knows nothing of names and faults.

Tables change while a program is checked, so what was found out about a call holds of the table at
that time. `Typed` therefore keeps a record of the calls with the tables in which their arguments
were checked; every such table is an earlier one of the table in the end (`Typed.check_later`).
-/

namespace TaggedLisp

/-! ## Tables on the way -/

namespace TypeTable

/-- New open placeholders for several names. -/
def freshAll (T : TypeTable) : List String → List Ty × TypeTable
  | [] => ([], T)
  | x :: xs =>
    let (t, T) := T.fresh x
    let (ts, T) := T.freshAll xs
    (t :: ts, T)

/-- The types of the parameters of a function, and the table in which its body is checked. There is
one more placeholder in it, for what the function answers when it calls itself by its name. -/
def enter (T : TypeTable) (h : FnHead) : List Ty × TypeTable :=
  let (params, T) := T.freshAll h.params
  (params, (T.freshAll (h.name.toList.map (· ++ "-ret"))).2)

/-- The table after several arguments were narrowed to what is expected of them. -/
def acceptAll (T : TypeTable) (pairs : List (Ty × Ty)) : TypeTable :=
  pairs.foldl (fun T p ↦ T.accept p.1 p.2) T

end TypeTable

/-- What is expected of each argument of a function: the type of the parameter at its position, and
the rest type where there is none. -/
def expectations (rest : Ty) : (args params : List Ty) → List (Ty × Ty)
  | [], _ => []
  | arg :: args, [] => (arg, rest) :: expectations rest args []
  | arg :: args, p :: params => (arg, p) :: expectations rest args params

/-- How many arguments a function with these parameters takes. -/
def arityOf (params : List Ty) (rest : Option Ty) : Arity :=
  match rest with
  | some _ => .atLeast params.length
  | none => .exactly params.length

/-- Each argument satisfies what is expected of it at the time when its turn comes. -/
def Accepted (T : TypeTable) (pairs : List (Ty × Ty)) : Prop :=
  ∀ i p, pairs[i]? = some p → (T.acceptAll (pairs.take i)).satisfies p.1 p.2 = true

/-- How a call of `callee` with `args` is typed in the table `T`: the table after that, the type of
the call and the position from which the arguments go into one list. -/
inductive Signed (T : TypeTable) (callee : Ty) (args : List Ty) :
    (T' : TypeTable) → (ty : Ty) → (spread : Option Nat) → Prop where
  /-- The callee is known to be a function. -/
  | known {params rest ret} (hcallee : T.resolve callee = .fn params rest ret)
      (harity : (arityOf params rest).admits args.length = true)
      (hargs : Accepted T (expectations (rest.getD .any) args params)) :
      Signed T callee args (T.acceptAll (expectations (rest.getD .any) args params)) ret
        (rest.map fun _ ↦ params.length)
  /-- The callee is open: the call becomes its signature. -/
  | inferred {v name t T'} (hcallee : T.resolve callee = .var v) (hopen : T.isNarrowable v = true)
      (hnarrow : (T.fresh name).2.narrow callee (.fn args none (.var T.size)) = .ok (t, T')) :
      Signed T callee args T' (.var T.size) none
  /-- Nothing is known of the callee, and nothing will be. -/
  | frozen {v} (hcallee : T.resolve callee = .var v) (hclosed : T.isNarrowable v = false) :
      Signed T callee args T .any none
  | dynamic (hcallee : T.resolve callee = .any) : Signed T callee args T .any none

/-- A call of the program and the table in which its arguments were checked. -/
structure CallCheck where
  table : TypeTable
  callee : Expr
  args : List Expr

/-- The type of a literal. -/
def Literal.ty : Literal → Ty
  | .nil => .nil
  | .boolean _ => .boolean
  | .number _ => .number
  | .string _ => .string

/-! ## Typed expressions -/

/-- A phrase that is checked in the table `T` and leaves the table `T'`, and the calls that are
checked on the way. -/
inductive Typed :
    (T : TypeTable) → Phrase → (T' : TypeTable) → (checks : List CallCheck) → Prop where
  | literal {T v n} (hn : n.ty = v.ty) : Typed T (.expr (.literal v n)) T []
  | symbol {T name n} (hn : n.ty.Over T.size) : Typed T (.expr (.symbol name n)) T []
  | group {T shape elems n T' ks} (helems : Typed T (.exprs elems) T' ks)
      (hn : n.ty = .ofShape shape) : Typed T (.expr (.group shape elems n)) T' ks
  | cond {T test yes no n T' ks} (hparts : Typed T (.exprs [test, yes, no]) T' ks)
      (hagree : T'.satisfies no.ty yes.ty = true) (hn : n.ty = yes.ty) :
      Typed T (.expr (.cond test yes no n)) T' ks
  | letIn {T bs body n T₁ T' ks ks'} (hbindings : Typed T (.bindings bs) T₁ ks)
      (hbody : Typed T₁ (.expr body) T' ks') (hn : n.ty = body.ty) :
      Typed T (.expr (.letIn bs body n)) T' (ks ++ ks')
  | fn {T h body n T' ks} (hbody : Typed (T.enter h).2 (.expr body) T' ks)
      (hn : n.ty = Check.fnTy h (T.enter h).1 body.ty) :
      Typed T (.expr (.fn h body n)) (T'.freeze body.ty) ks
  | seq {T steps last n T' ks} (hsteps : Typed T (.exprs steps) T' ks)
      (hlast : steps.getLast? = some last) (hn : n.ty = last.ty) :
      Typed T (.expr (.seq steps n)) T' ks
  | call {T callee args spread n T₁ T' ks} (hparts : Typed T (.exprs (callee :: args)) T₁ ks)
      (hsigned : Signed T₁ callee.ty (args.map Expr.ty) T' n.ty spread) :
      Typed T (.expr (.call callee args spread n)) T' (ks ++ [⟨T₁, callee, args⟩])
  | nil {T} : Typed T (.exprs []) T []
  | cons {T e es T₁ T' ks ks'} (he : Typed T (.expr e) T₁ ks) (hes : Typed T₁ (.exprs es) T' ks') :
      Typed T (.exprs (e :: es)) T' (ks ++ ks')
  | bound {T} : Typed T (.bindings []) T []
  | bind {T name value bs T₁ T' ks ks'} (hvalue : Typed T (.expr value) T₁ ks)
      (hrest : Typed T₁ (.bindings bs) T' ks') :
      Typed T (.bindings ((name, value) :: bs)) T' (ks ++ ks')

/-! ## Tables on the way, later and sound -/

namespace TypeTable

variable {T T' : TypeTable}

theorem over_fresh (T : TypeTable) (name : String) :
    (Ty.var T.size).Over (T.fresh name).2.size := by
  rw [size_fresh]
  exact Ty.over_var.mpr (Nat.lt_succ_self _)

theorem later_freshAll (T : TypeTable) (names : List String) : T.Later (T.freshAll names).2 := by
  induction names generalizing T with
  | nil => exact .refl T
  | cons x xs ih => exact (Later.fresh T x).trans (ih _)

theorem Sound.freshAll (h : T.Sound) (names : List String) :
    (T.freshAll names).2.Sound ∧ ∀ t ∈ (T.freshAll names).1, t.Over (T.freshAll names).2.size := by
  induction names generalizing T with
  | nil => exact ⟨h, List.forall_mem_nil _⟩
  | cons x xs ih =>
    obtain ⟨hsound, hover⟩ := ih (h.fresh x)
    refine ⟨hsound, List.forall_mem_cons.mpr ⟨Ty.over_var.mpr ?_, hover⟩⟩
    have hle := (later_freshAll (T.fresh x).2 xs).size_le
    rw [size_fresh] at hle
    exact hle

theorem length_freshAll (T : TypeTable) (names : List String) :
    (T.freshAll names).1.length = names.length := by
  induction names generalizing T with
  | nil => rfl
  | cons x xs ih => exact congrArg Nat.succ (ih _)

theorem length_enter (T : TypeTable) (h : FnHead) : (T.enter h).1.length = h.params.length :=
  length_freshAll T h.params

theorem later_enter (T : TypeTable) (h : FnHead) : T.Later (T.enter h).2 :=
  (later_freshAll T _).trans (later_freshAll _ _)

theorem Sound.enter (hT : T.Sound) (h : FnHead) :
    (T.enter h).2.Sound ∧ ∀ t ∈ (T.enter h).1, t.Over (T.enter h).2.size := by
  obtain ⟨hsound, hover⟩ := hT.freshAll h.params
  exact ⟨(hsound.freshAll _).1, fun t ht ↦ (hover t ht).mono (later_freshAll _ _).size_le⟩

theorem Sound.acceptAll (h : T.Sound) {pairs : List (Ty × Ty)}
    (hpairs : ∀ p ∈ pairs, p.2.Over T.size) :
    (T.acceptAll pairs).Sound ∧ T.Later (T.acceptAll pairs) := by
  induction pairs generalizing T with
  | nil => exact ⟨h, .refl T⟩
  | cons p pairs ih =>
    obtain ⟨hp, hpairs⟩ := List.forall_mem_cons.mp hpairs
    have hlater := Later.accept h.ends p.1 p.2
    obtain ⟨hsound, hlater'⟩ :=
      ih (h.accept p.1 hp) fun p' hp' ↦ (hpairs p' hp').mono hlater.size_le
    exact ⟨hsound, hlater.trans hlater'⟩

end TypeTable

theorem getElem?_expectations (rest : Ty) (args params : List Ty) (i : Nat) :
    (expectations rest args params)[i]? = args[i]?.map fun arg ↦ (arg, (params[i]?).getD rest) := by
  induction args generalizing params i with
  | nil => rfl
  | cons arg args ih =>
    cases params with
    | nil =>
      cases i with
      | zero => rfl
      | succ i => exact ih [] i
    | cons p params =>
      cases i with
      | zero => rfl
      | succ i => exact ih params i

/-- What is expected of arguments are parts of the type of the function. -/
theorem over_expectations {n : Nat} {args params : List Ty} {rest : Option Ty} {ret : Ty}
    (h : (Ty.fn params rest ret).Over n) :
    ∀ p ∈ expectations (rest.getD .any) args params, p.2.Over n := by
  obtain ⟨hparams, hrest, -⟩ := Ty.over_fn.mp h
  have hrest : (rest.getD .any).Over n := by
    cases rest with
    | none => exact Ty.over_base n _
    | some t => exact hrest t rfl
  clear h
  induction args generalizing params with
  | nil => exact List.forall_mem_nil _
  | cons arg args ih =>
    cases params with
    | nil => exact List.forall_mem_cons.mpr ⟨hrest, ih hparams⟩
    | cons p params =>
      obtain ⟨hp, hparams⟩ := List.forall_mem_cons.mp hparams
      exact List.forall_mem_cons.mpr ⟨hp, ih hparams⟩

namespace Signed

variable {T T' : TypeTable} {callee ty : Ty} {args : List Ty} {spread : Option Nat}

/-- A call leaves a later table that is sound again and types the call. -/
theorem sound (h : Signed T callee args T' ty spread) (hT : T.Sound) (hcallee : callee.Over T.size)
    (hargs : ∀ t ∈ args, t.Over T.size) : T'.Sound ∧ T.Later T' ∧ ty.Over T'.size := by
  cases h with
  | known hfn _ _ =>
    have hover := hfn ▸ hT.over_resolve hcallee
    obtain ⟨hsound, hlater⟩ := hT.acceptAll (over_expectations hover)
    exact ⟨hsound, hlater, (Ty.over_fn.mp hover).2.2.mono hlater.size_le⟩
  | @inferred v name t T' _ _ hnarrow =>
    have hfresh := TypeTable.Later.fresh T name
    have hret : (Ty.var T.size).Over (T.fresh name).2.size := TypeTable.over_fresh T name
    have hover : (Ty.fn args none (.var T.size)).Over (T.fresh name).2.size :=
      Ty.over_fn.mpr ⟨fun t ht ↦ (hargs t ht).mono hfresh.size_le, nofun, hret⟩
    have hnarrowed := TypeTable.Later.narrow (hT.fresh name).ends hnarrow
    exact ⟨(hT.fresh name).narrow hover hnarrow, hfresh.trans hnarrowed,
      hret.mono hnarrowed.size_le⟩
  | frozen _ _ => exact ⟨hT, .refl T, Ty.over_base _ _⟩
  | dynamic _ => exact ⟨hT, .refl T, Ty.over_base _ _⟩

end Signed

namespace Typed

variable {T T' : TypeTable} {p : Phrase} {ks : List CallCheck}

theorem over_ofShape (n : Nat) (shape : Shape) : (Ty.ofShape shape).Over n := by
  cases shape <;> exact Ty.over_base n _

/-- A phrase leaves a later table that is sound again, and its types mention nothing else. -/
theorem sound (h : Typed T p T' ks) (hT : T.Sound) :
    T'.Sound ∧ T.Later T' ∧ ∀ e ∈ p.members, e.ty.Over T'.size := by
  have hexpr : ∀ {e : Expr} {n : Nat}, e.ty.Over n → ∀ e' ∈ (Phrase.expr e).members, e'.ty.Over n :=
    fun he ↦ List.forall_mem_singleton.mpr he
  induction h with
  | @literal T v n hn =>
    refine ⟨hT, .refl T, hexpr (show n.ty.Over _ from ?_)⟩
    rw [hn]
    cases v <;> exact Ty.over_base _ _
  | symbol hn => exact ⟨hT, .refl _, hexpr hn⟩
  | @group _ shape _ n _ _ _ hn ih =>
    obtain ⟨hsound, hlater, -⟩ := ih hT
    exact ⟨hsound, hlater, hexpr (show n.ty.Over _ from hn ▸ over_ofShape _ shape)⟩
  | @cond _ _ yes _ n _ _ _ _ hn ih =>
    obtain ⟨hsound, hlater, hover⟩ := ih hT
    refine ⟨hsound, hlater, hexpr (show n.ty.Over _ from hn ▸ hover yes ?_)⟩
    simp [Phrase.members]
  | @letIn _ _ body n _ _ _ _ _ _ hn ih ih' =>
    obtain ⟨hsound, hlater, -⟩ := ih hT
    obtain ⟨hsound', hlater', hover⟩ := ih' hsound
    exact ⟨hsound', hlater.trans hlater',
      hexpr (show n.ty.Over _ from hn ▸ hover body (List.mem_singleton_self _))⟩
  | @fn T h body n T' _ _ hn ih =>
    obtain ⟨henter, hparams⟩ := hT.enter h
    obtain ⟨hsound, hlater, hover⟩ := ih henter
    refine ⟨hsound.freeze _, ((TypeTable.later_enter T h).trans hlater).trans (.freeze T' _),
      hexpr (show n.ty.Over _ from ?_)⟩
    rw [hn, TypeTable.size_freeze]
    refine Ty.over_fn.mpr ⟨fun t ht ↦ (hparams t ht).mono hlater.size_le, fun t ht ↦ ?_,
      hover body (List.mem_singleton_self _)⟩
    obtain ⟨_, -, rfl⟩ := Option.map_eq_some_iff.mp ht
    exact Ty.over_base _ _
  | @seq _ _ last n _ _ _ hlast hn ih =>
    obtain ⟨hsound, hlater, hover⟩ := ih hT
    exact ⟨hsound, hlater,
      hexpr (show n.ty.Over _ from hn ▸ hover last (List.mem_of_getLast? hlast))⟩
  | @call _ callee args _ n _ _ _ _ hsigned ih =>
    obtain ⟨hsound, hlater, hover⟩ := ih hT
    obtain ⟨hcallee, hargs⟩ := List.forall_mem_cons.mp hover
    obtain ⟨hsound', hlater', hty⟩ := hsigned.sound hsound hcallee (List.forall_mem_map.mpr hargs)
    exact ⟨hsound', hlater.trans hlater', hexpr (show n.ty.Over _ from hty)⟩
  | nil | bound => exact ⟨hT, .refl _, List.forall_mem_nil _⟩
  | cons _ _ ih ih' | bind _ _ ih ih' =>
    obtain ⟨hsound, hlater, hover⟩ := ih hT
    obtain ⟨hsound', hlater', hover'⟩ := ih' hsound
    refine ⟨hsound', hlater.trans hlater', List.forall_mem_cons.mpr ⟨?_, hover'⟩⟩
    exact (hover _ (List.mem_singleton_self _)).mono hlater'.size_le

/-- A call is checked in a sound table that knows the types of its parts, and leaves a later one. -/
theorem signed {T₁ : TypeTable} {callee : Expr} {args : List Expr} {ty : Ty} {spread : Option Nat}
    (hparts : Typed T (.exprs (callee :: args)) T₁ ks) (hT : T.Sound)
    (hsigned : Signed T₁ callee.ty (args.map Expr.ty) T' ty spread) :
    T₁.Sound ∧ callee.ty.Over T₁.size ∧ (∀ t ∈ args.map Expr.ty, t.Over T₁.size) ∧ T'.Sound ∧
      T₁.Later T' := by
  obtain ⟨hsound, -, hover⟩ := hparts.sound hT
  obtain ⟨hcallee, hargs⟩ := List.forall_mem_cons.mp hover
  have hargs := List.forall_mem_map.mpr hargs
  obtain ⟨hsound', hlater, -⟩ := hsigned.sound hsound hcallee hargs
  exact ⟨hsound, hcallee, hargs, hsound', hlater⟩

end Typed

/-! ## Checkers -/

/-- Whether all types that a checker knows mention placeholders of its table only. -/
structure Checker.Sound (c : Checker) : Prop where
  types : c.types.Sound
  scopes : c.scopes.All (·.Over c.types.size)

namespace Checker

variable {c : Checker}

theorem sound_start : start.Sound where
  types := .empty
  scopes := by
    rw [start_scopes]
    refine Scopes.All.empty.defineGlobals fun d _ ↦ Ty.over_fn.mpr ⟨?_, ?_, Ty.over_base _ _⟩
    · exact List.forall_mem_map.mpr fun b _ ↦ Ty.over_base _ b
    · intro t ht
      obtain ⟨b, -, rfl⟩ := Option.map_eq_some_iff.mp ht
      exact Ty.over_base _ b

namespace Sound

/-- The types in the scopes stay where they are when the table becomes a later one. -/
theorem later (h : c.Sound) {T : TypeTable} (hT : T.Sound) (hlater : c.types.Later T) :
    Checker.Sound { c with types := T } :=
  ⟨hT, h.scopes.mono fun _ ht ↦ ht.mono hlater.size_le⟩

theorem fresh (h : c.Sound) (name : String) :
    Checker.Sound { c with types := (c.types.fresh name).2 } :=
  h.later (h.types.fresh name) (.fresh c.types name)

theorem freeze (h : c.Sound) (t : Ty) : Checker.Sound { c with types := c.types.freeze t } :=
  h.later (h.types.freeze t) (.freeze c.types t)

theorem defineIn (h : c.Sound) (i : ScopeId) (x : String) {t : Ty} (ht : t.Over c.types.size) :
    Checker.Sound { c with scopes := c.scopes.defineIn i x t } :=
  ⟨h.types, h.scopes.defineIn i x ht⟩

theorem enter (h : c.Sound) : Checker.Sound { c with scopes := c.scopes.enter } :=
  ⟨h.types, h.scopes.enter⟩

theorem exit (h : c.Sound) (saved : ScopeId) :
    Checker.Sound { c with scopes := c.scopes.exit saved } := ⟨h.types, h.scopes.exit saved⟩

end Sound

end Checker

/-! ## Steps of checking -/

namespace Check

variable {c c' : Checker} {e : Expr}

/-- Narrowing changes the table only. -/
theorem narrow_ok {actual expected : Ty} {meeting : Meeting} {line : Nat}
    (h : (narrow actual expected meeting line).outcome c = (.ok (), c')) :
    ∃ t T, c.types.narrow actual expected = .ok (t, T) ∧ c' = { c with types := T } := by
  rw [narrow, Pass.outcome_bind, Pass.outcome_get] at h
  dsimp only at h
  split at h
  · next t T hnarrow => cases h; exact ⟨t, T, hnarrow, rfl⟩
  · cases h
  · cases h

theorem constrain_ok {callee : String} {line position : Nat} {arg : Expr} {expected : Ty}
    (h : (constrain callee line position arg expected).outcome c = (.ok (), c')) :
    c.types.satisfies arg.ty expected = true ∧
      c' = { c with types := c.types.accept arg.ty expected } := by
  obtain ⟨agree, c₁, hagree, h⟩ := Pass.outcome_bind_ok.mp h
  cases hagree
  cases hagree : c.types.satisfies arg.ty expected with
  | false =>
    rw [hagree] at h
    cases h
  | true =>
    refine ⟨rfl, ?_⟩
    rw [hagree, if_pos rfl, Pass.outcome_bind, Pass.outcome_get] at h
    dsimp only at h
    rw [TypeTable.accept]
    cases hv : c.types.openVar? arg.ty with
    | none => rw [hv] at h; cases h; rfl
    | some v =>
      rw [hv] at h
      dsimp only at h ⊢
      by_cases hopen : c.types.isNarrowable v = true
      · rw [if_pos hopen] at h ⊢
        obtain ⟨t, T, hnarrow, rfl⟩ := narrow_ok h
        rw [hnarrow]
      · rw [if_neg hopen] at h ⊢
        cases h
        rfl

end Check

theorem accepted_cons {T : TypeTable} {p : Ty × Ty} {pairs : List (Ty × Ty)} :
    Accepted T (p :: pairs) ↔
      T.satisfies p.1 p.2 = true ∧ Accepted (T.accept p.1 p.2) pairs := by
  constructor
  · exact fun h ↦ ⟨h 0 p rfl, fun i p' hp' ↦ h (i + 1) p' hp'⟩
  · rintro ⟨hp, hpairs⟩ i p' hp'
    cases i with
    | zero => cases hp'; exact hp
    | succ i => exact hpairs i p' hp'

namespace Check

variable {c c' : Checker} {e : Expr}

theorem constrainAll_ok {callee : String} {line position : Nat} {rest : Option Ty}
    {args : List Expr} {params : List Ty}
    (h : (constrainAll callee line rest position args params).outcome c = (.ok (), c')) :
    Accepted c.types (expectations (rest.getD .any) (args.map Expr.ty) params) ∧
      c' = { c with types :=
        c.types.acceptAll (expectations (rest.getD .any) (args.map Expr.ty) params) } := by
  induction args generalizing position params c with
  | nil =>
    cases h
    exact ⟨fun _ _ ↦ nofun, rfl⟩
  | cons arg args ih =>
    cases params with
    | nil | cons _ _ =>
      obtain ⟨⟨⟩, c₁, harg, h⟩ := Pass.outcome_bind_ok.mp h
      obtain ⟨hagree, rfl⟩ := constrain_ok harg
      obtain ⟨hargs, rfl⟩ := ih h
      exact ⟨accepted_cons.mpr ⟨hagree, hargs⟩, rfl⟩

/-- A call that is accepted is typed as `Signed` says. -/
theorem signature_ok {name : String} {line : Nat} {callee : Expr} {args : List Expr} {ty : Ty}
    {spread : Option Nat}
    (h : (signature name line callee args).outcome c = (.ok (ty, spread), c')) :
    ∃ T, Signed c.types callee.ty (args.map Expr.ty) T ty spread ∧ c' = { c with types := T } := by
  rw [signature, Pass.outcome_bind, Pass.outcome_get] at h
  dsimp only at h
  cases hcallee : c.types.resolve callee.ty with
  | fn params rest ret =>
    rw [hcallee] at h
    have hfits (harity : (arityOf params rest).admits (args.map Expr.ty).length = true)
        (h : (do
          constrainAll name line rest 0 args params
          return (ret, rest.map fun _ ↦ params.length) : Check (Ty × Option Nat)).outcome c
            = (.ok (ty, spread), c')) :
        ∃ T, Signed c.types callee.ty (args.map Expr.ty) T ty spread ∧
          c' = { c with types := T } := by
      obtain ⟨⟨⟩, c₁, hargs, h⟩ := Pass.outcome_bind_ok.mp h
      obtain ⟨haccepted, rfl⟩ := constrainAll_ok hargs
      cases h
      exact ⟨_, .known hcallee harity haccepted, rfl⟩
    rw [List.length_map] at hfits
    cases rest with
    | none | some _ =>
      dsimp only at h
      split at h
      · next harity => exact hfits harity h
      · cases h
  | var v =>
    rw [hcallee] at h
    dsimp only at h
    split at h
    · next hopen =>
      obtain ⟨ret, c₁, hret, h⟩ := Pass.outcome_bind_ok.mp h
      cases hret
      obtain ⟨⟨⟩, c₂, hret, h⟩ := Pass.outcome_bind_ok.mp h
      obtain ⟨t, T, hnarrow, rfl⟩ := narrow_ok hret
      cases h
      exact ⟨T, .inferred hcallee hopen hnarrow, rfl⟩
    · next hclosed =>
      cases h
      exact ⟨_, .frozen hcallee (by simpa using hclosed), rfl⟩
  | base b =>
    rw [hcallee] at h
    cases b with
    | any =>
      cases h
      exact ⟨_, .dynamic hcallee, rfl⟩
    | _ => cases h

/-! ## Parts of constructs -/

/-- Wherever a step succeeds in a sound state, it makes a phrase that is typed there and leaves a
sound state. -/
def Types {α : Type} (p : Check α) (phrase : α → Phrase) : Prop :=
  ∀ ⦃c c' : Checker⦄ ⦃a : α⦄, c.Sound → p.outcome c = (.ok a, c') →
    c'.Sound ∧ ∃ ks, Typed c.types (phrase a) c'.types ks

theorem types_literal {v : Literal} {t : Token} : Types (pure (literal v v.ty t)) .expr := by
  intro c c' a hc h
  cases h
  exact ⟨hc, [], .literal rfl⟩

theorem types_fail {cause : Cause} {line : Nat} {phrase : α → Phrase} :
    Types (Pass.fail cause line) phrase := by
  intro c c' a _ h
  cases h

theorem types_symbol (name : String) (t : Token) : Types (symbol name t) .expr := by
  intro c c' a hc h
  rw [symbol, Pass.outcome_bind, Pass.outcome_get] at h
  cases hname : c.scopes.lookupWithScope name with
  | none =>
    simp only [hname] at h
    cases h
  | some p =>
    simp only [hname] at h
    cases h
    exact ⟨hc, [], .symbol (hc.scopes.of_lookupWithScope hname)⟩

theorem types_atom (a : Atom) (t : Token) : Types (atom a t) .expr := by
  cases a with
  | nil => exact types_literal (v := .nil)
  | boolean b => exact types_literal (v := .boolean b)
  | string s => exact types_literal (v := .string s)
  | number n =>
    rw [atom]
    split
    · exact types_literal (v := .number n)
    · exact types_fail
  | symbol name => exact types_symbol name t

/-- A step that puts an expression together and leaves the table as it is. -/
theorem Types.map {p : Check α} {f : α → Expr} {phrase : α → Phrase} (hp : Types p phrase)
    (hf : ∀ {a T T' ks}, Typed T (phrase a) T' ks → ∃ ks', Typed T (.expr (f a)) T' ks') :
    Types (do return f (← p)) .expr := by
  intro c c' e hc h
  obtain ⟨a, c₁, ha, h⟩ := Pass.outcome_bind_ok.mp h
  cases h
  obtain ⟨hc', ks, hks⟩ := hp hc ha
  exact ⟨hc', hf hks⟩

theorem types_sequence {p : Check (List Expr)} (shape : Shape) (t : Token) (hp : Types p .exprs) :
    Types (do return sequence shape (← p) t) .expr :=
  hp.map fun helems ↦ ⟨_, .group helems rfl⟩

theorem types_seq {p : Check (List Expr)} (op : Token) (hp : Types p .exprs) :
    Types (do return seq op (← p)) .expr := by
  refine hp.map fun {steps T T' ks} hsteps ↦ ?_
  rw [seq]
  split
  · next hlast =>
    obtain rfl := List.getLast?_eq_none_iff.mp hlast
    cases hsteps
    exact ⟨_, .literal rfl⟩
  · next last hlast => exact ⟨_, .seq hsteps hlast rfl⟩

theorem types_nil : Types (pure []) .exprs := by
  intro c c' a hc h
  cases h
  exact ⟨hc, [], .nil⟩

theorem types_cons {p : Check Expr} {q : Check (List Expr)} (hp : Types p .expr)
    (hq : Types q .exprs) : Types (do return (← p) :: (← q)) .exprs := by
  intro c c' es hc h
  obtain ⟨e, c₁, he, h⟩ := Pass.outcome_bind_ok.mp h
  obtain ⟨es', c₂, hes, h⟩ := Pass.outcome_bind_ok.mp h
  cases h
  obtain ⟨hc₁, ks, hks⟩ := hp hc he
  obtain ⟨hc₂, ks', hks'⟩ := hq hc₁ hes
  exact ⟨hc₂, _, .cons hks hks'⟩

theorem types_cond {op : Token} {p q r : Check Expr} (hp : Types p .expr) (hq : Types q .expr)
    (hr : Types r .expr) : Types (do cond op (← p) (← q) (← r)) .expr := by
  intro c c' e hc h
  obtain ⟨test, c₁, htest, h⟩ := Pass.outcome_bind_ok.mp h
  obtain ⟨yes, c₂, hyes, h⟩ := Pass.outcome_bind_ok.mp h
  obtain ⟨no, c₃, hno, h⟩ := Pass.outcome_bind_ok.mp h
  obtain ⟨hc₁, ks₁, hks₁⟩ := hp hc htest
  obtain ⟨hc₂, ks₂, hks₂⟩ := hq hc₁ hyes
  obtain ⟨hc₃, ks₃, hks₃⟩ := hr hc₂ hno
  obtain ⟨agree, c₄, hagree, h⟩ := Pass.outcome_bind_ok.mp h
  cases hagree
  cases hagree : c₃.types.satisfies no.ty yes.ty with
  | false =>
    rw [hagree] at h
    cases h
  | true =>
    rw [hagree] at h
    cases h
    exact ⟨hc₃, _, .cond (.cons hks₁ (.cons hks₂ (.cons hks₃ .nil))) hagree rfl⟩

theorem types_call {op : Form} {p : Check Expr} {q : Check (List Expr)} (hp : Types p .expr)
    (hq : Types q .exprs) : Types (do call op (← p) (← q)) .expr := by
  intro c c' e hc h
  obtain ⟨callee, c₁, hcallee, h⟩ := Pass.outcome_bind_ok.mp h
  obtain ⟨args, c₂, hargs, h⟩ := Pass.outcome_bind_ok.mp h
  obtain ⟨hc₁, ks, hks⟩ := hp hc hcallee
  obtain ⟨hc₂, ks', hks'⟩ := hq hc₁ hargs
  obtain ⟨⟨ty, spread⟩, c₃, hsignature, h⟩ := Pass.outcome_bind_ok.mp h
  cases h
  obtain ⟨T, hsigned, rfl⟩ := signature_ok hsignature
  have hparts := Typed.cons hks hks'
  obtain ⟨-, -, -, hT, hlater⟩ := hparts.signed hc.types hsigned
  exact ⟨hc₂.later hT hlater, _, .call hparts hsigned⟩

/-! ## Functions -/

/-- Parameters get new placeholders. -/
theorem bindParams_ok {names : List String} {tys : List Ty} (hc : c.Sound)
    (h : (bindParams names).outcome c = (.ok tys, c')) :
    (tys, c'.types) = c.types.freshAll names ∧ c'.Sound := by
  induction names generalizing c tys with
  | nil =>
    cases h
    exact ⟨rfl, hc⟩
  | cons name names ih =>
    obtain ⟨ty, c₁, hty, h⟩ := Pass.outcome_bind_ok.mp h
    cases hty
    obtain ⟨_, c₂, hdefine, h⟩ := Pass.outcome_bind_ok.mp h
    cases hdefine
    obtain ⟨tys, c₃, htys, h⟩ := Pass.outcome_bind_ok.mp h
    cases h
    obtain ⟨htypes, hsound⟩ := ih ((hc.fresh name).defineIn _ name (TypeTable.over_fresh _ _)) htys
    refine ⟨?_, hsound⟩
    rw [TypeTable.freshAll]
    exact congrArg (fun r ↦ (Ty.var c.types.size :: r.1, r.2)) htypes

/-- The parameters of a function and its own name are bound as `TypeTable.enter` says. -/
theorem bindHead_ok {h : FnHead} {params : List Ty} (hc : c.Sound)
    (hhead : (bindHead h).outcome c = (.ok params, c')) :
    (params, c'.types) = c.types.enter h ∧ c'.Sound := by
  obtain ⟨name, names, rest, isGlobal⟩ := h
  obtain ⟨tys, c₁, htys, hhead⟩ := Pass.outcome_bind_ok.mp hhead
  obtain ⟨htypes, hsound⟩ := bindParams_ok hc htys
  have hover : ∀ t ∈ tys, t.Over c₁.types.size := by
    have hfresh := (hc.types.freshAll names).2
    rwa [← htypes] at hfresh
  have hrest (rest : String) :
      Checker.Sound { c₁ with scopes := c₁.scopes.define rest .list } :=
    hsound.defineIn _ rest (Ty.over_base _ _)
  -- what the function answers when it calls itself is open
  have hname {c₂ : Checker} (hc₂ : c₂.Sound) (hc₂₁ : c₂.types = c₁.types) (x : String) :
      Checker.Sound ⟨(c₂.types.fresh (x ++ "-ret")).2,
        c₂.scopes.define x (fnTy ⟨some x, names, rest, isGlobal⟩ tys (.var c₂.types.size))⟩ := by
    refine (hc₂.fresh (x ++ "-ret")).defineIn _ x
      (Ty.over_fn.mpr ⟨fun t ht ↦ ?_, fun t ht ↦ ?_, ?_⟩)
    · exact (hc₂₁ ▸ hover t ht).mono (TypeTable.Later.fresh _ _).size_le
    · obtain ⟨_, -, rfl⟩ := Option.map_eq_some_iff.mp ht
      exact Ty.over_base _ _
    · exact TypeTable.over_fresh _ _
  rw [TypeTable.enter, ← htypes]
  cases rest with
  | none =>
    cases name with
    | none => cases hhead; exact ⟨rfl, hsound⟩
    | some x => cases hhead; exact ⟨rfl, hname hsound rfl x⟩
  | some rest =>
    cases name with
    | none => cases hhead; exact ⟨rfl, hrest rest⟩
    | some x => cases hhead; exact ⟨rfl, hname (hrest rest) rfl x⟩

theorem types_fn {op : Token} {h : FnHead} {body : Check Expr} (hbody : Types body .expr) :
    Types (fn op h body) .expr := by
  intro c c' e hc hfn
  obtain ⟨⟨body', params⟩, c₁, hnested, hfn⟩ := Pass.outcome_bind_ok.mp hfn
  obtain ⟨c₂, hframe, rfl⟩ := outcome_nested.mp hnested
  obtain ⟨params', c₃, hhead, hframe⟩ := Pass.outcome_bind_ok.mp hframe
  obtain ⟨e', c₄, he, hframe⟩ := Pass.outcome_bind_ok.mp hframe
  obtain ⟨_, c₅, hfreeze, hframe⟩ := Pass.outcome_bind_ok.mp hframe
  cases hfreeze
  cases hframe
  obtain ⟨henter, hc₃⟩ := bindHead_ok hc.enter hhead
  obtain ⟨hc₄, ks, hks⟩ := hbody hc₃ he
  have htyped : Typed c.types (.expr (.fn h body' ⟨fnTy h params body'.ty,
      body'.captures.without (h.allParams ++ h.name.toList), op⟩))
      (c₄.types.freeze body'.ty) ks := by
    refine .fn ?_ ?_
    · rwa [← henter]
    · rw [← henter]
  have hleft := (hc₄.freeze body'.ty).exit c.scopes.current
  obtain ⟨-, -, hover⟩ := htyped.sound hc.types
  have hty := hover _ (List.mem_singleton_self _)
  dsimp only at hfn
  split at hfn
  · cases hfn
    exact ⟨hleft.defineIn _ _ hty, ks, htyped⟩
  · cases hfn
    exact ⟨hleft, ks, htyped⟩

/-- The head of a function makes nothing known. -/
theorem types_head {op : Token} {isGlobal : Bool} {name : Option Form} {params : Form}
    {body : Check Expr} (hbody : Types body .expr) :
    Types (do fn op (← fnHead op isGlobal name params) body) .expr := by
  intro c c' e hc h
  obtain ⟨head, c₁, hhead, h⟩ := Pass.outcome_bind_ok.mp h
  have hc₁ : c₁ = c := by
    have hstate := state_fnHead op isGlobal name params c
    rwa [hhead] at hstate
  exact types_fn hbody (hc₁ ▸ hc) (hc₁ ▸ h)

end Check

/-! ## Checked forms -/

mutual

theorem Form.checkDatum_types : ∀ f : Form, Check.Types f.checkDatum .expr
  | .atom a t => Check.types_atom a t
  | .group shape elems t => Check.types_sequence shape t (checkData_types elems)

theorem checkData_types : ∀ fs : List Form, Check.Types (checkData fs) .exprs
  | [] => Check.types_nil
  | f :: fs => Check.types_cons f.checkDatum_types (checkData_types fs)

end

mutual

theorem Form.check_types : ∀ f : Form, Check.Types f.check .expr
  | .atom a t => Check.types_atom a t
  | .group .vector elems t => Check.types_sequence .vector t (checkData_types elems)
  | .group .list [] t => by
    intro c c' e hc h
    cases h
    exact ⟨hc, [], .group .nil rfl⟩
  | .group .list (.group .list elems t' :: args) t => by
    rw [Form.check]
    exact Check.types_call (Form.check_types (.group .list elems t')) (checkAll_types args)
  | .group .list (.group .vector _ _ :: _) _
  | .group .list (.atom .nil _ :: _) _ | .group .list (.atom (.boolean _) _ :: _) _
  | .group .list (.atom (.number _) _ :: _) _ | .group .list (.atom (.string _) _ :: _) _ =>
    Check.types_fail
  | .group .list (.atom (.symbol name) opToken :: args) t => by
    unfold Form.check
    dsimp only
    split
    · split
      · next datum => exact datum.checkDatum_types
      · exact Check.types_fail
    · exact checkCond_types opToken args
    · exact checkFn_types opToken false args
    · exact checkFn_types opToken true args
    · exact checkLet_types opToken args
    · exact Check.types_seq opToken (checkAll_types args)
    · exact Check.types_call (Check.types_atom _ _) (checkAll_types args)

theorem checkAll_types : ∀ fs : List Form, Check.Types (checkAll fs) .exprs
  | [] => Check.types_nil
  | f :: fs => Check.types_cons f.check_types (checkAll_types fs)

theorem checkCond_types (op : Token) : ∀ fs : List Form, Check.Types (checkCond op fs) .expr
  | [test, yes] => by
    rw [checkCond_missing]
    exact Check.types_cond test.check_types yes.check_types Check.types_literal
  | [test, yes, no] => Check.types_cond test.check_types yes.check_types no.check_types
  | [] | [_] | _ :: _ :: _ :: _ :: _ => Check.types_fail

theorem checkFn_types (op : Token) (isGlobal : Bool) :
    ∀ fs : List Form, Check.Types (checkFn op isGlobal fs) .expr
  | [name, params, body] => Check.types_head body.check_types
  | [params, body] => by
    cases isGlobal with
    | true => exact Check.types_fail
    | false => exact Check.types_head body.check_types
  | [] | [_] | _ :: _ :: _ :: _ :: _ => Check.types_fail

theorem checkLet_types (op : Token) : ∀ fs : List Form, Check.Types (checkLet op fs) .expr
  | [.atom _ _, _] | [.group .list _ _, _] => Check.types_fail
  | [.group .vector pairs _, body] => by
    rw [checkLet]
    split
    · intro c c' e hc h
      obtain ⟨c₃, hframe, rfl⟩ := Check.outcome_nested.mp h
      obtain ⟨bs, c₂, hbs, hframe⟩ := Pass.outcome_bind_ok.mp hframe
      obtain ⟨body', _, hbody, hframe⟩ := Pass.outcome_bind_ok.mp hframe
      cases hframe
      obtain ⟨hc₂, ks, hks⟩ := checkPairs_types op pairs hc.enter hbs
      obtain ⟨hc₃, ks', hks'⟩ := body.check_types hc₂ hbody
      exact ⟨hc₃.exit _, _, .letIn hks hks' rfl⟩
    · exact Check.types_fail
  | [] | [_] | _ :: _ :: _ :: _ => Check.types_fail

theorem checkPairs_types (op : Token) :
    ∀ fs : List Form, Check.Types (checkPairs op fs) .bindings
  | [] => by
    intro c c' bs hc h
    cases h
    exact ⟨hc, [], .bound⟩
  | [_] => Check.types_fail
  | name :: value :: rest => by
    intro c c' bs hc h
    rw [checkPairs] at h
    split at h
    · cases h
    · next name _ =>
      obtain ⟨v, c₁, hv, h⟩ := Pass.outcome_bind_ok.mp h
      obtain ⟨_, c₂, hdefine, h⟩ := Pass.outcome_bind_ok.mp h
      cases hdefine
      obtain ⟨bs', c₃, hbs, h⟩ := Pass.outcome_bind_ok.mp h
      cases h
      obtain ⟨hc₁, ks, hks⟩ := value.check_types hc hv
      obtain ⟨-, -, hover⟩ := hks.sound hc.types
      have hc₂ := hc₁.defineIn c₁.scopes.current name (hover v (List.mem_singleton_self _))
      obtain ⟨hc₃, ks', hks'⟩ := checkPairs_types op rest hc₂ hbs
      exact ⟨hc₃, _, .bind hks hks'⟩

end

/-! ## Programs -/

/-- The expressions of a program are typed, from the table without placeholders on. -/
theorem checkProgram_typed {forms : List Form} {es : List Expr} {T : TypeTable}
    (h : checkProgram forms = .ok (es, T)) : ∃ ks, Typed .empty (.exprs es) T ks := by
  rw [checkProgram] at h
  split at h
  · next es c hc =>
    cases h
    exact (checkAll_types forms Checker.sound_start hc).2
  · cases h

end TaggedLisp
