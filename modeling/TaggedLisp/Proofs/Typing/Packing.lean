import Mathlib.Data.List.Forall2
import Mathlib.Order.MinMax
import TaggedLisp.Proofs.Typing.Calls
import TaggedLisp.Proofs.Typing.Shape

/-!
# Surplus arguments

Whether the surplus arguments of a call go into a list is decided when the call is checked, from the
type that its callee has then. `rest_packing` says that the decision is right for every function
that was followed on its way to the call: the call hands over what the function has parameters for.

The proof is a soundness proof for the reference evaluation. `Env.Fits` says that what is known
about the values of the visible names is right for the types that the names have, and that every
function among them was checked where the names that it sees have such types. Evaluating an
expression keeps this, whatever the builtin functions answer (`Checked.keeps`).

A function that was not followed may reach any call. What an identity function answers has a frozen
placeholder for its type, so the arguments of a call of it stay as they are (`identity_not_packed`).
-/

namespace TaggedLisp

namespace Scopes.WellFormed

variable {α : Type} {s : Scopes α}

theorem lookup_enter (h : s.WellFormed) (x : String) : s.enter.lookup x = s.lookup x := by
  rw [h.enter.lookup_eq, h.lookup_eq, h.locals_enter, h.globals_enter]

/-- Where no construct is open, the latest global binding hides the others. -/
theorem lookup_defineGlobal (h : s.WellFormed) (hs : s.isGlobal = true) (x : String) (v : α)
    (y : String) : (s.defineGlobal x v).lookup y = if y = x then some v else s.lookup y := by
  have hlocal := h.isLocal_of_isGlobal hs y
  rw [h.isLocal_eq, Option.isSome_eq_false_iff, Option.isNone_iff_eq_none] at hlocal
  rw [(h.defineGlobal x v).lookup_eq, h.lookup_eq, locals_defineGlobal, hlocal, Option.none_or,
    Option.none_or, h.globals_defineGlobal, List.lookup_cons]
  by_cases hy : y = x
  · simp [hy]
  · simp [hy, beq_false_of_ne hy]

end Scopes.WellFormed

/-! ## What is known of values -/

section

variable {T : TypeTable} {a b ty : Ty} {r : Followed Value}

/-- Whether what is known about where a value comes from is right at a place of type `ty`. -/
def Followed.Traces (T : TypeTable) (ty : Ty) (r : Followed Value) : Prop :=
  r.depth ≠ 0 → ∃ own, r.value.ty? = some own ∧ T.Alike r.depth ty own

theorem Followed.traces_zero (v : Value) : Followed.Traces T ty ⟨v, 0⟩ := fun h ↦ absurd rfl h

/-- A value stays followed when it goes from one place to another. -/
theorem Followed.Traces.handed {sure : Nat} (h : r.Traces T a) (hT : T.ChainsEnd)
    (hsure : T.Alike sure a b) : (r.handed T sure a b).Traces T b := by
  intro hd
  have hle : (r.handed T sure a b).depth ≤ r.depth := Nat.min_le_left _ _
  obtain ⟨own, hown, halike⟩ := h fun h0 ↦ hd (Nat.le_zero.mp (h0 ▸ hle))
  have hab : T.Alike (r.handed T sure a b).depth a b := by
    rcases le_max_iff.mp (Nat.min_le_right r.depth (max sure (T.shared a b))) with hle' | hle'
    · exact hsure.mono hle'
    · exact (hT.alike_shared a b).mono hle'
  exact ⟨own, hown, hab.symm.trans (halike.mono hle)⟩

/-- Whether what is known about the value of a name is right, if the name has the type `ty`. -/
def Origin.Traces (T : TypeTable) (ty : Ty) : Origin Value → Prop
  | .bound r => r.Traces T ty
  | .passed sure a r => r.Traces T a ∧ T.Alike sure a ty

end

/-- A value whose functions were checked where the names that they see have the types that are known
of them. -/
inductive Value.Sound (T : TypeTable) : Value → Prop where
  | literal {v} : Sound T (.literal v)
  | group {shape elems} (helems : ∀ v ∈ elems, Sound T v) : Sound T (.group shape elems)
  | builtin {b} : Sound T (.builtin b)
  | closure {ty : Ty} {seen : Env} {h body n} {s : Scopes Ty} {params : List Ty} {ret T₀ T₁ ks}
      (hs : s.WellFormed)
      (hnames : ∀ x t, s.lookup x = some t → ∃ o, seen.lookup x = some o ∧ o.Traces T t)
      (hvalues : ∀ b ∈ seen, Sound T b.2.value) (hparams : params.length = h.params.length)
      (hscoped : Scoped (s.enter.defineAll (h.bindings params ret)) (.expr body) [])
      (htyped : Typed T₀ (.expr (.fn h body n)) T₁ ks) (hT₀ : T₀.Sound) (hlater : T₁.Later T)
      (hty : ty = n.ty) : Sound T (.closure ty seen h body)

/-- Whether the names of an environment are those of the scopes, and what is known of their values
is right. -/
structure Env.Fits (T : TypeTable) (s : Scopes Ty) (ρ : Env) : Prop where
  wellFormed : s.WellFormed
  names : ∀ x t, s.lookup x = some t → ∃ o, ρ.lookup x = some o ∧ o.Traces T t
  values : ∀ b ∈ ρ, b.2.value.Sound T

/-- The names that are visible after a phrase. -/
def Phrase.declare (T : TypeTable) : Phrase → Env → Env
  | .expr e, ρ => e.declare T ρ
  | .exprs es, ρ => declareAll T es ρ
  | .bindings _, ρ => ρ

/-- What is known of the value of an expression of type `ty`. -/
structure Followed.Fits (T : TypeTable) (ty : Ty) (r : Followed Value) : Prop where
  traces : r.Traces T ty
  sound : r.value.Sound T

/-- What is known of something that arrives at a function: it fits a parameter of any type. -/
structure Origin.Arrives (T : TypeTable) (o : Origin Value) : Prop where
  traces : ∀ t, o.Traces T t
  sound : o.value.Sound T

/-- What a request has to satisfy: if the function of a call was followed, the call hands over what
the function has parameters for. -/
def Request.Packs : Request → Prop
  | .call site => site.function.depth ≠ 0 → ∃ arity, site.function.value.arity? = some arity ∧
      site.spread = arity.spread ∧ arity.admits site.args.length = true
  | .builtin _ _ => True

/-- Whether an evaluation packs the arguments of all calls rightly and comes to results with `R`. -/
abbrev Valuation.Keeps {α : Type} (R : α → Prop) (d : Valuation α) : Prop :=
  Dialogue.Keeps Request.Honest Request.Packs R d

/-! ## Values -/

namespace Value

variable {T : TypeTable} {v w : Value} {ty : Ty} {seen : Env} {h : FnHead} {body : Expr}

/-- A function takes as many arguments as its type says. -/
theorem Sound.arity? (hv : v.Sound T) {own : Ty} (hown : v.ty? = some own) {params rest ret}
    (hfn : T.resolve own = .fn params rest ret) : v.arity? = some (arityOf params rest) := by
  cases hv with
  | literal | group => cases hown
  | @builtin b =>
    cases hown
    rw [Builtin.ty, TypeTable.resolve_fn] at hfn
    obtain ⟨rfl, rfl, -⟩ := Ty.fn.inj hfn
    exact congrArg some b.arityOf_eq.symm
  | closure _ _ _ _ _ htyped _ _ hty =>
    cases hown
    cases htyped with
    | fn _ hn =>
      rw [hty, hn, Check.fnTy, TypeTable.resolve_fn] at hfn
      obtain ⟨rfl, rfl, -⟩ := Ty.fn.inj hfn
      exact congrArg some (FnHead.arityOf_eq (TypeTable.length_enter _ _)).symm

/-- What can be taken out of a value is sound if that is. -/
theorem Sound.of_holds (hv : v.Sound T) (hw : w.Holds v) : w.Sound T := by
  induction hw with
  | self => exact hv
  | elem hmem _ ih =>
    cases hv with
    | group helems => exact ih (helems _ hmem)

/-- A value is sound if all functions of the program are that can be taken out of it. -/
theorem sound_of_closures : ∀ v : Value, (∀ ty seen h body, Holds (.closure ty seen h body) v →
    Sound T (.closure ty seen h body)) → v.Sound T
  | literal _, _ => .literal
  | builtin _, _ => .builtin
  | closure ty seen head body, h => h ty seen head body .self
  | group _ elems, h => .group fun v hmem ↦
    sound_of_closures v fun ty seen head body hheld ↦ h ty seen head body (.elem hmem hheld)

/-- What an honest builtin function answers is sound if its arguments are. -/
theorem sound_of_honest {b : Builtin} {args : List Value} (hargs : ∀ v ∈ args, v.Sound T)
    (hv : Request.Honest (.builtin b args) v) : v.Sound T := by
  refine sound_of_closures v fun ty seen h body hheld ↦ ?_
  obtain ⟨arg, harg, hheld⟩ := hv ty seen h body hheld
  exact (hargs arg harg).of_holds hheld

end Value

/-! ## Environments -/

/-- What a name of type `b.2` is bound to in an environment. -/
structure Env.Binds (T : TypeTable) (b : String × Ty) (o : String × Origin Value) : Prop where
  name : b.1 = o.1
  traces : o.2.Traces T b.2
  sound : o.2.value.Sound T

namespace Env.Fits

variable {T : TypeTable} {s s' : Scopes Ty} {ρ : Env} {x : String} {t : Ty} {o : Origin Value}

theorem bind (h : Fits T s ρ) (hs' : s'.WellFormed)
    (hlookup : ∀ y, s'.lookup y = if y = x then some t else s.lookup y)
    (ho : Binds T (x, t) (x, o)) : Fits T s' ((x, o) :: ρ) where
  wellFormed := hs'
  names y u hy := by
    rw [hlookup] at hy
    rw [List.lookup_cons]
    by_cases hyx : y = x
    · rw [if_pos hyx] at hy
      cases hy
      exact ⟨o, by rw [hyx, beq_self_eq_true], ho.traces⟩
    · rw [if_neg hyx] at hy
      rw [beq_false_of_ne hyx]
      exact h.names y u hy
  values := List.forall_mem_cons.mpr ⟨ho.sound, h.values⟩

theorem enter (h : Fits T s ρ) : Fits T s.enter ρ where
  wellFormed := h.wellFormed.enter
  names x t hx := h.names x t (h.wellFormed.lookup_enter x ▸ hx)
  values := h.values

theorem define (h : Fits T s ρ) (hs : s.current ≠ ScopeId.global) (ho : Binds T (x, t) (x, o)) :
    Fits T (s.define x t) ((x, o) :: ρ) :=
  h.bind (h.wellFormed.define x t) (h.wellFormed.lookup_define hs x t) ho

theorem defineGlobal (h : Fits T s ρ) (hs : s.isGlobal = true) (ho : Binds T (x, t) (x, o)) :
    Fits T (s.defineGlobal x t) ((x, o) :: ρ) :=
  h.bind (h.wellFormed.defineGlobal x t) (h.wellFormed.lookup_defineGlobal hs x t) ho

theorem defineAll {bs : List (String × Ty)} {os : Env} (h : Fits T s ρ)
    (hs : s.current ≠ ScopeId.global) (hall : List.Forall₂ (Binds T) bs os) :
    Fits T (s.defineAll bs) (os.reverse ++ ρ) := by
  induction hall generalizing s ρ with
  | nil => exact h
  | @cons b o bs os hb _ ih =>
    obtain ⟨x, t⟩ := b
    obtain ⟨y, o⟩ := o
    obtain rfl : x = y := hb.name
    rw [List.reverse_cons, List.append_assoc]
    exact ih (h.define hs hb) hs

/-- A function fits its own type where it stands. -/
theorem closure (hT : T.ChainsEnd) {h : FnHead} {body : Expr} {n : Note} {params : List Ty}
    {ret : Ty}
    {T₀ T₁ : TypeTable} {ks : List CallCheck} (hfits : Fits T s ρ)
    (hparams : params.length = h.params.length)
    (hscoped : Scoped (s.enter.defineAll (h.bindings params ret)) (.expr body) [])
    (htyped : Typed T₀ (.expr (.fn h body n)) T₁ ks) (hT₀ : T₀.Sound) (hlater : T₁.Later T) :
    Followed.Fits T n.ty ⟨.closure n.ty ρ h body, T.depth n.ty⟩ where
  traces _ := ⟨n.ty, rfl, hT.alike_self n.ty⟩
  sound := .closure hfits.wellFormed hfits.names hfits.values hparams hscoped htyped hT₀ hlater rfl

/-- The global functions of a phrase are defined with their types. -/
theorem declare (hT : T.ChainsEnd) {p : Phrase} {ds : List (String × Ty)} {T₀ T₁ : TypeTable}
    {ks : List CallCheck}
    (hscoped : Scoped s p ds) (hfits : Fits T s ρ) (htyped : Typed T₀ p T₁ ks) (hT₀ : T₀.Sound)
    (hlater : T₁.Later T) : Fits T (s.defineGlobals id ds) (p.declare T ρ) := by
  induction hscoped generalizing ρ T₀ T₁ ks with
  | literal | symbol | letIn | nil | bound | bind => exact hfits
  | group _ _ ih =>
    cases htyped with
    | group helems _ => exact ih hfits helems hT₀ hlater
  | cond _ _ ih =>
    cases htyped with
    | cond hparts _ _ => exact ih hfits hparts hT₀ hlater
  | seq _ _ ih =>
    cases htyped with
    | seq hsteps _ _ => exact ih hfits hsteps hT₀ hlater
  | call _ _ ih =>
    cases htyped with
    | call hparts hsigned =>
      obtain ⟨-, -, -, -, hlater'⟩ := hparts.signed hT₀ hsigned
      exact ih hfits hparts hT₀ (hlater'.trans hlater)
  | fn _ _ _ hglobal _ =>
    rw [Phrase.declare, Expr.declare, hglobal]
    exact hfits
  | defn hparams hbody _ hglobal hs hname _ =>
    rw [Phrase.declare, Expr.declare, hglobal, hname]
    obtain ⟨htraces, hsound⟩ := hfits.closure hT hparams hbody htyped hT₀ hlater
    exact hfits.defineGlobal hs ⟨rfl, htraces, hsound⟩
  | cons _ _ ih ih' =>
    cases htyped with
    | cons he hes =>
      obtain ⟨hT₁, -⟩ := he.sound hT₀
      obtain ⟨-, hlater', -⟩ := hes.sound hT₁
      rw [Scopes.defineGlobals_append]
      exact ih' (ih hfits he hT₀ (hlater'.trans hlater)) hes hT₁ hlater

end Env.Fits

/-! ## Checked phrases -/

/-- A phrase was checked in scopes that an environment fits, and before the table `T` was reached.
-/
inductive Checked (T : TypeTable) (ρ : Env) (p : Phrase) : Prop where
  | intro {s ds T₀ T₁ ks} (hfits : Env.Fits T s ρ) (hscoped : Scoped s p ds)
      (htyped : Typed T₀ p T₁ ks) (hT₀ : T₀.Sound) (hlater : T₁.Later T)

namespace Checked

variable {T : TypeTable} {ρ : Env} {e : Expr} {es : List Expr}

/-- Each of several expressions was checked where the global functions of those before are known. -/
theorem of_cons (hT : T.ChainsEnd) (h : Checked T ρ (.exprs (e :: es))) :
    Checked T ρ (.expr e) ∧ Checked T (e.declare T ρ) (.exprs es) := by
  obtain ⟨hfits, hscoped, htyped, hT₀, hlater⟩ := h
  cases hscoped with
  | cons he hes =>
    cases htyped with
    | cons he' hes' =>
      obtain ⟨hT₁, -⟩ := he'.sound hT₀
      obtain ⟨-, hlater', -⟩ := hes'.sound hT₁
      have hlater₁ := hlater'.trans hlater
      exact ⟨.intro hfits he he' hT₀ hlater₁,
        .intro (Env.Fits.declare hT he hfits he' hT₀ hlater₁) hes hes' hT₁ hlater⟩

/-- What is known of a call in the end, if its callee has a function type then. -/
theorem of_call {callee : Expr} {args : List Expr} {spread : Option Nat} {n : Note}
    (h : Checked T ρ (.expr (.call callee args spread n))) :
    Checked T ρ (.exprs (callee :: args)) ∧
      ∀ params rest ret, T.resolve callee.ty = .fn params rest ret →
        n.ty = ret ∧ spread = (arityOf params rest).spread ∧
          (arityOf params rest).admits args.length = true := by
  obtain ⟨hfits, hscoped, htyped, hT₀, hlater⟩ := h
  cases hscoped with
  | call hparts _ =>
    cases htyped with
    | call hparts' hsigned =>
      obtain ⟨hsound, hcallee, hargs, -, hlater'⟩ := hparts'.signed hT₀ hsigned
      refine ⟨.intro hfits hparts hparts' hT₀ (hlater'.trans hlater), fun params rest ret hfn ↦ ?_⟩
      obtain ⟨hret, hspread, harity, -⟩ := hsigned.of_resolve hsound hcallee hargs hlater hfn
      rw [List.length_map] at harity
      exact ⟨hret, hspread.trans (arityOf_spread params rest).symm, harity⟩

end Checked

/-! ## Calls -/

/-- What holds of all arguments and of what is made of some of them holds of all that arrives. -/
theorem forall_packed {α : Type} {P : α → Prop} {pack : List α → α} {args : List α}
    (hargs : ∀ a ∈ args, P a) (hpack : ∀ as, (∀ a ∈ as, P a) → P (pack as)) (spread : Option Nat) :
    ∀ a ∈ packed pack spread args, P a := by
  cases spread with
  | none => exact hargs
  | some n =>
    refine List.forall_mem_append.mpr ⟨fun a ha ↦ hargs a (List.mem_of_mem_take ha), ?_⟩
    exact List.forall_mem_singleton.mpr (hpack _ fun a ha ↦ hargs a (List.mem_of_mem_drop ha))

section

variable {T : TypeTable} {run : Env → Expr → Valuation (Followed Value)} {ρ : Env} {e : Expr}
  {es : List Expr} {rs : List (Followed Value)}

/-- The values of several expressions, one for each. -/
abbrev FitAll (T : TypeTable) (es : List Expr) (rs : List (Followed Value)) : Prop :=
  List.Forall₂ (fun e r ↦ r.Fits T e.ty) es rs

theorem sound_of_fitAll (h : FitAll T es rs) : ∀ v ∈ rs.map Followed.value, v.Sound T := by
  induction h with
  | nil => exact List.forall_mem_nil _
  | cons hr _ ih => exact List.forall_mem_cons.mpr ⟨hr.sound, ih⟩

theorem arrives_of_fitAll (h : FitAll T es rs) :
    ∀ o ∈ List.zipWith (.passed 0) (es.map Expr.ty) rs, Origin.Arrives T o := by
  induction h with
  | nil => exact List.forall_mem_nil _
  | cons hr _ ih =>
    exact List.forall_mem_cons.mpr ⟨⟨fun _ ↦ ⟨hr.traces, trivial⟩, hr.sound⟩, ih⟩

theorem arrives_pack {os : List (Origin Value)} (h : ∀ o ∈ os, o.Arrives T) :
    (Origin.pack os).Arrives T where
  traces _ := Followed.traces_zero _
  sound := .group (List.forall_mem_map.mpr fun o ho ↦ (h o ho).sound)

/-- The last value is that of the last expression. -/
theorem fits_last (h : FitAll T es rs) (hlast : es.getLast? = some e) (d : Followed Value) :
    (rs.getLastD d).Fits T e.ty := by
  induction h generalizing d with
  | nil => cases hlast
  | @cons e' r es rs hr hrs ih =>
    rw [List.getLastD_cons]
    cases hrs with
    | nil =>
      cases hlast
      exact hr
    | cons hr' hrs' => exact ih hlast r

/-- What arrives can be bound to names of any types. -/
theorem binds_arriving {bs : List (String × Ty)} {arriving : List (Origin Value)}
    (hlength : arriving.length = bs.length) (harriving : ∀ o ∈ arriving, o.Arrives T) :
    List.Forall₂ (Env.Binds T) bs ((bs.map Prod.fst).zip arriving) := by
  induction bs generalizing arriving with
  | nil => exact .nil
  | cons b bs ih =>
    cases arriving with
    | nil => cases hlength
    | cons o arriving =>
      obtain ⟨ho, harriving⟩ := List.forall_mem_cons.mp harriving
      exact .cons ⟨rfl, ho.traces b.2, ho.sound⟩ (ih (Nat.succ.inj hlength) harriving)

/-- A function is known to its body as one that takes as many arguments. -/
theorem binds_self (hT : T.ChainsEnd) {h : FnHead} {params params' : List Ty} {ret ret' ty : Ty}
    {self : Value} (hparams : params.length = h.params.length)
    (hparams' : params'.length = h.params.length) (hself : self.Sound T) (hown : self.ty? = some ty)
    (hty : ty = Check.fnTy h params' ret') :
    List.Forall₂ (Env.Binds T) (h.name.toList.map (·, Check.fnTy h params ret))
      (h.name.toList.map (·, .passed 1 ty ⟨self, T.depth ty⟩)) := by
  have halike : T.Alike 1 ty (Check.fnTy h params ret) := by
    rw [hty, Check.fnTy, Check.fnTy]
    refine ⟨_, _, _, _, _, _, T.resolve_fn _ _ _, T.resolve_fn _ _ _, ?_, trivial⟩
    rw [FnHead.arityOf_eq hparams, FnHead.arityOf_eq hparams']
  refine List.forall₂_map_left_iff.mpr (List.forall₂_map_right_iff.mpr ?_)
  exact List.forall₂_same.mpr fun x _ ↦
    ⟨rfl, ⟨fun _ ↦ ⟨ty, hown, hT.alike_self ty⟩, halike⟩, hself⟩

/-- What arrives at a function and the function itself have the types that its body was checked
with. -/
theorem Value.Sound.enter (hT : T.ChainsEnd) {ty : Ty} {seen : Env} {h : FnHead} {body : Expr}
    {arriving : List (Origin Value)} (hself : (Value.closure ty seen h body).Sound T)
    (hlength : arriving.length = h.allParams.length) (harriving : ∀ o ∈ arriving, o.Arrives T) :
    Checked T ((h.frame T ty (.closure ty seen h body) arriving).reverse ++ seen) (.expr body) ∧
      ∃ params rest, ty = .fn params rest body.ty := by
  have hsound := hself
  cases hself with
  | @closure _ _ _ _ _ s params _ T₀ _ _ hs hnames hvalues hparams hscoped htyped hT₀ hlater hty =>
    cases htyped with
    | fn hbody hn =>
      have hty := hty.trans hn
      have hfits : Env.Fits T s seen := ⟨hs, hnames, hvalues⟩
      refine ⟨.intro (hfits.enter.defineAll hs.current_enter ?_) hscoped hbody (hT₀.enter h).1
        ((TypeTable.Later.freeze _ _).trans hlater), _, _, hty⟩
      have hnames : (h.params.zip params ++ h.rest.toList.map (·, Ty.list)).map Prod.fst
          = h.allParams := by
        rw [List.map_append, List.map_fst_zip (Nat.le_of_eq hparams.symm), List.map_map,
          FnHead.allParams]
        exact congrArg _ (List.map_id _)
      rw [FnHead.bindings, ← List.append_assoc, FnHead.frame]
      refine List.rel_append ?_
        (binds_self hT hparams (TypeTable.length_enter T₀ h) hsound rfl hty)
      rw [← hnames]
      rw [← hnames, List.length_map] at hlength
      exact binds_arriving hlength harriving

variable (hT : T.ChainsEnd)
  (hrun : ∀ {ρ e}, Checked T ρ (.expr e) → (run ρ e).Keeps (·.Fits T e.ty))

include hT hrun in
theorem runAll_keeps (h : Checked T ρ (.exprs es)) : (runAll T run ρ es).Keeps (FitAll T es) := by
  induction es generalizing ρ with
  | nil => exact .done .nil
  | cons e es ih =>
    obtain ⟨he, hes⟩ := h.of_cons hT
    exact (hrun he).bind fun r hr ↦ (ih hes).bind fun rs hrs ↦ .done (.cons hr hrs)

include hrun in
theorem runBindings_keeps {bs : List (String × Expr)} {s : Scopes Ty} {T₀ T₁ : TypeTable}
    {ks : List CallCheck} (hfits : Env.Fits T s ρ) (hscoped : Scoped s (.bindings bs) [])
    (htyped : Typed T₀ (.bindings bs) T₁ ks) (hT₀ : T₀.Sound) (hlater : T₁.Later T) :
    (runBindings run ρ bs).Keeps (Env.Fits T (s.defineAll (bindingTypes bs))) := by
  induction bs generalizing s ρ T₀ ks with
  | nil => exact .done hfits
  | cons b bs ih =>
    obtain ⟨name, value⟩ := b
    cases hscoped with
    | bind hs hvalue hrest =>
      cases htyped with
      | bind hvalue' hrest' =>
        obtain ⟨hT₁, -⟩ := hvalue'.sound hT₀
        obtain ⟨-, hlater', -⟩ := hrest'.sound hT₁
        refine (hrun (.intro hfits hvalue hvalue' hT₀ (hlater'.trans hlater))).bind fun r hr ↦ ?_
        have hname : Env.Binds T (name, value.ty) (name, .bound r) := ⟨rfl, hr.traces, hr.sound⟩
        exact ih (hfits.define hs hname) hrest hrest' hT₁

include hT hrun in
/-- A call hands over what a followed function has parameters for, and follows what the function
answers. -/
theorem runCall_keeps {callee : Expr} {spread : Option Nat} {ty : Ty} {f : Followed Value}
    (hf : f.Fits T callee.ty) (hargs : FitAll T es rs)
    (hcall : ∀ params rest ret, T.resolve callee.ty = .fn params rest ret → ty = ret ∧
      spread = (arityOf params rest).spread ∧ (arityOf params rest).admits es.length = true) :
    (runCall T run spread ty f (es.map Expr.ty) rs).Keeps (·.Fits T ty) := by
  -- the type of the callee and that of the function itself take as many arguments
  have hknown : f.depth ≠ 0 → ∃ own, f.value.ty? = some own ∧ ∃ params rest ret,
      T.resolve own = .fn params rest ret ∧ spread = (arityOf params rest).spread ∧
        (arityOf params rest).admits es.length = true ∧ T.Alike (f.depth - 1) ty ret := by
    intro hd
    obtain ⟨own, hown, halike⟩ := hf.traces hd
    obtain ⟨d, hdepth⟩ := Nat.exists_eq_succ_of_ne_zero hd
    rw [hdepth] at halike ⊢
    obtain ⟨_, _, _, _, _, _, hcallee, hfn, harity, hret⟩ := halike
    obtain ⟨rfl, hspread, hadmits⟩ := hcall _ _ _ hcallee
    exact ⟨own, hown, _, _, _, hfn, harity ▸ hspread, harity ▸ hadmits, hret⟩
  have harriving := forall_packed (arrives_of_fitAll hargs) (fun _ ↦ arrives_pack) spread
  refine .ask (fun hd ↦ ?_) fun _ _ ↦ ?_
  · obtain ⟨own, hown, params, rest, ret, hfn, hspread, hadmits, -⟩ := hknown hd
    refine ⟨_, hf.sound.arity? hown hfn, hspread, ?_⟩
    rwa [List.length_map, ← hargs.length_eq]
  · have hsound := hf.sound
    cases hvalue : f.value with
    | literal | group => exact .stop
    | builtin b =>
      refine .ask trivial fun v hv ↦ .done ⟨Followed.traces_zero v, Value.sound_of_honest ?_ hv⟩
      exact forall_packed (sound_of_fitAll hargs) (fun _ ↦ .group) spread
    | closure own seen h body =>
      rw [hvalue] at hsound
      dsimp only
      split
      · next hlength =>
        obtain ⟨hbody, params, rest, hown⟩ := hsound.enter hT hlength harriving
        refine (hrun hbody).bind fun r hr ↦ .done ⟨hr.traces.handed hT ?_, hr.sound⟩
        -- what a function answers is alike to what the call says as far as it was followed
        by_cases hd : f.depth = 0
        · rw [hd]
          trivial
        · obtain ⟨own', hown', _, _, _, hfn, -, -, halike⟩ := hknown hd
          rw [hvalue] at hown'
          cases hown'
          rw [hown, T.resolve_fn] at hfn
          obtain ⟨-, -, rfl⟩ := Ty.fn.inj hfn
          exact halike.symm
      · exact .stop

end

/-! ## Programs -/

variable {T : TypeTable}

/-- Evaluating a checked expression packs the arguments of all calls rightly, and what is known of
its value is right. -/
theorem Checked.keeps (hT : T.ChainsEnd) (fuel : Nat) {ρ : Env} {e : Expr}
    (h : Checked T ρ (.expr e)) : (Expr.run T fuel ρ e).Keeps (·.Fits T e.ty) := by
  -- a call goes on with a body that is no part of the expression, so the induction is on the steps
  induction fuel generalizing ρ e with
  | zero => exact .stop
  | succ fuel ih =>
    have hwhole := h
    obtain ⟨hfits, hscoped, htyped, hT₀, hlater⟩ := h
    cases e with
    | literal v n => exact .done ⟨Followed.traces_zero _, .literal⟩
    | symbol name n =>
      cases hscoped with
      | symbol hname _ =>
        obtain ⟨o, ho, htraces⟩ := hfits.names name n.ty (congrArg (Option.map Prod.fst) hname)
        have hsound := hfits.values _ (Scopes.mem_of_lookup ho)
        simp only [Expr.run, ho]
        cases o with
        | bound r => exact .done ⟨htraces, hsound⟩
        | passed sure a r =>
          obtain ⟨htraces, hsure⟩ := htraces
          exact .done ⟨htraces.handed hT hsure, hsound⟩
    | group shape elems n =>
      cases hscoped with
      | group helems _ =>
        cases htyped with
        | group helems' _ =>
          refine (runAll_keeps hT ih (.intro hfits helems helems' hT₀ hlater)).bind fun rs hrs ↦ ?_
          exact .done ⟨Followed.traces_zero _, .group (sound_of_fitAll hrs)⟩
    | cond test yes no n =>
      cases hscoped with
      | cond hparts _ =>
        cases htyped with
        | cond hparts' hagree hn =>
          obtain ⟨htest, hrest⟩ := (Checked.intro hfits hparts hparts' hT₀ hlater).of_cons hT
          obtain ⟨hyes, hrest⟩ := hrest.of_cons hT
          obtain ⟨hno, -⟩ := hrest.of_cons hT
          rw [show (Expr.cond test yes no n).ty = yes.ty from hn]
          refine (ih htest).bind fun r _ ↦ ?_
          split
          · exact ih hyes
          · refine (ih hno).bind fun r hr ↦ .done ⟨hr.traces.handed hT ?_, hr.sound⟩
            exact TypeTable.alike_of_satisfies T hagree
    | letIn bs body n =>
      cases hscoped with
      | letIn hbindings hbody _ =>
        cases htyped with
        | letIn hbindings' hbody' hn =>
          obtain ⟨hT₁, -⟩ := hbindings'.sound hT₀
          obtain ⟨-, hlater', -⟩ := hbody'.sound hT₁
          rw [show (Expr.letIn bs body n).ty = body.ty from hn]
          refine (runBindings_keeps ih hfits.enter hbindings hbindings' hT₀
            (hlater'.trans hlater)).bind fun ρ' hρ' ↦ ?_
          exact ih (.intro hρ' hbody hbody' hT₁ hlater)
    | fn h body n =>
      cases hscoped with
      | fn hparams hbody _ _ | defn hparams hbody _ _ _ _ =>
        exact .done (hfits.closure hT hparams hbody htyped hT₀ hlater)
    | seq steps n =>
      cases hscoped with
      | seq hsteps _ =>
        cases htyped with
        | seq hsteps' hlast hn =>
          rw [show (Expr.seq steps n).ty = _ from hn]
          refine (runAll_keeps hT ih (.intro hfits hsteps hsteps' hT₀ hlater)).bind fun rs hrs ↦ ?_
          exact .done (fits_last hrs hlast _)
    | call callee args spread n =>
      obtain ⟨hparts, hcall⟩ := hwhole.of_call
      obtain ⟨hcallee, hargs⟩ := hparts.of_cons hT
      refine (runAll_keeps hT ih hargs).bind fun rs hrs ↦ (ih hcallee).bind fun f hf ↦ ?_
      exact runCall_keeps hT ih hf hrs hcall

theorem Env.fits_start (hT : T.ChainsEnd) : Env.Fits T Checker.start.scopes (.start T) := by
  have hstep : ∀ (bs : List Builtin) {s : Scopes Ty} {ρ : Env}, s.isGlobal = true → Env.Fits T s ρ →
      Env.Fits T (bs.foldl (fun s b ↦ s.defineGlobal b.name b.ty) s)
        (bs.foldl (fun ρ b ↦ (b.name, .bound ⟨.builtin b, T.depth b.ty⟩) :: ρ) ρ) := by
    intro bs
    induction bs with
    | nil => exact fun _ hfits ↦ hfits
    | cons b bs ih =>
      intro s ρ hs hfits
      have hb : Env.Binds T (b.name, b.ty) (b.name, .bound ⟨.builtin b, T.depth b.ty⟩) :=
        ⟨rfl, fun _ ↦ ⟨b.ty, rfl, hT.alike_self b.ty⟩, .builtin⟩
      exact ih hs (hfits.defineGlobal hs hb)
  refine hstep builtins rfl ⟨Scopes.wellFormed_empty, fun x t hx ↦ ?_, List.forall_mem_nil _⟩
  cases hx

/-- **Surplus arguments arrive in one list.** At every call of an accepted program that is reached
with a function that was followed on its way there, whatever the builtin functions answer, there are
as many arguments as that function takes. If it has a rest parameter behind `n` others, the call
carries `n`, and what arrives are the first `n` arguments and the list of the others; if it has
none, the arguments arrive as they are. -/
theorem rest_packing {forms : List Form} {es : List Expr} {T : TypeTable}
    (h : checkProgram forms = .ok (es, T)) {fuel : Nat} {site : CallSite}
    (hsite : (runProgram T fuel es).Asks Request.Honest (.call site))
    (hfollowed : site.function.depth ≠ 0) :
    ∃ arity, site.function.value.arity? = some arity ∧ arity.admits site.args.length = true ∧
      site.spread = arity.spread ∧
      (∀ n, arity = .atLeast n →
        site.arriving = site.args.take n ++ [.group .list (site.args.drop n)]) ∧
      (∀ n, arity = .exactly n → site.arriving = site.args) := by
  rw [checkProgram] at h
  split at h
  · next es c hc =>
    cases h
    obtain ⟨hsound, ks, htyped⟩ := checkAll_types forms Checker.sound_start hc
    obtain ⟨ds, hscoped, -⟩ := checkAll_scoped hc
    have hchecked : Checked c.types (.start c.types) (.exprs es) :=
      .intro (Env.fits_start hsound.types.ends) hscoped htyped .empty (.refl _)
    have hkeeps := runAll_keeps hsound.types.ends (Checked.keeps hsound.types.ends fuel) hchecked
    obtain ⟨arity, harity, hspread, hadmits⟩ := hkeeps.asks hsite hfollowed
    refine ⟨arity, harity, hadmits, hspread, ?_, ?_⟩
    · rintro n rfl
      rw [CallSite.arriving, hspread]
      rfl
    · rintro n rfl
      rw [CallSite.arriving, hspread]
      rfl
  · cases h

/-- The form `(let [pack (fn [] list)] ((pack) 1 2))`. -/
def packLater : Form :=
  let symbol (name : String) : Form := .atom (.symbol name) ⟨.symbol, name, 1⟩
  let number (n : Int64) : Form := .atom (.number n) ⟨.number, toString n, 1⟩
  let list (fs : List Form) : Form := .group .list fs ⟨.opening .list, "(", 1⟩
  let vector (fs : List Form) : Form := .group .vector fs ⟨.opening .vector, "[", 1⟩
  list [symbol "let", vector [symbol "pack", list [symbol "fn", vector [], symbol "list"]],
    list [list [symbol "pack"], number 1, number 2]]

set_option maxRecDepth 8000 in
/-- What a function answers is followed, and gets both arguments in one list. -/
theorem packLater_packs : ∃ es T site, checkProgram [packLater] = .ok (es, T) ∧
    (runProgram T 9 es).Asks Request.Honest (.call site) ∧
    site.function.value = .builtin ⟨"list", "list", [], some .any, .list⟩ ∧ site.spread = some 0 ∧
    site.arriving = [.group .list [.literal (.number 1), .literal (.number 2)]] := by
  obtain ⟨es, T, site, h, hsite, hfunction, hfollowed, hargs⟩ : ∃ es T site,
      checkProgram [packLater] = .ok (es, T) ∧
      (runProgram T 9 es).Asks Request.Honest (.call site) ∧
      site.function.value = .builtin ⟨"list", "list", [], some .any, .list⟩ ∧
      site.function.depth ≠ 0 ∧ site.args = [.literal (.number 1), .literal (.number 2)] :=
    ⟨_, _, _, rfl, .later (r := ()) trivial .here, rfl, by decide, rfl⟩
  obtain ⟨arity, harity, -, hspread, hrest, -⟩ := rest_packing h hsite hfollowed
  rw [hfunction] at harity
  obtain rfl : Arity.atLeast 0 = arity := Option.some.inj harity
  refine ⟨es, T, site, h, hsite, hfunction, hspread, ?_⟩
  rw [hrest 0 rfl, hargs]
  rfl

/-- The form `(((fn [x] x) list) 1)`. -/
def packByIdentity : Form :=
  let symbol (name : String) : Form := .atom (.symbol name) ⟨.symbol, name, 1⟩
  let list (fs : List Form) : Form := .group .list fs ⟨.opening .list, "(", 1⟩
  let vector (fs : List Form) : Form := .group .vector fs ⟨.opening .vector, "[", 1⟩
  let identity := list [symbol "fn", vector [symbol "x"], symbol "x"]
  list [list [identity, symbol "list"], .atom (.number 1) ⟨.number, "1", 1⟩]

set_option maxRecDepth 8000 in
/-- The type of what an identity function answers is frozen, so the argument is not packed. -/
theorem identity_not_packed : ∃ es T site, checkProgram [packByIdentity] = .ok (es, T) ∧
    (runProgram T 9 es).Asks Request.Honest (.call site) ∧
    site.function.value.arity? = some (.atLeast 0) ∧ site.spread = none ∧
    site.arriving = [.literal (.number 1)] :=
  ⟨_, _, _, rfl, .later (r := ()) trivial .here, rfl, rfl, rfl⟩

end TaggedLisp
