import Mathlib.Data.List.Nodup
import Mathlib.Tactic.Tauto
import TaggedLisp.Check
import TaggedLisp.Proofs.Pass
import TaggedLisp.Proofs.Scopes

/-!
# Names in checked expressions

`Scoped` says how the names in an expression are resolved: which binding each symbol stands for,
which names every construct brings into scope, and what the expression captures. It walks the
expression through the same scopes as the checker walked the form, and `checkAll_yields` says that
everything the checker makes is scoped in this sense. What is proved about the names in checked
programs is proved by induction over `Scoped`, which knows nothing of placeholders and faults.

Checking leaves the scopes as they were, except for global functions. The definitions that were made
are an index of `Scoped`, so that what comes behind an expression can be checked where they are
known.
-/

namespace TaggedLisp

/-! ## Scoped expressions -/

/-- An expression, several of them in a row, or the bindings of a `let`. -/
inductive Phrase where
  | expr (e : Expr)
  | exprs (es : List Expr)
  | bindings (bs : List (String × Expr))

/-- The names that a function with the head `h` binds, in order, with their types. -/
def FnHead.bindings (h : FnHead) (params : List Ty) (ret : Ty) : List (String × Ty) :=
  h.params.zip params ++
    (h.rest.toList.map (·, .list) ++ h.name.toList.map (·, Check.fnTy h params ret))

/-- The names that a `let` binds, in order, with their types. -/
def bindingTypes (bs : List (String × Expr)) : List (String × Ty) := bs.map fun b ↦ (b.1, b.2.ty)

/-- A phrase whose names are resolved in the scopes `s`, and the global functions that it defines.
The notes of its symbols are those of the bindings that they stand for, and all captures are as the
notes say. -/
inductive Scoped : (s : Scopes Ty) → Phrase → (defs : List (String × Ty)) → Prop where
  | literal {s v n} (hn : n.captures = []) : Scoped s (.expr (.literal v n)) []
  | symbol {s name n scope} (hname : s.lookupWithScope name = some (n.ty, scope))
      (hn : n.captures = if scope = ScopeId.global then [] else [name]) :
      Scoped s (.expr (.symbol name n)) []
  | group {s shape elems n ds} (helems : Scoped s (.exprs elems) ds)
      (hn : n.captures = Expr.capturesOf elems) : Scoped s (.expr (.group shape elems n)) ds
  | cond {s test yes no n ds} (hparts : Scoped s (.exprs [test, yes, no]) ds)
      (hn : n.captures = Expr.capturesOf [test, yes, no]) :
      Scoped s (.expr (.cond test yes no n)) ds
  | letIn {s bs body n} (hbindings : Scoped s.enter (.bindings bs) [])
      (hbody : Scoped (s.enter.defineAll (bindingTypes bs)) (.expr body) [])
      (hn : n.captures = Check.letCaptures bs body) : Scoped s (.expr (.letIn bs body n)) []
  | fn {s h body n params ret} (hparams : params.length = h.params.length)
      (hbody : Scoped (s.enter.defineAll (h.bindings params ret)) (.expr body) [])
      (hn : n.captures = body.captures.without (h.allParams ++ h.name.toList))
      (hglobal : h.isGlobal = false) : Scoped s (.expr (.fn h body n)) []
  | defn {s h body n params ret name} (hparams : params.length = h.params.length)
      (hbody : Scoped (s.enter.defineAll (h.bindings params ret)) (.expr body) [])
      (hn : n.captures = body.captures.without (h.allParams ++ h.name.toList))
      (hglobal : h.isGlobal = true) (hs : s.isGlobal = true) (hname : h.name = some name) :
      Scoped s (.expr (.fn h body n)) [(name, n.ty)]
  | seq {s steps n ds} (hsteps : Scoped s (.exprs steps) ds)
      (hn : n.captures = Expr.capturesOf steps) : Scoped s (.expr (.seq steps n)) ds
  | call {s callee args spread n ds} (hparts : Scoped s (.exprs (callee :: args)) ds)
      (hn : n.captures = Expr.capturesOf (callee :: args)) :
      Scoped s (.expr (.call callee args spread n)) ds
  | nil {s} : Scoped s (.exprs []) []
  | cons {s e es ds ds'} (he : Scoped s (.expr e) ds)
      (hes : Scoped (s.defineGlobals id ds) (.exprs es) ds') :
      Scoped s (.exprs (e :: es)) (ds ++ ds')
  | bound {s} : Scoped s (.bindings []) []
  | bind {s name value bs} (hs : s.current ≠ ScopeId.global) (hvalue : Scoped s (.expr value) [])
      (hrest : Scoped (s.define name value.ty) (.bindings bs) []) :
      Scoped s (.bindings ((name, value) :: bs)) []

/-- Global functions are defined where no construct is open. -/
theorem Scoped.defs_nil {s : Scopes Ty} {p : Phrase} {ds : List (String × Ty)} (h : Scoped s p ds)
    (hs : s.current ≠ ScopeId.global) : ds = [] := by
  induction h with
  | literal | symbol | letIn | fn | nil | bound | bind => rfl
  | group _ _ ih | cond _ _ ih | seq _ _ ih | call _ _ ih => exact ih hs
  | defn _ _ _ _ hglobal => exact absurd (beq_iff_eq.mp hglobal) hs
  | cons _ _ ih ih' =>
    obtain rfl := ih hs
    exact ih' hs

/-! ## Captures -/

/-- Whether a `let` with these bindings takes `x` from around it for one of the values. -/
def BindingsNeed (x : String) : List (String × Expr) → Prop
  | [] => False
  | (name, value) :: bs => x ∈ value.captures ∨ x ≠ name ∧ BindingsNeed x bs

/-- Whether a phrase takes `x` from around it. -/
def Phrase.Needs : Phrase → (x : String) → Prop
  | expr e, x => x ∈ e.captures
  | exprs es, x => ∃ e ∈ es, x ∈ e.captures
  | bindings bs, x => BindingsNeed x bs

namespace Phrase

variable {name x : String} {e value : Expr} {es : List Expr} {bs : List (String × Expr)}

theorem needs_expr : (expr e).Needs x ↔ x ∈ e.captures := Iff.rfl

theorem needs_nil : ¬ (exprs []).Needs x := by
  simp [Needs]

theorem needs_cons : (exprs (e :: es)).Needs x ↔ (expr e).Needs x ∨ (exprs es).Needs x := by
  simp [Needs]

theorem needs_bound : ¬ (bindings []).Needs x := id

theorem needs_bind : (bindings ((name, value) :: bs)).Needs x ↔
    (expr value).Needs x ∨ x ≠ name ∧ (bindings bs).Needs x := Iff.rfl

end Phrase

theorem Expr.mem_capturesOf {es : List Expr} {x : String} :
    x ∈ Expr.capturesOf es ↔ (Phrase.exprs es).Needs x := by
  have hfold : ∀ acc : Captures, x ∈ es.foldl (fun acc e ↦ acc.union e.captures) acc ↔
      x ∈ acc ∨ (Phrase.exprs es).Needs x := by
    induction es with
    | nil => simp [Phrase.Needs]
    | cons e es ih =>
      intro acc
      rw [List.foldl_cons, ih, Captures.mem_union, or_assoc]
      simp [Phrase.Needs]
  simpa [Expr.capturesOf] using hfold []

namespace Check

theorem mem_letCaptures {bs : List (String × Expr)} {body : Expr} {x : String} :
    x ∈ letCaptures bs body ↔
      (Phrase.bindings bs).Needs x ∨ x ∈ body.captures ∧ x ∉ bs.map Prod.fst := by
  -- behind some bindings: what they capture, and the names that they bind
  have hfold : ∀ (acc : Captures) (bound : List String),
      let r := bs.foldl (fun (acc : Captures × List String) (b : String × Expr) ↦
        (Captures.union acc.1 (b.2.captures.without acc.2), acc.2 ++ [b.1])) (acc, bound)
      (x ∈ r.1 ↔ x ∈ acc ∨ x ∉ bound ∧ (Phrase.bindings bs).Needs x) ∧
        r.2 = bound ++ bs.map Prod.fst := by
    induction bs with
    | nil => simp [Phrase.Needs, BindingsNeed]
    | cons b bs ih =>
      intro acc bound
      obtain ⟨name, value⟩ := b
      obtain ⟨hmem, hbound⟩ := ih (acc.union (value.captures.without bound)) (bound ++ [name])
      refine ⟨hmem.trans ?_, by simp [hbound]⟩
      simp only [Captures.mem_union, Captures.mem_without, List.mem_append, List.mem_singleton,
        Phrase.Needs, BindingsNeed]
      tauto
  obtain ⟨hmem, hbound⟩ := hfold [] []
  rw [letCaptures]
  simp only [Captures.mem_union, Captures.mem_without, hmem, hbound]
  simp

end Check

/-- The names of a function are its parameters and its own name. -/
theorem FnHead.map_fst_bindings {h : FnHead} {params : List Ty} (ret : Ty)
    (hparams : params.length = h.params.length) :
    (h.bindings params ret).map Prod.fst = h.allParams ++ h.name.toList := by
  simp only [FnHead.bindings, FnHead.allParams, List.map_append,
    List.map_fst_zip (Nat.le_of_eq hparams.symm), List.map_map, List.append_assoc]
  simp [Function.comp_def]

/-- What is taken from around a scoped phrase is bound there, and not globally. -/
theorem Scoped.local {s : Scopes Ty} {p : Phrase} {ds : List (String × Ty)} (h : Scoped s p ds)
    (hs : s.WellFormed) {x : String} (hx : p.Needs x) : ∃ v, s.locals.lookup x = some v := by
  induction h with
  | literal hn =>
    rw [Phrase.needs_expr, Expr.captures, Expr.note, hn] at hx
    cases hx
  | @symbol s name n scope hname hn =>
    rw [Phrase.needs_expr, Expr.captures, Expr.note, hn] at hx
    split at hx
    · cases hx
    · next hscope =>
      obtain rfl := List.mem_singleton.mp hx
      rcases hs.lookupWithScope_eq x with ⟨v, _, hv, -⟩ | ⟨-, hglobal⟩
      · exact ⟨v, hv⟩
      · rw [hglobal] at hname
        obtain ⟨_, -, hpair⟩ := Option.map_eq_some_iff.mp hname
        exact absurd (congrArg Prod.snd hpair).symm hscope
  | group _ hn ih | cond _ hn ih | seq _ hn ih | call _ hn ih =>
    rw [Phrase.needs_expr, Expr.captures, Expr.note, hn] at hx
    exact ih hs (Expr.mem_capturesOf.mp hx)
  | @letIn s bs body n _ _ hn ih ih' =>
    rw [Phrase.needs_expr, Expr.captures, Expr.note, hn] at hx
    rcases Check.mem_letCaptures.mp hx with hx | ⟨hx, hbound⟩
    · exact hs.locals_enter ▸ ih hs.enter hx
    · obtain ⟨v, hv⟩ := ih' (hs.enter.defineAll _) (Phrase.needs_expr.mpr hx)
      rw [hs.enter.lookup_locals_defineAll _ hs.current_enter
        (by simpa [bindingTypes] using hbound),
        hs.locals_enter] at hv
      exact ⟨v, hv⟩
  | fn hparams _ hn _ ih | defn hparams _ hn _ _ _ ih =>
    rw [Phrase.needs_expr, Expr.captures, Expr.note, hn] at hx
    obtain ⟨hx, hbound⟩ := Captures.mem_without.mp hx
    obtain ⟨v, hv⟩ := ih (hs.enter.defineAll _) (Phrase.needs_expr.mpr hx)
    rw [hs.enter.lookup_locals_defineAll _ hs.current_enter
      (FnHead.map_fst_bindings _ hparams ▸ hbound), hs.locals_enter] at hv
    exact ⟨v, hv⟩
  | nil => exact absurd hx Phrase.needs_nil
  | @cons s e es ds ds' _ _ ih ih' =>
    rcases Phrase.needs_cons.mp hx with hx | hx
    · exact ih hs hx
    · exact Scopes.locals_defineGlobals id ds s ▸ ih' (hs.defineGlobals _ _) hx
  | bound => exact absurd hx Phrase.needs_bound
  | bind hopen _ _ ih ih' =>
    rcases Phrase.needs_bind.mp hx with hx | ⟨hne, hx⟩
    · exact ih hs hx
    · obtain ⟨v, hv⟩ := ih' (hs.define _ _) hx
      rw [hs.locals_define hopen, List.lookup_cons, beq_false_of_ne hne] at hv
      exact ⟨v, hv⟩

theorem Expr.nodup_capturesOf {es : List Expr} (h : ∀ e ∈ es, e.captures.Nodup) :
    (Expr.capturesOf es).Nodup := by
  have hfold : ∀ acc : Captures, acc.Nodup →
      (es.foldl (fun acc e ↦ acc.union e.captures) acc).Nodup := by
    induction es with
    | nil => exact fun _ ↦ id
    | cons e es ih =>
      obtain ⟨he, hes⟩ := List.forall_mem_cons.mp h
      exact fun acc hacc ↦ ih hes _ (Captures.nodup_union hacc he)
  exact hfold [] List.nodup_nil

theorem Check.nodup_letCaptures {bs : List (String × Expr)} {body : Expr}
    (hbs : ∀ b ∈ bs, b.2.captures.Nodup) (hbody : body.captures.Nodup) :
    (letCaptures bs body).Nodup := by
  have hfold : ∀ acc : Captures × List String, acc.1.Nodup →
      (bs.foldl (fun (acc : Captures × List String) (b : String × Expr) ↦
        (Captures.union acc.1 (b.2.captures.without acc.2), acc.2 ++ [b.1])) acc).1.Nodup := by
    induction bs with
    | nil => exact fun _ ↦ id
    | cons b bs ih =>
      obtain ⟨hb, hbs⟩ := List.forall_mem_cons.mp hbs
      exact fun acc hacc ↦ ih hbs _ (Captures.nodup_union hacc (Captures.nodup_without hb))
  exact Captures.nodup_union (hfold ([], []) List.nodup_nil) (Captures.nodup_without hbody)

/-- The expressions of a phrase. -/
def Phrase.members : Phrase → List Expr
  | expr e => [e]
  | exprs es => es
  | bindings bs => bs.map Prod.snd

private theorem nodup_singleton {e : Expr} {cs : Captures} (he : e.captures = cs) (h : cs.Nodup) :
    ∀ e' ∈ (Phrase.expr e).members, e'.captures.Nodup :=
  List.forall_mem_singleton.mpr (he ▸ h)

/-- No name is captured twice. -/
theorem Scoped.nodup_captures {s : Scopes Ty} {p : Phrase} {ds : List (String × Ty)}
    (h : Scoped s p ds) : ∀ e ∈ p.members, e.captures.Nodup := by
  induction h with
  | literal hn => exact nodup_singleton hn List.nodup_nil
  | symbol _ hn =>
    refine nodup_singleton hn ?_
    split
    · exact List.nodup_nil
    · exact List.nodup_singleton _
  | group _ hn ih | cond _ hn ih | seq _ hn ih | call _ hn ih =>
    exact nodup_singleton hn (Expr.nodup_capturesOf ih)
  | letIn _ _ hn ih ih' =>
    refine nodup_singleton hn (Check.nodup_letCaptures (fun b hb ↦ ?_) ?_)
    · exact ih b.2 (List.mem_map_of_mem hb)
    · exact ih' _ (List.mem_singleton_self _)
  | fn _ _ hn _ ih | defn _ _ hn _ _ _ ih =>
    exact nodup_singleton hn (Captures.nodup_without (ih _ (List.mem_singleton_self _)))
  | nil | bound => exact List.forall_mem_nil _
  | cons _ _ ih ih' =>
    exact List.forall_mem_cons.mpr ⟨ih _ (List.mem_singleton_self _), ih'⟩
  | bind _ _ _ ih ih' =>
    exact List.forall_mem_cons.mpr ⟨ih _ (List.mem_singleton_self _), ih'⟩

/-! ## Steps of checking that make no names visible -/

namespace Check

variable {α β : Type}

/-- Whether a step leaves the scopes as they are, also when it stops with a fault. -/
def Quiet (p : Check α) : Prop := ∀ c, (p.outcome c).2.scopes = c.scopes

namespace Quiet

variable {p : Check α}

theorem pure (a : α) : Quiet (Pure.pure a : Check α) := fun _ ↦ rfl

theorem fail (cause : Cause) (line : Nat) : Quiet (Pass.fail cause line : Check α) := fun _ ↦ rfl

theorem bind {f : α → Check β} (hp : Quiet p) (hf : ∀ a, Quiet (f a)) : Quiet (p >>= f) := by
  intro c
  have := hp c
  rw [Pass.outcome_bind]
  split
  · next a c' h => rw [hf a c', ← this, h]
  · next h => rw [← this, h]

theorem ite {q : Check α} {P : Prop} [Decidable P] (hp : Quiet p) (hq : Quiet q) :
    Quiet (if P then p else q) := by
  split <;> assumption

/-- A step that looks at the state first. -/
theorem look {f : Checker → Check α} (hf : ∀ c, ((f c).outcome c).2.scopes = c.scopes) :
    Quiet (get >>= f) := fun c ↦ by
  rw [Pass.outcome_bind, Pass.outcome_get]
  exact hf c

theorem of_ok (hp : Quiet p) {c c' : Checker} {a : α} (h : p.outcome c = (.ok a, c')) :
    c'.scopes = c.scopes := by
  rw [← hp c, h]

end Quiet

theorem quiet_fresh (name : String) : Quiet (fresh name) := fun _ ↦ rfl

theorem quiet_satisfies (actual expected : Ty) : Quiet (satisfies actual expected) := fun _ ↦ rfl

theorem quiet_display (t : Ty) : Quiet (display t) := fun _ ↦ rfl

theorem quiet_mismatch (meeting : Meeting) (expected actual : Ty) (line : Nat) :
    Quiet (mismatch meeting expected actual line : Check α) :=
  (quiet_display _).bind fun _ ↦ (quiet_display _).bind fun _ ↦ .fail _ _

theorem quiet_narrow (actual expected : Ty) (meeting : Meeting) (line : Nat) :
    Quiet (narrow actual expected meeting line) := by
  refine .look fun c ↦ ?_
  split
  · rfl
  · exact quiet_mismatch _ _ _ _ c
  · exact ((quiet_display _).bind fun _ ↦ (quiet_display _).bind fun _ ↦ .fail _ _) c

theorem quiet_constrain (callee : String) (line position : Nat) (arg : Expr) (expected : Ty) :
    Quiet (constrain callee line position arg expected) := by
  refine (quiet_satisfies _ _).bind fun b ↦ ?_
  cases b with
  | false => exact quiet_mismatch _ _ _ _
  | true =>
    refine .look fun c ↦ ?_
    dsimp only
    split
    · exact (quiet_narrow _ _ _ _).ite (.pure _) c
    · rfl

theorem quiet_constrainAll (callee : String) (line : Nat) (rest : Option Ty) (position : Nat)
    (args : List Expr) (params : List Ty) :
    Quiet (constrainAll callee line rest position args params) := by
  induction args generalizing position params with
  | nil => exact .pure _
  | cons arg args ih =>
    cases params with
    | nil => exact (quiet_constrain _ _ _ _ _).bind fun _ ↦ ih _ _
    | cons p params => exact (quiet_constrain _ _ _ _ _).bind fun _ ↦ ih _ _

theorem quiet_signature (name : String) (line : Nat) (callee : Expr) (args : List Expr) :
    Quiet (signature name line callee args) := by
  refine .look fun c ↦ ?_
  have hother (t : Ty) : Quiet (do
      Pass.fail (.notAFunction name (← display t)) line : Check (Ty × Option Nat)) :=
    (quiet_display t).bind fun _ ↦ .fail _ _
  dsimp only
  generalize c.types.resolve callee.ty = t
  cases t with
  | fn params rest ret =>
    have hfits := (quiet_constrainAll name line rest 0 args params).bind
      fun _ ↦ .pure (ret, rest.map fun _ ↦ params.length)
    cases rest <;> exact hfits.ite (.fail _ _) c
  | var v =>
    have hopen := (quiet_fresh (name ++ "-ret")).bind fun ret ↦
      (quiet_narrow callee.ty (.fn (args.map Expr.ty) none ret) (.operator name) line).bind
        fun _ ↦ .pure (ret, (none : Option Nat))
    exact hopen.ite (.pure _) c
  | base b =>
    cases b with
    | any => rfl
    | _ => exact hother _ c

/-! ## Parts of constructs -/

variable {c c' : Checker} {e : Expr}

/-- Wherever a step succeeds, it makes a phrase of the scopes there and leaves nothing behind but
the global functions of that phrase. -/
def Yields (p : Check α) (phrase : α → Phrase) : Prop :=
  ∀ ⦃c c' : Checker⦄ ⦃a : α⦄, c.scopes.WellFormed → p.outcome c = (.ok a, c') →
    ∃ ds, Scoped c.scopes (phrase a) ds ∧ c'.scopes = c.scopes.defineGlobals id ds

theorem yields_literal {v : Literal} {ty : Ty} {t : Token} :
    Yields (pure (literal v ty t)) .expr := by
  intro c c' a _ h
  cases h
  exact ⟨[], .literal rfl, rfl⟩

theorem yields_fail {cause : Cause} {line : Nat} {phrase : α → Phrase} :
    Yields (Pass.fail cause line) phrase := by
  intro c c' a _ h
  cases h

theorem yields_symbol (name : String) (t : Token) : Yields (symbol name t) .expr := by
  intro c c' a _ h
  rw [symbol, Pass.outcome_bind, Pass.outcome_get] at h
  cases hname : c.scopes.lookupWithScope name with
  | none =>
    simp only [hname] at h
    cases h
  | some p =>
    simp only [hname] at h
    cases h
    exact ⟨[], .symbol hname rfl, rfl⟩

theorem yields_atom (a : Atom) (t : Token) : Yields (atom a t) .expr := by
  cases a with
  | nil | boolean | string => exact yields_literal
  | number n =>
    rw [atom]
    split
    · exact yields_literal
    · exact yields_fail
  | symbol name => exact yields_symbol name t

/-- A step that makes the expression that is returned, of the parts of which the expressions are
made. -/
theorem Yields.step {p : Check α} {f : α → Check Expr} {phrase : α → Phrase} (hp : Yields p phrase)
    (hf : ∀ a, Quiet (f a))
    (hscoped : ∀ {a c c' e s ds}, (f a).outcome c = (.ok e, c') → Scoped s (phrase a) ds →
      Scoped s (.expr e) ds) : Yields (p >>= f) .expr := by
  intro c c' e hc h
  obtain ⟨a, c₁, ha, h⟩ := Pass.outcome_bind_ok.mp h
  obtain ⟨ds, hds, hc₁⟩ := hp hc ha
  exact ⟨ds, hscoped h hds, ((hf a).of_ok h).trans hc₁⟩

theorem yields_nil : Yields (pure []) .exprs := by
  intro c c' a _ h
  cases h
  exact ⟨[], .nil, rfl⟩

theorem yields_cons {p : Check Expr} {q : Check (List Expr)} (hp : Yields p .expr)
    (hq : Yields q .exprs) : Yields (do return (← p) :: (← q)) .exprs := by
  intro c c' es hc h
  obtain ⟨e, c₁, he, h⟩ := Pass.outcome_bind_ok.mp h
  obtain ⟨es', c₂, hes, h⟩ := Pass.outcome_bind_ok.mp h
  cases h
  obtain ⟨ds, hds, hc₁⟩ := hp hc he
  obtain ⟨ds', hds', hc₂⟩ := hq (hc₁ ▸ hc.defineGlobals _ _) hes
  refine ⟨ds ++ ds', .cons hds (hc₁ ▸ hds'), ?_⟩
  rw [hc₂, hc₁, Scopes.defineGlobals_append]

theorem scoped_cond {op : Token} {test yes no : Expr} {s : Scopes Ty} {ds : List (String × Ty)}
    (h : (cond op test yes no).outcome c = (.ok e, c'))
    (hparts : Scoped s (.exprs [test, yes, no]) ds) : Scoped s (.expr e) ds := by
  obtain ⟨b, c₁, -, h⟩ := Pass.outcome_bind_ok.mp h
  cases b with
  | false =>
    obtain ⟨_, _, -, h⟩ := Pass.outcome_bind_ok.mp h
    obtain ⟨_, _, -, h⟩ := Pass.outcome_bind_ok.mp h
    cases h
  | true =>
    cases h
    exact .cond hparts rfl

theorem quiet_cond (op : Token) (test yes no : Expr) : Quiet (cond op test yes no) :=
  (quiet_satisfies _ _).bind fun _ ↦ (Quiet.pure _).ite (quiet_mismatch _ _ _ _)

theorem yields_cond {op : Token} {p q r : Check Expr} (hp : Yields p .expr) (hq : Yields q .expr)
    (hr : Yields r .expr) : Yields (do cond op (← p) (← q) (← r)) .expr := by
  intro c c' e hc h
  obtain ⟨test, c₁, htest, h⟩ := Pass.outcome_bind_ok.mp h
  obtain ⟨yes, c₂, hyes, h⟩ := Pass.outcome_bind_ok.mp h
  obtain ⟨no, c₃, hno, h⟩ := Pass.outcome_bind_ok.mp h
  obtain ⟨ds₁, hds₁, hc₁⟩ := hp hc htest
  have hwf₁ := hc₁ ▸ hc.defineGlobals id ds₁
  obtain ⟨ds₂, hds₂, hc₂⟩ := hq hwf₁ hyes
  obtain ⟨ds₃, hds₃, hc₃⟩ := hr (hc₂ ▸ hwf₁.defineGlobals id ds₂) hno
  have hparts : Scoped c.scopes (.exprs [test, yes, no]) (ds₁ ++ (ds₂ ++ (ds₃ ++ []))) :=
    .cons hds₁ (.cons (hc₁ ▸ hds₂) (.cons (hc₁ ▸ hc₂ ▸ hds₃) .nil))
  refine ⟨_, scoped_cond h hparts, ?_⟩
  rw [(quiet_cond _ _ _ _).of_ok h, hc₃, hc₂, hc₁]
  simp only [Scopes.defineGlobals_append, List.append_nil]

theorem scoped_seq (op : Token) {steps : List Expr} {s : Scopes Ty} {ds : List (String × Ty)}
    (hsteps : Scoped s (.exprs steps) ds) : Scoped s (.expr (seq op steps)) ds := by
  rw [seq]
  split
  · next hlast =>
    obtain rfl := List.getLast?_eq_none_iff.mp hlast
    cases hsteps
    exact .literal rfl
  · exact .seq hsteps rfl

theorem scoped_call {op : Form} {callee : Expr} {args : List Expr} {s : Scopes Ty}
    {ds : List (String × Ty)} (h : (call op callee args).outcome c = (.ok e, c'))
    (hparts : Scoped s (.exprs (callee :: args)) ds) : Scoped s (.expr e) ds := by
  obtain ⟨⟨ty, spread⟩, _, -, h⟩ := Pass.outcome_bind_ok.mp h
  cases h
  exact .call hparts rfl

theorem quiet_call (op : Form) (callee : Expr) (args : List Expr) : Quiet (call op callee args) :=
  (quiet_signature _ _ _ _).bind fun _ ↦ .pure _

theorem yields_call {op : Form} {p : Check Expr} {q : Check (List Expr)} (hp : Yields p .expr)
    (hq : Yields q .exprs) : Yields (do call op (← p) (← q)) .expr := by
  intro c c' e hc h
  obtain ⟨callee, c₁, hcallee, h⟩ := Pass.outcome_bind_ok.mp h
  obtain ⟨args, c₂, hargs, h⟩ := Pass.outcome_bind_ok.mp h
  have hparts : (do return (← p) :: (← q) : Check (List Expr)).outcome c
      = (.ok (callee :: args), c₂) :=
    Pass.outcome_bind_ok.mpr ⟨callee, c₁, hcallee, Pass.outcome_bind_ok.mpr ⟨args, c₂, hargs, rfl⟩⟩
  obtain ⟨ds, hds, hc₂⟩ := yields_cons hp hq hc hparts
  exact ⟨ds, scoped_call h hds, ((quiet_call _ _ _).of_ok h).trans hc₂⟩

/-! ## Functions -/

/-- The frame of a construct holds what was bound in it, and goes with it. -/
theorem outcome_nested {body : Check α} {a : α} : (nested body).outcome c = (.ok a, c') ↔
    ∃ c₁, body.outcome { c with scopes := c.scopes.enter } = (.ok a, c₁) ∧
      { c₁ with scopes := c₁.scopes.exit c.scopes.current } = c' := by
  rw [nested, Pass.outcome_between_ok]

theorem bindParams_scopes {names : List String} {tys : List Ty}
    (h : (bindParams names).outcome c = (.ok tys, c')) :
    tys.length = names.length ∧ c'.scopes = c.scopes.defineAll (names.zip tys) := by
  induction names generalizing c tys with
  | nil =>
    cases h
    exact ⟨rfl, rfl⟩
  | cons name names ih =>
    obtain ⟨ty, c₁, hty, h⟩ := Pass.outcome_bind_ok.mp h
    cases hty
    obtain ⟨_, c₂, hdefine, h⟩ := Pass.outcome_bind_ok.mp h
    cases hdefine
    obtain ⟨tys, c₃, htys, h⟩ := Pass.outcome_bind_ok.mp h
    cases h
    obtain ⟨hlength, hscopes⟩ := ih htys
    exact ⟨congrArg Nat.succ hlength, hscopes⟩

theorem bindHead_scopes {h : FnHead} {params : List Ty}
    (hhead : (bindHead h).outcome c = (.ok params, c')) : params.length = h.params.length ∧
      ∃ ret, c'.scopes = c.scopes.defineAll (h.bindings params ret) := by
  obtain ⟨name, names, rest, isGlobal⟩ := h
  obtain ⟨tys, c₁, htys, hhead⟩ := Pass.outcome_bind_ok.mp hhead
  obtain ⟨hlength, hscopes⟩ := bindParams_scopes htys
  refine ⟨by cases rest <;> cases name <;> cases hhead <;> exact hlength, .var c₁.types.size, ?_⟩
  rw [FnHead.bindings, Scopes.defineAll_append, Scopes.defineAll_append]
  cases rest <;> cases name <;> cases hhead <;> simp only [hscopes] <;> rfl

/-- A function brings its parameters and its own name into scope, and its name into the global
frame if it is a definition. -/
theorem yields_fn {op : Token} {h : FnHead} {body : Check Expr} (hbody : Yields body .expr)
    {c c' : Checker} {e : Expr} (hc : c.scopes.WellFormed)
    (hglobal : h.isGlobal = true → c.scopes.isGlobal = true ∧ h.name.isSome)
    (hfn : (fn op h body).outcome c = (.ok e, c')) :
    ∃ ds, Scoped c.scopes (.expr e) ds ∧ c'.scopes = c.scopes.defineGlobals id ds := by
  obtain ⟨⟨body', params⟩, c₁, hnested, hfn⟩ := Pass.outcome_bind_ok.mp hfn
  obtain ⟨c₂, hframe, rfl⟩ := outcome_nested.mp hnested
  obtain ⟨params', c₃, hhead, hframe⟩ := Pass.outcome_bind_ok.mp hframe
  obtain ⟨e', c₄, he, hframe⟩ := Pass.outcome_bind_ok.mp hframe
  obtain ⟨_, c₅, hfreeze, hframe⟩ := Pass.outcome_bind_ok.mp hframe
  cases hfreeze
  cases hframe
  obtain ⟨hlength, ret, hscopes⟩ := bindHead_scopes hhead
  have hopen : c₃.scopes.current ≠ ScopeId.global := by
    rw [hscopes, Scopes.current_defineAll]
    exact hc.current_enter
  obtain ⟨ds, hds, hc₄⟩ := hbody (hscopes ▸ hc.enter.defineAll _) he
  obtain rfl := hds.defs_nil hopen
  have hexit : c₄.scopes.exit c.scopes.current = c.scopes := by
    rw [hc₄, hscopes]
    exact (Scopes.exit_defineAll _ _ _).trans (Scopes.exit_enterFrom _ _)
  obtain ⟨name, names, rest, isGlobal⟩ := h
  cases isGlobal with
  | false =>
    cases hfn
    exact ⟨[], .fn hlength (hscopes ▸ hds) rfl rfl, hexit⟩
  | true =>
    obtain ⟨hs, hname⟩ := hglobal rfl
    obtain ⟨name, rfl⟩ := Option.isSome_iff_exists.mp hname
    cases hfn
    exact ⟨[(name, _)], .defn hlength (hscopes ▸ hds) rfl rfl hs rfl,
      congrArg (Scopes.defineGlobal · name _) hexit⟩

theorem quiet_paramNames (op : Token) (f : Form) : Quiet (paramNames op f) := by
  cases f with
  | atom a t => exact .fail _ _
  | group shape elems t =>
    cases shape with
    | list => exact .fail _ _
    | vector =>
      rw [paramNames]
      split
      · exact .pure _
      · exact .fail _ _

theorem quiet_splitRest (op : Token) (names : List String) : Quiet (splitRest op names) := by
  rw [splitRest]
  split
  · exact .pure _
  · exact (Quiet.fail _ _).ite (.pure _)
  · exact .fail _ _

/-- The head of a function that is called `own`. -/
def headOf (op : Token) (isGlobal : Bool) (params : Form) (own : Option String) : Check FnHead := do
  let names ← paramNames op params
  let (params, rest) ← splitRest op names
  return ⟨own, params, rest, isGlobal⟩

/-- A function to be bound in the global frame stands there and has a name if it is given one. -/
theorem fnHead_ok {op : Token} {isGlobal : Bool} {name : Option Form} {params : Form} {h : FnHead}
    (hhead : (fnHead op isGlobal name params).outcome c = (.ok h, c')) :
    c'.scopes = c.scopes ∧ h.isGlobal = isGlobal ∧ h.name.isSome = name.isSome ∧
      (isGlobal = true → c.scopes.isGlobal = true) := by
  rw [fnHead, Pass.outcome_bind, Pass.outcome_get] at hhead
  dsimp only at hhead
  split at hhead
  · cases hhead
  · next hallowed =>
    have hrest {own : Option String} (hown : own.isSome = name.isSome)
        (h' : (headOf op isGlobal params own).outcome c = (.ok h, c')) :
        c'.scopes = c.scopes ∧ h.isGlobal = isGlobal ∧ h.name.isSome = name.isSome := by
      obtain ⟨names, c₁, hnames, h'⟩ := Pass.outcome_bind_ok.mp h'
      obtain ⟨⟨params, rest⟩, c₂, hsplit, h'⟩ := Pass.outcome_bind_ok.mp h'
      cases h'
      refine ⟨?_, rfl, hown⟩
      rw [(quiet_splitRest op names).of_ok hsplit, (quiet_paramNames op _).of_ok hnames]
    have hglobal : isGlobal = true → c.scopes.isGlobal = true := by
      rintro rfl
      simpa using hallowed
    cases name with
    | none =>
      obtain ⟨hscopes, hisGlobal, hname⟩ := hrest rfl hhead
      exact ⟨hscopes, hisGlobal, hname, hglobal⟩
    | some form =>
      dsimp only at hhead
      split at hhead
      · obtain ⟨hscopes, hisGlobal, hname⟩ := hrest rfl hhead
        exact ⟨hscopes, hisGlobal, hname, hglobal⟩
      · cases hhead

end Check

/-! ## Checked forms -/

/-- A branch that is missing is as good as one that is there. -/
theorem checkCond_missing (op : Token) (test yes : Form) : checkCond op [test, yes] =
    (do Check.cond op (← test.check) (← yes.check) (← pure (.missing op.line))) := by
  rw [checkCond]
  rfl

mutual

theorem Form.checkDatum_yields : ∀ f : Form, Check.Yields f.checkDatum .expr
  | .atom a t => Check.yields_atom a t
  | .group shape elems t =>
    (checkData_yields elems).step (fun _ ↦ .pure _) fun h helems ↦ by
      cases h
      exact .group helems rfl

theorem checkData_yields : ∀ fs : List Form, Check.Yields (checkData fs) .exprs
  | [] => Check.yields_nil
  | f :: fs => Check.yields_cons f.checkDatum_yields (checkData_yields fs)

end

/-- Checking names and values brings the names into scope. -/
def Check.Binds (p : Check (List (String × Expr))) : Prop :=
  ∀ ⦃c c' : Checker⦄ ⦃bs : List (String × Expr)⦄, c.scopes.WellFormed →
    c.scopes.current ≠ ScopeId.global → p.outcome c = (.ok bs, c') →
      Scoped c.scopes (.bindings bs) [] ∧ c'.scopes = c.scopes.defineAll (bindingTypes bs)

mutual

theorem Form.check_yields : ∀ f : Form, Check.Yields f.check .expr
  | .atom a t => Check.yields_atom a t
  | .group .vector elems t => by
    rw [Form.check]
    exact (checkData_yields elems).step (fun _ ↦ .pure _) fun h helems ↦ by
      cases h
      exact .group helems rfl
  | .group .list [] t => by
    intro c c' e _ h
    cases h
    exact ⟨[], .group .nil rfl, rfl⟩
  | .group .list (.group .list elems t' :: args) t => by
    rw [Form.check]
    exact Check.yields_call (Form.check_yields (.group .list elems t')) (checkAll_yields args)
  | .group .list (.group .vector _ _ :: _) _
  | .group .list (.atom .nil _ :: _) _ | .group .list (.atom (.boolean _) _ :: _) _
  | .group .list (.atom (.number _) _ :: _) _ | .group .list (.atom (.string _) _ :: _) _ =>
    Check.yields_fail
  | .group .list (.atom (.symbol name) opToken :: args) t => by
    unfold Form.check
    dsimp only
    split
    · split
      · next datum => exact datum.checkDatum_yields
      · exact Check.yields_fail
    · exact checkCond_yields opToken args
    · exact checkFn_yields opToken false args
    · exact checkFn_yields opToken true args
    · exact checkLet_yields opToken args
    · exact (checkAll_yields args).step (fun _ ↦ .pure _) fun h hsteps ↦ by
        cases h
        exact Check.scoped_seq opToken hsteps
    · exact Check.yields_call (Check.yields_atom _ _) (checkAll_yields args)

theorem checkAll_yields : ∀ fs : List Form, Check.Yields (checkAll fs) .exprs
  | [] => Check.yields_nil
  | f :: fs => Check.yields_cons f.check_yields (checkAll_yields fs)

theorem checkCond_yields (op : Token) : ∀ fs : List Form, Check.Yields (checkCond op fs) .expr
  | [test, yes] => by
    rw [checkCond_missing]
    exact Check.yields_cond test.check_yields yes.check_yields Check.yields_literal
  | [test, yes, no] => Check.yields_cond test.check_yields yes.check_yields no.check_yields
  | [] | [_] | _ :: _ :: _ :: _ :: _ => Check.yields_fail

theorem checkFn_yields (op : Token) (isGlobal : Bool) :
    ∀ fs : List Form, Check.Yields (checkFn op isGlobal fs) .expr
  | [name, params, body] => by
    intro c c' e hc h
    obtain ⟨head, c₁, hhead, h⟩ := Pass.outcome_bind_ok.mp h
    obtain ⟨hscopes, hisGlobal, hname, hglobal⟩ := Check.fnHead_ok hhead
    rw [← hscopes] at hc hglobal ⊢
    exact Check.yields_fn body.check_yields hc (fun h ↦ ⟨hglobal (hisGlobal ▸ h), hname⟩) h
  | [params, body] => by
    cases isGlobal with
    | true => exact Check.yields_fail
    | false =>
      intro c c' e hc h
      obtain ⟨head, c₁, hhead, h⟩ := Pass.outcome_bind_ok.mp h
      obtain ⟨hscopes, hisGlobal, -, -⟩ := Check.fnHead_ok hhead
      rw [← hscopes] at hc ⊢
      refine Check.yields_fn body.check_yields hc (fun h ↦ ?_) h
      cases hisGlobal.symm.trans h
  | [] | [_] | _ :: _ :: _ :: _ :: _ => Check.yields_fail

theorem checkLet_yields (op : Token) : ∀ fs : List Form, Check.Yields (checkLet op fs) .expr
  | [.atom _ _, _] | [.group .list _ _, _] => Check.yields_fail
  | [.group .vector pairs _, body] => by
    rw [checkLet]
    split
    · intro c c' e hc h
      obtain ⟨c₃, hframe, rfl⟩ := Check.outcome_nested.mp h
      obtain ⟨bs, c₂, hbs, hframe⟩ := Pass.outcome_bind_ok.mp hframe
      obtain ⟨body', _, hbody, hframe⟩ := Pass.outcome_bind_ok.mp hframe
      cases hframe
      obtain ⟨hbindings, hc₂⟩ := checkPairs_binds op pairs hc.enter hc.current_enter hbs
      obtain ⟨ds, hds, hc₃⟩ := body.check_yields (hc₂ ▸ hc.enter.defineAll _) hbody
      rw [hc₂] at hds hc₃
      obtain rfl := hds.defs_nil (by rw [Scopes.current_defineAll]; exact hc.current_enter)
      refine ⟨[], .letIn hbindings hds rfl, ?_⟩
      change c₃.scopes.exit c.scopes.current = c.scopes
      rw [hc₃]
      exact (Scopes.exit_defineAll _ _ _).trans (Scopes.exit_enterFrom _ _)
    · exact Check.yields_fail
  | [] | [_] | _ :: _ :: _ :: _ => Check.yields_fail

theorem checkPairs_binds (op : Token) : ∀ fs : List Form, Check.Binds (checkPairs op fs)
  | [] => by
    intro c c' bs _ _ h
    cases h
    exact ⟨.bound, rfl⟩
  | [_] => fun _ _ _ _ _ h ↦ by cases h
  | name :: value :: rest => by
    intro c c' bs hc hopen h
    rw [checkPairs] at h
    split at h
    · cases h
    · next name _ =>
      obtain ⟨v, c₁, hv, h⟩ := Pass.outcome_bind_ok.mp h
      obtain ⟨_, c₂, hdefine, h⟩ := Pass.outcome_bind_ok.mp h
      cases hdefine
      obtain ⟨bs', c₃, hbs, h⟩ := Pass.outcome_bind_ok.mp h
      cases h
      obtain ⟨ds, hds, hc₁⟩ := value.check_yields hc hv
      obtain rfl := hds.defs_nil hopen
      have hc₁ : c₁.scopes = c.scopes := hc₁
      have hopen₁ : c₁.scopes.current ≠ ScopeId.global := hc₁ ▸ hopen
      obtain ⟨hrest, hc₃⟩ := checkPairs_binds op rest
        (c := { c₁ with scopes := c₁.scopes.define name v.ty }) ((hc₁ ▸ hc).define name v.ty) hopen₁
        hbs
      exact ⟨.bind hopen hds (hc₁ ▸ hrest), hc₃.trans (by simp only [hc₁]; rfl)⟩

end

/-! ## Programs -/

namespace Checker

theorem start_scopes : start.scopes
    = Scopes.empty.defineGlobals Builtin.ty (builtins.map fun b ↦ (b.name, b)) := by
  rw [Scopes.defineGlobals, List.foldl_map]
  rfl

theorem wellFormed_start : start.scopes.WellFormed :=
  start_scopes ▸ Scopes.wellFormed_empty.defineGlobals _ _

theorem locals_start : start.scopes.locals = [] := by
  rw [start_scopes, Scopes.locals_defineGlobals]
  rfl

end Checker

/-- The expressions of a program are scoped, and take nothing from around them. -/
theorem checkAll_scoped {forms : List Form} {es : List Expr} {c : Checker}
    (h : (checkAll forms).outcome .start = (.ok es, c)) :
    ∃ ds, Scoped Checker.start.scopes (.exprs es) ds ∧
      c.scopes = Checker.start.scopes.defineGlobals id ds ∧ ∀ x, ¬ (Phrase.exprs es).Needs x := by
  obtain ⟨ds, hscoped, hscopes⟩ := checkAll_yields forms Checker.wellFormed_start h
  refine ⟨ds, hscoped, hscopes, fun x hx ↦ ?_⟩
  obtain ⟨v, hv⟩ := hscoped.local Checker.wellFormed_start hx
  rw [Checker.locals_start] at hv
  cases hv

end TaggedLisp
