import TaggedLisp.Proofs.Ir.Restoring
import TaggedLisp.Proofs.Machine.Functions

/-!
# What translation leaves in the scopes

Whatever comes of translating an expression, the frames that it opened are left again, the function
being translated is the same as before, and nothing is left in the frames but the names of global
functions that were completed.

With this it is known of all three passes: `scopes_restored`.
-/

namespace TaggedLisp

open Machine Translate

/-! ## The parts of an expression -/

/-- The elements of a sequence, each followed by storing its word. -/
def storedInTurn : (slot : Nat) → List Expr → List (Expr × (Unit → Translate Unit))
  | _, [] => []
  | slot, e :: es =>
    (e, fun _ ↦ emit (.store (slotAddress slot) .rax)) :: storedInTurn (slot - 1) es

/-- The arguments of a call from a position on, each followed by pushing or storing its word. -/
def passedInTurn (base : Nat) : (position : Nat) → List Expr → List (Expr × (Unit → Translate Unit))
  | _, [] => []
  | i, e :: es =>
    (e, fun _ ↦
      if i < argRegisters.length then push .rax
      else emit (.store (slotAddress (base - (i - argRegisters.length))) .rax)) ::
        passedInTurn base (i + 1) es

theorem map_fst_storedInTurn (slot : Nat) (es : List Expr) :
    (storedInTurn slot es).map Prod.fst = es := by
  induction es generalizing slot with
  | nil => rfl
  | cons e es ih => rw [storedInTurn, List.map_cons, ih]

theorem map_fst_passedInTurn (base i : Nat) (es : List Expr) :
    (passedInTurn base i es).map Prod.fst = es := by
  induction es generalizing i with
  | nil => rfl
  | cons e es ih => rw [passedInTurn, List.map_cons, ih]

/-- Behind the code that saves registers and makes room for the words that are not passed in
registers. -/
def Machine.Translator.calling (t : Translator) (words : Nat) : Translator :=
  (t.emitted (t.activation.liveRegisters.map .push)
    (t.activation.depth + t.activation.liveRegisters.length)).emitted
      (reserveCode (words - argRegisters.length))
      (t.activation.depth + t.activation.liveRegisters.length + (words - argRegisters.length))

/-- Inside the function with the head `h`, whose number is the next one. -/
def Machine.Translator.opening (t : Translator) (h : FnHead) (captures : Captures) : Translator :=
  (t.drawn.emitted [.jmp (.after t.next), .label (.code h.name t.next), .push .rbp,
    .mov .rbp (.reg .rsp)] t.activation.depth).inBody h captures t.next

/-- In which state the parts of an expression are translated, and in which order. Those of a `let`
or a function are translated in a frame of their own. The surplus arguments of a call are the
elements of a sequence. -/
inductive Expr.TranslateOpens :
    Translator → Expr → Translator → List (Expr × (Unit → Translate Unit)) → Prop where
  | group {t : Translator} {shape : Shape} {elems : List Expr} {n : Note} :
      TranslateOpens t (.group shape elems n)
        (t.emitted (reserveCode elems.length) (t.activation.depth + elems.length))
        (storedInTurn (t.activation.depth + elems.length) elems)
  | cond {t : Translator} {test yes no : Expr} {n : Note} :
      TranslateOpens t (.cond test yes no n) t.drawn
        [ (test, fun _ ↦ emitAll [.cmp .rax trueWord.toInt, .je (.yes t.next)]),
          (no, fun _ ↦ emitAll [.jmp (.after t.next), .label (.yes t.next)]),
          (yes, Pass.done) ]
  | values {t : Translator} {bs : List (String × Expr)} {body : Expr} {n : Note} :
      TranslateOpens t (.letIn bs body n) { t with scopes := t.scopes.enter }
        (bs.map fun b ↦ (b.2, fun _ ↦ bindSlot b.1))
  | letBody {t t' : Translator} {bs : List (String × Expr)} {body : Expr} {n : Note}
      (h : (translateBindings bs).outcome { t with scopes := t.scopes.enter } = (.ok (), t')) :
      TranslateOpens t (.letIn bs body n) t' (inTurn [body])
  | fnBody {t : Translator} {head : FnHead} {body : Expr} {n : Note} {sources : List Place}
      (h : (places n.token.line n.captures).outcome t.drawn = (.ok sources, t.drawn)) :
      TranslateOpens t (.fn head body n) (t.opening head n.captures) (inTurn [body])
  | seq {t : Translator} {steps : List Expr} {n : Note} :
      TranslateOpens t (.seq steps n) t (inTurn steps)
  | args {t : Translator} {callee : Expr} {args : List Expr} {spread : Option Nat} {n : Note} :
      TranslateOpens t (.call callee args spread n) (t.calling (passedExprs spread args).length)
        (passedInTurn (t.calling (passedExprs spread args).length).activation.depth 0
          (passedExprs spread args))
  | callee {t t' : Translator} {callee : Expr} {args : List Expr} {spread : Option Nat} {n : Note}
      (h : (passArgs (t.calling (passedExprs spread args).length).activation.depth 0
        (translateEach (passedExprs spread args))).outcome
          (t.calling (passedExprs spread args).length) = (.ok (), t')) :
      TranslateOpens t (.call callee args spread n) t' (inTurn [callee])

/-- While the expression is translated from `t`, the global function `x` is completed. -/
abbrev Expr.TranslateCompletes (t : Translator) (e : Expr) : String → Prop :=
  Completes Expr.translate Expr.defines Expr.TranslateOpens t e

namespace Machine

/-! ## Steps -/

/-- Nothing is left but some global names, which stand for closures, and the function being
translated is the same. -/
structure Translator.Gains (names : String → Prop) (t t' : Translator) : Prop where
  scopes : Scopes.Gains Place.static names t.scopes t'.scopes
  inFunction : t'.activation.inFunction = t.activation.inFunction
  params : t'.activation.params = t.activation.params

/-- The translator that has left the current frame. -/
def Translator.leaving (saved : ScopeId) (t : Translator) : Translator :=
  { t with scopes := t.scopes.exit saved }

namespace Translator

variable {names names' : String → Prop} {t t' t'' : Translator}

theorem Gains.of_eq (hscopes : t'.scopes = t.scopes)
    (hin : t'.activation.inFunction = t.activation.inFunction)
    (hparams : t'.activation.params = t.activation.params) : Gains names t t' :=
  ⟨.of_eq hscopes, hin, hparams⟩

theorem Gains.refl (t : Translator) : Gains names t t := .of_eq rfl rfl rfl

theorem Gains.trans (h : Gains names t t') (h' : Gains names t' t'') : Gains names t t'' :=
  ⟨h.scopes.trans h'.scopes, h'.inFunction.trans h.inFunction, h'.params.trans h.params⟩

theorem Gains.mono (h : Gains names t t') (hnames : ∀ x, names x → names' x) :
    Gains names' t t' := ⟨h.scopes.mono hnames, h.inFunction, h.params⟩

theorem Gains.leaving (h : Gains names t t') (saved : ScopeId) :
    Gains names (t.leaving saved) (t'.leaving saved) :=
  ⟨h.scopes.exit saved, h.inFunction, h.params⟩

end Translator

namespace Translate

variable {α β : Type} {names : String → Prop} {t : Translator}

/-- From `t`, nothing is left of the pass but some global names. -/
abbrev Gains (names : String → Prop) (t : Translator) (p : Translate α) : Prop :=
  Pass.LeadsFrom (Translator.Gains names) t p

/-- From `t`, nothing is left of the pass but some global names when the current frame is left. -/
abbrev GainsOutside (saved : ScopeId) (names : String → Prop) (t : Translator) (p : Translate α) :
    Prop :=
  Pass.LeadsFrom (fun t t' ↦ (t.leaving saved).Gains names (t'.leaving saved)) t p

theorem gains_bind {p : Translate α} {f : α → Translate β} (hp : Gains names t p)
    (hf : ∀ a t', p.outcome t = (.ok a, t') → Gains names t' (f a)) : Gains names t (p >>= f) :=
  .bind (fun _ _ _ ↦ Translator.Gains.trans) hp hf

theorem gainsOutside_bind {saved : ScopeId} {p : Translate α} {f : α → Translate β}
    (hp : GainsOutside saved names t p)
    (hf : ∀ a t', p.outcome t = (.ok a, t') → GainsOutside saved names t' (f a)) :
    GainsOutside saved names t (p >>= f) :=
  .bind (fun _ _ _ ↦ Translator.Gains.trans) hp hf

theorem Gains.outside {p : Translate α} (h : Gains names t p) (saved : ScopeId) :
    GainsOutside saved names t p := Translator.Gains.leaving h saved

/-- A pass that only writes code leaves nothing else. -/
theorem gains_emitted {p : Translate α} {c : List Instr} {d : Nat}
    (h : (p.outcome t).2 = t.emitted c d) : Gains names t p := by
  rw [Gains, Pass.LeadsFrom, h]
  exact .of_eq rfl rfl rfl

theorem gains_emit (i : Instr) : Gains names t (emit i) := .of_eq rfl rfl rfl

theorem gains_emitAll (is : List Instr) : Gains names t (emitAll is) :=
  gains_emitted (by rw [outcome_emitAll])

theorem gains_push (r : Reg) : Gains names t (push r) := gains_emitted (by rw [outcome_push])

theorem gains_pushAll (rs : List Reg) : Gains names t (pushAll rs) :=
  gains_emitted (by rw [outcome_pushAll])

theorem gains_popAll (rs : List Reg) : Gains names t (popAll rs) :=
  gains_emitted (by rw [outcome_popAll])

theorem gains_reserve (n : Nat) : Gains names t (reserve n) :=
  gains_emitted (by rw [outcome_reserve])

theorem gains_release (n : Nat) : Gains names t (release n) :=
  gains_emitted (by rw [outcome_release])

theorem gains_get : Gains names t (get : Translate Translator) := .refl t

theorem gains_depth : Gains names t depth := .refl t

theorem gains_literal (v : Literal) : Gains names t (literal v) := by
  cases v with
  | nil | boolean b | number k => exact gains_emit _
  | string s => exact gains_bind (.of_eq rfl rfl rfl) fun _ _ _ ↦
      gains_bind (.of_eq rfl rfl rfl) fun _ _ _ ↦ gains_emitAll _

theorem gains_resolve (x : String) (line : Nat) : Gains names t (resolve x line) := by
  refine gains_bind gains_get fun _ _ _ ↦ ?_
  split <;> exact .refl _

theorem gains_places (line : Nat) (xs : List String) : Gains names t (places line xs) := by
  induction xs generalizing t with
  | nil => exact .refl t
  | cons x xs ih =>
    exact gains_bind (gains_resolve x line) fun _ _ _ ↦ gains_bind ih fun _ _ _ ↦ .refl _

/-! ## Frames -/

/-- What is bound in a frame is gone when it is left. -/
theorem gains_nested {body : Translate Unit}
    (h : GainsOutside t.scopes.current names { t with scopes := t.scopes.enter } body) :
    Gains names t (nested body) := by
  have hleft : Translator.leaving t.scopes.current { t with scopes := t.scopes.enter } = t := by
    rw [Translator.leaving, Scopes.enter, Scopes.exit_enterFrom]
  rw [GainsOutside, Pass.LeadsFrom, hleft] at h
  exact h

/-- The frame of a body is left with it, and the function around it goes on. -/
theorem gains_isolated {head : FnHead} {captures : Captures} {id : Nat} {body : Translate Unit}
    (h : Gains names (t.inBody head captures id) body) :
    Gains names t (isolated head captures id body) := by
  have hleft : (t.inBody head captures id).scopes.exit t.scopes.current = t.scopes :=
    (Scopes.exit_defineAll _ _ _).trans (Scopes.exit_enterFrom ..)
  exact ⟨hleft ▸ h.scopes.exit t.scopes.current, rfl, rfl⟩

theorem gainsOutside_bindSlot (saved : ScopeId) (x : String) :
    GainsOutside saved names t (bindSlot x) := by
  rw [GainsOutside, Pass.LeadsFrom, outcome_bindSlot]
  exact .of_eq (Scopes.exit_define ..) rfl rfl

/-- A function without captures gets its name in the global frame once it is completed, if it is a
definition. -/
theorem gains_fn {h : FnHead} {n : Note} {body : Translate Unit}
    (hbody : ∀ sources, (places n.token.line n.captures).outcome t.drawn = (.ok sources, t.drawn) →
      Gains names (t.opening h n.captures) body)
    (hname : h.isGlobal = true → (∃ t', (fn h n body).outcome t = (.ok (), t')) →
      names (h.name.getD "defn")) : Gains names t (fn h n body) := by
  obtain ⟨name, params, rest, isGlobal⟩ := h
  refine gains_bind (.of_eq rfl rfl rfl) ?_
  rintro id _ ⟨⟩
  refine gains_bind (gains_places _ _) fun sources t₁ hsources ↦ ?_
  obtain ⟨-, rfl⟩ := (outcome_places _).mp hsources
  refine gains_bind (gains_emitAll _) fun _ t₂ hemit ↦ ?_
  rw [outcome_emitAll] at hemit
  obtain ⟨-, rfl⟩ := Prod.mk.inj hemit
  refine gains_bind (gains_isolated (hbody sources hsources)) fun _ t₃ hinner ↦ ?_
  refine gains_bind (gains_emitAll _) fun _ t₄ hret ↦ ?_
  cases sources with
  | cons p ps =>
    exact gains_emitted (by rw [List.isEmpty_cons, if_neg (by decide), outcome_allocate])
  | nil =>
    rw [List.isEmpty_nil, if_pos rfl]
    refine gains_bind (.of_eq rfl rfl rfl) fun _ t₅ hdata ↦ ?_
    refine gains_bind (gains_emitAll _) fun _ t₆ hload ↦ ?_
    rcases isGlobal, name with ⟨_ | _, _ | x⟩
    · exact .refl _
    · exact .refl _
    · exact .refl _
    · let l := Label.closure (some x) t.next
      refine ⟨.define _ (hname rfl
        ⟨{ t₆ with scopes := t₆.scopes.defineGlobal x (.static l) }, ?_⟩) l, rfl, rfl⟩
      -- the steps up to here are a run of the whole function
      refine Pass.outcome_bind_ok.mpr ⟨_, _, rfl, Pass.outcome_bind_ok.mpr ⟨_, _, hsources, ?_⟩⟩
      refine Pass.outcome_bind_ok.mpr ⟨_, _, outcome_emitAll .., ?_⟩
      refine Pass.outcome_bind_ok.mpr ⟨_, _, hinner, Pass.outcome_bind_ok.mpr ⟨_, _, hret, ?_⟩⟩
      rw [List.isEmpty_nil, if_pos rfl]
      exact Pass.outcome_bind_ok.mpr ⟨_, _, hdata, Pass.outcome_bind_ok.mpr ⟨_, _, hload, rfl⟩⟩

end Translate

end Machine

/-! ## Expressions -/

/-- Whatever comes of translating the expression, nothing is left of it in the scopes but the names
of global functions that were completed. -/
def Expr.TranslatesGaining (e : Expr) : Prop :=
  ∀ t, Translate.Gains (e.TranslateCompletes t) t e.translate

section

variable {names : String → Prop} {es : List Expr} (hes : ∀ e ∈ es, e.TranslatesGaining)
  {t : Translator}

include hes

theorem translateAll_gains
    (h : ∀ {t' e}, Turn Expr.translate t (inTurn es) t' e →
      ∀ x, e.TranslateCompletes t' x → names x) : Translate.Gains names t (translateAll es) := by
  induction es generalizing t with
  | nil => exact .refl t
  | cons e es ih =>
    obtain ⟨he, hes⟩ := List.forall_mem_cons.mp hes
    refine gains_bind ((he t).mono (h .here)) fun _ t₁ ht ↦ ?_
    exact ih hes fun hturn ↦ h (.later ht rfl hturn)

theorem fill_gains {slot : Nat}
    (h : ∀ {t' e}, Turn Expr.translate t (storedInTurn slot es) t' e →
      ∀ x, e.TranslateCompletes t' x → names x) :
    Translate.Gains names t (fill slot (translateEach es)) := by
  induction es generalizing t slot with
  | nil => exact .refl t
  | cons e es ih =>
    obtain ⟨he, hes⟩ := List.forall_mem_cons.mp hes
    refine gains_bind ((he t).mono (h .here)) fun _ t₁ ht ↦ ?_
    refine gains_bind (gains_emit _) fun _ t₂ hstore ↦ ?_
    exact ih hes fun hturn ↦ h (.later ht hstore hturn)

theorem passArgs_gains {base i : Nat}
    (h : ∀ {t' e}, Turn Expr.translate t (passedInTurn base i es) t' e →
      ∀ x, e.TranslateCompletes t' x → names x) :
    Translate.Gains names t (passArgs base i (translateEach es)) := by
  induction es generalizing t i with
  | nil => exact .refl t
  | cons e es ih =>
    obtain ⟨he, hes⟩ := List.forall_mem_cons.mp hes
    refine gains_bind ((he t).mono (h .here)) fun _ t₁ ht ↦ ?_
    rw [passedInTurn] at h
    split at h
    · next hi =>
      refine if_pos hi ▸ gains_bind (gains_push _) fun _ t₂ hpush ↦ ?_
      exact ih hes fun hturn ↦ h (.later ht hpush hturn)
    · next hi =>
      refine if_neg hi ▸ gains_bind (gains_emit _) fun _ t₂ hstore ↦ ?_
      exact ih hes fun hturn ↦ h (.later ht hstore hturn)

theorem group_gains (shape : Shape) (n : Note) : (Expr.group shape es n).TranslatesGaining := by
  intro t
  rw [Expr.translate, Translate.sequence]
  cases es with
  | nil => exact gains_emit _
  | cons e es =>
    rw [translateEach, List.isEmpty_cons, if_neg (by decide), ← translateEach]
    refine gains_bind (gains_reserve _) fun _ t₁ hreserve ↦ ?_
    rw [outcome_reserve, translateEach_length] at hreserve
    obtain ⟨-, rfl⟩ := Prod.mk.inj hreserve
    refine gains_bind gains_depth ?_
    rintro _ _ ⟨⟩
    refine gains_bind (fill_gains hes fun hturn x hx ↦ .inside .group hturn hx) fun _ _ _ ↦ ?_
    exact gains_bind gains_get fun _ _ _ ↦ gains_bind (gains_pushAll _) fun _ _ _ ↦
      gains_bind (gains_emitAll _) fun _ _ _ ↦ gains_bind (gains_popAll _) fun _ _ _ ↦
      gains_release _

theorem call_gains {callee : Expr} (hcallee : callee.TranslatesGaining) (spread : Option Nat)
    (n : Note) : (Expr.call callee es spread n).TranslatesGaining := by
  intro t
  have hpassed : ∀ e ∈ passedExprs spread es, e.TranslatesGaining :=
    forall_passedExprs hes (fun _ hlist ↦ group_gains hlist _ _) spread
  rw [Expr.translate, call, passed_translateEach]
  refine gains_bind gains_get ?_
  rintro _ _ ⟨⟩
  refine gains_bind (gains_pushAll _) fun _ t₁ hpush ↦ ?_
  refine gains_bind (gains_reserve _) fun _ t₂ hreserve ↦ ?_
  obtain rfl : t.calling (passedExprs spread es).length = t₂ := by
    rw [outcome_pushAll] at hpush
    obtain ⟨-, rfl⟩ := Prod.mk.inj hpush
    rw [outcome_reserve, translateEach_length] at hreserve
    exact (Prod.mk.inj hreserve).2
  refine gains_bind gains_depth ?_
  rintro _ _ ⟨⟩
  refine gains_bind (passArgs_gains hpassed fun hturn x hx ↦ .inside .args hturn hx)
    fun _ t₃ hargs ↦ ?_
  refine gains_bind ((hcallee t₃).mono fun x hx ↦ .inside (.callee hargs) .here hx) fun _ _ _ ↦ ?_
  exact gains_bind (gains_emitAll _) fun _ _ _ ↦ gains_bind (gains_popAll _) fun _ _ _ ↦
    gains_bind (gains_emitAll _) fun _ _ _ ↦ gains_bind (gains_release _) fun _ _ _ ↦
    gains_popAll _

end

theorem translateBindings_gains {names : String → Prop} {t : Translator}
    {bs : List (String × Expr)} (hbs : ∀ b ∈ bs, b.2.TranslatesGaining) (saved : ScopeId)
    (h : ∀ {t' e}, Turn Expr.translate t (bs.map fun b ↦ (b.2, fun _ ↦ bindSlot b.1)) t' e →
      ∀ x, e.TranslateCompletes t' x → names x) :
    GainsOutside saved names t (translateBindings bs) := by
  induction bs generalizing t with
  | nil => exact .refl _
  | cons b bs ih =>
    obtain ⟨name, value⟩ := b
    obtain ⟨hvalue, hbs⟩ := List.forall_mem_cons.mp hbs
    refine gainsOutside_bind (Gains.outside ((hvalue t).mono (h .here)) saved) fun _ t₁ ht ↦ ?_
    refine gainsOutside_bind (gainsOutside_bindSlot saved name) fun _ t₂ hbind ↦ ?_
    exact ih hbs fun hturn ↦ h (.later ht hbind hturn)

/-- Whatever comes of translating an expression, nothing is left of it in the scopes but the names
of global functions that were completed, and the function being translated is the same. -/
theorem Expr.translate_gains (e : Expr) : e.TranslatesGaining := by
  induction e using Expr.memberInduction with
  | literal v n => exact fun t ↦ gains_literal v
  | symbol name n => exact fun t ↦ gains_bind (gains_resolve _ _) fun _ _ _ ↦ gains_emitAll _
  | group shape elems n helems => exact group_gains helems shape n
  | cond test yes no n htest hyes hno =>
    intro t
    refine gains_bind (.of_eq rfl rfl rfl) ?_
    rintro _ _ ⟨⟩
    refine gains_bind ((htest _).mono fun x hx ↦ .inside .cond .here hx) fun _ t₁ h₁ ↦ ?_
    refine gains_bind (gains_emitAll _) fun _ t₂ h₂ ↦ ?_
    refine gains_bind ((hno _).mono fun x hx ↦ .inside .cond (.later h₁ h₂ .here) hx)
      fun _ t₃ h₃ ↦ ?_
    refine gains_bind (gains_emitAll _) fun _ t₄ h₄ ↦ ?_
    refine gains_bind ((hyes _).mono fun x hx ↦
      .inside .cond (.later h₁ h₂ (.later h₃ h₄ .here)) hx) fun _ _ _ ↦ ?_
    exact gains_emit _
  | letIn bindings body n hbindings hbody =>
    intro t
    refine gains_nested (gainsOutside_bind (translateBindings_gains hbindings _ fun hturn x hx ↦
      .inside .values hturn hx) fun _ t₁ h₁ ↦ ?_)
    refine gainsOutside_bind (Gains.outside ((hbody t₁).mono fun x hx ↦
      .inside (.letBody h₁) .here hx) _) fun _ _ _ ↦ ?_
    exact Gains.outside (gains_release _) _
  | fn head body n hbody =>
    intro t
    refine gains_fn (fun sources hsources ↦ (hbody _).mono fun x hx ↦
      .inside (.fnBody hsources) .here hx) ?_
    rintro hglobal ⟨t', hfn⟩
    exact .here (if_pos hglobal) hfn
  | seq steps n hsteps =>
    intro t
    rw [Expr.translate]
    split
    · exact gains_literal .nil
    · exact translateAll_gains hsteps fun hturn x hx ↦ .inside .seq hturn hx
  | call callee args spread n hcallee hargs => exact call_gains hargs hcallee spread n

/-! ## All three passes -/

/-- Every pass restores the scopes, whatever comes of it: the frames that it opened are left,
nothing was bound in those that were there before, and in the global frame only names of global
functions that were completed on the way. The translator is in the same function as before, which
has as many parameters. -/
theorem scopes_restored :
    (∀ (f : Form) (c : Checker),
      c.scopes.Restored (f.Completes c) (f.check.outcome c).2.scopes) ∧
    (∀ (e : Expr) (l : Ir.Lowerer),
      l.scopes.Restored (e.LowerCompletes l) (e.lower.outcome l).2.scopes) ∧
    ∀ (e : Expr) (t : Translator),
      t.scopes.Restored (e.TranslateCompletes t) (e.translate.outcome t).2.scopes ∧
        (e.translate.outcome t).2.activation.inFunction = t.activation.inFunction ∧
        (e.translate.outcome t).2.activation.params = t.activation.params :=
  ⟨fun f c ↦ (f.check_gains c).restored, fun e l ↦ (e.lower_gains l).restored, fun e t ↦
    have h := e.translate_gains t
    ⟨h.scopes.restored, h.inFunction, h.params⟩⟩

end TaggedLisp
