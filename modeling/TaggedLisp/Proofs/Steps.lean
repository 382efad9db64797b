import TaggedLisp.Proofs.Scoping

/-!
# Steps of checking

Checking changes the state in few ways: placeholders are made, narrowed and frozen, names are bound,
and the frame of a construct is opened and left. A relation between states that holds of each of
these, `StepClosed`, holds between the states before and after any form, whatever comes of it: a
fault does not undo what was done before, but every frame that was opened is left.
`Form.check_leads` says so; what holds of all states that can be reached is read off from it.
-/

namespace TaggedLisp

/-- A relation that holds of every single step of checking, and of several ones when it holds of
each. -/
structure Checker.StepClosed (R : Checker → Checker → Prop) : Prop where
  refl : ∀ c, R c c
  trans : ∀ c c' c'', R c c' → R c' c'' → R c c''
  fresh : ∀ c name, R c { c with types := (c.types.fresh name).2 }
  narrow : ∀ c actual expected t T, c.types.narrow actual expected = .ok (t, T) →
    R c { c with types := T }
  freeze : ∀ c t, R c { c with types := c.types.freeze t }
  define : ∀ c scope x t, R c { c with scopes := c.scopes.defineIn scope x t }
  nested : ∀ c c', R { c with scopes := c.scopes.enter } c' →
    R c { c' with scopes := c'.scopes.exit c.scopes.current }

namespace Check

open Pass (Leads)

/-! ## Heads of functions

Reading the head of a function does nothing to the state, so it leads to where it starts by any
relation that is reflexive and transitive. Binding the head makes placeholders and binds names.
-/

section

variable {R : Checker → Checker → Prop} (hrefl : ∀ c, R c c)
  (htrans : ∀ c c' c'', R c c' → R c' c'' → R c c'')

include hrefl

theorem leads_paramNames (op : Token) (f : Form) : Leads R (paramNames op f) := by
  cases f with
  | atom a t => exact .fail hrefl _ _
  | group shape elems t =>
    cases shape with
    | list => exact .fail hrefl _ _
    | vector =>
      rw [paramNames]
      split
      · exact .pure hrefl _
      · exact .fail hrefl _ _

theorem leads_splitRest (op : Token) (names : List String) : Leads R (splitRest op names) := by
  rw [splitRest]
  split
  · exact .pure hrefl _
  · split
    · exact .fail hrefl _ _
    · exact .pure hrefl _
  · exact .fail hrefl _ _

include htrans

theorem leads_fnHead (op : Token) (isGlobal : Bool) (name : Option Form) (params : Form) :
    Leads R (fnHead op isGlobal name params) := by
  have hparts (own : Option String) : Leads R (headOf op isGlobal params own) :=
    .bind htrans (leads_paramNames hrefl op params) fun names ↦
      .bind htrans (leads_splitRest hrefl op names) fun _ ↦ .pure hrefl _
  -- a function in the wrong place is refused before its name is looked at
  cases name with
  | none =>
    refine .bind htrans hrefl fun c ↦ ?_
    dsimp only
    split
    · exact .fail hrefl _ _
    · exact hparts none
  | some form =>
    refine .bind htrans hrefl fun c ↦ ?_
    dsimp only
    split
    · exact .fail hrefl _ _
    · split
      · exact hparts _
      · exact .fail hrefl _ _

variable (hfresh : ∀ c name, R c { c with types := (c.types.fresh name).2 })
  (hdefine : ∀ c x t, R c { c with scopes := c.scopes.define x t })

include hfresh hdefine

theorem leads_bindParams (names : List String) : Leads R (bindParams names) := by
  induction names with
  | nil => exact .pure hrefl _
  | cons name names ih =>
    exact .bind htrans (hfresh · name) fun ty ↦ .bind htrans (hdefine · name ty) fun _ ↦
      .bind htrans ih fun _ ↦ .pure hrefl _

theorem leads_bindHead (h : FnHead) : Leads R (bindHead h) := by
  obtain ⟨name, names, rest, isGlobal⟩ := h
  refine .bind htrans (leads_bindParams hrefl htrans hfresh hdefine names) fun params ↦ ?_
  have hname (x : String) : Leads R (do
      let ret ← fresh (x ++ "-ret")
      define x (fnTy ⟨some x, names, rest, isGlobal⟩ params ret)
      return params : Check (List Ty)) :=
    .bind htrans (hfresh · _) fun _ ↦ .bind htrans (hdefine · _ _) fun _ ↦ .pure hrefl _
  rcases rest with _ | rest <;> rcases name with _ | x
  · exact .pure hrefl _
  · exact hname x
  · exact .bind htrans (hdefine · rest .list) fun _ ↦ .pure hrefl _
  · exact .bind htrans (hdefine · rest .list) fun _ ↦ hname x

end

theorem state_fnHead (op : Token) (isGlobal : Bool) (name : Option Form) (params : Form)
    (c : Checker) : ((fnHead op isGlobal name params).outcome c).2 = c :=
  leads_fnHead (R := fun c c' ↦ c' = c) (fun _ ↦ rfl) (fun _ _ _ h h' ↦ h'.trans h) op isGlobal
    name params c

variable {α β : Type} {R : Checker → Checker → Prop} (hR : Checker.StepClosed R)

include hR

/-! ## Steps -/

theorem leads_pure (a : α) : Leads R (pure a : Check α) := .pure hR.refl a

theorem leads_fail (cause : Cause) (line : Nat) : Leads R (Pass.fail cause line : Check α) :=
  .fail hR.refl cause line

theorem leads_get : Leads R (get : Check Checker) := hR.refl

theorem leads_bind {p : Check α} {f : α → Check β} (hp : Leads R p) (hf : ∀ a, Leads R (f a)) :
    Leads R (p >>= f) := .bind hR.trans hp hf

theorem leads_fresh (name : String) : Leads R (fresh name) := fun c ↦ hR.fresh c name

theorem leads_define (x : String) (t : Ty) : Leads R (define x t) := fun c ↦ hR.define c _ x t

theorem leads_satisfies (actual expected : Ty) : Leads R (satisfies actual expected) := hR.refl

theorem leads_nested {body : Check α} (h : Leads R body) : Leads R (nested body) := fun c ↦
  hR.nested c _ (h { c with scopes := c.scopes.enter })

theorem leads_mismatch (meeting : Meeting) (expected actual : Ty) (line : Nat) :
    Leads R (mismatch meeting expected actual line : Check α) := hR.refl

theorem leads_narrow (actual expected : Ty) (meeting : Meeting) (line : Nat) :
    Leads R (narrow actual expected meeting line) := by
  intro c
  rw [narrow, Pass.outcome_bind, Pass.outcome_get]
  dsimp only
  split
  · next t T h => exact hR.narrow c actual expected t T h
  · exact leads_mismatch hR _ _ _ _ c
  · exact hR.refl c

/-! ## Parts of forms -/

theorem leads_atom (a : Atom) (t : Token) : Leads R (atom a t) := by
  cases a with
  | nil | boolean | string => exact leads_pure hR _
  | number n =>
    rw [atom]
    split
    · exact leads_pure hR _
    · exact leads_fail hR _ _
  | symbol name =>
    refine leads_bind hR (leads_get hR) fun c ↦ ?_
    split
    · exact leads_fail hR _ _
    · exact leads_pure hR _

theorem leads_cond (op : Token) (test yes no : Expr) : Leads R (cond op test yes no) := by
  refine leads_bind hR (leads_satisfies hR _ _) fun agree ↦ ?_
  split
  · exact leads_pure hR _
  · exact leads_mismatch hR _ _ _ _

theorem leads_constrain (callee : String) (line position : Nat) (arg : Expr) (expected : Ty) :
    Leads R (constrain callee line position arg expected) := by
  refine leads_bind hR (leads_satisfies hR _ _) fun agree ↦ ?_
  split
  · refine leads_bind hR (leads_get hR) fun c ↦ ?_
    dsimp only
    split
    · split
      · exact leads_narrow hR _ _ _ _
      · exact leads_pure hR _
    · exact leads_pure hR _
  · exact leads_mismatch hR _ _ _ _

theorem leads_constrainAll (callee : String) (line : Nat) (rest : Option Ty) (position : Nat)
    (args : List Expr) (params : List Ty) :
    Leads R (constrainAll callee line rest position args params) := by
  induction args generalizing position params with
  | nil => exact leads_pure hR _
  | cons arg args ih =>
    cases params with
    | nil => exact leads_bind hR (leads_constrain hR _ _ _ _ _) fun _ ↦ ih _ _
    | cons p params => exact leads_bind hR (leads_constrain hR _ _ _ _ _) fun _ ↦ ih _ _

theorem leads_signature (name : String) (line : Nat) (callee : Expr) (args : List Expr) :
    Leads R (signature name line callee args) := by
  refine leads_bind hR (leads_get hR) fun c ↦ ?_
  have hother (t : Ty) : Leads R (do
      Pass.fail (.notAFunction name (← display t)) line : Check (Ty × Option Nat)) := hR.refl
  dsimp only
  generalize c.types.resolve callee.ty = t
  cases t with
  | fn params rest ret =>
    have hfits := leads_bind hR (leads_constrainAll hR name line rest 0 args params)
      fun _ ↦ leads_pure hR (ret, rest.map fun _ ↦ params.length)
    cases rest with
    | none | some _ =>
      dsimp only
      split
      · exact hfits
      · exact leads_fail hR _ _
  | var v =>
    dsimp only
    split
    · exact leads_bind hR (leads_fresh hR _) fun ret ↦
        leads_bind hR (leads_narrow hR _ _ _ _) fun _ ↦ leads_pure hR _
    · exact leads_pure hR _
  | base b =>
    cases b with
    | any => exact leads_pure hR _
    | _ => exact hother _

theorem leads_call (op : Form) (callee : Expr) (args : List Expr) :
    Leads R (call op callee args) :=
  leads_bind hR (leads_signature hR _ _ _ _) fun _ ↦ leads_pure hR _

theorem leads_fn (op : Token) (h : FnHead) {body : Check Expr} (hbody : Leads R body) :
    Leads R (fn op h body) := by
  have hframe : Leads R (do
      let params ← bindHead h
      let body ← body
      freeze body.ty
      return (body, params) : Check (Expr × List Ty)) :=
    leads_bind hR (leads_bindHead hR.refl hR.trans hR.fresh (hR.define · _) h) fun _ ↦
      leads_bind hR hbody fun e ↦
      leads_bind hR (fun c ↦ hR.freeze c e.ty) fun _ ↦ leads_pure hR _
  refine leads_bind hR (leads_nested hR hframe) ?_
  rintro ⟨e, params⟩
  dsimp only
  split
  · exact leads_bind hR (fun c ↦ hR.define c _ _ _) fun _ ↦ leads_pure hR _
  · exact leads_pure hR _

end Check

/-! ## Forms -/

section

open Pass (Leads)
open Check

variable {R : Checker → Checker → Prop} (hR : Checker.StepClosed R)

include hR

mutual

theorem Form.checkDatum_leads : ∀ f : Form, Leads R f.checkDatum
  | .atom a t => leads_atom hR a t
  | .group _ elems _ => leads_bind hR (checkData_leads elems) fun _ ↦ leads_pure hR _

theorem checkData_leads : ∀ fs : List Form, Leads R (checkData fs)
  | [] => leads_pure hR _
  | f :: fs => leads_bind hR f.checkDatum_leads fun _ ↦
      leads_bind hR (checkData_leads fs) fun _ ↦ leads_pure hR _

end

mutual

/-- What holds of every step holds of checking a form, whatever comes of it. -/
theorem Form.check_leads : ∀ f : Form, Leads R f.check
  | .atom a t => leads_atom hR a t
  | .group .vector elems _ => leads_bind hR (checkData_leads hR elems) fun _ ↦ leads_pure hR _
  | .group .list [] _ => leads_pure hR _
  | .group .list (.group .list elems t' :: args) t => by
    rw [Form.check]
    exact leads_bind hR (Form.check_leads (.group .list elems t')) fun _ ↦
      leads_bind hR (checkAll_leads args) fun _ ↦ leads_call hR _ _ _
  | .group .list (.group .vector _ _ :: _) _
  | .group .list (.atom .nil _ :: _) _ | .group .list (.atom (.boolean _) _ :: _) _
  | .group .list (.atom (.number _) _ :: _) _ | .group .list (.atom (.string _) _ :: _) _ =>
    leads_fail hR _ _
  | .group .list (.atom (.symbol name) opToken :: args) t => by
    unfold Form.check
    dsimp only
    split
    · split
      · next datum => exact datum.checkDatum_leads hR
      · exact leads_fail hR _ _
    · exact checkCond_leads opToken args
    · exact checkFn_leads opToken false args
    · exact checkFn_leads opToken true args
    · exact checkLet_leads opToken args
    · exact leads_bind hR (checkAll_leads args) fun _ ↦ leads_pure hR _
    · exact leads_bind hR (leads_atom hR _ _) fun _ ↦ leads_bind hR (checkAll_leads args) fun _ ↦
        leads_call hR _ _ _

theorem checkAll_leads : ∀ fs : List Form, Leads R (checkAll fs)
  | [] => leads_pure hR _
  | f :: fs => leads_bind hR f.check_leads fun _ ↦
      leads_bind hR (checkAll_leads fs) fun _ ↦ leads_pure hR _

theorem checkCond_leads (op : Token) : ∀ fs : List Form, Leads R (checkCond op fs)
  | [test, yes] => leads_bind hR test.check_leads fun _ ↦ leads_bind hR yes.check_leads fun _ ↦
    leads_cond hR _ _ _ _
  | [test, yes, no] => leads_bind hR test.check_leads fun _ ↦ leads_bind hR yes.check_leads fun _ ↦
    leads_bind hR no.check_leads fun _ ↦ leads_cond hR _ _ _ _
  | [] | [_] | _ :: _ :: _ :: _ :: _ => leads_fail hR _ _

theorem checkFn_leads (op : Token) (isGlobal : Bool) :
    ∀ fs : List Form, Leads R (checkFn op isGlobal fs)
  | [name, params, body] =>
    leads_bind hR (leads_fnHead hR.refl hR.trans op isGlobal (some name) params) fun h ↦
      leads_fn hR op h body.check_leads
  | [params, body] => by
    cases isGlobal with
    | true => exact leads_fail hR _ _
    | false =>
      exact leads_bind hR (leads_fnHead hR.refl hR.trans op false none params) fun h ↦
        leads_fn hR op h body.check_leads
  | [] | [_] | _ :: _ :: _ :: _ :: _ => leads_fail hR _ _

theorem checkLet_leads (op : Token) : ∀ fs : List Form, Leads R (checkLet op fs)
  | [.atom _ _, _] | [.group .list _ _, _] => leads_fail hR _ _
  | [.group .vector pairs _, body] => by
    rw [checkLet]
    split
    · exact leads_nested hR (leads_bind hR (checkPairs_leads op pairs) fun _ ↦
        leads_bind hR body.check_leads fun _ ↦ leads_pure hR _)
    · exact leads_fail hR _ _
  | [] | [_] | _ :: _ :: _ :: _ => leads_fail hR _ _

theorem checkPairs_leads (op : Token) : ∀ fs : List Form, Leads R (checkPairs op fs)
  | [] => leads_pure hR _
  | [_] => leads_fail hR _ _
  | name :: value :: rest => by
    rw [checkPairs]
    split
    · exact leads_fail hR _ _
    · exact leads_bind hR value.check_leads fun _ ↦ leads_bind hR (leads_define hR _ _) fun _ ↦
        leads_bind hR (checkPairs_leads op rest) fun _ ↦ leads_pure hR _

end

end

/-! ## Checkers that are reached -/

namespace Checker

/-- A checker that some forms were checked with, whatever came of them. -/
inductive Reached : Checker → Prop
  | start : Reached .start
  | check {c} (f : Form) (h : Reached c) : Reached (f.check.outcome c).2

/-- Whether two checkers have the same frames open, whatever is bound in them. -/
def SameFrames (c c' : Checker) : Prop :=
  c'.scopes.current = c.scopes.current ∧
    c'.scopes.frames.map Frame.parent = c.scopes.frames.map Frame.parent

variable {c c' : Checker}

theorem sameFrames_stepClosed : StepClosed SameFrames where
  refl _ := ⟨rfl, rfl⟩
  trans _ _ _ h h' := ⟨h'.1.trans h.1, h'.2.trans h.2⟩
  fresh _ _ := ⟨rfl, rfl⟩
  narrow _ _ _ _ _ _ := ⟨rfl, rfl⟩
  freeze _ _ := ⟨rfl, rfl⟩
  define c scope x t := by
    refine ⟨rfl, List.ext_getElem? fun i ↦ ?_⟩
    simp only [Scopes.defineIn, List.getElem?_map, List.getElem?_modify]
    cases c.scopes.frames[i]? with
    | none => rfl
    | some f => by_cases hi : scope = i <;> simp [hi, Frame.define]
  nested c c' h := by
    -- the frame of the construct is the last one
    obtain ⟨hcurrent, hparents⟩ := h
    refine ⟨rfl, ?_⟩
    simp only [Scopes.exit, List.map_take, hparents, hcurrent]
    simp [Scopes.enter, Scopes.enterFrom]

/-- Well-formedness is a matter of the frames alone. -/
theorem SameFrames.wellFormed (h : SameFrames c c') (hc : c.scopes.WellFormed) :
    c'.scopes.WellFormed := by
  obtain ⟨hcurrent, hparents⟩ := h
  have hlength : c'.scopes.frames.length = c.scopes.frames.length := by
    simpa using congrArg List.length hparents
  have hframe : ∀ (i : Nat) f', c'.scopes.frames[i]? = some f' →
      ∃ f, c.scopes.frames[i]? = some f ∧ f'.parent = f.parent := by
    intro i f' hf'
    have hi := congrArg (·[i]?) hparents
    simp only [List.getElem?_map, hf', Option.map_some] at hi
    obtain ⟨f, hf, hparent⟩ := Option.map_eq_some_iff.mp hi.symm
    exact ⟨f, hf, hparent.symm⟩
  constructor
  · rw [hcurrent, hlength]
    exact hc.current_lt
  · intro f' hf'
    obtain ⟨f, hf, hparent⟩ := hframe 0 f' hf'
    rw [hparent, hc.parent_zero f hf]
  · intro i f' hf'
    obtain ⟨f, hf, hparent⟩ := hframe (i + 1) f' hf'
    rw [hparent]
    exact hc.parent_succ i f hf

/-- Every checker that is reached has well-formed scopes. -/
theorem Reached.wellFormed (h : c.Reached) : c.scopes.WellFormed := by
  induction h with
  | start => exact wellFormed_start
  | check f _ ih => exact (f.check_leads sameFrames_stepClosed _).wellFormed ih

end Checker

end TaggedLisp
