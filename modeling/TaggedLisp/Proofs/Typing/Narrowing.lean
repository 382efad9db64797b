import TaggedLisp.Proofs.Typing.Stability

/-!
# Every narrowing is granted

Narrowing can be refused in two ways: the types clash, or the placeholder to be filled is frozen.
Checking asks for a narrowing in two places, where an argument is still open and where something
open is called for the first time, and looks at the placeholder before it asks. `Form.actions` lists
what checking a form does with the table of types, in order and up to the fault with which it may
end; a narrowing stands in the list wherever one is asked for, granted or not.
`narrowings_granted` says that none is refused, whatever forms were checked before and whatever came
of them, so no form is ever refused because a type is frozen.

Between the test and the narrowing the table changes in one place only: a call of something open
makes the placeholder for its result first. That does not move the end of any chain
(`granted_inference`).
-/

namespace TaggedLisp

namespace TypeTable

variable {T : TypeTable} {t c : Ty} {v : Nat} {as bs : List TableAction}

/-! ## Narrowings that are granted -/

/-- Whether each narrowing of a run is granted when its turn comes. -/
def Grants (T : TypeTable) (as : List TableAction) : Prop :=
  ∀ i actual constraint, as[i]? = some (.narrow actual constraint) →
    ∃ t T', (T.run (as.take i)).narrow actual constraint = .ok (t, T')

theorem Grants.nil : T.Grants [] := fun _ _ _ h ↦ nomatch h

theorem Grants.append (h : T.Grants as) (h' : (T.run as).Grants bs) : T.Grants (as ++ bs) := by
  intro i actual constraint hi
  rcases Nat.lt_or_ge i as.length with hlt | hge
  · rw [List.getElem?_append_left hlt] at hi
    rw [List.take_append_of_le_length (Nat.le_of_lt hlt)]
    exact h i actual constraint hi
  · rw [List.getElem?_append_right hge] at hi
    rw [List.take_append, List.take_of_length_le hge, run_append]
    exact h' _ actual constraint hi

theorem Grants.fresh (name : String) : T.Grants [.fresh name] := by
  rintro (_ | i) actual constraint hi <;> cases hi

theorem Grants.freeze (t : Ty) : T.Grants [.freeze t] := by
  rintro (_ | i) actual constraint hi <;> cases hi

theorem Grants.narrow {T' : TypeTable} {t' : Ty} (h : T.narrow t c = .ok (t', T')) :
    T.Grants [.narrow t c] := by
  rintro (_ | i) actual constraint hi
  · cases hi
    exact ⟨t', T', h⟩
  · cases hi

/-- What is open at the end of its chain is narrowed to anything that it agrees with. -/
theorem exists_narrow (hagree : T.satisfies t c = true) (hv : T.resolve t = .var v)
    (hopen : T.isNarrowable v = true) : ∃ t' T', T.narrow t c = .ok (t', T') := by
  rw [narrow]
  split
  · exact ⟨_, _, rfl⟩
  · simp only [hagree, openVar?_eq_some.mpr hv, hopen, Bool.not_true, Bool.false_eq_true, if_false,
      if_true]
    split <;> exact ⟨_, _, rfl⟩

/-- Something open is narrowed to any function type, also when a placeholder was made since. -/
theorem ChainsEnd.granted_inference (h : T.ChainsEnd) (hv : T.resolve t = .var v)
    (hopen : T.isNarrowable v = true) (name : String) (params : List Ty) (rest : Option Ty)
    (ret : Ty) :
    ∃ t' T', (T.fresh name).2.narrow t (.fn params rest ret) = .ok (t', T') := by
  have hends : (T.fresh name).2.ChainsEnd := h.congr (resolved?_fresh T name)
  have hv' : (T.fresh name).2.resolve t = .var v := by
    refine (extends_fresh T name).resolve_eq_var h hv ?_
    rw [resolved?_fresh, h.ends_resolve t v hv]
  refine exists_narrow (hends.satisfies_of_loose_left ?_ _) hv' ?_
  · rw [hv']
    rfl
  · rw [isNarrowable_fresh, if_neg (Nat.ne_of_lt (lt_size_of_isNarrowable hopen))]
    exact hopen

end TypeTable

/-! ## What checking does with the table -/

/-- What a step of checking does with the table, by the state in which it starts. -/
abbrev Check.Trace := Checker → List TableAction

namespace Check

variable {α β : Type}

/-- The table is left alone. -/
def Trace.none : Trace := fun _ ↦ []

/-- What `p` does with the table and then, unless it stops with a fault, what `next` does. -/
def Trace.andThen (p : Check α) (first : Trace) (next : α → Trace) : Trace := fun c ↦
  first c ++
    match p.outcome c with
    | (.ok a, c') => next a c'
    | (.error _, _) => []

/-- An argument that is still open is narrowed. -/
def constrainActions (arg : Expr) (expected : Ty) : Trace := fun c ↦
  if c.types.satisfies arg.ty expected then
    match c.types.openVar? arg.ty with
    | some v => if c.types.isNarrowable v then [.narrow arg.ty expected] else []
    | none => []
  else []

/-- The arguments of a call from `position` on, one after another. -/
def constrainAllActions (callee : String) (line : Nat) (rest : Option Ty) :
    (position : Nat) → List Expr → List Ty → Trace
  | _, [], _ => .none
  | i, arg :: args, [] =>
    .andThen (constrain callee line i arg (rest.getD .any))
      (constrainActions arg (rest.getD .any))
      fun _ ↦ constrainAllActions callee line rest (i + 1) args []
  | i, arg :: args, p :: params =>
    .andThen (constrain callee line i arg p) (constrainActions arg p)
      fun _ ↦ constrainAllActions callee line rest (i + 1) args params

/-- A call of something known narrows its arguments. A call of something open makes a placeholder
for the result and narrows what is called. -/
def signatureActions (name : String) (line : Nat) (callee : Expr) (args : List Expr) : Trace :=
  fun c ↦
    match c.types.resolve callee.ty with
    | .fn params rest _ =>
      let arity := match rest with
        | some _ => Arity.atLeast params.length
        | none => Arity.exactly params.length
      if arity.admits args.length then constrainAllActions name line rest 0 args params c else []
    | .var v =>
      if c.types.isNarrowable v then
        [.fresh (name ++ "-ret"),
          .narrow callee.ty (.fn (args.map Expr.ty) none (c.types.fresh (name ++ "-ret")).1)]
      else []
    | .base _ => []

/-- A placeholder for each parameter, and one for the result if the function has a name. -/
def headActions (h : FnHead) : List TableAction :=
  (h.params ++ (h.name.map (· ++ "-ret")).toList).map .fresh

/-- The head, the body, and then the type of the body is frozen. -/
def fnActions (h : FnHead) (body : Check Expr) (bodyActions : Trace) : Trace := fun c ↦
  Trace.andThen (bindHead h) (fun _ ↦ headActions h)
    (fun _ ↦ .andThen body bodyActions fun e _ ↦ [.freeze e.ty])
    { c with scopes := c.scopes.enter }

end Check

open Check (Trace) in
mutual

/-- What checking a form does with the table. -/
def Form.actions : Form → Trace
  | .group .list (op :: args) _ =>
    match op with
    | .atom (.symbol name) opToken =>
      match name with
      | "quote" => .none
      | "if" => actionsCond args
      | "fn" => actionsFn opToken false args
      | "defn" => actionsFn opToken true args
      | "let" => actionsLet opToken args
      | "do" => actionsAll args
      | _ =>
        .andThen op.check .none fun callee ↦ .andThen (checkAll args) (actionsAll args) fun args ↦
          Check.signatureActions (op.symbol?.getD "expression") op.line callee args
    | .group .list _ _ =>
      .andThen op.check op.actions fun callee ↦ .andThen (checkAll args) (actionsAll args)
        fun args ↦ Check.signatureActions (op.symbol?.getD "expression") op.line callee args
    | _ => .none
  | _ => .none

/-- Several forms in order. -/
def actionsAll : List Form → Trace
  | [] => .none
  | f :: fs => .andThen f.check f.actions fun _ ↦ actionsAll fs

/-- The parts of a conditional. -/
def actionsCond : List Form → Trace
  | [test, yes] => .andThen test.check test.actions fun _ ↦ yes.actions
  | [test, yes, no] =>
    .andThen test.check test.actions fun _ ↦ .andThen yes.check yes.actions fun _ ↦ no.actions
  | _ => .none

/-- The parts of a function. -/
def actionsFn (op : Token) (isGlobal : Bool) : List Form → Trace
  | [name, params, body] =>
    .andThen (Check.fnHead op isGlobal (some name) params) .none fun h ↦
      Check.fnActions h body.check body.actions
  | [params, body] =>
    if isGlobal then .none
    else .andThen (Check.fnHead op isGlobal none params) .none fun h ↦
      Check.fnActions h body.check body.actions
  | _ => .none

/-- The parts of a `let`. -/
def actionsLet (op : Token) : List Form → Trace
  | [bindings, body] =>
    match bindings with
    | .group .vector pairs _ =>
      if pairs.length % 2 = 0 then fun c ↦
        Trace.andThen (checkPairs op pairs) (actionsPairs op pairs) (fun _ ↦ body.actions)
          { c with scopes := c.scopes.enter }
      else .none
    | _ => .none
  | _ => .none

/-- Names and values in turn. -/
def actionsPairs (op : Token) : List Form → Trace
  | name :: value :: rest =>
    match name.symbol? with
    | none => .none
    | some name =>
      .andThen value.check value.actions fun value ↦
        .andThen (Check.define name value.ty) .none fun _ ↦ actionsPairs op rest
  | _ => .none

end

namespace Check

variable {α β : Type} {p : Check α} {f : α → Check β} {first : Trace} {next : α → Trace}

/-! ## Traces that are right -/

/-- Checking `p` from `c` does `as` with the table, is granted every narrowing, and does not end
with a frozen type. -/
structure Traced (p : Check α) (c : Checker) (as : List TableAction) : Prop where
  types : (p.outcome c).2.types = c.types.run as
  grants : c.types.Grants as
  unfrozen : ∀ actual expected line, (p.outcome c).1 ≠ .error ⟨.frozenType actual expected, line⟩

/-- The trace is right wherever `p` starts, as long as all chains end there. -/
def Traces (p : Check α) (trace : Trace) : Prop :=
  ∀ c : Checker, c.types.ChainsEnd → Traced p c (trace c)

/-- The table is left alone, and there is no fault about a frozen type. -/
abbrev Still (p : Check α) : Prop := Traces p .none

theorem Traced.bind {c c' : Checker} {as bs : List TableAction} {a : α} (hp : Traced p c as)
    (hs : p.outcome c = (.ok a, c')) (hf : Traced (f a) c' bs) : Traced (p >>= f) c (as ++ bs) := by
  obtain ⟨htypes, hgrants, -⟩ := hp
  rw [hs] at htypes
  refine ⟨?_, hgrants.append (htypes ▸ hf.grants), ?_⟩ <;> rw [Pass.outcome_bind, hs]
  · exact hf.types.trans (htypes ▸ (TypeTable.run_append _ as bs).symm)
  · exact hf.unfrozen

theorem Traced.bind_error {c c' : Checker} {as : List TableAction} {fault : Fault}
    (hp : Traced p c as) (hs : p.outcome c = (.error fault, c')) : Traced (p >>= f) c as := by
  obtain ⟨htypes, hgrants, hunfrozen⟩ := hp
  rw [hs] at htypes hunfrozen
  refine ⟨?_, hgrants, ?_⟩ <;> rw [Pass.outcome_bind, hs]
  · exact htypes
  · intro actual expected line h
    exact hunfrozen actual expected line (congrArg Except.error (Except.error.inj h))

/-- Handing on a result in another form adds nothing. -/
theorem Traced.map {c : Checker} {as : List TableAction} (hp : Traced p c as) (g : α → β) :
    Traced (p >>= fun a ↦ pure (g a)) c as := by
  rcases hs : p.outcome c with ⟨fault | a, c'⟩
  · exact hp.bind_error hs
  · rw [← List.append_nil as]
    exact hp.bind hs ⟨rfl, .nil, nofun⟩

theorem Traced.chainsEnd {c c' : Checker} {as : List TableAction} {r : Except Fault α}
    (hp : Traced p c as) (hc : c.types.ChainsEnd) (hs : p.outcome c = (r, c')) :
    c'.types.ChainsEnd := by
  have htypes := hp.types
  rw [hs] at htypes
  exact htypes ▸ (hc.run as).1

theorem Traces.andThen (hp : Traces p first) (hf : ∀ a, Traces (f a) (next a)) :
    Traces (p >>= f) (.andThen p first next) := by
  intro c hc
  rw [Trace.andThen]
  rcases hs : p.outcome c with ⟨fault | a, c'⟩
  · rw [List.append_nil]
    exact (hp c hc).bind_error hs
  · exact (hp c hc).bind hs (hf a c' ((hp c hc).chainsEnd hc hs))

/-- Nor does a last step that leaves the table alone. -/
theorem Traces.followed (hp : Traces p first) (hf : ∀ a, Still (f a)) :
    Traces (p >>= f) first := by
  intro c hc
  rcases hs : p.outcome c with ⟨fault | a, c'⟩
  · exact (hp c hc).bind_error hs
  · rw [← List.append_nil (first c)]
    exact (hp c hc).bind hs (hf a c' ((hp c hc).chainsEnd hc hs))

theorem Still.of_outcome (h : ∀ c, (p.outcome c).2.types = c.types ∧ ∀ actual expected line,
    (p.outcome c).1 ≠ .error ⟨.frozenType actual expected, line⟩) : Still p := fun c _ ↦
  ⟨(h c).1, .nil, (h c).2⟩

theorem still_pure (a : α) : Still (pure a : Check α) := .of_outcome fun _ ↦ ⟨rfl, nofun⟩

theorem still_fail {cause : Cause} (h : ∀ actual expected, cause ≠ .frozenType actual expected)
    (line : Nat) : Still (Pass.fail cause line : Check α) :=
  .of_outcome fun _ ↦ ⟨rfl, fun actual expected _ hfault ↦
    h actual expected (congrArg Fault.cause (Except.error.inj hfault))⟩

theorem still_mismatch (meeting : Meeting) (expected actual : Ty) (line : Nat) :
    Still (mismatch meeting expected actual line : Check α) := .of_outcome fun _ ↦ ⟨rfl, nofun⟩

theorem still_define (x : String) (t : Ty) : Still (define x t) := .of_outcome fun _ ↦ ⟨rfl, nofun⟩

theorem still_defineGlobal (x : String) (t : Ty) : Still (defineGlobal x t) :=
  .of_outcome fun _ ↦ ⟨rfl, nofun⟩

/-- A step that looks at the state first. -/
theorem Traced.look {g : Checker → Check α} {c : Checker} {as : List TableAction}
    (h : Traced (g c) c as) : Traced (get >>= g) c as := ⟨h.types, h.grants, h.unfrozen⟩

/-- A step that asks whether two types agree. -/
theorem Traced.ask {g : Bool → Check α} {c : Checker} {actual expected : Ty}
    {as : List TableAction} (h : Traced (g (c.types.satisfies actual expected)) c as) :
    Traced (satisfies actual expected >>= g) c as := ⟨h.types, h.grants, h.unfrozen⟩

/-! ## Steps -/

theorem traces_fresh (name : String) : Traces (fresh name) fun _ ↦ [.fresh name] := fun _ _ ↦
  ⟨rfl, .fresh name, nofun⟩

theorem traces_freeze (t : Ty) : Traces (freeze t) fun _ ↦ [.freeze t] := fun _ _ ↦
  ⟨rfl, .freeze t, nofun⟩

theorem traced_narrow {c : Checker} {actual expected : Ty}
    (h : ∃ t T, c.types.narrow actual expected = .ok (t, T)) (meeting : Meeting) (line : Nat) :
    Traced (narrow actual expected meeting line) c [.narrow actual expected] := by
  obtain ⟨t, T, h⟩ := h
  have hs : (narrow actual expected meeting line).outcome c = (.ok ⟨⟩, { c with types := T }) := by
    rw [narrow, Pass.outcome_bind, Pass.outcome_get]
    simp only [h, Pass.outcome_set]
  refine ⟨?_, .narrow h, ?_⟩ <;> rw [hs]
  · simp only [TypeTable.run, List.foldl_cons, List.foldl_nil, TypeTable.perform, h]
  · simp

theorem traces_nested (h : Traces p first) :
    Traces (nested p) fun c ↦ first { c with scopes := c.scopes.enter } := fun c hc ↦
  have hinner := h { c with scopes := c.scopes.enter } hc
  ⟨hinner.types, hinner.grants, hinner.unfrozen⟩

/-! ## Parts of forms -/

theorem still_atom (a : Atom) (t : Token) : Still (atom a t) := by
  cases a with
  | nil | boolean | string => exact still_pure _
  | number n =>
    rw [atom]
    split
    · exact still_pure _
    · exact still_fail (by simp) _
  | symbol name =>
    refine fun c hc ↦ .look ?_
    split
    · exact still_fail (by simp) _ c hc
    · exact still_pure _ c hc

theorem still_cond (op : Token) (test yes no : Expr) : Still (cond op test yes no) := by
  refine fun c hc ↦ .ask ?_
  split
  · exact still_pure _ c hc
  · exact still_mismatch _ _ _ _ c hc

/-- An argument is narrowed if it agrees and is open, and then nothing speaks against it. -/
theorem traces_constrain (callee : String) (line position : Nat) (arg : Expr) (expected : Ty) :
    Traces (constrain callee line position arg expected) (constrainActions arg expected) := by
  refine fun c hc ↦ .ask ?_
  rw [constrainActions]
  split
  · next hagree =>
    refine .look ?_
    dsimp only
    cases hv : c.types.openVar? arg.ty with
    | none => exact still_pure _ c hc
    | some v =>
      dsimp only
      split
      · next hopen =>
        exact traced_narrow
          (TypeTable.exists_narrow hagree (TypeTable.openVar?_eq_some.mp hv) hopen) _ _
      · exact still_pure _ c hc
  · exact still_mismatch _ _ _ _ c hc

theorem traces_constrainAll (callee : String) (line : Nat) (rest : Option Ty) (position : Nat)
    (args : List Expr) (params : List Ty) :
    Traces (constrainAll callee line rest position args params)
      (constrainAllActions callee line rest position args params) := by
  induction args generalizing position params with
  | nil => exact still_pure _
  | cons arg args ih =>
    cases params with
    | nil => exact (traces_constrain _ _ _ _ _).andThen fun _ ↦ ih _ _
    | cons p params => exact (traces_constrain _ _ _ _ _).andThen fun _ ↦ ih _ _

theorem traces_signature (name : String) (line : Nat) (callee : Expr) (args : List Expr) :
    Traces (signature name line callee args) (signatureActions name line callee args) := by
  refine fun c hc ↦ .look ?_
  rw [signatureActions]
  dsimp only
  cases hcallee : c.types.resolve callee.ty with
  | fn params rest ret =>
    have hfits := (traces_constrainAll name line rest 0 args params).followed
      fun _ ↦ still_pure (ret, rest.map fun _ ↦ params.length)
    cases rest with
    | none | some _ =>
      dsimp only
      split
      · exact hfits c hc
      · exact still_fail (by simp) _ c hc
  | var v =>
    dsimp only
    split
    · next hopen =>
      obtain ⟨t, T, hT⟩ := hc.granted_inference hcallee hopen (name ++ "-ret") (args.map Expr.ty)
        none (c.types.fresh (name ++ "-ret")).1
      have hnarrow := traced_narrow (c := { c with types := (c.types.fresh (name ++ "-ret")).2 })
        ⟨t, T, hT⟩ (.operator name) line
      exact (traces_fresh _ c hc).bind rfl (hnarrow.map _)
    · exact still_pure _ c hc
  | base b =>
    cases b with
    | any => exact still_pure _ c hc
    | _ => exact ⟨rfl, .nil, nofun⟩

theorem traces_call (op : Form) (callee : Expr) (args : List Expr) : Traces (call op callee args)
    (signatureActions (op.symbol?.getD "expression") op.line callee args) :=
  (traces_signature _ _ _ _).followed fun _ ↦ still_pure _

/-! ## Functions -/

theorem still_paramNames (op : Token) (f : Form) : Still (paramNames op f) := by
  cases f with
  | atom a t => exact still_fail (by simp) _
  | group shape elems t =>
    cases shape with
    | list => exact still_fail (by simp) _
    | vector =>
      rw [paramNames]
      split
      · exact still_pure _
      · exact still_fail (by simp) _

theorem still_splitRest (op : Token) (names : List String) : Still (splitRest op names) := by
  rw [splitRest]
  split
  · exact still_pure _
  · split
    · exact still_fail (by simp) _
    · exact still_pure _
  · exact still_fail (by simp) _

theorem still_fnHead (op : Token) (isGlobal : Bool) (name : Option Form) (params : Form) :
    Still (fnHead op isGlobal name params) := by
  have hparts (own : Option String) : Still (headOf op isGlobal params own) :=
    (still_paramNames op params).followed fun names ↦
      (still_splitRest op names).followed fun _ ↦ still_pure _
  cases name with
  | none =>
    refine fun c hc ↦ .look ?_
    dsimp only
    split
    · exact still_fail (by simp) _ c hc
    · exact hparts none c hc
  | some form =>
    refine fun c hc ↦ .look ?_
    dsimp only
    split
    · exact still_fail (by simp) _ c hc
    · split
      · exact hparts _ c hc
      · exact still_fail (by simp) _ c hc

/-- The step comes to its end and makes a placeholder for each name. -/
def Makes (p : Check α) (names : List String) : Prop :=
  ∀ c, ∃ a c', p.outcome c = (.ok a, c') ∧ c'.types = c.types.run (names.map .fresh)

theorem makes_pure (a : α) : Makes (pure a : Check α) [] := fun c ↦ ⟨a, c, rfl, rfl⟩

theorem makes_define (x : String) (t : Ty) : Makes (define x t) [] := fun _ ↦ ⟨_, _, rfl, rfl⟩

theorem makes_fresh (name : String) : Makes (fresh name) [name] := fun _ ↦ ⟨_, _, rfl, rfl⟩

theorem Makes.bind {names names' : List String} (hp : Makes p names)
    (hf : ∀ a, Makes (f a) names') : Makes (p >>= f) (names ++ names') := by
  intro c
  obtain ⟨a, c', hs, htypes⟩ := hp c
  obtain ⟨b, c'', hs', htypes'⟩ := hf a c'
  refine ⟨b, c'', Pass.outcome_bind_ok.mpr ⟨a, c', hs, hs'⟩, ?_⟩
  rw [htypes', htypes, List.map_append, TypeTable.run_append]

theorem Makes.traces {names : List String} (h : Makes p names) :
    Traces p fun _ ↦ names.map .fresh := by
  intro c _
  obtain ⟨a, c', hs, htypes⟩ := h c
  refine ⟨?_, fun i actual constraint hi ↦ ?_, ?_⟩
  · rw [hs, htypes]
  · obtain ⟨name, -, hname⟩ := List.mem_map.mp (List.mem_of_getElem? hi)
    cases hname
  · rw [hs]
    exact nofun

theorem makes_bindParams (names : List String) : Makes (bindParams names) names := by
  induction names with
  | nil => exact makes_pure _
  | cons name names ih =>
    have hrest (ty : Ty) : Makes (do
        define name ty
        return ty :: (← bindParams names) : Check (List Ty)) names := by
      simpa using (makes_define name ty).bind fun _ ↦ ih.bind fun _ ↦ makes_pure _
    exact (makes_fresh name).bind hrest

theorem makes_bindHead (h : FnHead) :
    Makes (bindHead h) (h.params ++ (h.name.map (· ++ "-ret")).toList) := by
  obtain ⟨name, names, rest, isGlobal⟩ := h
  refine (makes_bindParams names).bind fun params ↦ ?_
  have hname (x : String) : Makes (do
      let ret ← fresh (x ++ "-ret")
      define x (fnTy ⟨some x, names, rest, isGlobal⟩ params ret)
      return params : Check (List Ty)) [x ++ "-ret"] :=
    (makes_fresh _).bind fun _ ↦ (makes_define _ _).bind fun _ ↦ makes_pure _
  rcases rest with _ | rest <;> rcases name with _ | x
  · exact makes_pure _
  · exact hname x
  · exact (makes_define rest .list).bind fun _ ↦ makes_pure _
  · exact (makes_define rest .list).bind fun _ ↦ hname x

theorem traces_fn (op : Token) (h : FnHead) {body : Check Expr} {bodyActions : Trace}
    (hbody : Traces body bodyActions) : Traces (fn op h body) (fnActions h body bodyActions) := by
  have hframe := (makes_bindHead h).traces.andThen fun params ↦ hbody.andThen fun e ↦
    (traces_freeze e.ty).followed fun _ ↦ still_pure (e, params)
  refine (traces_nested hframe).followed ?_
  rintro ⟨e, params⟩
  dsimp only
  split
  · exact (still_defineGlobal _ _).followed fun _ ↦ still_pure _
  · exact still_pure _

end Check

/-! ## Forms -/

open Check

mutual

theorem Form.checkDatum_still : ∀ f : Form, Still f.checkDatum
  | .atom a t => still_atom a t
  | .group _ elems _ => (checkData_still elems).followed fun _ ↦ still_pure _

theorem checkData_still : ∀ fs : List Form, Still (checkData fs)
  | [] => still_pure _
  | f :: fs =>
    f.checkDatum_still.followed fun _ ↦ (checkData_still fs).followed fun _ ↦ still_pure _

end

mutual

/-- What a form does with the table is granted, step by step. -/
theorem Form.check_traces : ∀ f : Form, Traces f.check f.actions
  | .atom a t => still_atom a t
  | .group .vector elems _ => (checkData_still elems).followed fun _ ↦ still_pure _
  | .group .list [] _ => still_pure _
  | .group .list (.group .list elems t' :: args) t => by
    rw [Form.check]
    exact (Form.check_traces (.group .list elems t')).andThen fun _ ↦
      (checkAll_traces args).andThen fun _ ↦ traces_call _ _ _
  | .group .list (.group .vector _ _ :: _) _
  | .group .list (.atom .nil _ :: _) _ | .group .list (.atom (.boolean _) _ :: _) _
  | .group .list (.atom (.number _) _ :: _) _ | .group .list (.atom (.string _) _ :: _) _ =>
    still_fail (by simp) _
  | .group .list (.atom (.symbol name) opToken :: args) t => by
    unfold Form.check
    dsimp only
    split
    · rw [Form.actions]
      split
      · next datum => exact datum.checkDatum_still
      · exact still_fail (by simp) _
    · rw [Form.actions]
      exact checkCond_traces opToken args
    · rw [Form.actions]
      exact checkFn_traces opToken false args
    · rw [Form.actions]
      exact checkFn_traces opToken true args
    · rw [Form.actions]
      exact checkLet_traces opToken args
    · rw [Form.actions]
      exact (checkAll_traces args).followed fun _ ↦ still_pure _
    · rw [Form.actions]
      · exact (still_atom _ _).andThen fun _ ↦ (checkAll_traces args).andThen fun _ ↦
          traces_call _ _ _
      -- the name is none of the special ones
      all_goals assumption

theorem checkAll_traces : ∀ fs : List Form, Traces (checkAll fs) (actionsAll fs)
  | [] => still_pure _
  | f :: fs => f.check_traces.andThen fun _ ↦ (checkAll_traces fs).followed fun _ ↦ still_pure _

theorem checkCond_traces (op : Token) : ∀ fs : List Form, Traces (checkCond op fs) (actionsCond fs)
  | [test, yes] => test.check_traces.andThen fun _ ↦ yes.check_traces.followed fun _ ↦
    still_cond _ _ _ _
  | [test, yes, no] => test.check_traces.andThen fun _ ↦ yes.check_traces.andThen fun _ ↦
    no.check_traces.followed fun _ ↦ still_cond _ _ _ _
  | [] | [_] | _ :: _ :: _ :: _ :: _ => still_fail (by simp) _

theorem checkFn_traces (op : Token) (isGlobal : Bool) :
    ∀ fs : List Form, Traces (checkFn op isGlobal fs) (actionsFn op isGlobal fs)
  | [name, params, body] =>
    (still_fnHead op isGlobal (some name) params).andThen fun h ↦ traces_fn op h body.check_traces
  | [params, body] => by
    cases isGlobal with
    | true => exact still_fail (by simp) _
    | false =>
      exact (still_fnHead op false none params).andThen fun h ↦ traces_fn op h body.check_traces
  | [] | [_] | _ :: _ :: _ :: _ :: _ => still_fail (by simp) _

theorem checkLet_traces (op : Token) : ∀ fs : List Form, Traces (checkLet op fs) (actionsLet op fs)
  | [.atom _ _, _] | [.group .list _ _, _] => still_fail (by simp) _
  | [.group .vector pairs _, body] => by
    rw [checkLet, actionsLet]
    split
    · exact traces_nested ((checkPairs_traces op pairs).andThen fun _ ↦
        body.check_traces.followed fun _ ↦ still_pure _)
    · exact still_fail (by simp) _
  | [] | [_] | _ :: _ :: _ :: _ => still_fail (by simp) _

theorem checkPairs_traces (op : Token) :
    ∀ fs : List Form, Traces (checkPairs op fs) (actionsPairs op fs)
  | [] => still_pure _
  | [_] => still_fail (by simp) _
  | name :: value :: rest => by
    rw [checkPairs, actionsPairs]
    cases name.symbol? with
    | none => exact still_fail (by simp) _
    | some name =>
      exact value.check_traces.andThen fun _ ↦ (still_define _ _).andThen fun _ ↦
        (checkPairs_traces op rest).followed fun _ ↦ still_pure _

end

/-- **No narrowing is refused.** Whatever forms were checked before, and whatever came of them,
checking one more does with the table what `Form.actions` lists; each narrowing in the list is
granted when its turn comes, and the form is not refused because a type is frozen. -/
theorem narrowings_granted (fs : List Form) (f : Form) :
    let c := Checker.start.after fs
    (f.check.outcome c).2.types = c.types.run (f.actions c) ∧
      (∀ i actual constraint, (f.actions c)[i]? = some (.narrow actual constraint) →
        ∃ t T, (c.types.run ((f.actions c).take i)).narrow actual constraint = .ok (t, T)) ∧
      ∀ actual expected line,
        (f.check.outcome c).1 ≠ .error ⟨.frozenType actual expected, line⟩ := by
  have htraced := f.check_traces _ (Checker.Reached.start.after fs).chainsEnd
  exact ⟨htraced.types, htraced.grants, htraced.unfrozen⟩

/-- The call in `(fn [x] (x x))` narrows `x`, once there is a placeholder for its result. -/
example : selfApplication.actions .start =
    [.fresh "x", .fresh "x-ret", .narrow (.var 0) (.fn [.var 0] none (.var 1)),
      .freeze (.var 1)] := rfl

end TaggedLisp
