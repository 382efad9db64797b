import TaggedLisp.Proofs.Steps

/-!
# What a pass leaves in the scopes

Whatever comes of a pass over a program, the frames that it opened are left again, and of all names
that it bound only those of global functions are left: the ones that were completed before it came
to its end or to a fault. `Completes` says which these are, by following the pass to them: each part
is come to in the state that the parts before it leave when they succeed.

The pass over forms is checked here, those over expressions in modules of their own. They have in
common that what a construct binds is gone when its frame is left (`Scopes.exit_define`), while
global names stay (`Scopes.exit_defineGlobals`).
-/

namespace TaggedLisp

/-! ## Scopes that are restored -/

namespace Scopes

variable {α β : Type}

/-- The same frames are open as before and the same one is current. Nothing was bound in them but
some of the names in the global frame. -/
structure Restored (names : String → Prop) (s s' : Scopes α) : Prop where
  current : s'.current = s.current
  length : s'.frames.length = s.frames.length
  others : ∀ i, i ≠ ScopeId.global → s'.frames[i]? = s.frames[i]?
  globalFrame : ∃ ds, s'.frames[ScopeId.global]? = s.frames[ScopeId.global]?.map
    (fun f ↦ { f with bindings := ds ++ f.bindings }) ∧ ∀ d ∈ ds, names d.1

/-- Some of the names were bound in the global frame, one after the other, to what `f` makes of
something. -/
def Gains (f : β → α) (names : String → Prop) (s s' : Scopes α) : Prop :=
  ∃ ds : List (String × β), s' = s.defineGlobals f ds ∧ ∀ d ∈ ds, names d.1

namespace Gains

variable {f : β → α} {names names' : String → Prop} {s s' s'' : Scopes α}

theorem of_eq (h : s' = s) : Gains f names s s' := ⟨[], h, List.forall_mem_nil _⟩

theorem trans (h : Gains f names s s') (h' : Gains f names s' s'') : Gains f names s s'' := by
  obtain ⟨ds, rfl, hds⟩ := h
  obtain ⟨ds', rfl, hds'⟩ := h'
  exact ⟨ds ++ ds', (defineGlobals_append ..).symm, List.forall_mem_append.mpr ⟨hds, hds'⟩⟩

theorem mono (h : Gains f names s s') (hnames : ∀ x, names x → names' x) :
    Gains f names' s s' := by
  obtain ⟨ds, hs, hds⟩ := h
  exact ⟨ds, hs, fun d hd ↦ hnames d.1 (hds d hd)⟩

/-- What was gained is kept when a frame is left. -/
theorem exit (h : Gains f names s s') (saved : ScopeId) :
    Gains f names (s.exit saved) (s'.exit saved) := by
  obtain ⟨ds, rfl, hds⟩ := h
  exact ⟨ds, exit_defineGlobals .., hds⟩

theorem define (s : Scopes α) {x : String} (hx : names x) (v : β) :
    Gains f names s (s.defineGlobal x (f v)) :=
  ⟨[(x, v)], rfl, List.forall_mem_singleton.mpr hx⟩

theorem restored (h : Gains f names s s') : Restored names s s' := by
  obtain ⟨ds, rfl, hds⟩ := h
  induction ds generalizing s with
  | nil =>
    exact ⟨rfl, rfl, fun _ _ ↦ rfl, [], by simp [defineGlobals], List.forall_mem_nil _⟩
  | cons d ds ih =>
    obtain ⟨hd, hds⟩ := List.forall_mem_cons.mp hds
    obtain ⟨hcurrent, hlength, hothers, ds', hglobal, hds'⟩ :=
      ih (s := s.defineGlobal d.1 (f d.2)) hds
    -- the name that is bound first stands behind the others
    refine ⟨hcurrent, hlength.trans (length_frames_defineIn ..), fun i hi ↦ ?_,
      ds' ++ [(d.1, f d.2)], ?_, ?_⟩
    · refine (hothers i hi).trans ?_
      simp [defineGlobal, defineIn, Ne.symm hi]
    · refine hglobal.trans ?_
      simp [defineGlobal, defineIn, Frame.define, Function.comp_def]
    · exact List.forall_mem_append.mpr ⟨hds', List.forall_mem_singleton.mpr hd⟩

/-- Other names stand for what they stood for. -/
theorem lookup_eq (h : Gains f names s s') (hs : s.WellFormed) {x : String} (hx : ¬ names x) :
    s'.lookup x = s.lookup x := by
  obtain ⟨ds, rfl, hds⟩ := h
  have hnew : x ∉ ds.map Prod.fst := fun hmem ↦ by
    obtain ⟨d, hd, rfl⟩ := List.mem_map.mp hmem
    exact hx (hds d hd)
  rw [(hs.defineGlobals f ds).lookup_eq, hs.lookup_eq, locals_defineGlobals,
    hs.lookup_globals_defineGlobals f ds hnew]

end Gains

end Scopes

/-! ## Passes from one state -/

namespace Pass

variable {σ τ α : Type}

/-- The pass leads from `s` to a state that is related to it, whatever comes of it. -/
def LeadsFrom (R : σ → σ → Prop) (s : σ) (p : Pass σ α) : Prop := R s (p.outcome s).2

namespace LeadsFrom

variable {R : σ → σ → Prop} {s t : σ} {p : Pass σ α} {f : α → Pass σ τ}

/-- A second step is asked for only where the first one ends. -/
theorem bind (hR : ∀ s t u, R s t → R t u → R s u) (hp : LeadsFrom R s p)
    (hf : ∀ a t, p.outcome s = (.ok a, t) → LeadsFrom R t (f a)) : LeadsFrom R s (p >>= f) := by
  rw [LeadsFrom, outcome_bind]
  rw [LeadsFrom] at hp
  rcases hs : p.outcome s with ⟨_ | a, t⟩ <;> rw [hs] at hp
  · exact hp
  · exact hR _ _ _ hp (hf a t hs)

theorem of_outcome {r : Except Fault α} (hp : p.outcome s = (r, t)) (h : LeadsFrom R s p) :
    R s t := by
  rw [LeadsFrom, hp] at h
  exact h

end LeadsFrom

end Pass

/-! ## Global functions that are completed -/

section

variable {σ τ ι : Type} (run : ι → Pass σ τ)

/-- While the items are run in turn, each with a step of its own after it, one of them is come to,
in the state that those before it leave when they succeed. -/
inductive Turn : σ → List (ι × (τ → Pass σ Unit)) → σ → ι → Prop where
  | here {s : σ} {i : ι} {k : τ → Pass σ Unit} {rest : List (ι × (τ → Pass σ Unit))} :
      Turn s ((i, k) :: rest) s i
  | later {s t u s' : σ} {i j : ι} {a : τ} {k : τ → Pass σ Unit}
      {rest : List (ι × (τ → Pass σ Unit))} (hi : (run i).outcome s = (.ok a, t))
      (hk : (k a).outcome t = (.ok (), u)) (h : Turn u rest s' j) : Turn s ((i, k) :: rest) s' j

/-- What is come to stands in the row. -/
theorem Turn.exists_mem {s s' : σ} {j : ι} {row : List (ι × (τ → Pass σ Unit))}
    (h : Turn run s row s' j) : ∃ k, (j, k) ∈ row := by
  induction h with
  | here => exact ⟨_, List.mem_cons_self⟩
  | later _ _ _ ih => exact ih.imp fun _ ↦ List.mem_cons_of_mem _

/-- While an item is run, a definition of a global name is completed: the item is one and is run
with success, or one is completed in a part of it that is come to. `opens` says in which states and
in which order the parts of an item are run. -/
inductive Completes (defines : ι → Option String)
    (opens : σ → ι → σ → List (ι × (τ → Pass σ Unit)) → Prop) : σ → ι → String → Prop where
  | here {s s' : σ} {i : ι} {x : String} {a : τ} (hx : defines i = some x)
      (h : (run i).outcome s = (.ok a, s')) : Completes defines opens s i x
  | inside {s t s' : σ} {i j : ι} {x : String} {row : List (ι × (τ → Pass σ Unit))}
      (hopen : opens s i t row) (hturn : Turn run t row s' j)
      (h : Completes defines opens s' j x) : Completes defines opens s i x

end

/-- What follows an item in a row when nothing does. -/
abbrev Pass.done {σ τ : Type} : τ → Pass σ Unit := fun _ ↦ pure ()

/-- Items one right after the other. -/
def inTurn {σ τ ι : Type} (items : List ι) : List (ι × (τ → Pass σ Unit)) :=
  items.map (·, Pass.done)

theorem map_fst_inTurn {σ τ ι : Type} (items : List ι) :
    (inTurn items : List (ι × (τ → Pass σ Unit))).map Prod.fst = items := by
  simp [inTurn, Function.comp_def]

/-- The name that a function gets in the global frame. -/
def Expr.defines : Expr → Option String
  | .fn head _ _ => if head.isGlobal then some (head.name.getD "defn") else none
  | _ => none

/-! ## Checking forms -/

/-- The name that a function gets in the global frame. -/
def Form.defines : Form → Option String
  | .group .list [.atom (.symbol "defn") _, .atom (.symbol x) _, _, _] _ => some x
  | _ => none

/-- The forms that are checked in the frame of the form itself, in order. -/
def Form.parts : Form → List Form
  | .group .list (op :: args) _ =>
    match op with
    | .atom (.symbol name) _ =>
      match name with
      | "if" => if args.length = 2 ∨ args.length = 3 then args else []
      | "do" => args
      | "quote" | "fn" | "defn" | "let" => []
      | _ => op :: args
    | .group .list _ _ => op :: args
    | _ => []
  | _ => []

/-- The values of a `let` in order, each followed by binding its name. -/
def pairsInTurn : List Form → List (Form × (Expr → Check Unit))
  | name :: value :: rest =>
    match name.symbol? with
    | none => []
    | some name => (value, fun e ↦ Check.define name e.ty) :: pairsInTurn rest
  | _ => []

/-- In which state the parts of a form are checked, and in which order. Those of a `let` or a
function are checked in a frame of their own. -/
inductive Form.Opens : Checker → Form → Checker → List (Form × (Expr → Check Unit)) → Prop where
  | parts {c : Checker} {f : Form} : Opens c f c (inTurn f.parts)
  | values {c : Checker} {op t pt : Token} {pairs : List Form} {body : Form}
      (heven : pairs.length % 2 = 0) :
      Opens c (.group .list [.atom (.symbol "let") op, .group .vector pairs pt, body] t)
        { c with scopes := c.scopes.enter } (pairsInTurn pairs)
  | letBody {c c' : Checker} {op t pt : Token} {pairs : List Form} {body : Form}
      {bs : List (String × Expr)} (heven : pairs.length % 2 = 0)
      (hpairs : (checkPairs op pairs).outcome { c with scopes := c.scopes.enter } = (.ok bs, c')) :
      Opens c (.group .list [.atom (.symbol "let") op, .group .vector pairs pt, body] t) c'
        (inTurn [body])
  | fnBody {c c₁ c' : Checker} {op t : Token} {isGlobal : Bool} {name : Option Form}
      {params b : Form} {head : FnHead} {tys : List Ty}
      (hname : isGlobal = true → name.isSome = true)
      (hhead : (Check.fnHead op isGlobal name params).outcome c = (.ok head, c₁))
      (hbind :
        (Check.bindHead head).outcome { c₁ with scopes := c₁.scopes.enter } = (.ok tys, c')) :
      Opens c (.group .list (.atom (.symbol (if isGlobal then "defn" else "fn")) op ::
        (name.toList ++ [params, b])) t) c' (inTurn [b])

/-- While the form is checked from `c`, the global function `x` is completed. -/
abbrev Form.Completes (c : Checker) (f : Form) : String → Prop :=
  TaggedLisp.Completes Form.check Form.defines Form.Opens c f

namespace Check

variable {α β : Type} {names : String → Prop} {c : Checker}

/-- From `c`, nothing is left of the pass in the scopes but some global names. -/
abbrev Gains (names : String → Prop) (c : Checker) (p : Check α) : Prop :=
  Pass.LeadsFrom (fun c c' ↦ Scopes.Gains id names c.scopes c'.scopes) c p

/-- From `c`, nothing is left of the pass but some global names when the current frame is left. -/
abbrev GainsOutside (saved : ScopeId) (names : String → Prop) (c : Checker) (p : Check α) : Prop :=
  Pass.LeadsFrom (fun c c' ↦ Scopes.Gains id names (c.scopes.exit saved) (c'.scopes.exit saved)) c p

theorem Quiet.gains {p : Check α} (h : Quiet p) : Gains names c p := .of_eq (h c)

theorem gains_bind {p : Check α} {f : α → Check β} (hp : Gains names c p)
    (hf : ∀ a c', p.outcome c = (.ok a, c') → Gains names c' (f a)) : Gains names c (p >>= f) :=
  .bind (fun _ _ _ ↦ Scopes.Gains.trans) hp hf

theorem gainsOutside_bind {saved : ScopeId} {p : Check α} {f : α → Check β}
    (hp : GainsOutside saved names c p)
    (hf : ∀ a c', p.outcome c = (.ok a, c') → GainsOutside saved names c' (f a)) :
    GainsOutside saved names c (p >>= f) :=
  .bind (fun _ _ _ ↦ Scopes.Gains.trans) hp hf

theorem Gains.outside {p : Check α} (h : Gains names c p) (saved : ScopeId) :
    GainsOutside saved names c p := Scopes.Gains.exit h saved

/-- What is bound in a frame is gone when it is left. -/
theorem gains_nested {body : Check α}
    (h : GainsOutside c.scopes.current names { c with scopes := c.scopes.enter } body) :
    Gains names c (nested body) := by
  change Scopes.Gains id names (c.scopes.enter.exit c.scopes.current) _ at h
  rw [Scopes.enter, Scopes.exit_enterFrom] at h
  exact h

theorem gainsOutside_define (saved : ScopeId) (x : String) (t : Ty) :
    GainsOutside saved names c (define x t) := .of_eq (Scopes.exit_define ..)

theorem gainsOutside_bindHead (saved : ScopeId) (h : FnHead) :
    GainsOutside saved names c (bindHead h) :=
  .of_eq (leads_bindHead (R := fun c c' ↦ c'.scopes.exit saved = c.scopes.exit saved) (fun _ ↦ rfl)
    (fun _ _ _ h h' ↦ h'.trans h) (fun _ _ ↦ rfl) (fun _ _ _ ↦ Scopes.exit_define ..) h c)

theorem quiet_symbol (name : String) (t : Token) : Quiet (symbol name t) :=
  .look fun c ↦ by split <;> rfl

theorem quiet_atom (a : Atom) (t : Token) : Quiet (atom a t) := by
  cases a with
  | nil | boolean | string => exact .pure _
  | number n => exact (Quiet.pure _).ite (.fail _ _)
  | symbol name => exact quiet_symbol name t

theorem quiet_fnHead (op : Token) (isGlobal : Bool) (name : Option Form) (params : Form) :
    Quiet (fnHead op isGlobal name params) := fun c ↦
  congrArg Checker.scopes (state_fnHead op isGlobal name params c)

end Check

mutual

theorem Form.quiet_checkDatum : ∀ f : Form, Check.Quiet f.checkDatum
  | .atom a t => Check.quiet_atom a t
  | .group _ elems _ => (quiet_checkData elems).bind fun _ ↦ .pure _

theorem quiet_checkData : ∀ fs : List Form, Check.Quiet (checkData fs)
  | [] => .pure _
  | f :: fs => f.quiet_checkDatum.bind fun _ ↦ (quiet_checkData fs).bind fun _ ↦ .pure _

end

namespace Check

theorem fnHead_name {op : Token} {isGlobal : Bool} {form params : Form} {h : FnHead}
    {c c' : Checker}
    (hhead : (fnHead op isGlobal (some form) params).outcome c = (.ok h, c')) :
    h.name = form.symbol? := by
  rw [fnHead, Pass.outcome_bind, Pass.outcome_get] at hhead
  dsimp only at hhead
  split at hhead
  · cases hhead
  · split at hhead
    · next own hown =>
      have hhead : (headOf op isGlobal params (some own)).outcome c = (.ok h, c') := hhead
      obtain ⟨names, c₁, -, hhead⟩ := Pass.outcome_bind_ok.mp hhead
      obtain ⟨_, c₂, -, hhead⟩ := Pass.outcome_bind_ok.mp hhead
      cases hhead
      exact hown.symm
    · cases hhead

/-- A function binds its name in the global frame once it is completed, if it is a definition. -/
theorem gains_fn {names : String → Prop} {c : Checker} {op : Token} {h : FnHead}
    {body : Check Expr}
    (hbody : ∀ tys c', (bindHead h).outcome { c with scopes := c.scopes.enter } = (.ok tys, c') →
      Gains names c' body)
    (hname : ∀ x e c', h.isGlobal = true → h.name = some x →
      (fn op h body).outcome c = (.ok e, c') → names x) : Gains names c (fn op h body) := by
  refine gains_bind (gains_nested ?_) ?_
  · refine gainsOutside_bind (gainsOutside_bindHead _ h) fun tys c₁ hbind ↦ ?_
    refine gainsOutside_bind ((hbody tys c₁ hbind).outside _) fun e c₂ _ ↦ ?_
    exact .of_eq rfl
  · rintro ⟨e, tys⟩ c₁ hinner
    -- behind the body nothing can fail, so the whole function is completed
    obtain ⟨e', c', hok⟩ : ∃ e' c', (fn op h body).outcome c = (.ok e', c') := by
      rw [fn, Pass.outcome_bind, hinner]
      dsimp only
      split <;> exact ⟨_, _, rfl⟩
    dsimp only
    split
    · next x hglobal hx =>
      exact Scopes.Gains.define (f := id) c₁.scopes (hname x e' c' hglobal hx hok) _
    · exact (Quiet.pure _).gains

end Check

mutual

/-- Whatever comes of checking a form, nothing is left of it in the scopes but the names of global
functions that were completed. -/
theorem Form.check_gains : ∀ (f : Form) (c : Checker), Check.Gains (f.Completes c) c f.check
  | .atom a t, c => (Check.quiet_atom a t).gains
  | .group .vector elems _, c => ((quiet_checkData elems).bind fun _ ↦ .pure _).gains
  | .group .list [] _, c => (Check.Quiet.pure _).gains
  | .group .list (.group .list elems t' :: args) t, c => by
    have hpart {c' g} (ht : Turn Form.check c (inTurn (.group .list elems t' :: args)) c' g)
        (x) (hx : g.Completes c' x) :
        (Form.group .list (.group .list elems t' :: args) t).Completes c x :=
      .inside .parts ht hx
    rw [Form.check]
    refine Check.gains_bind ((Form.check_gains _ c).mono (hpart .here)) fun e c₁ he ↦ ?_
    refine Check.gains_bind (checkAll_gains args fun ht ↦ hpart (.later he rfl ht)) fun _ c₂ _ ↦ ?_
    exact Check.Quiet.gains (Check.quiet_call _ _ _)
  | .group .list (.group .vector _ _ :: _) _, c
  | .group .list (.atom .nil _ :: _) _, c | .group .list (.atom (.boolean _) _ :: _) _, c
  | .group .list (.atom (.number _) _ :: _) _, c | .group .list (.atom (.string _) _ :: _) _, c =>
    (Check.Quiet.fail _ _).gains
  | .group .list (.atom (.symbol name) op :: args) t, c => by
    have hpart {fs : List Form}
        (hparts : Form.parts (.group .list (.atom (.symbol name) op :: args) t) = fs)
        {c' g} (ht : Turn Form.check c (inTurn fs) c' g) (x) (hx : g.Completes c' x) :
        (Form.group .list (.atom (.symbol name) op :: args) t).Completes c x :=
      .inside .parts (hparts ▸ ht) hx
    unfold Form.check
    dsimp only
    split
    · split
      · next datum => exact datum.quiet_checkDatum.gains
      · exact (Check.Quiet.fail _ _).gains
    · exact checkCond_gains op args fun hlen ↦ hpart (if_pos hlen)
    · exact checkFn_gains op false args
    · exact checkFn_gains op true args
    · exact checkLet_gains op args
    · refine Check.gains_bind (checkAll_gains args (hpart rfl)) fun _ _ _ ↦ ?_
      exact (Check.Quiet.pure _).gains
    · have hparts : Form.parts (.group .list (.atom (.symbol name) op :: args) t) =
          .atom (.symbol name) op :: args := by
        unfold Form.parts
        dsimp only
        split <;> simp_all
      refine Check.gains_bind (Check.quiet_atom _ _).gains fun e c₁ he ↦ ?_
      refine Check.gains_bind (checkAll_gains args fun ht ↦ hpart hparts (.later he rfl ht)) ?_
      exact fun _ _ _ ↦ Check.Quiet.gains (Check.quiet_call _ _ _)

theorem checkAll_gains : ∀ (fs : List Form) {c : Checker} {names : String → Prop},
    (∀ {c' g}, Turn Form.check c (inTurn fs) c' g → ∀ x, g.Completes c' x → names x) →
    Check.Gains names c (checkAll fs)
  | [], c, names, _ => (Check.Quiet.pure _).gains
  | f :: fs, c, names, h => by
    refine Check.gains_bind ((f.check_gains c).mono (h .here)) fun e c₁ he ↦ ?_
    refine Check.gains_bind (checkAll_gains fs fun ht ↦ h (.later he rfl ht)) ?_
    exact fun es c₂ _ ↦ (Check.Quiet.pure _).gains

theorem checkCond_gains (op : Token) : ∀ (fs : List Form) {c : Checker} {names : String → Prop},
    (fs.length = 2 ∨ fs.length = 3 → ∀ {c' g}, Turn Form.check c (inTurn fs) c' g →
      ∀ x, g.Completes c' x → names x) → Check.Gains names c (checkCond op fs)
  | [test, yes], c, names, h => by
    have h := @h (.inl rfl)
    refine Check.gains_bind ((test.check_gains c).mono (h .here)) fun _ c₁ h₁ ↦ ?_
    refine Check.gains_bind ((yes.check_gains c₁).mono (h (.later h₁ rfl .here))) fun _ _ _ ↦ ?_
    exact Check.Quiet.gains (Check.quiet_cond _ _ _ _)
  | [test, yes, no], c, names, h => by
    have h := @h (.inr rfl)
    refine Check.gains_bind ((test.check_gains c).mono (h .here)) fun _ c₁ h₁ ↦ ?_
    refine Check.gains_bind ((yes.check_gains c₁).mono (h (.later h₁ rfl .here))) fun _ c₂ h₂ ↦ ?_
    refine Check.gains_bind ((no.check_gains c₂).mono (h (.later h₁ rfl (.later h₂ rfl .here)))) ?_
    exact fun _ _ _ ↦ Check.Quiet.gains (Check.quiet_cond _ _ _ _)
  | [], c, names, _ | [_], c, names, _ | _ :: _ :: _ :: _ :: _, c, names, _ =>
    (Check.Quiet.fail _ _).gains

theorem checkFn_gains (op : Token) (isGlobal : Bool) :
    ∀ (args : List Form) {c : Checker} {t : Token},
    Check.Gains ((Form.group .list (.atom (.symbol (if isGlobal then "defn" else "fn")) op :: args)
      t).Completes c) c (checkFn op isGlobal args)
  | [name, params, body], c, t => by
    refine Check.gains_bind (Check.quiet_fnHead op isGlobal (some name) params).gains
      fun head c₁ hhead ↦ ?_
    refine Check.gains_fn (fun tys c' hbind ↦ (body.check_gains c').mono fun x hx ↦ ?_)
      fun x e c' hglobal hx hfn ↦ ?_
    · have hopen := Form.Opens.fnBody (t := t) (b := body) (fun _ ↦ rfl) hhead hbind
      exact .inside hopen .here hx
    · obtain ⟨-, hisGlobal, -, -⟩ := Check.fnHead_ok hhead
      rw [hisGlobal] at hglobal
      subst hglobal
      -- a head was made, so the form in the place of the name is a symbol
      have hname : name.symbol? = some x := (Check.fnHead_name hhead).symm.trans hx
      obtain ⟨nameToken, rfl⟩ : ∃ nameToken, name = .atom (.symbol x) nameToken := by
        cases name with
        | group => cases hname
        | atom a nameToken => cases a <;> cases hname; exact ⟨nameToken, rfl⟩
      have hok : (checkFn op true [.atom (.symbol x) nameToken, params, body]).outcome c =
          (.ok e, c') := by
        rw [checkFn, Pass.outcome_bind, hhead]
        exact hfn
      exact .here rfl hok
  | [params, body], c, t => by
    cases isGlobal with
    | true => exact (Check.Quiet.fail _ _).gains
    | false =>
      refine Check.gains_bind (Check.quiet_fnHead op false none params).gains fun head c₁ hhead ↦ ?_
      refine Check.gains_fn (fun tys c' hbind ↦ (body.check_gains c').mono fun x hx ↦ ?_)
        fun x e c' hglobal ↦ ?_
      · have hname : false = true → (none : Option Form).isSome = true := nofun
        have hopen := Form.Opens.fnBody (t := t) (b := body) hname hhead hbind
        exact .inside hopen .here hx
      · rw [(Check.fnHead_ok hhead).2.1] at hglobal
        cases hglobal
  | [], c, t | [_], c, t | _ :: _ :: _ :: _ :: _, c, t => (Check.Quiet.fail _ _).gains

theorem checkLet_gains (op : Token) : ∀ (args : List Form) {c : Checker} {t : Token},
    Check.Gains ((Form.group .list (.atom (.symbol "let") op :: args) t).Completes c) c
      (checkLet op args)
  | [.group .vector pairs pt, body], c, t => by
    rw [checkLet]
    split
    · next heven =>
      refine Check.gains_nested ?_
      refine Check.gainsOutside_bind (checkPairs_gains op pairs fun ht x hx ↦
        .inside (.values heven) ht hx) fun bs c₁ hpairs ↦ ?_
      refine Check.gainsOutside_bind (Check.Gains.outside ((body.check_gains c₁).mono fun x hx ↦
        .inside (.letBody heven hpairs) .here hx) _) fun _ _ _ ↦ ?_
      exact .of_eq rfl
    · exact (Check.Quiet.fail _ _).gains
  | [.atom _ _, _], c, t | [.group .list _ _, _], c, t
  | [], c, t | [_], c, t | _ :: _ :: _ :: _, c, t => (Check.Quiet.fail _ _).gains

theorem checkPairs_gains (op : Token) : ∀ (pairs : List Form) {c : Checker} {saved : ScopeId}
    {names : String → Prop},
    (∀ {c' g}, Turn Form.check c (pairsInTurn pairs) c' g → ∀ x, g.Completes c' x → names x) →
    Check.GainsOutside saved names c (checkPairs op pairs)
  | [], c, saved, names, _ => .of_eq rfl
  | [_], c, saved, names, _ => .of_eq rfl
  | name :: value :: rest, c, saved, names, h => by
    rw [checkPairs]
    rw [pairsInTurn] at h
    split
    · exact .of_eq rfl
    · next x hx =>
      simp only [hx] at h
      refine Check.gainsOutside_bind (Check.Gains.outside
        ((value.check_gains c).mono (h .here)) saved) fun e c₁ he ↦ ?_
      refine Check.gainsOutside_bind (Check.gainsOutside_define saved x e.ty) fun _ c₂ hdefine ↦ ?_
      refine Check.gainsOutside_bind
        (checkPairs_gains op rest fun ht ↦ h (.later he hdefine ht)) fun _ _ _ ↦ ?_
      exact .of_eq rfl

end

/-! ## Definitions in forms

Which definitions are completed depends on the state. They are among those that stand in the form.
-/

mutual

/-- The names that are defined somewhere in a form. -/
def Form.definitions : Form → List String
  | .atom _ _ => []
  | .group shape elems t => (Form.group shape elems t).defines.toList ++ definitionsAll elems

/-- The names that are defined somewhere in several forms. -/
def definitionsAll : List Form → List String
  | [] => []
  | f :: fs => f.definitions ++ definitionsAll fs

end

theorem mem_definitionsAll {fs : List Form} {x : String} :
    x ∈ definitionsAll fs ↔ ∃ f ∈ fs, x ∈ f.definitions := by
  induction fs with
  | nil => simp [definitionsAll]
  | cons f fs ih => simp [definitionsAll, ih]

namespace Form

variable {f g : Form} {x : String}

theorem mem_definitions_of_defines (h : f.defines = some x) : x ∈ f.definitions := by
  cases f with
  | atom => cases h
  | group shape elems t =>
    rw [definitions, h]
    exact List.mem_append_left _ (List.mem_singleton_self x)

theorem mem_definitions_of_mem {shape : Shape} {elems : List Form} {t : Token} (hg : g ∈ elems)
    (hx : x ∈ g.definitions) : x ∈ (group shape elems t).definitions := by
  rw [definitions]
  exact List.mem_append_right _ (mem_definitionsAll.mpr ⟨g, hg, hx⟩)

theorem mem_definitions_of_parts (hg : g ∈ f.parts) (hx : x ∈ g.definitions) :
    x ∈ f.definitions := by
  unfold parts at hg
  split at hg
  · next op args t =>
    refine mem_definitions_of_mem (g := g) ?_ hx
    split at hg
    · split at hg
      · split at hg
        · exact List.mem_cons_of_mem _ hg
        · cases hg
      · exact List.mem_cons_of_mem _ hg
      · cases hg
      · cases hg
      · cases hg
      · cases hg
      · exact hg
    · exact hg
    · cases hg
  · cases hg

theorem mem_of_pairsInTurn {pairs : List Form} {k : Expr → Check Unit}
    (hg : (g, k) ∈ pairsInTurn pairs) : g ∈ pairs := by
  induction pairs using pairsInTurn.induct with
  | case1 name value rest hname =>
    rw [pairsInTurn, hname] at hg
    cases hg
  | case2 name value rest x hname ih =>
    rw [pairsInTurn, hname] at hg
    rcases List.mem_cons.mp hg with hg | hg
    · cases hg
      simp
    · exact List.mem_cons_of_mem _ (List.mem_cons_of_mem _ (ih hg))
  | case3 pairs hpairs =>
    rw [pairsInTurn] at hg
    · cases hg
    · exact hpairs

theorem Opens.mem_definitions {c c' : Checker} {row : List (Form × (Expr → Check Unit))}
    (h : Opens c f c' row) {k : Expr → Check Unit} (hg : (g, k) ∈ row) (hx : x ∈ g.definitions) :
    x ∈ f.definitions := by
  cases h with
  | parts =>
    obtain ⟨g', hg', hpair⟩ := List.mem_map.mp hg
    cases hpair
    exact mem_definitions_of_parts hg' hx
  | values _ =>
    refine mem_definitions_of_mem (List.mem_cons_of_mem _ List.mem_cons_self) ?_
    exact mem_definitions_of_mem (mem_of_pairsInTurn hg) hx
  | letBody _ _ =>
    obtain ⟨rfl, -⟩ := Prod.mk.inj (List.mem_singleton.mp hg)
    exact mem_definitions_of_mem (by simp) hx
  | fnBody _ _ _ =>
    obtain ⟨rfl, -⟩ := Prod.mk.inj (List.mem_singleton.mp hg)
    exact mem_definitions_of_mem (by simp) hx

/-- What is completed while a form is checked is defined in it. -/
theorem Completes.mem_definitions {c : Checker} (h : f.Completes c x) : x ∈ f.definitions := by
  induction h with
  | here hx _ => exact mem_definitions_of_defines hx
  | inside hopen hturn _ ih =>
    obtain ⟨k, hk⟩ := hturn.exists_mem
    exact hopen.mem_definitions hk ih

end Form

end TaggedLisp
