import TaggedLisp.Proofs.Machine.Bodies

/-!
# Where names live

`Located` walks an expression in the order of the checker, in scopes that keep for every name its
type and the place where it lives; no frame is ever dropped. At the same time it walks through the
translators with which the parts of the expression are translated, which is another order: of a
conditional the second branch is translated first, and of a call the arguments before the callee.
Every symbol has to be found at the place of the binding that is found in the scopes, or at what
stands for that place behind the functions in between.

Between two such parts the translator knows global names that the checker does not know yet, or the
other way round. `Echoes` says that the scopes of a translator are good enough nevertheless, as long
as these names are not asked for; behind both parts they are known to either side (`Echoes.meet`).
That they are not asked for is `Independent`.
-/

namespace TaggedLisp

/-! ## Parts whose order does not matter -/

/-- A global name as it stands in an expression. -/
structure GlobalName where
  name : String
  /-- Whether a function is defined by the name, which is only used otherwise. -/
  isDefined : Bool
  deriving DecidableEq, Repr

mutual

/-- The global names in an expression, in the order of the checker. -/
def Expr.globals : Expr → List GlobalName
  | .literal _ _ => []
  | .symbol name n => if n.captures.isEmpty then [⟨name, false⟩] else []
  | .group _ elems _ => globalsAll elems
  | .cond test yes no _ => test.globals ++ (yes.globals ++ no.globals)
  | .letIn bindings body _ => globalsOf bindings ++ body.globals
  | .fn head body _ =>
    body.globals ++ if head.isGlobal then head.name.toList.map (⟨·, true⟩) else []
  | .seq steps _ => globalsAll steps
  | .call callee args _ _ => callee.globals ++ globalsAll args

def Expr.globalsAll : List Expr → List GlobalName
  | [] => []
  | e :: es => e.globals ++ globalsAll es

def Expr.globalsOf : List (String × Expr) → List GlobalName
  | [] => []
  | (_, value) :: bs => value.globals ++ globalsOf bs

end

/-- Neither part defines a function that the other one defines or uses. -/
def Independent (gs gs' : List GlobalName) : Prop :=
  ∀ g ∈ gs, ∀ g' ∈ gs', g.isDefined = true ∨ g'.isDefined = true → g.name ≠ g'.name

instance (gs gs' : List GlobalName) : Decidable (Independent gs gs') :=
  inferInstanceAs (Decidable (∀ g ∈ gs, ∀ g' ∈ gs', _ → _))

mutual

/-- Whether the branches of every conditional are independent, and the callee of every call is
independent of the arguments. -/
def Expr.isOrderFree : Expr → Bool
  | .literal _ _ | .symbol _ _ => true
  | .group _ elems _ => isOrderFreeAll elems
  | .cond test yes no _ =>
    test.isOrderFree && yes.isOrderFree && no.isOrderFree && Independent yes.globals no.globals
  | .letIn bindings body _ => isOrderFreeOf bindings && body.isOrderFree
  | .fn _ body _ => body.isOrderFree
  | .seq steps _ => isOrderFreeAll steps
  | .call callee args _ _ =>
    callee.isOrderFree && isOrderFreeAll args && Independent callee.globals (Expr.globalsAll args)

def Expr.isOrderFreeAll : List Expr → Bool
  | [] => true
  | e :: es => e.isOrderFree && isOrderFreeAll es

def Expr.isOrderFreeOf : List (String × Expr) → Bool
  | [] => true
  | (_, value) :: bs => value.isOrderFree && isOrderFreeOf bs

end

/-- The global names in a phrase. -/
def Phrase.globals : Phrase → List GlobalName
  | expr e => e.globals
  | exprs es => Expr.globalsAll es
  | bindings bs => Expr.globalsOf bs

/-- Whether the order of translation does not matter for a phrase. -/
def Phrase.isOrderFree : Phrase → Bool
  | expr e => e.isOrderFree
  | exprs es => Expr.isOrderFreeAll es
  | bindings bs => Expr.isOrderFreeOf bs

end TaggedLisp

namespace TaggedLisp.Machine

open Translate

/-! ## Where names live -/

/-- The captured variables of a function, with the places of their words where it is made. -/
abbrev Sources := List (String × Place)

/-- What a name is bound to: its type, the place where it lives, and the functions around the place
where it is bound, the innermost one first. -/
structure Site where
  ty : Ty
  place : Place
  around : List Sources

/-- Where the word of a variable is found that was bound outside of some functions: each of them
captures it from where it is found around the function. -/
inductive Through (x : String) (place : Place) : (between : List Sources) → Place → Prop where
  | here : Through x place [] place
  | captured {cs fs k source} (hk : cs[k]? = some (x, source)) (h : Through x place fs source) :
      Through x place (cs :: fs) (.captured k)

/-- Where `x` is found within the functions `fs`, when it is bound to `β` in the frame `scope`.
Global names are not captured. -/
inductive FoundAt (s : Scopes Site) (fs : List Sources) (x : String) (β : Site) (scope : ScopeId) :
    Place → Prop where
  | global (hx : s.lookupWithScope x = some (β, scope)) (hscope : scope = ScopeId.global) :
      FoundAt s fs x β scope β.place
  | local {between p} (hx : s.lookupWithScope x = some (β, scope))
      (hscope : scope ≠ ScopeId.global) (hfs : fs = between ++ β.around)
      (hp : Through x β.place between p) : FoundAt s fs x β scope p

/-- Names with their types that live at the given places. -/
def sites (bs : List (String × Ty)) (places : List Place) (around : List Sources) :
    List (String × Site) :=
  (bs.zip places).map fun b ↦ (b.1.1, ⟨b.1.2, b.2, around⟩)

/-- The places of the names of a function, see `bodyPlaces`. -/
def ownPlaces (h : FnHead) (captures : Captures) (id : Nat) : List Place :=
  (List.range h.allParams.length).map .param ++ h.name.toList.map fun _ ↦
    if captures.isEmpty then .static (.closure h.name id) else .current

/-! ## Located expressions -/

/-- What is translated: an expression, several of them with what follows each, or the bindings of a
`let` with the places of their names. -/
inductive Portion where
  | expr (e : Expr)
  | row (items : List (Expr × (Unit → Translate Unit)))
  | bindings (bs : List (String × Expr)) (places : List Place)

/-- While the portion is translated from `t`, every symbol in it is found where its binding in the
scopes `s` is found within the functions `fs`. The scopes are those of the checker, and the
translators are those that the portions are come to with. The global functions that are defined are
listed in the order of the checker. -/
inductive Located : (s : Scopes Site) → (fs : List Sources) → (t : Translator) → Portion →
    (defs : List (String × Site)) → Prop where
  | literal {s fs t v n} : Located s fs t (.expr (.literal v n)) []
  | symbol {s fs t name n β scope p} (hp : t.scopes.lookup name = some p)
      (h : FoundAt s fs name β scope p) (hty : n.ty = β.ty)
      (hn : n.captures = if scope = ScopeId.global then [] else [name]) :
      Located s fs t (.expr (.symbol name n)) []
  | group {s fs t shape elems n ds} (h : Located s fs
        (t.emitted (reserveCode elems.length) (t.activation.depth + elems.length))
        (.row (storedInTurn (t.activation.depth + elems.length) elems)) ds) :
      Located s fs t (.expr (.group shape elems n)) ds
  | cond {s fs t t₁ t₂ test yes no n ds ds₁ ds₂} (htest : Located s fs t.drawn (.expr test) ds)
      (ht₁ : (do test.translate; emitAll [.cmp .rax trueWord.toInt, .je (.yes t.next)]).outcome
        t.drawn = (.ok (), t₁))
      (hyes : Located (s.defineGlobals id ds) fs t₂ (.expr yes) ds₁)
      (hno : Located ((s.defineGlobals id ds).defineGlobals id ds₁) fs t₁ (.expr no) ds₂)
      (ht₂ : (do no.translate; emitAll [.jmp (.after t.next), .label (.yes t.next)]).outcome t₁
        = (.ok (), t₂)) :
      Located s fs t (.expr (.cond test yes no n)) (ds ++ (ds₁ ++ ds₂))
  | letIn {s fs t t₁ bs body n places}
      (hbindings : Located s.enter fs { t with scopes := t.scopes.enter } (.bindings bs places) [])
      (ht₁ : (translateBindings bs).outcome { t with scopes := t.scopes.enter } = (.ok (), t₁))
      (hbody : Located (s.enter.defineAll (sites (bindingTypes bs) places fs)) fs t₁ (.expr body)
        []) :
      Located s fs t (.expr (.letIn bs body n)) []
  /-- In the body all that was bound around the function is still in scope, and with it the names of
  the function. -/
  | fn {s fs t h body n places params ret} (hparams : params.length = h.params.length)
      (hplaces : n.captures.mapM t.scopes.lookup = some places)
      (hsources : ∀ c ∈ n.captures.zip places, ∃ β scope, scope ≠ ScopeId.global ∧
        FoundAt s fs c.1 β scope c.2)
      (hbody : Located (s.enter.defineAll (sites (h.bindings params ret)
          (ownPlaces h n.captures t.next) (n.captures.zip places :: fs)))
        (n.captures.zip places :: fs) (t.entering h n.captures) (.expr body) []) :
      Located s fs t (.expr (.fn h body n))
        (if h.isGlobal then h.name.toList.map (·, ⟨n.ty, .static (.closure h.name t.next), []⟩)
          else [])
  | seq {s fs t steps n ds} (h : Located s fs t (.row (inTurn steps)) ds) :
      Located s fs t (.expr (.seq steps n)) ds
  | call {s fs t t₁ callee args spread n ds ds'} (hcallee : Located s fs t₁ (.expr callee) ds)
      (hargs : Located (s.defineGlobals id ds) fs (t.calling (passedExprs spread args).length)
        (.row (passedInTurn (t.calling (passedExprs spread args).length).activation.depth 0
          (passedExprs spread args))) ds')
      (ht₁ : (passArgs (t.calling (passedExprs spread args).length).activation.depth 0
        (translateEach (passedExprs spread args))).outcome
          (t.calling (passedExprs spread args).length) = (.ok (), t₁)) :
      Located s fs t (.expr (.call callee args spread n)) (ds ++ ds')
  | nil {s fs t} : Located s fs t (.row []) []
  | cons {s fs t t₁ e k rest ds ds'} (he : Located s fs t (.expr e) ds)
      (ht₁ : (e.translate >>= k).outcome t = (.ok (), t₁))
      (hrest : Located (s.defineGlobals id ds) fs t₁ (.row rest) ds') :
      Located s fs t (.row ((e, k) :: rest)) (ds ++ ds')
  | bound {s fs t} : Located s fs t (.bindings [] []) []
  | bind {s fs t t₁ name value bs p places} (hvalue : Located s fs t (.expr value) [])
      (ht₁ : (value.translate >>= fun _ ↦ bindSlot name).outcome t = (.ok (), t₁))
      (hp : p = .slot t₁.activation.depth)
      (hrest : Located (s.define name ⟨value.ty, p, fs⟩) fs t₁ (.bindings bs places) []) :
      Located s fs t (.bindings ((name, value) :: bs) (p :: places)) []

/-! ## Scopes of translation -/

/-- The scopes `t` of a translator know the global names that are not hidden, and what they know of
the local names is where their bindings are found. -/
structure Echoes (hidden : List String) (s : Scopes Site) (fs : List Sources) (t : Scopes Place) :
    Prop where
  wellFormed : s.WellFormed
  wellFormed' : t.WellFormed
  isOpen : s.current ≠ ScopeId.global → t.current ≠ ScopeId.global
  globals : ∀ x ∉ hidden, t.globals.lookup x = (s.globals.lookup x).map Site.place
  locals : ∀ {x p}, t.locals.lookup x = some p → ∃ β between, s.locals.lookup x = some β ∧
    fs = between ++ β.around ∧ Through x β.place between p

section

variable {hidden xs ys : List String} {s : Scopes Site} {fs : List Sources} {t : Scopes Place}
  {vs vs' ws : List (String × Site)}

namespace Echoes

theorem enter (h : Echoes hidden s fs t) : Echoes hidden s.enter fs t.enter where
  wellFormed := h.wellFormed.enter
  wellFormed' := h.wellFormed'.enter
  isOpen _ := h.wellFormed'.current_enter
  globals x hx := by
    rw [h.wellFormed'.globals_enter, h.wellFormed.globals_enter, h.globals x hx]
  locals hx := by
    rw [h.wellFormed'.locals_enter] at hx
    rw [h.wellFormed.locals_enter]
    exact h.locals hx

theorem define (h : Echoes hidden s fs t) (hs : s.current ≠ ScopeId.global) (x : String) {β : Site}
    (hβ : β.around = fs) : Echoes hidden (s.define x β) fs (t.define x β.place) where
  wellFormed := h.wellFormed.define _ _
  wellFormed' := h.wellFormed'.define _ _
  isOpen := h.isOpen
  globals y hy := by
    rw [Scopes.globals_define (h.isOpen hs), Scopes.globals_define hs, h.globals y hy]
  locals {y p} hy := by
    rw [h.wellFormed'.locals_define (h.isOpen hs), List.lookup_cons] at hy
    rw [h.wellFormed.locals_define hs, List.lookup_cons]
    by_cases hyx : y = x
    · subst hyx
      rw [BEq.rfl] at hy ⊢
      exact ⟨β, [], rfl, hβ.symm, Option.some.inj hy ▸ .here⟩
    · rw [beq_false_of_ne hyx] at hy ⊢
      exact h.locals hy

theorem defineAll (h : Echoes hidden s fs t) (hs : s.current ≠ ScopeId.global)
    (hvs : ∀ v ∈ vs, v.2.around = fs) :
    Echoes hidden (s.defineAll vs) fs (t.defineAll (vs.map fun v ↦ (v.1, v.2.place))) := by
  induction vs generalizing s t with
  | nil => exact h
  | cons v vs ih =>
    obtain ⟨hv, hvs⟩ := List.forall_mem_cons.mp hvs
    exact ih (h.define hs v.1 hv) hs hvs

/-- Global names that both sides get to know. -/
theorem defineGlobals (h : Echoes hidden s fs t) (vs : List (String × Site)) :
    Echoes hidden (s.defineGlobals id vs) fs (t.defineGlobals Site.place vs) where
  wellFormed := h.wellFormed.defineGlobals _ _
  wellFormed' := h.wellFormed'.defineGlobals _ _
  isOpen := by
    rw [Scopes.current_defineGlobals, Scopes.current_defineGlobals]
    exact h.isOpen
  globals x hx := by
    have hnew : (vs.map fun v ↦ (v.1, v.2.place)).reverse.lookup x
        = ((vs.map fun v ↦ (v.1, id v.2)).reverse.lookup x).map Site.place := by
      rw [← Scopes.lookup_mapValues, List.map_reverse, List.map_map]
      rfl
    rw [h.wellFormed'.globals_defineGlobals, h.wellFormed.globals_defineGlobals,
      List.lookup_append, List.lookup_append, hnew, h.globals x hx, Option.map_or]
  locals hx := by
    rw [Scopes.locals_defineGlobals] at hx ⊢
    exact h.locals hx

/-- Global names that the checker got to know before the translator. -/
theorem ahead (h : Echoes hidden s fs t) (vs : List (String × Site)) :
    Echoes (hidden ++ vs.map Prod.fst) (s.defineGlobals id vs) fs t where
  wellFormed := h.wellFormed.defineGlobals _ _
  wellFormed' := h.wellFormed'
  isOpen := by
    rw [Scopes.current_defineGlobals]
    exact h.isOpen
  globals x hx := by
    rw [List.mem_append, not_or] at hx
    rw [h.wellFormed.lookup_globals_defineGlobals id vs hx.2, h.globals x hx.1]
  locals := by
    rw [Scopes.locals_defineGlobals]
    exact h.locals

/-- Global names that the translator got to know before the checker. -/
theorem behind (h : Echoes hidden s fs t) (hws : ∀ w ∈ ws, w.1 ∈ xs) :
    Echoes (hidden ++ xs) s fs (t.defineGlobals Site.place ws) where
  wellFormed := h.wellFormed
  wellFormed' := h.wellFormed'.defineGlobals _ _
  isOpen := by
    rw [Scopes.current_defineGlobals]
    exact h.isOpen
  globals x hx := by
    rw [List.mem_append, not_or] at hx
    rw [h.wellFormed'.lookup_globals_defineGlobals Site.place ws fun hmem ↦ by
      obtain ⟨w, hw, rfl⟩ := List.mem_map.mp hmem
      exact hx.2 (hws w hw), h.globals x hx.1]
  locals hx := by
    rw [Scopes.locals_defineGlobals] at hx
    exact h.locals hx

/-- Of two parts, the checker comes to the one that defines `vs` first, and the translator to the
other one. Behind both, either side knows what both define. -/
theorem meet (h : Echoes (hidden ++ vs.map Prod.fst)
      ((s.defineGlobals id vs).defineGlobals id vs') fs t)
    (h' : Echoes (hidden ++ vs'.map Prod.fst) (s.defineGlobals id vs) fs
      (t.defineGlobals Site.place ws))
    (hws : ∀ w ∈ ws, w.1 ∈ vs.map Prod.fst)
    (hdisjoint : ∀ x ∈ vs.map Prod.fst, x ∉ vs'.map Prod.fst) :
    Echoes hidden ((s.defineGlobals id vs).defineGlobals id vs') fs
      (t.defineGlobals Site.place ws) where
  wellFormed := h.wellFormed
  wellFormed' := h'.wellFormed'
  isOpen := by
    rw [Scopes.current_defineGlobals]
    exact h'.isOpen
  globals x hx := by
    by_cases hmem : x ∈ vs'.map Prod.fst
    · -- the translator knows it from the part that it came to first
      have hvs : x ∉ vs.map Prod.fst := fun hvs ↦ hdisjoint x hvs hmem
      rw [h.wellFormed'.lookup_globals_defineGlobals Site.place ws fun hmem ↦ by
        obtain ⟨w, hw, rfl⟩ := List.mem_map.mp hmem
        exact hvs (hws w hw)]
      exact h.globals x (by simp [hx, hvs])
    · rw [h'.wellFormed.lookup_globals_defineGlobals id vs' hmem]
      exact h'.globals x (by simp [hx, hmem])
  locals hx := by
    rw [Scopes.locals_defineGlobals]
    exact h'.locals hx

/-- What is known of a local name is where its binding is found. -/
theorem found_local (h : Echoes hidden s fs t) {x : String} {p : Place}
    (hp : t.locals.lookup x = some p) :
    ∃ β scope, scope ≠ ScopeId.global ∧ FoundAt s fs x β scope p := by
  obtain ⟨β, between, hβ, hfs, hthrough⟩ := h.locals hp
  rcases h.wellFormed.lookupWithScope_eq x with ⟨β', scope, hβ', hx, hscope⟩ | ⟨hnone, -⟩
  · obtain rfl := Option.some.inj (hβ.symm.trans hβ')
    exact ⟨β, scope, hscope, .local hx hscope hfs hthrough⟩
  · rw [hβ] at hnone
    contradiction

/-- What is known of a name is where its binding is found. -/
theorem found (h : Echoes hidden s fs t) {x : String} {β : Site} {scope : ScopeId}
    (hx : s.lookupWithScope x = some (β, scope)) (hhidden : scope = ScopeId.global → x ∉ hidden)
    (hneeds : scope ≠ ScopeId.global → ∃ p, t.locals.lookup x = some p) :
    ∃ p, t.lookup x = some p ∧ FoundAt s fs x β scope p := by
  rw [h.wellFormed'.lookup_eq]
  rcases h.wellFormed.lookupWithScope_eq x with ⟨β', scope', hlocal, hx', hscope⟩ | ⟨hlocal, hx'⟩
  · obtain ⟨rfl, rfl⟩ := Prod.mk.inj (Option.some.inj (hx.symm.trans hx'))
    obtain ⟨p, hp⟩ := hneeds hscope
    obtain ⟨β', between, hβ', hfs, hthrough⟩ := h.locals hp
    obtain rfl := Option.some.inj (hlocal.symm.trans hβ')
    exact ⟨p, by rw [hp, Option.some_or], .local hx hscope hfs hthrough⟩
  · obtain ⟨β', hβ, hpair⟩ := Option.map_eq_some_iff.mp (hx'.symm.trans hx)
    obtain ⟨rfl, rfl⟩ := Prod.mk.inj hpair
    have hnone : t.locals.lookup x = none := Option.eq_none_iff_forall_ne_some.mpr fun p hp ↦ by
      obtain ⟨_, _, hsome, -⟩ := h.locals hp
      rw [hsome] at hlocal
      contradiction
    refine ⟨β'.place, ?_, .global hx rfl⟩
    rw [hnone, Option.none_or, h.globals x (hhidden rfl), hβ]
    rfl

/-- Where no construct is open, and nothing is hidden, both sides know the same. -/
theorem lookup_eq (h : Echoes [] s fs t) (hs : s.isGlobal = true) (x : String) :
    t.lookup x = (s.lookup x).map Site.place := by
  have hlocal := h.wellFormed.isLocal_of_isGlobal hs x
  rw [h.wellFormed.isLocal_eq, Option.isSome_eq_false_iff, Option.isNone_iff_eq_none] at hlocal
  have hnone : t.locals.lookup x = none := Option.eq_none_iff_forall_ne_some.mpr fun p hp ↦ by
    obtain ⟨_, _, hsome, -⟩ := h.locals hp
    rw [hsome] at hlocal
    contradiction
  rw [h.wellFormed'.lookup_eq, h.wellFormed.lookup_eq, hnone, hlocal, Option.none_or,
    Option.none_or, h.globals x List.not_mem_nil]

/-- Where a function begins, only its captured variables are known besides the global names. -/
theorem captured (h : Echoes hidden s fs t) {captures : Captures} {places : List Place}
    (hplaces : List.Forall₂ (fun x p ↦ t.locals.lookup x = some p) captures places) :
    Echoes hidden s.enter (captures.zip places :: fs)
      ((t.enterFrom ScopeId.global).defineAll (captures.mapIdx fun k x ↦ (x, .captured k))) := by
  have hwf := h.wellFormed'.enterFrom h.wellFormed'.global_lt
  have hopen := h.wellFormed'.current_enterFrom ScopeId.global
  constructor
  · exact h.wellFormed.enter
  · exact hwf.defineAll _
  · intro _
    rw [Scopes.current_defineAll]
    exact hopen
  · intro x hx
    rw [Scopes.globals_defineAll _ hopen, h.wellFormed'.globals_enterFrom,
      h.wellFormed.globals_enter, h.globals x hx]
  · intro x p hp
    rw [hwf.locals_defineAll _ hopen, h.wellFormed'.locals_enterFrom_global, List.append_nil] at hp
    obtain ⟨k, hk, hpair⟩ :=
      List.mem_mapIdx.mp (List.mem_reverse.mp (Scopes.mem_of_lookup hp))
    obtain ⟨rfl, rfl⟩ := Prod.mk.inj hpair
    have hk' : k < places.length := hplaces.length_eq ▸ hk
    obtain ⟨β, between, hβ, hfs, hthrough⟩ := h.locals (hplaces.get hk hk')
    rw [h.wellFormed.locals_enter]
    refine ⟨β, captures.zip places :: between, hβ, by rw [hfs]; rfl, .captured ?_ hthrough⟩
    exact List.getElem?_zip_eq_some.mpr
      ⟨List.getElem?_eq_getElem hk, List.getElem?_eq_getElem hk'⟩

end Echoes

theorem sites_types {bs : List (String × Ty)} {places : List Place} (around : List Sources)
    (hlength : bs.length = places.length) :
    ((sites bs places around).map fun v ↦ (v.1, v.2.ty)) = bs := by
  rw [sites, List.map_map]
  exact List.map_fst_zip (Nat.le_of_eq hlength)

theorem sites_places (bs : List (String × Ty)) (places : List Place) (around : List Sources) :
    ((sites bs places around).map fun v ↦ (v.1, v.2.place)) = (bs.map Prod.fst).zip places := by
  rw [sites, List.map_map, List.zip_map_left]
  rfl

theorem sites_around (bs : List (String × Ty)) (places : List Place) (around : List Sources) :
    ∀ v ∈ sites bs places around, v.2.around = around := by
  intro v hv
  obtain ⟨b, -, rfl⟩ := List.mem_map.mp hv
  rfl

section

variable {head : FnHead} {params : List Ty} {captures : Captures} {id : Nat}

theorem length_ownPlaces (ret : Ty) (hparams : params.length = head.params.length) :
    (head.bindings params ret).length = (ownPlaces head captures id).length := by
  have hnames := congrArg List.length (FnHead.map_fst_bindings ret hparams)
  rw [List.length_map] at hnames
  simp [hnames, ownPlaces]

/-- What a body sees besides the global names: the captured variables, and the names of the
function, which hide them. -/
theorem bodyPlaces_eq (ret : Ty) (around : List Sources)
    (hparams : params.length = head.params.length) :
    bodyPlaces head captures id = (captures.mapIdx fun k x ↦ (x, .captured k)) ++
      (sites (head.bindings params ret) (ownPlaces head captures id) around).map
        fun v ↦ (v.1, v.2.place) := by
  have hown : head.allParams.mapIdx (fun i x ↦ (x, Place.param i))
      = head.allParams.zip ((List.range head.allParams.length).map .param) :=
    List.ext_getElem (by simp) fun i hi hi' ↦ by simp
  rw [bodyPlaces, List.append_assoc, sites_places, FnHead.map_fst_bindings ret hparams, ownPlaces,
    List.zip_append (by simp), hown]
  cases head.name <;> rfl

end

end

end TaggedLisp.Machine
