import TaggedLisp.Proofs.Ir.Lowering
import TaggedLisp.Proofs.Scoping
import TaggedLisp.Session

/-!
# What names are lowered to

The checker finds the binding of a name along all the frames around it. Lowering drops these frames
where a function begins and makes a new one from the captures that the checker noted. `Resolved`
walks an expression and its tree together, in scopes that keep for every name the type that the
checker gave it and the operand that lowering made where it is bound, and no frame is ever dropped.
It asks that every symbol is lowered to the operand of the binding that is found there, or to the
slot that stands for it behind the functions in between.

That the scopes of lowering are good enough is `Tracks`: what they know of a name is what stands for
its binding. They need not know a name that is used nowhere inside; which ones they must know is
what the captures say.
-/

namespace TaggedLisp.Ir

/-! ## Bindings -/

/-- The captured variables of a function. -/
abbrev Captured := List (Cell × Tree)

/-- What a name is bound to: its type, the operand that was made for it, and the functions around
the place where it is bound, the innermost one first. -/
structure Binding where
  ty : Ty
  operand : Tree
  around : List Captured

/-- What stands for a variable that was bound outside of some functions: each of them captures what
stands for it around the function, and uses the slot instead. -/
inductive Through (x : String) (operand : Tree) : (between : List Captured) → Tree → Prop where
  | here : Through x operand [] operand
  | slot {cs fs slot source} (hcell : (⟨x, slot⟩, source) ∈ cs) (h : Through x operand fs source) :
      Through x operand (cs :: fs) (.temp slot)

/-- What stands for `x` within the functions `fs`, where `x` is bound to `β` in the frame `scope`.
Global names are not captured. -/
inductive StandsFor (s : Scopes Binding) (fs : List Captured) (x : String) (β : Binding)
    (scope : ScopeId) : Tree → Prop where
  | global (hx : s.lookupWithScope x = some (β, scope)) (hscope : scope = ScopeId.global) :
      StandsFor s fs x β scope β.operand
  | local {between t} (hx : s.lookupWithScope x = some (β, scope))
      (hscope : scope ≠ ScopeId.global) (hfs : fs = between ++ β.around)
      (ht : Through x β.operand between t) : StandsFor s fs x β scope t

/-- The bindings of the names of a function that stands within the functions `around`. -/
def ownBindings (h : FnHead) (params : List Ty) (ret : Ty) (operands : List Tree)
    (around : List Captured) : List (String × Binding) :=
  ((h.bindings params ret).zip operands).map fun b ↦ (b.1.1, ⟨b.1.2, b.2, around⟩)

/-- The operands of the names of a function: a temporary for each parameter, and its closure for its
own name. -/
def ownOperands (h : FnHead) (id : Nat) (temps : List Temp) : List Tree :=
  temps.map .temp ++ h.name.toList.map fun _ ↦ .closure (.closure h.name id)

/-! ## Resolved expressions -/

/-- An expression with its tree, several of them, the bindings of a `let` with their moves, or a
function with the number that it was given and its closure. -/
inductive Lowering where
  | expr (e : Expr) (t : Tree)
  | exprs (es : List Expr) (ts : List Tree)
  | bindings (bs : List (String × Expr)) (ms : List Effect) (vs : List (String × Binding))
  | function (h : FnHead) (body : Expr) (n : Note) (id : Nat) (t : Tree)

/-- Every symbol is lowered to what stands for its binding in the scopes `s` and within the
functions `fs`. The global functions that are defined are listed with their bindings. -/
inductive Resolved : (s : Scopes Binding) → (fs : List Captured) → Lowering →
    (defs : List (String × Binding)) → Prop where
  | literal {s fs v n} : Resolved s fs (.expr (.literal v n) (Lower.literal v)) []
  | symbol {s fs name n β scope t} (h : StandsFor s fs name β scope t) (hty : n.ty = β.ty)
      (hn : n.captures = if scope = ScopeId.global then [] else [name]) :
      Resolved s fs (.expr (.symbol name n) t) []
  | group {s fs shape elems n ts ds} (h : Resolved s fs (.exprs elems ts) ds) :
      Resolved s fs (.expr (.group shape elems n) (Lower.sequence shape ts)) ds
  | cond {s fs test yes no n j t t₁ t₂ ds}
      (h : Resolved s fs (.exprs [test, yes, no] [t, t₁, t₂]) ds) :
      Resolved s fs (.expr (.cond test yes no n) (Lower.cond j t t₁ t₂)) ds
  | letIn {s fs bs body n ms vs t} (hbindings : Resolved s.enter fs (.bindings bs ms vs) [])
      (hbody : Resolved (s.enter.defineAll vs) fs (.expr body t) []) :
      Resolved s fs (.expr (.letIn bs body n) (.after (.seq ms) t)) []
  | fn {s fs h body n id t} (hglobal : h.isGlobal = false)
      (hfunction : Resolved s fs (.function h body n id t) []) :
      Resolved s fs (.expr (.fn h body n) t) []
  | defn {s fs h body n id name k t} (hglobal : h.isGlobal = true) (hs : s.isGlobal = true)
      (hname : h.name = some name) (hfunction : Resolved s fs (.function h body n id t) []) :
      Resolved s fs (.expr (.fn h body n) (.after (.move ⟨k, some name⟩ t) (.temp ⟨k, some name⟩)))
        [(name, ⟨n.ty, .closure (.closure h.name id), fs⟩)]
  | seq {s fs steps n ts ds} (h : Resolved s fs (.exprs steps ts) ds) :
      Resolved s fs (.expr (.seq steps n) (Lower.steps ts)) ds
  | call {s fs callee args spread n t ts ds}
      (h : Resolved s fs (.exprs (callee :: args) (t :: ts)) ds) :
      Resolved s fs (.expr (.call callee args spread n) (Lower.call spread t ts)) ds
  | nil {s fs} : Resolved s fs (.exprs [] []) []
  | cons {s fs e es t ts ds ds'} (he : Resolved s fs (.expr e t) ds)
      (hes : Resolved (s.defineGlobals id ds) fs (.exprs es ts) ds') :
      Resolved s fs (.exprs (e :: es) (t :: ts)) (ds ++ ds')
  | bound {s fs} : Resolved s fs (.bindings [] [] []) []
  | bind {s fs name value bs temp t ms vs} (hvalue : Resolved s fs (.expr value t) [])
      (htemp : temp.hint = some name)
      (hrest : Resolved (s.define name ⟨value.ty, .temp temp, fs⟩) fs (.bindings bs ms vs) []) :
      Resolved s fs (.bindings ((name, value) :: bs) (.move temp t :: ms)
        ((name, ⟨value.ty, .temp temp, fs⟩) :: vs)) []
  /-- The sources of the captured variables stand for bindings around the function; in its body all
  of these are still in scope, and with them the names of the function. -/
  | function {s fs h body n id cs temps t params ret} (hparams : params.length = h.params.length)
      (htemps : temps.map Temp.hint = h.allParams.map some)
      (hcells : cs.map (·.1.name) = n.captures) (hnodup : n.captures.Nodup)
      (hsources : ∀ c ∈ cs, ∃ β scope, scope ≠ ScopeId.global ∧
        StandsFor s fs c.1.name β scope c.2)
      (hbody : Resolved
        (s.enter.defineAll (ownBindings h params ret (ownOperands h id temps) (cs :: fs)))
        (cs :: fs) (.expr body t) []) :
      Resolved s fs (.function h body n id
        (.tag .closure (.func ⟨(Label.code h.name id).render, temps, h.rest.isSome⟩ cs t))) []

/-! ## Scopes of lowering -/

/-- The scopes `l` of lowering know the global names, and what they know of the local names is what
stands for their bindings. -/
structure Tracks (s : Scopes Binding) (fs : List Captured) (l : Scopes Tree) : Prop where
  wellFormed : s.WellFormed
  wellFormed' : l.WellFormed
  isOpen : s.current ≠ ScopeId.global → l.current ≠ ScopeId.global
  globals : l.globals = s.globals.map fun b ↦ (b.1, b.2.operand)
  locals : ∀ {x t}, l.locals.lookup x = some t → ∃ β between, s.locals.lookup x = some β ∧
    fs = between ++ β.around ∧ Through x β.operand between t

namespace Tracks

variable {s : Scopes Binding} {fs : List Captured} {l : Scopes Tree}

theorem enter (h : Tracks s fs l) : Tracks s.enter fs l.enter where
  wellFormed := h.wellFormed.enter
  wellFormed' := h.wellFormed'.enter
  isOpen _ := h.wellFormed'.current_enter
  globals := by
    rw [h.wellFormed.globals_enter, h.wellFormed'.globals_enter, h.globals]
  locals hx := by
    rw [h.wellFormed'.locals_enter] at hx
    rw [h.wellFormed.locals_enter]
    exact h.locals hx

theorem define (h : Tracks s fs l) (hs : s.current ≠ ScopeId.global) (x : String) {β : Binding}
    (hβ : β.around = fs) : Tracks (s.define x β) fs (l.define x β.operand) where
  wellFormed := h.wellFormed.define _ _
  wellFormed' := h.wellFormed'.define _ _
  isOpen := h.isOpen
  globals := by
    rw [Scopes.globals_define hs, Scopes.globals_define (h.isOpen hs), h.globals]
  locals {y t} hy := by
    rw [h.wellFormed'.locals_define (h.isOpen hs), List.lookup_cons] at hy
    rw [h.wellFormed.locals_define hs, List.lookup_cons]
    cases hyx : y == x with
    | true =>
      rw [hyx] at hy
      cases hy
      exact ⟨β, [], rfl, hβ.symm, .here⟩
    | false =>
      rw [hyx] at hy
      exact h.locals hy

theorem defineAll (h : Tracks s fs l) (hs : s.current ≠ ScopeId.global)
    {vs : List (String × Binding)} (hvs : ∀ v ∈ vs, v.2.around = fs) :
    Tracks (s.defineAll vs) fs (l.defineAll (vs.map fun v ↦ (v.1, v.2.operand))) := by
  induction vs generalizing s l with
  | nil => exact h
  | cons v vs ih =>
    obtain ⟨hv, hvs⟩ := List.forall_mem_cons.mp hvs
    exact ih (h.define hs v.1 hv) hs hvs

theorem defineGlobals (h : Tracks s fs l) (ds : List (String × Binding)) :
    Tracks (s.defineGlobals id ds) fs (l.defineGlobals Binding.operand ds) where
  wellFormed := h.wellFormed.defineGlobals _ _
  wellFormed' := h.wellFormed'.defineGlobals _ _
  isOpen := by
    rw [Scopes.current_defineGlobals, Scopes.current_defineGlobals]
    exact h.isOpen
  globals := by
    rw [h.wellFormed.globals_defineGlobals, h.wellFormed'.globals_defineGlobals, h.globals]
    simp
  locals hx := by
    rw [Scopes.locals_defineGlobals] at hx ⊢
    exact h.locals hx

/-- Where a function begins, only its captured variables are known besides the global names. -/
theorem function (h : Tracks s fs l) {cs : Captured}
    (hcs : ∀ c ∈ cs, l.locals.lookup c.1.name = some c.2) :
    Tracks s.enter (cs :: fs)
      ((l.enterFrom ScopeId.global).defineAll (cs.map fun c ↦ (c.1.name, .temp c.1.slot))) := by
  have hwf := h.wellFormed'.enterFrom h.wellFormed'.global_lt
  have hopen := h.wellFormed'.current_enterFrom ScopeId.global
  constructor
  · exact h.wellFormed.enter
  · exact hwf.defineAll _
  · intro _
    rw [Scopes.current_defineAll]
    exact hopen
  · rw [Scopes.globals_defineAll _ hopen, h.wellFormed'.globals_enterFrom,
      h.wellFormed.globals_enter, h.globals]
  · intro x t hx
    rw [hwf.locals_defineAll _ hopen, h.wellFormed'.locals_enterFrom_global, List.append_nil] at hx
    have hmem : (x, t) ∈ cs.map fun c ↦ (c.1.name, Tree.temp c.1.slot) :=
      List.mem_reverse.mp (Scopes.mem_of_lookup hx)
    obtain ⟨⟨⟨name, slot⟩, source⟩, hc, hpair⟩ := List.mem_map.mp hmem
    cases hpair
    obtain ⟨β, between, hβ, hfs, hthrough⟩ := h.locals (hcs _ hc)
    rw [h.wellFormed.locals_enter]
    exact ⟨β, cs :: between, hβ, by rw [hfs]; rfl, .slot hc hthrough⟩

/-- What the scopes of lowering know of a local name stands for its binding. -/
theorem captured (h : Tracks s fs l) {x : String} {t : Tree} (ht : l.locals.lookup x = some t) :
    ∃ β scope, scope ≠ ScopeId.global ∧ StandsFor s fs x β scope t := by
  obtain ⟨β, between, hβ, hfs, hthrough⟩ := h.locals ht
  rcases h.wellFormed.lookupWithScope_eq x with ⟨β', scope, hβ', hx, hscope⟩ | ⟨hnone, -⟩
  · cases hβ.symm.trans hβ'
    exact ⟨β, scope, hscope, .local hx hscope hfs hthrough⟩
  · cases hβ.symm.trans hnone

/-- What the scopes of lowering know of a name stands for its binding. -/
theorem standsFor (h : Tracks s fs l) {x : String} {β : Binding} {scope : ScopeId}
    (hx : s.lookupWithScope x = some (β, scope))
    (hneeds : scope ≠ ScopeId.global → ∃ t, l.locals.lookup x = some t) :
    ∃ t, l.lookup x = some t ∧ StandsFor s fs x β scope t := by
  rcases h.wellFormed.lookupWithScope_eq x with ⟨β', scope', hlocal, hx', hscope⟩ | ⟨hlocal, hx'⟩
  · cases hx.symm.trans hx'
    obtain ⟨t, ht⟩ := hneeds hscope
    obtain ⟨β', between, hβ', hfs, hthrough⟩ := h.locals ht
    cases hlocal.symm.trans hβ'
    refine ⟨t, ?_, .local hx hscope hfs hthrough⟩
    rw [h.wellFormed'.lookup_eq, ht, Option.some_or]
  · rw [hx'] at hx
    obtain ⟨β', hβ, hpair⟩ := Option.map_eq_some_iff.mp hx
    cases hpair
    have hnone : l.locals.lookup x = none := Option.eq_none_iff_forall_ne_some.mpr fun t ht ↦ by
      obtain ⟨_, _, hsome, -⟩ := h.locals ht
      cases hlocal.symm.trans hsome
    refine ⟨β.operand, ?_, .global (hx'.trans (by rw [hβ]; rfl)) rfl⟩
    rw [h.wellFormed'.lookup_eq, hnone, Option.none_or, h.globals,
      Scopes.lookup_mapValues Binding.operand, hβ]
    rfl

end Tracks

/-! ## Steps that succeed -/

namespace Lower

variable {l : Lowerer}

/-- Variables that are known can be captured. -/
theorem captures_ok (line : Nat) {names : List String}
    (h : ∀ x ∈ names, ∃ t, l.scopes.lookup x = some t) :
    ∃ cs l', (captures line names).outcome l = (.ok cs, l') ∧ l'.scopes = l.scopes ∧
      cs.map (·.1.name) = names ∧ ∀ c ∈ cs, l.scopes.lookup c.1.name = some c.2 := by
  induction names generalizing l with
  | nil => exact ⟨[], l, rfl, rfl, rfl, List.forall_mem_nil _⟩
  | cons name names ih =>
    obtain ⟨⟨t, ht⟩, h⟩ := List.forall_mem_cons.mp h
    obtain ⟨cs, l', hcs, hscopes, hnames, hsources⟩ := ih (l := { l with next := l.next + 1 }) h
    refine ⟨(⟨name, ⟨l.next, some name⟩⟩, t) :: cs, l', ?_, hscopes, by rw [List.map_cons, hnames],
      List.forall_mem_cons.mpr ⟨ht, hsources⟩⟩
    exact Pass.outcome_bind_ok.mpr ⟨t, l, (outcome_resolve l).mpr ⟨ht, rfl⟩,
      Pass.outcome_bind_ok.mpr ⟨_, _, rfl, Pass.outcome_bind_ok.mpr ⟨cs, l', hcs, rfl⟩⟩⟩

/-- A temporary is drawn for every parameter. -/
theorem params_ok (names : List String) (l : Lowerer) :
    ∃ temps l', (params names).outcome l = (.ok temps, l') ∧
      temps.map Temp.hint = names.map some ∧
      l'.scopes = l.scopes.defineAll (names.zip (temps.map .temp)) := by
  induction names generalizing l with
  | nil => exact ⟨[], l, rfl, rfl, rfl⟩
  | cons name names ih =>
    obtain ⟨temps, l', htemps, hhints, hscopes⟩ :=
      ih ⟨l.next + 1, l.scopes.define name (.temp ⟨l.next, some name⟩)⟩
    refine ⟨⟨l.next, some name⟩ :: temps, l', ?_, by rw [List.map_cons, hhints, List.map_cons],
      hscopes⟩
    exact Pass.outcome_bind_ok.mpr ⟨_, _, rfl, Pass.outcome_bind_ok.mpr ⟨_, _, rfl,
      Pass.outcome_bind_ok.mpr ⟨temps, l', htemps, rfl⟩⟩⟩

end Lower

/-! ## Lowering what is scoped -/

/-- Lowering a phrase succeeds, with every symbol resolved, and leaves nothing behind in the scopes
but the global functions that the checker noted, or the names that a `let` binds. -/
def Lowers (s : Scopes Binding) (fs : List Captured) (l : Lowerer) (ds : List (String × Ty)) :
    Phrase → Prop
  | .expr e => ∃ t l' vs, e.lower.outcome l = (.ok t, l') ∧ Resolved s fs (.expr e t) vs ∧
      l'.scopes = l.scopes.defineGlobals Binding.operand vs ∧ ds = vs.map fun v ↦ (v.1, v.2.ty)
  | .exprs es => ∃ ts l' vs, (lowerAll es).outcome l = (.ok ts, l') ∧
      Resolved s fs (.exprs es ts) vs ∧
      l'.scopes = l.scopes.defineGlobals Binding.operand vs ∧ ds = vs.map fun v ↦ (v.1, v.2.ty)
  | .bindings bs => ∃ ms l' vs, (lowerBindings bs).outcome l = (.ok ms, l') ∧
      Resolved s fs (.bindings bs ms vs) [] ∧
      l'.scopes = l.scopes.defineAll (vs.map fun v ↦ (v.1, v.2.operand)) ∧
      (vs.map fun v ↦ (v.1, v.2.ty)) = bindingTypes bs ∧ ∀ v ∈ vs, v.2.around = fs

section

variable {s : Scopes Binding} {fs : List Captured} {l : Lowerer} {ds : List (String × Ty)}

section Names

variable {h : FnHead} {params : List Ty} {ret : Ty} {id : Nat} {temps : List Temp}

variable (ret id) in
theorem length_ownOperands (hparams : params.length = h.params.length)
    (htemps : temps.map Temp.hint = h.allParams.map some) :
    (h.bindings params ret).length = (ownOperands h id temps).length := by
  have hlength := congrArg List.length htemps
  have hnames := congrArg List.length (FnHead.map_fst_bindings ret hparams)
  simp only [List.length_map, List.length_append] at hlength hnames
  simp only [ownOperands, List.length_append, List.length_map, hnames, hlength]

theorem ownBindings_types (around : List Captured) (hparams : params.length = h.params.length)
    (htemps : temps.map Temp.hint = h.allParams.map some) :
    ((ownBindings h params ret (ownOperands h id temps) around).map fun v ↦ (v.1, v.2.ty))
      = h.bindings params ret := by
  have hlength := length_ownOperands ret id hparams htemps
  rw [ownBindings, List.map_map]
  exact List.map_fst_zip (Nat.le_of_eq hlength)

theorem ownBindings_names (around : List Captured) (hparams : params.length = h.params.length)
    (htemps : temps.map Temp.hint = h.allParams.map some) :
    (ownBindings h params ret (ownOperands h id temps) around).map Prod.fst
      = h.allParams ++ h.name.toList := by
  rw [← FnHead.map_fst_bindings ret hparams, ← ownBindings_types around hparams htemps,
    List.map_map]
  rfl

theorem ownBindings_operands (around : List Captured) (hparams : params.length = h.params.length)
    (htemps : temps.map Temp.hint = h.allParams.map some) :
    ((ownBindings h params ret (ownOperands h id temps) around).map fun v ↦ (v.1, v.2.operand))
      = h.allParams.zip (temps.map .temp) ++
        h.name.toList.map (·, Tree.closure (.closure h.name id)) := by
  have hlength := congrArg List.length htemps
  simp only [List.length_map] at hlength
  have hzip : ((h.bindings params ret).map Prod.fst).zip (ownOperands h id temps)
      = h.allParams.zip (temps.map .temp) ++
        h.name.toList.map (·, Tree.closure (.closure h.name id)) := by
    rw [FnHead.map_fst_bindings ret hparams, ownOperands, List.zip_append (by simp [hlength])]
    congr 1
    cases h.name <;> rfl
  rw [← hzip, List.zip_map_left, ownBindings, List.map_map]
  rfl

theorem ownBindings_around (around : List Captured) (operands : List Tree) :
    ∀ v ∈ ownBindings h params ret operands around, v.2.around = around := by
  intro v hv
  obtain ⟨b, -, rfl⟩ := List.mem_map.mp hv
  rfl

end Names

/-- A function can be lowered where its captured variables are known. Inside it, these and the names
of the function are. -/
theorem function_lowers {h : FnHead} {body : Expr} {n : Note} {params : List Ty} {ret : Ty}
    (hparams : params.length = h.params.length)
    (hn : n.captures = body.captures.without (h.allParams ++ h.name.toList))
    (hnodup : n.captures.Nodup) (hl : Tracks s fs l.scopes)
    (hneeds : ∀ x ∈ n.captures, ∃ t, l.scopes.locals.lookup x = some t)
    (hbody : ∀ {s' : Scopes Binding} {fs' : List Captured} {k : Lowerer},
      (s.map Binding.ty).enter.defineAll (h.bindings params ret) = s'.map Binding.ty →
      Tracks s' fs' k.scopes → (∀ x ∈ body.captures, ∃ t, k.scopes.locals.lookup x = some t) →
      Lowers s' fs' k [] (.expr body)) :
    ∃ id t k, Resolved s fs (.function h body n id t) [] ∧
      (h.isGlobal = false → (Lower.fn h n body.lower).outcome l = (.ok t, ⟨k, l.scopes⟩)) ∧
      ∀ name, h.isGlobal = true → h.name = some name → (Lower.fn h n body.lower).outcome l
        = (.ok (.after (.move ⟨k, some name⟩ t) (.temp ⟨k, some name⟩)),
            ⟨k + 1, l.scopes.defineGlobal name (.closure (.closure h.name id))⟩) := by
  -- what is known of a local name is all that is known of it
  have hlookup : ∀ {x t}, l.scopes.locals.lookup x = some t → l.scopes.lookup x = some t :=
    fun hx ↦ by rw [hl.wellFormed'.lookup_eq, hx, Option.some_or]
  obtain ⟨cs, l₁, hcaptures, hscopes₁, hcells, hsources⟩ := Lower.captures_ok
    (l := { l with next := l.next + 1 }) n.token.line fun x hx ↦ (hneeds x hx).imp fun _ ↦ hlookup
  have hlocal : ∀ c ∈ cs, l.scopes.locals.lookup c.1.name = some c.2 := by
    intro c hc
    obtain ⟨t, ht⟩ := hneeds c.1.name (hcells ▸ List.mem_map_of_mem hc)
    cases (hlookup ht).symm.trans (hsources c hc)
    exact ht
  -- the frame of the body
  let cells := cs.map fun c ↦ (c.1.name, Tree.temp c.1.slot)
  let base := (l.scopes.enterFrom ScopeId.global).defineAll cells
  have hframe : (cs.map Prod.fst).foldl (fun s c ↦ s.define c.name (.temp c.slot))
      (l₁.scopes.enterFrom ScopeId.global) = base := by
    simp only [base, cells, Scopes.defineAll, List.foldl_map, hscopes₁]
  obtain ⟨temps, l₂, htemps, hhints, hscopes₂⟩ := Lower.params_ok h.allParams ⟨l₁.next, base⟩
  let own := ownBindings h params ret (ownOperands h l.next temps) (cs :: fs)
  let inside := base.defineAll (own.map fun v ↦ (v.1, v.2.operand))
  have hinside : h.name.elim l₂.scopes
      (l₂.scopes.define · (.closure (.closure h.name l.next)))
        = inside := by
    simp only [inside]
    rw [ownBindings_operands _ hparams hhints, Scopes.defineAll_append, ← hscopes₂]
    cases h.name <;> rfl
  have htracks : Tracks (s.enter.defineAll own) (cs :: fs) inside :=
    (hl.function hlocal).defineAll hl.wellFormed.current_enter (ownBindings_around _ _)
  -- what the body takes from around it is a name of the function or captured
  have hbase : base.WellFormed :=
    (hl.wellFormed'.enterFrom hl.wellFormed'.global_lt).defineAll cells
  have hopen := hl.wellFormed'.current_enterFrom ScopeId.global
  have hneeds' : ∀ x ∈ body.captures, ∃ t, inside.locals.lookup x = some t := by
    intro x hx
    have hnames : (own.map fun v ↦ (v.1, v.2.operand)).map Prod.fst
        = h.allParams ++ h.name.toList := by
      rw [List.map_map]
      exact ownBindings_names _ hparams hhints
    have hopen' : base.current ≠ ScopeId.global := by
      rw [Scopes.current_defineAll]
      exact hopen
    by_cases hown : x ∈ h.allParams ++ h.name.toList
    · exact hbase.exists_lookup_locals_defineAll _ hopen' (hnames ▸ hown)
    · have hcaptured : x ∈ cells.map Prod.fst := by
        rw [List.map_map]
        exact hcells ▸ hn ▸ Captures.mem_without.mpr ⟨hx, hown⟩
      rw [hbase.lookup_locals_defineAll _ hopen' (hnames ▸ hown)]
      exact (hl.wellFormed'.enterFrom hl.wellFormed'.global_lt).exists_lookup_locals_defineAll _
        hopen hcaptured
  obtain ⟨t, l₃, vs, ht, hresolved, hscopes₃, hvs⟩ := hbody (k := ⟨l₂.next, inside⟩) (by
    rw [Scopes.map_defineAll, Scopes.map_enter, ownBindings_types _ hparams hhints]) htracks hneeds'
  obtain rfl : vs = [] := List.map_eq_nil_iff.mp hvs.symm
  have houtside : l₃.scopes.exit l₁.scopes.current = l.scopes := by
    rw [hscopes₃, hscopes₁]
    exact (Scopes.exit_defineAll _ _ _).trans
      ((Scopes.exit_defineAll _ _ _).trans (Scopes.exit_enterFrom _ _))
  refine ⟨l.next, _, l₃.next,
    .function hparams hhints hcells hnodup (fun c hc ↦ hl.captured (hlocal c hc)) hresolved, ?_, ?_⟩
  · intro hglobal
    refine Lower.outcome_fn.mpr ⟨cs, l₁, temps, l₂, t, l₃, hcaptures, hframe ▸ htemps,
      hinside ▸ ht, ?_⟩
    rw [houtside, hglobal]
    rfl
  · intro name hglobal hname
    refine Lower.outcome_fn.mpr ⟨cs, l₁, temps, l₂, t, l₃, hcaptures, hframe ▸ htemps,
      hinside ▸ ht, ?_⟩
    rw [houtside, hglobal, hname]
    rfl

end

end TaggedLisp.Ir

namespace TaggedLisp

open Ir

variable {ds : List (String × Ty)} {p : Phrase}

theorem lowerAll_cons_ok {e : Expr} {es : List Expr} {l l' : Lowerer} {ts : List Tree} :
    (lowerAll (e :: es)).outcome l = (.ok ts, l') ↔ ∃ t l₁ ts', e.lower.outcome l = (.ok t, l₁) ∧
      (lowerAll es).outcome l₁ = (.ok ts', l') ∧ ts = t :: ts' := by
  constructor
  · intro h
    obtain ⟨t, l₁, ht, h⟩ := Pass.outcome_bind_ok.mp h
    obtain ⟨ts', l₂, hts, h⟩ := Pass.outcome_bind_ok.mp h
    cases h
    exact ⟨t, l₁, ts', ht, hts, rfl⟩
  · rintro ⟨t, l₁, ts', ht, hts, rfl⟩
    exact Pass.outcome_bind_ok.mpr ⟨t, l₁, ht, Pass.outcome_bind_ok.mpr ⟨ts', l', hts, rfl⟩⟩

/-- What parts take from around them is taken by the whole. -/
theorem Expr.needs_parts {e : Expr} {es : List Expr} {P : String → Prop}
    (h : ∀ x, (Phrase.expr e).Needs x → P x) (he : e.captures = Expr.capturesOf es) :
    ∀ x, (Phrase.exprs es).Needs x → P x :=
  fun x hx ↦ h x (by
    rw [Phrase.needs_expr, he]
    exact Expr.mem_capturesOf.mpr hx)

/-- What is scoped can be lowered where the names that it takes from around it are known, and every
symbol is lowered to what stands for its binding. -/
theorem Scoped.lowers {sc : Scopes Ty} (h : Scoped sc p ds) {s : Scopes Binding}
    {fs : List Captured} {l : Lowerer} (hsc : sc = s.map Binding.ty) (hl : Tracks s fs l.scopes)
    (hneeds : ∀ x, p.Needs x → ∃ t, l.scopes.locals.lookup x = some t) : Lowers s fs l ds p := by
  induction h generalizing s fs l with
  | literal hn => exact ⟨_, l, [], rfl, .literal, rfl, rfl⟩
  | @symbol sc name n scope hname hn =>
    subst hsc
    rw [Scopes.lookupWithScope_map] at hname
    obtain ⟨⟨β, _⟩, hβ, hpair⟩ := Option.map_eq_some_iff.mp hname
    obtain ⟨hty, rfl⟩ := Prod.mk.inj hpair
    obtain ⟨t, ht, hstands⟩ := hl.standsFor hβ fun hscope ↦ hneeds name (by
      rw [Phrase.needs_expr, Expr.captures, Expr.note, hn, if_neg hscope]
      exact List.mem_singleton_self _)
    exact ⟨t, l, [], (Lower.outcome_resolve l).mpr ⟨ht, rfl⟩, .symbol hstands hty.symm hn, rfl,
      rfl⟩
  | group helems hn ih =>
    obtain ⟨ts, l', vs, hts, hresolved, hrest⟩ := ih hsc hl (Expr.needs_parts hneeds hn)
    exact ⟨_, l', vs, Pass.outcome_bind_ok.mpr ⟨ts, l', hts, rfl⟩, .group hresolved, hrest⟩
  | cond hparts hn ih =>
    obtain ⟨ts, l', vs, hts, hresolved, hrest⟩ := ih (l := ⟨l.next + 4, l.scopes⟩) hsc hl
      (Expr.needs_parts hneeds hn)
    obtain ⟨t, l₁, _, ht, hts₁, rfl⟩ := lowerAll_cons_ok.mp hts
    obtain ⟨t₁, l₂, _, ht₁, hts₂, rfl⟩ := lowerAll_cons_ok.mp hts₁
    obtain ⟨t₂, l₃, _, ht₂, hts₃, rfl⟩ := lowerAll_cons_ok.mp hts₂
    cases hts₃
    exact ⟨_, l', vs, Pass.outcome_bind_ok.mpr ⟨_, _, rfl, Pass.outcome_bind_ok.mpr ⟨t, l₁, ht,
      Pass.outcome_bind_ok.mpr ⟨t₁, l₂, ht₁, Pass.outcome_bind_ok.mpr ⟨t₂, l', ht₂, rfl⟩⟩⟩⟩,
      .cond hresolved, hrest⟩
  | @letIn sc bs body n hbindings hbody hn ih ih' =>
    have hsc' : sc.enter = s.enter.map Binding.ty := by rw [hsc, Scopes.map_enter]
    have hneeds' : ∀ x ∈ Check.letCaptures bs body,
        ∃ t, l.scopes.enter.locals.lookup x = some t := by
      intro x hx
      rw [hl.wellFormed'.locals_enter]
      rw [← hn] at hx
      exact hneeds x (Phrase.needs_expr.mpr hx)
    obtain ⟨ms, l₁, vs, hms, hresolved, hscopes, htypes, haround⟩ :=
      ih (l := { l with scopes := l.scopes.enter }) hsc' hl.enter fun x hx ↦
        hneeds' x (Check.mem_letCaptures.mpr (.inl hx))
    have hnames : (vs.map fun v ↦ (v.1, v.2.operand)).map Prod.fst = bs.map Prod.fst := by
      have := congrArg (List.map Prod.fst) htypes
      simpa [bindingTypes, Function.comp_def] using this
    have hopen := hl.wellFormed'.current_enter
    have hneeds'' : ∀ x ∈ body.captures, ∃ t, l₁.scopes.locals.lookup x = some t := by
      intro x hx
      rw [hscopes]
      by_cases hbound : x ∈ bs.map Prod.fst
      · exact hl.wellFormed'.enter.exists_lookup_locals_defineAll _ hopen (hnames ▸ hbound)
      · rw [hl.wellFormed'.enter.lookup_locals_defineAll _ hopen (hnames ▸ hbound)]
        exact hneeds' x (Check.mem_letCaptures.mpr (.inr ⟨hx, hbound⟩))
    have hsc'' : sc.enter.defineAll (bindingTypes bs) = (s.enter.defineAll vs).map Binding.ty := by
      rw [Scopes.map_defineAll, htypes, hsc']
    obtain ⟨t, l₂, vs', ht, hresolved', hscopes', hvs'⟩ := ih' hsc''
      (hscopes ▸ hl.enter.defineAll hl.wellFormed.current_enter haround) hneeds''
    obtain rfl : vs' = [] := List.map_eq_nil_iff.mp hvs'.symm
    refine ⟨_, _, [], Lower.outcome_within.mpr ⟨l₂, Pass.outcome_bind_ok.mpr ⟨ms, l₁, hms,
      Pass.outcome_bind_ok.mpr ⟨t, l₂, ht, rfl⟩⟩, rfl⟩, .letIn hresolved hresolved', ?_, rfl⟩
    change l₂.scopes.exit l.scopes.current = l.scopes
    rw [hscopes', hscopes]
    exact (Scopes.exit_defineAll _ _ _).trans (Scopes.exit_enterFrom _ _)
  | fn hparams hbody hn hglobal ih =>
    subst hsc
    have hnodup := hn ▸ Captures.nodup_without (hbody.nodup_captures _ (List.mem_singleton_self _))
    obtain ⟨id, t, k, hresolved, hok, -⟩ := function_lowers hparams hn hnodup hl hneeds ih
    exact ⟨t, _, [], hok hglobal, .fn hglobal hresolved, rfl, rfl⟩
  | @defn sc h body n params ret name hparams hbody hn hglobal hs hname ih =>
    subst hsc
    have hnodup := hn ▸ Captures.nodup_without (hbody.nodup_captures _ (List.mem_singleton_self _))
    obtain ⟨id, t, k, hresolved, -, hok⟩ := function_lowers hparams hn hnodup hl hneeds ih
    exact ⟨_, _, [(name, _)], hok name hglobal hname, .defn hglobal hs hname hresolved, rfl, rfl⟩
  | seq hsteps hn ih =>
    obtain ⟨ts, l', vs, hts, hresolved, hrest⟩ := ih hsc hl (Expr.needs_parts hneeds hn)
    exact ⟨_, l', vs, Pass.outcome_bind_ok.mpr ⟨ts, l', hts, rfl⟩, .seq hresolved, hrest⟩
  | call hparts hn ih =>
    obtain ⟨ts, l', vs, hts, hresolved, hrest⟩ := ih hsc hl (Expr.needs_parts hneeds hn)
    obtain ⟨t, l₁, ts, ht, hts₁, rfl⟩ := lowerAll_cons_ok.mp hts
    exact ⟨_, l', vs, Pass.outcome_bind_ok.mpr ⟨t, l₁, ht, Pass.outcome_bind_ok.mpr
      ⟨ts, l', hts₁, rfl⟩⟩, .call hresolved, hrest⟩
  | nil => exact ⟨[], l, [], rfl, .nil, rfl, rfl⟩
  | @cons sc e es ds ds' he hes ih ih' =>
    obtain ⟨t, l₁, vs, ht, hresolved, hscopes, rfl⟩ := ih hsc hl fun x hx ↦
      hneeds x (Phrase.needs_cons.mpr (.inl hx))
    have hsc' : sc.defineGlobals id (vs.map fun v ↦ (v.1, v.2.ty))
        = (s.defineGlobals id vs).map Binding.ty := by
      rw [Scopes.map_defineGlobals, hsc, Scopes.defineGlobals, List.foldl_map]
      rfl
    have hneeds' : ∀ x, (Phrase.exprs es).Needs x → ∃ t, l₁.scopes.locals.lookup x = some t := by
      rw [hscopes, Scopes.locals_defineGlobals]
      exact fun x hx ↦ hneeds x (Phrase.needs_cons.mpr (.inr hx))
    obtain ⟨ts, l₂, vs', hts, hresolved', hscopes', rfl⟩ :=
      ih' hsc' (hscopes ▸ hl.defineGlobals vs) hneeds'
    refine ⟨t :: ts, l₂, vs ++ vs', lowerAll_cons_ok.mpr ⟨t, l₁, ts, ht, hts, rfl⟩,
      .cons hresolved hresolved', ?_, List.map_append.symm⟩
    rw [hscopes', hscopes, Scopes.defineGlobals_append]
  | bound => exact ⟨[], l, [], rfl, .bound, rfl, rfl, List.forall_mem_nil _⟩
  | @bind sc name value bs hopen hvalue hrest ih ih' =>
    obtain ⟨t, l₁, vs, ht, hresolved, hscopes, hvs⟩ := ih hsc hl fun x hx ↦
      hneeds x (Phrase.needs_bind.mpr (.inl hx))
    obtain rfl : vs = [] := List.map_eq_nil_iff.mp hvs.symm
    have hscopes : l₁.scopes = l.scopes := hscopes
    have hopen' : s.current ≠ ScopeId.global := by
      rw [hsc] at hopen
      exact hopen
    let temp : Temp := ⟨l₁.next, some name⟩
    let β : Binding := ⟨value.ty, .temp temp, fs⟩
    have hsc' : sc.define name value.ty = (s.define name β).map Binding.ty := by
      rw [Scopes.map_define, hsc]
    have hneeds' : ∀ x, (Phrase.bindings bs).Needs x →
        ∃ t, (l.scopes.define name β.operand).locals.lookup x = some t := by
      intro x hx
      rw [hl.wellFormed'.locals_define (hl.isOpen hopen'), List.lookup_cons]
      cases hxn : x == name with
      | true => exact ⟨_, rfl⟩
      | false => exact hneeds x (Phrase.needs_bind.mpr (.inr ⟨ne_of_beq_false hxn, hx⟩))
    obtain ⟨ms, l₂, vs, hms, hresolved', hscopes', htypes, haround⟩ :=
      ih' (l := ⟨l₁.next + 1, l.scopes.define name β.operand⟩) hsc' (hl.define hopen' name rfl)
        hneeds'
    refine ⟨.move temp t :: ms, l₂, (name, β) :: vs, ?_, .bind hresolved rfl hresolved', hscopes',
      congrArg ((name, value.ty) :: ·) htypes, List.forall_mem_cons.mpr ⟨rfl, haround⟩⟩
    refine Pass.outcome_bind_ok.mpr ⟨t, l₁, ht, Pass.outcome_bind_ok.mpr ⟨_, _, rfl,
      Pass.outcome_bind_ok.mpr ⟨_, _, rfl, Pass.outcome_bind_ok.mpr ⟨ms, l₂, ?_, rfl⟩⟩⟩⟩
    rw [hscopes]
    exact hms

/-! ## Programs -/

namespace Ir

/-- The bindings of the builtin functions. -/
def builtinBindings : List (String × Binding) :=
  builtins.map fun b ↦ (b.name, ⟨b.ty, .closure (.builtin b.symbol), []⟩)

/-- The scopes in which a program starts. -/
def startScopes : Scopes Binding := Scopes.empty.defineGlobals id builtinBindings

theorem startScopes_types : startScopes.map Binding.ty = Checker.start.scopes := by
  rw [startScopes, Scopes.map_defineGlobals, Scopes.defineGlobals, builtinBindings, List.foldl_map]
  rfl

theorem startScopes_operands (n : Nat) :
    startScopes.map Binding.operand = (Lowerer.start n).scopes := by
  rw [startScopes, Scopes.map_defineGlobals, Scopes.defineGlobals, builtinBindings, List.foldl_map]
  rfl

theorem tracks_start (n : Nat) : Tracks startScopes [] (Lowerer.start n).scopes := by
  have hempty : Tracks .empty [] .empty :=
    ⟨Scopes.wellFormed_empty, Scopes.wellFormed_empty, id, rfl, fun h ↦ by cases h⟩
  rw [← startScopes_operands, startScopes, Scopes.map_defineGlobals]
  exact hempty.defineGlobals builtinBindings

/-- A checked program can be lowered, and all its names are resolved. -/
theorem checkProgram_lowers {forms : List Form} {es : List Expr} {types : TypeTable}
    (h : checkProgram forms = .ok (es, types)) (n : Nat) :
    ∃ trees l ds, (lowerAll es).outcome (.start n) = (.ok trees, l) ∧
      Resolved startScopes [] (.exprs es trees) ds := by
  rw [checkProgram] at h
  split at h
  · next hcheck =>
    cases h
    obtain ⟨ds, hscoped, -, hclosed⟩ := checkAll_scoped hcheck
    obtain ⟨trees, l, vs, hlower, hresolved, -⟩ := hscoped.lowers startScopes_types.symm
      (tracks_start n) fun x hx ↦ absurd hx (hclosed x)
    exact ⟨trees, l, vs, hlower, hresolved⟩
  · cases h

/-- **Names of a program.** What was checked can be lowered. The checker resolves its names in the
types of the scopes in which every symbol is lowered to what stands for its binding, and at the end
the global names of both passes are those of the same bindings. -/
theorem lowered_names_resolved {forms : List Form} {es : List Expr} {c : Checker}
    (hcheck : (checkAll forms).outcome .start = (.ok es, c)) (n : Nat) :
    ∃ trees l ds, (lowerAll es).outcome (.start n) = (.ok trees, l) ∧
      Scoped (startScopes.map Binding.ty) (.exprs es) (ds.map fun v ↦ (v.1, v.2.ty)) ∧
      Resolved startScopes [] (.exprs es trees) ds ∧
      c.scopes = (startScopes.defineGlobals id ds).map Binding.ty ∧
      l.scopes = (startScopes.defineGlobals id ds).map Binding.operand := by
  obtain ⟨ds, hscoped, hc, hclosed⟩ := checkAll_scoped hcheck
  obtain ⟨trees, l, vs, htrees, hresolved, hl, rfl⟩ := hscoped.lowers startScopes_types.symm
    (tracks_start n) fun x hx ↦ absurd hx (hclosed x)
  refine ⟨trees, l, vs, htrees, startScopes_types ▸ hscoped, hresolved, ?_, ?_⟩
  · rw [hc, Scopes.map_defineGlobals, startScopes_types, Scopes.defineGlobals, List.foldl_map]
    rfl
  · rw [hl, Scopes.map_defineGlobals, startScopes_operands]
    rfl

/-- The form `(defn f [x] (let [y x] (fn [x] (fn [] (f (+ x y))))))`. -/
def captureForm : Form :=
  let symbol (name : String) : Form := .atom (.symbol name) ⟨.symbol, name, 1⟩
  let list (fs : List Form) : Form := .group .list fs ⟨.opening .list, "(", 1⟩
  let vector (fs : List Form) : Form := .group .vector fs ⟨.opening .vector, "[", 1⟩
  let sum := list [symbol "+", symbol "x", symbol "y"]
  let inner := list [symbol "fn", vector [], list [symbol "f", sum]]
  let outer := list [symbol "fn", vector [symbol "x"], inner]
  list [symbol "defn", symbol "f", vector [symbol "x"],
    list [symbol "let", vector [symbol "y", symbol "x"], outer]]

/-- Names are captured through two functions, one of them hides another one, and a function is known
by its own name in functions inside it. -/
theorem captureForm_names_resolved : ∃ es c trees l ds,
    (checkAll [captureForm]).outcome .start = (.ok es, c) ∧
    (lowerAll es).outcome (.start 0) = (.ok trees, l) ∧
    Scoped (startScopes.map Binding.ty) (.exprs es) (ds.map fun v ↦ (v.1, v.2.ty)) ∧
    Resolved startScopes [] (.exprs es trees) ds ∧
    c.scopes = (startScopes.defineGlobals id ds).map Binding.ty ∧
    l.scopes = (startScopes.defineGlobals id ds).map Binding.operand := by
  obtain ⟨es, c, hcheck⟩ : ∃ es c, (checkAll [captureForm]).outcome .start = (.ok es, c) :=
    ⟨_, _, rfl⟩
  obtain ⟨trees, l, ds, hresolved⟩ := lowered_names_resolved hcheck 0
  exact ⟨es, c, trees, l, ds, hcheck, hresolved⟩

end Ir

end TaggedLisp
