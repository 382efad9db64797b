import Mathlib.Data.List.TakeDrop
import Mathlib.Data.List.TakeWhile
import TaggedLisp.Proofs.Scoping

/-!
# Free names and captures

The captures of an expression are computed while it is checked, from the captures of its parts and
the scopes at its symbols. `Expr.free` lists the free occurrences of names without looking at
scopes, types or notes, and `captures_exact` says that the two agree at every node: what is captured
are the first occurrences of the free names that stand for local bindings.

`Form.free` lists the same occurrences in the source form, before anything is checked.
-/

namespace TaggedLisp

/-! ## Free occurrences -/

namespace Expr

mutual

/-- The free occurrences of names in an expression, in the order in which they stand there. -/
def free : Expr → List String
  | literal _ _ => []
  | symbol name _ => [name]
  | group _ elems _ => freeAll elems
  | cond test yes no _ => test.free ++ (yes.free ++ no.free)
  | letIn bindings body _ => freeLet bindings body.free
  | fn h body _ => Captures.without body.free (h.allParams ++ h.name.toList)
  | seq steps _ => freeAll steps
  | call callee args _ _ => callee.free ++ freeAll args

/-- The free occurrences in several expressions. -/
def freeAll : List Expr → List String
  | [] => []
  | e :: es => e.free ++ freeAll es

/-- The free occurrences in a `let` whose body has those in `rest`. A name is bound from behind its
value on. -/
def freeLet : List (String × Expr) → (rest : List String) → List String
  | [], rest => rest
  | (name, value) :: bs, rest => value.free ++ Captures.without (freeLet bs rest) [name]

end

theorem mem_freeAll {x : String} {es : List Expr} :
    x ∈ freeAll es ↔ ∃ e ∈ es, x ∈ e.free := by
  induction es with
  | nil => simp [freeAll]
  | cons e es ih => simp [freeAll, ih]

theorem mem_freeLet {x : String} {before : List (String × Expr)} (bs : List (String × Expr))
    {rest : List String} (hx : x ∈ freeLet bs rest) (hbefore : x ∉ before.map Prod.fst) :
    x ∈ freeLet (before ++ bs) rest := by
  induction before with
  | nil => exact hx
  | cons b before ih =>
    obtain ⟨name, value⟩ := b
    obtain ⟨hname, hbefore⟩ := List.ne_and_not_mem_of_not_mem_cons hbefore
    have hmem := ih hbefore
    simp only [List.cons_append, freeLet, Captures.without, List.mem_append, List.mem_filter]
    exact Or.inr ⟨hmem, by simpa using hname⟩

/-- The expression `inner` stands in another one, below constructs that bind the names `bound`. -/
inductive Within (inner : Expr) : (bound : List String) → Expr → Prop
  | here : Within inner [] inner
  | elem {bound shape elems e n} (he : e ∈ elems) (h : Within inner bound e) :
      Within inner bound (group shape elems n)
  | branch {bound test yes no e n} (he : e ∈ [test, yes, no]) (h : Within inner bound e) :
      Within inner bound (cond test yes no n)
  | value {bound before name value after body n} (h : Within inner bound value) :
      Within inner (before.map Prod.fst ++ bound)
        (letIn (before ++ (name, value) :: after) body n)
  | letBody {bound bindings body n} (h : Within inner bound body) :
      Within inner (bindings.map Prod.fst ++ bound) (letIn bindings body n)
  | fnBody {bound body n} {head : FnHead} (h : Within inner bound body) :
      Within inner (head.allParams ++ head.name.toList ++ bound) (fn head body n)
  | step {bound steps e n} (he : e ∈ steps) (h : Within inner bound e) :
      Within inner bound (seq steps n)
  | operand {bound callee args spread e n} (he : e ∈ callee :: args) (h : Within inner bound e) :
      Within inner bound (call callee args spread n)

end Expr

/-! ## First occurrences -/

namespace Captures

variable {p q : String → Bool} {l l' names : List String} {a b : Captures}

theorem eraseDups_filter (p : String → Bool) (l : List String) :
    (l.filter p).eraseDups = l.eraseDups.filter p := by
  match l with
  | [] => rfl
  | x :: l =>
    have ih := eraseDups_filter p (l.filter (!· == x))
    rw [List.eraseDups_cons, List.filter_cons, List.filter_cons, ← ih]
    simp only [List.filter_filter]
    by_cases hx : p x = true
    · rw [if_pos hx, if_pos hx, List.eraseDups_cons, List.filter_filter]
      simp only [Bool.and_comm]
    · rw [if_neg hx, if_neg hx]
      -- the occurrences of `x` go anyway
      congr 1
      refine List.filter_congr fun y _ ↦ ?_
      by_cases hy : y = x
      · simp [hy, hx]
      · simp [hy]
termination_by l.length
decreasing_by exact Nat.lt_succ_of_le (List.length_filter_le _ _)

/-- The first occurrences of the names that satisfy `p`. -/
def firsts (p : String → Bool) (l : List String) : Captures := (l.filter p).eraseDups

theorem firsts_append : firsts p (l ++ l') = (firsts p l).union (firsts p l') := by
  simp only [union, firsts, List.filter_append, List.eraseDups_append, List.removeAll]
  rw [← eraseDups_filter]
  congr 2
  refine List.filter_congr fun x _ ↦ ?_
  simp only [List.elem_eq_mem, List.mem_eraseDups]

/-- Names that are bound are none of those that are taken from around. -/
theorem firsts_without (h : ∀ x, x ∉ names → p x = q x) :
    (firsts p l).without names = firsts q (without l names) := by
  rw [without, firsts, firsts, without, ← eraseDups_filter, List.filter_filter, List.filter_filter]
  congr 1
  refine List.filter_congr fun x _ ↦ ?_
  by_cases hx : x ∈ names
  · simp [hx]
  · simp [hx, h x hx]

theorem union_assoc {c : Captures} : (a.union b).union c = a.union (b.union c) := by
  simp only [union, List.append_assoc, List.filter_append, List.filter_filter]
  congr 2
  refine List.filter_congr fun x _ ↦ ?_
  by_cases hx : x ∈ a <;> simp [hx]

theorem without_union : (a.union b).without names = (a.without names).union (b.without names) := by
  simp only [union, without, List.filter_append, List.filter_filter]
  congr 1
  refine List.filter_congr fun x _ ↦ ?_
  by_cases hx : x ∈ names <;> simp [hx]

theorem without_nil : a.without [] = a := by
  simp [without]

theorem without_without {names' : List String} :
    (a.without names).without names' = a.without (names' ++ names) := by
  simp only [without, List.filter_filter]
  refine List.filter_congr fun x _ ↦ ?_
  simp

end Captures

namespace Check

/-- The names that a `let` takes from around it when those in `rest` are taken by its body. -/
def takenByLet : List (String × Expr) → (rest : Captures) → Captures
  | [], rest => rest
  | (name, value) :: bs, rest => value.captures.union ((takenByLet bs rest).without [name])

theorem letCaptures_eq (bs : List (String × Expr)) (body : Expr) :
    letCaptures bs body = takenByLet bs body.captures := by
  -- behind some bindings: what they capture, and the names that they bind
  have hfold : ∀ (acc : Captures) (bound : List String),
      let r := bs.foldl (fun (acc : Captures × List String) (b : String × Expr) ↦
        (Captures.union acc.1 (b.2.captures.without acc.2), acc.2 ++ [b.1])) (acc, bound)
      r.1.union (body.captures.without r.2)
        = acc.union ((takenByLet bs body.captures).without bound) := by
    induction bs with
    | nil => exact fun _ _ ↦ rfl
    | cons b bs ih =>
      intro acc bound
      refine (ih _ _).trans ?_
      rw [takenByLet, Captures.without_union, Captures.without_without, Captures.union_assoc]
  have hnil := hfold [] []
  rw [Captures.without_nil] at hnil
  exact hnil.trans (by simp [Captures.union])

end Check

theorem Expr.capturesOf_cons (e : Expr) (es : List Expr) :
    Expr.capturesOf (e :: es) = e.captures.union (Expr.capturesOf es) := by
  have hfold : ∀ acc : Captures, es.foldl (fun acc e ↦ acc.union e.captures) acc
      = acc.union (Expr.capturesOf es) := by
    induction es with
    | nil => exact fun acc ↦ (List.append_nil acc).symm
    | cons e es ih =>
      intro acc
      have hes : Expr.capturesOf (e :: es)
          = (Captures.union [] e.captures).union (Expr.capturesOf es) := ih _
      rw [List.foldl_cons, ih, hes, Captures.union_assoc]
      simp [Captures.union]
  refine (hfold _).trans ?_
  simp [Captures.union]

/-! ## Local names -/

namespace Scopes

variable {α : Type} {s : Scopes α} {x : String}

/-- Whether a name stands for a binding that is not global. -/
def isLocal (s : Scopes α) (x : String) : Bool :=
  (s.lookupWithScope x).any fun p ↦ p.2 != ScopeId.global

theorem WellFormed.isLocal_eq (h : s.WellFormed) (x : String) :
    s.isLocal x = (s.locals.lookup x).isSome := by
  rcases h.lookupWithScope_eq x with ⟨v, scope, hv, hlookup, hscope⟩ | ⟨hnone, hlookup⟩
  · simp [isLocal, hv, hlookup, hscope]
  · cases hglobal : s.globals.lookup x <;> simp [isLocal, hnone, hlookup, hglobal]

/-- Nothing is local where no construct is open. -/
theorem WellFormed.isLocal_of_isGlobal (h : s.WellFormed) (hs : s.isGlobal = true) (x : String) :
    s.isLocal x = false := by
  obtain ⟨L, f, -, hvisible, hL⟩ := h.visible_eq
  have hcurrent : s.current = ScopeId.global := beq_iff_eq.mp hs
  have hnil : L = [] := List.eq_nil_iff_forall_not_mem.mpr fun p hp ↦
    absurd (hcurrent ▸ (hL p hp).2) (Nat.not_le_of_lt (hL p hp).1)
  rw [h.isLocal_eq, locals, hvisible, hnil]
  simp

theorem WellFormed.isLocal_enter (h : s.WellFormed) : s.enter.isLocal = s.isLocal := by
  funext x
  rw [h.enter.isLocal_eq, h.isLocal_eq, h.locals_enter]

theorem WellFormed.isLocal_defineGlobals {β : Type} (h : s.WellFormed) (f : β → α)
    (ds : List (String × β)) : (s.defineGlobals f ds).isLocal = s.isLocal := by
  funext x
  rw [(h.defineGlobals f ds).isLocal_eq, h.isLocal_eq, locals_defineGlobals]

/-- Names become local by being bound in a frame that is not global. -/
theorem WellFormed.isLocal_defineAll (h : s.WellFormed) (hs : s.current ≠ ScopeId.global)
    (bs : List (String × α)) (x : String) :
    (s.defineAll bs).isLocal x = ((bs.map Prod.fst).contains x || s.isLocal x) := by
  rw [(h.defineAll bs).isLocal_eq]
  by_cases hx : x ∈ bs.map Prod.fst
  · obtain ⟨v, hv⟩ := h.exists_lookup_locals_defineAll bs hs hx
    rw [hv, List.contains_iff_mem.mpr hx]
    rfl
  · rw [h.lookup_locals_defineAll bs hs hx, ← h.isLocal_eq]
    simp [hx]

theorem WellFormed.isLocal_define (h : s.WellFormed) (hs : s.current ≠ ScopeId.global)
    (x : String) (v : α) (y : String) : (s.define x v).isLocal y = (y == x || s.isLocal y) := by
  refine (h.isLocal_defineAll hs [(x, v)] y).trans ?_
  by_cases hy : y = x <;> simp [hy]

end Scopes

/-! ## Scoped expressions -/

/-- Whether the captures of a phrase are the first free occurrences of local names. -/
def Phrase.Exact (s : Scopes Ty) : Phrase → Prop
  | expr e => e.captures = .firsts s.isLocal e.free
  | exprs es => Expr.capturesOf es = .firsts s.isLocal (Expr.freeAll es)
  | bindings bs => ∀ rest,
      Check.takenByLet bs (.firsts (s.defineAll (bindingTypes bs)).isLocal rest)
        = .firsts s.isLocal (Expr.freeLet bs rest)

theorem Scoped.exact {s : Scopes Ty} {p : Phrase} {ds : List (String × Ty)} (h : Scoped s p ds)
    (hs : s.WellFormed) : p.Exact s := by
  induction h with
  | literal hn => exact hn
  | @symbol s name n scope hname hn =>
    refine hn.trans ?_
    rw [Captures.firsts, Expr.free, List.filter_singleton, Scopes.isLocal, hname]
    by_cases hscope : scope = ScopeId.global
    · simp [hscope]
    · rw [if_neg hscope, Option.any_some, bne_iff_ne.mpr hscope]
      rfl
  | group _ hn ih | seq _ hn ih => exact hn.trans (ih hs)
  | cond _ hn ih =>
    refine hn.trans ((ih hs).trans ?_)
    simp [Expr.freeAll, Expr.free]
  | call _ hn ih => exact hn.trans (ih hs)
  | @letIn s bs body n _ _ hn ih ih' =>
    refine hn.trans ?_
    rw [Check.letCaptures_eq, ih' (hs.enter.defineAll _), ih hs.enter, hs.isLocal_enter]
    rfl
  | @fn s h body n params ret hparams _ hn _ ih
  | @defn s h body n params ret _ hparams _ hn _ _ _ ih =>
    refine hn.trans ?_
    rw [ih (hs.enter.defineAll _)]
    refine Captures.firsts_without fun x hx ↦ ?_
    rw [hs.enter.isLocal_defineAll hs.current_enter, FnHead.map_fst_bindings ret hparams,
      hs.isLocal_enter]
    simp [hx]
  | nil => rfl
  | @cons s e es ds ds' _ _ ih ih' =>
    refine (Expr.capturesOf_cons e es).trans ?_
    rw [ih hs, ih' (hs.defineGlobals _ _), hs.isLocal_defineGlobals, ← Captures.firsts_append]
    rfl
  | bound => exact fun rest ↦ rfl
  | @bind s name value bs hopen _ _ ih ih' =>
    intro rest
    rw [Check.takenByLet, ih hs, Expr.freeLet, Captures.firsts_append]
    have hbs := congrArg (Captures.without · [name]) (ih' (hs.define _ _) rest)
    refine congrArg _ (Eq.trans hbs ?_)
    refine Captures.firsts_without fun x hx ↦ ?_
    rw [hs.isLocal_define hopen]
    simp [mt List.mem_singleton.mpr hx]

/-- A function captures its free names that stand for local bindings. -/
theorem Scoped.mem_captures {s : Scopes Ty} {ds : List (String × Ty)} {e : Expr} {x : String}
    (h : Scoped s (.expr e) ds) (hs : s.WellFormed) (hx : x ∈ e.free)
    (hlocal : s.isLocal x = true) : x ∈ e.captures := by
  have hexact : e.captures = .firsts s.isLocal e.free := h.exact hs
  rw [hexact, Captures.firsts, List.mem_eraseDups]
  exact List.mem_filter.mpr ⟨hx, hlocal⟩

/-! ## Nodes -/

section

variable {s : Scopes Ty} {ds : List (String × Ty)} {e inner : Expr}

/-- Each of several expressions is scoped where the global functions of those before are known. -/
theorem Scoped.of_mem {es : List Expr} (h : Scoped s (.exprs es) ds) (hs : s.WellFormed)
    (he : e ∈ es) : ∃ s' ds', Scoped s' (.expr e) ds' ∧ s'.WellFormed ∧ s'.isLocal = s.isLocal := by
  induction es generalizing s ds with
  | nil => cases he
  | cons e' es ih =>
    cases h with
    | @cons _ _ _ ds₁ _ he' hes =>
      rcases List.mem_cons.mp he with rfl | he
      · exact ⟨s, _, he', hs, rfl⟩
      · rw [← hs.isLocal_defineGlobals id ds₁]
        exact ih hes (hs.defineGlobals id ds₁) he

/-- The value of a binding is scoped where the names before it are bound. -/
theorem Scoped.of_binding {before after : List (String × Expr)} {name : String} {value : Expr}
    (h : Scoped s (.bindings (before ++ (name, value) :: after)) ds) (hs : s.WellFormed) :
    ∃ s' ds', Scoped s' (.expr value) ds' ∧ s'.WellFormed ∧
      ∀ x, s'.isLocal x = ((before.map Prod.fst).contains x || s.isLocal x) := by
  induction before generalizing s with
  | nil =>
    cases h with
    | bind _ hvalue _ => exact ⟨s, _, hvalue, hs, fun x ↦ by simp⟩
  | cons b before ih =>
    cases h with
    | @bind _ name' value' _ hopen _ hrest =>
      obtain ⟨s', ds', hvalue, hs', hlocal⟩ := ih hrest (hs.define name' value'.ty)
      refine ⟨s', ds', hvalue, hs', fun x ↦ ?_⟩
      rw [hlocal, hs.isLocal_define hopen, List.map_cons, List.contains_cons, Bool.or_left_comm,
        Bool.or_assoc]

/-- Below names that are bound, further names may be bound. -/
theorem Scopes.isLocal_below {s s₁ s₂ : Scopes Ty} {names bound : List String}
    (h₁ : ∀ x, s₁.isLocal x = (names.contains x || s.isLocal x))
    (h₂ : ∀ x, s₂.isLocal x = (bound.contains x || s₁.isLocal x)) (x : String) :
    s₂.isLocal x = ((names ++ bound).contains x || s.isLocal x) := by
  rw [h₂, h₁, List.contains_append, Bool.or_left_comm, Bool.or_assoc]

/-- A node is scoped where the names that are bound around it are local. -/
theorem Scoped.within {bound : List String} (hwithin : inner.Within bound e)
    (h : Scoped s (.expr e) ds) (hs : s.WellFormed) :
    ∃ s' ds', Scoped s' (.expr inner) ds' ∧ s'.WellFormed ∧
      ∀ x, s'.isLocal x = (bound.contains x || s.isLocal x) := by
  induction hwithin generalizing s ds with
  | here => exact ⟨s, ds, h, hs, fun x ↦ by simp⟩
  | elem he _ ih | branch he _ ih | step he _ ih | operand he _ ih =>
    cases h
    rename_i hparts
    obtain ⟨s₁, ds₁, he, hs₁, hlocal₁⟩ := hparts.of_mem hs he
    rw [← hlocal₁]
    exact ih he hs₁
  | value _ ih =>
    cases h with
    | letIn hbindings _ _ =>
      obtain ⟨s₁, ds₁, hvalue, hs₁, hlocal₁⟩ := hbindings.of_binding hs.enter
      obtain ⟨s₂, ds₂, hinner, hs₂, hlocal₂⟩ := ih hvalue hs₁
      rw [hs.isLocal_enter] at hlocal₁
      exact ⟨s₂, ds₂, hinner, hs₂, Scopes.isLocal_below hlocal₁ hlocal₂⟩
  | @letBody _ bindings _ _ _ ih =>
    cases h with
    | letIn _ hbody _ =>
      obtain ⟨s₂, ds₂, hinner, hs₂, hlocal₂⟩ := ih hbody (hs.enter.defineAll _)
      refine ⟨s₂, ds₂, hinner, hs₂, Scopes.isLocal_below (fun x ↦ ?_) hlocal₂⟩
      rw [hs.enter.isLocal_defineAll hs.current_enter, hs.isLocal_enter, bindingTypes, List.map_map]
      rfl
  | fnBody _ ih =>
    cases h with
    | fn hparams hbody _ _ | defn hparams hbody _ _ _ _ =>
      obtain ⟨s₂, ds₂, hinner, hs₂, hlocal₂⟩ := ih hbody (hs.enter.defineAll _)
      refine ⟨s₂, ds₂, hinner, hs₂, Scopes.isLocal_below (fun x ↦ ?_) hlocal₂⟩
      rw [hs.enter.isLocal_defineAll hs.current_enter, hs.isLocal_enter,
        FnHead.map_fst_bindings _ hparams]

end

/-! ## Free occurrences in forms -/

namespace Form

/-- The names in a parameter vector, without the mark before the last one. -/
def paramNames : Form → List String
  | group .vector elems _ => (elems.filterMap symbol?).filter (· != "&")
  | _ => []

mutual

/-- The symbols in a datum. -/
def symbols : Form → List String
  | atom (.symbol name) _ => [name]
  | atom _ _ => []
  | group _ elems _ => symbolsAll elems

/-- The symbols in several data. -/
def symbolsAll : List Form → List String
  | [] => []
  | f :: fs => f.symbols ++ symbolsAll fs

end

mutual

/-- The free occurrences of names in a form, in the order in which they stand there. -/
def free : Form → List String
  | atom (.symbol name) _ => [name]
  | atom _ _ => []
  | group .vector elems _ => symbolsAll elems
  | group .list [] _ => []
  | group .list (op :: args) _ =>
    match op with
    | atom (.symbol name) _ =>
      match name with
      | "quote" => symbolsAll args
      | "if" => freeAll args
      | "do" => freeAll args
      | "fn" => freeFn args
      | "defn" => freeFn args
      | "let" => freeLet args
      | _ => name :: freeAll args
    | op => op.free ++ freeAll args

/-- The free occurrences in several forms. -/
def freeAll : List Form → List String
  | [] => []
  | f :: fs => f.free ++ freeAll fs

/-- The free occurrences in the parts of a function. -/
def freeFn : List Form → List String
  | [name, params, body] => Captures.without body.free (params.paramNames ++ name.symbol?.toList)
  | [params, body] => Captures.without body.free params.paramNames
  | _ => []

/-- The free occurrences in the parts of a `let`. -/
def freeLet : List Form → List String
  | [group .vector pairs _, body] => freePairs pairs body.free
  | _ => []

/-- The free occurrences in names and values, with those in `rest` behind. -/
def freePairs : List Form → (rest : List String) → List String
  | name :: value :: pairs, rest =>
    value.free ++ Captures.without (freePairs pairs rest) name.symbol?.toList
  | _, rest => rest

end

end Form

namespace Check

open Pass (Gives)

theorem gives_atom (a : Atom) (t : Token) :
    Gives (atom a t) fun e ↦ e.free = (Form.atom a t).free := by
  cases a with
  | nil | boolean | string => exact .pure rfl
  | number n =>
    rw [atom]
    split
    · exact .pure rfl
    · exact .fail
  | symbol name =>
    refine Gives.bind .trivial fun c _ ↦ ?_
    split
    · exact .fail
    · exact .pure rfl

theorem gives_cond (op : Token) (test yes no : Expr) :
    Gives (cond op test yes no) fun e ↦ e.free = test.free ++ (yes.free ++ no.free) := by
  refine Gives.bind .trivial fun agree _ ↦ ?_
  split
  · exact .pure rfl
  · exact Gives.bind .trivial fun _ _ ↦ Gives.bind .trivial fun _ _ ↦ .fail

theorem free_seq (op : Token) (steps : List Expr) : (seq op steps).free = Expr.freeAll steps := by
  rw [seq]
  split
  · next hlast =>
    rw [List.getLast?_eq_none_iff.mp hlast]
    rfl
  · rfl

theorem gives_call (op : Form) (callee : Expr) (args : List Expr) :
    Gives (call op callee args) fun e ↦ e.free = callee.free ++ Expr.freeAll args :=
  Gives.bind .trivial fun _ _ ↦ .pure rfl

theorem gives_paramNames (op : Token) (params : Form) :
    Gives (paramNames op params) fun names ↦ params.paramNames = names.filter (· != "&") := by
  have hnames : ∀ {elems : List Form} {names : List String},
      elems.mapM Form.symbol? = some names → elems.filterMap Form.symbol? = names := by
    intro elems names h
    have hall := Scopes.forall₂_of_mapM h
    clear h
    induction hall with
    | nil => rfl
    | cons hx _ ih => rw [List.filterMap_cons_some hx, ih]
  cases params with
  | atom a t => exact .fail
  | group shape elems t =>
    cases shape with
    | list => exact .fail
    | vector =>
      rw [paramNames]
      split
      · next names h => exact .pure (congrArg _ (hnames h))
      · exact .fail

/-- The mark stands before the last name or not at all. -/
theorem gives_splitRest (op : Token) (names : List String) :
    Gives (splitRest op names) fun p ↦ p.1 ++ p.2.toList = names.filter (· != "&") := by
  have happend := List.takeWhile_append_dropWhile (p := (· != "&")) (l := names)
  have hparams : ∀ x ∈ names.takeWhile (· != "&"), (x != "&") = true := fun x ↦
    List.mem_takeWhile_imp
  have hmark : ∀ x xs, names.dropWhile (· != "&") = x :: xs → x = "&" := by
    intro x xs h
    have hne : names.dropWhile (· != "&") ≠ [] := h ▸ List.cons_ne_nil _ _
    simpa [h] using List.head_dropWhile_not (· != "&") hne
  rw [splitRest, List.span_eq_takeWhile_dropWhile]
  generalize names.takeWhile (· != "&") = params at happend hparams
  generalize names.dropWhile (· != "&") = marked at happend hmark
  subst happend
  have hfilter := List.filter_eq_self.mpr hparams
  split
  · next h =>
    cases h
    refine .pure ?_
    rw [List.append_nil, hfilter]
    exact List.append_nil _
  · next params' mark rest h =>
    cases h
    split
    · exact .fail
    · next hrest =>
      obtain rfl := hmark _ _ rfl
      refine .pure ?_
      rw [List.filter_append, hfilter]
      simp [hrest]
  · exact .fail

/-- The names of the parameters are those in the vector. -/
theorem gives_fnHead (op : Token) (isGlobal : Bool) (name : Option Form) (params : Form) :
    Gives (fnHead op isGlobal name params) fun h ↦
      h.name = name.bind Form.symbol? ∧ h.allParams = params.paramNames := by
  have hparts (own : Option String) : Gives (headOf op isGlobal params own) fun h ↦
      h.name = own ∧ h.allParams = params.paramNames := by
    refine Gives.bind (gives_paramNames op params) fun names hnames ↦ ?_
    refine Gives.bind (gives_splitRest op names) fun p hp ↦ .pure ⟨rfl, ?_⟩
    rw [hnames, ← hp]
    rfl
  cases name with
  | none =>
    refine Gives.bind .trivial fun c _ ↦ ?_
    dsimp only
    split
    · exact .fail
    · exact hparts none
  | some form =>
    rw [Option.bind_some]
    refine Gives.bind .trivial fun c _ ↦ ?_
    dsimp only
    split
    · exact .fail
    · split
      · next own hown => exact hown ▸ hparts (some own)
      · exact .fail

theorem gives_fn (op : Token) (h : FnHead) {body : Check Expr} {names : List String}
    (hbody : Gives body fun e ↦ e.free = names) :
    Gives (fn op h body) fun e ↦
      e.free = Captures.without names (h.allParams ++ h.name.toList) := by
  refine Gives.bind (P := fun r ↦ r.1.free = names) ?_ ?_
  · refine Gives.between (Gives.bind .trivial fun params _ ↦ Gives.bind hbody fun e he ↦ ?_)
    exact Gives.bind .trivial fun _ _ ↦ .pure he
  · rintro ⟨e, params⟩ he
    have hfree : (Expr.fn h e ⟨fnTy h params e.ty, e.captures.without (h.allParams ++
        h.name.toList), op⟩).free = Captures.without names (h.allParams ++ h.name.toList) := by
      rw [Expr.free, he]
    dsimp only
    split
    · exact Gives.bind .trivial fun _ _ ↦ .pure hfree
    · exact .pure hfree

end Check

mutual

theorem Form.checkDatum_symbols : ∀ f : Form, Pass.Gives f.checkDatum fun e ↦ e.free = f.symbols
  | .atom (.symbol name) t => Check.gives_atom (.symbol name) t
  | .atom .nil t => Check.gives_atom .nil t
  | .atom (.boolean b) t => Check.gives_atom (.boolean b) t
  | .atom (.number n) t => Check.gives_atom (.number n) t
  | .atom (.string s) t => Check.gives_atom (.string s) t
  | .group _ elems _ => .bind (checkData_symbols elems) fun _ h ↦ .pure h

theorem checkData_symbols : ∀ fs : List Form,
    Pass.Gives (checkData fs) fun es ↦ Expr.freeAll es = Form.symbolsAll fs
  | [] => .pure rfl
  | f :: fs => .bind f.checkDatum_symbols fun e he ↦ .bind (checkData_symbols fs) fun es hes ↦
      .pure (by rw [Expr.freeAll, Form.symbolsAll, he, hes])

end

mutual

/-- What is free in a form is free in the expression that is made of it, in the same order. -/
theorem Form.check_free : ∀ f : Form, Pass.Gives f.check fun e ↦ e.free = f.free
  | .atom a t => Check.gives_atom a t
  | .group .vector elems _ => .bind (checkData_symbols elems) fun _ h ↦ .pure h
  | .group .list [] _ => .pure rfl
  | .group .list (.group .list elems t' :: args) t => by
    rw [Form.check]
    refine .bind (Form.check_free (.group .list elems t')) fun callee hcallee ↦ ?_
    refine .bind (checkAll_free args) fun args' hargs ↦ ?_
    have hfree : (Form.group .list (.group .list elems t' :: args) t).free
        = callee.free ++ Expr.freeAll args' := by
      rw [hcallee, hargs, Form.free]
      exact fun _ _ h ↦ nomatch h
    exact hfree ▸ Check.gives_call _ _ _
  | .group .list (.group .vector _ _ :: _) _
  | .group .list (.atom .nil _ :: _) _ | .group .list (.atom (.boolean _) _ :: _) _
  | .group .list (.atom (.number _) _ :: _) _ | .group .list (.atom (.string _) _ :: _) _ =>
    Pass.Gives.fail
  | .group .list (.atom (.symbol name) opToken :: args) t => by
    unfold Form.check Form.free
    dsimp only
    split
    · split
      · next datum =>
        rw [Form.symbolsAll, Form.symbolsAll, List.append_nil]
        exact datum.checkDatum_symbols
      · exact .fail
    · exact checkCond_free opToken args
    · exact checkFn_free opToken false args
    · exact checkFn_free opToken true args
    · exact checkLet_free opToken args
    · exact .bind (checkAll_free args) fun steps h ↦ .pure ((Check.free_seq opToken steps).trans h)
    · refine .bind (Check.gives_atom (.symbol name) opToken) fun callee hcallee ↦ ?_
      refine .bind (checkAll_free args) fun args' hargs ↦ ?_
      -- no other special form is left
      split <;> try contradiction
      rw [← hargs, ← List.singleton_append, ← Form.free, ← hcallee]
      exact Check.gives_call _ _ _

theorem checkAll_free : ∀ fs : List Form,
    Pass.Gives (checkAll fs) fun es ↦ Expr.freeAll es = Form.freeAll fs
  | [] => .pure rfl
  | f :: fs => .bind f.check_free fun e he ↦ .bind (checkAll_free fs) fun es hes ↦
      .pure (by rw [Expr.freeAll, Form.freeAll, he, hes])

theorem checkCond_free (op : Token) : ∀ fs : List Form,
    Pass.Gives (checkCond op fs) fun e ↦ e.free = Form.freeAll fs
  | [test, yes] => .bind test.check_free fun _ htest ↦ .bind yes.check_free fun _ hyes ↦ by
    simp only [Form.freeAll, ← htest, ← hyes]
    exact Check.gives_cond _ _ _ _
  | [test, yes, no] => .bind test.check_free fun _ htest ↦ .bind yes.check_free fun _ hyes ↦
    .bind no.check_free fun _ hno ↦ by
      simp only [Form.freeAll, ← htest, ← hyes, ← hno, List.append_nil]
      exact Check.gives_cond _ _ _ _
  | [] | [_] | _ :: _ :: _ :: _ :: _ => .fail

theorem checkFn_free (op : Token) (isGlobal : Bool) : ∀ fs : List Form,
    Pass.Gives (checkFn op isGlobal fs) fun e ↦ e.free = Form.freeFn fs
  | [name, params, body] => .bind (Check.gives_fnHead op isGlobal (some name) params)
    fun h hhead ↦ by
      obtain ⟨hname, hparams⟩ := hhead
      rw [Form.freeFn, ← hparams, ← Option.bind_some (f := Form.symbol?), ← hname]
      exact Check.gives_fn op h body.check_free
  | [params, body] => by
    cases isGlobal with
    | true => exact .fail
    | false =>
      refine .bind (Check.gives_fnHead op false none params) ?_
      rintro h ⟨hname, hparams⟩
      rw [Form.freeFn, ← hparams, ← List.append_nil h.allParams]
      have hnil : h.name.toList = [] := by rw [hname]; rfl
      rw [← hnil]
      exact Check.gives_fn op h body.check_free
  | [] | [_] | _ :: _ :: _ :: _ :: _ => .fail

theorem checkLet_free (op : Token) : ∀ fs : List Form,
    Pass.Gives (checkLet op fs) fun e ↦ e.free = Form.freeLet fs
  | [.atom _ _, _] | [.group .list _ _, _] => .fail
  | [.group .vector pairs _, body] => by
    rw [checkLet]
    split
    · refine .between (.bind (checkPairs_free op pairs) fun bs hbs ↦ .bind body.check_free
        fun e he ↦ .pure ?_)
      rw [Check.letIn, Expr.free, he, hbs]
      rfl
    · exact .fail
  | [] | [_] | _ :: _ :: _ :: _ => .fail

theorem checkPairs_free (op : Token) : ∀ fs : List Form,
    Pass.Gives (checkPairs op fs) fun bs ↦ ∀ rest, Expr.freeLet bs rest = Form.freePairs fs rest
  | [] => .pure fun _ ↦ rfl
  | [_] => .fail
  | name :: value :: rest => by
    rw [checkPairs]
    split
    · exact .fail
    · next name hname =>
      refine .bind value.check_free fun e he ↦ .bind .trivial fun _ _ ↦
        .bind (checkPairs_free op rest) fun bs hbs ↦ .pure fun behind ↦ ?_
      rw [Expr.freeLet, Form.freePairs, he, hbs, hname]
      rfl

end

/-! ## Checked forms -/

/-- **Captures are exact.** Whenever a form is accepted, the free names of the expression are those
of the form in the order of the text; every node captures, in the order of their first occurrence
and without repetition, just those of its free names that are bound around it or stand for a binding
that is not global; and where no construct is open, nothing is captured, so no function that is
defined there captures anything. -/
theorem captures_exact {f : Form} {c c' : Checker} {e : Expr} (hc : c.scopes.WellFormed)
    (h : f.check.outcome c = (.ok e, c')) :
    e.free = f.free ∧
    (∀ (bound : List String) (inner : Expr), inner.Within bound e → inner.captures
      = (inner.free.filter fun x ↦ bound.contains x || c.scopes.isLocal x).eraseDups) ∧
    (c.scopes.isGlobal = true → e.captures = []) ∧
    ∀ bound head body n, (Expr.fn head body n).Within bound e → head.isGlobal = true →
      (Expr.fn head body n).captures = [] := by
  obtain ⟨ds, hscoped, -⟩ := f.check_yields hc h
  have hnone : ∀ {s : Scopes Ty} {ds : List (String × Ty)} {e : Expr}, Scoped s (.expr e) ds →
      s.WellFormed → s.isGlobal = true → e.captures = [] := by
    intro s ds e he hs hglobal
    refine (he.exact hs).trans ?_
    rw [Captures.firsts, List.filter_eq_nil_iff.mpr fun x _ ↦ by
      simp [hs.isLocal_of_isGlobal hglobal x]]
    rfl
  refine ⟨f.check_free h, fun bound inner hinner ↦ ?_, hnone hscoped hc,
    fun bound head body n hinner hglobal ↦ ?_⟩
  · obtain ⟨s, ds', hs, hwf, hlocal⟩ := hscoped.within hinner hc
    refine (hs.exact hwf).trans ?_
    rw [Captures.firsts, funext hlocal]
  · obtain ⟨s, ds', hs, hwf, -⟩ := hscoped.within hinner hc
    -- a function is defined only where no construct is open
    have hdefn : s.isGlobal = true := by
      cases hs with
      | fn _ _ _ hlocal => rw [hlocal] at hglobal; cases hglobal
      | defn _ _ _ _ hs _ => exact hs
    exact hnone hs hwf hdefn

/-- The form `(let [y (+ y x)] (fn [x] (+ x y)))`. -/
def shadowForm : Form :=
  let symbol (name : String) : Form := .atom (.symbol name) ⟨.symbol, name, 1⟩
  let list (fs : List Form) : Form := .group .list fs ⟨.opening .list, "(", 1⟩
  let vector (fs : List Form) : Form := .group .vector fs ⟨.opening .vector, "[", 1⟩
  let function := list [symbol "fn", vector [symbol "x"], list [symbol "+", symbol "x", symbol "y"]]
  list [symbol "let", vector [symbol "y", list [symbol "+", symbol "y", symbol "x"]], function]

/-- The checker in the body of a function with two numbers for parameters. -/
def openChecker : Checker :=
  { Checker.start with scopes :=
      (Checker.start.scopes.enter.define "x" .number).define "y" .number }

/-- Of the names that a `let` and a function bind again, those are captured that stand outside. -/
theorem shadowForm_captures : ∃ e c', shadowForm.check.outcome openChecker = (.ok e, c') ∧
    e.captures = ["y", "x"] ∧ ∀ bound head body n, (Expr.fn head body n).Within bound e →
      (Expr.fn head body n).captures
        = ((Expr.fn head body n).free.filter fun x ↦
            bound.contains x || openChecker.scopes.isLocal x).eraseDups := by
  obtain ⟨e, c', h⟩ : ∃ e c', shadowForm.check.outcome openChecker = (.ok e, c') := ⟨_, _, rfl⟩
  have hwf : openChecker.scopes.WellFormed :=
    (Checker.wellFormed_start.enter.define _ _).define _ _
  obtain ⟨hfree, hnodes, -⟩ := captures_exact hwf h
  refine ⟨e, c', h, (hnodes [] e .here).trans ?_, fun bound _ _ _ ↦ hnodes bound _⟩
  rw [hfree]
  rfl

end TaggedLisp
