import TaggedLisp.Proofs.Captures
import TaggedLisp.Proofs.Machine.Convention
import TaggedLisp.Proofs.Machine.Restoring

/-!
# What the body of a function sees

While a body is translated, every `let` puts names in front of those that were visible before, and
takes them back at its end. `Expr.TranslateReaches` follows the translation to a part of the body
that belongs to the same function, and says which names were bound on the way. Nothing else happens
to the scopes there (`TranslateReaches.deeper`), so what a name stands for can be read off the
places with which the body starts: a captured variable is found under its own number, wherever the
body does not bind its name again (`lookup_captured`).
-/

namespace TaggedLisp

open Machine Translate

/-! ## The parts of a body -/

/-- Whether the parts of an expression are translated in a frame of their own. -/
def Expr.opensFrame : Expr → Bool
  | .letIn .. | .fn .. => true
  | _ => false

/-- While the expression is translated from `t`, the part `inner` is translated from `v`, in the
same function, below `let`s that bind the names `bound`. -/
inductive Expr.TranslateReaches (inner : Expr) (v : Translator) :
    (bound : List String) → Translator → Expr → Prop where
  | here : TranslateReaches inner v [] v inner
  | part {bound t t₀ t₁ e e' row} (hframe : e.opensFrame = false)
      (hopens : Expr.TranslateOpens t e t₀ row) (hturn : Turn Expr.translate t₀ row t₁ e')
      (h : TranslateReaches inner v bound t₁ e') : TranslateReaches inner v bound t e
  | value {bound t t₁ before name value after body n}
      (hbefore : (translateBindings before).outcome { t with scopes := t.scopes.enter }
        = (.ok (), t₁))
      (h : TranslateReaches inner v bound t₁ value) :
      TranslateReaches inner v (before.map Prod.fst ++ bound) t
        (.letIn (before ++ (name, value) :: after) body n)
  | letBody {bound t t₁ bindings body n}
      (hbindings : (translateBindings bindings).outcome { t with scopes := t.scopes.enter }
        = (.ok (), t₁))
      (h : TranslateReaches inner v bound t₁ body) :
      TranslateReaches inner v (bindings.map Prod.fst ++ bound) t (.letIn bindings body n)

namespace Machine

/-- Between two translators in one function, local names were bound to words on the stack, all of
them in `bound`, and global names to closures. -/
structure Translator.Deeper (bound : List String) (t v : Translator) : Prop where
  wellFormed : v.scopes.WellFormed
  locals : ∃ slots : List (String × Nat),
    v.scopes.locals = slots.map (fun b ↦ (b.1, .slot b.2)) ++ t.scopes.locals ∧
      ∀ b ∈ slots, b.1 ∈ bound
  globals : ∃ ds : List (String × Label),
    v.scopes.globals = ds.map (fun d ↦ (d.1, .static d.2)) ++ t.scopes.globals
  inFunction : v.activation.inFunction = t.activation.inFunction

namespace Translator.Deeper

variable {xs ys : List String} {t u v : Translator} {names : String → Prop}

theorem of_eq (hs : t.scopes.WellFormed) (hscopes : v.scopes = t.scopes)
    (hin : v.activation.inFunction = t.activation.inFunction) : Deeper [] t v where
  wellFormed := hscopes ▸ hs
  locals := ⟨[], congrArg _ hscopes, List.forall_mem_nil _⟩
  globals := ⟨[], congrArg _ hscopes⟩
  inFunction := hin

theorem trans (h : Deeper xs t u) (h' : Deeper ys u v) : Deeper (xs ++ ys) t v where
  wellFormed := h'.wellFormed
  locals := by
    obtain ⟨slots, hslots, hxs⟩ := h.locals
    obtain ⟨slots', hslots', hys⟩ := h'.locals
    refine ⟨slots' ++ slots, ?_, List.forall_mem_append.mpr ⟨fun b hb ↦ ?_, fun b hb ↦ ?_⟩⟩
    · rw [hslots', hslots, List.map_append, List.append_assoc]
    · exact List.mem_append_right _ (hys b hb)
    · exact List.mem_append_left _ (hxs b hb)
  globals := by
    obtain ⟨ds, hds⟩ := h.globals
    obtain ⟨ds', hds'⟩ := h'.globals
    exact ⟨ds' ++ ds, by rw [hds', hds, List.map_append, List.append_assoc]⟩
  inFunction := h'.inFunction.trans h.inFunction

/-- An expression that is translated on the way leaves global names only. -/
theorem of_gains (h : t.Gains names v) (hs : t.scopes.WellFormed) : Deeper [] t v := by
  obtain ⟨ds, hds, -⟩ := h.scopes
  refine ⟨hds ▸ hs.defineGlobals _ ds, ⟨[], ?_, List.forall_mem_nil _⟩, ⟨ds.reverse, ?_⟩,
    h.inFunction⟩
  · rw [hds, Scopes.locals_defineGlobals]
    rfl
  · rw [hds, hs.globals_defineGlobals, List.map_reverse]

theorem enter (hs : t.scopes.WellFormed) : Deeper [] t { t with scopes := t.scopes.enter } where
  wellFormed := hs.enter
  locals := ⟨[], hs.locals_enter, List.forall_mem_nil _⟩
  globals := ⟨[], hs.globals_enter⟩
  inFunction := rfl

theorem bound (hs : t.scopes.WellFormed) (hopen : t.scopes.current ≠ ScopeId.global)
    (name : String) : Deeper [name] t (t.bound name) where
  wellFormed := hs.define _ _
  locals := ⟨[(name, t.activation.depth + 1)], hs.locals_define hopen name _, by simp⟩
  globals := ⟨[], Scopes.globals_define hopen name _⟩
  inFunction := rfl

end Translator.Deeper

end Machine

/-- The bindings of a `let` are bound, one after the other. -/
theorem translateBindings_deeper {bs : List (String × Expr)} {t v : Translator}
    (h : (translateBindings bs).outcome t = (.ok (), v)) (hs : t.scopes.WellFormed)
    (hopen : t.scopes.current ≠ ScopeId.global) :
    t.Deeper (bs.map Prod.fst) v := by
  induction bs generalizing t with
  | nil =>
    obtain rfl : t = v := congrArg Prod.snd h
    exact .of_eq hs rfl rfl
  | cons b bs ih =>
    obtain ⟨name, value⟩ := b
    obtain ⟨_, t₁, hvalue, h⟩ := Pass.outcome_bind_ok.mp h
    obtain ⟨_, t₂, hbind, h⟩ := Pass.outcome_bind_ok.mp h
    rw [outcome_bindSlot] at hbind
    cases hbind
    have hgains := Pass.LeadsFrom.of_outcome hvalue (value.translate_gains t)
    have hopen₁ : t₁.scopes.current ≠ ScopeId.global := by
      rw [hgains.scopes.restored.current]
      exact hopen
    have h₁ := Translator.Deeper.of_gains hgains hs
    have h₂ := Translator.Deeper.bound h₁.wellFormed hopen₁ name
    exact (h₁.trans h₂).trans (ih h h₂.wellFormed hopen₁)

/-- Steps after which nothing is left but global names leave nothing else when they are taken in
turn. -/
theorem turn_deeper {row : List (Expr × (Unit → Translate Unit))} {t v : Translator} {e : Expr}
    (h : Turn Expr.translate t row v e)
    (hrow : ∀ i ∈ row, ∀ u, Translate.Gains (fun _ ↦ True) u (i.2 ())) (hs : t.scopes.WellFormed) :
    t.Deeper [] v := by
  induction h with
  | here => exact .of_eq hs rfl rfl
  | @later t t₁ t₂ _ e' _ _ k _ he hk _ ih =>
    obtain ⟨hstep, hrow⟩ := List.forall_mem_cons.mp hrow
    have h₁ := Translator.Deeper.of_gains ((e'.translate_gains t).of_outcome he) hs
    have h₂ := Translator.Deeper.of_gains ((hstep t₁).of_outcome hk) h₁.wellFormed
    exact (h₁.trans h₂).trans (ih hrow h₂.wellFormed)

/-- Up to the parts of an expression without a frame of its own, and between them, nothing is left
but global names. -/
theorem Expr.TranslateOpens.gains {t t₀ : Translator} {e : Expr}
    {row : List (Expr × (Unit → Translate Unit))} (h : Expr.TranslateOpens t e t₀ row)
    (hframe : e.opensFrame = false) :
    t.Gains (fun _ ↦ True) t₀ ∧ ∀ i ∈ row, ∀ u, Translate.Gains (fun _ ↦ True) u (i.2 ()) := by
  have hinTurn : ∀ (es : List Expr), ∀ i ∈ (inTurn es : List (Expr × (Unit → Translate Unit))),
      ∀ u, Translate.Gains (fun _ ↦ True) u (i.2 ()) := by
    intro es i hi u
    obtain ⟨e, -, rfl⟩ := List.mem_map.mp hi
    exact .refl u
  have hstored : ∀ (slot : Nat) (es : List Expr), ∀ i ∈ storedInTurn slot es, ∀ u,
      Translate.Gains (fun _ ↦ True) u (i.2 ()) := by
    intro slot es
    induction es generalizing slot with
    | nil => exact List.forall_mem_nil _
    | cons e es ih => exact List.forall_mem_cons.mpr ⟨fun u ↦ gains_emit _, ih _⟩
  have hpassed : ∀ (base i : Nat) (es : List Expr), ∀ j ∈ passedInTurn base i es, ∀ u,
      Translate.Gains (fun _ ↦ True) u (j.2 ()) := by
    intro base i es
    induction es generalizing i with
    | nil => exact List.forall_mem_nil _
    | cons e es ih =>
      refine List.forall_mem_cons.mpr ⟨fun u ↦ ?_, ih _⟩
      dsimp only
      split
      · exact gains_push _
      · exact gains_emit _
  cases h with
  | group => exact ⟨.of_eq rfl rfl rfl, hstored _ _⟩
  | cond =>
    refine ⟨.of_eq rfl rfl rfl, List.forall_mem_cons.mpr ⟨fun u ↦ gains_emitAll _,
      List.forall_mem_cons.mpr ⟨fun u ↦ gains_emitAll _, List.forall_mem_singleton.mpr fun u ↦ ?_⟩⟩⟩
    exact .refl u
  | values | letBody | fnBody => cases hframe
  | seq => exact ⟨.refl t, hinTurn _⟩
  | args => exact ⟨.of_eq rfl rfl rfl, hpassed _ _ _⟩
  | @callee _ _ args spread _ hargs =>
    have hcalling : t.Gains (fun _ ↦ True) (t.calling (passedExprs spread args).length) :=
      .of_eq rfl rfl rfl
    have hpassing := Pass.LeadsFrom.of_outcome hargs
      (passArgs_gains (fun e _ ↦ e.translate_gains) fun _ _ _ ↦ trivial)
    exact ⟨hcalling.trans hpassing, hinTurn _⟩

/-- On the way to a part of the same function, only the names of `let`s were bound. -/
theorem Expr.TranslateReaches.deeper {inner e : Expr} {t v : Translator} {bound : List String}
    (h : inner.TranslateReaches v bound t e) (hs : t.scopes.WellFormed) : t.Deeper bound v := by
  induction h with
  | here => exact .of_eq hs rfl rfl
  | part hframe hopens hturn _ ih =>
    obtain ⟨hgains, hrow⟩ := hopens.gains hframe
    have h₀ := Translator.Deeper.of_gains hgains hs
    have h₁ := turn_deeper hturn hrow h₀.wellFormed
    exact (h₀.trans h₁).trans (ih h₁.wellFormed)
  | value hbindings _ ih | letBody hbindings _ ih =>
    have h₀ := Translator.Deeper.enter hs
    have h₁ := translateBindings_deeper hbindings h₀.wellFormed hs.current_enter
    exact (h₀.trans h₁).trans (ih h₁.wellFormed)

/-! ## Free names -/

/-- What is free in a part that is translated in the same frame is free in the whole. -/
theorem Expr.TranslateOpens.mem_free {x : String} {t t₀ : Translator} {e e' : Expr}
    {row : List (Expr × (Unit → Translate Unit))} (h : Expr.TranslateOpens t e t₀ row)
    (hframe : e.opensFrame = false) (he : e' ∈ row.map Prod.fst) (hx : x ∈ e'.free) :
    x ∈ e.free := by
  cases h with
  | group =>
    rw [map_fst_storedInTurn] at he
    exact mem_freeAll.mpr ⟨e', he, hx⟩
  | cond =>
    simp only [List.map_cons, List.map_nil, List.mem_cons, List.not_mem_nil, or_false] at he
    simp only [Expr.free, List.mem_append]
    rcases he with rfl | rfl | rfl
    · exact Or.inl hx
    · exact Or.inr (Or.inr hx)
    · exact Or.inr (Or.inl hx)
  | values | letBody | fnBody => cases hframe
  | seq =>
    rw [map_fst_inTurn] at he
    exact mem_freeAll.mpr ⟨e', he, hx⟩
  | @args callee args spread _ =>
    rw [map_fst_passedInTurn] at he
    have hpassed : ∀ e ∈ passedExprs spread args, x ∈ e.free → x ∈ Expr.freeAll args := by
      refine forall_passedExprs (fun e he hx ↦ mem_freeAll.mpr ⟨e, he, hx⟩)
        (fun es hlist hx ↦ ?_) spread
      obtain ⟨e, he, hx⟩ := mem_freeAll.mp hx
      exact hlist e he hx
    exact List.mem_append_right _ (hpassed e' he hx)
  | callee =>
    rw [map_fst_inTurn, List.mem_singleton] at he
    exact List.mem_append_left _ (he ▸ hx)

/-- What is free in a part of the same function and not bound on the way to it is free in the whole.
-/
theorem Expr.TranslateReaches.mem_free {inner e : Expr} {t v : Translator} {bound : List String}
    {x : String} (h : inner.TranslateReaches v bound t e) (hx : x ∈ inner.free)
    (hbound : x ∉ bound) : x ∈ e.free := by
  induction h with
  | here => exact hx
  | part hframe hopens hturn _ ih =>
    obtain ⟨k, hk⟩ := hturn.exists_mem
    exact hopens.mem_free hframe (List.mem_map.mpr ⟨_, hk, rfl⟩) (ih hbound)
  | value _ _ ih =>
    rw [List.mem_append, not_or] at hbound
    exact mem_freeLet _ (List.mem_append_left _ (ih hbound.2)) hbound.1
  | @letBody _ _ _ bindings _ _ _ _ ih =>
    rw [List.mem_append, not_or] at hbound
    have hmem := mem_freeLet [] (ih hbound.2) hbound.1
    rwa [List.append_nil] at hmem

/-! ## Names in a body -/

namespace Machine

variable {t v : Translator} {head : FnHead} {captures : Captures} {bound : List String}
  {x : String} {k : Nat}

/-- Global names stand for closures in the data section or in the runtime. -/
def Translator.GlobalsStatic (t : Translator) : Prop :=
  ∀ b ∈ t.scopes.globals, ∃ l, b.2 = Place.static l

theorem Translator.globalsStatic_start (next : Nat) : (start next).GlobalsStatic := by
  intro b hb
  rw [scopes_start, Scopes.wellFormed_empty.globals_defineGlobals] at hb
  rcases List.mem_append.mp hb with hb | hb
  · obtain ⟨d, -, rfl⟩ := List.mem_map.mp (List.mem_reverse.mp hb)
    exact ⟨_, rfl⟩
  · cases hb

theorem Translator.Deeper.globalsStatic (h : t.Deeper bound v) (ht : t.GlobalsStatic) :
    v.GlobalsStatic := by
  obtain ⟨ds, hds⟩ := h.globals
  intro b hb
  rw [hds] at hb
  rcases List.mem_append.mp hb with hb | hb
  · obtain ⟨d, -, rfl⟩ := List.mem_map.mp hb
    exact ⟨_, rfl⟩
  · exact ht b hb

/-- A body starts with the places of its captured variables, its parameters and its own name, the
latest binding first. -/
theorem locals_entering (hs : t.scopes.WellFormed) (head : FnHead) (captures : Captures) :
    (t.entering head captures).scopes.locals = (bodyPlaces head captures t.next).reverse := by
  have hwf := hs.enterFrom hs.global_lt
  refine (hwf.locals_defineAll _ (hs.current_enterFrom _)).trans ?_
  rw [hs.locals_enterFrom_global, List.append_nil]

theorem globals_entering (hs : t.scopes.WellFormed) (head : FnHead) (captures : Captures) :
    (t.entering head captures).scopes.globals = t.scopes.globals :=
  (Scopes.globals_defineAll _ (hs.current_enterFrom _)).trans (hs.globals_enterFrom _)

theorem wellFormed_entering (hs : t.scopes.WellFormed) (head : FnHead) (captures : Captures) :
    (t.entering head captures).scopes.WellFormed := Translator.wellFormed_inBody hs ..

/-- The names that a body starts with are those of the captured variables and of the function. -/
theorem map_fst_bodyPlaces (head : FnHead) (captures : Captures) (id : Nat) :
    (bodyPlaces head captures id).map Prod.fst
      = captures ++ (head.allParams ++ head.name.toList) := by
  have hmapIdx : ∀ (xs : List String) (f : Nat → Place),
      (xs.mapIdx fun k x ↦ (x, f k)).map Prod.fst = xs :=
    fun xs f ↦ List.ext_getElem (by simp) fun i _ _ ↦ by simp
  simp only [bodyPlaces, List.map_append, hmapIdx, List.append_assoc, List.map_map]
  simp [Function.comp_def]

/-- What a name stands for at the start of a body. -/
theorem mem_bodyPlaces {id : Nat} {p : Place} (h : (x, p) ∈ bodyPlaces head captures id) :
    (∃ k, p = .captured k ∧ captures[k]? = some x) ∨
      x ∈ head.allParams ++ head.name.toList ∧ ∀ k, p ≠ .captured k := by
  rw [bodyPlaces, List.mem_append, List.mem_append] at h
  rcases h with (h | h) | h
  · obtain ⟨k, hk, heq⟩ := List.mem_mapIdx.mp h
    cases heq
    exact Or.inl ⟨k, rfl, List.getElem?_eq_getElem hk⟩
  · obtain ⟨i, hi, heq⟩ := List.mem_mapIdx.mp h
    cases heq
    exact Or.inr ⟨List.mem_append_left _ (List.getElem_mem hi), by simp⟩
  · obtain ⟨y, hy, heq⟩ := List.mem_map.mp h
    cases heq
    refine Or.inr ⟨List.mem_append_right _ hy, fun k ↦ ?_⟩
    split <;> simp

/-- Only captured variables are found in the closure, each under its own number. -/
theorem lookup_eq_captured (h : (t.entering head captures).Deeper bound v)
    (hs : t.scopes.WellFormed) (ht : t.GlobalsStatic)
    (hx : v.scopes.lookup x = some (.captured k)) : captures[k]? = some x := by
  obtain ⟨slots, hslots, -⟩ := h.locals
  rw [h.wellFormed.lookup_eq, Option.or_eq_some_iff, hslots, locals_entering hs] at hx
  rcases hx with hx | ⟨-, hx⟩
  · rcases List.mem_append.mp (Scopes.mem_of_lookup hx) with hmem | hmem
    · obtain ⟨b, -, heq⟩ := List.mem_map.mp hmem
      cases heq
    · rcases mem_bodyPlaces (List.mem_reverse.mp hmem) with ⟨k', heq, hk⟩ | ⟨-, hne⟩
      · cases heq
        exact hk
      · exact absurd rfl (hne k)
  · have hentering : (t.entering head captures).GlobalsStatic := by
      rw [Translator.GlobalsStatic, globals_entering hs]
      exact ht
    obtain ⟨l, hl⟩ := h.globalsStatic hentering _ (Scopes.mem_of_lookup hx)
    cases hl

/-- Captured variables are found in the closure wherever their names are not bound again. -/
theorem lookup_captured (h : (t.entering head captures).Deeper bound v)
    (hs : t.scopes.WellFormed) (hx : x ∈ captures)
    (hbound : x ∉ head.allParams ++ head.name.toList ++ bound) :
    ∃ k, captures[k]? = some x ∧ v.scopes.lookup x = some (.captured k) := by
  obtain ⟨slots, hslots, hnames⟩ := h.locals
  have hwf := hs.enterFrom hs.global_lt
  rw [List.mem_append, not_or] at hbound
  have hmem : x ∈ (bodyPlaces head captures t.next).map Prod.fst := by
    rw [map_fst_bodyPlaces]
    exact List.mem_append_left _ hx
  obtain ⟨p, hp⟩ := hwf.exists_lookup_locals_defineAll _ (hs.current_enterFrom _) hmem
  have hp : (t.entering head captures).scopes.locals.lookup x = some p := hp
  have hslot : (slots.map fun b ↦ (b.1, Place.slot b.2)).lookup x = none := by
    refine List.lookup_eq_none_iff.mpr fun b hb ↦ bne_iff_ne.mpr ?_
    obtain ⟨slot, hslot, rfl⟩ := List.mem_map.mp hb
    rintro rfl
    exact hbound.2 (hnames slot hslot)
  have hlookup : v.scopes.lookup x = some p := by
    rw [h.wellFormed.lookup_eq, hslots, List.lookup_append, hslot, hp]
    rfl
  rw [locals_entering hs] at hp
  rcases mem_bodyPlaces (List.mem_reverse.mp (Scopes.mem_of_lookup hp)) with ⟨k, rfl, hk⟩ | ⟨hx, -⟩
  · exact ⟨k, hk, hlookup⟩
  · exact absurd hx hbound.1

/-- A free name of a part of a body that stands for a local binding outside the function is
captured. -/
theorem mem_captures_of_free {body inner : Expr} {m : Note} {s : Scopes Ty}
    {ds : List (String × Ty)} (h : Scoped s (.expr (.fn head body m)) ds) (hs : s.WellFormed)
    (hreach : inner.TranslateReaches v bound (t.entering head m.captures) body)
    (hx : x ∈ inner.free) (hlocal : s.isLocal x = true)
    (hbound : x ∉ head.allParams ++ head.name.toList ++ bound) : x ∈ m.captures := by
  rw [List.mem_append, not_or] at hbound
  refine h.mem_captures hs ?_ hlocal
  rw [Expr.free, Captures.without, List.mem_filter]
  exact ⟨hreach.mem_free hx hbound.2, by simpa using hbound.1⟩

end Machine

end TaggedLisp
