import TaggedLisp.Proofs.Machine.Places

/-!
# What names are translated to

A checked program is translated, and its names have the meaning that the checker gave them, if its
parts are independent of each other wherever the translator comes to them in another order than the
checker (`names_located`). Otherwise it need not be: `branchForm_not_translated` is a program that
is checked and lowered and not translated.

`Lands` says of a pass that it succeeds wherever a phrase can be seen, and that its names are
located then. Which places the global functions get is known only when they are translated, so they
come before the scopes in which the names are looked up. There is a rule for parts that are
translated in the order of the checker (`Lands.andThen`) and one for parts that are not
(`Lands.swap`); every construct is put together by these.
-/

namespace TaggedLisp.Machine

open Translate

/-! ## Passes that translate a phrase -/

/-- Whether a step succeeds and leaves the scopes as they are. -/
def Still (k : Unit → Translate Unit) : Prop :=
  ∀ t, ∃ t', (k ()).outcome t = (.ok (), t') ∧ t'.scopes = t.scopes

theorem still_done : Still Pass.done := fun t ↦ ⟨t, rfl, rfl⟩

theorem still_emit (i : Instr) : Still fun _ ↦ emit i := fun _ ↦ ⟨_, outcome_emit _ i, rfl⟩

theorem still_emitAll (is : List Instr) : Still fun _ ↦ emitAll is :=
  fun _ ↦ ⟨_, outcome_emitAll _ is, rfl⟩

theorem still_push (r : Reg) : Still fun _ ↦ push r := fun _ ↦ ⟨_, outcome_push _ r, rfl⟩

theorem still_pushAll (rs : List Reg) : Still fun _ ↦ pushAll rs :=
  fun _ ↦ ⟨_, outcome_pushAll _ rs, rfl⟩

theorem still_popAll (rs : List Reg) : Still fun _ ↦ popAll rs :=
  fun _ ↦ ⟨_, outcome_popAll _ rs, rfl⟩

theorem still_release (n : Nat) : Still fun _ ↦ release n := fun _ ↦ ⟨_, outcome_release _ n, rfl⟩

theorem Still.bind {k k' : Unit → Translate Unit} (h : Still k) (h' : Still k') :
    Still fun u ↦ k u >>= k' := by
  intro t
  obtain ⟨t₁, hk, hscopes⟩ := h t
  obtain ⟨t₂, hk', hscopes'⟩ := h' t₁
  exact ⟨t₂, Pass.outcome_bind_ok.mpr ⟨(), t₁, hk, hk'⟩, hscopes'.trans hscopes⟩

/-- A step that looks at the registers that are still needed. -/
theorem still_live {k : List Reg → Translate Unit} (h : ∀ live, Still fun _ ↦ k live) :
    Still fun _ ↦ (do k (← get).activation.liveRegisters) := fun t ↦ h _ t

/-- The scopes `s` have the types of the checker, and a translator knows what a phrase asks for. -/
structure Sees (sc : Scopes Ty) (q : Phrase) (t : Translator) (hidden : List String)
    (s : Scopes Site) (fs : List Sources) : Prop where
  types : s.map Site.ty = sc
  echoes : Echoes hidden s fs t.scopes
  free : ∀ g ∈ q.globals, g.name ∉ hidden

/-- What comes of translating a phrase: the global functions `vs`, which the translator has bound as
`ws`. Wherever its names are seen, they are located as `R` says. -/
structure Landing (sc : Scopes Ty) (q : Phrase) (ds : List (String × Ty)) (t : Translator)
    (R : Scopes Site → List Sources → List (String × Site) → Prop) (t' : Translator)
    (vs ws : List (String × Site)) : Prop where
  types : (vs.map fun v ↦ (v.1, v.2.ty)) = ds
  scopes : t'.scopes = t.scopes.defineGlobals Site.place ws
  defined : ∀ w ∈ ws, w.1 ∈ ds.map Prod.fst
  located : ∀ ⦃hidden s fs⦄, Sees sc q t hidden s fs →
    R s fs vs ∧ Echoes hidden (s.defineGlobals id vs) fs t'.scopes

/-- The pass `p` translates the phrase `q`, which is scoped in `sc` and defines `ds`, with success
from `t`, if what the phrase takes from around it is known there. -/
def Lands (sc : Scopes Ty) (q : Phrase) (ds : List (String × Ty)) (t : Translator)
    (p : Translate Unit) (R : Scopes Site → List Sources → List (String × Site) → Prop) : Prop :=
  ∀ ⦃hidden s fs⦄, Sees sc q t hidden s fs →
    (∀ x, q.Needs x → ∃ a, t.scopes.locals.lookup x = some a) →
      ∃ t' vs ws, p.outcome t = (.ok (), t') ∧ Landing sc q ds t R t' vs ws

/-- An expression that is scoped in `sc` and defines `ds` can be translated wherever it is come to,
and its names are located. -/
structure ExprLands (sc : Scopes Ty) (e : Expr) (ds : List (String × Ty)) : Prop where
  defined : ∀ d ∈ ds, ⟨d.1, true⟩ ∈ e.globals
  lands : ∀ t, Lands sc (.expr e) ds t e.translate fun s fs vs ↦ Located s fs t (.expr e) vs

/-- Each of several expressions can be translated, where the checker walks from one to the next. -/
inductive LandAll : Scopes Ty → List Expr → List (String × Ty) → Prop where
  | nil {sc} : LandAll sc [] []
  | cons {sc e es ds ds'} (he : ExprLands sc e ds) (hes : LandAll (sc.defineGlobals id ds) es ds') :
      LandAll sc (e :: es) (ds ++ ds')

/-- The bindings of a `let` can be translated, one after another. -/
def BindingsLand (sc : Scopes Ty) (bs : List (String × Expr)) : Prop :=
  ∀ ⦃t hidden s fs⦄, Sees sc (.bindings bs) t hidden s fs →
    (∀ x, (Phrase.bindings bs).Needs x → ∃ a, t.scopes.locals.lookup x = some a) →
      ∃ t' places, (translateBindings bs).outcome t = (.ok (), t') ∧
        places.length = bs.length ∧ t'.scopes = t.scopes.defineAll ((bs.map Prod.fst).zip places) ∧
          ∀ ⦃hidden s fs⦄, Sees sc (.bindings bs) t hidden s fs →
            Located s fs t (.bindings bs places) []

/-- A phrase can be translated, and its names are located. -/
def PhraseLands (sc : Scopes Ty) (ds : List (String × Ty)) : Phrase → Prop
  | .expr e => ExprLands sc e ds
  | .exprs es => LandAll sc es ds
  | .bindings bs => BindingsLand sc bs

/-- Translates expressions one after another, each followed by a step of its own. -/
def runRow : List (Expr × (Unit → Translate Unit)) → Translate Unit
  | [] => return
  | (e, k) :: rest => (e.translate >>= k) >>= fun _ ↦ runRow rest

section

variable {sc : Scopes Ty} {q : Phrase} {e : Expr} {es : List Expr} {ds ds' : List (String × Ty)}
  {t t₀ : Translator} {p p' : Translate Unit} {k : Unit → Translate Unit}
  {R R' : Scopes Site → List Sources → List (String × Site) → Prop}
  {vs ws : List (String × Site)}

theorem Landing.names {t' : Translator} (h : Landing sc q ds t R t' vs ws) :
    vs.map Prod.fst = ds.map Prod.fst := by
  rw [← h.types, List.map_map]
  rfl

/-- The scopes of the checker behind a phrase. -/
theorem map_ty_defineGlobals {s : Scopes Site} (hs : s.map Site.ty = sc)
    (hvs : (vs.map fun v ↦ (v.1, v.2.ty)) = ds) :
    (s.defineGlobals id vs).map Site.ty = sc.defineGlobals id ds := by
  rw [Scopes.map_defineGlobals, hs, ← hvs, Scopes.defineGlobals, Scopes.defineGlobals,
    List.foldl_map]
  rfl

namespace Sees

variable {hidden : List String} {s : Scopes Site} {fs : List Sources}

theorem first (h : Sees sc (.exprs (e :: es)) t hidden s fs) : Sees sc (.expr e) t hidden s fs :=
  ⟨h.types, h.echoes, fun g hg ↦ h.free g (List.mem_append_left _ hg)⟩

/-- The second part, where both sides know what the first one defines. -/
theorem second {t₁ : Translator} (h : Sees sc (.exprs (e :: es)) t hidden s fs)
    (hvs : (vs.map fun v ↦ (v.1, v.2.ty)) = ds)
    (hechoes : Echoes hidden (s.defineGlobals id vs) fs t₁.scopes) :
    Sees (sc.defineGlobals id ds) (.exprs es) t₁ hidden (s.defineGlobals id vs) fs :=
  ⟨map_ty_defineGlobals h.types hvs, hechoes, fun g hg ↦ h.free g (List.mem_append_right _ hg)⟩

/-- The second part, where only the checker knows what the first one defines. -/
theorem ahead (h : Sees sc (.exprs (e :: es)) t hidden s fs)
    (hvs : (vs.map fun v ↦ (v.1, v.2.ty)) = ds)
    (hds : ∀ x ∈ ds.map Prod.fst, ∀ g ∈ Expr.globalsAll es, g.name ≠ x) :
    Sees (sc.defineGlobals id ds) (.exprs es) t (hidden ++ vs.map Prod.fst)
      (s.defineGlobals id vs) fs := by
  refine ⟨map_ty_defineGlobals h.types hvs, h.echoes.ahead vs, fun g hg ↦ ?_⟩
  rw [List.mem_append, not_or]
  refine ⟨h.free g (List.mem_append_right _ hg), fun hmem ↦ ?_⟩
  have hmem : g.name ∈ ds.map Prod.fst := by
    rw [← hvs, List.map_map]
    exact hmem
  exact hds _ hmem g hg rfl

/-- The first part, where the translator knows what the second one defines. -/
theorem behind {t₁ : Translator} (h : Sees sc (.exprs (e :: es)) t hidden s fs)
    (hscopes : t₁.scopes = t.scopes.defineGlobals Site.place ws)
    (hws : ∀ w ∈ ws, w.1 ∈ ds.map Prod.fst)
    (hds : ∀ x ∈ ds.map Prod.fst, ∀ g ∈ e.globals, g.name ≠ x) :
    Sees sc (.expr e) t₁ (hidden ++ ds.map Prod.fst) s fs := by
  refine ⟨h.types, hscopes ▸ h.echoes.behind hws, fun g hg ↦ ?_⟩
  rw [List.mem_append, not_or]
  exact ⟨h.free g (List.mem_append_left _ hg), fun hmem ↦ hds _ hmem g hg rfl⟩

end Sees

namespace Lands

theorem mono (h : Lands sc q ds t p R) (hR : ∀ {s fs vs}, R s fs vs → R' s fs vs) :
    Lands sc q ds t p R' := by
  intro hidden s fs hsees hneeds
  obtain ⟨t', vs, ws, hp, hland⟩ := h hsees hneeds
  exact ⟨t', vs, ws, hp, hland.types, hland.scopes, hland.defined, fun _ _ _ hsees ↦
    ⟨hR (hland.located hsees).1, (hland.located hsees).2⟩⟩

/-- Another phrase that asks for the same. -/
theorem congr {q' : Phrase} (h : Lands sc q ds t p R) (hglobals : q.globals = q'.globals)
    (hneeds : ∀ x, q.Needs x → q'.Needs x) : Lands sc q' ds t p R := by
  have hsub : ∀ {hidden s fs}, Sees sc q' t hidden s fs → Sees sc q t hidden s fs :=
    fun h ↦ ⟨h.types, h.echoes, hglobals ▸ h.free⟩
  intro hidden s fs hsees hneeds'
  obtain ⟨t', vs, ws, hp, hland⟩ := h (hsub hsees) fun x hx ↦ hneeds' x (hneeds x hx)
  exact ⟨t', vs, ws, hp, hland.types, hland.scopes, hland.defined, fun _ _ _ hsees ↦
    hland.located (hsub hsees)⟩

/-- A step before the translation. -/
theorem before (h : Lands sc q ds t₀ p R) (ht₀ : t₀.scopes = t.scopes)
    (hp : p'.outcome t = p.outcome t₀) : Lands sc q ds t p' R := by
  have hsub : ∀ {hidden s fs}, Sees sc q t hidden s fs → Sees sc q t₀ hidden s fs :=
    fun h ↦ ⟨h.types, ht₀ ▸ h.echoes, h.free⟩
  intro hidden s fs hsees hneeds
  obtain ⟨t', vs, ws, hp', hland⟩ := h (hsub hsees) (ht₀ ▸ hneeds)
  exact ⟨t', vs, ws, hp.trans hp', hland.types, ht₀ ▸ hland.scopes, hland.defined,
    fun _ _ _ hsees ↦ hland.located (hsub hsees)⟩

/-- A step behind the translation. -/
theorem still (h : Lands sc q ds t p R) (hk : Still k) : Lands sc q ds t (p >>= k) R := by
  intro hidden s fs hsees hneeds
  obtain ⟨t', vs, ws, hp, hland⟩ := h hsees hneeds
  obtain ⟨t'', hk, hscopes⟩ := hk t'
  exact ⟨t'', vs, ws, Pass.outcome_bind_ok.mpr ⟨(), t', hp, hk⟩, hland.types,
    hscopes.trans hland.scopes, hland.defined, fun _ _ _ hsees ↦ hscopes ▸ hland.located hsees⟩

/-- The names are located in a translation that succeeds. -/
theorem succeeds (h : Lands sc q ds t p R) :
    Lands sc q ds t p fun s fs vs ↦ (∃ t', p.outcome t = (.ok (), t')) ∧ R s fs vs := by
  intro hidden s fs hsees hneeds
  obtain ⟨t', vs, ws, hp, hland⟩ := h hsees hneeds
  exact ⟨t', vs, ws, hp, hland.types, hland.scopes, hland.defined, fun _ _ _ hsees ↦
    ⟨⟨⟨t', hp⟩, (hland.located hsees).1⟩, (hland.located hsees).2⟩⟩

/-- Parts that are translated in the order of the checker. -/
theorem andThen {R' : Translator → Scopes Site → List Sources → List (String × Site) → Prop}
    (he : Lands sc (.expr e) ds t p R) (hk : Still k)
    (hes : ∀ t₁, (p >>= k).outcome t = (.ok (), t₁) →
      Lands (sc.defineGlobals id ds) (.exprs es) ds' t₁ p' (R' t₁)) :
    Lands sc (.exprs (e :: es)) (ds ++ ds') t ((p >>= k) >>= fun _ ↦ p') fun s fs vs ↦
      ∃ t₁ vs₁ vs₂, (p >>= k).outcome t = (.ok (), t₁) ∧ vs = vs₁ ++ vs₂ ∧ R s fs vs₁ ∧
        R' t₁ (s.defineGlobals id vs₁) fs vs₂ := by
  intro hidden s fs hsees hneeds
  obtain ⟨t₁, vs₁, ws₁, hp, hland⟩ := he.still hk hsees.first fun x hx ↦
    hneeds x (Phrase.needs_cons.mpr (.inl hx))
  obtain ⟨t₂, vs₂, ws₂, hp', hland'⟩ := hes t₁ hp
    (hsees.second hland.types (hland.located hsees.first).2) fun x hx ↦ by
      rw [hland.scopes, Scopes.locals_defineGlobals]
      exact hneeds x (Phrase.needs_cons.mpr (.inr hx))
  refine ⟨t₂, vs₁ ++ vs₂, ws₁ ++ ws₂, Pass.outcome_bind_ok.mpr ⟨(), t₁, hp, hp'⟩, ?_, ?_, ?_, ?_⟩
  · rw [List.map_append, hland.types, hland'.types]
  · rw [hland'.scopes, hland.scopes, Scopes.defineGlobals_append]
  · rw [List.map_append]
    exact List.forall_mem_append.mpr
      ⟨fun w hw ↦ List.mem_append_left _ (hland.defined w hw),
        fun w hw ↦ List.mem_append_right _ (hland'.defined w hw)⟩
  · intro hidden s fs hsees
    obtain ⟨hR, hechoes⟩ := hland.located hsees.first
    obtain ⟨hR', hechoes'⟩ := hland'.located (hsees.second hland.types hechoes)
    refine ⟨⟨t₁, vs₁, vs₂, hp, rfl, hR, hR'⟩, ?_⟩
    rw [Scopes.defineGlobals_append]
    exact hechoes'

/-- Parts that are translated in the other order. The second one is translated without the
functions that the first one defines, and the first one with those of the second one. -/
theorem swap {R : Translator → Scopes Site → List Sources → List (String × Site) → Prop}
    (he : ∀ t₁, (p' >>= k).outcome t = (.ok (), t₁) → Lands sc (.expr e) ds t₁ p (R t₁))
    (hk : Still k) (hes : Lands (sc.defineGlobals id ds) (.exprs es) ds' t p' R')
    (hindependent : Independent e.globals (Expr.globalsAll es))
    (hds : ∀ d ∈ ds, ⟨d.1, true⟩ ∈ e.globals)
    (hds' : ∀ d ∈ ds', ⟨d.1, true⟩ ∈ Expr.globalsAll es) :
    Lands sc (.exprs (e :: es)) (ds ++ ds') t ((p' >>= k) >>= fun _ ↦ p) fun s fs vs ↦
      ∃ t₁ vs₁ vs₂, (p' >>= k).outcome t = (.ok (), t₁) ∧ vs = vs₁ ++ vs₂ ∧ R t₁ s fs vs₁ ∧
        R' (s.defineGlobals id vs₁) fs vs₂ := by
  have hfirst : ∀ x ∈ ds.map Prod.fst, ∀ g ∈ Expr.globalsAll es, g.name ≠ x :=
    List.forall_mem_map.mpr fun d hd g hg ↦ (hindependent _ (hds d hd) g hg (.inl rfl)).symm
  have hsecond : ∀ x ∈ ds'.map Prod.fst, ∀ g ∈ e.globals, g.name ≠ x :=
    List.forall_mem_map.mpr fun d hd g hg ↦ hindependent g hg _ (hds' d hd) (.inr rfl)
  have hdisjoint : ∀ x ∈ ds.map Prod.fst, x ∉ ds'.map Prod.fst :=
    List.forall_mem_map.mpr fun d hd hmem ↦ hsecond _ hmem _ (hds d hd) rfl
  intro hidden s fs hsees hneeds
  -- where the functions of the first part live is not known yet
  let unknown := ds.map fun d ↦ (d.1, (⟨d.2, .current, []⟩ : Site))
  have hunknown : (unknown.map fun v ↦ (v.1, v.2.ty)) = ds := by
    rw [List.map_map]
    exact List.map_id ds
  obtain ⟨t₁, vs₂, ws₂, hp', hland'⟩ := hes.still hk (hsees.ahead hunknown hfirst) fun x hx ↦
    hneeds x (Phrase.needs_cons.mpr (.inr hx))
  obtain ⟨t₂, vs₁, ws₁, hp, hland⟩ := he t₁ hp'
    (hsees.behind hland'.scopes hland'.defined hsecond) fun x hx ↦ by
      rw [hland'.scopes, Scopes.locals_defineGlobals]
      exact hneeds x (Phrase.needs_cons.mpr (.inl hx))
  refine ⟨t₂, vs₁ ++ vs₂, ws₂ ++ ws₁, Pass.outcome_bind_ok.mpr ⟨(), t₁, hp', hp⟩, ?_, ?_, ?_, ?_⟩
  · rw [List.map_append, hland.types, hland'.types]
  · rw [hland.scopes, hland'.scopes, Scopes.defineGlobals_append]
  · rw [List.map_append]
    exact List.forall_mem_append.mpr
      ⟨fun w hw ↦ List.mem_append_right _ (hland'.defined w hw),
        fun w hw ↦ List.mem_append_left _ (hland.defined w hw)⟩
  · intro hidden s fs hsees
    obtain ⟨hR, hechoes⟩ :=
      hland.located (hsees.behind hland'.scopes hland'.defined hsecond)
    obtain ⟨hR', hechoes'⟩ := hland'.located (hsees.ahead hland.types hfirst)
    refine ⟨⟨t₁, vs₁, vs₂, hp', rfl, hR, hR'⟩, ?_⟩
    rw [← hland'.names, hland.scopes] at hechoes
    rw [← hland.names, ← hland'.names] at hdisjoint
    rw [Scopes.defineGlobals_append, hland.scopes]
    exact hechoes'.meet hechoes (hland.names ▸ hland.defined) hdisjoint

/-- A translation that defines nothing and leaves the scopes as they are. -/
theorem of_still (hlocated : (∀ x, q.Needs x → ∃ a, t.scopes.locals.lookup x = some a) →
    ∀ ⦃hidden s fs⦄, Sees sc q t hidden s fs →
      (∃ t', p.outcome t = (.ok (), t') ∧ t'.scopes = t.scopes) ∧ R s fs []) :
    Lands sc q [] t p R := by
  intro hidden s fs hsees hneeds
  obtain ⟨⟨t', hp, hscopes⟩, -⟩ := hlocated hneeds hsees
  exact ⟨t', [], [], hp, rfl, hscopes, List.forall_mem_nil _, fun _ _ _ hsees ↦
    ⟨(hlocated hneeds hsees).2, hscopes ▸ hsees.echoes⟩⟩

end Lands

theorem translateAll_eq_runRow (es : List Expr) : translateAll es = runRow (inTurn es) := by
  induction es with
  | nil => rfl
  | cons e es ih =>
    rw [translateAll, ih, inTurn, inTurn, List.map_cons, runRow, bind_assoc]
    rfl

theorem fill_eq_runRow (slot : Nat) (es : List Expr) :
    fill slot (translateEach es) = runRow (storedInTurn slot es) := by
  induction es generalizing slot with
  | nil => rfl
  | cons e es ih => rw [translateEach, fill, storedInTurn, runRow, bind_assoc, ih]

theorem passArgs_eq_runRow (base i : Nat) (es : List Expr) :
    passArgs base i (translateEach es) = runRow (passedInTurn base i es) := by
  induction es generalizing i with
  | nil => rfl
  | cons e es ih =>
    rw [translateEach, passArgs, passedInTurn, runRow, bind_assoc, ih]
    by_cases hi : i < argRegisters.length
    · simp only [if_pos hi]
    · simp only [if_neg hi]

theorem still_storedInTurn (slot : Nat) (es : List Expr) :
    ∀ i ∈ storedInTurn slot es, Still i.2 := by
  induction es generalizing slot with
  | nil => exact List.forall_mem_nil _
  | cons e es ih => exact List.forall_mem_cons.mpr ⟨still_emit _, ih _⟩

theorem still_inTurn (es : List Expr) : ∀ i ∈ (inTurn es : List (Expr × (Unit → _))), Still i.2 :=
  List.forall_mem_map.mpr fun _ _ ↦ still_done

theorem still_passedInTurn (base i : Nat) (es : List Expr) :
    ∀ j ∈ passedInTurn base i es, Still j.2 := by
  induction es generalizing i with
  | nil => exact List.forall_mem_nil _
  | cons e es ih =>
    refine List.forall_mem_cons.mpr ⟨?_, ih _⟩
    by_cases hi : i < argRegisters.length
    · simp only [if_pos hi]
      exact still_push _
    · simp only [if_neg hi]
      exact still_emit _

namespace LandAll

theorem defined (h : LandAll sc es ds) : ∀ d ∈ ds, ⟨d.1, true⟩ ∈ Expr.globalsAll es := by
  induction h with
  | nil => exact List.forall_mem_nil _
  | cons he _ ih =>
    refine List.forall_mem_append.mpr ⟨fun d hd ↦ ?_, fun d hd ↦ ?_⟩
    · exact List.mem_append_left _ (he.defined d hd)
    · exact List.mem_append_right _ (ih d hd)

/-- Expressions that are translated in the order of the checker. -/
theorem row (h : LandAll sc es ds) {items : List (Expr × (Unit → Translate Unit))}
    (hitems : items.map Prod.fst = es) (hstill : ∀ i ∈ items, Still i.2) (t : Translator) :
    Lands sc (.exprs es) ds t (runRow items) fun s fs vs ↦ Located s fs t (.row items) vs := by
  induction h generalizing items t with
  | nil =>
    obtain rfl := List.map_eq_nil_iff.mp hitems
    exact .of_still fun _ _ _ _ _ ↦ ⟨⟨t, rfl, rfl⟩, .nil⟩
  | cons he hes ih =>
    obtain ⟨⟨e, k⟩, rest, rfl, rfl, hrest⟩ := List.map_eq_cons_iff.mp hitems
    obtain ⟨hk, hstill⟩ := List.forall_mem_cons.mp hstill
    refine ((he.lands t).andThen hk fun t₁ _ ↦ ih hrest hstill t₁).mono ?_
    rintro s fs _ ⟨t₁, vs₁, vs₂, ht₁, rfl, hlocated, hlocated'⟩
    exact .cons hlocated ht₁ hlocated'

end LandAll

/-! ## Constructs -/

theorem exprLands_literal (v : Literal) (n : Note) : ExprLands sc (.literal v n) [] := by
  refine ⟨List.forall_mem_nil _, fun t ↦ .of_still fun _ _ _ _ _ ↦ ⟨?_, .literal⟩⟩
  cases v with
  | nil | boolean b | number k => exact still_emit _ t
  | string str => exact ⟨_, rfl, rfl⟩

theorem exprLands_symbol {name : String} {n : Note} {scope : ScopeId}
    (hname : sc.lookupWithScope name = some (n.ty, scope))
    (hn : n.captures = if scope = ScopeId.global then [] else [name]) :
    ExprLands sc (.symbol name n) [] := by
  refine ⟨List.forall_mem_nil _, fun t ↦ .of_still fun hneeds hidden s fs hsees ↦ ?_⟩
  have hscopes := hsees.types ▸ hname
  rw [Scopes.lookupWithScope_map] at hscopes
  obtain ⟨⟨β, _⟩, hβ, hpair⟩ := Option.map_eq_some_iff.mp hscopes
  obtain ⟨hty, rfl⟩ := Prod.mk.inj hpair
  obtain ⟨p, hp, hfound⟩ := hsees.echoes.found hβ
    (fun hscope ↦ hsees.free ⟨name, false⟩ (by
      rw [if_pos hscope] at hn
      simp [Phrase.globals, Expr.globals, hn]))
    fun hscope ↦ hneeds name (by
      rw [if_neg hscope] at hn
      simp [Phrase.Needs, Expr.captures, Expr.note, hn])
  refine ⟨⟨_, Pass.outcome_bind_ok.mpr ⟨p, t, (outcome_resolve t).mpr ⟨hp, rfl⟩,
    outcome_emitAll t p.load⟩, rfl⟩, .symbol hp hfound hty.symm hn⟩

/-- What follows the elements of a sequence. -/
def gather (shape : Shape) (words base : Nat) : Translate Unit := do
  let live := (← get).activation.liveRegisters
  pushAll live
  emitAll
    [.mov .rdi (.const words), .lea .rsi (slotAddress base), .call (.routine shape.routine)]
  popAll live.reverse
  release words

theorem still_gather (shape : Shape) (words base : Nat) : Still fun _ ↦ gather shape words base :=
  still_live fun live ↦ (still_pushAll live).bind ((still_emitAll _).bind
    ((still_popAll live.reverse).bind (still_release words)))

theorem sequence_eq_gather (shape : Shape) {elems : List (Translate Unit)} (h : elems ≠ []) :
    Translate.sequence shape elems = reserve elems.length >>= fun _ ↦ depth >>= fun base ↦
      fill base elems >>= fun _ ↦ gather shape elems.length base := by
  rw [Translate.sequence, if_neg (by simpa using h)]
  rfl

/-- A sequence, which asks for what its elements ask for. -/
theorem LandAll.group (h : LandAll sc es ds) (shape : Shape) (n : Note) (t : Translator) :
    Lands sc (.exprs es) ds t (Expr.group shape es n).translate fun s fs vs ↦
      Located s fs t (.expr (.group shape es n)) vs := by
  let base := t.activation.depth + es.length
  have hrow := h.row (map_fst_storedInTurn base es) (still_storedInTurn _ _)
    (t.emitted (reserveCode es.length) base)
  refine Lands.mono ?_ .group
  by_cases hes : es = []
  · subst hes
    exact (hrow.still (still_emit (.mov .rax (.const Tag.list.bits.toInt)))).before rfl rfl
  · have helems : translateEach es ≠ [] := by simpa [translateEach_eq_map] using hes
    refine (hrow.still (still_gather shape es.length base)).before rfl ?_
    rw [Expr.translate, sequence_eq_gather _ helems, translateEach_length, ← fill_eq_runRow,
      Pass.outcome_bind_of_ok (outcome_reserve _ _), Pass.outcome_bind_of_ok (outcome_depth _)]
    rfl

theorem exprLands_group (h : LandAll sc es ds) (shape : Shape) (n : Note)
    (hneeds : ∀ x, (Phrase.exprs es).Needs x → x ∈ n.captures) :
    ExprLands sc (.group shape es n) ds :=
  ⟨h.defined, fun t ↦ (h.group shape n t).congr rfl hneeds⟩

theorem exprLands_seq (h : LandAll sc es ds) (n : Note)
    (hneeds : ∀ x, (Phrase.exprs es).Needs x → x ∈ n.captures) :
    ExprLands sc (.seq es n) ds := by
  refine ⟨h.defined, fun t ↦ ?_⟩
  have hrow := h.row (map_fst_inTurn es) (still_inTurn es) t
  refine Lands.congr (q := .exprs es) ?_ rfl hneeds
  refine Lands.mono ?_ .seq
  by_cases hes : es = []
  · subst hes
    exact (hrow.still (still_emit (.clear .rax))).before rfl rfl
  · refine hrow.before rfl ?_
    rw [Expr.translate, if_neg (by simpa using hes), translateAll_eq_runRow]

/-- One expression alone. -/
theorem ExprLands.single (h : ExprLands sc e ds) (t : Translator) :
    Lands sc (.exprs [e]) ds t e.translate fun s fs vs ↦ Located s fs t (.expr e) vs :=
  (h.lands t).congr (List.append_nil _).symm fun _ hx ↦ Phrase.needs_cons.mpr (.inl hx)

theorem exprLands_cond {test yes no : Expr} (h : LandAll sc [test, yes, no] ds) (n : Note)
    (hindependent : Independent yes.globals no.globals)
    (hneeds : ∀ x, (Phrase.exprs [test, yes, no]).Needs x → x ∈ n.captures) :
    ExprLands sc (.cond test yes no n) ds := by
  have hsingle : Expr.globalsAll [no] = no.globals := List.append_nil _
  have hglobals : Expr.globalsAll [test, yes, no] = (Expr.cond test yes no n).globals := by
    rw [Expr.globals, ← hsingle]
    rfl
  refine ⟨hglobals ▸ h.defined, fun t ↦ ?_⟩
  refine Lands.congr (q := .exprs [test, yes, no]) ?_ hglobals hneeds
  obtain _ | ⟨htest, _ | ⟨hyes, _ | ⟨hno, ⟨⟩⟩⟩⟩ := h
  rw [List.append_nil]
  have hbranches (t₁ : Translator) := Lands.swap (fun t₂ _ ↦ hyes.lands t₂)
    (still_emitAll [.jmp (.after t.next), .label (.yes t.next)]) (hno.single t₁)
    (hsingle ▸ hindependent) hyes.defined (hsingle ▸ hno.defined)
  have hall := ((htest.lands t.drawn).andThen
    (still_emitAll [.cmp .rax trueWord.toInt, .je (.yes t.next)])
    fun t₁ _ ↦ hbranches t₁).still (still_emit (.label (.after t.next)))
  refine (hall.before (t := t) rfl ?_).mono ?_
  · rw [Expr.translate, Translate.cond, Pass.outcome_bind_of_ok (outcome_draw t)]
    simp only [bind_assoc]
  · rintro s fs _ ⟨t₁, vs, _, ht₁, rfl, hlocated, t₂, vs₁, vs₂, ht₂, rfl, hyes, hno⟩
    exact .cond hlocated ht₁ hyes hno ht₂

/-- The arguments of a call as they are passed, where the surplus ones are a sequence. -/
theorem LandAll.passed (h : LandAll sc es ds) (spread : Option Nat) (base i : Nat)
    (t : Translator) :
    Lands sc (.exprs es) ds t (runRow (passedInTurn base i (passedExprs spread es))) fun s fs vs ↦
      Located s fs t (.row (passedInTurn base i (passedExprs spread es))) vs := by
  cases spread with
  | none => exact h.row (map_fst_passedInTurn base i es) (still_passedInTurn base i es) t
  | some n =>
    induction n generalizing sc es ds i t with
    | zero =>
      have hstill := still_passedInTurn base i [.group .list es default]
      have hgroup := ((h.group .list default t).still (hstill _ List.mem_cons_self)).succeeds
      refine (hgroup.still still_done).mono ?_
      rintro s fs vs ⟨⟨t₁, ht₁⟩, hlocated⟩
      exact List.append_nil vs ▸ .cons hlocated ht₁ .nil
    | succ n ih =>
      cases h with
      | nil =>
        rw [show passedExprs (some (n + 1)) [] = passedExprs (some n) [] by simp [passedExprs]]
        exact ih .nil i t
      | @cons _ e es _ _ he hes =>
        have hstill := still_passedInTurn base i (e :: passedExprs (some n) es)
        refine ((he.lands t).andThen (hstill _ List.mem_cons_self)
          fun t₁ _ ↦ ih hes (i + 1) t₁).mono ?_
        rintro s fs _ ⟨t₁, vs₁, vs₂, ht₁, rfl, hlocated, hlocated'⟩
        exact .cons hlocated ht₁ hlocated'

/-- What follows the arguments and the callee of a call. -/
def enterCallee (live : List Reg) (words : Nat) : Translate Unit := do
  emitAll
    [ .mov .r11 (.reg .rax),
      .and .r11 Tag.mask.toInt,
      .cmp .r11 Tag.closure.bits.toInt,
      .jne (.routine .error),
      .mov .rdi (.reg .rax) ]
  popAll (argRegisters.take words).reverse
  emitAll [.mov .rax (.reg .rdi), .and .rax (~~~Tag.mask).toInt, .callThrough .rax]
  release (words - argRegisters.length)
  popAll live.reverse

theorem still_enterCallee (live : List Reg) (words : Nat) :
    Still fun _ ↦ enterCallee live words :=
  (still_emitAll _).bind ((still_popAll _).bind ((still_emitAll _).bind
    ((still_release _).bind (still_popAll _))))

/-- A call, from where room has been made for its arguments. -/
theorem outcome_call (spread : Option Nat) (callee : Translate Unit) (args : List Expr)
    (t : Translator) :
    (Translate.call spread callee (translateEach args)).outcome t =
      (passArgs (t.calling (passedExprs spread args).length).activation.depth 0
        (translateEach (passedExprs spread args)) >>= fun _ ↦ callee >>= fun _ ↦
          enterCallee t.activation.liveRegisters (passedExprs spread args).length).outcome
        (t.calling (passedExprs spread args).length) := by
  rw [Translate.call, passed_translateEach, Pass.outcome_bind_of_ok (Pass.outcome_get t)]
  simp only [translateEach_length]
  rw [Pass.outcome_bind_of_ok (outcome_pushAll _ _), Pass.outcome_bind_of_ok (outcome_reserve _ _),
    Pass.outcome_bind_of_ok (outcome_depth _)]
  rfl

theorem exprLands_call {callee : Expr} {args : List Expr} (h : LandAll sc (callee :: args) ds)
    (spread : Option Nat) (n : Note)
    (hindependent : Independent callee.globals (Expr.globalsAll args))
    (hneeds : ∀ x, (Phrase.exprs (callee :: args)).Needs x → x ∈ n.captures) :
    ExprLands sc (.call callee args spread n) ds := by
  refine ⟨h.defined, fun t ↦ ?_⟩
  refine Lands.congr (q := .exprs (callee :: args)) ?_ rfl hneeds
  obtain _ | ⟨hcallee, hargs⟩ := h
  let words := (passedExprs spread args).length
  have hpassed := hargs.passed spread (t.calling words).activation.depth 0 (t.calling words)
  have hparts := (Lands.swap (fun t₁ _ ↦ hcallee.lands t₁) still_done hpassed hindependent
    hcallee.defined hargs.defined).still (still_enterCallee t.activation.liveRegisters words)
  refine (hparts.before (t := t) rfl ?_).mono ?_
  · rw [Expr.translate, outcome_call, ← passArgs_eq_runRow, bind_assoc,
      show _ >>= Pass.done = _ from bind_pure _]
  · rintro s fs _ ⟨t₁, vs₁, vs₂, ht₁, rfl, hcallee, hargs⟩
    rw [← passArgs_eq_runRow, show _ >>= Pass.done = _ from bind_pure _] at ht₁
    exact .call hcallee hargs ht₁

/-! ## Frames -/

theorem Landing.scopes_eq {t' : Translator} (h : Landing sc q [] t R t' vs ws) :
    vs = [] ∧ t'.scopes = t.scopes := by
  obtain rfl := List.eq_nil_iff_forall_not_mem.mpr fun w hw ↦ List.not_mem_nil (h.defined w hw)
  exact ⟨List.map_eq_nil_iff.mp h.types, h.scopes⟩

theorem bindingsLand_nil : BindingsLand sc [] := fun t _ _ _ _ _ ↦
  ⟨t, [], rfl, rfl, rfl, fun _ _ _ _ ↦ .bound⟩

theorem bindingsLand_cons {name : String} {value : Expr} {bs : List (String × Expr)}
    (hvalue : ExprLands sc value []) (hs : sc.current ≠ ScopeId.global)
    (hrest : BindingsLand (sc.define name value.ty) bs) :
    BindingsLand sc ((name, value) :: bs) := by
  have hfirst : ∀ {t hidden s fs}, Sees sc (.bindings ((name, value) :: bs)) t hidden s fs →
      Sees sc (.expr value) t hidden s fs :=
    fun h ↦ ⟨h.types, h.echoes, fun g hg ↦ h.free g (List.mem_append_left _ hg)⟩
  intro t hidden s fs hsees hneeds
  obtain ⟨t₁, vs, ws, hp, hland⟩ := hvalue.lands t (hfirst hsees) fun x hx ↦
    hneeds x (Phrase.needs_bind.mpr (.inl hx))
  obtain ⟨rfl, hscopes⟩ := hland.scopes_eq
  let p := Place.slot (t₁.activation.depth + 1)
  have hbound : (t₁.bound name).scopes = t.scopes.define name p :=
    congrArg (Scopes.define · name p) hscopes
  have hopen : ∀ {s : Scopes Site}, s.map Site.ty = sc → s.current ≠ ScopeId.global := by
    rintro s rfl
    exact hs
  have hsecond : ∀ {hidden s fs}, Sees sc (.bindings ((name, value) :: bs)) t hidden s fs →
      Sees (sc.define name value.ty) (.bindings bs) (t₁.bound name) hidden
        (s.define name ⟨value.ty, p, fs⟩) fs := by
    intro hidden s fs h
    refine ⟨?_, ?_, fun g hg ↦ h.free g (List.mem_append_right _ hg)⟩
    · rw [Scopes.map_define, h.types]
    · rw [hbound]
      exact h.echoes.define (hopen h.types) name rfl
  have hneeds' : ∀ x, (Phrase.bindings bs).Needs x →
      ∃ a, (t₁.bound name).scopes.locals.lookup x = some a := by
    intro x hx
    rw [hbound, hsees.echoes.wellFormed'.locals_define (hsees.echoes.isOpen (hopen hsees.types)),
      List.lookup_cons]
    by_cases hxn : x = name
    · exact ⟨p, by rw [beq_iff_eq.mpr hxn]⟩
    · rw [beq_false_of_ne hxn]
      exact hneeds x (Phrase.needs_bind.mpr (.inr ⟨hxn, hx⟩))
  obtain ⟨t₂, places, hp', hlength, hscopes', hlocated⟩ := hrest (hsecond hsees) hneeds'
  have ht₁ : (value.translate >>= fun _ ↦ bindSlot name).outcome t = (.ok (), t₁.bound name) :=
    Pass.outcome_bind_ok.mpr ⟨(), t₁, hp, outcome_bindSlot name t₁⟩
  refine ⟨t₂, p :: places, ?_, ?_, ?_, ?_⟩
  · rw [translateBindings, ← bind_assoc]
    exact Pass.outcome_bind_ok.mpr ⟨(), _, ht₁, hp'⟩
  · rw [List.length_cons, List.length_cons, hlength]
  · rw [hscopes', hbound]
    rfl
  · intro hidden s fs hsees
    exact .bind (hland.located (hfirst hsees)).1 ht₁ rfl (hlocated (hsecond hsees))

theorem exprLands_letIn {bs : List (String × Expr)} {body : Expr} {n : Note}
    (hbindings : BindingsLand sc.enter bs)
    (hbody : ExprLands (sc.enter.defineAll (bindingTypes bs)) body [])
    (hn : n.captures = Check.letCaptures bs body) : ExprLands sc (.letIn bs body n) [] := by
  have houter : ∀ {t hidden s fs}, Sees sc (.expr (.letIn bs body n)) t hidden s fs →
      Sees sc.enter (.bindings bs) { t with scopes := t.scopes.enter } hidden s.enter fs :=
    fun h ↦ ⟨by rw [Scopes.map_enter, h.types], h.echoes.enter,
      fun g hg ↦ h.free g (List.mem_append_left _ hg)⟩
  refine ⟨List.forall_mem_nil _, fun t hidden s fs hsees hneeds ↦ ?_⟩
  have hwf := hsees.echoes.wellFormed'
  have hneeds' : ∀ x ∈ Check.letCaptures bs body,
      ∃ a, t.scopes.enter.locals.lookup x = some a := by
    intro x hx
    rw [hwf.locals_enter]
    rw [← hn] at hx
    exact hneeds x (Phrase.needs_expr.mpr hx)
  obtain ⟨t₁, places, ht₁, hlength, hscopes, hlocated⟩ := hbindings (houter hsees) fun x hx ↦
    hneeds' x (Check.mem_letCaptures.mpr (.inl hx))
  have hnames : ((bs.map Prod.fst).zip places).map Prod.fst = bs.map Prod.fst :=
    List.map_fst_zip (by rw [List.length_map, hlength])
  have hinner : ∀ {hidden s fs}, Sees sc (.expr (.letIn bs body n)) t hidden s fs →
      Sees (sc.enter.defineAll (bindingTypes bs)) (.expr body) t₁ hidden
        (s.enter.defineAll (sites (bindingTypes bs) places fs)) fs := by
    intro hidden s fs h
    refine ⟨?_, ?_, fun g hg ↦ h.free g (List.mem_append_right _ hg)⟩
    · rw [Scopes.map_defineAll, Scopes.map_enter, h.types,
        sites_types _ (by rw [bindingTypes, List.length_map, hlength])]
    · have := h.echoes.enter.defineAll h.echoes.wellFormed.current_enter
        (sites_around (bindingTypes bs) places fs)
      rw [sites_places, bindingTypes, List.map_map] at this
      exact hscopes ▸ this
  have hbodyNeeds : ∀ x ∈ body.captures, ∃ a, t₁.scopes.locals.lookup x = some a := by
    intro x hx
    have hopen := hwf.current_enter
    rw [hscopes]
    by_cases hbound : x ∈ ((bs.map Prod.fst).zip places).map Prod.fst
    · exact hwf.enter.exists_lookup_locals_defineAll _ hopen hbound
    · rw [hwf.enter.lookup_locals_defineAll _ hopen hbound]
      rw [hnames] at hbound
      exact hneeds' x (Check.mem_letCaptures.mpr (.inr ⟨hx, hbound⟩))
  obtain ⟨t₂, vs, ws, ht₂, hland⟩ := (hbody.lands t₁).still (still_release bs.length)
    (hinner hsees) hbodyNeeds
  obtain ⟨rfl, hscopes'⟩ := hland.scopes_eq
  have hleft : t₂.scopes.exit t.scopes.current = t.scopes := by
    rw [hscopes', hscopes]
    exact (Scopes.exit_defineAll _ _ _).trans (Scopes.exit_enterFrom _ _)
  refine ⟨{ t₂ with scopes := t₂.scopes.exit t.scopes.current }, [], [], ?_, rfl, hleft,
    List.forall_mem_nil _, fun hidden s fs hsees ↦ ⟨?_, ?_⟩⟩
  · rw [Expr.translate, Translate.nested]
    refine Pass.outcome_between_ok.mpr ⟨t₂, ?_, rfl⟩
    exact Pass.outcome_bind_ok.mpr ⟨(), t₁, ht₁, ht₂⟩
  · exact .letIn (hlocated (houter hsees)) ht₁ (hland.located (hinner hsees)).1
  · exact hleft ▸ hsees.echoes

/-! ## Functions -/

/-- Names that are all known locally have places. -/
theorem exists_places {s : Scopes Place} (hs : s.WellFormed) {xs : List String}
    (h : ∀ x ∈ xs, ∃ a, s.locals.lookup x = some a) : ∃ places, xs.mapM s.lookup = some places ∧
      List.Forall₂ (fun x a ↦ s.locals.lookup x = some a) xs places := by
  induction xs with
  | nil => exact ⟨[], rfl, .nil⟩
  | cons x xs ih =>
    obtain ⟨⟨a, ha⟩, h⟩ := List.forall_mem_cons.mp h
    obtain ⟨places, hplaces, hlocals⟩ := ih h
    have hlookup : s.lookup x = some a := by rw [hs.lookup_eq, ha, Option.some_or]
    exact ⟨a :: places, by simp [List.mapM_cons, hlookup, hplaces], .cons ha hlocals⟩

/-- What a function sees is seen in its body, with its own names in front. -/
theorem Sees.body {head : FnHead} {body : Expr} {n : Note} {params : List Ty} (ret : Ty)
    {places : List Place} {hidden : List String} {s : Scopes Site} {fs : List Sources}
    (h : Sees sc (.expr (.fn head body n)) t hidden s fs)
    (hparams : params.length = head.params.length)
    (hplaces : List.Forall₂ (fun x a ↦ t.scopes.locals.lookup x = some a) n.captures places) :
    Sees (sc.enter.defineAll (head.bindings params ret)) (.expr body) (t.entering head n.captures)
      hidden (s.enter.defineAll (sites (head.bindings params ret)
        (ownPlaces head n.captures t.next) (n.captures.zip places :: fs)))
      (n.captures.zip places :: fs) := by
  refine ⟨?_, ?_, fun g hg ↦ h.free g (List.mem_append_left _ hg)⟩
  · rw [Scopes.map_defineAll, Scopes.map_enter, h.types,
      sites_types _ (length_ownPlaces ret hparams)]
  · rw [Translator.scopes_entering, bodyPlaces_eq ret (n.captures.zip places :: fs) hparams,
      Scopes.defineAll_append]
    exact (h.echoes.captured hplaces).defineAll h.echoes.wellFormed.current_enter
      (sites_around _ _ _)

/-- A function is translated where its captured variables are known and its body is translated. It
is bound in the global frame if it is a definition. -/
theorem outcome_fn {h : FnHead} {n : Note} {places : List Place}
    (hplaces : n.captures.mapM t.scopes.lookup = some places)
    (hbody : p.outcome (t.entering h n.captures) = (.ok (), t₀))
    (hempty : h.isGlobal = true → n.captures = []) :
    ∃ t', (Translate.fn h n p).outcome t = (.ok (), t') ∧
      t'.scopes = (t₀.scopes.exit t.scopes.current).defineGlobals id
        (if h.isGlobal then h.name.toList.map (·, .static (.closure h.name t.next)) else []) := by
  let left : Translator :=
    { t₀ with activation := t.activation, scopes := t₀.scopes.exit t.scopes.current }
  have hleft : (isolated h n.captures t.next p).outcome
      (t.drawn.emitted [.jmp (.after t.next), .label (.code h.name t.next), .push .rbp,
        .mov .rbp (.reg .rsp)] t.drawn.activation.depth) = (.ok (), left) :=
    Pass.outcome_between_ok.mpr ⟨t₀, hbody, rfl⟩
  have hfound : (Translate.places n.token.line n.captures).outcome t.drawn
      = (.ok places, t.drawn) := (outcome_places _).mpr ⟨hplaces, rfl⟩
  rw [Translate.fn, Pass.outcome_bind_of_ok (outcome_draw t), Pass.outcome_bind_of_ok hfound,
    Pass.outcome_bind_of_ok (outcome_emitAll _ _), Pass.outcome_bind_of_ok hleft,
    Pass.outcome_bind_of_ok (outcome_emitAll _ _)]
  cases places with
  | nil =>
    obtain ⟨name, params, rest, isGlobal⟩ := h
    rcases isGlobal, name with ⟨_ | _, _ | name⟩ <;> exact ⟨_, rfl, rfl⟩
  | cons a places =>
    have hlocal : ¬ h.isGlobal = true := fun hglobal ↦ by
      rw [hempty hglobal] at hplaces
      cases hplaces
    rw [if_neg hlocal]
    exact ⟨_, outcome_allocate _ _ _, rfl⟩

theorem exprLands_fn {h : FnHead} {body : Expr} {n : Note} {params : List Ty} {ret : Ty}
    (hparams : params.length = h.params.length)
    (hbody : ExprLands (sc.enter.defineAll (h.bindings params ret)) body [])
    (hn : n.captures = body.captures.without (h.allParams ++ h.name.toList))
    (hglobal : h.isGlobal = true → sc.isGlobal = true) :
    ExprLands sc (.fn h body n) (if h.isGlobal then h.name.toList.map (·, n.ty) else []) := by
  refine ⟨fun d hd ↦ List.mem_append_right _ ?_, fun t hidden s fs hsees hneeds ↦ ?_⟩
  · split at hd
    · next hdefn =>
      obtain ⟨name, hname, rfl⟩ := List.mem_map.mp hd
      rw [if_pos hdefn]
      exact List.mem_map_of_mem hname
    · cases hd
  have hwf := hsees.echoes.wellFormed'
  obtain ⟨places, hplaces, hlocals⟩ := exists_places hwf hneeds
  have hempty : h.isGlobal = true → n.captures = [] := fun hdefn ↦ by
    -- where a function is defined, nothing is local
    refine List.eq_nil_iff_forall_not_mem.mpr fun x hx ↦ ?_
    obtain ⟨a, ha⟩ := hneeds x hx
    obtain ⟨β, _, hβ, -⟩ := hsees.echoes.locals ha
    have hs : (s.map Site.ty).isGlobal = true := hsees.types ▸ hglobal hdefn
    have hlocal := hsees.echoes.wellFormed.isLocal_of_isGlobal hs x
    rw [hsees.echoes.wellFormed.isLocal_eq, hβ] at hlocal
    cases hlocal
  have hbodyNeeds : ∀ x ∈ body.captures,
      ∃ a, (t.entering h n.captures).scopes.locals.lookup x = some a := by
    intro x hx
    refine (hwf.enterFrom hwf.global_lt).exists_lookup_locals_defineAll _
      (hwf.current_enterFrom _) ?_
    rw [map_fst_bodyPlaces, List.mem_append, hn, Captures.mem_without]
    exact or_iff_not_imp_right.mpr fun hown ↦ ⟨hx, hown⟩
  obtain ⟨t₀, vs, ws, ht₀, hland⟩ := hbody.lands _ (hsees.body ret hparams hlocals) hbodyNeeds
  obtain ⟨rfl, hscopes⟩ := hland.scopes_eq
  obtain ⟨t', ht', hscopes'⟩ := outcome_fn hplaces ht₀ hempty
  have hleft : t₀.scopes.exit t.scopes.current = t.scopes := by
    rw [hscopes]
    exact (Scopes.exit_defineAll _ _ _).trans (Scopes.exit_enterFrom _ _)
  let vs : List (String × Site) :=
    if h.isGlobal then h.name.toList.map (·, ⟨n.ty, .static (.closure h.name t.next), []⟩) else []
  have htypes : (vs.map fun v ↦ (v.1, v.2.ty))
      = if h.isGlobal then h.name.toList.map (·, n.ty) else [] := by
    by_cases hdefn : h.isGlobal = true <;> simp [vs, hdefn]
  have hbound : t'.scopes = t.scopes.defineGlobals Site.place vs := by
    rw [hscopes', hleft]
    by_cases hdefn : h.isGlobal = true
    · simp only [vs, if_pos hdefn, Scopes.defineGlobals, List.foldl_map]
      rfl
    · simp only [vs, if_neg hdefn]
      rfl
  refine ⟨t', vs, vs, ht', htypes, hbound, fun w hw ↦ ?_, fun hidden s fs hsees ↦ ⟨?_, ?_⟩⟩
  · rw [← htypes, List.map_map]
    exact List.mem_map_of_mem hw
  · refine .fn hparams hplaces (fun c hc ↦ ?_) (hland.located (hsees.body ret hparams hlocals)).1
    obtain ⟨k, hk, rfl⟩ := List.mem_iff_getElem.mp hc
    rw [List.length_zip, Nat.lt_min] at hk
    rw [List.getElem_zip]
    exact hsees.echoes.found_local (hlocals.get hk.1 hk.2)
  · exact hbound ▸ hsees.echoes.defineGlobals vs

/-- What is scoped can be translated if the order of its parts does not matter. -/
theorem phraseLands_of_scoped (h : Scoped sc q ds) (hfree : q.isOrderFree = true) :
    PhraseLands sc ds q := by
  induction h with
  | literal => exact exprLands_literal _ _
  | symbol hname hn => exact exprLands_symbol hname hn
  | group _ hn ih =>
    exact exprLands_group (ih hfree) _ _ fun x hx ↦ hn ▸ Expr.mem_capturesOf.mpr hx
  | cond _ hn ih =>
    simp only [Phrase.isOrderFree, Expr.isOrderFree, Bool.and_eq_true, decide_eq_true_eq] at hfree
    obtain ⟨⟨⟨htest, hyes⟩, hno⟩, hindependent⟩ := hfree
    refine exprLands_cond (ih ?_) _ hindependent fun x hx ↦ hn ▸ Expr.mem_capturesOf.mpr hx
    simp [Phrase.isOrderFree, Expr.isOrderFreeAll, htest, hyes, hno]
  | letIn _ _ hn ih ih' =>
    obtain ⟨hbindings, hbody⟩ := Bool.and_eq_true_iff.mp hfree
    exact exprLands_letIn (ih hbindings) (ih' hbody) hn
  | @fn sc h body n params ret hparams _ hn hglobal ih =>
    have hlands := exprLands_fn hparams (ih hfree) hn fun hdefn ↦ by
      rw [hglobal] at hdefn
      contradiction
    simpa [PhraseLands, hglobal] using hlands
  | @defn sc h body n params ret name hparams _ hn hglobal hs hname ih =>
    have hlands := exprLands_fn hparams (ih hfree) hn fun _ ↦ hs
    simpa [PhraseLands, hglobal, hname] using hlands
  | seq _ hn ih => exact exprLands_seq (ih hfree) _ fun x hx ↦ hn ▸ Expr.mem_capturesOf.mpr hx
  | call _ hn ih =>
    simp only [Phrase.isOrderFree, Expr.isOrderFree, Bool.and_eq_true, decide_eq_true_eq] at hfree
    obtain ⟨⟨hcallee, hargs⟩, hindependent⟩ := hfree
    refine exprLands_call (ih ?_) _ _ hindependent fun x hx ↦ hn ▸ Expr.mem_capturesOf.mpr hx
    exact Bool.and_eq_true_iff.mpr ⟨hcallee, hargs⟩
  | nil => exact .nil
  | cons _ _ ih ih' =>
    obtain ⟨he, hes⟩ := Bool.and_eq_true_iff.mp hfree
    exact .cons (ih he) (ih' hes)
  | bound => exact bindingsLand_nil
  | bind hs _ _ ih ih' =>
    obtain ⟨hvalue, hrest⟩ := Bool.and_eq_true_iff.mp hfree
    exact bindingsLand_cons (ih hvalue) hs (ih' hrest)

end

/-! ## Programs -/

/-- The bindings of the builtin functions. -/
def builtinSites : List (String × Site) :=
  builtins.map fun b ↦ (b.name, ⟨b.ty, .static (.builtin b.symbol), []⟩)

/-- The scopes in which a program starts. -/
def startSites : Scopes Site := Scopes.empty.defineGlobals id builtinSites

theorem startSites_types : startSites.map Site.ty = Checker.start.scopes := by
  rw [startSites, Scopes.map_defineGlobals, Scopes.defineGlobals, builtinSites, List.foldl_map]
  rfl

theorem startSites_places (n : Nat) : startSites.map Site.place = (Translator.start n).scopes := by
  rw [startSites, Scopes.map_defineGlobals, Scopes.defineGlobals, builtinSites, List.foldl_map]
  rfl

theorem echoes_start (n : Nat) : Echoes [] startSites [] (Translator.start n).scopes := by
  have hempty : Echoes [] .empty [] .empty :=
    ⟨Scopes.wellFormed_empty, Scopes.wellFormed_empty, id, fun _ _ ↦ rfl, fun h ↦ by cases h⟩
  rw [← startSites_places, startSites, Scopes.map_defineGlobals]
  exact hempty.defineGlobals builtinSites

/-- **Names of a translated program.** What was checked can be translated if the order of its parts
does not matter. The checker resolves its names in the types of the scopes in which every symbol is
found at the place of its binding, and at the end the global names of both passes are those of the
same bindings. -/
theorem names_located {forms : List Form} {es : List Expr} {c : Checker}
    (hcheck : (checkAll forms).outcome .start = (.ok es, c))
    (hfree : Expr.isOrderFreeAll es = true) (n : Nat) :
    ∃ t ds, (translateAll es).outcome (.start n) = (.ok (), t) ∧
      Scoped (startSites.map Site.ty) (.exprs es) (ds.map fun v ↦ (v.1, v.2.ty)) ∧
      Located startSites [] (.start n) (.row (inTurn es)) ds ∧
      c.scopes = (startSites.defineGlobals id ds).map Site.ty ∧
      ∀ x, t.scopes.lookup x = ((startSites.defineGlobals id ds).lookup x).map Site.place := by
  obtain ⟨ds, hscoped, hc, hclosed⟩ := checkAll_scoped hcheck
  have hrow := (phraseLands_of_scoped hscoped hfree).row (map_fst_inTurn es) (still_inTurn es)
    (.start n)
  have hsees : Sees Checker.start.scopes (.exprs es) (.start n) [] startSites [] :=
    ⟨startSites_types, echoes_start n, fun _ _ ↦ List.not_mem_nil⟩
  obtain ⟨t, vs, ws, ht, hland⟩ := hrow hsees fun x hx ↦ absurd hx (hclosed x)
  obtain ⟨hlocated, hechoes⟩ := hland.located hsees
  refine ⟨t, vs, translateAll_eq_runRow es ▸ ht, ?_, hlocated, ?_, hechoes.lookup_eq ?_⟩
  · rw [startSites_types, hland.types]
    exact hscoped
  · rw [hc, map_ty_defineGlobals startSites_types hland.types]
  · rw [Scopes.isGlobal, Scopes.current_defineGlobals]
    rfl

/-- The form `(if true (defn f [x] x) (f 1))`. -/
def branchForm : Form :=
  let symbol (name : String) : Form := .atom (.symbol name) ⟨.symbol, name, 1⟩
  let list (fs : List Form) : Form := .group .list fs ⟨.opening .list, "(", 1⟩
  let params : Form := .group .vector [symbol "x"] ⟨.opening .vector, "[", 1⟩
  list [symbol "if", .atom (.boolean true) ⟨.boolean true, "true", 1⟩,
    list [symbol "defn", symbol "f", params, symbol "x"],
    list [symbol "f", .atom (.number 1) ⟨.number, "1", 1⟩]]

/-- Where one branch uses what the other one defines, the checker knows the name, and the translator
comes to it too early. -/
theorem branchForm_not_translated : ∃ es,
    ((checkAll [branchForm]).outcome .start).1 = .ok es ∧
      ((translateAll es).outcome (.start 0)).1 = .error ⟨.unresolvedSymbol "f", 1⟩ :=
  ⟨_, rfl, rfl⟩

end TaggedLisp.Machine
