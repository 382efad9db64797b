import TaggedLisp.Proofs.Scopes

/-!
# Scopes as a stack of environments

The frames of scopes stand in a row, a frame names the one to search next, and whoever opened a
frame has to know which one to come back to. What is seen of all this is simpler: for each open
construct there is an environment, the list of the local bindings that are seen inside, and the
global bindings stand apart. A nested construct starts with the environment around it, a function
body with an empty one. A new binding is put in front of the innermost environment; no other one
changes, so the environment around a construct is there again when the construct is left.

`Usage` runs a sequence of actions on scopes and gives each frame number back to the action that
leaves the frame; `Environments` runs it on environments. `Usage.Shows` is what they have in common,
every action keeps it (`Usage.Shows.perform`), and so both answer alike (`runs_as_environments`).
The frame of a binding is the depth at which it was made: the frames that were dropped do not count.
-/

namespace TaggedLisp

/-! ## Actions on scopes -/

/-- What can be done with scopes. -/
inductive ScopeAction (α : Type) where
  /-- A nested construct is entered. -/
  | enter
  /-- The body of a function is entered, which sees none of the local bindings around it. -/
  | enterFunction
  /-- The construct that was entered last is left. -/
  | exit
  | define (name : String) (value : α)
  | defineGlobal (name : String) (value : α)
  | lookup (name : String)
  | lookupWithScope (name : String)

/-- What an action answers. -/
inductive ScopeAnswer (α : Type) where
  | done
  | value (value : Option α)
  | binding (binding : Option (α × ScopeId))

section

variable {α σ : Type}

/-- The answers to a sequence of actions and the state in the end, unless one of them cannot be
performed. -/
def runActions (perform : σ → ScopeAction α → Option (ScopeAnswer α × σ)) :
    σ → List (ScopeAction α) → Option (List (ScopeAnswer α) × σ)
  | s, [] => some ([], s)
  | s, a :: as =>
    match perform s a with
    | none => none
    | some (answer, t) => (runActions perform t as).map fun r ↦ (answer :: r.1, r.2)

variable {perform : σ → ScopeAction α → Option (ScopeAnswer α × σ)} {s t : σ} {a : ScopeAction α}
  {as : List (ScopeAction α)} {answer : ScopeAnswer α} {answers : List (ScopeAnswer α)}

theorem runActions_cons (h : perform s a = some (answer, t)) :
    runActions perform s (a :: as) =
      (runActions perform t as).map fun r ↦ (answer :: r.1, r.2) := by
  rw [runActions, h]

theorem runActions_append (h : runActions perform s as = some (answers, t))
    (bs : List (ScopeAction α)) :
    runActions perform s (as ++ bs) =
      (runActions perform t bs).map fun r ↦ (answers ++ r.1, r.2) := by
  induction as generalizing s answers with
  | nil =>
    cases h
    simp
  | cons a as ih =>
    rw [runActions] at h
    split at h
    · cases h
    · next answer u ha =>
      obtain ⟨⟨answers', t'⟩, has, h⟩ := Option.map_eq_some_iff.mp h
      cases h
      rw [List.cons_append, runActions_cons ha, ih has, Option.map_map]
      rfl

end

/-- Whether every construct that is entered is left again, and no other one is. -/
inductive Bracketed {α : Type} : List (ScopeAction α) → Prop where
  | nil : Bracketed []
  | define (x : String) (v : α) {rest} (h : Bracketed rest) : Bracketed (.define x v :: rest)
  | defineGlobal (x : String) (v : α) {rest} (h : Bracketed rest) :
      Bracketed (.defineGlobal x v :: rest)
  | lookup (x : String) {rest} (h : Bracketed rest) : Bracketed (.lookup x :: rest)
  | lookupWithScope (x : String) {rest} (h : Bracketed rest) :
      Bracketed (.lookupWithScope x :: rest)
  | enter {inside rest} (hinside : Bracketed inside) (h : Bracketed rest) :
      Bracketed (.enter :: (inside ++ .exit :: rest))
  | enterFunction {inside rest} (hinside : Bracketed inside) (h : Bracketed rest) :
      Bracketed (.enterFunction :: (inside ++ .exit :: rest))

/-- What is bound in the global frame by name, in order. -/
def globalDefinitions {α : Type} (as : List (ScopeAction α)) : List (String × α) :=
  as.filterMap fun
    | .defineGlobal x v => some (x, v)
    | _ => none

/-! ## Scopes in use -/

/-- Scopes and the frames to come back to, one for each open construct, the innermost one first. -/
structure Usage (α : Type) where
  scopes : Scopes α
  saved : List ScopeId

namespace Usage

variable {α : Type}

/-- Nothing is open and nothing is bound. -/
def start : Usage α := ⟨.empty, []⟩

/-- Performs an action. When a construct is left, the frame is handed over that was current when it
was entered. -/
def perform (u : Usage α) : ScopeAction α → Option (ScopeAnswer α × Usage α)
  | .enter => some (.done, ⟨u.scopes.enter, u.scopes.current :: u.saved⟩)
  | .enterFunction =>
    some (.done, ⟨u.scopes.enterFrom ScopeId.global, u.scopes.current :: u.saved⟩)
  | .exit =>
    match u.saved with
    | [] => none
    | p :: saved => some (.done, ⟨u.scopes.exit p, saved⟩)
  | .define x v => some (.done, { u with scopes := u.scopes.define x v })
  | .defineGlobal x v => some (.done, { u with scopes := u.scopes.defineGlobal x v })
  | .lookup x => some (.value (u.scopes.lookup x), u)
  | .lookupWithScope x => some (.binding (u.scopes.lookupWithScope x), u)

/-- Performs several actions. -/
def run (u : Usage α) (as : List (ScopeAction α)) : Option (List (ScopeAnswer α) × Usage α) :=
  runActions perform u as

end Usage

/-! ## Environments -/

/-- Bindings with the depth at which they were made, the innermost one first. -/
abbrev Environment (α : Type) := List (String × α × ScopeId)

/-- The global bindings and the environments of the open constructs, the innermost one first. -/
structure Environments (α : Type) where
  globals : Environment α
  opened : List (Environment α)

namespace Environments

variable {α : Type}

/-- Nothing is open and nothing is bound. -/
def start : Environments α := ⟨[], []⟩

/-- The local bindings that are seen. -/
def locals (e : Environments α) : Environment α := e.opened.headD []

/-- What a name is bound to, and how deep the construct is that binds it. -/
def lookupWithScope (e : Environments α) (x : String) : Option (α × ScopeId) :=
  (e.locals.lookup x).or (e.globals.lookup x)

/-- Binds a global name. -/
def defineGlobal (e : Environments α) (x : String) (v : α) : Environments α :=
  { e with globals := (x, v, ScopeId.global) :: e.globals }

/-- Binds a name where the innermost construct sees it. -/
def define (e : Environments α) (x : String) (v : α) : Environments α :=
  match e.opened with
  | [] => e.defineGlobal x v
  | env :: outer => { e with opened := ((x, v, outer.length + 1) :: env) :: outer }

/-- Performs an action. -/
def perform (e : Environments α) : ScopeAction α → Option (ScopeAnswer α × Environments α)
  | .enter => some (.done, { e with opened := e.locals :: e.opened })
  | .enterFunction => some (.done, { e with opened := [] :: e.opened })
  | .exit =>
    match e.opened with
    | [] => none
    | _ :: outer => some (.done, { e with opened := outer })
  | .define x v => some (.done, e.define x v)
  | .defineGlobal x v => some (.done, e.defineGlobal x v)
  | .lookup x => some (.value ((e.lookupWithScope x).map Prod.fst), e)
  | .lookupWithScope x => some (.binding (e.lookupWithScope x), e)

/-- Performs several actions. -/
def run (e : Environments α) (as : List (ScopeAction α)) :
    Option (List (ScopeAnswer α) × Environments α) :=
  runActions perform e as

end Environments

/-! ## Bindings with their frames -/

namespace Scopes

variable {α : Type}

/-- The bindings of a frame with the number of the frame. -/
def numberedFrame (i : ScopeId) (f : Frame α) : Frame (α × ScopeId) :=
  ⟨f.parent, f.bindings.map fun b ↦ (b.1, b.2, i)⟩

/-- The scopes with the number of its frame beside every value. -/
def numbered (s : Scopes α) : Scopes (α × ScopeId) :=
  ⟨s.frames.mapIdx numberedFrame, s.current⟩

theorem lookup_numberedFrame (i : ScopeId) (f : Frame α) (x : String) :
    (numberedFrame i f).lookup x = (f.lookup x).map (·, i) := lookup_mapValues (·, i) f.bindings x

variable (s : Scopes α)

@[simp] theorem length_frames_numbered : s.numbered.frames.length = s.frames.length := by
  simp [numbered]

theorem numbered_enterFrom (p : ScopeId) :
    (s.enterFrom p).numbered = s.numbered.enterFrom p := by
  simp [numbered, enterFrom, List.mapIdx_append, numberedFrame]

theorem numbered_exit (saved : ScopeId) : (s.exit saved).numbered = s.numbered.exit saved := by
  simp only [numbered, exit, Scopes.mk.injEq, and_true]
  apply List.ext_getElem?
  intro i
  simp only [List.getElem?_mapIdx, List.getElem?_take]
  by_cases hi : i < s.current <;> simp [hi]

theorem numbered_defineIn (i : ScopeId) (x : String) (v : α) :
    (s.defineIn i x v).numbered = s.numbered.defineIn i x (v, i) := by
  simp only [numbered, defineIn, Scopes.mk.injEq, and_true]
  apply List.ext_getElem?
  intro j
  simp only [List.getElem?_mapIdx, List.getElem?_modify]
  cases s.frames[j]? with
  | none => rfl
  | some f =>
    by_cases hj : i = j
    · subst hj
      simp [numberedFrame, Frame.define]
    · simp [hj]

theorem visibleWithin_numbered (frames : List (Frame α)) (n : Nat) (i : ScopeId) :
    visibleWithin (frames.mapIdx numberedFrame) n i =
      (visibleWithin frames n i).map fun p ↦ (p.1, numberedFrame p.1 p.2) := by
  induction n generalizing i with
  | zero => rfl
  | succ n ih =>
    simp only [visibleWithin, List.getElem?_mapIdx]
    cases frames[i]? with
    | none => rfl
    | some f => cases hp : f.parent <;> simp [numberedFrame, hp, ih]

/-- The frame in which a name is found is the one whose number stands beside its value. -/
theorem lookup_numbered (x : String) : s.numbered.lookup x = s.lookupWithScope x := by
  have hcurrent : s.numbered.current = s.current := rfl
  have hframes : s.numbered.frames = s.frames.mapIdx numberedFrame := rfl
  rw [lookup, lookupWithScope, visible, length_frames_numbered, hcurrent, hframes,
    visibleWithin_numbered, List.findSome?_map, List.map_findSome?, lookupWithScope, visible]
  congr 1
  funext p
  simp [lookup_numberedFrame, Function.comp_def]

variable {s}

theorem WellFormed.numbered (h : s.WellFormed) : s.numbered.WellFormed := by
  have hparent : ∀ (i : Nat) g, s.numbered.frames[i]? = some g →
      ∃ f, s.frames[i]? = some f ∧ g.parent = f.parent := by
    intro i g hg
    simp only [Scopes.numbered, List.getElem?_mapIdx] at hg
    obtain ⟨f, hf, rfl⟩ := Option.map_eq_some_iff.mp hg
    exact ⟨f, hf, rfl⟩
  constructor
  · rw [length_frames_numbered]
    exact h.current_lt
  · intro g hg
    obtain ⟨f, hf, hfg⟩ := hparent 0 g hg
    rw [hfg, h.parent_zero f hf]
  · intro i g hg
    obtain ⟨f, hf, hfg⟩ := hparent (i + 1) g hg
    rw [hfg]
    exact h.parent_succ i f hf

end Scopes

/-! ## Both ways alike -/

namespace Usage

variable {α : Type}

/-- Scopes show environments: each open construct has a frame behind the others, sees what its
environment holds, and comes back to scopes that show the environments around it. -/
inductive Opened : Scopes α → List ScopeId → List (Environment α) → Prop where
  | none {s : Scopes α} (h : s.WellFormed) (hcurrent : s.current = ScopeId.global)
      (hlength : s.frames.length = 1) : Opened s [] []
  | some {s : Scopes α} {p : ScopeId} {saved : List ScopeId} {env : Environment α}
      {outer : List (Environment α)} (h : s.WellFormed) (hcurrent : s.current = outer.length + 1)
      (hlength : s.frames.length = outer.length + 2) (henv : s.numbered.locals = env)
      (houter : Opened (s.exit p) saved outer) : Opened s (p :: saved) (env :: outer)

namespace Opened

variable {s : Scopes α} {saved : List ScopeId} {envs : List (Environment α)}

theorem wellFormed (h : Opened s saved envs) : s.WellFormed := by
  cases h with
  | none h _ _ => exact h
  | some h _ _ _ _ => exact h

theorem current_eq (h : Opened s saved envs) : s.current = envs.length := by
  cases h with
  | none _ hcurrent _ => exact hcurrent
  | some _ hcurrent _ _ _ => exact hcurrent

theorem length_eq (h : Opened s saved envs) : s.frames.length = envs.length + 1 := by
  cases h with
  | none _ _ hlength => exact hlength
  | some _ _ hlength _ _ => exact hlength

theorem locals_eq (h : Opened s saved envs) : s.numbered.locals = envs.headD [] := by
  cases h with
  | some _ _ _ henv _ => exact henv
  | none h hcurrent _ =>
    -- the only frame that is seen is the global one
    obtain ⟨L, f, -, hvisible, hL⟩ := h.numbered.visible_eq
    have hnil : L = [] := List.eq_nil_iff_forall_not_mem.mpr fun p hp ↦ by
      have hlt := (hL p hp).1
      have hle : p.1 ≤ s.current := (hL p hp).2
      rw [hcurrent] at hle
      exact absurd hle (Nat.not_le_of_lt hlt)
    rw [Scopes.locals, hvisible, hnil]
    rfl

theorem enterFrom (h : Opened s saved envs) {p : ScopeId} (hp : p < s.frames.length) :
    Opened (s.enterFrom p) (s.current :: saved) ((s.numbered.enterFrom p).locals :: envs) := by
  refine .some (h.wellFormed.enterFrom hp) h.length_eq ?_ ?_ ?_
  · simp [Scopes.enterFrom, h.length_eq]
  · rw [Scopes.numbered_enterFrom]
  · rwa [Scopes.exit_enterFrom]

theorem enter (h : Opened s saved envs) :
    Opened s.enter (s.current :: saved) (envs.headD [] :: envs) := by
  rw [← h.locals_eq, ← h.wellFormed.numbered.locals_enter]
  exact h.enterFrom h.wellFormed.current_lt

theorem enterFunction (h : Opened s saved envs) :
    Opened (s.enterFrom ScopeId.global) (s.current :: saved) ([] :: envs) := by
  rw [← h.wellFormed.numbered.locals_enterFrom_global]
  exact h.enterFrom h.wellFormed.global_lt

theorem defineGlobal (h : Opened s saved envs) (x : String) (v : α) :
    Opened (s.defineGlobal x v) saved envs := by
  induction h with
  | none h hcurrent hlength =>
    refine .none (h.defineGlobal x v) hcurrent ?_
    rwa [Scopes.defineGlobal, Scopes.length_frames_defineIn]
  | some h hcurrent hlength henv _ ih =>
    refine .some (h.defineGlobal x v) hcurrent ?_ ?_ ?_
    · rwa [Scopes.defineGlobal, Scopes.length_frames_defineIn]
    · rw [Scopes.defineGlobal, Scopes.numbered_defineIn]
      exact (Scopes.locals_defineGlobal _ x _).trans henv
    · rwa [Scopes.exit_defineGlobal]

theorem define {p : ScopeId} {env : Environment α} {outer : List (Environment α)}
    (h : Opened s (p :: saved) (env :: outer)) (x : String) (v : α) :
    Opened (s.define x v) (p :: saved) (((x, v, outer.length + 1) :: env) :: outer) := by
  cases h with
  | some h hcurrent hlength henv houter =>
    have hne : s.numbered.current ≠ ScopeId.global := by
      change s.current ≠ 0
      rw [hcurrent]
      exact Nat.succ_ne_zero _
    refine .some (h.define x v) hcurrent ?_ ?_ ?_
    · rwa [Scopes.define, Scopes.length_frames_defineIn]
    · rw [Scopes.define, Scopes.numbered_defineIn, ← henv, ← hcurrent]
      exact h.numbered.locals_define hne x (v, s.current)
    · rwa [Scopes.exit_define]

end Opened

/-- Scopes in use show the global bindings and the environments of the open constructs. -/
structure Shows (u : Usage α) (e : Environments α) : Prop where
  globals : u.scopes.numbered.globals = e.globals
  opened : Opened u.scopes u.saved e.opened

namespace Shows

variable {u : Usage α} {e : Environments α}

theorem start : Shows (start : Usage α) .start := ⟨rfl, .none Scopes.wellFormed_empty rfl rfl⟩

/-- A name is found where it is looked for: in the innermost environment, then among the global
bindings. -/
theorem lookupWithScope (h : Shows u e) (x : String) :
    u.scopes.lookupWithScope x = e.lookupWithScope x := by
  rw [← Scopes.lookup_numbered, h.opened.wellFormed.numbered.lookup_eq, h.opened.locals_eq,
    h.globals, Environments.lookupWithScope, Environments.locals]

theorem defineGlobal (h : Shows u e) (x : String) (v : α) :
    Shows { u with scopes := u.scopes.defineGlobal x v } (e.defineGlobal x v) where
  globals := by
    change (u.scopes.defineGlobal x v).numbered.globals = _
    rw [Scopes.defineGlobal, Scopes.numbered_defineIn]
    refine (h.opened.wellFormed.numbered.globals_defineGlobal x (v, ScopeId.global)).trans ?_
    rw [h.globals, Environments.defineGlobal]
  opened := h.opened.defineGlobal x v

theorem define (h : Shows u e) (x : String) (v : α) :
    Shows { u with scopes := u.scopes.define x v } (e.define x v) := by
  have hcurrent := h.opened.current_eq
  by_cases hnone : e.opened = []
  · have hdefine : e.define x v = e.defineGlobal x v := by simp only [Environments.define, hnone]
    rw [hnone] at hcurrent
    rw [hdefine, Scopes.define, hcurrent]
    exact h.defineGlobal x v
  · have hne : u.scopes.numbered.current ≠ ScopeId.global := by
      change u.scopes.current ≠ 0
      rw [hcurrent]
      exact mt List.eq_nil_of_length_eq_zero hnone
    obtain ⟨scopes, saved⟩ := u
    obtain ⟨globals, opened⟩ := e
    obtain ⟨hglobals, hopened⟩ := h
    cases hopened with
    | none => exact absurd rfl hnone
    | some hwf hlt hlength henv houter =>
      refine ⟨?_, (Opened.some hwf hlt hlength henv houter).define x v⟩
      change (scopes.define x v).numbered.globals = _
      rw [Scopes.define, Scopes.numbered_defineIn]
      exact (Scopes.globals_define hne x (v, scopes.current)).trans hglobals

theorem enterFrom (h : Shows u e) (p : ScopeId) {env : Environment α}
    (hopened : Opened (u.scopes.enterFrom p) (u.scopes.current :: u.saved) (env :: e.opened)) :
    Shows ⟨u.scopes.enterFrom p, u.scopes.current :: u.saved⟩
      { e with opened := env :: e.opened } where
  globals := by
    change (u.scopes.enterFrom p).numbered.globals = _
    rw [Scopes.numbered_enterFrom, h.opened.wellFormed.numbered.globals_enterFrom, h.globals]
  opened := hopened

/-- The innermost construct can be left when there is one. -/
theorem exit (h : Shows u e) :
    (u.saved = [] ∧ e.opened = []) ∨
      ∃ p saved env outer, u.saved = p :: saved ∧ e.opened = env :: outer ∧
        Shows ⟨u.scopes.exit p, saved⟩ { e with opened := outer } := by
  obtain ⟨scopes, saved⟩ := u
  obtain ⟨globals, envs⟩ := e
  obtain ⟨hglobals, hopened⟩ := h
  dsimp only at hglobals hopened
  cases hopened with
  | none => exact .inl ⟨rfl, rfl⟩
  | some _ hcurrent _ _ houter =>
    refine .inr ⟨_, _, _, _, rfl, rfl, ⟨?_, houter⟩⟩
    have hpos : 0 < scopes.numbered.current := by
      change 0 < scopes.current
      rw [hcurrent]
      exact Nat.succ_pos _
    rw [← hglobals, Scopes.numbered_exit]
    simp [Scopes.globals, Scopes.exit, hpos]

/-- An action answers alike on scopes and on environments, and the scopes show the environments
again afterwards. -/
theorem perform (h : Shows u e) (a : ScopeAction α) :
    Option.Rel (fun r r' ↦ r.1 = r'.1 ∧ Shows r.2 r'.2) (u.perform a) (e.perform a) := by
  cases a with
  | enter => exact .some ⟨rfl, h.enterFrom _ h.opened.enter⟩
  | enterFunction => exact .some ⟨rfl, h.enterFrom _ h.opened.enterFunction⟩
  | exit =>
    rw [Usage.perform, Environments.perform]
    rcases h.exit with ⟨hsaved, hopened⟩ | ⟨p, saved, env, outer, hsaved, hopened, hshows⟩
    · rw [hsaved, hopened]
      exact .none
    · rw [hsaved, hopened]
      exact .some ⟨rfl, hshows⟩
  | define x v => exact .some ⟨rfl, h.define x v⟩
  | defineGlobal x v => exact .some ⟨rfl, h.defineGlobal x v⟩
  | lookup x =>
    refine .some ⟨?_, h⟩
    rw [← h.lookupWithScope]
    rfl
  | lookupWithScope x => exact .some ⟨congrArg _ (h.lookupWithScope x), h⟩

/-- Sequences of actions answer alike. -/
theorem run (h : Shows u e) (as : List (ScopeAction α)) :
    (u.run as).map Prod.fst = (e.run as).map Prod.fst := by
  induction as generalizing u e with
  | nil => rfl
  | cons a as ih =>
    have hstep := h.perform a
    rw [Usage.run, Environments.run, runActions, runActions]
    generalize u.perform a = r at hstep
    generalize e.perform a = r' at hstep
    cases hstep with
    | none => rfl
    | @some r r' hrel =>
      obtain ⟨answer, v⟩ := r
      obtain ⟨answer', e'⟩ := r'
      obtain ⟨rfl, hshows⟩ := hrel
      have hrest := congrArg (Option.map (List.cons answer)) (ih hshows)
      rw [Option.map_map, Option.map_map] at hrest
      dsimp only
      rw [Option.map_map, Option.map_map]
      exact hrest

end Shows

end Usage

/-! ## Leaving constructs -/

@[simp] theorem globalDefinitions_append {α : Type} (as bs : List (ScopeAction α)) :
    globalDefinitions (as ++ bs) = globalDefinitions as ++ globalDefinitions bs :=
  List.filterMap_append

namespace Usage

variable {α : Type} {as bs : List (ScopeAction α)} {a : ScopeAction α} {u v w : Usage α}
  {answers : List (ScopeAnswer α)}

/-- The same constructs are open in `v` as in `u`. When the innermost one is left, nothing is left
of `as` but the definitions of global names. -/
structure Restores (u : Usage α) (as : List (ScopeAction α)) (v : Usage α) : Prop where
  saved : v.saved = u.saved
  current : v.scopes.current = u.scopes.current
  exit : ∀ p, v.scopes.exit p = (u.scopes.exit p).defineGlobals id (globalDefinitions as)

theorem Restores.append (h : Restores u as v) (h' : Restores v bs w) :
    Restores u (as ++ bs) w where
  saved := h'.saved.trans h.saved
  current := h'.current.trans h.current
  exit p := by
    rw [h'.exit, h.exit, ← Scopes.defineGlobals_append, ← globalDefinitions_append]

/-- Whether the actions can be performed wherever they start, and restore what was there. -/
def Balanced (as : List (ScopeAction α)) : Prop :=
  ∀ u : Usage α, ∃ answers v, u.run as = some (answers, v) ∧ Restores u as v

theorem Balanced.append (h : Balanced as) (h' : Balanced bs) : Balanced (as ++ bs) := by
  intro u
  obtain ⟨answers, v, hrun, hv⟩ := h u
  obtain ⟨answers', w, hrun', hw⟩ := h' v
  refine ⟨answers ++ answers', w, ?_, hv.append hw⟩
  rw [run] at hrun hrun' ⊢
  rw [runActions_append hrun, hrun']
  rfl

/-- An action that opens and leaves nothing is balanced if what it binds goes with the frame. -/
theorem balanced_single
    (h : ∀ u : Usage α, ∃ answer v, u.perform a = some (answer, v) ∧ Restores u [a] v) :
    Balanced [a] := by
  intro u
  obtain ⟨answer, v, ha, hv⟩ := h u
  refine ⟨[answer], v, ?_, hv⟩
  rw [run, runActions_cons ha]
  rfl

theorem balanced_define (x : String) (v : α) : Balanced [.define x v] :=
  balanced_single fun u ↦
    ⟨.done, { u with scopes := u.scopes.define x v }, rfl, rfl, rfl, fun _ ↦ Scopes.exit_define ..⟩

theorem balanced_defineGlobal (x : String) (v : α) : Balanced [.defineGlobal x v] :=
  balanced_single fun u ↦ ⟨.done, { u with scopes := u.scopes.defineGlobal x v }, rfl, rfl, rfl,
    fun _ ↦ Scopes.exit_defineGlobal ..⟩

/-- What a construct leaves when it is entered, balanced actions are performed inside, and it is
left: the definitions of global names. -/
theorem Balanced.run_construct (h : Balanced as) {p : ScopeId}
    (ha : u.perform a = some (.done, ⟨u.scopes.enterFrom p, u.scopes.current :: u.saved⟩)) :
    ∃ answers, u.run (a :: (as ++ [.exit])) =
      some (answers, { u with scopes := u.scopes.defineGlobals id (globalDefinitions as) }) := by
  obtain ⟨answers, v, hrun, hv⟩ := h ⟨u.scopes.enterFrom p, u.scopes.current :: u.saved⟩
  have hexit : v.perform .exit =
      some (.done, { u with scopes := u.scopes.defineGlobals id (globalDefinitions as) }) := by
    rw [perform, hv.saved]
    dsimp only
    rw [hv.exit, Scopes.exit_enterFrom]
  refine ⟨.done :: (answers ++ [.done]), ?_⟩
  rw [run] at hrun ⊢
  rw [runActions_cons ha, runActions_append hrun, runActions_cons hexit]
  rfl

theorem Balanced.construct (h : Balanced as) {p : Scopes α → ScopeId}
    (ha : ∀ u : Usage α, u.perform a =
      some (.done, ⟨u.scopes.enterFrom (p u.scopes), u.scopes.current :: u.saved⟩))
    (hglobal : globalDefinitions [a] = []) : Balanced (a :: (as ++ [.exit])) := by
  intro u
  obtain ⟨answers, hrun⟩ := h.run_construct (ha u)
  have hdefinitions : globalDefinitions (a :: (as ++ [.exit])) = globalDefinitions as := by
    rw [← List.singleton_append, globalDefinitions_append, hglobal, globalDefinitions_append]
    exact List.append_nil _
  refine ⟨answers, _, hrun, ⟨rfl, Scopes.current_defineGlobals .., fun q ↦ ?_⟩⟩
  rw [hdefinitions]
  exact Scopes.exit_defineGlobals ..

/-- Constructs that are entered and left in pairs restore what was there before. -/
theorem balanced_of_bracketed (h : Bracketed as) : Balanced as := by
  have hconstruct {a : ScopeAction α} {inside rest : List (ScopeAction α)}
      (hinside : Balanced (a :: (inside ++ [.exit]))) (hrest : Balanced rest) :
      Balanced (a :: (inside ++ .exit :: rest)) := by
    have h := hinside.append hrest
    rwa [List.cons_append, List.append_assoc] at h
  induction h with
  | nil => exact fun u ↦ ⟨[], u, rfl, rfl, rfl, fun _ ↦ rfl⟩
  | define x v _ ih => exact (balanced_define x v).append ih
  | defineGlobal x v _ ih => exact (balanced_defineGlobal x v).append ih
  | lookup x _ ih | lookupWithScope x _ ih =>
    exact (balanced_single fun u ↦ ⟨_, u, rfl, rfl, rfl, fun _ ↦ rfl⟩).append ih
  | enter _ _ ihinside ihrest =>
    exact hconstruct (ihinside.construct (p := Scopes.current) (fun _ ↦ rfl) rfl) ihrest
  | enterFunction _ _ ihinside ihrest =>
    exact hconstruct (ihinside.construct (p := fun _ ↦ ScopeId.global) (fun _ ↦ rfl) rfl) ihrest

end Usage

/-- **Scopes and environments.** Whatever is done with scopes, as long as no frame is left that was
not entered, names are found as in a stack of environments: with the same values, in frames that are
numbered by depth, the global one being zero. If constructs are entered and left in pairs inside a
construct, all of this can be performed, and when the construct is left, the scopes are as they were
when it was entered, except for the definitions of global names. -/
theorem runs_as_environments {α : Type} :
    (∀ as : List (ScopeAction α),
      (Usage.start.run as).map Prod.fst = (Environments.start.run as).map Prod.fst) ∧
    ∀ as : List (ScopeAction α), Bracketed as →
      ∀ a, a = .enter ∨ a = .enterFunction → ∀ u : Usage α,
        ∃ answers, u.run (a :: (as ++ [.exit])) =
          some (answers, { u with scopes := u.scopes.defineGlobals id (globalDefinitions as) }) := by
  refine ⟨Usage.Shows.start.run, fun as h a ha u ↦ ?_⟩
  have hbalanced := Usage.balanced_of_bracketed h
  rcases ha with rfl | rfl
  · exact hbalanced.run_construct rfl
  · exact hbalanced.run_construct rfl

/-- What is done inside a function: a variable is bound, and in a nested construct it is bound again
while a global function is defined. -/
def nestedActions : List (ScopeAction Nat) :=
  [.define "x" 2, .enter, .define "x" 3, .defineGlobal "g" 4, .lookup "x", .exit, .lookup "x"]

theorem nestedActions_restored :
    Bracketed nestedActions ∧
      ((.enterFunction : ScopeAction Nat) = .enter ∨
        (.enterFunction : ScopeAction Nat) = .enterFunction) ∧
      ∃ answers, Usage.start.run (.enterFunction :: (nestedActions ++ [.exit])) =
        some (answers, ⟨Scopes.empty.defineGlobal "g" 4, []⟩) := by
  have h : Bracketed nestedActions :=
    .define _ _ (.enter (.define _ _ (.defineGlobal _ _ (.lookup _ .nil))) (.lookup _ .nil))
  exact ⟨h, .inr rfl, runs_as_environments.2 nestedActions h .enterFunction (.inr rfl) .start⟩

/-- A function does not see a variable of the place where it is written, and frames are numbered by
depth. -/
example :
    (Usage.start.run [.enter, .define "x" 1, .enter, .define "x" 2, .lookupWithScope "x",
      .enterFunction, .lookupWithScope "x", .exit, .exit, .lookupWithScope "x"]).map Prod.fst =
      some [.done, .done, .done, .done, .binding (some (2, 2)), .done, .binding none, .done, .done,
        .binding (some (1, 1))] := rfl

end TaggedLisp
