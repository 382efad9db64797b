import Mathlib.Data.List.Basic
import TaggedLisp.Scopes

/-!
# Scopes as two environments

What can be seen from the current frame is an association list of local bindings, innermost first,
in front of the association list of the global ones. `Scopes.locals` and `Scopes.globals` are these
two lists, and the equations below say what each operation does to them. Everything that is proved
about the passes looks at scopes only through the two lists.

This reading needs the parents to stand before their children, `Scopes.WellFormed`, which every
operation keeps.
-/

namespace TaggedLisp.Scopes

variable {α β : Type}

/-! ## Well-formed scopes -/

/-- The current frame is open, the global frame has no parent, and any other frame has a parent
that stands before it. -/
structure WellFormed (s : Scopes α) : Prop where
  current_lt : s.current < s.frames.length
  parent_zero : ∀ f, s.frames[0]? = some f → f.parent = none
  parent_succ : ∀ i f, s.frames[i + 1]? = some f → ∃ p, f.parent = some p ∧ p ≤ i

theorem wellFormed_empty : (empty : Scopes α).WellFormed where
  current_lt := by simp [empty, ScopeId.global]
  parent_zero := by simp [empty]
  parent_succ := by simp [empty]

theorem WellFormed.enterFrom {s : Scopes α} (h : s.WellFormed) {p : ScopeId}
    (hp : p < s.frames.length) : (s.enterFrom p).WellFormed where
  current_lt := by simp [Scopes.enterFrom]
  parent_zero f hf := by
    rw [Scopes.enterFrom, List.getElem?_append_left (Nat.zero_lt_of_lt hp)] at hf
    exact h.parent_zero f hf
  parent_succ i f hf := by
    rw [Scopes.enterFrom, List.getElem?_append] at hf
    split at hf
    · exact h.parent_succ i f hf
    · next hi =>
      obtain ⟨-, rfl⟩ := by simpa [List.getElem?_singleton] using hf
      exact ⟨p, rfl, Nat.le_of_lt_succ (Nat.lt_of_lt_of_le hp (Nat.le_of_not_lt hi))⟩

theorem WellFormed.enter {s : Scopes α} (h : s.WellFormed) : s.enter.WellFormed :=
  h.enterFrom h.current_lt

theorem WellFormed.global_lt {s : Scopes α} (h : s.WellFormed) :
    ScopeId.global < s.frames.length :=
  Nat.zero_lt_of_lt h.current_lt

/-- Every frame but the global one is opened behind it. -/
theorem WellFormed.current_enterFrom {s : Scopes α} (h : s.WellFormed) (p : ScopeId) :
    (s.enterFrom p).current ≠ ScopeId.global := Nat.ne_of_gt h.global_lt

theorem WellFormed.current_enter {s : Scopes α} (h : s.WellFormed) :
    s.enter.current ≠ ScopeId.global := h.current_enterFrom _

theorem WellFormed.defineIn {s : Scopes α} (h : s.WellFormed) (i : ScopeId) (x : String) (v : α) :
    (s.defineIn i x v).WellFormed := by
  have hparent : ∀ (j : Nat) (f : Frame α), (s.defineIn i x v).frames[j]? = some f →
      ∃ g : Frame α, s.frames[j]? = some g ∧ f.parent = g.parent := by
    intro j f hf
    rw [Scopes.defineIn, List.getElem?_modify] at hf
    obtain ⟨g, hg, rfl⟩ := Option.map_eq_some_iff.mp hf
    refine ⟨g, hg, ?_⟩
    split <;> rfl
  constructor
  · rw [length_frames_defineIn]
    exact h.current_lt
  · intro f hf
    obtain ⟨g, hg, hfg⟩ := hparent 0 f hf
    rw [hfg, h.parent_zero g hg]
  · intro j f hf
    obtain ⟨g, hg, hfg⟩ := hparent (j + 1) f hf
    rw [hfg]
    exact h.parent_succ j g hg

theorem WellFormed.define {s : Scopes α} (h : s.WellFormed) (x : String) (v : α) :
    (s.define x v).WellFormed := h.defineIn _ x v

theorem WellFormed.defineGlobal {s : Scopes α} (h : s.WellFormed) (x : String) (v : α) :
    (s.defineGlobal x v).WellFormed := h.defineIn _ x v

/-! ## Leaving a frame -/

/-- A binding made in the current frame goes with it. -/
theorem exit_define (s : Scopes α) (x : String) (v : α) (saved : ScopeId) :
    (s.define x v).exit saved = s.exit saved := by
  have hlen : (s.frames.take s.current).length ≤ s.current := List.length_take_le _ _
  simp [define, defineIn, exit, List.take_modify, List.modify_eq_self hlen]

/-- A global binding stays when a frame is left, unless the global frame itself is left. -/
theorem exit_defineGlobal (s : Scopes α) (x : String) (v : α) (saved : ScopeId) :
    (s.defineGlobal x v).exit saved = (s.exit saved).defineGlobal x v := by
  simp [defineGlobal, defineIn, exit, List.take_modify]

/-! ## The two environments -/

/-- The global bindings, the latest one first. -/
def globals (s : Scopes α) : List (String × α) := (s.frames[0]?.map Frame.bindings).getD []

/-- The visible bindings that are not global, the innermost one first. -/
def locals (s : Scopes α) : List (String × α) :=
  s.visible.flatMap fun (scope, f) ↦ if scope = ScopeId.global then [] else f.bindings

/-- A search visits the same frames whatever is bound in them. -/
theorem visibleWithin_modify (frames : List (Frame α)) (i : ScopeId) (x : String) (v : α) :
    ∀ (n : Nat) (scope : ScopeId), visibleWithin (frames.modify i (·.define x v)) n scope
      = (visibleWithin frames n scope).map fun (j, f) ↦
          (j, if j = i then f.define x v else f) := by
  intro n
  induction n with
  | zero => intro scope; rfl
  | succ n ih =>
    intro scope
    rw [visibleWithin, visibleWithin, List.getElem?_modify]
    cases frames[scope]? with
    | none => rfl
    | some f =>
      have hparent : (f.define x v).parent = f.parent := rfl
      by_cases hi : i = scope
      · subst hi
        cases hp : f.parent <;> simp [hparent, hp, ih]
      · cases hp : f.parent <;> simp [hi, Ne.symm hi, hp, ih]

/-- A search visits the same frames whatever is put in the place of each. -/
theorem visibleWithin_map (g : Frame α → Frame β) (hg : ∀ f, (g f).parent = f.parent)
    (frames : List (Frame α)) (n : Nat) (scope : ScopeId) :
    visibleWithin (frames.map g) n scope
      = (visibleWithin frames n scope).map fun p ↦ (p.1, g p.2) := by
  induction n generalizing scope with
  | zero => rfl
  | succ n ih =>
    rw [visibleWithin, visibleWithin, List.getElem?_map]
    cases frames[scope]? with
    | none => rfl
    | some f => cases hp : f.parent <;> simp [hg, hp, ih]

theorem visible_map (g : Frame α → Frame β) (hg : ∀ f, (g f).parent = f.parent) (s : Scopes α) :
    visible ⟨s.frames.map g, s.current⟩ = s.visible.map fun p ↦ (p.1, g p.2) := by
  rw [visible, visible, List.length_map]
  exact visibleWithin_map g hg _ _ _

section

variable {s : Scopes α}

/-- A search from an open frame ends with the global frame, after frames that stand no later than
the one it started in. How many steps it may take and what stands behind is of no matter. -/
theorem WellFormed.visibleWithin_eq (h : s.WellFormed) (more : List (Frame α)) :
    ∀ {scope n : Nat}, scope < s.frames.length → scope < n →
      ∃ L f, s.frames[0]? = some f ∧
        visibleWithin (s.frames ++ more) n scope = L ++ [(ScopeId.global, f)] ∧
        (∀ p ∈ L, ScopeId.global < p.1 ∧ p.1 ≤ scope) ∧
        ∀ m, scope < m → visibleWithin s.frames m scope = L ++ [(ScopeId.global, f)] := by
  intro scope
  induction scope using Nat.strongRecOn with
  | ind scope ih =>
    intro n hscope hn
    obtain ⟨n, rfl⟩ : ∃ k, n = k + 1 := ⟨n - 1, by omega⟩
    have hf : s.frames[scope]? = some s.frames[scope] := List.getElem?_eq_getElem hscope
    generalize s.frames[scope] = f at hf
    cases scope with
    | zero =>
      refine ⟨[], f, hf, ?_, by simp, ?_⟩
      · simp [visibleWithin, List.getElem?_append_left hscope, hf, h.parent_zero f hf,
          ScopeId.global]
      · intro m hm
        obtain ⟨m, rfl⟩ : ∃ k, m = k + 1 := ⟨m - 1, by omega⟩
        simp [visibleWithin, hf, h.parent_zero f hf, ScopeId.global]
    | succ i =>
      obtain ⟨p, hp, hpi⟩ := h.parent_succ i f hf
      obtain ⟨L, g, hg, hvis, hle, hany⟩ :=
        ih p (Nat.lt_succ_of_le hpi) (n := n) (by omega) (by omega)
      refine ⟨(i + 1, f) :: L, g, hg, ?_, ?_, ?_⟩
      · simp [visibleWithin, List.getElem?_append_left hscope, hf, hp, hvis]
      · intro q hq
        rcases List.mem_cons.mp hq with rfl | hq
        · exact ⟨Nat.succ_pos i, Nat.le_refl _⟩
        · exact ⟨(hle q hq).1, Nat.le_succ_of_le (Nat.le_trans (hle q hq).2 hpi)⟩
      · intro m hm
        obtain ⟨m, rfl⟩ : ∃ k, m = k + 1 := ⟨m - 1, by omega⟩
        simp [visibleWithin, hf, hp, hany m (by omega)]

/-- The frames that are seen: the local ones, then the global one. -/
theorem WellFormed.visible_eq (h : s.WellFormed) :
    ∃ L f, s.frames[0]? = some f ∧ s.visible = L ++ [(ScopeId.global, f)] ∧
      ∀ p ∈ L, ScopeId.global < p.1 ∧ p.1 ≤ s.current := by
  obtain ⟨L, f, hf, -, hle, hany⟩ := h.visibleWithin_eq [] h.current_lt h.current_lt
  exact ⟨L, f, hf, hany _ h.current_lt, hle⟩

private theorem flatMap_local {L : List (ScopeId × Frame α)}
    (hL : ∀ p ∈ L, ScopeId.global < p.1) (f : Frame α) :
    (L ++ [(ScopeId.global, f)]).flatMap
        (fun (scope, f) ↦ if scope = ScopeId.global then [] else f.bindings)
      = L.flatMap fun p ↦ p.2.bindings := by
  rw [List.flatMap_append]
  simp only [List.flatMap_cons, if_pos, List.flatMap_nil, List.append_nil]
  refine List.flatMap_congr fun p hp ↦ ?_
  rw [if_neg (Nat.ne_of_gt (hL p hp))]

/-- A name that is bound locally stands for that binding and for its global binding otherwise; the
frame of the binding tells which it is. -/
theorem WellFormed.lookupWithScope_eq (h : s.WellFormed) (x : String) :
    (∃ v scope, s.locals.lookup x = some v ∧ s.lookupWithScope x = some (v, scope) ∧
        scope ≠ ScopeId.global) ∨
      (s.locals.lookup x = none ∧
        s.lookupWithScope x = (s.globals.lookup x).map (·, ScopeId.global)) := by
  obtain ⟨L, f, hf, hvis, hL⟩ := h.visible_eq
  have hloc : s.locals = L.flatMap fun p ↦ p.2.bindings := by
    rw [locals, hvis, flatMap_local fun p hp ↦ (hL p hp).1]
  have hglob : s.globals = f.bindings := by rw [globals, hf]; rfl
  rw [hloc, hglob, lookupWithScope, hvis, List.findSome?_append]
  clear hvis hloc
  induction L with
  | nil =>
    refine Or.inr ⟨rfl, ?_⟩
    simp [Frame.lookup]
  | cons p L ih =>
    rw [List.flatMap_cons, List.lookup_append, List.findSome?_cons]
    simp only [Frame.lookup]
    cases hp : p.2.bindings.lookup x with
    | some v => exact Or.inl ⟨v, p.1, rfl, rfl, Nat.ne_of_gt (hL p List.mem_cons_self).1⟩
    | none => exact ih fun q hq ↦ hL q (List.mem_cons_of_mem p hq)

theorem WellFormed.lookup_eq (h : s.WellFormed) (x : String) :
    s.lookup x = (s.locals.lookup x).or (s.globals.lookup x) := by
  rcases h.lookupWithScope_eq x with ⟨v, scope, hl, hs, -⟩ | ⟨hl, hs⟩
  · simp [lookup, hl, hs]
  · cases hg : s.globals.lookup x <;> simp [lookup, hl, hs, hg]

/-- A name that is bound stands in the list of bindings. -/
theorem mem_of_lookup {x : String} {v : α} {bs : List (String × α)} (h : bs.lookup x = some v) :
    (x, v) ∈ bs := by
  obtain ⟨before, after, rfl, -⟩ := List.lookup_eq_some_iff.mp h
  exact List.mem_append_right _ List.mem_cons_self

/-- A name that is not bound is not found, in whatever order the bindings stand. -/
theorem lookup_reverse_eq_none {x : String} {bs : List (String × α)} (hx : x ∉ bs.map Prod.fst) :
    bs.reverse.lookup x = none :=
  List.lookup_eq_none_iff.mpr fun b hb ↦ bne_iff_ne.mpr fun hxb ↦
    hx (List.mem_map.mpr ⟨b, List.mem_reverse.mp hb, hxb.symm⟩)

/-- Names that are all found, one after the other. -/
theorem forall₂_of_mapM {f : α → Option β} {xs : List α} {ys : List β}
    (h : xs.mapM f = some ys) : List.Forall₂ (fun x y ↦ f x = some y) xs ys := by
  induction xs generalizing ys with
  | nil =>
    obtain rfl := by simpa using h
    exact .nil
  | cons x xs ih =>
    rw [List.mapM_cons] at h
    obtain ⟨y, hy, h⟩ := Option.bind_eq_some_iff.mp h
    obtain ⟨ys', hys, h⟩ := Option.bind_eq_some_iff.mp h
    obtain rfl := by simpa using h
    exact .cons hy (ih hys)

theorem exists_of_mem_mapM {f : α → Option β} {xs : List α} {ys : List β} {y : β}
    (h : xs.mapM f = some ys) (hy : y ∈ ys) : ∃ x, f x = some y := by
  have hall := forall₂_of_mapM h
  clear h
  induction hall with
  | nil => cases hy
  | cons hx _ ih =>
    rcases List.mem_cons.mp hy with rfl | hy
    · exact ⟨_, hx⟩
    · exact ih hy

/-! ## What the operations do to the environments -/

@[simp] theorem WellFormed.locals_enter (h : s.WellFormed) : s.enter.locals = s.locals := by
  obtain ⟨L, f, -, hvis, hL, hany⟩ := h.visibleWithin_eq [⟨some s.current, []⟩]
    (n := s.frames.length) h.current_lt h.current_lt
  have hcur : (s.frames ++ [⟨some s.current, []⟩])[s.frames.length]?
      = some (⟨some s.current, []⟩ : Frame α) := List.getElem?_concat_length
  have hne : s.frames.length ≠ ScopeId.global := Nat.ne_of_gt h.global_lt
  rw [locals, locals, visible, Scopes.enter, Scopes.enterFrom, visible, List.length_append,
    List.length_singleton, visibleWithin, hcur]
  simp only [List.flatMap_cons, hvis, hany _ h.current_lt, hne, if_false, List.nil_append]

@[simp] theorem WellFormed.locals_enterFrom_global (h : s.WellFormed) :
    (s.enterFrom ScopeId.global).locals = [] := by
  obtain ⟨L, f, -, hvis, hL, -⟩ := h.visibleWithin_eq [⟨some ScopeId.global, []⟩]
    (n := s.frames.length) h.global_lt h.global_lt
  have hcur : (s.frames ++ [⟨some ScopeId.global, []⟩])[s.frames.length]?
      = some (⟨some ScopeId.global, []⟩ : Frame α) := List.getElem?_concat_length
  have hne : s.frames.length ≠ ScopeId.global := Nat.ne_of_gt h.global_lt
  have hnil : L = [] := List.eq_nil_iff_forall_not_mem.mpr fun p hp ↦
    absurd (hL p hp).2 (Nat.not_le_of_lt (hL p hp).1)
  rw [locals, visible, Scopes.enterFrom, List.length_append, List.length_singleton, visibleWithin,
    hcur]
  simp only [List.flatMap_cons, hvis, hnil, hne, if_false, if_true, List.nil_append,
    List.flatMap_nil]

@[simp] theorem WellFormed.globals_enterFrom (h : s.WellFormed) (p : ScopeId) :
    (s.enterFrom p).globals = s.globals := by
  rw [globals, globals, Scopes.enterFrom,
    List.getElem?_append_left (show 0 < s.frames.length from h.global_lt)]

@[simp] theorem WellFormed.globals_enter (h : s.WellFormed) : s.enter.globals = s.globals :=
  h.globals_enterFrom s.current

theorem locals_defineGlobal (s : Scopes α) (x : String) (v : α) :
    (s.defineGlobal x v).locals = s.locals := by
  rw [locals, locals, visible, defineGlobal, length_frames_defineIn, current_defineIn, defineIn,
    visibleWithin_modify, List.flatMap_map, ← visible]
  refine List.flatMap_congr fun p _ ↦ ?_
  by_cases hp : p.1 = ScopeId.global <;> simp [hp]

theorem WellFormed.globals_defineGlobal (h : s.WellFormed) (x : String) (v : α) :
    (s.defineGlobal x v).globals = (x, v) :: s.globals := by
  have h0 : s.frames[0]? = some (s.frames.get ⟨0, h.global_lt⟩) :=
    List.getElem?_eq_getElem h.global_lt
  simp [globals, Scopes.defineGlobal, Scopes.defineIn, ScopeId.global, h0, Frame.define]

theorem WellFormed.locals_define (h : s.WellFormed) (hs : s.current ≠ ScopeId.global) (x : String)
    (v : α) : (s.define x v).locals = (x, v) :: s.locals := by
  obtain ⟨i, hi⟩ : ∃ i : Nat, s.current = i + 1 := Nat.exists_eq_succ_of_ne_zero hs
  have hlt : i + 1 < s.frames.length := hi ▸ h.current_lt
  obtain ⟨f, hf⟩ : ∃ f, s.frames[i + 1]? = some f := ⟨_, List.getElem?_eq_getElem hlt⟩
  obtain ⟨p, hp, hpi⟩ := h.parent_succ i f hf
  obtain ⟨n, hn⟩ : ∃ n, s.frames.length = n + 1 := ⟨s.frames.length - 1, by omega⟩
  obtain ⟨L, g, -, -, hL, hany⟩ := h.visibleWithin_eq [] (n := n)
    (show p < s.frames.length by omega) (show p < n by omega)
  have hvis : s.visible = (i + 1, f) :: (L ++ [(ScopeId.global, g)]) := by
    rw [visible, hi, hn, visibleWithin, hf]
    simp [hp, hany n (by omega)]
  -- no frame behind the current one is the current one
  have hne : ∀ q ∈ L ++ [(ScopeId.global, g)], q.1 ≠ i + 1 := by
    intro q hq
    rcases List.mem_append.mp hq with hq | hq
    · exact Nat.ne_of_lt (Nat.lt_succ_of_le (Nat.le_trans (hL q hq).2 hpi))
    · rw [List.mem_singleton.mp hq]
      exact (Nat.succ_ne_zero i).symm
  have hrest : (L ++ [(ScopeId.global, g)]).map
      (fun q ↦ (q.1, if q.1 = i + 1 then q.2.define x v else q.2))
      = L ++ [(ScopeId.global, g)] := by
    refine List.map_congr_left (g := id) (fun q hq ↦ ?_) |>.trans (List.map_id _)
    rw [if_neg (hne q hq)]
    rfl
  have hi0 : (i + 1 : Nat) ≠ ScopeId.global := Nat.succ_ne_zero i
  rw [locals, locals, visible, Scopes.define, length_frames_defineIn, current_defineIn,
    Scopes.defineIn, visibleWithin_modify, ← visible, hvis, List.map_cons, hi, hrest]
  simp only [List.flatMap_cons, hi0, if_false, if_true, Frame.define, List.cons_append]

theorem globals_define (hs : s.current ≠ ScopeId.global) (x : String) (v : α) :
    (s.define x v).globals = s.globals := by
  have h0 : s.current ≠ 0 := hs
  simp [globals, define, defineIn, h0]

/-- The latest binding in the current frame hides the others. -/
theorem WellFormed.lookup_define (h : s.WellFormed) (hs : s.current ≠ ScopeId.global) (x : String)
    (v : α) (y : String) :
    (s.define x v).lookup y = if y = x then some v else s.lookup y := by
  rw [(h.define x v).lookup_eq, h.lookup_eq, h.locals_define hs, globals_define hs,
    List.lookup_cons]
  by_cases hy : y = x
  · simp [hy]
  · simp [hy, beq_false_of_ne hy]

/-! ## Many bindings -/

/-- Binds names in the global frame to what `f` makes of their values. -/
def defineGlobals (s : Scopes α) (f : β → α) (ds : List (String × β)) : Scopes α :=
  ds.foldl (fun s d ↦ s.defineGlobal d.1 (f d.2)) s

variable (f : β → α) (ds : List (String × β))

theorem defineGlobals_append (s : Scopes α) (ds ds' : List (String × β)) :
    s.defineGlobals f (ds ++ ds') = (s.defineGlobals f ds).defineGlobals f ds' := List.foldl_append

theorem WellFormed.defineGlobals (h : s.WellFormed) : (s.defineGlobals f ds).WellFormed := by
  induction ds generalizing s with
  | nil => exact h
  | cons d ds ih => exact ih (h.defineGlobal _ _)

theorem exit_defineGlobals (s : Scopes α) (saved : ScopeId) :
    (s.defineGlobals f ds).exit saved = (s.exit saved).defineGlobals f ds := by
  induction ds generalizing s with
  | nil => rfl
  | cons d ds ih => exact (ih _).trans (by rw [exit_defineGlobal]; rfl)

@[simp] theorem current_defineGlobals (s : Scopes α) :
    (s.defineGlobals f ds).current = s.current := by
  induction ds generalizing s with
  | nil => rfl
  | cons d ds ih => exact ih _

theorem locals_defineGlobals (s : Scopes α) : (s.defineGlobals f ds).locals = s.locals := by
  induction ds generalizing s with
  | nil => rfl
  | cons d ds ih => exact (ih _).trans (locals_defineGlobal s _ _)

/-- The latest names come first. -/
theorem WellFormed.globals_defineGlobals (h : s.WellFormed) :
    (s.defineGlobals f ds).globals = (ds.map fun d ↦ (d.1, f d.2)).reverse ++ s.globals := by
  induction ds generalizing s with
  | nil => rfl
  | cons d ds ih =>
    rw [Scopes.defineGlobals, List.foldl_cons, ← Scopes.defineGlobals, ih (h.defineGlobal _ _),
      h.globals_defineGlobal]
    simp

/-- Names that are not among the new ones keep their global bindings. -/
theorem WellFormed.lookup_globals_defineGlobals (h : s.WellFormed) {x : String}
    (hx : x ∉ ds.map Prod.fst) :
    (s.defineGlobals f ds).globals.lookup x = s.globals.lookup x := by
  have hnone : (ds.map fun d ↦ (d.1, f d.2)).reverse.lookup x = none :=
    lookup_reverse_eq_none (by rwa [List.map_map])
  rw [h.globals_defineGlobals, List.lookup_append, hnone, Option.none_or]

end

/-- Binds names in the current frame, the last one innermost. -/
def defineAll (s : Scopes α) (bs : List (String × α)) : Scopes α :=
  bs.foldl (fun s b ↦ s.define b.1 b.2) s

section

variable {s : Scopes α} (bs : List (String × α))

theorem defineAll_append (s : Scopes α) (bs bs' : List (String × α)) :
    s.defineAll (bs ++ bs') = (s.defineAll bs).defineAll bs' := List.foldl_append

@[simp] theorem current_defineAll (s : Scopes α) : (s.defineAll bs).current = s.current := by
  induction bs generalizing s with
  | nil => rfl
  | cons b bs ih => exact ih _

theorem WellFormed.defineAll (h : s.WellFormed) : (s.defineAll bs).WellFormed := by
  induction bs generalizing s with
  | nil => exact h
  | cons b bs ih => exact ih (h.define _ _)

theorem exit_defineAll (s : Scopes α) (saved : ScopeId) :
    (s.defineAll bs).exit saved = s.exit saved := by
  induction bs generalizing s with
  | nil => rfl
  | cons b bs ih => exact (ih _).trans (exit_define s _ _ _)

theorem WellFormed.locals_defineAll (h : s.WellFormed) (hs : s.current ≠ ScopeId.global) :
    (s.defineAll bs).locals = bs.reverse ++ s.locals := by
  induction bs generalizing s with
  | nil => rfl
  | cons b bs ih =>
    rw [Scopes.defineAll, List.foldl_cons, ← Scopes.defineAll, ih (h.define _ _) hs,
      h.locals_define hs]
    simp

/-- Names that are not among the new ones keep their bindings. -/
theorem WellFormed.lookup_locals_defineAll (h : s.WellFormed) (hs : s.current ≠ ScopeId.global)
    {x : String} (hx : x ∉ bs.map Prod.fst) :
    (s.defineAll bs).locals.lookup x = s.locals.lookup x := by
  rw [h.locals_defineAll bs hs, List.lookup_append, lookup_reverse_eq_none hx, Option.none_or]

/-- The new names are bound. -/
theorem WellFormed.exists_lookup_locals_defineAll (h : s.WellFormed)
    (hs : s.current ≠ ScopeId.global) {x : String} (hx : x ∈ bs.map Prod.fst) :
    ∃ v, (s.defineAll bs).locals.lookup x = some v := by
  have hne : bs.reverse.lookup x ≠ none := fun hnone ↦ by
    obtain ⟨b, hb, rfl⟩ := List.mem_map.mp hx
    exact absurd rfl (bne_iff_ne.mp (List.lookup_eq_none_iff.mp hnone b (List.mem_reverse.mpr hb)))
  obtain ⟨v, hv⟩ := Option.ne_none_iff_exists'.mp hne
  exact ⟨v, by rw [h.locals_defineAll bs hs, List.lookup_append, hv, Option.some_or]⟩

theorem globals_defineAll (hs : s.current ≠ ScopeId.global) :
    (s.defineAll bs).globals = s.globals := by
  induction bs generalizing s with
  | nil => rfl
  | cons b bs ih => exact (ih (s := s.define b.1 b.2) hs).trans (globals_define hs _ _)

end

/-! ## All bindings -/

/-- Whether every value that is bound in some frame satisfies `P`. -/
def All (P : α → Prop) (s : Scopes α) : Prop := ∀ f ∈ s.frames, ∀ b ∈ f.bindings, P b.2

namespace All

variable {s : Scopes α} {P : α → Prop}

theorem empty : (Scopes.empty : Scopes α).All P := by
  intro f hf
  obtain rfl := List.mem_singleton.mp hf
  exact List.forall_mem_nil _

theorem mono {Q : α → Prop} (h : s.All P) (hPQ : ∀ v, P v → Q v) : s.All Q :=
  fun f hf b hb ↦ hPQ b.2 (h f hf b hb)

theorem enterFrom (h : s.All P) (parent : ScopeId) : (s.enterFrom parent).All P := by
  intro f hf
  rcases List.mem_append.mp hf with hf | hf
  · exact h f hf
  · obtain rfl := List.mem_singleton.mp hf
    exact List.forall_mem_nil _

theorem enter (h : s.All P) : s.enter.All P := h.enterFrom _

theorem exit (h : s.All P) (saved : ScopeId) : (s.exit saved).All P :=
  fun f hf ↦ h f (List.mem_of_mem_take hf)

theorem defineIn (h : s.All P) (i : ScopeId) (x : String) {v : α} (hv : P v) :
    (s.defineIn i x v).All P := by
  intro f hf
  obtain ⟨j, hj⟩ := List.mem_iff_getElem?.mp hf
  rw [Scopes.defineIn, List.getElem?_modify] at hj
  obtain ⟨g, hg, rfl⟩ := Option.map_eq_some_iff.mp hj
  have hall := h g (List.mem_of_getElem? hg)
  split
  · exact List.forall_mem_cons.mpr ⟨hv, hall⟩
  · exact hall

theorem defineGlobals {f : β → α} {ds : List (String × β)} (h : s.All P)
    (hds : ∀ d ∈ ds, P (f d.2)) : (s.defineGlobals f ds).All P := by
  induction ds generalizing s with
  | nil => exact h
  | cons d ds ih =>
    obtain ⟨hd, hds⟩ := List.forall_mem_cons.mp hds
    exact ih (h.defineIn _ d.1 hd) hds

theorem defineAll {bs : List (String × α)} (h : s.All P) (hbs : ∀ b ∈ bs, P b.2) :
    (s.defineAll bs).All P := by
  induction bs generalizing s with
  | nil => exact h
  | cons b bs ih =>
    obtain ⟨hb, hbs⟩ := List.forall_mem_cons.mp hbs
    exact ih (h.defineIn _ b.1 hb) hbs

/-- What a search finds is bound in some frame. -/
theorem of_lookupWithScope (h : s.All P) {x : String} {v : α} {scope : ScopeId}
    (hx : s.lookupWithScope x = some (v, scope)) : P v := by
  have hvisible : ∀ (n : Nat) (i : ScopeId), ∀ p ∈ visibleWithin s.frames n i,
      p.2 ∈ s.frames := by
    intro n
    induction n with
    | zero => exact fun _ ↦ List.forall_mem_nil _
    | succ n ih =>
      intro i
      rw [visibleWithin]
      split
      · exact List.forall_mem_nil _
      · next f hf =>
        refine List.forall_mem_cons.mpr ⟨List.mem_of_getElem? hf, ?_⟩
        split
        · exact List.forall_mem_nil _
        · exact ih _
  obtain ⟨p, hp, hfound⟩ := List.exists_of_findSome?_eq_some hx
  obtain ⟨w, hw, hpair⟩ := Option.map_eq_some_iff.mp hfound
  obtain rfl : w = v := congrArg Prod.fst hpair
  exact h p.2 (hvisible _ _ p hp) (x, w) (mem_of_lookup hw)

theorem of_lookup (h : s.All P) {x : String} {v : α} (hx : s.lookup x = some v) : P v := by
  obtain ⟨⟨w, scope⟩, hw, rfl⟩ := Option.map_eq_some_iff.mp hx
  exact h.of_lookupWithScope hw

end All

/-! ## Scopes with other values -/

/-- The scopes with `f v` in place of every value `v`. -/
def map (f : α → β) (s : Scopes α) : Scopes β :=
  ⟨s.frames.map fun fr ↦ ⟨fr.parent, fr.bindings.map fun b ↦ (b.1, f b.2)⟩, s.current⟩

section

variable (f : α → β) (s : Scopes α)

theorem map_enterFrom (p : ScopeId) : (s.enterFrom p).map f = (s.map f).enterFrom p := by
  simp [map, enterFrom]

theorem map_enter : s.enter.map f = (s.map f).enter := map_enterFrom f s _

theorem map_exit (saved : ScopeId) : (s.exit saved).map f = (s.map f).exit saved := by
  simp [map, exit, List.map_take]

theorem map_defineIn (i : ScopeId) (x : String) (v : α) :
    (s.defineIn i x v).map f = (s.map f).defineIn i x (f v) := by
  simp only [map, defineIn, Scopes.mk.injEq, and_true]
  apply List.ext_getElem?
  intro j
  cases hfr : s.frames[j]? with
  | none => simp [List.getElem?_modify, hfr]
  | some fr => by_cases hj : i = j <;> simp [hfr, hj, Frame.define]

theorem map_define (x : String) (v : α) : (s.define x v).map f = (s.map f).define x (f v) :=
  map_defineIn f s _ x v

theorem map_defineGlobal (x : String) (v : α) :
    (s.defineGlobal x v).map f = (s.map f).defineGlobal x (f v) := map_defineIn f s _ x v

theorem map_defineAll (bs : List (String × α)) :
    (s.defineAll bs).map f = (s.map f).defineAll (bs.map fun b ↦ (b.1, f b.2)) := by
  induction bs generalizing s with
  | nil => rfl
  | cons b bs ih => exact (ih _).trans (by rw [map_define]; rfl)

theorem map_defineGlobals {γ : Type} (g : γ → α) (ds : List (String × γ)) :
    (s.defineGlobals g ds).map f = (s.map f).defineGlobals (f ∘ g) ds := by
  induction ds generalizing s with
  | nil => rfl
  | cons d ds ih => exact (ih _).trans (by rw [map_defineGlobal]; rfl)

theorem lookup_mapValues (bs : List (String × α)) (x : String) :
    (bs.map fun b ↦ (b.1, f b.2)).lookup x = (bs.lookup x).map f := by
  induction bs with
  | nil => rfl
  | cons b bs ih =>
    rw [List.map_cons, List.lookup_cons, List.lookup_cons, ih]
    cases x == b.1 <;> rfl

theorem lookupWithScope_map (x : String) :
    (s.map f).lookupWithScope x = (s.lookupWithScope x).map fun p ↦ (f p.1, p.2) := by
  rw [lookupWithScope, lookupWithScope, map, visible_map, List.findSome?_map, List.map_findSome?]
  · simp only [Function.comp_def, Frame.lookup, lookup_mapValues, Option.map_map]
  · exact fun _ ↦ rfl

end

end TaggedLisp.Scopes
