import TaggedLisp.Proofs.Restoring
import TaggedLisp.Proofs.Typing.Finite
import TaggedLisp.Proofs.Typing.Mirrored

/-!
# Types of finished functions

A global function keeps the type that it was bound to until its name is defined again, but what that
type means may still change. A parameter whose type was left open is a placeholder that is shared by
all uses of the function, so a later form that hands on one of its own parameters and then does
arithmetic with it narrows both.

`signature_stable` says how far this goes. The type of the function expands to the same in the end
unless one of its open placeholders was narrowed, and only a form that mentions a name whose type
depends on a placeholder can narrow or freeze it. What the names of a form stand for and which of
these placeholders are open is also all that matters for the form itself: forms in between that
leave this alone do not change what comes of a call.
-/

namespace TaggedLisp

namespace Checker

variable {c c' : Checker} {g : Form} {fs : List Form} {t u : Ty} {v : Nat} {x : String}

/-! ## Forms one after another -/

/-- The checker after several forms, whatever comes of each. -/
def after (c : Checker) (fs : List Form) : Checker := fs.foldl (fun c f ↦ (f.check.outcome c).2) c

/-- While the forms are checked one after another, a definition of `x` is completed. -/
def Rebinds (c : Checker) (fs : List Form) (x : String) : Prop :=
  ∃ before g later, fs = before ++ g :: later ∧ g.Completes (c.after before) x

/-- Whether a placeholder is unresolved and may still be narrowed. -/
def Open (c : Checker) (v : Nat) : Prop :=
  c.types.resolved? v = none ∧ c.types.isNarrowable v = true

/-- Whether a form mentions a name whose type depends on `v`. -/
def Touches (c : Checker) (g : Form) (v : Nat) : Prop :=
  ∃ x ∈ g.symbols, ∃ t, c.scopes.lookup x = some t ∧ c.types.Reaches t v

/-- Whether one of several forms touches `v` when its turn comes. -/
def TouchesAny (c : Checker) (fs : List Form) (v : Nat) : Prop :=
  ∃ before g later, fs = before ++ g :: later ∧ (c.after before).Touches g v

theorem Reached.after (h : c.Reached) (fs : List Form) : (c.after fs).Reached := by
  induction fs generalizing c with
  | nil => exact h
  | cons f fs ih => exact ih (.check f h)

theorem exists_run_after (c : Checker) (fs : List Form) :
    ∃ as, (c.after fs).types = c.types.run as := by
  induction fs generalizing c with
  | nil => exact ⟨[], rfl⟩
  | cons f fs ih => exact runs_stepClosed.trans _ _ _ (f.check_leads runs_stepClosed c) (ih _)

theorem Reached.later_after (h : c.Reached) (fs : List Form) :
    c.types.Later (c.after fs).types := by
  obtain ⟨as, has⟩ := c.exists_run_after fs
  exact has ▸ (h.chainsEnd.run as).2

/-- Between forms, only the global frame is open. -/
theorem Reached.scopes_eq (h : c.Reached) : ∃ bs, c.scopes = ⟨[⟨none, bs⟩], ScopeId.global⟩ := by
  have hframes : SameFrames .start c := by
    induction h with
    | start => exact sameFrames_stepClosed.refl _
    | check f _ ih =>
      exact sameFrames_stepClosed.trans _ _ _ ih (f.check_leads sameFrames_stepClosed _)
  obtain ⟨hcurrent, hparents⟩ := hframes
  have hstart : Checker.start.scopes.frames.map Frame.parent = [none] := rfl
  rw [hstart] at hparents
  obtain ⟨⟨parent, bs⟩, hframe, hparent⟩ := List.map_eq_singleton_iff.mp hparents
  obtain rfl : parent = none := hparent
  refine ⟨bs, ?_⟩
  change (⟨c.scopes.frames, c.scopes.current⟩ : Scopes Ty) = _
  rw [hframe, hcurrent]
  rfl

theorem lookup_global (bs : List (String × Ty)) (x : String) :
    (⟨[⟨none, bs⟩], ScopeId.global⟩ : Scopes Ty).lookup x = bs.lookup x := by
  simp [Scopes.lookup, Scopes.lookupWithScope, Scopes.visible, Scopes.visibleWithin, ScopeId.global,
    Frame.lookup, Function.comp_def]

/-- A name that is not defined again stands for the same type. -/
theorem Reached.lookup_after (h : c.Reached) (hx : ¬ c.Rebinds fs x) :
    (c.after fs).scopes.lookup x = c.scopes.lookup x := by
  induction fs generalizing c with
  | nil => rfl
  | cons f fs ih =>
    have hfirst := (f.check_gains c).lookup_eq h.wellFormed fun hf ↦ hx ⟨[], f, fs, rfl, hf⟩
    refine (ih (.check f h) ?_).trans hfirst
    rintro ⟨before, g, later, rfl, hg⟩
    exact hx ⟨f :: before, g, later, rfl, hg⟩

/-! ## What is known between forms -/

/-- All of a checker, seen in itself. -/
def whole : View where
  base := 0
  shift := 0
  Seen _ := True
  seen_of_le _ _ := trivial
  origin := .empty
  names _ := true

theorem index_whole (v : Nat) : whole.index v = v := View.index_of_le (Nat.zero_le v)

theorem ty_whole (t : Ty) : whole.ty t = t :=
  (Ty.subst_congr fun v _ ↦ congrArg Ty.var (index_whole v)).trans (Ty.subst_var t)

theorem covers_whole (f : Form) : whole.Covers f := fun _ _ ↦ rfl

theorem mirrored_start : whole.Mirrored start start := by
  refine ⟨⟨⟨fun v _ ↦ ?_, fun v u _ hu ↦ nomatch hu⟩, .empty, Nat.le_refl _, rfl, fun v _ _ ↦ ?_,
    fun v _ ↦ ?_, fun v hv ↦ absurd trivial hv⟩, ⟨rfl, rfl, fun i f f' hf hf' ↦ ?_⟩⟩
  · rfl
  · rw [index_whole]
  · rw [index_whole]
  · obtain rfl := Option.some.inj (hf.symm.trans hf')
    refine ⟨rfl, fun x _ ↦ ?_⟩
    cases ht : f.lookup x with
    | none => exact .none
    | some t =>
      have hover : t.Over start.types.size :=
        sound_start.scopes f (List.mem_of_getElem? hf) (x, t) (Scopes.mem_of_lookup ht)
      exact .some ⟨(ty_whole t).symm, fun v hv ↦ ⟨trivial, hover v hv⟩⟩

/-- All that a checker knows is about placeholders of its table. -/
theorem Reached.mirrored (h : c.Reached) : whole.Mirrored c c := by
  induction h with
  | start => exact mirrored_start
  | check f _ ih => exact (f.check_agrees (covers_whole f) ih (Nat.zero_le _)).mirrored

theorem Reached.over_written (h : c.Reached) (hu : c.types.resolved? v = some u) :
    u.Over c.types.size := (h.mirrored.types.knows v u trivial hu).over

theorem Reached.over_lookup (h : c.Reached) (hx : c.scopes.lookup x = some t) :
    t.Over c.types.size := by
  obtain ⟨⟨_, i⟩, hi, rfl⟩ := Option.map_eq_some_iff.mp hx
  rcases h.mirrored.scopes.lookupWithScope (x := x) rfl with ⟨hnone, -⟩ | ⟨t, t', j, hj, -, hsame⟩
  · cases hi.symm.trans hnone
  · obtain rfl := congrArg Prod.fst (Option.some.inj (hj.symm.trans hi))
    exact hsame.knows.over

theorem Reached.lt_size_of_reaches (h : c.Reached) (ht : t.Over c.types.size)
    (hv : c.types.Reaches t v) : v < c.types.size := by
  induction hv with
  | here hv => exact ht _ hv
  | through _ hu _ ih => exact ih (h.over_written hu)

/-- An unresolved placeholder stays so if it does where it is open, since it is closed for good
otherwise. -/
theorem unresolved_of_later {T : TypeTable} (hT : c.types.Later T) (hv : v < c.types.size)
    (hnone : c.types.resolved? v = none) (hopen : c.Open v → T.resolved? v = none) :
    T.resolved? v = none := by
  by_cases hnarrowable : c.types.isNarrowable v = true
  · exact hopen ⟨hnone, hnarrowable⟩
  · exact (hT.closed v hv (by simpa using hnarrowable)).2 hnone

/-! ## What a form sees -/

/-- What a form sees of a checker, and finds in another one that has `shift` more placeholders. -/
def seenBy (c : Checker) (g : Form) (shift : Nat) : View where
  base := c.types.size
  shift := shift
  Seen v := c.types.size ≤ v ∨ c.Touches g v
  seen_of_le _ := .inl
  origin := c.types
  names x := decide (x ∈ g.symbols)

theorem covers_seenBy (c : Checker) (g : Form) (shift : Nat) : (c.seenBy g shift).Covers g :=
  fun _ hx ↦ decide_eq_true hx

/-- A later table holds all that a form sees if the open placeholders that the form touches are
still open. -/
theorem Reached.mirrors_later (h : c.Reached) {T : TypeTable} {shift : Nat}
    (hT : c.types.Later T) (hsize : T.size = c.types.size + shift)
    (hname : ∀ v, v < c.types.size → T.name v = c.types.name v)
    (hopen : ∀ v, c.Touches g v → c.Open v → T.resolved? v = none ∧ T.isNarrowable v = true) :
    (c.seenBy g shift).Mirrors c.types T := by
  have hold {v : Nat} (hv : v < c.types.size) : (c.seenBy g shift).index v = v := if_pos hv
  have hnew {v : Nat} (hv : c.types.size ≤ v) : T.size ≤ (c.seenBy g shift).index v := by
    rw [View.index_of_le hv, hsize]
    exact Nat.add_le_add_right hv shift
  -- an old slot that is seen is touched
  have htouch {v : Nat} (hv : (c.seenBy g shift).Seen v) (hlt : v < c.types.size) :
      c.Touches g v := hv.resolve_left (Nat.not_le_of_lt hlt)
  refine ⟨⟨fun v hv ↦ ?_, fun v u hv hu ↦ ?_⟩, h.chainsEnd, Nat.le_refl _, hsize,
    fun v hv hnone ↦ ?_, fun v hv ↦ ?_, fun v _ ↦ ⟨rfl, rfl⟩⟩
  · rcases Nat.lt_or_ge v c.types.size with hlt | hge
    · rw [hold hlt]
      cases hu : c.types.resolved? v with
      | some u => rw [hT.writes hu, Option.map_some, View.ty_eq_self (h.over_written hu)]
      | none => exact unresolved_of_later hT hlt hu fun ho ↦ (hopen v (htouch hv hlt) ho).1
    · rw [TypeTable.resolved?_of_le hge, TypeTable.resolved?_of_le (hnew hge), Option.map_none]
  · rcases Nat.lt_or_ge v c.types.size with hlt | hge
    · obtain ⟨x, hx, t, ht, hreach⟩ := htouch hv hlt
      exact fun w hw ↦ ⟨.inr ⟨x, hx, t, ht, hreach.trans hu (.here hw)⟩, h.over_written hu w hw⟩
    · rw [TypeTable.resolved?_of_le hge] at hu
      cases hu
  · rcases Nat.lt_or_ge v c.types.size with hlt | hge
    · rw [hold hlt]
      by_cases hnarrowable : c.types.isNarrowable v = true
      · rw [hnarrowable, (hopen v (htouch hv hlt) ⟨hnone, hnarrowable⟩).2]
      · rw [Bool.not_eq_true] at hnarrowable
        rw [hnarrowable, (hT.closed v hlt hnarrowable).1]
    · rw [TypeTable.isNarrowable_of_le hge, TypeTable.isNarrowable_of_le (hnew hge)]
  · rcases Nat.lt_or_ge v c.types.size with hlt | hge
    · rw [hold hlt, hname v hlt]
    · rw [TypeTable.name_of_le hge, TypeTable.name_of_le (hnew hge)]

/-- Two checkers in which the names of a form stand for the same types show it the same scopes. -/
theorem Reached.sameScopes (h : c.Reached) (h' : c'.Reached) {shift : Nat}
    (hlookup : ∀ x ∈ g.symbols, c'.scopes.lookup x = c.scopes.lookup x) :
    (c.seenBy g shift).SameScopes c.types.size c.scopes c'.scopes := by
  have hknows : ∀ x ∈ g.symbols, ∀ t, c.scopes.lookup x = some t →
      (c.seenBy g shift).Knows c.types.size t := fun x hx t ht v hv ↦
    ⟨.inr ⟨x, hx, t, ht, .here hv⟩, h.over_lookup ht v hv⟩
  obtain ⟨bs, hbs⟩ := h.scopes_eq
  obtain ⟨bs', hbs'⟩ := h'.scopes_eq
  rw [hbs] at hlookup hknows ⊢
  rw [hbs'] at hlookup ⊢
  simp only [lookup_global] at hlookup hknows
  refine ⟨rfl, rfl, fun i f f' hf hf' ↦ ?_⟩
  obtain ⟨-, rfl⟩ := by simpa [List.getElem?_singleton] using hf
  obtain ⟨-, rfl⟩ := by simpa [List.getElem?_singleton] using hf'
  refine ⟨rfl, fun x hx ↦ ?_⟩
  have hx : x ∈ g.symbols := of_decide_eq_true hx
  rw [Frame.lookup, Frame.lookup, hlookup x hx]
  cases ht : bs.lookup x with
  | none => exact .none
  | some t =>
    have hknown := hknows x hx t ht
    exact .some ⟨(View.ty_eq_self hknown.over).symm, hknown⟩

/-- Forms in between that leave the names of a form alone, and the open placeholders that it
touches, leave alone all that it sees. -/
theorem Reached.mirrored_after (h : c.Reached) (hnames : ∀ x ∈ g.symbols, ¬ c.Rebinds fs x)
    (hopen : ∀ v, c.Touches g v → c.Open v → (c.after fs).Open v) :
    (c.seenBy g ((c.after fs).types.size - c.types.size)).Mirrored c (c.after fs) := by
  have hlater := h.later_after fs
  obtain ⟨as, has⟩ := c.exists_run_after fs
  constructor
  · refine h.mirrors_later hlater (Nat.add_sub_of_le hlater.size_le).symm (fun v hv ↦ ?_) hopen
    rw [has, h.chainsEnd.name_run hv]
  · exact h.sameScopes (h.after fs) fun x hx ↦ h.lookup_after (hnames x hx)

/-- A form leaves the open placeholders alone that it does not touch. -/
theorem Reached.open_check (h : c.Reached) (hopen : c.Open v) (hv : ¬ c.Touches g v) :
    Open (g.check.outcome c).2 v := by
  have hmirrored : (c.seenBy g 0).Mirrored c c :=
    ⟨h.mirrors_later (.refl _) rfl (fun _ _ ↦ rfl) fun _ _ ho ↦ ho, h.sameScopes h fun _ _ ↦ rfl⟩
  have hafter := (g.check_agrees (c.covers_seenBy g _) hmirrored (Nat.zero_le _)).mirrored
  obtain ⟨hnone, hnarrowable⟩ := hopen
  have hlt := TypeTable.lt_size_of_isNarrowable hnarrowable
  obtain ⟨hresolved, hflag⟩ := hafter.types.unseen v fun hseen ↦
    hseen.elim (Nat.not_le_of_lt hlt) hv
  exact ⟨hresolved.trans hnone, hflag.trans hnarrowable⟩

/-- So do several forms if none of them touches it when its turn comes. -/
theorem Reached.open_after (h : c.Reached) (hopen : c.Open v) (hv : ¬ c.TouchesAny fs v) :
    (c.after fs).Open v := by
  induction fs generalizing c with
  | nil => exact hopen
  | cons f fs ih =>
    refine ih (.check f h) (h.open_check hopen fun hf ↦ hv ⟨[], f, fs, rfl, hf⟩) ?_
    rintro ⟨before, g, later, rfl, hg⟩
    exact hv ⟨f :: before, g, later, rfl, hg⟩

/-! ## Definitions -/

/-- What is defined while several forms are checked is defined in one of them. -/
theorem Rebinds.mem_definitions (h : c.Rebinds fs x) : x ∈ definitionsAll fs := by
  obtain ⟨before, g, later, rfl, hg⟩ := h
  exact mem_definitionsAll.mpr ⟨g, by simp, hg.mem_definitions⟩

/-- What is defined globally is seen there at once. -/
theorem lookup_defineGlobal {s : Scopes Ty} {bs : List (String × Ty)}
    (h : s.defineGlobal x t = ⟨[⟨none, bs⟩], ScopeId.global⟩) :
    (s.defineGlobal x t).lookup x = some t := by
  have hcurrent : s.current = ScopeId.global := congrArg Scopes.current h
  have hlength : s.frames.length = 1 := by
    rw [← s.length_frames_defineIn ScopeId.global x t]
    exact congrArg (fun s : Scopes Ty ↦ s.frames.length) h
  -- the only frame is also the current one
  have hlt : s.current < s.frames.length := by
    rw [hcurrent, hlength]
    exact Nat.one_pos
  have hlookup := Scopes.lookup_define_self hlt x t
  rwa [Scopes.define, hcurrent] at hlookup

/-- A definition that is completed binds its name to the type of the function. -/
theorem Reached.lookup_defined (h : c.Reached) {d : Form} {e : Expr} (hd : d.defines = some x)
    (hdef : d.check.outcome c = (.ok e, c')) : c'.scopes.lookup x = some e.ty := by
  have hreached : c'.Reached := by
    have hreached := Reached.check d h
    rwa [hdef] at hreached
  obtain ⟨bs, hbs⟩ := hreached.scopes_eq
  unfold Form.defines at hd
  split at hd
  · next op y nameToken params body t =>
    obtain rfl := Option.some.inj hd
    change (checkFn op true [_, params, body]).outcome c = _ at hdef
    rw [checkFn] at hdef
    obtain ⟨head, c₁, hhead, hfn⟩ := Pass.outcome_bind_ok.mp hdef
    have hglobal := (Check.fnHead_ok hhead).2.1
    have hname := Check.fnHead_name hhead
    obtain ⟨⟨body', params'⟩, c₂, -, hfn⟩ := Pass.outcome_bind_ok.mp hfn
    obtain ⟨name, names, rest, isGlobal⟩ := head
    obtain rfl : isGlobal = true := hglobal
    obtain rfl : name = some y := hname
    cases hfn
    exact lookup_defineGlobal hbs
  · cases hd

/-! ## What stays the same -/

/-- A type expands as before if and only if nothing was written into the open placeholders that it
depends on. -/
theorem Reached.expand_after_iff (h : c.Reached) (ht : t.Over c.types.size) :
    (c.after fs).types.expand t = c.types.expand t ↔
      ∀ v, c.types.Reaches t v → c.Open v → (c.after fs).types.resolved? v = none := by
  have hlater := h.later_after fs
  rw [TypeTable.expand_eq_iff (h.after fs).chainsEnd hlater.writes hlater.size_le]
  constructor
  · exact fun hnone v hv hopen ↦ hnone v hv hopen.1
  · exact fun hopen v hv hnone ↦
      unresolved_of_later hlater (h.lt_size_of_reaches ht hv) hnone (hopen v hv)

/-- A form comes to the same twice: it is accepted with types that are displayed alike, or it is
refused with the same fault. -/
inductive SameOutcome : (r r' : Except Fault Expr × Checker) → Prop where
  | ok {e e' d d'} (h : d'.types.display e'.ty = d.types.display e.ty) :
      SameOutcome (.ok e, d) (.ok e', d')
  | error {fault d d'} : SameOutcome (.error fault, d) (.error fault, d')

theorem sameOutcome_of_matches {V : View} {n : Nat} {r r' : Except Fault Expr × Checker}
    (h : V.Matches n V.SameExpr r r') : SameOutcome r r' := by
  cases h with
  | error => exact .error
  | ok hd _ he => exact .ok (he.eq ▸ hd.types.display he.knows)

theorem Reached.sameOutcome_after (h : c.Reached) (hnames : ∀ x ∈ g.symbols, ¬ c.Rebinds fs x)
    (hopen : ∀ v, c.Touches g v → c.Open v → (c.after fs).Open v) :
    SameOutcome (g.check.outcome c) (g.check.outcome (c.after fs)) :=
  sameOutcome_of_matches
    (g.check_agrees (c.covers_seenBy g _) (h.mirrored_after hnames hopen) (Nat.zero_le _))

/-- A global function keeps its type until its name is defined again, and the type expands as it did
unless one of the open placeholders that it depends on is narrowed. That takes a form that mentions
a name whose type depends on that placeholder. A form comes to the same as right after the
definition if none of its names was defined again and the open placeholders that they depend on are
still open. -/
theorem signature_stable (h : c.Reached) {d : Form} {f : String} {e : Expr}
    (hd : d.defines = some f) (hdef : d.check.outcome c = (.ok e, c')) (fs : List Form)
    (hfs : ¬ c'.Rebinds fs f) :
    (c'.scopes.lookup f = some e.ty ∧ (c'.after fs).scopes.lookup f = some e.ty) ∧
      ((c'.after fs).types.expand e.ty = c'.types.expand e.ty ↔
        ∀ v, c'.types.Reaches e.ty v → c'.Open v → (c'.after fs).types.resolved? v = none) ∧
      (∀ v, c'.Open v → ¬ c'.TouchesAny fs v → (c'.after fs).Open v) ∧
      ∀ g : Form, (∀ x ∈ g.symbols, ¬ c'.Rebinds fs x) →
        (∀ v, c'.Touches g v → c'.Open v → (c'.after fs).Open v) →
        SameOutcome (g.check.outcome c') (g.check.outcome (c'.after fs)) := by
  have hreached : c'.Reached := by
    have hreached := Reached.check d h
    rwa [hdef] at hreached
  have hlookup := h.lookup_defined hd hdef
  refine ⟨⟨hlookup, (hreached.lookup_after hfs).trans hlookup⟩, ?_, fun v ↦ hreached.open_after,
    fun g ↦ hreached.sameOutcome_after⟩
  exact hreached.expand_after_iff (hreached.over_lookup hlookup)

/-! ## A parameter that is shared -/

namespace SharedParameter

/-- A symbol on the first line. -/
def word (name : String) : Form := .atom (.symbol name) ⟨.symbol, name, 1⟩

/-- The number one. -/
def one : Form := .atom (.number 1) ⟨.number, "1", 1⟩

/-- A list on the first line. -/
def list (fs : List Form) : Form := .group .list fs ⟨.opening .list, "(", 1⟩

/-- A vector on the first line. -/
def vector (fs : List Form) : Form := .group .vector fs ⟨.opening .vector, "[", 1⟩

/-- The form `(+ y 1)`. -/
def sum : Form := list [word "+", word "y", one]

/-- The form `(defn f [x] 1)`, which leaves `x` open. -/
def definition : Form := list [word "defn", word "f", vector [word "x"], one]

/-- The form `(defn h [y] (+ y 1))`, which has nothing to do with `f`. -/
def increment : Form := list [word "defn", word "h", vector [word "y"], sum]

/-- The form `(fn [y] (do (f y) (+ y 1)))`, which makes `y` stand for `x` and narrows it. -/
def handingOn : Form :=
  list [word "fn", vector [word "y"], list [word "do", list [word "f", word "y"], sum]]

/-- The form `(f "a")`. -/
def call : Form := list [word "f", .atom (.string "a") ⟨.string, "a", 1⟩]

/-- The checker after `f` was defined. -/
def defined : Checker := (definition.check.outcome .start).2

end SharedParameter

open SharedParameter

/-- A function that has nothing to do with `f` leaves it alone. -/
theorem increment_keeps_signature : ∃ e : Expr,
    definition.check.outcome .start = (.ok e, defined) ∧
      ¬ defined.Rebinds [increment] "f" ∧
      (defined.after [increment]).types.expand e.ty = defined.types.expand e.ty ∧
      SameOutcome (call.check.outcome defined) (call.check.outcome (defined.after [increment])) := by
  obtain ⟨e, hdef, hty⟩ : ∃ e : Expr, definition.check.outcome .start = (.ok e, defined) ∧
      e.ty = .fn [.var 0] none .number := ⟨.fn _ _ _, rfl, rfl⟩
  have hfs : ¬ defined.Rebinds [increment] "f" := fun h ↦ by
    have hmem := h.mem_definitions
    revert hmem
    decide
  obtain ⟨⟨hlookup, -⟩, hexpand, -, hsame⟩ := signature_stable .start rfl hdef [increment] hfs
  -- the placeholder of `x` is the only one that the type depends on
  have hreaches {v : Nat} (hv : defined.types.Reaches e.ty v) : v = 0 := by
    rw [hty] at hv
    cases hv with
    | here hv => exact List.mem_singleton.mp hv
    | through hw hu _ =>
      obtain rfl := List.mem_singleton.mp hw
      cases hu
  have hopen : (defined.after [increment]).Open 0 := ⟨rfl, rfl⟩
  refine ⟨e, hdef, hfs, hexpand.mpr fun v hv _ ↦ hreaches hv ▸ hopen.1, hsame call ?_ ?_⟩
  · intro x hx
    obtain rfl : x = "f" := List.mem_singleton.mp hx
    exact hfs
  · rintro v ⟨x, hx, t, ht, hv⟩ -
    obtain rfl : x = "f" := List.mem_singleton.mp hx
    obtain rfl := Option.some.inj (hlookup.symm.trans ht)
    exact hreaches hv ▸ hopen

/-- A function that hands its parameter on to `f` makes `f` ask for a number. -/
theorem handingOn_changes_signature : definition.defines = some "f" ∧ ∃ e : Expr,
    definition.check.outcome .start = (.ok e, defined) ∧
      ¬ defined.Rebinds [handingOn] "f" ∧
      (defined.after [handingOn]).types.expand e.ty ≠ defined.types.expand e.ty ∧
      (call.check.outcome defined).1.toBool = true ∧
      (call.check.outcome (defined.after [handingOn])).1.toBool = false := by
  refine ⟨rfl, .fn _ _ _, rfl, fun h ↦ ?_, fun h ↦ ?_, rfl, rfl⟩
  · have hmem := h.mem_definitions
    revert hmem
    decide
  · exact nomatch (h : Ty.fn [.number] none .number = .fn [.var 0] none .number)

end Checker

end TaggedLisp
