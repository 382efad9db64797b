import TaggedLisp.Proofs.Ir.Lowering
import TaggedLisp.Proofs.Restoring

/-!
# What lowering leaves in the scopes

Whatever comes of lowering an expression, the frames that it opened are left again, and nothing is
left in them but the names of global functions that were completed, which stand for closures. So a
lowerer that goes on after a fault sees what it saw before. What is visible on the way are
temporaries and closures besides what was visible at first.
-/

namespace TaggedLisp

open Ir

/-- Draws a temporary for the variable `name` and makes it visible. -/
def Ir.Lower.bindTemp (name : String) (_ : Tree) : Lower Unit := do
  let t ← named name
  define name (.temp t)

/-- The values of a `let` in order, each followed by binding its name. -/
def bindingsInTurn (bs : List (String × Expr)) : List (Expr × (Tree → Lower Unit)) :=
  bs.map fun b ↦ (b.2, Lower.bindTemp b.1)

/-- In which state the parts of an expression are lowered, and in which order. Those of a `let` or a
function are lowered in a frame of their own. -/
inductive Expr.LowerOpens :
    Lowerer → Expr → Lowerer → List (Expr × (Tree → Lower Unit)) → Prop where
  | group {l : Lowerer} {shape : Shape} {elems : List Expr} {n : Note} :
      LowerOpens l (.group shape elems n) l (inTurn elems)
  | cond {l l' : Lowerer} {test yes no : Expr} {n : Note} {j : Lower.Join}
      (hj : Lower.join.outcome l = (.ok j, l')) :
      LowerOpens l (.cond test yes no n) l' (inTurn [test, yes, no])
  | values {l : Lowerer} {bs : List (String × Expr)} {body : Expr} {n : Note} :
      LowerOpens l (.letIn bs body n) { l with scopes := l.scopes.enter } (bindingsInTurn bs)
  | letBody {l l' : Lowerer} {bs : List (String × Expr)} {body : Expr} {n : Note}
      {ms : List Effect}
      (h : (lowerBindings bs).outcome { l with scopes := l.scopes.enter } = (.ok ms, l')) :
      LowerOpens l (.letIn bs body n) l' (inTurn [body])
  | fnBody {l l₁ l₂ : Lowerer} {head : FnHead} {body : Expr} {n : Note}
      {captured : List (Ir.Cell × Tree)} {temps : List Temp}
      (hcaptured : (Lower.captures n.token.line n.captures).outcome { l with next := l.next + 1 } =
        (.ok captured, l₁))
      (hparams : (Lower.params head.allParams).outcome { l₁ with
        scopes := (captured.map Prod.fst).foldl (fun s c ↦ s.define c.name (.temp c.slot))
          (l₁.scopes.enterFrom ScopeId.global) } = (.ok temps, l₂)) :
      LowerOpens l (.fn head body n) { l₂ with
        scopes := head.name.elim l₂.scopes
          (l₂.scopes.define · (.closure (.closure head.name l.next))) } (inTurn [body])
  | seq {l : Lowerer} {steps : List Expr} {n : Note} :
      LowerOpens l (.seq steps n) l (inTurn steps)
  | call {l : Lowerer} {callee : Expr} {args : List Expr} {spread : Option Nat} {n : Note} :
      LowerOpens l (.call callee args spread n) l (inTurn (callee :: args))

/-- While the expression is lowered from `l`, the global function `x` is completed. -/
abbrev Expr.LowerCompletes (l : Lowerer) (e : Expr) : String → Prop :=
  Completes Expr.lower Expr.defines Expr.LowerOpens l e

namespace Ir.Lower

variable {α β : Type} {names : String → Prop} {l : Lowerer}

/-- From `l`, nothing is left of the pass in the scopes but some global names, which stand for
closures. -/
abbrev Gains (names : String → Prop) (l : Lowerer) (p : Lower α) : Prop :=
  Pass.LeadsFrom (fun l l' ↦ Scopes.Gains Tree.closure names l.scopes l'.scopes) l p

/-- From `l`, nothing is left of the pass but some global names when the current frame is left. -/
abbrev GainsOutside (saved : ScopeId) (names : String → Prop) (l : Lowerer) (p : Lower α) : Prop :=
  Pass.LeadsFrom
    (fun l l' ↦ Scopes.Gains Tree.closure names (l.scopes.exit saved) (l'.scopes.exit saved)) l p

theorem gains_bind {p : Lower α} {f : α → Lower β} (hp : Gains names l p)
    (hf : ∀ a l', p.outcome l = (.ok a, l') → Gains names l' (f a)) : Gains names l (p >>= f) :=
  .bind (fun _ _ _ ↦ Scopes.Gains.trans) hp hf

theorem gainsOutside_bind {saved : ScopeId} {p : Lower α} {f : α → Lower β}
    (hp : GainsOutside saved names l p)
    (hf : ∀ a l', p.outcome l = (.ok a, l') → GainsOutside saved names l' (f a)) :
    GainsOutside saved names l (p >>= f) :=
  .bind (fun _ _ _ ↦ Scopes.Gains.trans) hp hf

theorem Gains.outside {p : Lower α} (h : Gains names l p) (saved : ScopeId) :
    GainsOutside saved names l p := Scopes.Gains.exit h saved

/-- What is bound in a frame is gone when it is left. -/
theorem gains_within {parent : Scopes Tree → ScopeId} {body : Lower α}
    (h : GainsOutside l.scopes.current names ⟨l.next, l.scopes.enterFrom (parent l.scopes)⟩ body) :
    Gains names l (within parent body) := by
  change Scopes.Gains _ names ((l.scopes.enterFrom _).exit l.scopes.current) _ at h
  rw [Scopes.exit_enterFrom] at h
  exact h

theorem gainsOutside_define (saved : ScopeId) (x : String) (t : Tree) :
    GainsOutside saved names l (define x t) := .of_eq (Scopes.exit_define ..)

theorem gains_resolve (x : String) (line : Nat) : Gains names l (resolve x line) := by
  refine gains_bind (.of_eq rfl) fun _ _ _ ↦ ?_
  split <;> exact .of_eq rfl

theorem gains_captures (line : Nat) (xs : List String) : Gains names l (captures line xs) := by
  induction xs generalizing l with
  | nil => exact .of_eq rfl
  | cons x xs ih =>
    exact gains_bind (gains_resolve x line) fun _ _ _ ↦ gains_bind (.of_eq rfl) fun _ _ _ ↦
      gains_bind ih fun _ _ _ ↦ .of_eq rfl

theorem gainsOutside_params (saved : ScopeId) (xs : List String) :
    GainsOutside saved names l (params xs) := by
  induction xs generalizing l with
  | nil => exact .of_eq rfl
  | cons x xs ih =>
    exact gainsOutside_bind (.of_eq rfl) fun _ _ _ ↦
      gainsOutside_bind (gainsOutside_define saved x _) fun _ _ _ ↦
      gainsOutside_bind ih fun _ _ _ ↦ .of_eq rfl

theorem gainsOutside_defineCells (saved : ScopeId) (cells : List Ir.Cell) :
    GainsOutside saved names l (defineCells cells) := by
  have hcells := Scopes.exit_defineAll (cells.map fun c ↦ (c.name, Tree.temp c.slot)) l.scopes saved
  rw [Scopes.defineAll, List.foldl_map] at hcells
  exact .of_eq hcells

/-- A function gets its name in the global frame once it is completed, if it is a definition. -/
theorem gains_fn {h : FnHead} {n : Note} {body : Lower Tree}
    (hbody : ∀ captured l₁ temps l₂,
      (captures n.token.line n.captures).outcome { l with next := l.next + 1 } =
        (.ok captured, l₁) →
      (params h.allParams).outcome { l₁ with
        scopes := (captured.map Prod.fst).foldl (fun s c ↦ s.define c.name (.temp c.slot))
          (l₁.scopes.enterFrom ScopeId.global) } = (.ok temps, l₂) →
      Gains names { l₂ with
        scopes := h.name.elim l₂.scopes
          (l₂.scopes.define · (.closure (.closure h.name l.next))) } body)
    (hname : h.isGlobal = true → (∃ t l', (fn h n body).outcome l = (.ok t, l')) →
      names (h.name.getD "defn")) : Gains names l (fn h n body) := by
  obtain ⟨name, names', rest, isGlobal⟩ := h
  refine gains_bind (.of_eq rfl) ?_
  rintro id _ ⟨⟩
  refine gains_bind (gains_captures _ _) fun captured l₁ hcaptured ↦ ?_
  refine gains_bind (gains_within ?_) ?_
  · refine gainsOutside_bind (gainsOutside_defineCells _ _) ?_
    rintro ⟨⟩ _ ⟨⟩
    refine gainsOutside_bind (gainsOutside_params _ _) fun temps l₂ hparams ↦ ?_
    have hbody := (hbody captured l₁ temps l₂ hcaptured hparams).outside l₁.scopes.current
    have hresult : GainsOutside l₁.scopes.current names _ (body >>= fun b ↦ pure (temps, b)) :=
      gainsOutside_bind hbody fun _ _ _ ↦ .of_eq rfl
    cases name with
    | none => exact hresult
    | some x => exact gainsOutside_bind (gainsOutside_define _ _ _) fun | _, _, rfl => hresult
  · rintro ⟨temps, tree⟩ l₃ hinner
    cases isGlobal with
    | false => exact .of_eq rfl
    | true =>
      exact .define _ (hname rfl ⟨_, _, Pass.outcome_bind_ok.mpr ⟨_, _, rfl,
        Pass.outcome_bind_ok.mpr ⟨_, _, hcaptured,
          Pass.outcome_bind_ok.mpr ⟨_, _, hinner, rfl⟩⟩⟩⟩) _

end Ir.Lower

/-! ## Expressions -/

open Ir.Lower

/-- Whatever comes of lowering the expression, nothing is left of it in the scopes but the names of
global functions that were completed. -/
def Expr.LowersGaining (e : Expr) : Prop := ∀ l, Gains (e.LowerCompletes l) l e.lower

theorem lowerAll_gains {names : String → Prop} {es : List Expr} (hes : ∀ e ∈ es, e.LowersGaining)
    {l : Lowerer}
    (h : ∀ {l' e}, Turn Expr.lower l (inTurn es) l' e → ∀ x, e.LowerCompletes l' x → names x) :
    Gains names l (lowerAll es) := by
  induction es generalizing l with
  | nil => exact .of_eq rfl
  | cons e es ih =>
    obtain ⟨he, hes⟩ := List.forall_mem_cons.mp hes
    refine gains_bind ((he l).mono (h .here)) fun t l₁ ht ↦ ?_
    exact gains_bind (ih hes fun hturn ↦ h (.later ht rfl hturn)) fun _ _ _ ↦ .of_eq rfl

theorem lowerBindings_gains {names : String → Prop} {bs : List (String × Expr)}
    (hbs : ∀ b ∈ bs, b.2.LowersGaining) {l : Lowerer} (saved : ScopeId)
    (h : ∀ {l' e}, Turn Expr.lower l (bindingsInTurn bs) l' e →
      ∀ x, e.LowerCompletes l' x → names x) :
    GainsOutside saved names l (lowerBindings bs) := by
  induction bs generalizing l with
  | nil => exact .of_eq rfl
  | cons b bs ih =>
    obtain ⟨name, value⟩ := b
    obtain ⟨hvalue, hbs⟩ := List.forall_mem_cons.mp hbs
    refine gainsOutside_bind (Gains.outside ((hvalue l).mono (h .here)) saved) fun t l₁ ht ↦ ?_
    refine gainsOutside_bind (.of_eq rfl) ?_
    rintro slot l₂ hslot
    refine gainsOutside_bind (gainsOutside_define saved name _) ?_
    rintro ⟨⟩ l₃ hdefine
    -- to draw the temporary and to bind it is one step of the row
    have hbound : (bindTemp name t).outcome l₁ = (.ok (), l₃) :=
      Pass.outcome_bind_ok.mpr ⟨slot, l₂, hslot, hdefine⟩
    exact gainsOutside_bind (ih hbs fun hturn ↦ h (.later ht hbound hturn)) fun _ _ _ ↦ .of_eq rfl

theorem Expr.lower_gains (e : Expr) : e.LowersGaining := by
  induction e using Expr.memberInduction with
  | literal v n => exact fun l ↦ .of_eq rfl
  | symbol name n => exact fun l ↦ gains_resolve _ _
  | group shape elems n helems =>
    intro l
    refine gains_bind (lowerAll_gains helems fun hturn x hx ↦ .inside .group hturn hx) ?_
    exact fun _ _ _ ↦ .of_eq rfl
  | cond test yes no n htest hyes hno =>
    intro l
    refine gains_bind (.of_eq rfl) fun j l₁ hj ↦ ?_
    have hpart {l' e} (hturn : Turn Expr.lower l₁ (inTurn [test, yes, no]) l' e) :
        ∀ x, e.LowerCompletes l' x → (Expr.cond test yes no n).LowerCompletes l x :=
      fun x hx ↦ .inside (.cond hj) hturn hx
    refine gains_bind ((htest l₁).mono (hpart .here)) fun _ l₂ h₁ ↦ ?_
    refine gains_bind ((hyes l₂).mono (hpart (.later h₁ rfl .here))) fun _ l₃ h₂ ↦ ?_
    refine gains_bind ((hno l₃).mono (hpart (.later h₁ rfl (.later h₂ rfl .here)))) ?_
    exact fun _ _ _ ↦ .of_eq rfl
  | letIn bindings body n hbindings hbody =>
    intro l
    refine gains_within (gainsOutside_bind (lowerBindings_gains hbindings _ fun hturn x hx ↦
      .inside .values hturn hx) fun ms l₁ hms ↦ ?_)
    refine gainsOutside_bind (Gains.outside ((hbody l₁).mono fun x hx ↦
      .inside (.letBody hms) .here hx) _) fun _ _ _ ↦ .of_eq rfl
  | fn head body n hbody =>
    intro l
    refine gains_fn (fun captured l₁ temps l₂ hcaptured hparams ↦ (hbody _).mono fun x hx ↦
      .inside (.fnBody hcaptured hparams) .here hx) ?_
    rintro hglobal ⟨t, l', hfn⟩
    exact .here (if_pos hglobal) hfn
  | seq steps n hsteps =>
    intro l
    refine gains_bind (lowerAll_gains hsteps fun hturn x hx ↦ .inside .seq hturn hx) ?_
    exact fun _ _ _ ↦ .of_eq rfl
  | call callee args spread n hcallee hargs =>
    intro l
    have hpart {l' e} (hturn : Turn Expr.lower l (inTurn (callee :: args)) l' e) :
        ∀ x, e.LowerCompletes l' x → (Expr.call callee args spread n).LowerCompletes l x :=
      fun x hx ↦ .inside .call hturn hx
    refine gains_bind ((hcallee l).mono (hpart .here)) fun _ l₁ h₁ ↦ ?_
    refine gains_bind (lowerAll_gains hargs fun hturn ↦ hpart (.later h₁ rfl hturn)) ?_
    exact fun _ _ _ ↦ .of_eq rfl

/-! ## What is visible -/

section

variable {P : Tree → Prop} {l l' : Lowerer}

/-- Lowering an expression makes nothing else visible than closures. -/
theorem Scopes.All.lowered (hclosure : ∀ label, P (.closure label)) {e : Expr} {t : Tree}
    (hall : l.scopes.All P) (h : e.lower.outcome l = (.ok t, l')) : l'.scopes.All P := by
  obtain ⟨ds, hds, -⟩ := e.lower_gains l
  rw [h] at hds
  exact hds ▸ hall.defineGlobals fun d _ ↦ hclosure d.2

/-- What is captured was visible. -/
theorem Scopes.All.captured {line : Nat} {xs : List String} {cs : List (Ir.Cell × Tree)}
    (hall : l.scopes.All P) (h : (Lower.captures line xs).outcome l = (.ok cs, l')) :
    (∀ c ∈ cs, P c.2) ∧ l' = { l with next := l.next + xs.length } := by
  induction xs generalizing l cs with
  | nil =>
    cases h
    exact ⟨List.forall_mem_nil _, rfl⟩
  | cons x xs ih =>
    obtain ⟨source, l₁, hsource, h⟩ := Pass.outcome_bind_ok.mp h
    obtain ⟨hlookup, rfl⟩ := (Lower.outcome_resolve l).mp hsource
    obtain ⟨slot, l₂, hslot, h⟩ := Pass.outcome_bind_ok.mp h
    cases hslot
    obtain ⟨cs, l₃, hcs, h⟩ := Pass.outcome_bind_ok.mp h
    cases h
    obtain ⟨hrest, rfl⟩ := ih (l := { l with next := l.next + 1 }) hall hcs
    refine ⟨List.forall_mem_cons.mpr ⟨hall.of_lookup hlookup, hrest⟩, ?_⟩
    simp only [List.length_cons, Nat.add_assoc, Nat.add_comm 1]

theorem Scopes.All.params (htemp : ∀ temp, P (.temp temp)) {xs : List String} {ts : List Temp}
    (hall : l.scopes.All P) (h : (Lower.params xs).outcome l = (.ok ts, l')) :
    l'.scopes.All P ∧ l'.next = l.next + xs.length := by
  induction xs generalizing l ts with
  | nil =>
    cases h
    exact ⟨hall, rfl⟩
  | cons x xs ih =>
    simp only [Lower.params, Pass.outcome_bind, Lower.outcome_named, Lower.outcome_define] at h
    rw [← Pass.outcome_bind] at h
    obtain ⟨ts, l₁, hts, h⟩ := Pass.outcome_bind_ok.mp h
    cases h
    obtain ⟨hall', hnext⟩ := ih (hall.defineIn _ _ (htemp _)) hts
    refine ⟨hall', ?_⟩
    simp only [hnext, List.length_cons, Nat.add_assoc, Nat.add_comm 1]

/-- In the frame in which the body of a function is lowered, the captured variables and the
parameters are visible as temporaries and the function as a closure. -/
theorem Scopes.All.inside (htemp : ∀ temp, P (.temp temp)) (hclosure : ∀ label, P (.closure label))
    {head : FnHead} {cs : List (Ir.Cell × Tree)} {l₁ : Lowerer} {ts : List Temp}
    (hall : l.scopes.All P) (own : Label)
    (h : (Lower.params head.allParams).outcome { l with
      scopes := (cs.map Prod.fst).foldl (fun s c ↦ s.define c.name (.temp c.slot))
        (l.scopes.enterFrom ScopeId.global) } = (.ok ts, l₁)) :
    (head.name.elim l₁.scopes (l₁.scopes.define · (.closure own))).All P ∧ l.next ≤ l₁.next := by
  have hcells : ((cs.map Prod.fst).foldl (fun s c ↦ s.define c.name (.temp c.slot))
      (l.scopes.enterFrom ScopeId.global)).All P := by
    have hslots : ∀ b ∈ (cs.map Prod.fst).map fun c ↦ (c.name, Tree.temp c.slot), P b.2 :=
      List.forall_mem_map.mpr fun c _ ↦ htemp c.slot
    have hdefine := (hall.enterFrom ScopeId.global).defineAll hslots
    rwa [Scopes.defineAll, List.foldl_map] at hdefine
  obtain ⟨hparams, hnext⟩ := Scopes.All.params (l := ⟨_, _⟩) htemp hcells h
  refine ⟨?_, hnext ▸ Nat.le_add_right _ _⟩
  cases head.name with
  | none => exact hparams
  | some x => exact hparams.defineIn _ x (hclosure _)

end

/-! ## Lowerers in use -/

namespace Ir.Lowerer

/-- The lowerers that are come to from the start by lowering expressions, with success or without.
Others may draw numbers in between. -/
inductive Reached : Lowerer → Prop where
  | start (next : Nat) : Reached (.start next)
  | lower {l : Lowerer} (h : Reached l) (e : Expr) : Reached (e.lower.outcome l).2
  | draw {l : Lowerer} (h : Reached l) (next : Nat) : Reached { l with next := next }

/-- Only closures are visible to them. -/
theorem Reached.scopes_eq {l : Lowerer} (h : l.Reached) :
    ∃ ds : List (String × Label), l.scopes = Scopes.empty.defineGlobals Tree.closure ds := by
  induction h with
  | start next => exact ⟨builtinClosures, scopes_start next⟩
  | @lower l _ e ih =>
    obtain ⟨ds, hds⟩ := ih
    obtain ⟨ds', hds', -⟩ := e.lower_gains l
    exact ⟨ds ++ ds', by rw [hds', hds, Scopes.defineGlobals_append]⟩
  | draw _ next ih => exact ih

end Ir.Lowerer

end TaggedLisp
