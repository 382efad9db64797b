import TaggedLisp.Proofs.Expr.Outline
import TaggedLisp.Proofs.Ir.Numbering
import TaggedLisp.Proofs.Ir.Restoring

/-!
# The branches and calls of a block

Flattening puts the arguments of a call before its callee, although the callee is lowered first, and
drops what the steps of a sequence compute in the end. The branches and calls of the block of an
expression are those of the expression all the same. For that is true of the tree in between:
whatever is dropped, no branch and no call is.
-/

namespace TaggedLisp

namespace Ir

/-! ## Blocks -/

/-- A call with some words. A routine of the runtime is called by its label. -/
def Operand.point (callee : Operand) (words : Nat) : Point :=
  match callee with
  | .const (.label l) => .routine l words
  | _ => .apply words

mutual

/-- The branches and calls of a block in the order of the text. The body of a function stands where
the function does. -/
def Block.outline : Block → List Point
  | .mk stmts value => outlineOfStmts stmts ++ value.outline

def Rhs.outline : Rhs → List Point
  | .call callee args => [callee.point args.length]
  | .func _ _ body => body.outline
  | .value _ | .tag _ _ | .untag _ => []

def outlineOfStmts : List Stmt → List Point
  | [] => []
  | s :: ss => s.outline ++ outlineOfStmts ss

def Stmt.outline : Stmt → List Point
  | .move _ source => source.outline
  | .branch _ _ => [.branch]
  | .jump _ | .phi _ _ | .label _ => []

end

@[simp] theorem outlineOfStmts_append (c c' : List Stmt) :
    outlineOfStmts (c ++ c') = outlineOfStmts c ++ outlineOfStmts c' := by
  induction c with
  | nil => rfl
  | cons s c ih => rw [List.cons_append, outlineOfStmts, outlineOfStmts, ih, List.append_assoc]

@[simp] theorem outlineOfStmts_move (t : Temp) (source : Rhs) :
    outlineOfStmts [.move t source] = source.outline := List.append_nil _

/-! ## Trees -/

/-- The call of what a tree computes with some words. -/
def Tree.point (callee : Tree) (words : Nat) : Point :=
  match callee with
  | .const (.label l) => .routine l words
  | _ => .apply words

mutual

/-- The branches and calls of a tree. What it computes in the end is a part of the code only if it
is `kept`. -/
def Tree.outline (kept : Bool) : Tree → List Point
  | .const _ | .temp _ => []
  | .tag _ e | .untag e => e.outline true
  | .call callee args => outlineOfTrees args ++ callee.outline true ++ [callee.point args.length]
  | .func _ captures body => outlineOfSources captures ++ if kept then body.outline true else []
  | .after effect e => effect.outline ++ e.outline kept

def outlineOfTrees : List Tree → List Point
  | [] => []
  | e :: es => e.outline true ++ outlineOfTrees es

def outlineOfSources : List (Cell × Tree) → List Point
  | [] => []
  | (_, e) :: cs => e.outline true ++ outlineOfSources cs

def Effect.outline : Effect → List Point
  | .move _ source => source.outline true
  | .seq effects => outlineOfEffects effects
  | .branch cond _ => cond.outline true ++ [.branch]
  | .eval e => e.outline false
  | .jump _ | .phi _ _ | .label _ => []

def outlineOfEffects : List Effect → List Point
  | [] => []
  | s :: ss => s.outline ++ outlineOfEffects ss

end

/-! ## Flattening -/

section

variable {n n' : Nat} {e : Tree} {stmts stmts' : List Stmt} {value : Rhs} {v : Operand}

theorem outline_operand (h : outlineOfStmts stmts ++ value.outline = e.outline true)
    (ho : (Flatten.operand e stmts value).run n = ((stmts', v), n')) :
    outlineOfStmts stmts' = e.outline true ∧ ∀ k, v.point k = e.point k := by
  cases e with
  | const c =>
    cases ho
    exact ⟨(List.append_eq_nil_iff.mp h).1, fun _ ↦ by cases c <;> rfl⟩
  | temp t =>
    cases ho
    exact ⟨(List.append_eq_nil_iff.mp h).1, fun _ ↦ rfl⟩
  | _ =>
    cases ho
    exact ⟨by rw [outlineOfStmts_append, outlineOfStmts_move, h], fun _ ↦ rfl⟩

end

mutual

/-- A tree is flattened to statements and a computation that have its branches and calls. -/
theorem Tree.outline_flatten (e : Tree) {n n' : Nat} {stmts : List Stmt} {value : Rhs}
    (h : e.flatten.run n = ((stmts, value), n')) :
    outlineOfStmts stmts = e.outline false ∧
      outlineOfStmts stmts ++ value.outline = e.outline true :=
  match e with
  | .const c | .temp t => by
    cases h
    exact ⟨rfl, rfl⟩
  | .tag _ e | .untag e => by
    rw [Tree.flatten] at h
    obtain ⟨⟨stmts, value⟩, n₁, he, h⟩ := Flatten.run_bind_eq.mp h
    obtain ⟨⟨stmts', v⟩, n₂, ho, h⟩ := Flatten.run_bind_eq.mp h
    cases h
    obtain ⟨hstmts, -⟩ := outline_operand (e.outline_flatten he).2 ho
    exact ⟨hstmts, (List.append_nil _).trans hstmts⟩
  | .call callee args => by
    rw [Tree.flatten] at h
    obtain ⟨⟨argStmts, vs⟩, n₁, hargs, h⟩ := Flatten.run_bind_eq.mp h
    obtain ⟨⟨stmts, value⟩, n₂, he, h⟩ := Flatten.run_bind_eq.mp h
    obtain ⟨⟨stmts', v⟩, n₃, ho, h⟩ := Flatten.run_bind_eq.mp h
    cases h
    obtain ⟨hargs, hlength⟩ := outline_flattenOperands args hargs
    obtain ⟨hstmts, hpoint⟩ := outline_operand (callee.outline_flatten he).2 ho
    have hcall : outlineOfStmts (argStmts ++ stmts' ++ [Stmt.move ⟨n₃, none⟩ (.call v vs)])
        = outlineOfTrees args ++ callee.outline true ++ [callee.point args.length] := by
      rw [outlineOfStmts_append, outlineOfStmts_append, outlineOfStmts_move, hargs, hstmts,
        Rhs.outline, hpoint, hlength]
    exact ⟨hcall, (List.append_nil _).trans hcall⟩
  | .func head captures body => by
    rw [Tree.flatten] at h
    obtain ⟨⟨stmts, vs⟩, n₁, hcaptures, h⟩ := Flatten.run_bind_eq.mp h
    obtain ⟨⟨inner, value⟩, n₂, hbody, h⟩ := Flatten.run_bind_eq.mp h
    cases h
    -- the body belongs to the value, the captures are computed in any case
    have hstmts := outline_flattenCaptures captures hcaptures
    refine ⟨hstmts.trans (List.append_nil _).symm, ?_⟩
    rw [hstmts, Rhs.outline, Block.outline, (body.outline_flatten hbody).2]
    rfl
  | .after effect e => by
    rw [Tree.flatten] at h
    obtain ⟨first, n₁, heffect, h⟩ := Flatten.run_bind_eq.mp h
    obtain ⟨⟨stmts, value⟩, n₂, he, h⟩ := Flatten.run_bind_eq.mp h
    cases h
    obtain ⟨hstmts, hvalue⟩ := e.outline_flatten he
    rw [outlineOfStmts_append, effect.outline_flatten heffect, List.append_assoc, hvalue, hstmts]
    exact ⟨rfl, rfl⟩

theorem outline_flattenOperands (es : List Tree) {n n' : Nat} {stmts : List Stmt}
    {vs : List Operand} (h : (flattenOperands es).run n = ((stmts, vs), n')) :
    outlineOfStmts stmts = outlineOfTrees es ∧ vs.length = es.length :=
  match es with
  | [] => by
    cases h
    exact ⟨rfl, rfl⟩
  | e :: es => by
    rw [flattenOperands] at h
    obtain ⟨⟨first, value⟩, n₁, he, h⟩ := Flatten.run_bind_eq.mp h
    obtain ⟨⟨first', v⟩, n₂, ho, h⟩ := Flatten.run_bind_eq.mp h
    obtain ⟨⟨rest, vs'⟩, n₃, hes, h⟩ := Flatten.run_bind_eq.mp h
    cases h
    obtain ⟨hfirst, -⟩ := outline_operand (e.outline_flatten he).2 ho
    obtain ⟨hrest, hlength⟩ := outline_flattenOperands es hes
    rw [outlineOfStmts_append, hfirst, hrest, List.length_cons, hlength]
    exact ⟨rfl, rfl⟩

theorem outline_flattenCaptures (cs : List (Cell × Tree)) {n n' : Nat} {stmts : List Stmt}
    {vs : List (Cell × Operand)} (h : (flattenCaptures cs).run n = ((stmts, vs), n')) :
    outlineOfStmts stmts = outlineOfSources cs :=
  match cs with
  | [] => by
    cases h
    rfl
  | (cell, e) :: cs => by
    rw [flattenCaptures] at h
    obtain ⟨⟨first, value⟩, n₁, he, h⟩ := Flatten.run_bind_eq.mp h
    obtain ⟨⟨first', v⟩, n₂, ho, h⟩ := Flatten.run_bind_eq.mp h
    obtain ⟨⟨rest, vs'⟩, n₃, hcs, h⟩ := Flatten.run_bind_eq.mp h
    cases h
    obtain ⟨hfirst, -⟩ := outline_operand (e.outline_flatten he).2 ho
    rw [outlineOfStmts_append, hfirst, outline_flattenCaptures cs hcs]
    rfl

theorem Effect.outline_flatten (s : Effect) {n n' : Nat} {stmts : List Stmt}
    (h : s.flatten.run n = (stmts, n')) : outlineOfStmts stmts = s.outline :=
  match s with
  | .move t e => by
    rw [Effect.flatten] at h
    obtain ⟨⟨stmts, value⟩, n₁, he, h⟩ := Flatten.run_bind_eq.mp h
    cases h
    rw [outlineOfStmts_append, outlineOfStmts_move]
    exact (e.outline_flatten he).2
  | .seq effects => outline_flattenEffects effects h
  | .branch e l => by
    rw [Effect.flatten] at h
    obtain ⟨⟨stmts, value⟩, n₁, he, h⟩ := Flatten.run_bind_eq.mp h
    obtain ⟨⟨stmts', v⟩, n₂, ho, h⟩ := Flatten.run_bind_eq.mp h
    cases h
    obtain ⟨hstmts, -⟩ := outline_operand (e.outline_flatten he).2 ho
    rw [outlineOfStmts_append, hstmts]
    rfl
  | .eval e => by
    rw [Effect.flatten] at h
    obtain ⟨⟨stmts, value⟩, n₁, he, h⟩ := Flatten.run_bind_eq.mp h
    cases h
    exact (e.outline_flatten he).1
  | .jump _ | .phi _ _ | .label _ => by
    cases h
    rfl

theorem outline_flattenEffects (ss : List Effect) {n n' : Nat} {stmts : List Stmt}
    (h : (flattenEffects ss).run n = (stmts, n')) : outlineOfStmts stmts = outlineOfEffects ss :=
  match ss with
  | [] => by
    cases h
    rfl
  | s :: ss => by
    rw [flattenEffects] at h
    obtain ⟨first, n₁, hs, h⟩ := Flatten.run_bind_eq.mp h
    obtain ⟨rest, n₂, hss, h⟩ := Flatten.run_bind_eq.mp h
    cases h
    rw [outlineOfStmts_append, s.outline_flatten hs, outline_flattenEffects ss hss]
    rfl

end

/-! ## Parts of constructs -/

@[simp] theorem outlineOfTrees_append (ts ts' : List Tree) :
    outlineOfTrees (ts ++ ts') = outlineOfTrees ts ++ outlineOfTrees ts' := by
  induction ts with
  | nil => rfl
  | cons t ts ih => rw [List.cons_append, outlineOfTrees, outlineOfTrees, ih, List.append_assoc]

/-- What stands for a variable has no branches and no calls. -/
def Tree.Silent (e : Tree) : Prop := ∀ kept, e.outline kept = []

theorem silent_temp (t : Temp) : (Tree.temp t).Silent := fun _ ↦ rfl

theorem silent_closure (l : Label) : (Tree.closure l).Silent := fun _ ↦ rfl

/-- Whether it is kept or dropped, what was made from the expression has its branches and calls. -/
def Outlines (t : Tree) (e : Expr) : Prop := ∀ kept, t.outline kept = e.outline

theorem outlineOfTrees_eq {ts : List Tree} {es : List Expr} (h : List.Forall₂ Outlines ts es) :
    outlineOfTrees ts = outlineAll es := by
  induction h with
  | nil => rfl
  | cons ht _ ih => rw [outlineOfTrees, outlineAll, ht, ih]

theorem outline_literal (v : Literal) (kept : Bool) : (Lower.literal v).outline kept = [] := by
  cases v <;> rfl

theorem outline_sequence (shape : Shape) (ts : List Tree) (kept : Bool) :
    (Lower.sequence shape ts).outline kept
      = outlineOfTrees ts ++ shape.gathering ts.length := by
  cases ts with
  | nil => rfl
  | cons t ts =>
    simp [Lower.sequence, Tree.outline, Tree.label, Const.ofLabel, Tree.point, Label.render,
      Shape.gathering]

theorem outline_cond (j : Lower.Join) (test yes no : Tree) (kept : Bool) :
    (Lower.cond j test yes no).outline kept
      = test.outline true ++ .branch :: (no.outline true ++ yes.outline true) := by
  simp [Lower.cond, Tree.outline, Effect.outline, outlineOfEffects]

/-- Steps are dropped but the last one, and nothing is lost. -/
theorem outline_steps {ts : List Tree} {es : List Expr} (h : List.Forall₂ Outlines ts es)
    (kept : Bool) : (Lower.steps ts).outline kept = outlineAll es := by
  cases h with
  | nil => exact outline_literal .nil kept
  | @cons t e ts es ht hts =>
    rw [Lower.steps, Tree.outline, Effect.outline]
    induction hts generalizing t e with
    | nil => exact (ht kept).trans (List.append_nil _).symm
    | @cons t' e' ts es ht' hts ih =>
      rw [List.dropLast_cons_cons, List.getLast_cons_cons, List.map_cons, outlineOfEffects,
        Effect.outline, ht false, List.append_assoc, ih ht']
      rfl

theorem outline_call {es : List Expr} {args : List Tree} (hlength : args.length = es.length)
    (spread : Option Nat) (callee : Tree) (kept : Bool) :
    (Lower.call spread callee args).outline kept
      = outlineOfTrees args ++ gatheringSurplus spread es.length ++ callee.outline true ++
        [Point.apply (passedExprs spread es).length] := by
  cases spread with
  | none => simp [Lower.call, Tree.outline, Tree.point, gatheringSurplus, passedExprs, hlength]
  | some n =>
    have hargs : outlineOfTrees (args.take n ++ [Lower.sequence .list (args.drop n)])
        = outlineOfTrees args ++ Shape.list.gathering (es.length - n) := by
      conv => rhs; rw [← List.take_append_drop n args, outlineOfTrees_append]
      rw [outlineOfTrees_append, List.append_assoc, outlineOfTrees, outline_sequence,
        List.length_drop, hlength]
      exact congrArg _ (List.append_nil _)
    simp [Lower.call, Tree.outline, Tree.point, gatheringSurplus, passedExprs, hlength, hargs]

end Ir

/-! ## Lowering -/

open Ir

/-- Wherever the variables stand for what has no branches and no calls, the expression is lowered to
a tree that has its branches and calls. -/
def Expr.LowersOutlined (e : Expr) : Prop :=
  ∀ {l l' : Lowerer} {t : Tree}, l.scopes.All Tree.Silent → e.lower.outcome l = (.ok t, l') →
    Outlines t e

section

variable {l l' : Lowerer}

theorem lowerAll_outlined {es : List Expr} {ts : List Tree} (hes : ∀ e ∈ es, e.LowersOutlined)
    (hall : l.scopes.All Tree.Silent) (h : (lowerAll es).outcome l = (.ok ts, l')) :
    List.Forall₂ Outlines ts es := by
  induction es generalizing l ts with
  | nil =>
    cases h
    exact .nil
  | cons e es ih =>
    obtain ⟨he, hes⟩ := List.forall_mem_cons.mp hes
    obtain ⟨t, l₁, ht, h⟩ := Pass.outcome_bind_ok.mp h
    obtain ⟨ts, l₂, hts, h⟩ := Pass.outcome_bind_ok.mp h
    cases h
    exact .cons (he hall ht) (ih hes (hall.lowered silent_closure ht) hts)

theorem lowerBindings_outlined {bs : List (String × Expr)} {ms : List Effect}
    (hbs : ∀ b ∈ bs, b.2.LowersOutlined) (hall : l.scopes.All Tree.Silent)
    (h : (lowerBindings bs).outcome l = (.ok ms, l')) :
    outlineOfEffects ms = outlineBindings bs ∧ l'.scopes.All Tree.Silent := by
  induction bs generalizing l ms with
  | nil =>
    cases h
    exact ⟨rfl, hall⟩
  | cons b bs ih =>
    obtain ⟨name, value⟩ := b
    obtain ⟨hvalue, hbs⟩ := List.forall_mem_cons.mp hbs
    obtain ⟨v, l₁, hv, h⟩ := Pass.outcome_bind_ok.mp h
    simp only [Pass.outcome_bind, Lower.outcome_named, Lower.outcome_define] at h
    rw [← Pass.outcome_bind] at h
    obtain ⟨ms, l₂, hms, h⟩ := Pass.outcome_bind_ok.mp h
    cases h
    have hall₁ := (hall.lowered silent_closure hv).defineIn l₁.scopes.current name
      (silent_temp ⟨l₁.next, some name⟩)
    obtain ⟨hrest, hall'⟩ := ih (l := ⟨l₁.next + 1, _⟩) hbs hall₁ hms
    rw [outlineOfEffects, Effect.outline, hvalue hall hv, hrest]
    exact ⟨rfl, hall'⟩

theorem outlineOfSources_eq_nil {cs : List (Ir.Cell × Tree)} (h : ∀ c ∈ cs, c.2.Silent) :
    outlineOfSources cs = [] := by
  induction cs with
  | nil => rfl
  | cons c cs ih =>
    obtain ⟨hc, hcs⟩ := List.forall_mem_cons.mp h
    rw [outlineOfSources, hc, ih hcs]
    rfl

theorem fn_outlined {head : FnHead} {n : Note} {body : Expr} (hbody : body.LowersOutlined) :
    (Expr.fn head body n).LowersOutlined := by
  intro l l' t hall h kept
  obtain ⟨captured, l₁, temps, l₂, tree, l₃, hcaptured, htemps, htree, hend⟩ :=
    Lower.outcome_fn.mp h
  obtain ⟨hsources, rfl⟩ :=
    Scopes.All.captured (l := { l with next := l.next + 1 }) hall hcaptured
  obtain ⟨hinside, -⟩ := Scopes.All.inside (l := ⟨l.next + 1 + n.captures.length, l.scopes⟩)
    silent_temp silent_closure hall (.closure head.name l.next) htemps
  have htree := hbody (l := ⟨_, _⟩) hinside htree
  have hfunction : (Tree.tag .closure (.func ⟨(Label.code head.name l.next).render, temps,
      head.rest.isSome⟩ captured tree)).outline true = body.outline := by
    rw [Tree.outline, Tree.outline, outlineOfSources_eq_nil hsources, htree]
    rfl
  cases hglobal : head.isGlobal with
  | false =>
    rw [hglobal] at hend
    cases hend
    exact hfunction
  | true =>
    rw [hglobal] at hend
    cases hend
    exact (List.append_nil _).trans hfunction

end

/-- Lowering keeps the branches and calls. -/
theorem Expr.lowersOutlined (e : Expr) : e.LowersOutlined := by
  induction e using Expr.memberInduction with
  | literal v n =>
    intro l l' t hall h
    cases h
    exact outline_literal v
  | symbol name n =>
    intro l l' t hall h
    obtain ⟨hlookup, rfl⟩ := (Lower.outcome_resolve l).mp h
    exact hall.of_lookup hlookup
  | group shape elems n helems =>
    intro l l' t hall h kept
    obtain ⟨ts, l₁, hts, h⟩ := Pass.outcome_bind_ok.mp h
    cases h
    have hts := lowerAll_outlined helems hall hts
    rw [outline_sequence, outlineOfTrees_eq hts, hts.length_eq]
    rfl
  | cond test yes no n htest hyes hno =>
    intro l l' t hall h kept
    obtain ⟨j, l₁, hj, h⟩ := Pass.outcome_bind_ok.mp h
    obtain ⟨-, rfl⟩ := Lower.outcome_join hj
    obtain ⟨test, l₂, htest', h⟩ := Pass.outcome_bind_ok.mp h
    obtain ⟨yes, l₃, hyes', h⟩ := Pass.outcome_bind_ok.mp h
    obtain ⟨no, l₄, hno', h⟩ := Pass.outcome_bind_ok.mp h
    cases h
    have hall₂ := Scopes.All.lowered (l := { l with next := l.next + 4 }) silent_closure hall htest'
    have hall₃ := hall₂.lowered silent_closure hyes'
    rw [outline_cond, htest (l := { l with next := l.next + 4 }) hall htest', hyes hall₂ hyes',
      hno hall₃ hno']
    rfl
  | letIn bindings body n hbindings hbody =>
    intro l l' t hall h kept
    rw [Expr.lower, Lower.nested] at h
    obtain ⟨l₁, hframe, rfl⟩ := Lower.outcome_within.mp h
    obtain ⟨ms, l₂, hms, hframe⟩ := Pass.outcome_bind_ok.mp hframe
    obtain ⟨body, l₃, hbody', hframe⟩ := Pass.outcome_bind_ok.mp hframe
    cases hframe
    obtain ⟨hvalues, hall₂⟩ :=
      lowerBindings_outlined (l := ⟨l.next, l.scopes.enter⟩) hbindings hall.enter hms
    rw [Tree.outline, Effect.outline, hvalues, hbody hall₂ hbody']
    rfl
  | fn head body n hbody => exact fn_outlined hbody
  | seq steps n hsteps =>
    intro l l' t hall h kept
    obtain ⟨ts, l₁, hts, h⟩ := Pass.outcome_bind_ok.mp h
    cases h
    exact outline_steps (lowerAll_outlined hsteps hall hts) kept
  | call callee args spread n hcallee hargs =>
    intro l l' t hall h kept
    obtain ⟨callee, l₁, hcallee', h⟩ := Pass.outcome_bind_ok.mp h
    obtain ⟨ts, l₂, hts, h⟩ := Pass.outcome_bind_ok.mp h
    cases h
    have hts := lowerAll_outlined hargs (hall.lowered silent_closure hcallee') hts
    rw [outline_call hts.length_eq, outlineOfTrees_eq hts, hcallee hall hcallee']
    rfl

/-- The block of an expression has its branches and calls. -/
theorem block_outline {l l' : Lowerer} {e : Expr} {t : Tree} (hl : l.Reached)
    (h : e.lower.outcome l = (.ok t, l')) (n : Nat) : (t.block.run n).1.outline = e.outline := by
  obtain ⟨ds, hds⟩ := hl.scopes_eq
  have hall : l.scopes.All Tree.Silent :=
    hds ▸ Scopes.All.empty.defineGlobals fun d _ ↦ silent_closure d.2
  have hkept := e.lowersOutlined hall h true
  obtain ⟨-, hvalue⟩ := t.outline_flatten (n := n) rfl
  exact hvalue.trans hkept

end TaggedLisp
