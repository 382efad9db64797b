import TaggedLisp.Proofs.Expr.Induction
import TaggedLisp.Proofs.Ir.Restoring
import TaggedLisp.Proofs.Spelling

/-!
# The parts of lowered trees

`Tree.parts` lists a tree and all trees inside it, the sources of captured variables and the bodies
of functions among them. What lowering puts around the parts of a construct is neither a function
nor a call of what another tree computes, so these can be looked for part by part.

A function draws a number before anything inside it is lowered, and its label is made of the number.
So functions with one label are one function (`lowerAll_labelled`).
-/

namespace TaggedLisp.Ir

mutual

/-- A tree and all trees inside it. -/
def Tree.parts : Tree → List Tree
  | .const c => [.const c]
  | .temp t => [.temp t]
  | .tag g e => .tag g e :: e.parts
  | .untag e => .untag e :: e.parts
  | .call callee args => .call callee args :: (callee.parts ++ partsOfTrees args)
  | .func head captures body =>
    .func head captures body :: (partsOfSources captures ++ body.parts)
  | .after effect e => .after effect e :: (effect.parts ++ e.parts)

def partsOfTrees : List Tree → List Tree
  | [] => []
  | e :: es => e.parts ++ partsOfTrees es

def partsOfSources : List (Cell × Tree) → List Tree
  | [] => []
  | (_, e) :: cs => e.parts ++ partsOfSources cs

def Effect.parts : Effect → List Tree
  | .move _ e | .branch e _ | .eval e => e.parts
  | .seq effects => partsOfEffects effects
  | .jump _ | .phi _ _ | .label _ => []

def partsOfEffects : List Effect → List Tree
  | [] => []
  | s :: ss => s.parts ++ partsOfEffects ss

end

/-- A function, or a call of what another tree computes. -/
inductive Tree.IsCallOrFunc : Tree → Prop where
  | call {callee args} : IsCallOrFunc (.call (.untag callee) args)
  | func {head captures body} : IsCallOrFunc (.func head captures body)

/-! ## Parts of constructs -/

section

variable {p e : Tree} {ts : List Tree}

@[simp] theorem mem_partsOfTrees : p ∈ partsOfTrees ts ↔ ∃ t ∈ ts, p ∈ t.parts := by
  induction ts with
  | nil => simp [partsOfTrees]
  | cons t ts ih => simp [partsOfTrees, ih]

@[simp] theorem mem_partsOfSources {cs : List (Cell × Tree)} :
    p ∈ partsOfSources cs ↔ ∃ c ∈ cs, p ∈ c.2.parts := by
  induction cs with
  | nil => simp [partsOfSources]
  | cons c cs ih => simp [partsOfSources, ih]

@[simp] theorem mem_partsOfEffects {ss : List Effect} :
    p ∈ partsOfEffects ss ↔ ∃ s ∈ ss, p ∈ s.parts := by
  induction ss with
  | nil => simp [partsOfEffects]
  | cons s ss ih => simp [partsOfEffects, ih]

namespace Tree.IsCallOrFunc

theorem notMem_temp (hp : p.IsCallOrFunc) (t : Temp) : p ∉ (Tree.temp t).parts := by
  cases hp <;> simp [Tree.parts]

theorem notMem_closure (hp : p.IsCallOrFunc) (l : Label) : p ∉ (Tree.closure l).parts := by
  cases hp <;> simp [Tree.parts, Tree.closure, Tree.label]

theorem notMem_literal (hp : p.IsCallOrFunc) (v : Literal) : p ∉ (Lower.literal v).parts := by
  cases hp <;> cases v <;> simp [Tree.parts, Lower.literal]

theorem mem_sequence (hp : p.IsCallOrFunc) (shape : Shape) :
    p ∈ (Lower.sequence shape ts).parts ↔ p ∈ partsOfTrees ts := by
  cases ts with
  | nil => cases hp <;> simp [Lower.sequence, Tree.parts]
  | cons t ts => cases hp <;> simp [Lower.sequence, Tree.parts, Tree.label, partsOfTrees]

theorem mem_after (hp : p.IsCallOrFunc) {effect : Effect} :
    p ∈ (Tree.after effect e).parts ↔ p ∈ effect.parts ∨ p ∈ e.parts := by
  cases hp <;> simp [Tree.parts]

theorem mem_move (hp : p.IsCallOrFunc) {t t' : Temp} :
    p ∈ (Tree.after (.move t e) (.temp t')).parts ↔ p ∈ e.parts := by
  rw [hp.mem_after]
  simp [Effect.parts, hp.notMem_temp]

theorem mem_cond (hp : p.IsCallOrFunc) {j : Lower.Join} {test yes no : Tree} :
    p ∈ (Lower.cond j test yes no).parts ↔ p ∈ test.parts ∨ p ∈ yes.parts ∨ p ∈ no.parts := by
  have htest : p ∈ (Tree.untag test).parts ↔ p ∈ test.parts := by cases hp <;> simp [Tree.parts]
  rw [Lower.cond, hp.mem_after]
  simp only [Effect.parts, partsOfEffects, List.mem_append, htest, hp.notMem_temp]
  tauto

theorem mem_steps (hp : p.IsCallOrFunc) : p ∈ (Lower.steps ts).parts ↔ p ∈ partsOfTrees ts := by
  cases ts with
  | nil => exact iff_of_false (hp.notMem_literal .nil) List.not_mem_nil
  | cons t ts =>
    rw [Lower.steps, hp.mem_after, Effect.parts]
    induction ts generalizing t with
    | nil => simp [partsOfEffects, partsOfTrees]
    | cons t' ts ih =>
      rw [List.dropLast_cons_cons, List.getLast_cons_cons, List.map_cons, partsOfEffects,
        Effect.parts, List.mem_append, or_assoc, ih]
      simp [partsOfTrees]

end Tree.IsCallOrFunc

/-- What a call passes. From the position `spread` on, the arguments go into one list. -/
def Lower.passed (spread : Option Nat) (args : List Tree) : List Tree :=
  match spread with
  | none => args
  | some n => args.take n ++ [sequence .list (args.drop n)]

theorem Lower.call_eq (spread : Option Nat) (callee : Tree) (args : List Tree) :
    call spread callee args = .call (.untag callee) (passed spread args) := by
  cases spread <;> rfl

theorem Tree.IsCallOrFunc.mem_passed (hp : p.IsCallOrFunc) (spread : Option Nat) :
    p ∈ partsOfTrees (Lower.passed spread ts) ↔ p ∈ partsOfTrees ts := by
  cases spread with
  | none => rfl
  | some n =>
    have hsplit : p ∈ partsOfTrees ts ↔
        p ∈ partsOfTrees (ts.take n) ∨ p ∈ partsOfTrees (ts.drop n) := by
      conv => lhs; rw [← List.take_append_drop n ts]
      simp only [mem_partsOfTrees, List.mem_append, or_and_right, exists_or]
    have hrest : p ∈ (Lower.sequence .list (ts.drop n)).parts ↔ p ∈ partsOfTrees (ts.drop n) :=
      hp.mem_sequence .list
    rw [hsplit, ← hrest]
    simp only [Lower.passed, mem_partsOfTrees, List.mem_append, or_and_right, exists_or,
      List.mem_singleton, exists_eq_left]

theorem Tree.IsCallOrFunc.mem_call (hp : p.IsCallOrFunc) (spread : Option Nat) (callee : Tree) :
    p ∈ (Lower.call spread callee ts).parts ↔
      p = .call (.untag callee) (Lower.passed spread ts) ∨ p ∈ callee.parts ∨
        p ∈ partsOfTrees ts := by
  have hcallee : p ∈ (Tree.untag callee).parts ↔ p ∈ callee.parts := by
    cases hp <;> simp [Tree.parts]
  rw [Lower.call_eq, Tree.parts, List.mem_cons, List.mem_append, hcallee, hp.mem_passed]

end

/-! ## Labels of functions -/

/-- The functions among some trees have labels of their own, made of numbers from `lo` on and below
`hi`. -/
structure Labelled (lo hi : Nat) (ps : List Tree) : Prop where
  le : lo ≤ hi
  number : ∀ {head captures body}, .func head captures body ∈ ps →
    ∃ name id, head.label = (Label.code name id).render ∧ lo ≤ id ∧ id < hi
  unique : ∀ {head captures body head' captures' body'}, .func head captures body ∈ ps →
    .func head' captures' body' ∈ ps → head.label = head'.label → head = head'

/-- No function is inside the tree. -/
def Tree.FuncFree (t : Tree) : Prop := ∀ head captures body, .func head captures body ∉ t.parts

theorem funcFree_temp (t : Temp) : (Tree.temp t).FuncFree :=
  fun _ _ _ ↦ Tree.IsCallOrFunc.func.notMem_temp t

theorem funcFree_closure (l : Label) : (Tree.closure l).FuncFree :=
  fun _ _ _ ↦ Tree.IsCallOrFunc.func.notMem_closure l

namespace Labelled

variable {lo mid hi : Nat} {ps ps' ps'' : List Tree}

theorem of_forall_notMem (h : lo ≤ hi) (hps : ∀ head captures body, .func head captures body ∉ ps) :
    Labelled lo hi ps where
  le := h
  number hf := absurd hf (hps _ _ _)
  unique hf := absurd hf (hps _ _ _)

/-- What else there is does not matter. -/
theorem congr (h : Labelled lo hi ps)
    (hps : ∀ {head captures body}, .func head captures body ∈ ps' → .func head captures body ∈ ps) :
    Labelled lo hi ps' where
  le := h.le
  number hf := h.number (hps hf)
  unique hf hf' := h.unique (hps hf) (hps hf')

theorem append (h : Labelled lo mid ps) (h' : Labelled mid hi ps') :
    Labelled lo hi (ps ++ ps') where
  le := Nat.le_trans h.le h'.le
  number := by
    intro head captures body hf
    rcases List.mem_append.mp hf with hf | hf
    · obtain ⟨name, id, hlabel, hle, hlt⟩ := h.number hf
      exact ⟨name, id, hlabel, hle, Nat.lt_of_lt_of_le hlt h'.le⟩
    · obtain ⟨name, id, hlabel, hle, hlt⟩ := h'.number hf
      exact ⟨name, id, hlabel, Nat.le_trans h.le hle, hlt⟩
  unique := by
    -- labels of different ranges are made of different numbers
    have hne : ∀ {head captures body head' captures' body'}, .func head captures body ∈ ps →
        .func head' captures' body' ∈ ps' → head.label ≠ head'.label := by
      intro head _ _ head' _ _ hf hf' heq
      obtain ⟨name, id, hlabel, -, hlt⟩ := h.number hf
      obtain ⟨name', id', hlabel', hle, -⟩ := h'.number hf'
      have hrender : (Label.code name id).render = (Label.code name' id').render :=
        hlabel.symm.trans (heq.trans hlabel')
      obtain ⟨rfl, -⟩ := Label.around_of_render rfl rfl hrender
      exact Nat.not_le.mpr hlt hle
    intro _ _ _ _ _ _ hf hf' heq
    rcases List.mem_append.mp hf with hf | hf <;> rcases List.mem_append.mp hf' with hf' | hf'
    · exact h.unique hf hf' heq
    · exact absurd heq (hne hf hf')
    · exact absurd heq.symm (hne hf' hf)
    · exact h'.unique hf hf' heq

/-- A function has the first number. -/
theorem func {name : Option String} {temps : List Temp} {variadic : Bool}
    {captures : List (Cell × Tree)} {body : Tree} (h : Labelled mid hi body.parts) (hlo : lo < mid)
    (hcaptures : ∀ c ∈ captures, c.2.FuncFree) :
    Labelled lo hi (Tree.tag .closure
      (.func ⟨(Label.code name lo).render, temps, variadic⟩ captures body)).parts := by
  have hown : Labelled lo mid
      [.func ⟨(Label.code name lo).render, temps, variadic⟩ captures body] := by
    refine ⟨Nat.le_of_lt hlo, fun hf ↦ ?_, fun hf hf' _ ↦ ?_⟩
    · cases List.mem_singleton.mp hf
      exact ⟨name, lo, rfl, Nat.le_refl lo, hlo⟩
    · cases List.mem_singleton.mp hf
      cases List.mem_singleton.mp hf'
      rfl
  refine (hown.append h).congr fun hf ↦ ?_
  simp only [Tree.parts, List.mem_cons, List.mem_append, mem_partsOfSources] at hf
  rcases hf with hf | hf | ⟨c, hc, hf⟩ | hf
  · cases hf
  · exact List.mem_cons.mpr (.inl hf)
  · exact absurd hf (hcaptures c hc _ _ _)
  · exact List.mem_cons_of_mem _ hf

end Labelled

end TaggedLisp.Ir

/-! ## Lowering -/

namespace TaggedLisp

open Ir

/-- Wherever no function is visible, the functions that the expression is lowered to have labels of
their own. -/
def Expr.LowersLabelled (e : Expr) : Prop :=
  ∀ {l l' : Lowerer} {t : Tree}, l.scopes.All Tree.FuncFree → e.lower.outcome l = (.ok t, l') →
    Labelled l.next l'.next t.parts

section

variable {l l' : Lowerer}

theorem labelled_of_members {es : List Expr} {ts : List Tree} (hes : ∀ e ∈ es, e.LowersLabelled)
    (hall : l.scopes.All Tree.FuncFree) (h : (lowerAll es).outcome l = (.ok ts, l')) :
    Labelled l.next l'.next (partsOfTrees ts) := by
  induction es generalizing l ts with
  | nil =>
    cases h
    exact .of_forall_notMem (Nat.le_refl _) fun _ _ _ ↦ List.not_mem_nil
  | cons e es ih =>
    obtain ⟨he, hes⟩ := List.forall_mem_cons.mp hes
    obtain ⟨t, l₁, ht, h⟩ := Pass.outcome_bind_ok.mp h
    obtain ⟨ts, l₂, hts, h⟩ := Pass.outcome_bind_ok.mp h
    cases h
    exact (he hall ht).append (ih hes (hall.lowered funcFree_closure ht) hts)

theorem labelled_of_values {bs : List (String × Expr)} {ms : List Effect}
    (hbs : ∀ b ∈ bs, b.2.LowersLabelled) (hall : l.scopes.All Tree.FuncFree)
    (h : (lowerBindings bs).outcome l = (.ok ms, l')) :
    Labelled l.next l'.next (partsOfEffects ms) ∧ l'.scopes.All Tree.FuncFree := by
  induction bs generalizing l ms with
  | nil =>
    cases h
    exact ⟨.of_forall_notMem (Nat.le_refl _) fun _ _ _ ↦ List.not_mem_nil, hall⟩
  | cons b bs ih =>
    obtain ⟨name, value⟩ := b
    obtain ⟨hvalue, hbs⟩ := List.forall_mem_cons.mp hbs
    obtain ⟨v, l₁, hv, h⟩ := Pass.outcome_bind_ok.mp h
    simp only [Pass.outcome_bind, Lower.outcome_named, Lower.outcome_define] at h
    rw [← Pass.outcome_bind] at h
    obtain ⟨ms, l₂, hms, h⟩ := Pass.outcome_bind_ok.mp h
    cases h
    have hall₁ := (hall.lowered funcFree_closure hv).defineIn l₁.scopes.current name
      (funcFree_temp ⟨l₁.next, some name⟩)
    obtain ⟨hrest, hall'⟩ := ih (l := ⟨l₁.next + 1, _⟩) hbs hall₁ hms
    -- between a value and the next one, the temporary of the name is drawn
    have hdrawn : Labelled l₁.next (l₁.next + 1) [] :=
      .of_forall_notMem (Nat.le_succ _) fun _ _ _ ↦ List.not_mem_nil
    exact ⟨(hvalue hall hv).append (hdrawn.append hrest), hall'⟩

theorem fn_labelled {head : FnHead} {body : Expr} {n : Note} (hbody : body.LowersLabelled) :
    (Expr.fn head body n).LowersLabelled := by
  intro l l' t hall h
  obtain ⟨captured, l₁, temps, l₂, tree, l₃, hcaptured, htemps, htree, hend⟩ :=
    Lower.outcome_fn.mp h
  obtain ⟨hsources, rfl⟩ :=
    Scopes.All.captured (l := { l with next := l.next + 1 }) hall hcaptured
  obtain ⟨hinside, hle⟩ := Scopes.All.inside (l := ⟨l.next + 1 + n.captures.length, l.scopes⟩)
    funcFree_temp funcFree_closure hall (.closure head.name l.next) htemps
  have hlt : l.next < l₂.next := by
    dsimp only at hle
    omega
  have hfunction : Labelled l.next l₃.next (Tree.tag .closure (.func
      ⟨(Label.code head.name l.next).render, temps, head.rest.isSome⟩ captured tree)).parts :=
    (hbody (l := ⟨_, _⟩) hinside htree).func hlt hsources
  cases hglobal : head.isGlobal with
  | false =>
    rw [hglobal] at hend
    cases hend
    exact hfunction
  | true =>
    rw [hglobal] at hend
    cases hend
    have hdrawn : Labelled l₃.next (l₃.next + 1) [] :=
      .of_forall_notMem (Nat.le_succ _) fun _ _ _ ↦ List.not_mem_nil
    exact (hfunction.append hdrawn).congr fun hf ↦
      List.mem_append_left _ (Tree.IsCallOrFunc.func.mem_move.mp hf)

end

/-- Lowering gives every function a label of its own. -/
theorem Expr.lowersLabelled (e : Expr) : e.LowersLabelled := by
  induction e using Expr.memberInduction with
  | literal v n =>
    intro l l' t hall h
    cases h
    exact .of_forall_notMem (Nat.le_refl _) fun _ _ _ ↦ Tree.IsCallOrFunc.func.notMem_literal v
  | symbol name n =>
    intro l l' t hall h
    obtain ⟨hlookup, rfl⟩ := (Lower.outcome_resolve l).mp h
    exact .of_forall_notMem (Nat.le_refl _) (hall.of_lookup hlookup)
  | group shape elems n helems =>
    intro l l' t hall h
    obtain ⟨ts, l₁, hts, h⟩ := Pass.outcome_bind_ok.mp h
    cases h
    exact (labelled_of_members helems hall hts).congr (Tree.IsCallOrFunc.func.mem_sequence _).mp
  | cond test yes no n htest hyes hno =>
    intro l l' t hall h
    obtain ⟨j, l₁, hj, h⟩ := Pass.outcome_bind_ok.mp h
    obtain ⟨-, rfl⟩ := Lower.outcome_join hj
    obtain ⟨test, l₂, htest', h⟩ := Pass.outcome_bind_ok.mp h
    obtain ⟨yes, l₃, hyes', h⟩ := Pass.outcome_bind_ok.mp h
    obtain ⟨no, l₄, hno', h⟩ := Pass.outcome_bind_ok.mp h
    cases h
    have hdrawn : Labelled l.next (l.next + 4) [] :=
      .of_forall_notMem (Nat.le_add_right _ _) fun _ _ _ ↦ List.not_mem_nil
    have htest := htest (l := ⟨l.next + 4, l.scopes⟩) hall htest'
    have hall₂ := Scopes.All.lowered (l := ⟨l.next + 4, l.scopes⟩) funcFree_closure hall htest'
    have hyes := hyes hall₂ hyes'
    have hno := hno (hall₂.lowered funcFree_closure hyes') hno'
    refine (hdrawn.append (htest.append (hyes.append hno))).congr fun hf ↦ ?_
    simpa using Tree.IsCallOrFunc.func.mem_cond.mp hf
  | letIn bindings body n hbindings hbody =>
    intro l l' t hall h
    rw [Expr.lower, Lower.nested] at h
    obtain ⟨l₁, hframe, rfl⟩ := Lower.outcome_within.mp h
    obtain ⟨ms, l₂, hms, hframe⟩ := Pass.outcome_bind_ok.mp hframe
    obtain ⟨body, l₃, hbody', hframe⟩ := Pass.outcome_bind_ok.mp hframe
    cases hframe
    obtain ⟨hvalues, hall₂⟩ :=
      labelled_of_values (l := ⟨l.next, l.scopes.enter⟩) hbindings hall.enter hms
    exact (hvalues.append (hbody hall₂ hbody')).congr fun hf ↦
      List.mem_append.mpr (Tree.IsCallOrFunc.func.mem_after.mp hf)
  | fn head body n hbody => exact fn_labelled hbody
  | seq steps n hsteps =>
    intro l l' t hall h
    obtain ⟨ts, l₁, hts, h⟩ := Pass.outcome_bind_ok.mp h
    cases h
    exact (labelled_of_members hsteps hall hts).congr Tree.IsCallOrFunc.func.mem_steps.mp
  | call callee args spread n hcallee hargs =>
    intro l l' t hall h
    obtain ⟨callee, l₁, hcallee', h⟩ := Pass.outcome_bind_ok.mp h
    obtain ⟨ts, l₂, hts, h⟩ := Pass.outcome_bind_ok.mp h
    cases h
    have hargs := labelled_of_members hargs (hall.lowered funcFree_closure hcallee') hts
    refine ((hcallee hall hcallee').append hargs).congr fun hf ↦ List.mem_append.mpr ?_
    exact ((Tree.IsCallOrFunc.func.mem_call _ _).mp hf).resolve_left (by simp)

/-- Functions of a program with one label are one function. -/
theorem lowerAll_labelled {es : List Expr} {n : Nat} {ts : List Tree} {l : Lowerer}
    (h : (lowerAll es).outcome (.start n) = (.ok ts, l)) : Labelled n l.next (partsOfTrees ts) := by
  refine labelled_of_members (l := .start n) (fun e _ ↦ e.lowersLabelled) ?_ h
  rw [Lowerer.scopes_start]
  exact Scopes.All.empty.defineGlobals fun d _ ↦ funcFree_closure d.2

end TaggedLisp
