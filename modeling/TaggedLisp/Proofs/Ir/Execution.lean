import Mathlib.Logic.Function.Basic
import TaggedLisp.Ir.Block
import TaggedLisp.Proofs.Dialogue

/-!
# Running intermediate code

What trees and blocks do. Both talk to the same surroundings, so that what they do can be compared:
they say which calls they make, which branches they take and which closures they make, and a word is
whatever an `Algebra` says it is.

A tree is evaluated where it stands. Its jumps go forward in the steps around them: `resumeEffects`
looks for the label in what is left of the steps. A block is run by a statement counter, and a jump
goes to the first place of its label, wherever that is. A choice takes the one of its temporaries
that was assigned, which is that of the branch that was taken; it stops if there are several.

`runStmts` runs statements as the steps of a tree are run. It is compositional, as the counter is
not, and does the same where no jump goes back (`Block.run_eq`).
-/

namespace TaggedLisp.Ir

/-! ## Words and what is asked -/

/-- What words are and what is computed with them. -/
structure Algebra (V : Type) where
  const : Const → V
  tag : Tag → V → V
  untag : V → V
  isTrue : V → Bool
  /-- The word of a function that was made with some captured words. -/
  closure : (label : String) → (captured : List V) → V

/-- What can be seen of intermediate code while it runs. -/
inductive Query (V : Type) where
  /-- A call, answered by a word. -/
  | call (callee : V) (args : List V)
  /-- A branch is taken, or it is passed. -/
  | branch (taken : Bool)
  /-- A function is made. -/
  | closure (label : String) (captured : List V)

/-- What is answered to a query. -/
@[reducible] def Query.Answer {V : Type} : Query V → Type
  | call _ _ => V
  | branch _ | closure _ _ => Unit

/-- A computation that talks to its surroundings. -/
abbrev Run (V : Type) := Dialogue (@Query.Answer V)

/-- The words of temporaries: those that were assigned, and what the others hold. -/
structure Store (V : Type) where
  initial : Nat → V
  assigned : Nat → Option V

namespace Store

variable {V : Type} (ρ : Store V) (t u : Temp) (v : V)

/-- A store in which nothing was assigned. -/
def start (initial : Nat → V) : Store V := ⟨initial, fun _ ↦ none⟩

/-- The word of a temporary. -/
def get : V := (ρ.assigned t.id).getD (ρ.initial t.id)

/-- Assigns a word to a temporary. -/
def set : Store V := { ρ with assigned := Function.update ρ.assigned t.id (some v) }

/-- The word of the temporary that was assigned, if it was only one of them. -/
def choose (sources : List (String × Temp)) : Option V :=
  match sources.filterMap fun (_, t) ↦ ρ.assigned t.id with
  | [v] => some v
  | _ => none

@[simp] theorem initial_set : (ρ.set t v).initial = ρ.initial := rfl

@[simp] theorem assigned_set_self : (ρ.set t v).assigned t.id = some v := Function.update_self ..

@[simp] theorem assigned_set_of_ne {id : Nat} (h : id ≠ t.id) :
    (ρ.set t v).assigned id = ρ.assigned id := Function.update_of_ne h ..

@[simp] theorem get_set_self : (ρ.set t v).get t = v := by
  rw [get, assigned_set_self, Option.getD_some]

end Store

section

variable {V : Type} (A : Algebra V)

/-! ## Trees -/

mutual

/-- The word of a tree. -/
def Tree.eval : Tree → Store V → Run V (V × Store V)
  | .const c, ρ => return (A.const c, ρ)
  | .temp t, ρ => return (ρ.get t, ρ)
  | .tag g e, ρ => do
    let (v, ρ) ← e.eval ρ
    return (A.tag g v, ρ)
  | .untag e, ρ => do
    let (v, ρ) ← e.eval ρ
    return (A.untag v, ρ)
  | .call callee args, ρ => do
    let (vs, ρ) ← evalTrees args ρ
    let (f, ρ) ← callee.eval ρ
    .ask (.call f vs) fun v ↦ return (v, ρ)
  | .func head captures _, ρ => do
    let (vs, ρ) ← evalSources captures ρ
    .ask (.closure head.label vs) fun _ ↦ return (A.closure head.label vs, ρ)
  | .after effect e, ρ => do
    match ← effect.exec ρ with
    | (none, ρ) => e.eval ρ
    | (some _, _) => .stop

/-- The words of trees, from left to right. -/
def evalTrees : List Tree → Store V → Run V (List V × Store V)
  | [], ρ => return ([], ρ)
  | e :: es, ρ => do
    let (v, ρ) ← e.eval ρ
    let (vs, ρ) ← evalTrees es ρ
    return (v :: vs, ρ)

/-- The words that a function captures, from left to right. -/
def evalSources : List (Cell × Tree) → Store V → Run V (List V × Store V)
  | [], ρ => return ([], ρ)
  | (_, e) :: cs, ρ => do
    let (v, ρ) ← e.eval ρ
    let (vs, ρ) ← evalSources cs ρ
    return (v :: vs, ρ)

/-- Takes a step, and says where it jumps to if it does. -/
def Effect.exec : Effect → Store V → Run V (Option String × Store V)
  | .move t e, ρ => do
    let (v, ρ) ← e.eval ρ
    return (none, ρ.set t v)
  | .seq effects, ρ => execEffects effects ρ
  | .jump l, ρ => return (some l, ρ)
  | .branch cond l, ρ => do
    let (v, ρ) ← cond.eval ρ
    .ask (.branch (A.isTrue v)) fun _ ↦ return (if A.isTrue v then some l else none, ρ)
  | .phi t sources, ρ =>
    match ρ.choose sources with
    | some v => return (none, ρ.set t v)
    | none => .stop
  | .label _, ρ => return (none, ρ)
  | .eval e, ρ => do
    let (_, ρ) ← e.eval ρ
    return (none, ρ)

/-- Takes steps in order. -/
def execEffects : List Effect → Store V → Run V (Option String × Store V)
  | [], ρ => return (none, ρ)
  | s :: ss, ρ => do
    match ← s.exec ρ with
    | (none, ρ) => execEffects ss ρ
    | (some l, ρ) => resumeEffects l ss ρ

/-- Goes on behind a label, or jumps further if it is not there. -/
def resumeEffects (l : String) : List Effect → Store V → Run V (Option String × Store V)
  | [], ρ => return (some l, ρ)
  | .label m :: ss, ρ => if m = l then execEffects ss ρ else resumeEffects l ss ρ
  | _ :: ss, ρ => resumeEffects l ss ρ

end

/-- The word of a tree that is evaluated on its own. -/
def Tree.run (e : Tree) (initial : Nat → V) : Run V V := do
  let (v, _) ← e.eval A (.start initial)
  return v

/-! ## Statements -/

/-- The word of an operand. -/
def Operand.eval (ρ : Store V) : Operand → V
  | const c => A.const c
  | temp t => ρ.get t

/-- The word of a computation. -/
def Rhs.eval (ρ : Store V) : Rhs → Run V V
  | value v => return v.eval A ρ
  | tag g v => return A.tag g (v.eval A ρ)
  | untag v => return A.untag (v.eval A ρ)
  | call callee args => .ask (.call (callee.eval A ρ) (args.map (·.eval A ρ))) .done
  | func head captures _ => do
    let vs := captures.map fun (_, v) ↦ v.eval A ρ
    .ask (.closure head.label vs) fun _ ↦ return A.closure head.label vs

/-- Takes a statement, and says where it jumps to if it does. -/
def Stmt.exec (ρ : Store V) : Stmt → Run V (Option String × Store V)
  | move t source => do return (none, ρ.set t (← source.eval A ρ))
  | jump l => return (some l, ρ)
  | branch cond l => do
    let taken := A.isTrue (cond.eval A ρ)
    .ask (.branch taken) fun _ ↦ return (if taken then some l else none, ρ)
  | phi t sources =>
    match ρ.choose sources with
    | some v => return (none, ρ.set t v)
    | none => .stop
  | label _ => return (none, ρ)

/-- The place of a label. -/
def place (stmts : List Stmt) (l : String) : Option Nat :=
  stmts.findIdx? fun
    | .label m => m == l
    | _ => false

/-- Runs statements by a counter, for so many steps at most. -/
def runFrom (stmts : List Stmt) : (steps pc : Nat) → Store V → Run V (Store V)
  | 0, _, _ => .stop
  | n + 1, pc, ρ =>
    match stmts[pc]? with
    | none => return ρ
    | some s => do
      match ← s.exec A ρ with
      | (none, ρ) => runFrom stmts n (pc + 1) ρ
      | (some l, ρ) =>
        match place stmts l with
        | some pc => runFrom stmts n pc ρ
        | none => .stop

/-- The word of a block that is run on its own. -/
def Block.run (b : Block) (steps : Nat) (initial : Nat → V) : Run V V := do
  let ρ ← runFrom A b.stmts steps 0 (.start initial)
  b.value.eval A ρ

/-! ## Statements in order -/

mutual

/-- Takes statements in order; jumps go forward. -/
def execStmts : List Stmt → Store V → Run V (Option String × Store V)
  | [], ρ => return (none, ρ)
  | s :: ss, ρ => do
    match ← s.exec A ρ with
    | (none, ρ) => execStmts ss ρ
    | (some l, ρ) => resumeStmts l ss ρ

/-- Goes on behind a label, or jumps further if it is not there. -/
def resumeStmts (l : String) : List Stmt → Store V → Run V (Option String × Store V)
  | [], ρ => return (some l, ρ)
  | .label m :: ss, ρ => if m = l then execStmts ss ρ else resumeStmts l ss ρ
  | _ :: ss, ρ => resumeStmts l ss ρ

end

/-- Takes statements in order and comes to their end. -/
def runStmts (stmts : List Stmt) (ρ : Store V) : Run V (Store V) := do
  match ← execStmts A stmts ρ with
  | (none, ρ) => return ρ
  | (some _, _) => .stop

end

/-! ## Jumps that go forward -/

/-- The labels that stand among statements. -/
def stmtLabels (stmts : List Stmt) : List String :=
  stmts.filterMap fun
    | .label l => some l
    | _ => none

/-- Where a statement may jump to. -/
def Stmt.target : Stmt → Option String
  | jump l | branch _ l => some l
  | move _ _ | phi _ _ | label _ => none

/-- Every jump goes to a label behind it. -/
def Forward : List Stmt → Prop
  | [] => True
  | s :: ss => (∀ l, s.target = some l → l ∈ stmtLabels ss) ∧ Forward ss

section

variable {V : Type} {A : Algebra V} {c c' before after : List Stmt} {l : String} {ρ : Store V}

@[simp] theorem stmtLabels_append (c c' : List Stmt) :
    stmtLabels (c ++ c') = stmtLabels c ++ stmtLabels c' := List.filterMap_append

theorem mem_stmtLabels : l ∈ stmtLabels c ↔ .label l ∈ c := by
  simp only [stmtLabels, List.mem_filterMap]
  constructor
  · rintro ⟨s, hs, h⟩
    cases s <;> simp_all
  · exact fun h ↦ ⟨_, h, rfl⟩

theorem Forward.append (h : Forward c) (h' : Forward c') : Forward (c ++ c') := by
  induction c with
  | nil => exact h'
  | cons s ss ih =>
    refine ⟨fun l hl ↦ ?_, ih h.2⟩
    change l ∈ stmtLabels (ss ++ c')
    rw [stmtLabels_append]
    exact List.mem_append_left _ (h.1 l hl)

theorem Forward.right (h : Forward (c ++ c')) : Forward c' := by
  induction c with
  | nil => exact h
  | cons s ss ih => exact ih h.2

/-- Statements without the label that is looked for are passed. -/
theorem resumeStmts_append (h : l ∉ stmtLabels c) :
    resumeStmts A l (c ++ c') ρ = resumeStmts A l c' ρ := by
  induction c with
  | nil => rfl
  | cons s ss ih =>
    have hss : l ∉ stmtLabels ss := fun hl ↦ h (List.mem_filterMap.mpr (by
      obtain ⟨s, hs, hsl⟩ := List.mem_filterMap.mp hl
      exact ⟨s, List.mem_cons_of_mem _ hs, hsl⟩))
    cases s with
    | label m =>
      have hm : m ≠ l := by
        rintro rfl
        exact h (mem_stmtLabels.mpr List.mem_cons_self)
      rw [List.cons_append, resumeStmts, if_neg hm, ih hss]
    | move _ _ => exact ih hss
    | jump _ => exact ih hss
    | branch _ _ => exact ih hss
    | phi _ _ => exact ih hss

theorem resumeStmts_label : resumeStmts A l (.label l :: c) ρ = execStmts A c ρ := by
  rw [resumeStmts, if_pos rfl]

/-- Statements in a row are taken one after another, and a jump out of the first ones goes on in the
others. -/
theorem execStmts_append (c c' : List Stmt) (ρ : Store V) :
    execStmts A (c ++ c') ρ = execStmts A c ρ >>= fun
      | (none, ρ) => execStmts A c' ρ
      | (some l, ρ) => resumeStmts A l c' ρ := by
  suffices execStmts A (c ++ c') ρ = (execStmts A c ρ >>= fun
      | (none, ρ) => execStmts A c' ρ
      | (some l, ρ) => resumeStmts A l c' ρ) ∧
    ∀ l, resumeStmts A l (c ++ c') ρ = resumeStmts A l c ρ >>= fun
      | (none, ρ) => execStmts A c' ρ
      | (some l, ρ) => resumeStmts A l c' ρ from this.1
  induction c generalizing ρ with
  | nil => exact ⟨rfl, fun l ↦ rfl⟩
  | cons s ss ih =>
    constructor
    · rw [List.cons_append, execStmts, execStmts, Dialogue.bind_assoc]
      refine congrArg _ (funext ?_)
      rintro ⟨_ | l, ρ⟩
      · exact (ih ρ).1
      · exact (ih ρ).2 l
    · intro l
      cases s with
      | label m =>
        rw [List.cons_append, resumeStmts, resumeStmts]
        split
        · exact (ih ρ).1
        · exact (ih ρ).2 l
      | move _ _ => exact (ih ρ).2 l
      | jump _ => exact (ih ρ).2 l
      | branch _ _ => exact (ih ρ).2 l
      | phi _ _ => exact (ih ρ).2 l

/-- A statement is passed, or it jumps to its target. -/
theorem Stmt.exec_bind_congr {β : Type} {f g : Option String × Store V → Run V β} (s : Stmt)
    (hnext : ∀ ρ, f (none, ρ) = g (none, ρ))
    (hjump : ∀ l ρ, s.target = some l → f (some l, ρ) = g (some l, ρ)) (ρ : Store V) :
    s.exec A ρ >>= f = s.exec A ρ >>= g := by
  cases s with
  | move t source =>
    simp only [Stmt.exec, Dialogue.bind_assoc, Dialogue.pure_eq_done, Dialogue.done_bind]
    exact congrArg _ (funext fun v ↦ hnext _)
  | jump l => exact hjump l ρ rfl
  | branch cond l =>
    simp only [Stmt.exec, Dialogue.ask_bind, Dialogue.pure_eq_done, Dialogue.done_bind]
    refine congrArg _ (funext fun _ ↦ ?_)
    cases A.isTrue (cond.eval A ρ) with
    | true => exact hjump l ρ rfl
    | false => exact hnext ρ
  | phi t sources =>
    rw [Stmt.exec]
    cases ρ.choose sources with
    | some v => exact hnext _
    | none => rfl
  | label m => exact hnext ρ

/-- No jump that goes forward leaves the statements. -/
theorem Forward.execStmts_bind {β : Type} (h : Forward c)
    {f g : Option String × Store V → Run V β} (hfg : ∀ ρ, f (none, ρ) = g (none, ρ)) (ρ : Store V) :
    execStmts A c ρ >>= f = execStmts A c ρ >>= g := by
  obtain ⟨n, hn⟩ : ∃ n, c.length < n := ⟨_, Nat.lt_succ_self _⟩
  induction n generalizing c ρ with
  | zero => exact absurd hn (Nat.not_lt_zero _)
  | succ n ih =>
    cases c with
    | nil => exact hfg ρ
    | cons s ss =>
      have hlen : ss.length < n := Nat.lt_of_succ_lt_succ hn
      rw [execStmts, Dialogue.bind_assoc, Dialogue.bind_assoc]
      refine s.exec_bind_congr (fun ρ ↦ ih h.2 ρ hlen) (fun l ρ hl ↦ ?_) ρ
      obtain ⟨mid, after, rfl, hmid⟩ := List.eq_append_cons_of_mem (mem_stmtLabels.mp (h.1 l hl))
      have hafter : Forward (.label l :: after) := h.2.right
      simp only [resumeStmts_append (mt mem_stmtLabels.mp hmid), resumeStmts_label]
      refine ih hafter.2 ρ ?_
      rw [List.length_append, List.length_cons] at hlen
      omega

/-- Statements in a row are run one after another. -/
theorem runStmts_append (h : Forward c) (ρ : Store V) :
    runStmts A (c ++ c') ρ = runStmts A c ρ >>= runStmts A c' := by
  simp only [runStmts, execStmts_append, Dialogue.bind_assoc]
  refine h.execStmts_bind (fun ρ ↦ ?_) ρ
  rfl

theorem runStmts_move (t : Temp) (source : Rhs) (c : List Stmt) (ρ : Store V) :
    runStmts A (.move t source :: c) ρ
      = source.eval A ρ >>= fun v ↦ runStmts A c (ρ.set t v) := by
  simp only [runStmts, execStmts, Stmt.exec, Dialogue.bind_assoc, Dialogue.pure_eq_done,
    Dialogue.done_bind]

/-! ## Running by the counter -/

/-- A label that stands once is found where it stands. -/
theorem place_eq (hnodup : (stmtLabels (before ++ .label l :: after)).Nodup) :
    place (before ++ .label l :: after) l = some before.length := by
  rw [stmtLabels_append, List.nodup_append] at hnodup
  rw [place, List.findIdx?_append, List.findIdx?_eq_none_iff.mpr, List.findIdx?_cons]
  · simp
  · intro s hs
    cases s with
    | label m =>
      rw [beq_eq_false_iff_ne]
      rintro rfl
      exact hnodup.2.2 m (mem_stmtLabels.mpr hs) m (mem_stmtLabels.mpr List.mem_cons_self) rfl
    | _ => rfl

private theorem runFrom_eq (hforward : Forward c) (hnodup : (stmtLabels (before ++ c)).Nodup)
    {steps : Nat} (hsteps : c.length < steps) (ρ : Store V) :
    runFrom A (before ++ c) steps before.length ρ = runStmts A c ρ := by
  induction steps generalizing before c ρ with
  | zero => exact absurd hsteps (Nat.not_lt_zero _)
  | succ n ih =>
    cases c with
    | nil => simp [runFrom, runStmts, execStmts]
    | cons s ss =>
      rw [runFrom, List.getElem?_append_right (Nat.le_refl _), Nat.sub_self, runStmts, execStmts]
      simp only [List.getElem?_cons_zero, Dialogue.bind_assoc]
      refine s.exec_bind_congr (fun ρ ↦ ?_) (fun l ρ hl ↦ ?_) ρ
      · have hsplit : before ++ s :: ss = (before ++ [s]) ++ ss := by simp
        have := ih hforward.2 (hsplit ▸ hnodup) (Nat.lt_of_succ_lt_succ hsteps) ρ
        rwa [← hsplit, List.length_append] at this
      · obtain ⟨mid, after, rfl, hmid⟩ :=
          List.eq_append_cons_of_mem (mem_stmtLabels.mp (hforward.1 l hl))
        have hsplit : before ++ s :: (mid ++ .label l :: after)
            = (before ++ s :: mid) ++ .label l :: after := by simp
        have hrest : Forward (.label l :: after) := hforward.2.right
        simp only [hsplit, place_eq (hsplit ▸ hnodup),
          resumeStmts_append (mt mem_stmtLabels.mp hmid), resumeStmts_label]
        exact ih hrest (hsplit ▸ hnodup) (by simp at hsteps ⊢; omega) ρ

/-- Where labels are different and jumps go forward, running by a counter is taking statements in
order. -/
theorem Block.run_eq {stmts : List Stmt} {value : Rhs} (hforward : Forward stmts)
    (hnodup : (stmtLabels stmts).Nodup) {steps : Nat} (hsteps : stmts.length < steps)
    (initial : Nat → V) :
    (Block.mk stmts value).run A steps initial
      = runStmts A stmts (.start initial) >>= fun ρ ↦ value.eval A ρ := by
  have hrun : runFrom A stmts steps 0 (.start initial) = runStmts A stmts (.start initial) := by
    have hbefore : (stmtLabels ([] ++ stmts)).Nodup := hnodup
    exact runFrom_eq hforward hbefore hsteps (.start initial)
  rw [Block.run, Block.stmts, Block.value, hrun]

end

/-! ## Function bodies -/

mutual

/-- The bodies of the functions in a tree, in the order of evaluation. -/
def Tree.bodies : Tree → List Tree
  | .const _ | .temp _ => []
  | .tag _ e | .untag e => e.bodies
  | .call callee args => bodiesOfTrees args ++ callee.bodies
  | .func _ captures body => bodiesOfSources captures ++ body :: body.bodies
  | .after effect e => effect.bodies ++ e.bodies

def bodiesOfTrees : List Tree → List Tree
  | [] => []
  | e :: es => e.bodies ++ bodiesOfTrees es

def bodiesOfSources : List (Cell × Tree) → List Tree
  | [] => []
  | (_, e) :: cs => e.bodies ++ bodiesOfSources cs

def Effect.bodies : Effect → List Tree
  | .move _ e | .branch e _ | .eval e => e.bodies
  | .seq effects => bodiesOfEffects effects
  | .jump _ | .phi _ _ | .label _ => []

def bodiesOfEffects : List Effect → List Tree
  | [] => []
  | s :: ss => s.bodies ++ bodiesOfEffects ss

end

mutual

/-- The bodies of the functions in a block, in the order of its statements. -/
def Block.bodies : Block → List Block
  | .mk stmts value => bodiesOfStmts stmts ++ value.bodies

def Rhs.bodies : Rhs → List Block
  | .func _ _ body => body :: body.bodies
  | .value _ | .tag _ _ | .untag _ | .call _ _ => []

def bodiesOfStmts : List Stmt → List Block
  | [] => []
  | s :: ss => s.bodies ++ bodiesOfStmts ss

def Stmt.bodies : Stmt → List Block
  | .move _ source => source.bodies
  | .jump _ | .branch _ _ | .phi _ _ | .label _ => []

end

end TaggedLisp.Ir
