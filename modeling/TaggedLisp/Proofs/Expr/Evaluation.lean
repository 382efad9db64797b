import TaggedLisp.Expr
import TaggedLisp.Label
import TaggedLisp.Proofs.Dialogue
import TaggedLisp.Tag

/-!
# The words of expressions

A reference for what the code of an expression has to do. `Expr.eval` gives the word of an
expression, where the words of the visible names are known, as a dialogue with the runtime: it says
which calls are made, with which words, and in which order, and leaves the answers open. It knows
nothing of registers or of the stack.

A function without captures is a closure in the data section and known by its label, so the
evaluation has to know the numbers that labels are made of. They depend on the text of the program
only, not on what happens when it runs, and the same holds for the names of the global functions.
`Expr.statics` computes both, and the expressions that are not run, such as the other branch of a
conditional, take part in it.
-/

namespace TaggedLisp

/-- A machine word. -/
abbrev Word := BitVec 64

namespace Word

/-- Whether a word carries a tag. -/
def hasTag (w : Word) (t : Tag) : Bool := w &&& Tag.mask.toBitVec == t.bits.toBitVec

/-- The word of the object at an address. -/
def tagged (address : Word) (t : Tag) : Word := address ||| t.bits.toBitVec

/-- The address of the object of a word. -/
def untagged (w : Word) : Word := w &&& (~~~Tag.mask).toBitVec

end Word

/-! ## Dialogues with the runtime -/

/-- What a program asks the runtime and the functions of the program to do. -/
inductive Call where
  /-- To call a closure with some words. -/
  | closure (callee : Word) (args : List Word)
  /-- To make a sequence of some words. -/
  | sequence (shape : Shape) (elems : List Word)
  /-- To provide a block of memory. -/
  | allocate (bytes : Nat)
  deriving DecidableEq, Repr, Inhabited

/-- What can be seen of an evaluation from outside. -/
inductive Question where
  /-- A call, answered by a word. -/
  | call (call : Call)
  /-- A word is written into a block of memory. -/
  | write (address : Nat) (word : Word)
  deriving DecidableEq, Repr, Inhabited

/-- What is answered to a question. -/
@[reducible] def Question.Answer : Question → Type
  | call _ => Word
  | write _ _ => Unit

/-- A computation that talks to the runtime. -/
abbrev Evaluation := Dialogue Question.Answer

namespace Evaluation

/-- The word that a call is answered with. -/
def call (c : Call) : Evaluation Word := .ask (.call c) .done

/-- Writes words side by side into a block of memory. -/
def write : (address : Nat) → List Word → Evaluation Unit
  | _, [] => return
  | a, w :: ws => .ask (.write a w) fun _ ↦ write (a + 8) ws

/-- A word that has to be there. -/
def ofOption {α : Type} : Option α → Evaluation α
  | some a => return a
  | none => .stop

/-- A sequence. The empty one is a word of its own. -/
def sequence (shape : Shape) (elems : List Word) : Evaluation Word :=
  if elems.isEmpty then return Tag.list.bits.toBitVec else call (.sequence shape elems)

/-- The words that a call passes: the arguments, those from `spread` on in one list. -/
def passed (spread : Option Nat) (args : List Word) : Evaluation (List Word) :=
  match spread with
  | none => return args
  | some n => do return args.take n ++ [← sequence .list (args.drop n)]

/-- Calls a word, which must be a closure. -/
def apply (callee : Word) (args : List Word) : Evaluation Word :=
  if callee.hasTag .closure then call (.closure callee args) else .stop

/-- A word that has to be a closure. -/
def checked (callee : Word) : Evaluation Unit :=
  if callee.hasTag .closure then return () else .stop

theorem apply_eq (callee : Word) (args : List Word) :
    apply callee args = checked callee >>= fun _ ↦ call (.closure callee args) := by
  rw [apply, checked]
  split <;> rfl

/-- The closure of the code at an address with some captured words. -/
def allocate (code : Word) (captured : List Word) : Evaluation Word := do
  let block ← call (.allocate (8 * (1 + captured.length)))
  write block.toNat (code :: captured)
  return block.tagged .closure

end Evaluation

/-! ## What is known before anything runs -/

/-- The next unused number and the words of the global names. -/
structure Statics where
  next : Nat
  globals : String → Option Word

namespace Statics

/-- A number is drawn. -/
def draw (s : Statics) : Statics := { s with next := s.next + 1 }

/-- A global name gets a word. -/
def define (s : Statics) (name : String) (w : Word) : Statics :=
  { s with globals := fun x ↦ if x = name then some w else s.globals x }

end Statics

/-- The words of the names that are bound in enclosing functions and `let`s. -/
abbrev Locals := String → Option Word

/-- The word of a name; local names hide global ones. -/
def Statics.lookup (s : Statics) (ρ : Locals) (name : String) : Option Word :=
  (ρ name).or (s.globals name)

/-- A local name gets a word. -/
def Locals.define (ρ : Locals) (name : String) (w : Word) : Locals :=
  fun x ↦ if x = name then some w else ρ x

section

variable (address : Label → Word)

/-- The word of the closure under a label. -/
def closureWord (l : Label) : Word := (address l).tagged .closure

/-- What a function adds to what is known: its name, if it is global and captures nothing. -/
def Statics.defineFn (s : Statics) (h : FnHead) (captures : Captures) (id : Nat) : Statics :=
  match captures.isEmpty && h.isGlobal, h.name with
  | true, some name => s.define name (closureWord address (.closure h.name id))
  | _, _ => s

mutual

/-- What is known after an expression. -/
def Expr.statics : Expr → Statics → Statics
  | .literal (.string _) _, s => s.draw
  | .literal _ _, s => s
  | .symbol _ _, s => s
  | .group _ elems _, s => staticsAll elems s
  | .cond test yes no _, s => yes.statics (no.statics (test.statics s.draw))
  | .letIn bindings body _, s => body.statics (staticsBindings bindings s)
  | .fn head body n, s => (body.statics s.draw).defineFn address head n.captures s.next
  | .seq steps _, s => staticsAll steps s
  | .call callee args _ _, s => callee.statics (staticsAll args s)

def staticsAll : List Expr → Statics → Statics
  | [], s => s
  | e :: es, s => staticsAll es (e.statics s)

def staticsBindings : List (String × Expr) → Statics → Statics
  | [], s => s
  | (_, value) :: bs, s => staticsBindings bs (value.statics s)

end

/-! ## Evaluation -/

/-- The word of a literal. -/
def Literal.word (s : Statics) : Literal → Word
  | .nil => 0
  | .boolean b => (if b then trueWord else falseWord).toBitVec
  | .number n => (integerWord n).toBitVec
  | .string _ => (address (.text s.next)).tagged .string

mutual

/-- The word of an expression. The then branch of a conditional is taken when its test is `true` and
nothing else; the arguments of a call come before its callee. -/
def Expr.eval : Expr → Statics → Locals → Evaluation Word
  | .literal v _, s, _ => return v.word address s
  | .symbol name _, s, ρ => .ofOption (s.lookup ρ name)
  | .group shape elems _, s, ρ => do .sequence shape (← evalAll elems s ρ)
  | .cond test yes no _, s, ρ => do
    let w ← test.eval s.draw ρ
    let s := test.statics address s.draw
    if w = trueWord.toBitVec then yes.eval (no.statics address s) ρ else no.eval s ρ
  | .letIn bindings body _, s, ρ => do
    body.eval (staticsBindings address bindings s) (← evalBindings bindings s ρ)
  | .fn head _ n, s, ρ => do
    if n.captures.isEmpty then return closureWord address (.closure head.name s.next)
    else
      let captured ← .ofOption (n.captures.mapM (s.lookup ρ))
      .allocate (address (.code head.name s.next)) captured
  | .seq steps _, s, ρ => do return (← evalAll steps s ρ).getLastD 0
  | .call callee args spread _, s, ρ => do
    let ws ← .passed spread (← evalAll args s ρ)
    .apply (← callee.eval (staticsAll address args s) ρ) ws

/-- The words of several expressions, evaluated in order. -/
def evalAll : List Expr → Statics → Locals → Evaluation (List Word)
  | [], _, _ => return []
  | e :: es, s, ρ => do
    let w ← e.eval s ρ
    let ws ← evalAll es (e.statics address s) ρ
    return w :: ws

/-- The local names after the bindings of a `let`; each value sees the names before it. -/
def evalBindings : List (String × Expr) → Statics → Locals → Evaluation Locals
  | [], _, ρ => return ρ
  | (name, value) :: bs, s, ρ => do
    let w ← value.eval s ρ
    evalBindings bs (value.statics address s) (ρ.define name w)

end

/-- What a call hands over: the callee, which is evaluated last and has to be a closure, and the
words that are passed. -/
def evalOperands (callee : Expr) (args : List Expr) (spread : Option Nat) (s : Statics)
    (ρ : Locals) : Evaluation (Word × List Word) := do
  let ws ← .passed spread (← evalAll address args s ρ)
  let f ← callee.eval address (staticsAll address args s) ρ
  .checked f
  return (f, ws)

theorem Expr.eval_call (callee : Expr) (args : List Expr) (spread : Option Nat) (n : Note)
    (s : Statics) (ρ : Locals) :
    (Expr.call callee args spread n).eval address s ρ
      = evalOperands address callee args spread s ρ >>= fun (f, ws) ↦ .call (.closure f ws) := by
  simp only [Expr.eval, evalOperands, Evaluation.apply_eq, bind_assoc, Dialogue.pure_eq_done,
    Dialogue.done_bind]

/-! ## Lists of expressions -/

variable {address : Label → Word}

theorem staticsAll_append (es es' : List Expr) (s : Statics) :
    staticsAll address (es ++ es') s = staticsAll address es' (staticsAll address es s) := by
  induction es generalizing s with
  | nil => rfl
  | cons e es ih => exact ih _

/-- There is one word for each expression, so what is done with the words needs to be known for that
many words only. -/
theorem evalAll_bind_congr {α : Type} (es : List Expr) (s : Statics) (ρ : Locals)
    {f g : List Word → Evaluation α} (h : ∀ ws, ws.length = es.length → f ws = g ws) :
    evalAll address es s ρ >>= f = evalAll address es s ρ >>= g := by
  induction es generalizing s f g with
  | nil => exact h [] rfl
  | cons e es ih =>
    simp only [evalAll, bind_assoc, Dialogue.pure_eq_done, Dialogue.done_bind]
    refine congrArg _ (funext fun w ↦ ih _ fun ws hws ↦ h (w :: ws) ?_)
    rw [List.length_cons, hws, List.length_cons]

theorem evalAll_append (es es' : List Expr) (s : Statics) (ρ : Locals) :
    evalAll address (es ++ es') s ρ = do
      let ws ← evalAll address es s ρ
      let ws' ← evalAll address es' (staticsAll address es s) ρ
      return ws ++ ws' := by
  induction es generalizing s with
  | nil => exact (Dialogue.bind_done _).symm
  | cons e es ih =>
    simp only [List.cons_append, evalAll, ih, bind_assoc, Dialogue.pure_eq_done,
      Dialogue.done_bind, staticsAll]

/-- The expressions of the words that a call passes. -/
def passedExprs (spread : Option Nat) (args : List Expr) : List Expr :=
  match spread with
  | none => args
  | some n => args.take n ++ [.group .list (args.drop n) default]

/-- What holds of all arguments of a call, and of a list of some of them, holds of all that is
passed. -/
theorem forall_passedExprs {P : Expr → Prop} {args : List Expr} (hargs : ∀ e ∈ args, P e)
    (hlist : ∀ es, (∀ e ∈ es, P e) → P (.group .list es default)) (spread : Option Nat) :
    ∀ e ∈ passedExprs spread args, P e := by
  cases spread with
  | none => exact hargs
  | some n =>
    refine List.forall_mem_append.mpr ⟨fun e he ↦ hargs e (List.mem_of_mem_take he), ?_⟩
    exact List.forall_mem_singleton.mpr (hlist _ fun e he ↦ hargs e (List.mem_of_mem_drop he))

theorem staticsAll_passedExprs (spread : Option Nat) (args : List Expr) (s : Statics) :
    staticsAll address (passedExprs spread args) s = staticsAll address args s := by
  cases spread with
  | none => rfl
  | some n =>
    rw [passedExprs, staticsAll_append]
    conv => rhs; rw [← List.take_append_drop n args, staticsAll_append]
    rfl

/-- Lists that are as long as the two parts of a list of length `k` are the two parts of their sum.
-/
theorem split_append {α : Type} {n k : Nat} {l l' : List α} (h : l.length = min n k)
    (h' : l'.length = k - n) : (l ++ l').take n = l ∧ (l ++ l').drop n = l' := by
  rcases Nat.le_total n k with hn | hn
  · have hlen : l.length = n := by omega
    exact ⟨List.take_left' hlen, List.drop_left' hlen⟩
  · obtain rfl : l' = [] := List.eq_nil_of_length_eq_zero (by omega)
    have hlen : (l ++ []).length ≤ n := by simp; omega
    exact ⟨by rw [List.take_of_length_le hlen, List.append_nil], List.drop_of_length_le hlen⟩

/-- The surplus arguments of a call are evaluated in their places and put into a list after that. -/
theorem evalAll_passedExprs (spread : Option Nat) (args : List Expr) (s : Statics) (ρ : Locals) :
    evalAll address (passedExprs spread args) s ρ
      = evalAll address args s ρ >>= Evaluation.passed spread := by
  cases spread with
  | none => exact (Dialogue.bind_done _).symm
  | some n =>
    conv => rhs; rw [← List.take_append_drop n args]
    simp only [passedExprs, evalAll_append, bind_assoc, Dialogue.pure_eq_done, Dialogue.done_bind,
      evalAll, Expr.eval]
    refine evalAll_bind_congr _ _ _ fun ws hws ↦ evalAll_bind_congr _ _ _ fun ws' hws' ↦ ?_
    rw [List.length_take] at hws
    rw [List.length_drop] at hws'
    have hsplit := split_append hws hws'
    rw [Evaluation.passed, hsplit.1, hsplit.2]
    rfl

end

end TaggedLisp
