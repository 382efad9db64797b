import TaggedLisp.Builtin
import TaggedLisp.Expr
import TaggedLisp.Machine.Code
import TaggedLisp.Pass
import TaggedLisp.Scopes
import TaggedLisp.Tag

/-!
# From expressions to machine code

The code of an expression leaves its word in `rax`. Below `rbp` lie the words pushed so far; their
number is the depth, and the variables of a `let` are known by the depth at which they were pushed.
A call passes the callee in `rdi`, five arguments in registers and the rest on the stack. Since a
call may change all those registers, the caller saves what it still needs of them first.

The code of a function stands where the function is made and is jumped over. A function without
captures is one closure in the data section; any other is allocated where it is made, with the words
of the variables that it captures.

The parts of a construct are combined as steps that write code, so that the code of each construct
is said once, for whatever parts it has.
-/

namespace TaggedLisp.Machine

/-- Where a variable lives while the program runs. -/
inductive Place where
  /-- The stack word at a depth. -/
  | slot (depth : Nat)
  /-- A parameter of the running function, counted from zero. -/
  | param (index : Nat)
  /-- A captured word of the running closure, counted from zero. -/
  | captured (index : Nat)
  /-- The running closure itself. -/
  | current
  /-- A closure in the data section or the runtime. -/
  | static (closure : Label)
  deriving DecidableEq, Repr, Inhabited

/-- What is known about the function that is being translated. The top level is one that is in no
function and has no parameters. -/
structure Activation where
  inFunction : Bool
  params : Nat
  /-- The number of words pushed below `rbp`. -/
  depth : Nat
  deriving DecidableEq, Repr, Inhabited

/-- The registers that hold the first arguments of a call, in order. -/
def argRegisters : List Reg := [.rsi, .rdx, .rcx, .r8, .r9]

/-- The registers that hold the closure and the parameters of the function. -/
def Activation.liveRegisters (a : Activation) : List Reg :=
  if a.inFunction then .rdi :: argRegisters.take a.params else []

/-- What is known while expressions are translated: the next unused number, where the visible
variables live, the function being translated, and what was written so far. -/
structure Translator where
  next : Nat
  scopes : Scopes Place
  activation : Activation
  code : Array Instr
  data : Array Datum
  deriving Inhabited

/-- The top level, from which only the builtin functions are seen; numbers are drawn from `next` on.
-/
def Translator.start (next : Nat) : Translator where
  next := next
  scopes := builtins.foldl (fun s b ↦ s.defineGlobal b.name (.static (.builtin b.symbol))) .empty
  activation := ⟨false, 0, 0⟩
  code := #[]
  data := #[]

/-- The program that was written. -/
def Translator.program (t : Translator) : Program := ⟨t.code.toList, t.data.toList⟩

/-- A step that writes code. -/
abbrev Translate := Pass Translator

/-- The stack word at a depth. -/
def slotAddress (depth : Nat) : Address := ⟨.rbp, -(8 * depth : Int)⟩

/-- The word of a parameter that was passed on the stack, counted from the first such parameter.
Below it lie the return address and the caller's `rbp`. -/
def stackParamAddress (index : Nat) : Address := ⟨.rbp, 16 + 8 * index⟩

/-- The code that loads the word of a place. -/
def Place.load : Place → List Instr
  | slot depth => [.mov .rax (.memory (slotAddress depth))]
  | param i =>
    match argRegisters[i]? with
    | some r => [.mov .rax (.reg r)]
    | none => [.mov .rax (.memory (stackParamAddress (i - argRegisters.length)))]
  | captured k =>
    [ .mov .rax (.reg .rdi),
      .and .rax (~~~Tag.mask).toInt,
      .mov .rax (.memory ⟨.rax, 8 * (k + 1)⟩) ]
  | current => [.mov .rax (.reg .rdi)]
  | static l => [.mov .rax (.label l), .or .rax Tag.closure.bits.toInt]

namespace Translate

/-! ## Writing and counting -/

/-- Draws a number. -/
def draw : Translate Nat := modifyGet fun s ↦ (s.next, { s with next := s.next + 1 })

/-- Writes an instruction. -/
def emit (i : Instr) : Translate Unit := modify fun s ↦ { s with code := s.code.push i }

/-- Writes several instructions. -/
def emitAll : List Instr → Translate Unit
  | [] => return
  | i :: is => do
    emit i
    emitAll is

/-- Writes a piece of data. -/
def emitData (d : Datum) : Translate Unit := modify fun s ↦ { s with data := s.data.push d }

/-- The number of words pushed. -/
def depth : Translate Nat := do return (← get).activation.depth

/-- Changes the number of words pushed. -/
def setDepth (f : Nat → Nat) : Translate Unit :=
  modify fun s ↦ { s with activation := { s.activation with depth := f s.activation.depth } }

def push (r : Reg) : Translate Unit := do
  emit (.push r)
  setDepth (· + 1)

def pop (r : Reg) : Translate Unit := do
  emit (.pop r)
  setDepth (· - 1)

/-- Makes room for words on the stack. -/
def reserve (words : Nat) : Translate Unit := do
  if words ≠ 0 then
    emit (.sub .rsp (8 * words))
    setDepth (· + words)

/-- Gives up words on the stack. -/
def release (words : Nat) : Translate Unit := do
  if words ≠ 0 then
    emit (.add .rsp (8 * words))
    setDepth (· - words)

/-- Pushes registers in order. -/
def pushAll : List Reg → Translate Unit
  | [] => return
  | r :: rs => do
    push r
    pushAll rs

/-- Pops registers in order. -/
def popAll : List Reg → Translate Unit
  | [] => return
  | r :: rs => do
    pop r
    popAll rs

/-! ## Variables -/

/-- Lets `name` live at `place` in the current frame. -/
def define (name : String) (place : Place) : Translate Unit :=
  modify fun s ↦ { s with scopes := s.scopes.define name place }

/-- Lets `name` live at `place` in the global frame. -/
def defineGlobal (name : String) (place : Place) : Translate Unit :=
  modify fun s ↦ { s with scopes := s.scopes.defineGlobal name place }

/-- Where `name` lives. -/
def resolve (name : String) (line : Nat) : Translate Place := do
  match (← get).scopes.lookup name with
  | some p => return p
  | none => Pass.fail (.unresolvedSymbol name) line

/-! ## Parts of constructs -/

/-- A literal. -/
def literal : Literal → Translate Unit
  | .nil => emit (.clear .rax)
  | .boolean b => emit (.mov .rax (.const (if b then trueWord else falseWord).toInt))
  | .number n => emit (.mov .rax (.const (integerWord n).toInt))
  | .string s => do
    let l := Label.text (← draw)
    emitData (.text l s)
    emitAll [.mov .rax (.label l), .or .rax Tag.string.bits.toInt]

/-- Evaluates each step and stores its word on the stack, from the given depth upwards. -/
def fill : (slot : Nat) → List (Translate Unit) → Translate Unit
  | _, [] => return
  | slot, e :: es => do
    e
    emit (.store (slotAddress slot) .rax)
    fill (slot - 1) es

/-- A sequence. Its words are put side by side on the stack and handed to the runtime with their
number. -/
def sequence (shape : Shape) (elems : List (Translate Unit)) : Translate Unit := do
  if elems.isEmpty then emit (.mov .rax (.const Tag.list.bits.toInt))
  else
    reserve elems.length
    let base ← depth
    fill base elems
    let live := (← get).activation.liveRegisters
    pushAll live
    emitAll
      [ .mov .rdi (.const elems.length),
        .lea .rsi (slotAddress base),
        .call (.routine shape.routine) ]
    popAll live.reverse
    release elems.length

/-- A conditional. The first branch is taken when the test is `true` and nothing else. -/
def cond (test yes no : Translate Unit) : Translate Unit := do
  let id ← draw
  test
  emitAll [.cmp .rax trueWord.toInt, .je (.yes id)]
  no
  emitAll [.jmp (.after id), .label (.yes id)]
  yes
  emit (.label (.after id))

/-- Evaluates the arguments of a call from `position` on. The first ones are pushed, to be popped
into registers later, the others are stored in the room below `base`. -/
def passArgs (base : Nat) : (position : Nat) → List (Translate Unit) → Translate Unit
  | _, [] => return
  | i, arg :: args => do
    arg
    if i < argRegisters.length then push .rax
    else emit (.store (slotAddress (base - (i - argRegisters.length))) .rax)
    passArgs base (i + 1) args

/-- The words that a call passes: the arguments, those from `spread` on in one list. -/
def passed (spread : Option Nat) (args : List (Translate Unit)) : List (Translate Unit) :=
  match spread with
  | none => args
  | some n => args.take n ++ [sequence .list (args.drop n)]

/-- A call. The callee is evaluated last and must be a closure. -/
def call (spread : Option Nat) (callee : Translate Unit) (args : List (Translate Unit)) :
    Translate Unit := do
  let live := (← get).activation.liveRegisters
  pushAll live
  let args := passed spread args
  let onStack := args.length - argRegisters.length
  reserve onStack
  passArgs (← depth) 0 args
  callee
  emitAll
    [ .mov .r11 (.reg .rax),
      .and .r11 Tag.mask.toInt,
      .cmp .r11 Tag.closure.bits.toInt,
      .jne (.routine .error),
      .mov .rdi (.reg .rax) ]
  popAll (argRegisters.take args.length).reverse
  emitAll [.mov .rax (.reg .rdi), .and .rax (~~~Tag.mask).toInt, .callThrough .rax]
  release onStack
  popAll live.reverse

/-! ## Functions -/

/-- Where the captured variables of a function live. -/
def places (line : Nat) : List String → Translate (List Place)
  | [] => return []
  | name :: names => do
    let p ← resolve name line
    return p :: (← places line names)

/-- The variables that the body of a function sees besides the global ones. The name of the function
hides a parameter, and a parameter a captured variable of the same name. -/
def bodyPlaces (h : FnHead) (captures : Captures) (id : Nat) : List (String × Place) :=
  let own := if captures.isEmpty then Place.static (.closure h.name id) else .current
  captures.mapIdx (fun k name ↦ (name, .captured k))
    ++ h.allParams.mapIdx (fun i name ↦ (name, .param i))
    ++ h.name.toList.map (·, own)

/-- Runs `body` as the body of a function. -/
def isolated (h : FnHead) (captures : Captures) (id : Nat) (body : Translate Unit) :
    Translate Unit :=
  Pass.between
    (fun s ↦
      { s with
        activation := ⟨true, h.allParams.length, 0⟩
        scopes := (bodyPlaces h captures id).foldl (fun s (name, p) ↦ s.define name p)
          (s.scopes.enterFrom ScopeId.global) })
    (fun before after ↦
      { after with
        activation := before.activation
        scopes := after.scopes.exit before.scopes.current })
    body

/-- Copies the words of captured variables into the closure whose address is on top of the stack,
from the given byte on. -/
def capture : (offset : Nat) → List Place → Translate Unit
  | _, [] => return
  | offset, p :: ps => do
    emitAll p.load
    emitAll [.mov .r11 (.memory ⟨.rsp, 0⟩), .store ⟨.r11, offset⟩ .rax]
    capture (offset + 8) ps

/-- Allocates a closure: the address of its code, then the captured words. -/
def allocate (code : Label) (sources : List Place) : Translate Unit := do
  let live := (← get).activation.liveRegisters
  pushAll live
  emitAll [.mov .rax (.const (8 * (1 + sources.length))), .call (.routine .allocate)]
  popAll live.reverse
  emitAll [.mov .r11 (.label code), .store ⟨.rax, 0⟩ .r11]
  push .rax
  capture 8 sources
  pop .rax
  emit (.or .rax Tag.closure.bits.toInt)

/-- A function with head `h`, whose body `body` translates. -/
def fn (h : FnHead) (n : Note) (body : Translate Unit) : Translate Unit := do
  let id ← draw
  let sources ← places n.token.line n.captures
  emitAll
    [ .jmp (.after id),
      .label (.code h.name id),
      .push .rbp,
      .mov .rbp (.reg .rsp) ]
  isolated h n.captures id body
  emitAll [.pop .rbp, .ret, .label (.after id)]
  if sources.isEmpty then
    let own := Label.closure h.name id
    emitData (.closure own (.code h.name id))
    emitAll (Place.static own).load
    match h.isGlobal, h.name with
    | true, some name => defineGlobal name (.static own)
    | _, _ => pure ()
  else allocate (.code h.name id) sources

/-- Runs `body` in a frame nested in the current one. -/
def nested (body : Translate Unit) : Translate Unit :=
  Pass.between (fun s ↦ { s with scopes := s.scopes.enter })
    (fun before after ↦ { after with scopes := after.scopes.exit before.scopes.current }) body

/-- Pushes the word of a variable and makes the variable visible. -/
def bindSlot (name : String) : Translate Unit := do
  push .rax
  define name (.slot (← depth))

end Translate

end TaggedLisp.Machine

/-! ## Expressions -/

namespace TaggedLisp

open Machine

mutual

/-- Translates an expression. -/
def Expr.translate : Expr → Translate Unit
  | .literal v _ => Translate.literal v
  | .symbol name n => do Translate.emitAll (← Translate.resolve name n.token.line).load
  | .group shape elems _ => Translate.sequence shape (translateEach elems)
  | .cond test yes no _ => Translate.cond test.translate yes.translate no.translate
  | .letIn bindings body _ =>
    Translate.nested do
      translateBindings bindings
      body.translate
      Translate.release bindings.length
  | .fn head body n => Translate.fn head n body.translate
  | .seq steps _ => if steps.isEmpty then Translate.literal .nil else translateAll steps
  | .call callee args spread _ => Translate.call spread callee.translate (translateEach args)

/-- The steps that translate several expressions, one for each. -/
def translateEach : List Expr → List (Translate Unit)
  | [] => []
  | e :: es => e.translate :: translateEach es

/-- Translates several expressions one after another. -/
def translateAll : List Expr → Translate Unit
  | [] => return
  | e :: es => do
    e.translate
    translateAll es

/-- Translates names and values in turn; each value sees the names before it. -/
def translateBindings : List (String × Expr) → Translate Unit
  | [] => return
  | (name, value) :: bs => do
    value.translate
    Translate.bindSlot name
    translateBindings bs

end

theorem translateEach_eq_map (es : List Expr) : translateEach es = es.map Expr.translate := by
  induction es with
  | nil => rfl
  | cons e es ih => simp [translateEach, ih]

end TaggedLisp
