import TaggedLisp.Builtin
import TaggedLisp.Machine.Code

/-!
# Machine code as text

The text is in the notation of the assembler NASM: declarations of the labels that the runtime
provides, the code between a preamble and a call that ends the program, and the data. Instructions
and data are indented by a tab, labels and declarations are not.
-/

namespace TaggedLisp.Machine

def Reg.render : Reg → String
  | rax => "rax"
  | rcx => "rcx"
  | rdx => "rdx"
  | rsi => "rsi"
  | rdi => "rdi"
  | r8 => "r8"
  | r9 => "r9"
  | r11 => "r11"
  | rsp => "rsp"
  | rbp => "rbp"

/-- An address as text; a distance of zero is left out. -/
def Address.render (a : Address) : String :=
  let distance :=
    if a.offset = 0 then "" else if a.offset < 0 then toString a.offset else "+" ++ toString a.offset
  "[" ++ a.base.render ++ distance ++ "]"

def Source.render : Source → String
  | reg r => r.render
  | const n => toString n
  | label l => l.render
  | memory a => a.render

/-- The mnemonic and operands of an instruction, or a label. -/
def Instr.render : Instr → String
  | label l => l.render ++ ":"
  | mov r s => "mov " ++ r.render ++ ", " ++ s.render
  | store a r => "mov " ++ a.render ++ ", " ++ r.render
  | lea r a => "lea " ++ r.render ++ ", " ++ a.render
  | clear r => "xor " ++ r.render ++ ", " ++ r.render
  | and r n => "and " ++ r.render ++ ", " ++ toString n
  | or r n => "or " ++ r.render ++ ", " ++ toString n
  | add r n => "add " ++ r.render ++ ", " ++ toString n
  | sub r n => "sub " ++ r.render ++ ", " ++ toString n
  | cmp r n => "cmp " ++ r.render ++ ", " ++ toString n
  | push r => "push " ++ r.render
  | pop r => "pop " ++ r.render
  | jmp l => "jmp " ++ l.render
  | je l => "je " ++ l.render
  | jne l => "jne " ++ l.render
  | call l => "call " ++ l.render
  | callThrough r => "call [" ++ r.render ++ "]"
  | ret => "ret"

/-- Whether the line of an instruction is indented. -/
def Instr.isIndented : Instr → Bool
  | label _ => false
  | _ => true

def Directive.render : Directive → String
  | label l => l.render ++ ":"
  | number n => "dq " ++ toString n
  | address l => "dq " ++ l.render
  | bytes bs => "db " ++ String.intercalate ", " (bs.map fun b ↦ toString b.toNat)
  | align => "ALIGN 8"

/-- Whether the line of a directive is indented. -/
def Directive.isIndented : Directive → Bool
  | label _ => false
  | _ => true

/-- A line of text, after a tab when it is indented. -/
def line (indented : Bool) (s : String) : String :=
  if indented then "\t" ++ s ++ "\n" else s ++ "\n"

/-- The labels that a program takes from the runtime. -/
def externs : List Label :=
  Routine.all.map Label.routine ++ builtins.map fun b ↦ Label.builtin b.symbol

/-- The instructions that a program starts with. -/
def preamble : List Instr :=
  [.label .start, .mov .rbp (.reg .rsp), .call (.routine .allocInit)]

/-- The instructions that a program ends with. -/
def epilogue : List Instr := [.call (.routine .debexit)]

/-- The lines of a program. -/
def Program.lines (p : Program) : List String :=
  externs.map (fun l ↦ line false ("extern " ++ l.render))
    ++ [line false "", line false ("global " ++ Label.start.render)]
    ++ (preamble ++ p.code ++ epilogue).map (fun i ↦ line i.isIndented i.render)
    ++ [line false "", line false "section .data", line true Directive.align.render]
    ++ (p.data.flatMap Datum.directives).map fun d ↦ line d.isIndented d.render

/-- A program as text. -/
def Program.render (p : Program) : String := String.join p.lines

end TaggedLisp.Machine
