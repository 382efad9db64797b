import TaggedLisp.Label

/-!
# Machine code

The instructions of the 64-bit machine that programs are translated to, as far as they are used, and
the data that code refers to.
-/

namespace TaggedLisp.Machine

/-- The registers in use. -/
inductive Reg where
  | rax
  | rcx
  | rdx
  | rsi
  | rdi
  | r8
  | r9
  | r11
  | rsp
  | rbp
  deriving DecidableEq, Repr, Inhabited

/-- The memory word at a distance in bytes from where a register points. -/
structure Address where
  base : Reg
  offset : Int
  deriving DecidableEq, Repr, Inhabited

/-- What a register can be loaded with. -/
inductive Source where
  | reg (reg : Reg)
  | const (value : Int)
  | label (label : Label)
  | memory (address : Address)
  deriving DecidableEq, Repr, Inhabited

/-- An instruction, or a label before one. -/
inductive Instr where
  | label (label : Label)
  /-- Loads a register. -/
  | mov (dest : Reg) (source : Source)
  /-- Stores a register into memory. -/
  | store (dest : Address) (source : Reg)
  /-- Loads a register with an address. -/
  | lea (dest : Reg) (source : Address)
  /-- Sets a register to zero. -/
  | clear (reg : Reg)
  | and (reg : Reg) (value : Int)
  | or (reg : Reg) (value : Int)
  | add (reg : Reg) (value : Int)
  | sub (reg : Reg) (value : Int)
  | cmp (reg : Reg) (value : Int)
  | push (reg : Reg)
  | pop (reg : Reg)
  | jmp (target : Label)
  /-- Jumps when the last comparison found equality. -/
  | je (target : Label)
  /-- Jumps when the last comparison found a difference. -/
  | jne (target : Label)
  | call (target : Label)
  /-- Calls the code whose address stands in the word that the register points to. -/
  | callThrough (reg : Reg)
  | ret
  deriving DecidableEq, Repr, Inhabited

/-- A piece of data under a label, which starts at a multiple of eight bytes. -/
inductive Datum where
  /-- The text of a string. -/
  | text (label : Label) (value : String)
  /-- The closure of a function without captures. -/
  | closure (label code : Label)
  deriving DecidableEq, Repr, Inhabited

/-- What the assembler is asked to put into the data section. -/
inductive Directive where
  | label (label : Label)
  /-- A number in eight bytes. -/
  | number (value : Nat)
  /-- The address of a label in eight bytes. -/
  | address (label : Label)
  /-- Bytes; at least one. -/
  | bytes (values : List UInt8)
  /-- Nothing, up to the next multiple of eight bytes. -/
  | align
  deriving DecidableEq, Repr, Inhabited

/-- The directives for a piece of data. A text is its length in bytes, the bytes, and what fills
them up to whole words. -/
def Datum.directives : Datum → List Directive
  | text l s =>
    let bytes := s.toUTF8.toList
    [.label l, .number bytes.length] ++ (if bytes.isEmpty then [] else [.bytes bytes]) ++ [.align]
  | closure l code => [.label l, .address code]

/-- The code and the data of a program. -/
structure Program where
  code : List Instr
  data : List Datum
  deriving DecidableEq, Repr, Inhabited

end TaggedLisp.Machine
