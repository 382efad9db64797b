import Mathlib.Algebra.Group.Nat.Defs
import Mathlib.Logic.Function.Basic
import TaggedLisp.Machine.Code
import TaggedLisp.Proofs.Expr.Evaluation

/-!
# Machine states

What the instructions do to registers and memory. Memory is read and written in words, and a word is
known by the number of its first byte. Words whose numbers are not multiples of eight would overlap
others, so a machine that touches one is stuck; generated code never does.

An instruction says what it wants done as an `Action`. Where that leads, and who answers calls, is
not its concern.
-/

namespace TaggedLisp.Machine

/-- Registers, memory, and whether the last result was zero. -/
structure State where
  reg : Reg → Word
  mem : Nat → Word
  zero : Bool

namespace State

/-- Loads a register. -/
def set (σ : State) (r : Reg) (w : Word) : State := { σ with reg := Function.update σ.reg r w }

/-- Writes a word into memory. -/
def store (σ : State) (a : Nat) (w : Word) : State := { σ with mem := Function.update σ.mem a w }

/-- Remembers whether a result is zero. -/
def test (σ : State) (w : Word) : State := { σ with zero := w == 0 }

variable (σ : State) (r q : Reg) (w : Word) (a b : Nat)

@[simp] theorem reg_set_self : (σ.set r w).reg r = w := Function.update_self ..

@[simp] theorem reg_set_of_ne {r q : Reg} (h : q ≠ r) : (σ.set r w).reg q = σ.reg q :=
  Function.update_of_ne h ..

@[simp] theorem mem_set : (σ.set r w).mem = σ.mem := rfl

@[simp] theorem zero_set : (σ.set r w).zero = σ.zero := rfl

@[simp] theorem reg_store : (σ.store a w).reg = σ.reg := rfl

@[simp] theorem mem_store_self : (σ.store a w).mem a = w := Function.update_self ..

@[simp] theorem mem_store_of_ne {a b : Nat} (h : b ≠ a) : (σ.store a w).mem b = σ.mem b :=
  Function.update_of_ne h ..

@[simp] theorem reg_test : (σ.test w).reg = σ.reg := rfl

@[simp] theorem mem_test : (σ.test w).mem = σ.mem := rfl

@[simp] theorem zero_test : (σ.test w).zero = (w == 0) := rfl

/-- The top of the stack. -/
def top (σ : State) : Nat := (σ.reg .rsp).toNat

@[simp] theorem top_store : (σ.store a w).top = σ.top := rfl

@[simp] theorem top_test : (σ.test w).top = σ.top := rfl

@[simp] theorem top_set_of_ne {r : Reg} (h : Reg.rsp ≠ r) : (σ.set r w).top = σ.top := by
  rw [top, reg_set_of_ne σ w h, top]

/-- Moves the top of the stack down by some words. -/
def lower (σ : State) (words : Nat) : State := σ.set .rsp (σ.reg .rsp - BitVec.ofNat 64 (8 * words))

/-- Moves the top of the stack up by some words. -/
def raise (σ : State) (words : Nat) : State := σ.set .rsp (σ.reg .rsp + BitVec.ofNat 64 (8 * words))

@[simp] theorem mem_lower (n : Nat) : (σ.lower n).mem = σ.mem := rfl

@[simp] theorem mem_raise (n : Nat) : (σ.raise n).mem = σ.mem := rfl

@[simp] theorem reg_lower_of_ne {r : Reg} (h : r ≠ .rsp) (n : Nat) :
    (σ.lower n).reg r = σ.reg r := reg_set_of_ne σ _ h

@[simp] theorem reg_raise_of_ne {r : Reg} (h : r ≠ .rsp) (n : Nat) :
    (σ.raise n).reg r = σ.reg r := reg_set_of_ne σ _ h

theorem top_lower {n : Nat} (h : 8 * n ≤ σ.top) : (σ.lower n).top + 8 * n = σ.top := by
  simp only [top, lower, reg_set_self] at h ⊢
  bv_omega

theorem top_raise {n : Nat} (h : σ.top + 8 * n < 2 ^ 64) : (σ.raise n).top = σ.top + 8 * n := by
  simp only [top, raise, reg_set_self] at h ⊢
  bv_omega

end State

/-- The address that a register and a distance make up. -/
def Address.value (a : Address) (σ : State) : Word := σ.reg a.base + BitVec.ofInt 64 a.offset

/-- The word that an address stands for. -/
def Address.index (a : Address) (σ : State) : Nat := (a.value σ).toNat

theorem ofInt_toInt (n : Int64) : BitVec.ofInt 64 n.toInt = n.toBitVec := BitVec.ofInt_toInt

/-- Words whose addresses differ by a number of words are aligned alike. -/
theorem toNat_add_mod_eight {w : Word} (h : w.toNat % 8 = 0) (n : Int) :
    (w + BitVec.ofInt 64 (8 * n)).toNat % 8 = 0 := by
  rw [BitVec.toNat_add, BitVec.toNat_ofInt]
  omega

/-- Objects start at words that do not overlap others. -/
theorem untagged_mod_eight (w : Word) : w.untagged.toNat % 8 = 0 := by
  rw [Word.untagged, BitVec.toNat_and, show (8 : Nat) = 2 ^ 3 from rfl, Nat.and_mod_two_pow]
  exact Nat.and_zero _

/-- The address of an object leaves the bits of the tag free. -/
theorem and_mask {w : Word} (h : w.toNat % 8 = 0) : w &&& Tag.mask.toBitVec = 0#64 := by
  apply BitVec.eq_of_toNat_eq
  rw [BitVec.toNat_and, show Tag.mask.toBitVec.toNat = 2 ^ 3 - 1 from rfl,
    Nat.and_two_pow_sub_one_eq_mod]
  exact h

/-- The word of an object leads back to its address. -/
theorem untagged_tagged {w : Word} (h : w.toNat % 8 = 0) (t : Tag) :
    (w.tagged t).untagged = w := by
  have htag : (~~~Tag.mask).toBitVec &&& t.bits.toBitVec = 0#64 := by cases t <;> rfl
  have hw : (~~~Tag.mask).toBitVec &&& w = w := by
    calc (~~~Tag.mask).toBitVec &&& w
        = (w &&& (~~~Tag.mask).toBitVec) ||| (w &&& Tag.mask.toBitVec) := by
          rw [and_mask h, BitVec.or_zero, BitVec.and_comm]
      _ = w &&& ((~~~Tag.mask).toBitVec ||| Tag.mask.toBitVec) := BitVec.and_or_distrib_left.symm
      _ = w := BitVec.and_allOnes
  rw [Word.untagged, Word.tagged, BitVec.and_comm, BitVec.and_or_distrib_left, hw, htag,
    BitVec.or_zero]

theorem hasTag_tagged {w : Word} (h : w.toNat % 8 = 0) (t : Tag) :
    (w.tagged t).hasTag t = true := by
  have htag : Tag.mask.toBitVec &&& t.bits.toBitVec = t.bits.toBitVec := by cases t <;> rfl
  rw [Word.hasTag, Word.tagged, BitVec.and_comm, BitVec.and_or_distrib_left, BitVec.and_comm,
    and_mask h, htag, BitVec.zero_or, beq_self_eq_true]

/-- What a call instruction calls. -/
inductive Target where
  | label (label : Label)
  /-- The code whose address stands in a word of memory. -/
  | through (pointer : Word)
  deriving DecidableEq, Repr

/-- What an instruction does. -/
inductive Action where
  | next (after : State)
  /-- Loads a word of memory into a register. -/
  | load (index : Nat) (dest : Reg) (after : State)
  /-- Writes a word into memory. -/
  | store (index : Nat) (word : Word) (after : State)
  | jump (target : Label)
  | call (target : Target)
  | ret

/-- What an instruction does in a state, given what labels stand for. -/
def Instr.action (address : Label → Word) : Instr → State → Action
  | .label _, σ => .next σ
  | .mov r (.reg q), σ => .next (σ.set r (σ.reg q))
  | .mov r (.const n), σ => .next (σ.set r (BitVec.ofInt 64 n))
  | .mov r (.label l), σ => .next (σ.set r (address l))
  | .mov r (.memory a), σ => .load (a.index σ) r σ
  | .store a r, σ => .store (a.index σ) (σ.reg r) σ
  | .lea r a, σ => .next (σ.set r (a.value σ))
  | .clear r, σ => .next ((σ.set r 0).test 0)
  | .and r n, σ => let w := σ.reg r &&& BitVec.ofInt 64 n; .next ((σ.set r w).test w)
  | .or r n, σ => let w := σ.reg r ||| BitVec.ofInt 64 n; .next ((σ.set r w).test w)
  | .add r n, σ => let w := σ.reg r + BitVec.ofInt 64 n; .next ((σ.set r w).test w)
  | .sub r n, σ => let w := σ.reg r - BitVec.ofInt 64 n; .next ((σ.set r w).test w)
  | .cmp r n, σ => .next (σ.test (σ.reg r - BitVec.ofInt 64 n))
  | .push r, σ => .store (σ.lower 1).top (σ.reg r) (σ.lower 1)
  | .pop r, σ => .load σ.top r (σ.raise 1)
  | .jmp l, _ => .jump l
  | .je l, σ => if σ.zero then .jump l else .next σ
  | .jne l, σ => if σ.zero then .next σ else .jump l
  | .call l, _ => .call (.label l)
  | .callThrough r, σ => .call (.through (σ.reg r))
  | .ret, _ => .ret

section

variable {address : Label → Word} {σ : State} {l : Label}

theorem action_je (h : σ.zero = true) : (Instr.je l).action address σ = .jump l := if_pos h

theorem action_je_next (h : σ.zero = false) : (Instr.je l).action address σ = .next σ :=
  if_neg (Bool.eq_false_iff.mp h)

theorem action_jne (h : σ.zero = false) : (Instr.jne l).action address σ = .jump l :=
  if_neg (Bool.eq_false_iff.mp h)

theorem action_jne_next (h : σ.zero = true) : (Instr.jne l).action address σ = .next σ := if_pos h

end

/-- Words are compared by their difference. -/
theorem sub_beq_zero {w v : Word} : (w - v == 0) = decide (w = v) := by
  rw [Bool.eq_iff_iff, beq_iff_eq, decide_eq_true_iff]
  simp [BitVec.sub_eq_iff_eq_add]

end TaggedLisp.Machine
