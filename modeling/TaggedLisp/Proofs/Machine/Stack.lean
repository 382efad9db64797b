import Mathlib.Algebra.GroupWithZero.Nat
import TaggedLisp.Proofs.Machine.Emission

/-!
# The stack

Pieces of code push words, go on, and pop the words again. What every piece has to keep is said by
`Keeps`: registers that are still needed, and the words of memory that calls keep too. The words
that were pushed lie above the top of the stack and so are kept by all that follows.

The stack must not run into the memory below it. A piece of code lowers the top of the stack by at
most one word for each instruction that pushes, and by what is reserved at once; `room` adds this
up.
-/

namespace TaggedLisp.Machine

variable {S : Setting} {σ τ υ : State}

/-! ## What a piece of code keeps -/

/-- Between two states, the top of the stack moves down by some words, and the frame pointer, some
registers and the memory that calls keep stay as they are. -/
structure Keeps (S : Setting) (live : List Reg) (words : Nat) (σ τ : State) : Prop where
  top : τ.top + 8 * words = σ.top
  rbp : τ.reg .rbp = σ.reg .rbp
  live : ∀ r ∈ live, τ.reg r = σ.reg r
  mem : ∀ a, S.Safe σ a → τ.mem a = σ.mem a

namespace Keeps

variable {live live' : List Reg} {k n : Nat}

theorem refl : Keeps S live 0 σ σ := ⟨rfl, rfl, fun _ _ ↦ rfl, fun _ _ ↦ rfl⟩

theorem safe (h : Keeps S live k σ τ) {a : Nat} (ha : S.Safe σ a) : S.Safe τ a := by
  have := h.top
  exact ha.imp_right fun ha ↦ by omega

theorem trans (h : Keeps S live k σ τ) (h' : Keeps S live n τ υ) : Keeps S live (k + n) σ υ where
  top := by rw [← h.top, ← h'.top]; omega
  rbp := h'.rbp.trans h.rbp
  live r hr := (h'.live r hr).trans (h.live r hr)
  mem a ha := (h'.mem a (h.safe ha)).trans (h.mem a ha)

theorem mono (h : Keeps S live k σ τ) (hlive : live' ⊆ live) : Keeps S live' k σ τ :=
  { h with live := fun r hr ↦ h.live r (hlive hr) }

/-- Other registers may be loaded. -/
theorem set (h : Keeps S live k σ τ) {r : Reg} (hr : r ∉ .rsp :: .rbp :: live) (w : Word) :
    Keeps S live k σ (τ.set r w) where
  top := by
    rw [State.top_set_of_ne _ _ (by rintro rfl; simp at hr)]
    exact h.top
  rbp := by
    rw [State.reg_set_of_ne _ _ (by rintro rfl; simp at hr)]
    exact h.rbp
  live q hq := by
    have hne : q ≠ r := fun h ↦ hr (by simp [← h, hq])
    rw [State.reg_set_of_ne _ _ hne, h.live q hq]
  mem := h.mem

theorem test (h : Keeps S live k σ τ) (w : Word) : Keeps S live k σ (τ.test w) :=
  ⟨h.top, h.rbp, h.live, h.mem⟩

/-- Words are taken from the stack. -/
theorem raise (h : Keeps S live (k + n) σ τ) (hlive : Reg.rsp ∉ live) :
    Keeps S live k σ (τ.raise n) where
  top := by
    have hlt : σ.top < 2 ^ 64 := (σ.reg .rsp).isLt
    have htop := h.top
    have hraise := τ.top_raise (n := n) (by omega)
    omega
  rbp := by
    rw [State.reg_raise_of_ne _ (by decide)]
    exact h.rbp
  live r hr := by
    have hne : r ≠ .rsp := fun h ↦ hlive (h ▸ hr)
    rw [State.reg_raise_of_ne _ hne, h.live r hr]
  mem := h.mem

/-- Memory between the two tops and outside the objects in use may be written. -/
theorem store (h : Keeps S live k σ τ) {a : Nat} {w : Word} (ha : ¬ S.Safe σ a) :
    Keeps S live k σ (τ.store a w) where
  top := h.top
  rbp := h.rbp
  live := h.live
  mem b hb := by
    rw [State.mem_store_of_ne, h.mem b hb]
    rintro rfl
    exact ha hb

end Keeps

/-- The free part of the stack is not kept by calls. -/
theorem Setting.not_safe {a : Nat} (hfloor : S.floor ≤ a) (ha : a < σ.top) : ¬ S.Safe σ a := by
  rintro (hkept | hle)
  · exact Nat.not_le.mpr (S.kept_lt_floor a hkept) hfloor
  · exact Nat.not_le.mpr ha hle

/-! ## Registers -/

/-- The registers that hold intermediate results. -/
def scratch : List Reg := [.rax, .r11]

/-- The registers that a call has to save. -/
theorem Activation.liveRegisters_subset (a : Activation) :
    a.liveRegisters ⊆ .rdi :: argRegisters := by
  rw [Activation.liveRegisters]
  split
  · exact List.cons_subset_cons _ (List.take_subset _ _)
  · exact List.nil_subset _

theorem Activation.not_mem_of_mem_liveRegisters (a : Activation) {r : Reg}
    (hr : r ∈ a.liveRegisters) : r ∉ Reg.rsp :: .rbp :: scratch := by
  have hall : ∀ r ∈ Reg.rdi :: argRegisters, r ∉ Reg.rsp :: .rbp :: scratch := by decide
  exact hall r (a.liveRegisters_subset hr)

theorem Activation.rsp_not_mem (a : Activation) : Reg.rsp ∉ a.liveRegisters :=
  fun h ↦ a.not_mem_of_mem_liveRegisters h (by simp)

/-- Intermediate results may change, and nothing else. -/
structure Changes (σ τ : State) : Prop where
  reg : ∀ r, r ∉ scratch → τ.reg r = σ.reg r
  mem : τ.mem = σ.mem

namespace Changes

variable {r : Reg} {w : Word}

theorem refl : Changes σ σ := ⟨fun _ _ ↦ rfl, rfl⟩

theorem set (h : Changes σ τ) (hr : r ∈ scratch) : Changes σ (τ.set r w) where
  reg q hq := by
    have hqr : q ≠ r := fun hqr ↦ hq (hqr ▸ hr)
    rw [State.reg_set_of_ne τ w hqr, h.reg q hq]
  mem := h.mem

theorem test (h : Changes σ τ) : Changes σ (τ.test w) := ⟨h.reg, h.mem⟩

theorem rax (h : Changes σ τ) : Changes σ (τ.set .rax w) := h.set (by decide)

theorem r11 (h : Changes σ τ) : Changes σ (τ.set .r11 w) := h.set (by decide)

theorem top (h : Changes σ τ) : τ.top = σ.top := by
  rw [State.top, State.top, h.reg _ (by decide)]

theorem keeps (h : Changes σ τ) (a : Activation) : Keeps S a.liveRegisters 0 σ τ where
  top := h.top
  rbp := h.reg _ (by decide)
  live r hr := h.reg r fun hs ↦ a.not_mem_of_mem_liveRegisters hr (by simp [hs])
  mem a _ := by rw [h.mem]

end Changes

/-- A call keeps the stack, and no other registers. -/
theorem Setting.Allows.keeps {t : Target} (h : S.Allows t σ τ) : Keeps S [] 0 σ τ where
  top := by rw [State.top, State.top, h.rsp]; rfl
  rbp := h.rbp
  live := by simp
  mem := h.mem

/-! ## Room -/

/-- By how many words an instruction may lower the top of the stack, and at least one. -/
def Instr.room : Instr → Nat
  | .sub .rsp n => n.toNat / 8
  | _ => 1

/-- By how many words a piece of code may lower the top of the stack, at most. -/
def room (c : List Instr) : Nat := (c.map Instr.room).sum

@[simp] theorem room_nil : room [] = 0 := rfl

@[simp] theorem room_cons (i : Instr) (c : List Instr) : room (i :: c) = i.room + room c := rfl

@[simp] theorem room_append (c c' : List Instr) : room (c ++ c') = room c + room c' := by
  simp [room]

@[simp] theorem room_pushes (rs : List Reg) : room (rs.map .push) = rs.length := by
  induction rs with
  | nil => rfl
  | cons r rs ih => simp [ih, Instr.room, Nat.add_comm]

@[simp] theorem room_reserveCode (n : Nat) : room (Translate.reserveCode n) = n := by
  rw [Translate.reserveCode]
  split
  · next h => simp [h]
  · simp only [room_cons, room_nil, Instr.room]
    omega

/-- There is enough stack for a piece of code. -/
def Setting.Fits (S : Setting) (c : List Instr) (σ : State) : Prop := S.floor + 8 * room c ≤ σ.top

theorem Setting.Fits.left {c c' : List Instr} (h : S.Fits (c ++ c') σ) : S.Fits c σ := by
  rw [Fits, room_append] at h
  rw [Fits]
  omega

/-- What a piece of code pushes is no more than its room. -/
theorem Setting.Fits.right {c c' : List Instr} {live : List Reg} {k : Nat}
    (h : S.Fits (c ++ c') σ) (hτ : Keeps S live k σ τ) (hk : k ≤ room c) : S.Fits c' τ := by
  rw [Fits, room_append] at h
  have := hτ.top
  rw [Fits]
  omega

/-! ## Words on the stack -/

/-- Words stand side by side in memory. -/
def Stored (σ : State) (a : Nat) (ws : List Word) : Prop :=
  ∀ i w, ws[i]? = some w → σ.mem (a + 8 * i) = w

theorem Stored.nil {a : Nat} : Stored σ a [] := by simp [Stored]

theorem Stored.cons {a : Nat} {w : Word} {ws : List Word} (h : σ.mem a = w)
    (hs : Stored σ (a + 8) ws) : Stored σ a (w :: ws) := by
  rintro (_ | i) v hv
  · rw [← Option.some.inj hv]
    exact h
  · have := hs i v hv
    rwa [Nat.add_assoc, Nat.add_comm 8, ← Nat.mul_succ] at this

theorem Stored.append {a : Nat} {ws ws' : List Word} (h : Stored σ a ws)
    (h' : Stored σ (a + 8 * ws.length) ws') : Stored σ a (ws ++ ws') := by
  intro i w hw
  rcases Nat.lt_or_ge i ws.length with hi | hi
  · rw [List.getElem?_append_left hi] at hw
    exact h i w hw
  · rw [List.getElem?_append_right hi] at hw
    have := h' _ w hw
    rwa [show a + 8 * ws.length + 8 * (i - ws.length) = a + 8 * i by omega] at this

theorem Stored.right {a : Nat} {ws ws' : List Word} (h : Stored σ a (ws ++ ws')) :
    Stored σ (a + 8 * ws.length) ws' := by
  intro i w hw
  have := h (ws.length + i) w (by rw [List.getElem?_append_right (Nat.le_add_right ..)]; simpa)
  rwa [Nat.mul_add, ← Nat.add_assoc] at this

theorem Stored.congr {a : Nat} {ws : List Word} (h : Stored σ a ws)
    (hτ : ∀ i, i < ws.length → τ.mem (a + 8 * i) = σ.mem (a + 8 * i)) : Stored τ a ws :=
  fun i w hw ↦ (hτ i (List.getElem?_eq_some_iff.mp hw).1).trans (h i w hw)

/-! ## Code that moves the top of the stack -/

namespace Executes

variable {α β : Type} {c c' : List Instr} {d : Evaluation α} {Q : α → State → Prop}

/-- Code that asks nothing, and then more code. -/
theorem andThen {P : Unit → State → Prop} (h : Executes S c σ (.done ()) P)
    (rest : ∀ τ, P () τ → Executes S c' τ d Q) : Executes S (c ++ c') σ d Q :=
  h.bind fun _ τ hP ↦ rest τ hP

/-- Code that asks nothing, and then a result. -/
theorem andDone {P : Unit → State → Prop} {a : α} (h : Executes S c σ (.done ()) P)
    (ha : ∀ τ, P () τ → Q a τ) : Executes S c σ (.done a) Q := by
  have hnil : ∀ τ, P () τ → Executes S [] τ (.done a) Q := fun τ hP ↦ .nil (ha τ hP)
  have := h.andThen hnil
  rwa [List.append_nil] at this

/-- A result is made of another one. -/
theorem map {R : β → State → Prop} {f : α → β} (h : Executes S c σ d Q)
    (hf : ∀ a τ, Q a τ → R (f a) τ) : Executes S c σ (d >>= fun a ↦ .done (f a)) R := by
  have hnil : ∀ a τ, Q a τ → Executes S [] τ (.done (f a)) R := fun a τ hQ ↦ .nil (hf a τ hQ)
  have := h.bind hnil
  rwa [List.append_nil] at this

/-- Pushed words stand on the stack, the last one on top. -/
theorem pushes (rs : List Reg) (hrs : Reg.rsp ∉ rs) (hal : σ.top % 8 = 0)
    (hroom : S.floor + 8 * rs.length ≤ σ.top) :
    Executes S (rs.map .push) σ (.done ()) fun _ τ ↦
      τ.top + 8 * rs.length = σ.top ∧ (∀ r, r ≠ .rsp → τ.reg r = σ.reg r) ∧
        (∀ a, a < τ.top ∨ σ.top ≤ a → τ.mem a = σ.mem a) ∧
        Stored τ τ.top (rs.map σ.reg).reverse := by
  induction rs generalizing σ with
  | nil => exact .nil ⟨rfl, fun _ _ ↦ rfl, fun _ _ ↦ rfl, .nil⟩
  | cons r rs ih =>
    obtain ⟨hr, hrs⟩ := List.ne_and_not_mem_of_not_mem_cons hrs
    rw [List.length_cons] at hroom
    have htop : (σ.lower 1).top + 8 = σ.top := σ.top_lower (by omega)
    refine .store rfl (by omega) (by omega) ?_
    refine (ih hrs (by simp; omega) (by simp; omega)).mono ?_
    rintro _ τ ⟨hτ, hreg, hmem, hst⟩
    rw [State.top_store] at hτ hmem
    refine ⟨by rw [List.length_cons]; omega, fun q hq ↦ ?_, fun a ha ↦ ?_, ?_⟩
    · rw [hreg q hq, State.reg_store, State.reg_lower_of_ne _ hq]
    · rw [hmem a (by omega), State.mem_store_of_ne _ _ (by omega), State.mem_lower]
    · rw [List.map_cons, List.reverse_cons]
      have hregs : rs.map ((σ.lower 1).store (σ.lower 1).top (σ.reg r)).reg = rs.map σ.reg :=
        List.map_congr_left fun q hq ↦ State.reg_lower_of_ne σ (fun h ↦ hrs (h ▸ hq)) 1
      rw [hregs] at hst
      refine hst.append (.cons ?_ .nil)
      rw [List.length_reverse, List.length_map, hτ, hmem _ (Or.inr (Nat.le_refl _)),
        State.mem_store_self]

/-- Words that stand on the stack are popped into registers. -/
theorem pops (rs : List Reg) (hrs : Reg.rsp ∉ rs) (v : Reg → Word) (hal : σ.top % 8 = 0)
    (hlt : σ.top + 8 * rs.length < 2 ^ 64) (hst : Stored σ σ.top (rs.map v)) :
    Executes S (rs.map .pop) σ (.done ()) fun _ τ ↦
      τ.top = σ.top + 8 * rs.length ∧ (∀ r, r ∉ rs → r ≠ .rsp → τ.reg r = σ.reg r) ∧
        (∀ r ∈ rs, τ.reg r = v r) ∧ τ.mem = σ.mem := by
  induction rs generalizing σ with
  | nil => exact .nil ⟨rfl, fun _ _ _ ↦ rfl, by simp, rfl⟩
  | cons r rs ih =>
    obtain ⟨hr, hrs⟩ := List.ne_and_not_mem_of_not_mem_cons hrs
    rw [List.length_cons] at hlt
    have hraise : (σ.raise 1).top = σ.top + 8 := σ.top_raise (by omega)
    have htop : ((σ.raise 1).set r (σ.mem σ.top)).top = σ.top + 8 := by
      rw [State.top_set_of_ne _ _ hr, hraise]
    refine .load rfl hal ?_
    refine (ih hrs (by omega) (by omega) ?_).mono ?_
    · rw [htop]
      have hst : Stored σ σ.top ([v r] ++ rs.map v) := hst
      exact hst.right
    · rintro _ τ ⟨hτ, hreg, hpop, hmem⟩
      refine ⟨by rw [List.length_cons]; omega, fun q hq hne ↦ ?_, fun q hq ↦ ?_, hmem⟩
      · obtain ⟨hqr, hq⟩ := List.ne_and_not_mem_of_not_mem_cons hq
        rw [hreg q hq hne, State.reg_set_of_ne _ _ hqr, State.reg_raise_of_ne _ hne]
      · by_cases hqrs : q ∈ rs
        · exact hpop q hqrs
        · obtain rfl : q = r := (List.mem_cons.mp hq).resolve_right hqrs
          rw [hreg q hqrs hr.symm, State.reg_set_self]
          exact hst 0 (v q) rfl

theorem reserve (n : Nat) (hroom : 8 * n ≤ σ.top) :
    Executes S (Translate.reserveCode n) σ (.done ()) fun _ τ ↦
      τ.top + 8 * n = σ.top ∧ (∀ r, r ≠ .rsp → τ.reg r = σ.reg r) ∧ τ.mem = σ.mem := by
  rw [Translate.reserveCode]
  split
  · next hn => exact .nil ⟨by simp [hn], fun _ _ ↦ rfl, rfl⟩
  · have hsub : BitVec.ofInt 64 (8 * n : Int) = BitVec.ofNat 64 (8 * n) :=
      BitVec.ofInt_natCast 64 (8 * n)
    refine .next rfl (.nil ⟨?_, fun r hr ↦ ?_, rfl⟩)
    · rw [State.top_test, hsub]
      exact σ.top_lower hroom
    · rw [State.reg_test, State.reg_set_of_ne _ _ hr]

theorem release (n : Nat) (hlt : σ.top + 8 * n < 2 ^ 64) :
    Executes S (Translate.releaseCode n) σ (.done ()) fun _ τ ↦
      τ.top = σ.top + 8 * n ∧ (∀ r, r ≠ .rsp → τ.reg r = σ.reg r) ∧ τ.mem = σ.mem := by
  rw [Translate.releaseCode]
  split
  · next hn => exact .nil ⟨by simp [hn], fun _ _ ↦ rfl, rfl⟩
  · have hadd : BitVec.ofInt 64 (8 * n : Int) = BitVec.ofNat 64 (8 * n) :=
      BitVec.ofInt_natCast 64 (8 * n)
    refine .next rfl (.nil ⟨?_, fun r hr ↦ ?_, rfl⟩)
    · rw [State.top_test, hadd]
      exact σ.top_raise hlt
    · rw [State.reg_test, State.reg_set_of_ne _ _ hr]

/-- Registers are saved. -/
theorem saved (live : List Reg) (hrsp : Reg.rsp ∉ live) (hal : σ.top % 8 = 0)
    (hroom : S.floor + 8 * live.length ≤ σ.top) :
    Executes S (live.map .push) σ (.done ()) fun _ τ ↦
      Keeps S live live.length σ τ ∧ Stored τ τ.top (live.map σ.reg).reverse := by
  refine (pushes live hrsp hal hroom).mono ?_
  rintro _ τ ⟨htop, hreg, hmem, hst⟩
  refine ⟨?_, hst⟩
  refine ⟨htop, hreg _ (by simp), fun r hr ↦ hreg r fun h ↦ hrsp (h ▸ hr), fun a ha ↦ hmem a ?_⟩
  by_contra hout
  exact Setting.not_safe (by omega) (by omega) ha

/-- Registers that a piece of code may change are saved around it. -/
theorem saving (act : Activation) {P : α → Word → Prop} (hal : σ.top % 8 = 0)
    (hroom : S.floor + 8 * act.liveRegisters.length ≤ σ.top)
    (h : ∀ τ, Keeps S act.liveRegisters act.liveRegisters.length σ τ →
      Executes S c τ d fun a υ ↦ Keeps S [] 0 τ υ ∧ P a (υ.reg .rax)) :
    Executes S (act.liveRegisters.map .push ++ (c ++ act.liveRegisters.reverse.map .pop)) σ d
      fun a υ ↦ Keeps S act.liveRegisters 0 σ υ ∧ P a (υ.reg .rax) := by
  have hlive : ∀ r ∈ act.liveRegisters, r ∉ [Reg.rsp, .rbp, .rax] := by
    intro r hr hmem
    refine act.not_mem_of_mem_liveRegisters hr ?_
    revert hmem
    cases r <;> decide
  generalize act.liveRegisters = live at hroom h hlive ⊢
  have hrsp : Reg.rsp ∉ live := fun h ↦ hlive _ h (by simp)
  refine andThen (saved live hrsp hal hroom) ?_
  rintro τ ⟨hτ, hst⟩
  have htop := hτ.top
  rw [← Dialogue.bind_done d]
  refine (h τ hτ).bind ?_
  rintro a υ ⟨hυ, ha⟩
  have hυtop : υ.top = τ.top := hυ.top
  have hstυ : Stored υ υ.top (live.reverse.map σ.reg) := by
    rw [hυtop, List.map_reverse]
    exact hst.congr fun i _ ↦ hυ.mem _ (Or.inr (Nat.le_add_right ..))
  have hlt : σ.top < 2 ^ 64 := (σ.reg .rsp).isLt
  refine andDone (pops live.reverse (by simpa) σ.reg (by omega) (by simp; omega) hstυ) ?_
  rintro ω ⟨hωtop, hωreg, hωpop, hωmem⟩
  have hrest : ∀ r ∈ [Reg.rbp, .rax], ω.reg r = υ.reg r := by
    intro r hr
    refine hωreg r (fun h ↦ hlive r (List.mem_reverse.mp h) (List.mem_cons_of_mem _ hr)) ?_
    rintro rfl
    simp at hr
  rw [List.length_reverse] at hωtop
  refine ⟨⟨by omega, ?_, fun r hr ↦ hωpop r (by simpa), fun a ha ↦ ?_⟩, ?_⟩
  · rw [hrest _ (by simp), hυ.rbp, hτ.rbp]
  · rw [hωmem, hυ.mem a (hτ.safe ha), hτ.mem a ha]
  · rw [hrest _ (by simp)]
    exact ha

end Executes

end TaggedLisp.Machine
