import TaggedLisp.Proofs.Machine.Execution

/-!
# Frames

What lies between `rbp` and `rsp` while a function runs, and what its instructions may do to it. The
words are of two kinds: those that were pushed, which nothing overwrites, and room that was reserved
and is written later. An instruction is `Legal` in a frame if it stays within the words that are
there, overwrites none that was pushed, and leaves `rbp` alone.

All this is about one frame. The code of a function stands in the middle of the code in which the
function is made, so the text of a program goes through several frames, and `depthAt` counts along
the text as the translator does: it takes up the outer count again where a function ends. Control
goes another way, over the code of functions and past one branch of every conditional; `Walks` is
about the ways that it may take, and `Stays` about those that the machine takes.
-/

namespace TaggedLisp.Machine

/-! ## The words of a frame -/

/-- A word of a frame. -/
inductive Cell where
  /-- A word that was pushed. -/
  | held
  /-- Room that was reserved. -/
  | room
  deriving DecidableEq, Repr

/-- The words of a frame, from `rbp` downwards. -/
abbrev Cells := List Cell

/-- The word at a depth. The first word below `rbp` is at depth one. -/
def cell (F : Cells) : (depth : Nat) → Option Cell
  | 0 => none
  | k + 1 => F[k]?

section

variable {F G : Cells} {k n : Nat} {x : Cell}

theorem bounds_of_cell (h : cell F k = some x) : 0 < k ∧ k ≤ F.length := by
  cases k with
  | zero => cases h
  | succ k => exact ⟨Nat.succ_pos k, (List.getElem?_eq_some_iff.mp h).1⟩

theorem cell_append (h : cell F k = some x) : cell (F ++ G) k = some x := by
  obtain ⟨hpos, hle⟩ := bounds_of_cell h
  cases k with
  | zero => cases h
  | succ k => exact (List.getElem?_append_left hle).trans h

theorem cell_of_prefix (hFG : F <+: G) (h : cell F k = some x) : cell G k = some x := by
  obtain ⟨H, rfl⟩ := hFG
  exact cell_append h

/-- Behind the words of `F` come equal words. -/
theorem cell_append_replicate (hlt : F.length < k) (hle : k ≤ F.length + n) :
    cell (F ++ List.replicate n x) k = some x := by
  cases k with
  | zero => cases hlt
  | succ k =>
    rw [cell, List.getElem?_append_right (by omega), List.getElem?_replicate, if_pos (by omega)]

end

/-! ## What instructions do to a frame -/

/-- The words of a frame after an instruction. -/
def Instr.words (F : Cells) : Instr → Cells
  | .push _ => F ++ [.held]
  | .pop _ => F.dropLast
  | .sub .rsp n => F ++ List.replicate (n.toNat / 8) .room
  | .add .rsp n => F.take (F.length - n.toNat / 8)
  | _ => F

/-- Registers that do not say where the frame is. -/
def Reg.Free (r : Reg) : Prop := r ≠ .rsp ∧ r ≠ .rbp

instance (r : Reg) : Decidable r.Free := inferInstanceAs (Decidable (_ ∧ _))

/-- What may be read: parameters on the stack, words that were pushed, the topmost word, and what
lies outside the stack. -/
def Address.Readable (F : Cells) (a : Address) : Prop :=
  match a.base with
  | .rbp => 16 ≤ a.offset ∨ ∃ k, a = slotAddress k ∧ cell F k = some .held
  | .rsp => a.offset = 0 ∧ F ≠ []
  | _ => True

/-- What may be written: room that was reserved, but not among the first `kept` words of the frame,
and what lies outside the stack. -/
def Address.Writable (kept : Nat) (F : Cells) (a : Address) : Prop :=
  match a.base with
  | .rbp => ∃ k, a = slotAddress k ∧ kept < k ∧ cell F k = some .room
  | .rsp => False
  | _ => True

/-- What an instruction may do in a frame whose first `kept` words have to stay. -/
def Instr.Legal (kept : Nat) (F : Cells) : Instr → Prop
  | .mov r source => r.Free ∧ ∀ a, source = .memory a → a.Readable F
  | .store a _ => a.Writable kept F
  | .lea r a => r.Free ∧ ∃ k, a = slotAddress k ∧ 0 < k ∧ k ≤ F.length
  | .clear r | .and r _ | .or r _ => r.Free
  | .add r n => r = .rsp ∧ ∃ k : Nat, n = 8 * k ∧ k + kept ≤ F.length
  | .sub r n => r = .rsp ∧ ∃ k : Nat, n = 8 * k
  | .push r => r ≠ .rbp
  | .pop r => r.Free ∧ kept < F.length
  | .ret => False
  | .label _ | .cmp _ _ | .jmp _ | .je _ | .jne _ | .call _ | .callThrough _ => True

/-! ## The depth along the text -/

/-- The depth of the frame that a place in the text is in, and those of the frames around it. -/
abbrev Depths := Nat × List Nat

/-- How the depth goes on in the text. A function starts a frame where it sets `rbp`, and ends it
where it restores `rbp`. -/
def count (s : Depths) : Instr → Depths
  | .push r => if r = .rbp then s else (s.1 + 1, s.2)
  | .pop r => if r = .rbp then (s.2.headD 0, s.2.tail) else (s.1 - 1, s.2)
  | .mov .rbp _ => (0, s.1 :: s.2)
  | .sub .rsp n => (s.1 + n.toNat / 8, s.2)
  | .add .rsp n => (s.1 - n.toNat / 8, s.2)
  | _ => s

/-- The depth at a place in the text. -/
def depthAt (s : Depths) (code : List Instr) (pc : Nat) : Nat := ((code.take pc).foldl count s).1

theorem count_of_legal {i : Instr} {kept : Nat} {F : Cells} (h : i.Legal kept F) (ds : List Nat) :
    count (F.length, ds) i = ((i.words F).length, ds) := by
  cases i with
  | push r => simp [count, Instr.words, show r ≠ .rbp from h]
  | pop r => simp [count, Instr.words, h.1.2]
  | mov r source =>
    obtain ⟨⟨-, hr⟩, -⟩ := h
    cases r <;> first | rfl | exact absurd rfl hr
  | sub r n =>
    obtain ⟨rfl, -⟩ := h
    simp [count, Instr.words]
  | add r n =>
    obtain ⟨rfl, -⟩ := h
    simp [count, Instr.words]
  | ret => exact h.elim
  | _ => rfl

/-! ## Ways through code -/

/-- Where control may go after an instruction, as far as it stays in the frame. -/
def Instr.Leads (code : List Instr) (pc pc' : Nat) : Instr → Prop
  | .jmp l => place code l = some pc'
  | .je l | .jne l => place code l = some pc' ∨ pc' = pc + 1
  | .pop r => r ≠ .rbp ∧ pc' = pc + 1
  | .ret => False
  | _ => pc' = pc + 1

/-- Control may come from the place `pc` and the frame `F` to another place, and to a frame there.
-/
inductive Walks (code : List Instr) (pc : Nat) (F : Cells) : Nat → Cells → Prop where
  | refl : Walks code pc F pc F
  | step {pc' pc'' G i} (h : Walks code pc F pc' G) (hi : code[pc']? = some i)
      (leads : i.Leads code pc' pc'') : Walks code pc F pc'' (i.words G)

theorem Walks.trans {code : List Instr} {pc pc' pc'' : Nat} {F G H : Cells}
    (h : Walks code pc F pc' G) (h' : Walks code pc' G pc'' H) : Walks code pc F pc'' H := by
  induction h' with
  | refl => exact h
  | step _ hi leads ih => exact .step ih hi leads

/-! ## What the machine does in a frame -/

/-- The top of the stack is some words below the frame pointer. -/
def AtDepth (depth : Nat) (σ : State) : Prop :=
  σ.reg .rsp = σ.reg .rbp - BitVec.ofNat 64 (8 * depth)

/-- Where a step leads. Calls come back as promised. -/
def Step.To (S : Setting) (pc : Nat) (σ : State) (pc' : Nat) (τ : State) : Step → Prop
  | .silent next after => pc' = next ∧ τ = after
  | .write _ _ after => pc' = pc + 1 ∧ τ = after
  | .call t => pc' = pc + 1 ∧ S.Allows t σ τ
  | .stop _ => False

theorem AtDepth.lower {d : Nat} {σ : State} (h : AtDepth d σ) (n : Nat) :
    (σ.lower n).reg .rbp = σ.reg .rbp ∧ AtDepth (d + n) (σ.lower n) := by
  have hrbp : (σ.lower n).reg .rbp = σ.reg .rbp := State.reg_lower_of_ne σ (by decide) n
  rw [AtDepth] at h
  refine ⟨hrbp, ?_⟩
  rw [AtDepth, hrbp, State.lower, State.reg_set_self, h, Nat.mul_add]
  bv_omega

theorem AtDepth.raise {d n : Nat} {σ : State} (h : AtDepth d σ) (hn : n ≤ d) :
    (σ.raise n).reg .rbp = σ.reg .rbp ∧ AtDepth (d - n) (σ.raise n) := by
  have hrbp : (σ.raise n).reg .rbp = σ.reg .rbp := State.reg_raise_of_ne σ (by decide) n
  obtain ⟨k, rfl⟩ := Nat.exists_eq_add_of_le' hn
  rw [AtDepth, Nat.mul_add] at h
  refine ⟨hrbp, ?_⟩
  rw [AtDepth, hrbp, State.raise, State.reg_set_self, h, Nat.add_sub_cancel]
  bv_omega

/-- The machine goes on from one place and state to another. -/
def Moves (S : Setting) (code : List Instr) (pc : Nat) (σ : State) (pc' : Nat) (τ : State) : Prop :=
  (step S code pc σ).To S pc σ pc' τ

/-- What an action leads to. -/
def Action.To (S : Setting) (σ τ : State) : Action → Prop
  | .next υ => τ = υ
  | .load i r υ => τ = υ.set r (σ.mem i)
  | .store i w υ => τ = υ.store i w
  | .jump _ => τ = σ
  | .call t => S.Allows t σ τ
  | .ret => False

section

variable {S : Setting} {code : List Instr} {pc pc' : Nat} {σ τ : State} {i : Instr}

/-- The machine follows a jump or goes to the next place. -/
private theorem Moves.action (h : Moves S code pc σ pc' τ) (hi : code[pc]? = some i) :
    (i.action S.address σ).To S σ τ ∧ ((∃ l, i.action S.address σ = .jump l ∧
      place code l = some pc') ∨ (∀ l, i.action S.address σ ≠ .jump l) ∧ pc' = pc + 1) := by
  rw [Moves, step, hi] at h
  dsimp only at h
  generalize i.action S.address σ = a at h ⊢
  cases a with
  | next υ => exact ⟨h.2, .inr ⟨by simp, h.1⟩⟩
  | load j r υ =>
    dsimp only at h
    split at h
    · exact ⟨h.2, .inr ⟨by simp, h.1⟩⟩
    · exact h.elim
  | store j w υ =>
    dsimp only at h
    split at h
    · split at h <;> exact ⟨h.2, .inr ⟨by simp, h.1⟩⟩
    · exact h.elim
  | jump l =>
    dsimp only at h
    split at h
    · next hl => exact ⟨h.2, .inl ⟨l, rfl, h.1 ▸ hl⟩⟩
    · exact h.elim
  | call t =>
    dsimp only at h
    split at h
    · exact ⟨h.2, .inr ⟨by simp, h.1⟩⟩
    · exact h.elim
  | ret => exact h.elim

/-- The machine takes one of the ways. -/
theorem Moves.leads (h : Moves S code pc σ pc' τ) (hi : code[pc]? = some i)
    (hpop : i ≠ .pop .rbp) : i.Leads code pc pc' := by
  obtain ⟨hto, hnext⟩ := h.action hi
  cases i with
  | jmp l =>
    obtain ⟨_, hl, hpc⟩ | ⟨hno, -⟩ := hnext
    · cases hl
      exact hpc
    · exact absurd rfl (hno l)
  | je l | jne l =>
    obtain ⟨_, hl, hpc⟩ | ⟨-, hpc⟩ := hnext
    · rw [Instr.action] at hl
      split at hl <;> cases hl
      exact .inl hpc
    · exact .inr hpc
  | ret => exact hto.elim
  | pop r =>
    obtain ⟨_, hl, -⟩ | ⟨-, hpc⟩ := hnext
    · cases hl
    · exact ⟨fun hr ↦ hpop (hr ▸ rfl), hpc⟩
  | mov r source =>
    obtain ⟨_, hl, -⟩ | ⟨-, hpc⟩ := hnext
    · cases source <;> cases hl
    · exact hpc
  | _ =>
    obtain ⟨_, hl, -⟩ | ⟨-, hpc⟩ := hnext
    · cases hl
    · exact hpc

private theorem atDepth_congr {d : Nat} (h : AtDepth d σ) (hrsp : τ.reg .rsp = σ.reg .rsp)
    (hrbp : τ.reg .rbp = σ.reg .rbp) : τ.reg .rbp = σ.reg .rbp ∧ AtDepth d τ :=
  ⟨hrbp, by rw [AtDepth, hrsp, hrbp]; exact h⟩

private theorem atDepth_set {d : Nat} {r : Reg} (h : AtDepth d σ) (hr : r.Free) (w : Word) :
    (σ.set r w).reg .rbp = σ.reg .rbp ∧ AtDepth d (σ.set r w) :=
  atDepth_congr h (State.reg_set_of_ne _ _ hr.1.symm) (State.reg_set_of_ne _ _ hr.2.symm)

/-- A legal instruction keeps the frame pointer and moves the top of the stack as it moves the
frame. -/
theorem Moves.atDepth {kept : Nat} {F : Cells} (h : Moves S code pc σ pc' τ)
    (hi : code[pc]? = some i) (hl : i.Legal kept F) (hσ : AtDepth F.length σ) :
    τ.reg .rbp = σ.reg .rbp ∧ AtDepth (i.words F).length τ := by
  obtain ⟨hto, -⟩ := h.action hi
  cases i with
  | mov r source =>
    cases source <;> rw [show τ = _ from hto] <;> exact atDepth_set hσ hl.1 _
  | lea r a => rw [show τ = _ from hto]; exact atDepth_set hσ hl.1 _
  | clear r => rw [show τ = _ from hto]; exact atDepth_set hσ hl _
  | and r n => rw [show τ = _ from hto]; exact atDepth_set hσ hl _
  | or r n => rw [show τ = _ from hto]; exact atDepth_set hσ hl _
  | label l => rw [show τ = _ from hto]; exact ⟨rfl, hσ⟩
  | store a r => rw [show τ = _ from hto]; exact ⟨rfl, hσ⟩
  | cmp r n => rw [show τ = _ from hto]; exact ⟨rfl, hσ⟩
  | jmp l => rw [show τ = _ from hto]; exact ⟨rfl, hσ⟩
  | je l | jne l =>
    have : τ = σ := by
      rw [Instr.action] at hto
      split at hto <;> exact hto
    rw [this]
    exact ⟨rfl, hσ⟩
  | call l =>
    have ha : S.Allows (.label l) σ τ := hto
    exact atDepth_congr hσ ha.rsp ha.rbp
  | callThrough r =>
    have ha : S.Allows (.through (σ.reg r)) σ τ := hto
    exact atDepth_congr hσ ha.rsp ha.rbp
  | ret => exact hl.elim
  | push r =>
    rw [show τ = _ from hto, Instr.words, List.length_append]
    exact hσ.lower 1
  | pop r =>
    obtain ⟨hr, hlt⟩ := hl
    obtain ⟨hrbp, hraise⟩ := hσ.raise (show 1 ≤ F.length by omega)
    obtain ⟨hset, hdepth⟩ := atDepth_set hraise hr (σ.mem σ.top)
    rw [show τ = _ from hto, Instr.words, List.length_dropLast]
    exact ⟨hset.trans hrbp, hdepth⟩
  | add r n =>
    obtain ⟨rfl, k, rfl, hk⟩ := hl
    rw [show τ = _ from hto, show (8 * k : Int) = ((8 * k : Nat) : Int) from rfl,
      BitVec.ofInt_natCast]
    have hlen : (Instr.words F (.add .rsp (8 * k))).length = F.length - k := by
      simp only [Instr.words, List.length_take]
      omega
    rw [show ((8 * k : Nat) : Int) = 8 * k from rfl, hlen]
    exact hσ.raise (by omega)
  | sub r n =>
    obtain ⟨rfl, k, rfl⟩ := hl
    rw [show τ = _ from hto, show (8 * k : Int) = ((8 * k : Nat) : Int) from rfl,
      BitVec.ofInt_natCast]
    have hlen : (Instr.words F (.sub .rsp (8 * k))).length = F.length + k := by
      simp only [Instr.words, List.length_append, List.length_replicate]
      omega
    rw [show ((8 * k : Nat) : Int) = 8 * k from rfl, hlen]
    exact hσ.lower k

/-- The machine gets from one place and state to another without leaving the frame. -/
inductive Stays (S : Setting) (code : List Instr) (pc : Nat) (σ : State) : Nat → State → Prop where
  | refl : Stays S code pc σ pc σ
  | step {pc' pc'' τ υ} (h : Stays S code pc σ pc' τ) (hpop : code[pc']? ≠ some (.pop .rbp))
      (moves : Moves S code pc' τ pc'' υ) : Stays S code pc σ pc'' υ

end

end TaggedLisp.Machine
