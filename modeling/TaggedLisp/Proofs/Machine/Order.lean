import TaggedLisp.Proofs.Machine.Frames
import TaggedLisp.Proofs.Machine.Functions

/-!
# Order in frames

`Orderly` says that on every way through the code of a frame every instruction is legal and finds
the depth that was counted in the text. It is about code as a whole, since jumps are. Pieces of code
are `Tidy` if they keep order wherever they stand, and tidy pieces are put together to tidy pieces:
one behind the other, as the parts of a conditional, and as the body of a function that is jumped
over.
-/

namespace TaggedLisp.Machine

/-! ## Order in a frame -/

/-- From the place `pc` and the frame `F` on, code keeps order until it comes to an exit. -/
structure Orderly (code : List Instr) (s : Depths) (pc : Nat) (F : Cells) (Exit : Nat → Prop) :
    Prop where
  /-- An exit can be reached. -/
  exits : ∃ pc', Exit pc' ∧ Walks code pc F pc' F
  /-- On every way, the words of `F` stay, the depth is the one that was counted in the text, and
  every instruction is legal. An exit is reached with the frame as it was. -/
  walks : ∀ ⦃pc' G⦄, Walks code pc F pc' G → F <+: G ∧ G.length = depthAt s code pc' ∧
    (Exit pc' ∧ G = F ∨ ∃ i, code[pc']? = some i ∧ i.Legal F.length G)
  /-- The machine keeps the frame pointer, and has pushed what was counted. -/
  runs : ∀ ⦃S σ pc' τ⦄, Stays S code pc σ pc' τ → AtDepth F.length σ →
    τ.reg .rbp = σ.reg .rbp ∧ AtDepth (depthAt s code pc') τ

/-- Code keeps order until it comes to where `Q` holds of the place and the frame. The words of `B`
stay all the time. -/
inductive Guarded (code : List Instr) (s : Depths) (B : Cells) (Q : Nat → Cells → Prop) :
    Nat → Cells → Prop where
  | done {pc F} (base : B <+: F) (depth : F.length = depthAt s code pc) (h : Q pc F) :
      Guarded code s B Q pc F
  | step {pc F i} (base : B <+: F) (depth : F.length = depthAt s code pc)
      (hi : code[pc]? = some i) (legal : i.Legal B.length F)
      (next : ∀ pc', i.Leads code pc pc' → Guarded code s B Q pc' (i.words F)) :
      Guarded code s B Q pc F

section

variable {code : List Instr} {s : Depths} {B B' F F' G : Cells} {Q : Nat → Cells → Prop}
  {pc pc' : Nat}

theorem Guarded.bind {R : Nat → Cells → Prop} (h : Guarded code s B Q pc F)
    (hQ : ∀ pc G, Q pc G → Guarded code s B R pc G) : Guarded code s B R pc F := by
  induction h with
  | done _ _ h => exact hQ _ _ h
  | step base depth hi legal _ ih => exact .step base depth hi legal ih

theorem Guarded.imp {R : Nat → Cells → Prop} (h : Guarded code s B Q pc F)
    (hQ : ∀ pc G, Q pc G → R pc G) : Guarded code s B R pc F := by
  induction h with
  | done base depth h => exact .done base depth (hQ _ _ h)
  | step base depth hi legal _ ih => exact .step base depth hi legal ih

/-- What is legal where many words have to stay is legal where few have to. -/
theorem Instr.Legal.mono {i : Instr} {kept kept' : Nat} (h : i.Legal kept F) (hle : kept' ≤ kept) :
    i.Legal kept' F := by
  cases i with
  | store a r =>
    simp only [Instr.Legal, Address.Writable] at h ⊢
    split at h
    · obtain ⟨k, ha, hlt, hk⟩ := h
      exact ⟨k, ha, Nat.lt_of_le_of_lt hle hlt, hk⟩
    · exact h
    · trivial
  | add r n =>
    obtain ⟨hr, k, hn, hk⟩ := h
    exact ⟨hr, k, hn, by omega⟩
  | pop r => exact ⟨h.1, Nat.lt_of_le_of_lt hle h.2⟩
  | _ => exact h

theorem Guarded.mono (h : Guarded code s B Q pc F) (hB : B' <+: B) : Guarded code s B' Q pc F := by
  induction h with
  | done base depth h => exact .done (hB.trans base) depth h
  | step base depth hi legal _ ih =>
    exact .step (hB.trans base) depth hi (legal.mono hB.length_le) ih

/-- Ways end where the frame is left or the code ends. -/
theorem Guarded.walks (h : Guarded code s B Q pc F)
    (hQ : ∀ pc G, Q pc G → ∀ i, code[pc]? = some i → i = .pop .rbp) (hw : Walks code pc F pc' G) :
    Guarded code s B Q pc' G := by
  induction hw with
  | refl => exact h
  | step _ hi leads ih =>
    cases ih with
    | done _ _ h =>
      obtain rfl := hQ _ _ h _ hi
      exact absurd rfl leads.1
    | step _ _ hi' _ next =>
      obtain rfl := Option.some.inj (hi.symm.trans hi')
      exact next _ leads

theorem Guarded.orderly {Exit : Nat → Prop}
    (h : Guarded code s F (fun pc G ↦ Exit pc ∧ G = F) pc F)
    (hExit : ∀ pc, Exit pc → ∀ i, code[pc]? = some i → i = .pop .rbp)
    (hw : ∃ pc', Exit pc' ∧ Walks code pc F pc' F) : Orderly code s pc F Exit := by
  have walks : ∀ ⦃pc' G⦄, Walks code pc F pc' G → F <+: G ∧ G.length = depthAt s code pc' ∧
      (Exit pc' ∧ G = F ∨ ∃ i, code[pc']? = some i ∧ i.Legal F.length G) := by
    intro pc' G hG
    cases h.walks (fun pc G hQ ↦ hExit pc hQ.1) hG with
    | done base depth h => exact ⟨base, depth, .inl h⟩
    | step base depth hi legal _ => exact ⟨base, depth, .inr ⟨_, hi, legal⟩⟩
  refine ⟨hw, walks, fun S σ pc' τ hs hσ ↦ ?_⟩
  -- the machine takes one of the ways
  have hrun : ∃ G, Walks code pc F pc' G ∧ τ.reg .rbp = σ.reg .rbp ∧ AtDepth G.length τ := by
    induction hs with
    | refl => exact ⟨F, .refl, rfl, hσ⟩
    | @step pc' pc'' τ υ _ hpop moves ih =>
      obtain ⟨G, hG, hrbp, hτ⟩ := ih
      obtain ⟨-, -, ⟨hexit, -⟩ | ⟨i, hi, legal⟩⟩ := walks hG
      · cases hi : code[pc']? with
        | some i => exact absurd (hExit pc' hexit i hi ▸ hi) hpop
        | none =>
          rw [Moves, Machine.step, hi] at moves
          exact moves.elim
      · obtain ⟨hrbp', hυ⟩ := moves.atDepth hi legal hτ
        have hne : i ≠ .pop .rbp := fun h ↦ hpop (h ▸ hi)
        exact ⟨_, .step hG hi (moves.leads hi hne), hrbp'.trans hrbp, hυ⟩
  obtain ⟨G, hG, hrbp, hτ⟩ := hrun
  exact ⟨hrbp, (walks hG).2.1 ▸ hτ⟩

end

/-! ## Pieces of code -/

/-- A piece of code stands at a place, where the depths are `d`. -/
structure Stands (code : List Instr) (s : Depths) (pc : Nat) (c : List Instr) (d : Depths) :
    Prop where
  linkable : Linkable code
  split : ∃ before after, code = before ++ c ++ after ∧ before.length = pc ∧
    before.foldl count s = d

namespace Stands

variable {code c c' : List Instr} {s d e : Depths} {pc : Nat}

theorem left (h : Stands code s pc (c ++ c') d) : Stands code s pc c d where
  linkable := h.linkable
  split := by
    obtain ⟨before, after, rfl, hpc, hd⟩ := h.split
    exact ⟨before, c' ++ after, by simp, hpc, hd⟩

theorem right (h : Stands code s pc (c ++ c') d) (he : c.foldl count d = e) :
    Stands code s (pc + c.length) c' e where
  linkable := h.linkable
  split := by
    obtain ⟨before, after, rfl, rfl, hd⟩ := h.split
    exact ⟨before ++ c, after, by simp, List.length_append, by rw [List.foldl_append, hd, he]⟩

theorem depthAt_eq (h : Stands code s pc c d) : depthAt s code pc = d.1 := by
  obtain ⟨before, after, rfl, rfl, hd⟩ := h.split
  rw [depthAt, List.append_assoc, List.take_left, hd]

theorem getElem? {piece : List Instr} (h : Stands code s pc piece d) {j : Nat} {i : Instr}
    (hj : piece[j]? = some i) : code[pc + j]? = some i := by
  obtain ⟨before, after, rfl, rfl, -⟩ := h.split
  rw [List.append_assoc, List.getElem?_append_right (Nat.le_add_right ..), Nat.add_sub_cancel_left,
    List.getElem?_append_left (List.getElem?_eq_some_iff.mp hj).1, hj]

theorem head (h : Stands code s pc (i :: c) d) : code[pc]? = some i := h.getElem? (j := 0) rfl

theorem place_eq {l : Label} (h : Stands code s pc (.label l :: c) d) : place code l = some pc := by
  obtain ⟨before, after, hc, rfl, -⟩ := h.split
  exact h.linkable.place_eq before (c ++ after) (by simp [hc])

end Stands

/-- The frame of a function is left: its end is reached. -/
def Returns (code : List Instr) (pc : Nat) : Prop :=
  code[pc]? = some (.pop .rbp) ∧ code[pc + 1]? = some .ret

/-- The code of a function stands at a place. It saves and sets `rbp`, and then keeps order in an
empty frame until it returns. -/
structure FunctionAt (code : List Instr) (s : Depths) (pc : Nat) : Prop where
  saves : code[pc + 1]? = some (.push .rbp)
  sets : code[pc + 2]? = some (.mov .rbp (.reg .rsp))
  orderly : Orderly code s (pc + 3) [] (Returns code)

/-- Every function whose code is part of a piece keeps order, wherever the piece stands at a depth.
-/
def FunctionsIn (depth : Nat) (piece : List Instr) : Prop :=
  ∀ ⦃code s pc ds⦄, Stands code s pc piece (depth, ds) →
    ∀ ⦃j name id⦄, piece[j]? = some (.label (.code name id)) → FunctionAt code s (pc + j)

theorem FunctionsIn.append {d d' : Nat} {c c' : List Instr} (h : FunctionsIn d c)
    (hc : ∀ ds, ∃ ds', c.foldl count (d, ds) = (d', ds')) (h' : FunctionsIn d' c') :
    FunctionsIn d (c ++ c') := by
  intro code s pc ds hst j name id hj
  rcases Nat.lt_or_ge j c.length with hlt | hle
  · rw [List.getElem?_append_left hlt] at hj
    exact h hst.left hj
  · rw [List.getElem?_append_right hle] at hj
    obtain ⟨ds', hds⟩ := hc ds
    have := h' (hst.right hds) hj
    rwa [Nat.add_assoc, Nat.add_sub_cancel' hle] at this

/-- Code in which no function stands. -/
theorem FunctionsIn.none {d : Nat} {c : List Instr}
    (h : ∀ name id, Instr.label (.code name id) ∉ c) : FunctionsIn d c :=
  fun _ _ _ _ _ _ name id hj ↦ absurd (List.mem_of_getElem? hj) (h name id)

/-- Wherever a piece of code stands, it leads from the frame `F` to the frame `F'` and keeps order
on the way, while the words of `B` stay. So do the functions whose code is part of it. -/
structure Tidy (B F : Cells) (c : List Instr) (F' : Cells) : Prop where
  counts : ∀ ds, c.foldl count (F.length, ds) = (F'.length, ds)
  guarded : ∀ ⦃code s pc ds⦄, Stands code s pc c (F.length, ds) →
    Guarded code s B (fun pc' G ↦ pc' = pc + c.length ∧ G = F') pc F
  walks : ∀ ⦃code s pc ds⦄, Stands code s pc c (F.length, ds) →
    Walks code pc F (pc + c.length) F'
  functions : FunctionsIn F.length c

namespace Tidy

variable {B B' F F' F'' G : Cells} {c c' : List Instr}

theorem nil (hB : B <+: F) : Tidy B F [] F where
  counts _ := rfl
  guarded _ _ _ _ h := .done hB h.depthAt_eq.symm ⟨rfl, rfl⟩
  walks _ _ _ _ _ := .refl
  functions _ _ _ _ _ j _ _ hj := by simp at hj

theorem append (h : Tidy B F c F') (h' : Tidy B F' c' F'') : Tidy B F (c ++ c') F'' where
  counts ds := by rw [List.foldl_append, h.counts, h'.counts]
  guarded code s pc ds hst := by
    refine (h.guarded hst.left).bind ?_
    rintro _ _ ⟨rfl, rfl⟩
    rw [List.length_append, ← Nat.add_assoc]
    exact h'.guarded (hst.right (h.counts ds))
  walks code s pc ds hst := by
    rw [List.length_append, ← Nat.add_assoc]
    exact (h.walks hst.left).trans (h'.walks (hst.right (h.counts ds)))
  functions := h.functions.append (fun ds ↦ ⟨ds, h.counts ds⟩) h'.functions

/-- If many words stay then few do. -/
theorem mono (h : Tidy B F c F') (hB : B' <+: B) : Tidy B' F c F' :=
  { h with guarded := fun _ _ _ _ hst ↦ (h.guarded hst).mono hB }

end Tidy

/-! ## Instructions -/

/-- Instructions that lead to the next place only, and that start no function. -/
def Instr.isStraight : Instr → Bool
  | .label (.code _ _) | .jmp _ | .je _ | .ret => false
  | .jne l => l == .routine .error
  | _ => true

/-- Instructions that are legal in every frame, keep it, and lead to the next place only. -/
def Instr.isStill : Instr → Bool
  | .label (.code _ _) => false
  | .mov r (.memory a) => decide r.Free && decide a.base.Free
  | .mov r _ => decide r.Free
  | .store a _ => decide a.base.Free
  | .clear r | .and r _ | .or r _ => decide r.Free
  | .label _ | .cmp _ _ | .call _ | .callThrough _ => true
  | .jne l => l == .routine .error
  | _ => false

section

variable {B F F' G : Cells} {i : Instr} {c : List Instr} {code : List Instr} {kept pc pc' : Nat}

theorem Instr.leads_iff (hi : i.isStraight = true) (hl : i.Legal kept F) (hc : Linkable code) :
    i.Leads code pc pc' ↔ pc' = pc + 1 := by
  cases i with
  | jne l =>
    obtain rfl : l = .routine .error := beq_iff_eq.mp hi
    simp [Instr.Leads, hc.place_error]
  | pop r => exact and_iff_right hl.1.2
  | jmp l | je l | ret => cases hi
  | _ => exact Iff.rfl

/-- The words that have to stay are those of the frame after a legal instruction as well. -/
theorem Instr.Legal.prefix_words (h : i.Legal B.length F) (hB : B <+: F) : B <+: i.words F := by
  cases i with
  | push r => exact hB.trans (List.prefix_append _ _)
  | pop r =>
    rw [Instr.words, List.dropLast_eq_take, List.prefix_take_iff]
    have := h.2
    exact ⟨hB, by omega⟩
  | add r n =>
    obtain ⟨rfl, k, rfl, hk⟩ := h
    rw [Instr.words, List.prefix_take_iff]
    exact ⟨hB, by omega⟩
  | sub r n =>
    obtain ⟨rfl, -⟩ := h
    exact hB.trans (List.prefix_append _ _)
  | _ => exact hB

theorem Address.readable_of_free {a : Address} (h : a.base.Free) : a.Readable F := by
  rw [Address.Readable]
  split
  · next hb => exact absurd hb h.2
  · next hb => exact absurd hb h.1
  · trivial

theorem Address.writable_of_free {a : Address} (h : a.base.Free) : a.Writable kept F := by
  rw [Address.Writable]
  split
  · next hb => exact absurd hb h.2
  · next hb => exact absurd hb h.1
  · trivial

theorem Instr.isStraight_of_isStill (h : i.isStill = true) : i.isStraight = true := by
  cases i with
  | label l => cases l <;> first | rfl | cases h
  | jne l => exact h
  | _ => first | rfl | cases h

theorem Instr.legal_of_isStill (h : i.isStill = true) : i.Legal kept F := by
  cases i with
  | mov r source =>
    cases source with
    | memory a =>
      obtain ⟨hr, ha⟩ := Bool.and_eq_true_iff.mp h
      refine ⟨of_decide_eq_true hr, ?_⟩
      rintro _ ⟨⟩
      exact Address.readable_of_free (of_decide_eq_true ha)
    | _ => exact ⟨of_decide_eq_true h, nofun⟩
  | store a r => exact Address.writable_of_free (of_decide_eq_true h)
  | clear r | and r n | or r n => exact of_decide_eq_true (p := r.Free) h
  | label l | cmp r n | call l | callThrough r | jne l => trivial
  | _ => cases h

theorem Instr.words_of_isStill (h : i.isStill = true) : i.words F = F := by
  cases i with
  | push r | pop r | add r n | sub r n => cases h
  | _ => rfl

namespace Tidy

theorem instr (hi : i.isStraight = true) (hl : i.Legal B.length F) (hB : B <+: F) :
    Tidy B F [i] (i.words F) where
  counts ds := count_of_legal hl ds
  guarded code s pc ds hst := by
    refine .step hB hst.depthAt_eq.symm hst.head hl fun pc' hpc ↦ ?_
    obtain rfl := (Instr.leads_iff hi hl hst.linkable).mp hpc
    have hend : Stands code s pc ([i] ++ []) (F.length, ds) := hst
    have hdepth := (hend.right (count_of_legal hl ds)).depthAt_eq
    exact .done (hl.prefix_words hB) hdepth.symm ⟨rfl, rfl⟩
  walks code s pc ds hst :=
    .step .refl hst.head ((Instr.leads_iff hi hl hst.linkable).mpr rfl)
  functions := .none fun name id h ↦ by
    rw [← List.mem_singleton.mp h] at hi
    cases hi

theorem cons (hi : i.isStraight = true) (hl : i.Legal B.length F) (hB : B <+: F)
    (h : Tidy B (i.words F) c F') : Tidy B F (i :: c) F' := (instr hi hl hB).append h

theorem still (h : c.all Instr.isStill = true) (hB : B <+: F) : Tidy B F c F := by
  induction c with
  | nil => exact .nil hB
  | cons i c ih =>
    obtain ⟨hi, hc⟩ := Bool.and_eq_true_iff.mp h
    refine .cons (Instr.isStraight_of_isStill hi) (Instr.legal_of_isStill hi) hB ?_
    rw [Instr.words_of_isStill hi]
    exact ih hc

/-- Pushed words are behind the others. -/
theorem pushes {rs : List Reg} (hrs : Reg.rbp ∉ rs) (hB : B <+: F) :
    Tidy B F (rs.map .push) (F ++ List.replicate rs.length .held) := by
  induction rs generalizing F with
  | nil => simpa using nil hB
  | cons r rs ih =>
    obtain ⟨hr, hrs⟩ := List.ne_and_not_mem_of_not_mem_cons hrs
    refine .cons rfl hr.symm hB ?_
    have := ih hrs (hB.trans (List.prefix_append F [.held]))
    rwa [List.append_assoc, List.singleton_append, ← List.replicate_succ] at this

/-- The word of an expression is pushed. -/
theorem push (hB : B <+: F) : Tidy B F [Instr.push .rax] (F ++ [Cell.held]) :=
  pushes (show Reg.rbp ∉ [Reg.rax] by decide) hB

/-- As many words are popped as stand behind those that stay. -/
theorem pops {rs : List Reg} (hrs : ∀ r ∈ rs, r.Free) (hB : B <+: F) (hG : G.length = rs.length) :
    Tidy B (F ++ G) (rs.map .pop) F := by
  induction rs generalizing G with
  | nil =>
    obtain rfl := List.eq_nil_of_length_eq_zero hG
    simpa using nil hB
  | cons r rs ih =>
    obtain ⟨hr, hrs⟩ := List.forall_mem_cons.mp hrs
    have hne : G ≠ [] := by
      rintro rfl
      cases hG
    have hlen := hB.length_le
    refine .cons rfl ⟨hr, ?_⟩ (hB.trans (List.prefix_append F G)) ?_
    · rw [List.length_append, hG, List.length_cons]
      omega
    · rw [Instr.words, List.dropLast_append_of_ne_nil hne]
      exact ih hrs (by rw [List.length_dropLast, hG, List.length_cons, Nat.add_sub_cancel])

theorem reserve (n : Nat) (hB : B <+: F) :
    Tidy B F (Translate.reserveCode n) (F ++ List.replicate n .room) := by
  rw [Translate.reserveCode]
  split
  · next hn =>
    subst hn
    simpa using nil hB
  · have := instr (B := B) (F := F) (i := .sub .rsp (8 * n)) rfl ⟨rfl, n, rfl⟩ hB
    rwa [Instr.words, show (8 * n : Int).toNat / 8 = n by omega] at this

theorem release {n : Nat} (hB : B <+: F) (hG : G.length = n) :
    Tidy B (F ++ G) (Translate.releaseCode n) F := by
  have hlen := hB.length_le
  rw [Translate.releaseCode]
  split
  · next hn =>
    obtain rfl := List.eq_nil_of_length_eq_zero (hG.trans hn)
    simpa using nil hB
  · have hl : (Instr.add .rsp (8 * n)).Legal B.length (F ++ G) :=
      ⟨rfl, n, rfl, by rw [List.length_append]; omega⟩
    have := instr rfl hl (hB.trans (List.prefix_append F G))
    rwa [Instr.words, show (8 * n : Int).toNat / 8 = n by omega, List.length_append, hG,
      Nat.add_sub_cancel, List.take_left] at this

end Tidy

end

/-! ## Conditionals -/

/-- What stands behind the test of a conditional: the branch for anything but `true`, and behind it
the other branch. -/
private theorem Tidy.branches {B F : Cells} {id : Nat} {no yes : List Instr} (hB : B <+: F)
    (hno : Tidy B F no F) (hyes : Tidy B F yes F) :
    Tidy B F ([Instr.je (.yes id)] ++ (no ++ ([Instr.jmp (.after id)] ++
      ((Instr.label (.yes id) :: yes) ++ [Instr.label (.after id)])))) F := by
  have hlast : Tidy B F [.label (.after id)] F := .still rfl hB
  have hyes : Tidy B F (.label (.yes id) :: yes) F :=
    (Tidy.still (c := [.label (.yes id)]) rfl hB).append hyes
  have hje : ∀ ds, [Instr.je (.yes id)].foldl count (F.length, ds) = (F.length, ds) := fun _ ↦ rfl
  have hjmp : ∀ ds, [Instr.jmp (.after id)].foldl count (F.length, ds) = (F.length, ds) :=
    fun _ ↦ rfl
  constructor
  · intro ds
    rw [List.foldl_append, hje, List.foldl_append, hno.counts, List.foldl_append, hjmp,
      (hyes.append hlast).counts]
  · intro code s pc ds h
    have h₁ := h.right (hje ds)
    have h₂ := h₁.right (hno.counts ds)
    have h₃ := h₂.right (hjmp ds)
    have h₄ := h₃.right (hyes.counts ds)
    simp only [List.length_append, ← Nat.add_assoc]
    refine .step hB h.depthAt_eq.symm h.head trivial ?_
    rintro pc' (hpc | rfl)
    · obtain rfl := Option.some.inj (h₃.place_eq.symm.trans hpc)
      have := (hyes.append hlast).guarded h₃
      rwa [List.length_append, ← Nat.add_assoc] at this
    · refine (hno.guarded h₁.left).bind ?_
      rintro _ _ ⟨rfl, rfl⟩
      refine .step hB h₂.depthAt_eq.symm h₂.head trivial fun pc' hpc ↦ ?_
      obtain rfl := Option.some.inj (h₄.place_eq.symm.trans hpc)
      exact hlast.guarded h₄
  · intro code s pc ds h
    have h₃ := ((h.right (hje ds)).right (hno.counts ds)).right (hjmp ds)
    have htaken := (hyes.append hlast).walks h₃
    rw [List.length_append, List.length_append, List.length_append, ← Nat.add_assoc,
      ← Nat.add_assoc, ← Nat.add_assoc]
    exact (Walks.refl.step h.head (.inl h₃.place_eq)).trans htaken
  · have hrest := (FunctionsIn.none (by simp)).append (fun ds ↦ ⟨ds, hjmp ds⟩)
      (hyes.append hlast).functions
    exact (FunctionsIn.none (by simp)).append (fun ds ↦ ⟨ds, hje ds⟩)
      (hno.functions.append (fun ds ↦ ⟨ds, hno.counts ds⟩) hrest)

theorem Tidy.conditional {B F : Cells} {id : Nat} {test no yes : List Instr} (hB : B <+: F)
    (htest : Tidy B F test F) (hno : Tidy B F no F) (hyes : Tidy B F yes F) :
    Tidy B F (condCode id test no yes) F :=
  htest.append ((Tidy.still (c := [.cmp .rax trueWord.toInt]) rfl hB).append
    (.branches hB hno hyes))

/-! ## Functions -/

/-- The code that stands in front of the body of a function. -/
def entryCode (name : Option String) (id : Nat) : List Instr :=
  [.label (.code name id), .push .rbp, .mov .rbp (.reg .rsp)]

/-- The code that stands behind it. -/
def returnCode : List Instr := [.pop .rbp, .ret]

/-- The function keeps order, and so do those inside it. -/
private theorem functionsIn_body {d id : Nat} {name : Option String} {body : List Instr}
    (h : Tidy [] [] body []) :
    FunctionsIn d (entryCode name id ++ (body ++ returnCode)) := by
  intro code s pc ds hst j name' id' hj
  have hbody := hst.right (e := (([] : Cells).length, d :: ds)) rfl
  cases j with
  | succ j =>
    have hbodies : FunctionsIn ([] : Cells).length (body ++ returnCode) :=
      h.functions.append (fun ds ↦ ⟨ds, h.counts ds⟩) (.none (by simp [returnCode]))
    have hinner : FunctionsIn d
        ([Instr.push .rbp, .mov .rbp (.reg .rsp)] ++ (body ++ returnCode)) :=
      .append (.none (by simp)) (fun ds ↦ ⟨d :: ds, rfl⟩) hbodies
    have := hinner (Stands.right (c := [.label (.code name id)]) hst (e := (d, ds)) rfl) hj
    rwa [Nat.add_assoc, Nat.add_comm [Instr.label _].length] at this
  | zero =>
    have hend := hbody.right (h.counts (d :: ds))
    have hret : Returns code (pc + 3 + body.length) := ⟨hend.head, hend.getElem? (j := 1) rfl⟩
    refine ⟨hst.getElem? (j := 1) rfl, hst.getElem? (j := 2) rfl, Guarded.orderly ?_ ?_ ?_⟩
    · refine (h.guarded hbody.left).imp ?_
      rintro _ _ ⟨rfl, rfl⟩
      exact ⟨hret, rfl⟩
    · intro pc' hpc i hi
      exact Option.some.inj (hi.symm.trans hpc.1)
    · exact ⟨_, hret, h.walks hbody.left⟩

theorem Tidy.function {B F : Cells} {id : Nat} {name : Option String} {body make : List Instr}
    (hB : B <+: F) (hbody : Tidy [] [] body []) (hmake : Tidy B F make F) :
    Tidy B F (fnCode name id body make) F := by
  have hmake : Tidy B F ([Instr.label (.after id)] ++ make) F := (Tidy.still rfl hB).append hmake
  have hjmp : ∀ ds, [Instr.jmp (.after id)].foldl count (F.length, ds) = (F.length, ds) :=
    fun _ ↦ rfl
  have hfn : ∀ ds, (entryCode name id ++ (body ++ returnCode)).foldl count (F.length, ds)
      = (F.length, ds) := by
    intro ds
    have hstart : (entryCode name id).foldl count (F.length, ds)
        = (([] : Cells).length, F.length :: ds) := rfl
    rw [List.foldl_append, hstart, List.foldl_append, hbody.counts]
    rfl
  have hcode : fnCode name id body make = [Instr.jmp (.after id)] ++
      ((entryCode name id ++ (body ++ returnCode)) ++ ([Instr.label (.after id)] ++ make)) := by
    simp [fnCode, entryCode, returnCode]
  rw [hcode]
  constructor
  · intro ds
    rw [List.foldl_append, hjmp, List.foldl_append, hfn, hmake.counts]
  · intro code s pc ds h
    have h₂ := (h.right (hjmp ds)).right (hfn ds)
    refine .step hB h.depthAt_eq.symm h.head trivial fun pc' hpc ↦ ?_
    obtain rfl := Option.some.inj (h₂.place_eq.symm.trans hpc)
    rw [List.length_append, List.length_append, ← Nat.add_assoc, ← Nat.add_assoc]
    exact hmake.guarded h₂
  · intro code s pc ds h
    have h₂ := (h.right (hjmp ds)).right (hfn ds)
    rw [List.length_append, List.length_append, ← Nat.add_assoc, ← Nat.add_assoc]
    exact (Walks.refl.step h.head h₂.place_eq).trans (hmake.walks h₂)
  · exact (FunctionsIn.none (by simp)).append (fun ds ↦ ⟨ds, hjmp ds⟩)
      ((functionsIn_body hbody).append (fun ds ↦ ⟨ds, hfn ds⟩) hmake.functions)

end TaggedLisp.Machine
