import TaggedLisp.Proofs.Ir.Paths
import TaggedLisp.Proofs.Ir.Resolution
import TaggedLisp.Proofs.Session

/-!
# Labels and jumps of a program

No label stands twice in a program, not even in the bodies of different functions, and a jump goes
to a label that stands further down in the same block. So control runs through a block from its
start to its end, whatever its conditions come out as, and needs no more steps than the block has
statements: `jumps_arrive`.

Each conditional makes its labels of a number that it draws, and the numbers of the parts of a tree
lie in ranges that follow each other. Flattening leaves the labels of a tree in the order in which
they are met, but for those in a function that is made for nothing; dropping copies leaves all.
-/

namespace TaggedLisp.Ir

/-! ## Labels of a program -/

mutual

/-- The labels in a block and in the bodies of its functions. -/
def Block.labels : Block → List String
  | .mk stmts value => labelsOfStmts stmts ++ value.labels

def Rhs.labels : Rhs → List String
  | .func _ _ body => body.labels
  | .value _ | .tag _ _ | .untag _ | .call _ _ => []

def labelsOfStmts : List Stmt → List String
  | [] => []
  | s :: ss => s.labels ++ labelsOfStmts ss

def Stmt.labels : Stmt → List String
  | .move _ source => source.labels
  | .label l => [l]
  | .jump _ | .branch _ _ | .phi _ _ => []

end

mutual

/-- The labels in a tree and in the functions in it. -/
def Tree.labels : Tree → List String
  | .const _ | .temp _ => []
  | .tag _ e | .untag e => e.labels
  | .call callee args => labelsOfTrees args ++ callee.labels
  | .func _ captures body => labelsOfSources captures ++ body.labels
  | .after effect e => effect.labels ++ e.labels

def labelsOfTrees : List Tree → List String
  | [] => []
  | e :: es => e.labels ++ labelsOfTrees es

def labelsOfSources : List (Cell × Tree) → List String
  | [] => []
  | (_, e) :: cs => e.labels ++ labelsOfSources cs

def Effect.labels : Effect → List String
  | .move _ e | .branch e _ | .eval e => e.labels
  | .seq effects => labelsOfEffects effects
  | .label l => [l]
  | .jump _ | .phi _ _ => []

def labelsOfEffects : List Effect → List String
  | [] => []
  | s :: ss => s.labels ++ labelsOfEffects ss

end

/-- The labels in trees. -/
def Grove.labels : Grove → List String
  | tree e => e.labels
  | trees es => labelsOfTrees es

@[simp] theorem labelsOfStmts_append (c c' : List Stmt) :
    labelsOfStmts (c ++ c') = labelsOfStmts c ++ labelsOfStmts c' := by
  induction c with
  | nil => rfl
  | cons s ss ih => rw [List.cons_append, labelsOfStmts, labelsOfStmts, ih, List.append_assoc]

@[simp] theorem labelsOfStmts_move (t : Temp) (source : Rhs) :
    labelsOfStmts [.move t source] = source.labels := List.append_nil _

theorem labelsOfSources_eq (cs : List (Cell × Tree)) :
    labelsOfSources cs = labelsOfTrees (cs.map Prod.snd) := by
  induction cs with
  | nil => rfl
  | cons c cs ih => rw [labelsOfSources, List.map_cons, labelsOfTrees, ih]

/-! ## Lowering -/

/-- A lowered tree has different labels, made of its own numbers. -/
theorem Made.spelled {K : List Nat} {lo hi : Nat} {g : Grove} (h : Made K lo hi g) :
    Spelled lo hi g.labels := by
  induction h with
  | const | temp _ | nil => exact .nil (Nat.le_refl _)
  | tag _ ih | untag _ ih => exact ih
  | call _ _ ihcallee ihargs => exact (ihcallee.append ihargs).perm List.perm_append_comm
  | func _ _ hbody ihsources ihbody =>
    rw [Grove.labels, Tree.labels, Tree.labels, labelsOfSources_eq]
    exact (ihsources.widen (by omega)).append ihbody
  | cond hj _ _ _ ihtest ihyes ihno =>
    refine (((hj.spelled.append ihtest).append ihyes).append ihno).perm ?_
    simp only [Grove.labels, Lower.cond, Tree.labels, Effect.labels, labelsOfEffects,
      List.perm_iff_count]
    intro x
    simp only [List.count_append, List.count_cons, List.count_nil]
    omega
  | body _ ih => exact ih
  | bind _ _ _ ihvalue ihrest =>
    have hown := (ihvalue.widen (Nat.le_succ _)).append ihrest
    simpa [Grove.labels, Tree.labels, Effect.labels, labelsOfEffects] using hown
  | step _ _ ihe ihrest =>
    have hown := ihe.append ihrest
    simpa [Grove.labels, Tree.labels, Effect.labels, labelsOfEffects] using hown
  | name _ _ ihvalue =>
    have hown := ihvalue.widen (Nat.le_succ _)
    simpa [Grove.labels, Tree.labels, Effect.labels] using hown
  | cons _ _ ihe ihes => exact ihe.append ihes

/-! ## Flattening -/

section

variable {n n' : Nat} {e : Tree} {stmts stmts' : List Stmt} {value : Rhs} {v : Operand}

theorem labels_operand (ho : (Flatten.operand e stmts value).run n = ((stmts', v), n')) :
    (labelsOfStmts stmts').Sublist (labelsOfStmts stmts ++ value.labels) := by
  have hstaged : (labelsOfStmts (stmts ++ [Stmt.move ⟨n, none⟩ value])).Sublist
      (labelsOfStmts stmts ++ value.labels) := by simp
  cases e with
  | const c =>
    cases ho
    exact List.sublist_append_left _ _
  | temp t =>
    cases ho
    exact List.sublist_append_left _ _
  | _ =>
    cases ho
    exact hstaged

end

mutual

/-- Flattening a tree makes no labels. -/
theorem Tree.labels_flatten (e : Tree) {n n' : Nat} {stmts : List Stmt} {value : Rhs}
    (h : e.flatten.run n = ((stmts, value), n')) :
    (labelsOfStmts stmts ++ value.labels).Sublist e.labels :=
  match e with
  | .const c | .temp t => by
    cases h
    exact .refl _
  | .tag _ e | .untag e => by
    rw [Tree.flatten] at h
    obtain ⟨⟨stmts, value⟩, n₁, he, h⟩ := Flatten.run_bind_eq.mp h
    obtain ⟨⟨stmts', v⟩, n₂, ho, h⟩ := Flatten.run_bind_eq.mp h
    cases h
    have hoperand := (labels_operand ho).trans (e.labels_flatten he)
    simpa [Rhs.labels, Tree.labels] using hoperand
  | .call callee args => by
    rw [Tree.flatten] at h
    obtain ⟨⟨argStmts, vs⟩, n₁, hargs, h⟩ := Flatten.run_bind_eq.mp h
    obtain ⟨⟨stmts, value⟩, n₂, he, h⟩ := Flatten.run_bind_eq.mp h
    obtain ⟨⟨stmts', v⟩, n₃, ho, h⟩ := Flatten.run_bind_eq.mp h
    cases h
    have hoperand := (labels_operand ho).trans (callee.labels_flatten he)
    simpa [Rhs.labels, Tree.labels] using (labels_flattenOperands args hargs).append hoperand
  | .func head captures body => by
    rw [Tree.flatten] at h
    obtain ⟨⟨stmts, vs⟩, n₁, hcaptures, h⟩ := Flatten.run_bind_eq.mp h
    obtain ⟨⟨inner, value⟩, n₂, hbody, h⟩ := Flatten.run_bind_eq.mp h
    cases h
    exact (labels_flattenCaptures captures hcaptures).append (body.labels_flatten hbody)
  | .after effect e => by
    rw [Tree.flatten] at h
    obtain ⟨first, n₁, heffect, h⟩ := Flatten.run_bind_eq.mp h
    obtain ⟨⟨stmts, value⟩, n₂, he, h⟩ := Flatten.run_bind_eq.mp h
    cases h
    rw [labelsOfStmts_append, List.append_assoc]
    exact (effect.labels_flatten heffect).append (e.labels_flatten he)

theorem labels_flattenOperands (es : List Tree) {n n' : Nat} {stmts : List Stmt}
    {vs : List Operand} (h : (flattenOperands es).run n = ((stmts, vs), n')) :
    (labelsOfStmts stmts).Sublist (labelsOfTrees es) :=
  match es with
  | [] => by
    cases h
    exact .refl _
  | e :: es => by
    rw [flattenOperands] at h
    obtain ⟨⟨first, value⟩, n₁, he, h⟩ := Flatten.run_bind_eq.mp h
    obtain ⟨⟨first', v⟩, n₂, ho, h⟩ := Flatten.run_bind_eq.mp h
    obtain ⟨⟨rest, vs'⟩, n₃, hes, h⟩ := Flatten.run_bind_eq.mp h
    cases h
    rw [labelsOfStmts_append]
    exact ((labels_operand ho).trans (e.labels_flatten he)).append (labels_flattenOperands es hes)

theorem labels_flattenCaptures (cs : List (Cell × Tree)) {n n' : Nat} {stmts : List Stmt}
    {vs : List (Cell × Operand)} (h : (flattenCaptures cs).run n = ((stmts, vs), n')) :
    (labelsOfStmts stmts).Sublist (labelsOfSources cs) :=
  match cs with
  | [] => by
    cases h
    exact .refl _
  | (cell, e) :: cs => by
    rw [flattenCaptures] at h
    obtain ⟨⟨first, value⟩, n₁, he, h⟩ := Flatten.run_bind_eq.mp h
    obtain ⟨⟨first', v⟩, n₂, ho, h⟩ := Flatten.run_bind_eq.mp h
    obtain ⟨⟨rest, vs'⟩, n₃, hcs, h⟩ := Flatten.run_bind_eq.mp h
    cases h
    rw [labelsOfStmts_append]
    exact ((labels_operand ho).trans (e.labels_flatten he)).append (labels_flattenCaptures cs hcs)

theorem Effect.labels_flatten (s : Effect) {n n' : Nat} {stmts : List Stmt}
    (h : s.flatten.run n = (stmts, n')) : (labelsOfStmts stmts).Sublist s.labels :=
  match s with
  | .move t e => by
    rw [Effect.flatten] at h
    obtain ⟨⟨stmts, value⟩, n₁, he, h⟩ := Flatten.run_bind_eq.mp h
    cases h
    simpa [Effect.labels] using e.labels_flatten he
  | .seq effects => labels_flattenEffects effects h
  | .jump _ | .phi _ _ | .label _ => by
    cases h
    exact .refl _
  | .branch e l => by
    rw [Effect.flatten] at h
    obtain ⟨⟨stmts, value⟩, n₁, he, h⟩ := Flatten.run_bind_eq.mp h
    obtain ⟨⟨stmts', v⟩, n₂, ho, h⟩ := Flatten.run_bind_eq.mp h
    cases h
    have hbranch : labelsOfStmts [.branch v l] = [] := rfl
    simpa [hbranch, Effect.labels] using (labels_operand ho).trans (e.labels_flatten he)
  | .eval e => by
    rw [Effect.flatten] at h
    obtain ⟨⟨stmts, value⟩, n₁, he, h⟩ := Flatten.run_bind_eq.mp h
    cases h
    exact (List.sublist_append_left _ _).trans (e.labels_flatten he)

theorem labels_flattenEffects (ss : List Effect) {n n' : Nat} {stmts : List Stmt}
    (h : (flattenEffects ss).run n = (stmts, n')) :
    (labelsOfStmts stmts).Sublist (labelsOfEffects ss) :=
  match ss with
  | [] => by
    cases h
    exact .refl _
  | s :: ss => by
    rw [flattenEffects] at h
    obtain ⟨first, n₁, hs, h⟩ := Flatten.run_bind_eq.mp h
    obtain ⟨rest, n₂, hss, h⟩ := Flatten.run_bind_eq.mp h
    cases h
    rw [labelsOfStmts_append]
    exact (s.labels_flatten hs).append (labels_flattenEffects ss hss)

end

theorem labels_blocks {es : List Tree} {bs : List Block} {n n' : Nat}
    (h : (blocks es).run n = (bs, n')) : (bs.flatMap Block.labels).Sublist (labelsOfTrees es) := by
  induction es generalizing n bs with
  | nil =>
    cases h
    exact .refl _
  | cons e es ih =>
    rw [blocks] at h
    obtain ⟨b, n₁, hb, h⟩ := Flatten.run_bind_eq.mp h
    obtain ⟨bs, n₂, hbs, h⟩ := Flatten.run_bind_eq.mp h
    cases h
    rw [Tree.block] at hb
    obtain ⟨⟨stmts, value⟩, n₂, he, hb⟩ := Flatten.run_bind_eq.mp hb
    cases hb
    exact (e.labels_flatten he).append (ih hbs)

/-! ## Dropping copies -/

mutual

/-- No label is dropped with the copies. -/
theorem Rhs.labels_propagate (source : Rhs) (c : Copies) :
    (source.propagate.run c).1.labels = source.labels :=
  match source with
  | .value _ | .tag _ _ | .untag _ | .call _ _ => rfl
  | .func _ _ body => body.labels_propagate c

theorem Block.labels_propagate (b : Block) (c : Copies) :
    (b.propagate.run c).1.labels = b.labels :=
  match b with
  | .mk stmts value => by
    generalize hstmts : (propagateAll stmts).run c = p
    obtain ⟨stmts', c₁⟩ := p
    generalize hvalue : value.propagate.run c₁ = p
    obtain ⟨value', c₂⟩ := p
    have hstmts' := labels_propagateAll stmts c
    have hvalue' := value.labels_propagate c₁
    rw [hstmts] at hstmts'
    rw [hvalue] at hvalue'
    rw [Propagate.run_block hstmts hvalue, Block.labels, Block.labels, hstmts', hvalue']

theorem labels_propagateAll (ss : List Stmt) (c : Copies) :
    labelsOfStmts ((propagateAll ss).run c).1 = labelsOfStmts ss :=
  match ss with
  | [] => rfl
  | s :: ss => by
    generalize hs : s.propagate.run c = p
    obtain ⟨first, c₁⟩ := p
    generalize hss : (propagateAll ss).run c₁ = p
    obtain ⟨rest, c₂⟩ := p
    have hs' := s.labels_propagate c
    have hss' := labels_propagateAll ss c₁
    rw [hs] at hs'
    rw [hss] at hss'
    rw [Propagate.run_cons hs hss, labelsOfStmts_append, hs', hss', labelsOfStmts]

theorem Stmt.labels_propagate (s : Stmt) (c : Copies) :
    labelsOfStmts (s.propagate.run c).1 = s.labels :=
  match s with
  | .move t source => by
    generalize hsource : source.propagate.run c = p
    obtain ⟨source', c₁⟩ := p
    have hsource' := source.labels_propagate c
    rw [hsource] at hsource'
    rw [Stmt.propagate, Propagate.run_bind hsource, Stmt.labels, ← hsource']
    -- what is dropped is a copy, which has no labels
    split
    · split <;> rfl
    · exact labelsOfStmts_move t source'
  | .branch _ _ | .phi _ _ | .jump _ | .label _ => rfl

end

theorem labels_propagateBlocks (bs : List Block) (c : Copies) :
    ((propagateBlocks bs).run c).1.flatMap Block.labels = bs.flatMap Block.labels := by
  induction bs generalizing c with
  | nil => rfl
  | cons b bs ih =>
    generalize hb : b.propagate.run c = p
    obtain ⟨b', c₁⟩ := p
    generalize hbs : (propagateBlocks bs).run c₁ = p
    obtain ⟨bs', c₂⟩ := p
    have hb' := b.labels_propagate c
    have hbs' := ih c₁
    rw [hb] at hb'
    rw [hbs] at hbs'
    rw [propagateBlocks, Propagate.run_bind hb, Propagate.run_bind hbs, List.flatMap_cons, ← hb',
      ← hbs']
    rfl

theorem labels_withoutCopies (bs : List Block) :
    (withoutCopies bs).flatMap Block.labels = bs.flatMap Block.labels :=
  labels_propagateBlocks bs .none

/-! ## Going on -/

/-- Every jump in the block goes to a place further down, where its label stands. -/
def Block.JumpsDown (b : Block) : Prop :=
  ∀ pc s l, b.stmts[pc]? = some s → s.target = some l →
    ∃ pc' > pc, b.stmts[pc']? = some (.label l) ∧ place b.stmts l = some pc'

/-- Where control goes from the statement at `pc`, if its condition comes out as `taken`. -/
def goOn (stmts : List Stmt) (taken : Bool) (pc : Nat) : Option Nat :=
  match stmts[pc]? with
  | some (.jump l) => place stmts l
  | some (.branch _ l) => if taken then place stmts l else some (pc + 1)
  | some (.move _ _) | some (.phi _ _) | some (.label _) => some (pc + 1)
  | none => none

/-- Where control is after so many steps through the block, if the conditions on the way come out as
`outcome` says. -/
def Block.walk (b : Block) (outcome : Nat → Bool) : (steps : Nat) → Option Nat
  | 0 => some 0
  | n + 1 => do goOn b.stmts (outcome n) (← b.walk outcome n)

section

variable {stmts : List Stmt} {b : Block} {l : String} {s : Stmt} {pc pc' : Nat}

theorem place_of_label (hnodup : (stmtLabels stmts).Nodup) (h : stmts[pc]? = some (.label l)) :
    place stmts l = some pc := by
  obtain ⟨hlt, hs⟩ := List.getElem?_eq_some_iff.mp h
  have hsplit : stmts.take pc ++ .label l :: stmts.drop (pc + 1) = stmts := by
    rw [← hs, ← List.drop_eq_getElem_cons hlt, List.take_append_drop]
  have hplace := place_eq (hsplit.symm ▸ hnodup)
  rwa [hsplit, List.length_take, Nat.min_eq_left (Nat.le_of_lt hlt)] at hplace

theorem Forward.exists_label (h : Forward stmts) (hs : stmts[pc]? = some s)
    (hl : s.target = some l) : ∃ pc' > pc, stmts[pc']? = some (.label l) := by
  induction stmts generalizing pc with
  | nil => cases hs
  | cons s' ss ih =>
    cases pc with
    | zero =>
      obtain rfl : s' = s := Option.some.inj hs
      obtain ⟨pc', hpc'⟩ := List.getElem?_of_mem (mem_stmtLabels.mp (h.1 l hl))
      exact ⟨pc' + 1, Nat.succ_pos pc', hpc'⟩
    | succ pc =>
      obtain ⟨pc', hlt, hpc'⟩ := ih h.2 hs
      exact ⟨pc' + 1, Nat.succ_lt_succ hlt, hpc'⟩

theorem Block.JumpsDown.of_forward (h : Forward b.stmts) (hnodup : (stmtLabels b.stmts).Nodup) :
    b.JumpsDown := by
  intro pc s l hs hl
  obtain ⟨pc', hlt, hpc'⟩ := h.exists_label hs hl
  exact ⟨pc', hlt, hpc', place_of_label hnodup hpc'⟩

/-- Whatever a condition comes out as, control goes down, and not past the end. -/
theorem Block.JumpsDown.goOn (h : b.JumpsDown) (taken : Bool) (hpc : pc < b.stmts.length) :
    ∃ pc', goOn b.stmts taken pc = some pc' ∧ pc < pc' ∧ pc' ≤ b.stmts.length := by
  have hs : b.stmts[pc]? = some b.stmts[pc] := List.getElem?_eq_getElem hpc
  have hnext : ∃ pc', some (pc + 1) = some pc' ∧ pc < pc' ∧ pc' ≤ b.stmts.length :=
    ⟨pc + 1, rfl, Nat.lt_succ_self pc, hpc⟩
  have hjump : ∀ l, b.stmts[pc].target = some l →
      ∃ pc', place b.stmts l = some pc' ∧ pc < pc' ∧ pc' ≤ b.stmts.length := by
    intro l hl
    obtain ⟨pc', hlt, hpc', hplace⟩ := h pc _ l hs hl
    exact ⟨pc', hplace, hlt, Nat.le_of_lt (List.getElem?_eq_some_iff.mp hpc').1⟩
  rw [Ir.goOn, hs]
  generalize b.stmts[pc] = s at hjump
  cases s with
  | jump l => exact hjump l rfl
  | branch v l =>
    cases taken with
    | true => exact hjump l rfl
    | false => exact hnext
  | move | phi | label => exact hnext

/-- After `n` steps control is at the end, or it is at the place `n` at least. -/
theorem Block.JumpsDown.walk (h : b.JumpsDown) (outcome : Nat → Bool) (n : Nat) :
    (∃ steps ≤ n, b.walk outcome steps = some b.stmts.length) ∨
      ∃ pc, b.walk outcome n = some pc ∧ n ≤ pc ∧ pc < b.stmts.length := by
  induction n with
  | zero =>
    by_cases hempty : b.stmts.length = 0
    · exact .inl ⟨0, Nat.le_refl 0, congrArg some hempty.symm⟩
    · exact .inr ⟨0, rfl, Nat.le_refl 0, Nat.pos_of_ne_zero hempty⟩
  | succ n ih =>
    rcases ih with ⟨steps, hsteps, hwalk⟩ | ⟨pc, hwalk, hn, hpc⟩
    · exact .inl ⟨steps, Nat.le_succ_of_le hsteps, hwalk⟩
    · obtain ⟨pc', hgoOn, hlt, hle⟩ := h.goOn (outcome n) hpc
      have hwalk' : b.walk outcome (n + 1) = some pc' := by
        rw [Block.walk, hwalk]
        exact hgoOn
      by_cases hend : pc' = b.stmts.length
      · exact .inl ⟨n + 1, Nat.le_refl _, hend ▸ hwalk'⟩
      · exact .inr ⟨pc', hwalk', by omega, by omega⟩

/-- Control comes to the end of the block, in as many steps as it has statements at most. -/
theorem Block.JumpsDown.arrives (h : b.JumpsDown) (outcome : Nat → Bool) :
    ∃ steps ≤ b.stmts.length, b.walk outcome steps = some b.stmts.length := by
  rcases h.walk outcome b.stmts.length with harrived | ⟨pc, -, hle, hlt⟩
  · exact harrived
  · exact absurd hlt (Nat.not_lt.mpr hle)

end

/-! ## Programs -/

theorem Shaped.withoutCopies {m n n' : Nat} {bs : List Block} (h : Shaped m n bs n')
    (hm : m ≤ n) : ∃ k, Shaped m n (withoutCopies bs) k := by
  obtain ⟨bs', c', hrun, -, hshaped, -⟩ := h.propagated (.empty hm)
  obtain ⟨k, -, hk⟩ := hshaped n (Nat.le_refl n)
  have hbs' : Ir.withoutCopies bs = bs' := congrArg Prod.fst hrun
  exact ⟨k, hbs' ▸ hk⟩

/-- The blocks of a checked program, with or without copies, are of the shapes of blocks, and no
label stands twice in them. -/
theorem checked_blocks {forms : List Form} {es : List Expr} {types : TypeTable}
    (h : checkProgram forms = .ok (es, types)) (s : Session) :
    ∃ program s', (do Session.blocks (← Session.lower es)).outcome s = (.ok program, s') ∧
      (∃ m n n', Shaped m n program n') ∧ (program.flatMap Block.labels).Nodup := by
  obtain ⟨trees, l, -, hlower, -⟩ := checkProgram_lowers h s.next
  obtain ⟨hmade, -⟩ := lowerAll_made (fun e _ ↦ e.lowersMade) (Lowerer.sees_start s.next) hlower
  generalize hblocks : (blocks trees).run l.next = p
  obtain ⟨bs, k⟩ := p
  have hshaped : Shaped l.next l.next bs k := hmade.shaped (Nat.le_refl _) (Nat.le_refl _) hblocks
  have hnodup : (bs.flatMap Block.labels).Nodup :=
    (labels_blocks hblocks).nodup hmade.spelled.nodup
  have houtcome : (do Session.blocks (← Session.lower es)).outcome s
      = (.ok (if s.optimize then Ir.withoutCopies bs else bs), { s with next := k }) := by
    rw [Pass.outcome_bind, Session.outcome_lower, hlower]
    simp only [Session.outcome_blocks, hblocks]
  refine ⟨_, _, houtcome, ?_, ?_⟩
  · split
    · obtain ⟨k', hk'⟩ := hshaped.withoutCopies (Nat.le_refl _)
      exact ⟨_, _, k', hk'⟩
    · exact ⟨_, _, k, hshaped⟩
  · split
    · rw [labels_withoutCopies]
      exact hnodup
    · exact hnodup

/-- **Jumps arrive.** A checked program is lowered to blocks in which no label stands twice, with
and without copies. In each block and function body, every jump goes to its label further down, and
whatever the conditions come out as, control comes to the end. -/
theorem jumps_arrive {forms : List Form} {es : List Expr} {types : TypeTable}
    (h : checkProgram forms = .ok (es, types)) (s : Session) :
    ∃ program s', (do Session.blocks (← Session.lower es)).outcome s = (.ok program, s') ∧
      (program.flatMap Block.labels).Nodup ∧
      ∀ b ∈ program, ∀ e ∈ b.entries [], e.block.JumpsDown ∧ ∀ outcome : Nat → Bool,
        ∃ steps ≤ e.block.stmts.length,
          e.block.walk outcome steps = some e.block.stmts.length := by
  obtain ⟨program, s', houtcome, ⟨m, n, n', hshaped⟩, hnodup⟩ := checked_blocks h s
  refine ⟨program, s', houtcome, hnodup, fun b hb e he ↦ ?_⟩
  obtain ⟨n₁, n₂, hlabels, k, B, hflows, -⟩ := hshaped.entries b hb e he
  have hjumps : e.block.JumpsDown := .of_forward hflows.forward hlabels
  exact ⟨hjumps, hjumps.arrives⟩

/-- The program `(if true (if true 1 2) 3) (fn [x] (if x 1 2))`. -/
def nestedForms : List Form :=
  let symbol (name : String) : Form := .atom (.symbol name) ⟨.symbol, name, 1⟩
  let number (n : Int64) : Form := .atom (.number n) ⟨.number, toString n, 1⟩
  let yes : Form := .atom (.boolean true) ⟨.boolean true, "true", 1⟩
  let list (fs : List Form) : Form := .group .list fs ⟨.opening .list, "(", 1⟩
  let vector (fs : List Form) : Form := .group .vector fs ⟨.opening .vector, "[", 1⟩
  let choice (test : Form) : Form := list [symbol "if", test, number 1, number 2]
  [ list [symbol "if", yes, choice yes, number 3],
    list [symbol "fn", vector [symbol "x"], choice (symbol "x")] ]

/-- One conditional is a branch of another one, and one is in a function. -/
theorem nestedForms_arrive : ∃ es types, checkProgram nestedForms = .ok (es, types) ∧
    ∃ program s', (do Session.blocks (← Session.lower es)).outcome (.start true)
        = (.ok program, s') ∧
      (program.flatMap Block.labels).Nodup ∧
      ∀ b ∈ program, ∀ e ∈ b.entries [], e.block.JumpsDown ∧ ∀ outcome : Nat → Bool,
        ∃ steps ≤ e.block.stmts.length,
          e.block.walk outcome steps = some e.block.stmts.length := by
  obtain ⟨es, types, h⟩ : ∃ es types, checkProgram nestedForms = .ok (es, types) := ⟨_, _, rfl⟩
  exact ⟨es, types, h, jumps_arrive h (.start true)⟩

end TaggedLisp.Ir
