import TaggedLisp.Ir.Lower
import TaggedLisp.Proofs.Ir.Execution
import TaggedLisp.Proofs.Label

/-!
# How statements follow each other

The statements of a block come in a few shapes only: moves, and the two branches of a conditional
that meet in a choice, a `diamond`. `Flows` says that statements are of these shapes, and which
temporaries are known behind them: those that were known before and those that are assigned on the
way, whichever branch is taken. Only known temporaries are read, and only unknown ones are assigned.

There are two kinds of temporaries. Those of variables are numbered below a bound `m`. The others
hold steps of a computation; they are numbered from `m` on, and their numbers grow along the text,
also through the bodies of functions. So what is written further down never assigns a temporary
that is known, on any path.
-/

namespace TaggedLisp.Ir

/-! ## Diamonds -/

/-- The statements of a conditional. -/
def diamond (j : Lower.Join) (cond : Operand) (no : List Stmt) (noValue : Rhs) (yes : List Stmt)
    (yesValue : Rhs) : List Stmt :=
  .branch cond (Label.yes j.id).render :: .label (Label.no j.id).render ::
    (no ++ Stmt.move j.no noValue :: .jump (Label.after j.id).render ::
      .label (Label.yes j.id).render ::
        (yes ++ [Stmt.move j.yes yesValue, .label (Label.after j.id).render,
          .phi j.result [((Label.yes j.id).render, j.yes), ((Label.no j.id).render, j.no)]]))

section

variable {V : Type} {A : Algebra V} {j : Lower.Join} {cond : Operand} {no yes : List Stmt}
  {noValue yesValue : Rhs}

theorem stmtLabels_diamond : stmtLabels (diamond j cond no noValue yes yesValue)
    = (Label.no j.id).render :: (stmtLabels no ++ (Label.yes j.id).render ::
        (stmtLabels yes ++ [(Label.after j.id).render])) := by
  simp [diamond, stmtLabels]

theorem forward_diamond (hno : Forward no) (hyes : Forward yes) :
    Forward (diamond j cond no noValue yes yesValue) := by
  refine ⟨?_, by simp [Stmt.target], hno.append ⟨by simp [Stmt.target], ?_, by simp [Stmt.target],
    hyes.append ⟨by simp [Stmt.target], by simp [Stmt.target], by simp [Stmt.target], trivial⟩⟩⟩
  · simp [Stmt.target, stmtLabels]
  · simp [Stmt.target, stmtLabels]

theorem runStmts_label (l : String) (c : List Stmt) (ρ : Store V) :
    runStmts A (Stmt.label l :: c) ρ = runStmts A c ρ := rfl

/-- A jump goes on behind its label, past statements that do not have it. -/
theorem runStmts_jump {l : String} (h : l ∉ stmtLabels no) (rest : List Stmt) (ρ : Store V) :
    runStmts A (Stmt.jump l :: (no ++ Stmt.label l :: rest)) ρ = runStmts A rest ρ := by
  have hresume : execStmts A (Stmt.jump l :: (no ++ Stmt.label l :: rest)) ρ
      = resumeStmts A l (no ++ Stmt.label l :: rest) ρ := rfl
  rw [runStmts, hresume, resumeStmts_append h, resumeStmts_label]
  rfl

theorem runStmts_branch {l : String} (h : l ∉ stmtLabels no) (cond : Operand) (rest : List Stmt)
    (ρ : Store V) :
    runStmts A (Stmt.branch cond l :: (no ++ Stmt.label l :: rest)) ρ
      = .ask (.branch (A.isTrue (cond.eval A ρ))) fun _ ↦
        if A.isTrue (cond.eval A ρ) then runStmts A rest ρ
        else runStmts A (no ++ Stmt.label l :: rest) ρ := by
  have hresume : execStmts A (Stmt.branch cond l :: (no ++ Stmt.label l :: rest)) ρ
      = .ask (.branch (A.isTrue (cond.eval A ρ))) fun _ ↦
        if A.isTrue (cond.eval A ρ) then resumeStmts A l (no ++ Stmt.label l :: rest) ρ
        else execStmts A (no ++ Stmt.label l :: rest) ρ := by
    rw [execStmts, Stmt.exec, Dialogue.ask_bind]
    refine congrArg _ (funext fun _ ↦ ?_)
    cases A.isTrue (cond.eval A ρ) <;> rfl
  rw [runStmts, hresume, resumeStmts_append h, resumeStmts_label, Dialogue.ask_bind]
  refine congrArg _ (funext fun _ ↦ ?_)
  cases A.isTrue (cond.eval A ρ) <;> rfl

theorem runStmts_phi (t : Temp) (sources : List (String × Temp)) (c : List Stmt) (ρ : Store V) :
    runStmts A (Stmt.phi t sources :: c) ρ =
      match ρ.choose sources with
      | some v => runStmts A c (ρ.set t v)
      | none => .stop := by
  rw [runStmts, execStmts, Stmt.exec]
  cases ρ.choose sources <;> rfl

/-- One branch of a conditional is run, and its word is chosen. -/
theorem runStmts_diamond (hno : Forward no) (hyes : Forward yes)
    (hnoLabels : (Label.yes j.id).render ∉ stmtLabels no)
    (hyesLabels : (Label.after j.id).render ∉ stmtLabels yes) (ρ : Store V) :
    runStmts A (diamond j cond no noValue yes yesValue) ρ
      = .ask (.branch (A.isTrue (cond.eval A ρ))) fun _ ↦
        (if A.isTrue (cond.eval A ρ) then do
          let ρ ← runStmts A yes ρ
          return ρ.set j.yes (← yesValue.eval A ρ)
        else do
          let ρ ← runStmts A no ρ
          return ρ.set j.no (← noValue.eval A ρ)) >>= runStmts A
            [.phi j.result [((Label.yes j.id).render, j.yes), ((Label.no j.id).render, j.no)]] := by
  have hyesNo : (Label.yes j.id).render ≠ (Label.no j.id).render :=
    Label.render_ne trivial trivial (by simp)
  have hyesAfter : (Label.after j.id).render ≠ (Label.yes j.id).render :=
    Label.render_ne trivial trivial (by simp)
  -- the other branch is passed, up to the label that is jumped to
  have hpassed : (Label.yes j.id).render ∉ stmtLabels (Stmt.label (Label.no j.id).render ::
      (no ++ [Stmt.move j.no noValue, .jump (Label.after j.id).render])) := by
    simpa [stmtLabels, hyesNo] using hnoLabels
  have hskipped : (Label.after j.id).render ∉ stmtLabels (Stmt.label (Label.yes j.id).render ::
      (yes ++ [Stmt.move j.yes yesValue])) := by
    simpa [stmtLabels, hyesAfter] using hyesLabels
  have hbranch := runStmts_branch (A := A) hpassed cond
    (yes ++ [Stmt.move j.yes yesValue, .label (Label.after j.id).render,
      .phi j.result [((Label.yes j.id).render, j.yes), ((Label.no j.id).render, j.no)]]) ρ
  have hjump := runStmts_jump (A := A) hskipped
    [Stmt.phi j.result [((Label.yes j.id).render, j.yes), ((Label.no j.id).render, j.no)]]
  simp only [List.cons_append, List.append_assoc, List.nil_append] at hbranch hjump
  rw [diamond, hbranch]
  refine congrArg _ (funext fun _ ↦ ?_)
  split
  · rw [runStmts_append hyes, Dialogue.bind_assoc]
    refine congrArg _ (funext fun ρ ↦ ?_)
    simp only [runStmts_move, runStmts_label, Dialogue.bind_assoc, Dialogue.pure_eq_done,
      Dialogue.done_bind]
  · rw [runStmts_label, runStmts_append hno, Dialogue.bind_assoc]
    refine congrArg _ (funext fun ρ ↦ ?_)
    simp only [runStmts_move, hjump, Dialogue.bind_assoc, Dialogue.pure_eq_done,
      Dialogue.done_bind]

end

/-! ## Shapes of statements -/

/-- An operand that reads a known temporary at most. -/
def Operand.Known (B : List Nat) : Operand → Prop
  | const _ => True
  | temp t => t.id ∈ B

/-- A temporary of a variable that is not known yet. -/
structure Fresh (m : Nat) (B : List Nat) (t : Temp) : Prop where
  hint : t.isSynthetic = false
  lt : t.id < m
  notMem : t.id ∉ B

/-- What the body of a function knows: the captured variables and the parameters. -/
def innerIds {α : Type} (head : FuncHead) (captures : List (Cell × α)) : List Nat :=
  captures.map (·.1.slot.id) ++ head.params.map Temp.id

/-- A part of a block. -/
inductive Part where
  | rhs (source : Rhs)
  | stmts (stmts : List Stmt)

/-- A part of a block that is run where `B` is known, and behind which `B'` is. The temporaries
without a hint in it, also those in the bodies of functions, are numbered from `n` on and below
`n'`. -/
inductive Flows (m : Nat) : (n : Nat) → (B : List Nat) → Part → (n' : Nat) → (B' : List Nat) →
    Prop where
  | value {n B v} (hv : v.Known B) : Flows m n B (.rhs (.value v)) n B
  | tag {n B g v} (hv : v.Known B) : Flows m n B (.rhs (.tag g v)) n B
  | untag {n B v} (hv : v.Known B) : Flows m n B (.rhs (.untag v)) n B
  | call {n B callee args} (hcallee : callee.Known B) (hargs : ∀ v ∈ args, v.Known B) :
      Flows m n B (.rhs (.call callee args)) n B
  | func {n n₁ n' B B₁ head captures stmts value} (hcaptures : ∀ c ∈ captures, c.2.Known B)
      (hinner : ∀ x ∈ innerIds head captures, x < m) (hlabels : (stmtLabels stmts).Nodup)
      (hstmts : Flows m n (innerIds head captures) (.stmts stmts) n₁ B₁)
      (hvalue : Flows m n₁ B₁ (.rhs value) n' B₁) :
      Flows m n B (.rhs (.func head captures (.mk stmts value))) n' B
  | nil {n B} : Flows m n B (.stmts []) n B
  | assign {n n₁ n' B B' t source ss} (hsource : Flows m n B (.rhs source) n₁ B)
      (ht : Fresh m B t) (hrest : Flows m n₁ (t.id :: B) (.stmts ss) n' B') :
      Flows m n B (.stmts (.move t source :: ss)) n' B'
  | staged {n n₁ n' B B' id source ss} (hsource : Flows m n B (.rhs source) n₁ B) (hid : n₁ ≤ id)
      (hrest : Flows m (id + 1) (id :: B) (.stmts ss) n' B') :
      Flows m n B (.stmts (.move ⟨id, none⟩ source :: ss)) n' B'
  | cond {n n₁ n₂ n₃ n₄ n' B B₁ B₂ B' j v no noValue yes yesValue ss} (hv : v.Known B)
      (hno : Flows m n B (.stmts no) n₁ B₁) (hnoValue : Flows m n₁ B₁ (.rhs noValue) n₂ B₁)
      (hyes : Flows m n₂ B (.stmts yes) n₃ B₂) (hyesValue : Flows m n₃ B₂ (.rhs yesValue) n₄ B₂)
      (hjno : Fresh m B j.no) (hjyes : Fresh m B j.yes) (hjresult : Fresh m B j.result)
      (hnoLabels : (Label.yes j.id).render ∉ stmtLabels no)
      (hyesLabels : (Label.after j.id).render ∉ stmtLabels yes)
      (hrest : Flows m n₄ (j.result.id :: B) (.stmts ss) n' B') :
      Flows m n B (.stmts (diamond j v no noValue yes yesValue ++ ss)) n' B'

section

variable {m n n₁ n' : Nat} {B B₁ B' : List Nat} {p : Part} {c c' : List Stmt} {source : Rhs}

theorem Operand.Known.mono {v : Operand} (h : v.Known B) (hB : B ⊆ B') : v.Known B' := by
  cases v with
  | const c => trivial
  | temp t => exact hB h

namespace Flows

theorem append (h : Flows m n B (.stmts c) n₁ B₁) (h' : Flows m n₁ B₁ (.stmts c') n' B') :
    Flows m n B (.stmts (c ++ c')) n' B' := by
  generalize hp : Part.stmts c = p at h
  induction h generalizing c with
  | value | tag | untag | call | func => cases hp
  | nil =>
    cases hp
    exact h'
  | assign hsource ht hrest _ ih =>
    cases hp
    exact .assign hsource ht (ih h' rfl)
  | staged hsource hid hrest _ ih =>
    cases hp
    exact .staged hsource hid (ih h' rfl)
  | cond hv hno hnoValue hyes hyesValue hjno hjyes hjresult hnoLabels hyesLabels hrest _ _ _ _ ih =>
    cases hp
    rw [List.append_assoc]
    exact .cond hv hno hnoValue hyes hyesValue hjno hjyes hjresult hnoLabels hyesLabels (ih h' rfl)

/-- Numbers grow along the text. -/
theorem le (h : Flows m n B p n' B') : n ≤ n' := by
  induction h with
  | value | tag | untag | call | nil => exact Nat.le_refl _
  | func _ _ _ _ _ ih₁ ih₂ => exact Nat.le_trans ih₁ ih₂
  | assign _ _ _ ih₁ ih₂ => exact Nat.le_trans ih₁ ih₂
  | staged _ hid _ ih₁ ih₂ => omega
  | cond _ _ _ _ _ _ _ _ _ _ _ ih₁ ih₂ ih₃ ih₄ ih₅ => omega

/-- What is known stays known. -/
theorem subset (h : Flows m n B p n' B') : B ⊆ B' := by
  induction h with
  | value | tag | untag | call | func | nil => exact List.Subset.refl _
  | assign _ _ _ _ ih => exact List.subset_of_cons_subset ih
  | staged _ _ _ _ ih => exact List.subset_of_cons_subset ih
  | cond _ _ _ _ _ _ _ _ _ _ _ _ _ _ _ ih => exact List.subset_of_cons_subset ih

/-- Temporaries that are known have numbers that were drawn. -/
theorem lt (h : Flows m n B p n' B') (hm : m ≤ n) (hB : ∀ x ∈ B, x < n) : ∀ x ∈ B', x < n' := by
  induction h with
  | value | tag | untag | call | nil => exact hB
  | func _ _ _ hstmts hvalue =>
    have hle := Nat.le_trans hstmts.le hvalue.le
    exact fun x hx ↦ Nat.lt_of_lt_of_le (hB x hx) hle
  | assign hsource ht _ _ ih =>
    have hle := hsource.le
    refine ih (Nat.le_trans hm hle) (List.forall_mem_cons.mpr ⟨?_, fun x hx ↦ ?_⟩)
    · exact Nat.lt_of_lt_of_le ht.lt (Nat.le_trans hm hle)
    · exact Nat.lt_of_lt_of_le (hB x hx) hle
  | staged hsource hid _ _ ih =>
    have hle := hsource.le
    refine ih (by omega) (List.forall_mem_cons.mpr ⟨Nat.lt_succ_self _, fun x hx ↦ ?_⟩)
    have := hB x hx
    omega
  | cond _ hno hnoValue hyes hyesValue _ _ hjresult _ _ _ _ _ _ _ ih =>
    have hle := Nat.le_trans hno.le
      (Nat.le_trans hnoValue.le (Nat.le_trans hyes.le hyesValue.le))
    refine ih (Nat.le_trans hm hle) (List.forall_mem_cons.mpr ⟨?_, fun x hx ↦ ?_⟩)
    · exact Nat.lt_of_lt_of_le hjresult.lt (Nat.le_trans hm hle)
    · exact Nat.lt_of_lt_of_le (hB x hx) hle

theorem forward (h : Flows m n B (.stmts c) n' B') : Forward c := by
  generalize hp : Part.stmts c = p at h
  induction h generalizing c with
  | value | tag | untag | call | func => cases hp
  | nil =>
    cases hp
    trivial
  | assign _ _ _ _ ih =>
    cases hp
    exact ⟨by simp [Stmt.target], ih rfl⟩
  | staged _ _ _ _ ih =>
    cases hp
    exact ⟨by simp [Stmt.target], ih rfl⟩
  | cond _ _ _ _ _ _ _ _ _ _ _ ihno _ ihyes _ ih =>
    cases hp
    exact (forward_diamond (ihno rfl) (ihyes rfl)).append (ih rfl)

end Flows

end

end TaggedLisp.Ir
