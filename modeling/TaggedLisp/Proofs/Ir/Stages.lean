import TaggedLisp.Ir.Flatten
import TaggedLisp.Proofs.Ir.Lowering

/-!
# Statements that stage words

A tree is flattened to statements that leave its parts in operands. `Stages` says of such statements
all that is needed to go on behind them: which numbers they use, that they are of the shapes of
`Flows`, and that they do what the tree does and leave its words in the operands.

An operand that is already a temporary is not copied, so its word must survive the statements that
follow before it is read. It does because those statements only assign temporaries of their own:
variables of their own range, and steps that were numbered later.
-/

namespace TaggedLisp.Ir

/-! ## Computations that ask nothing -/

/-- A computation on an operand that asks nothing. -/
inductive Simple where
  | value (operand : Operand)
  | tag (tag : Tag) (operand : Operand)
  | untag (operand : Operand)

namespace Simple

/-- What a simple computation reads. -/
def operand : Simple → Operand
  | value v | tag _ v | untag v => v

/-- A simple computation as a computation. -/
def rhs : Simple → Rhs
  | value v => .value v
  | tag g v => .tag g v
  | untag v => .untag v

section

variable {V : Type} (A : Algebra V) (ρ : Store V)

/-- The word of a simple computation. -/
def word : Simple → V
  | value v => v.eval A ρ
  | tag g v => A.tag g (v.eval A ρ)
  | untag v => A.untag (v.eval A ρ)

theorem eval_rhs (s : Simple) : s.rhs.eval A ρ = .done (s.word A ρ) := by
  cases s <;> rfl

end

@[simp] theorem bodies_rhs (s : Simple) : s.rhs.bodies = [] := by
  cases s <;> rfl

theorem flows {m n : Nat} {B : List Nat} {s : Simple} (h : s.operand.Known B) :
    Flows m n B (.rhs s.rhs) n B := by
  cases s with
  | value v => exact .value h
  | tag g v => exact .tag h
  | untag v => exact .untag h

end Simple

/-! ## Regions -/

/-- The numbers of what a part assigns: its variables, from `lo` on and below `hi`, and its steps,
from `first` on and below `last`. -/
structure Region where
  lo : Nat
  hi : Nat
  first : Nat
  last : Nat

/-- Whether a number is in a region. -/
def Region.Has (r : Region) (x : Nat) : Prop := r.lo ≤ x ∧ x < r.hi ∨ r.first ≤ x ∧ x < r.last

/-- Stores that agree on all variables. -/
structure Agrees {V : Type} (m : Nat) (ρ ρ' : Store V) : Prop where
  initial : ρ.initial = ρ'.initial
  assigned : ∀ x < m, ρ.assigned x = ρ'.assigned x

/-- The block is that of a tree that was lowered with numbers below `m`. -/
def IsBlockOf (m : Nat) (e : Tree) (b : Block) : Prop :=
  ∃ K lo hi n n', Made K lo hi (.tree e) ∧ (∀ x ∈ K, x < lo) ∧ hi ≤ m ∧ m ≤ n ∧
    e.block.run n = (b, n')

section

variable {V : Type} {A : Algebra V} {m lo mid hi n n₁ n' : Nat} {K K' K₁ : List Nat} {r : Region}
  {ρ ρ' σ : Store V} {t : Temp} {v : Operand} {w : V}

theorem Agrees.get (h : Agrees m ρ ρ') (ht : t.id < m) : ρ.get t = ρ'.get t := by
  rw [Store.get, Store.get, h.assigned _ ht, h.initial]

theorem Agrees.set (h : Agrees m ρ ρ') : Agrees m (ρ.set t w) (ρ'.set t w) where
  initial := h.initial
  assigned x hx := by
    by_cases hxt : x = t.id
    · rw [hxt, Store.assigned_set_self, Store.assigned_set_self]
    · rw [Store.assigned_set_of_ne _ _ _ hxt, Store.assigned_set_of_ne _ _ _ hxt, h.assigned x hx]

/-- Steps are none of the variables. -/
theorem Agrees.set_step (h : Agrees m ρ ρ') (ht : m ≤ t.id) : Agrees m ρ (ρ'.set t w) where
  initial := h.initial
  assigned x hx := by
    rw [Store.assigned_set_of_ne _ _ _ (by omega), h.assigned x hx]

/-- The word of an operand depends on what is known only. -/
theorem Operand.eval_congr (hv : v.Known K) (hinitial : σ.initial = ρ.initial)
    (h : ∀ x ∈ K, σ.assigned x = ρ.assigned x) : v.eval A σ = v.eval A ρ := by
  cases v with
  | const c => rfl
  | temp t => rw [Operand.eval, Operand.eval, Store.get, Store.get, h _ hv, hinitial]

theorem Simple.word_congr {s : Simple} (hs : s.operand.Known K) (hinitial : σ.initial = ρ.initial)
    (h : ∀ x ∈ K, σ.assigned x = ρ.assigned x) : s.word A σ = s.word A ρ := by
  have := Operand.eval_congr (A := A) hs hinitial h
  cases s <;> simp only [Simple.word, Simple.operand] at this ⊢ <;> rw [this]

end

/-! ## Staging -/

/-- What the statements of a part leave behind: the words of a computation, stores that agree, and
an unchanged store outside the region. -/
structure Staged {V : Type} (A : Algebra V) (m : Nat) (r : Region) (ss : List Simple)
    (ρ : Store V) (result : List V × Store V) (σ : Store V) : Prop where
  words : ss.map (·.word A σ) = result.1
  agrees : Agrees m result.2 σ
  initial : σ.initial = ρ.initial
  frame : ∀ x, ¬ r.Has x → σ.assigned x = ρ.assigned x

/-- Statements that leave the words of a computation `c` in some operands, where `K` is known at
first and `K'` is at the end. The functions that they make are those with the bodies `es`. -/
structure Stages {V : Type} (A : Algebra V) (m : Nat) (K : List Nat) (r : Region)
    (c : Store V → Run V (List V × Store V)) (es : List Tree) (stmts : List Stmt)
    (ss : List Simple) (K' : List Nat) : Prop where
  le : r.first ≤ r.last
  labels : Spelled r.lo r.hi (stmtLabels stmts)
  subset : K ⊆ K'
  known : ∀ s ∈ ss, s.operand.Known K'
  /-- Much more may be known around the statements, but nothing of what they assign. -/
  flows : ∀ B, K ⊆ B → (∀ x ∈ B, x < r.lo ∨ r.hi ≤ x) →
    ∃ B', K' ⊆ B' ∧ Flows m r.first B (.stmts stmts) r.last B' ∧ ∀ x ∈ B', x ∈ B ∨ r.Has x
  runs : ∀ ρ ρ', Agrees m ρ ρ' → (∀ x, r.lo ≤ x → x < r.hi → ρ'.assigned x = none) →
    Dialogue.Rel False (Staged A m r ss ρ') (c ρ) (runStmts A stmts ρ')
  bodies : List.Forall₂ (IsBlockOf m) es (bodiesOfStmts stmts)

/-- The word of a tree, in a list. -/
def single {V : Type} (A : Algebra V) (e : Tree) (ρ : Store V) : Run V (List V × Store V) := do
  let (v, ρ) ← e.eval A ρ
  return ([v], ρ)

/-- The one word of a list. -/
def only {V : Type} : List V → Run V V
  | [v] => .done v
  | _ => .stop

/-- The words of one computation and those of another one behind it. -/
def inTurn {V : Type} (c c' : Store V → Run V (List V × Store V)) (ρ : Store V) :
    Run V (List V × Store V) := do
  let (vs, ρ) ← c ρ
  let (vs', ρ) ← c' ρ
  return (vs ++ vs', ρ)

@[simp] theorem bodiesOfStmts_append (c c' : List Stmt) :
    bodiesOfStmts (c ++ c') = bodiesOfStmts c ++ bodiesOfStmts c' := by
  induction c with
  | nil => rfl
  | cons s ss ih => rw [List.cons_append, bodiesOfStmts, bodiesOfStmts, ih, List.append_assoc]

namespace Stages

section

variable {V : Type} {A : Algebra V} {m lo lo₁ lo₂ mid hi hi₁ hi₂ n n₁ n₂ : Nat}
  {K K₁ K₂ : List Nat} {r : Region} {c c₁ c₂ : Store V → Run V (List V × Store V)}
  {es es₁ es₂ : List Tree} {stmts stmts₁ stmts₂ : List Stmt} {ss ss₁ ss₂ : List Simple}

/-- What is known at the end was known at first, or it is in the region. -/
theorem own (h : Stages A m K r c es stmts ss K₁) (hK : ∀ x ∈ K, x < r.lo) :
    ∀ x ∈ K₁, x ∈ K ∨ r.Has x := by
  obtain ⟨B', hsub, -, hown⟩ := h.flows K (List.Subset.refl _) fun x hx ↦ .inl (hK x hx)
  exact fun x hx ↦ hown x (hsub hx)

theorem forward (h : Stages A m K r c es stmts ss K₁) (hK : ∀ x ∈ K, x < r.lo) :
    Forward stmts := by
  obtain ⟨B', -, hflows, -⟩ := h.flows K (List.Subset.refl _) fun x hx ↦ .inl (hK x hx)
  exact hflows.forward

theorem of_eq (h : Stages A m K r c es stmts ss K₁) (hc : ∀ ρ, c ρ = c₁ ρ) :
    Stages A m K r c₁ es stmts ss K₁ :=
  { h with runs := fun ρ ρ' hρ hnone ↦ hc ρ ▸ h.runs ρ ρ' hρ hnone }

theorem nil (hlo : lo ≤ hi) :
    Stages A m K ⟨lo, hi, n, n⟩ (fun ρ ↦ .done ([], ρ)) [] [] [] K where
  le := Nat.le_refl _
  labels := .nil hlo
  subset := List.Subset.refl _
  known := List.forall_mem_nil _
  flows B hB _ := ⟨B, hB, .nil, fun _ hx ↦ .inl hx⟩
  runs _ _ hρ _ := .done ⟨rfl, hρ, rfl, fun _ _ ↦ rfl⟩
  bodies := .nil

/-- A word that is in an operand already needs no statements. -/
theorem atom {e : Tree} {v : Operand} (hv : v.Known K)
    (he : ∀ ρ ρ' : Store V, Agrees m ρ ρ' → e.eval A ρ = .done (v.eval A ρ', ρ)) :
    Stages A m K ⟨lo, lo, n, n⟩ (single A e) [] [] [.value v] K where
  le := Nat.le_refl _
  labels := .nil (Nat.le_refl _)
  subset := List.Subset.refl _
  known := List.forall_mem_singleton.mpr hv
  flows B hB _ := ⟨B, hB, .nil, fun x hx ↦ .inl hx⟩
  runs ρ ρ' hρ _ := by
    rw [single, he ρ ρ' hρ]
    exact .done ⟨rfl, hρ, rfl, fun _ _ ↦ rfl⟩
  bodies := .nil

/-- Of two parts with ranges that follow each other in some order, the second one comes behind the
first one. It may read what the first one left, and leaves the operands of the first one alone. -/
theorem append (h₁ : Stages A m K ⟨lo₁, hi₁, n, n₁⟩ c₁ es₁ stmts₁ ss₁ K₁)
    (h₂ : Stages A m K₂ ⟨lo₂, hi₂, n₁, n₂⟩ c₂ es₂ stmts₂ ss₂ K') (hsub : K₂ ⊆ K₁)
    (hK : ∀ x ∈ K, x < lo) (hm : hi ≤ m) (hn : m ≤ n)
    (horder : lo₁ = lo ∧ hi₁ = lo₂ ∧ hi₂ = hi ∨ lo₂ = lo ∧ hi₂ = lo₁ ∧ hi₁ = hi) :
    Stages A m K ⟨lo, hi, n, n₂⟩ (inTurn c₁ c₂) (es₁ ++ es₂) (stmts₁ ++ stmts₂) (ss₁ ++ ss₂)
      (K₁ ++ K') := by
  have hle₁ := h₁.le
  have hle₂ := h₂.le
  have hlo₁ := h₁.labels.le
  have hlo₂ := h₂.labels.le
  simp only at hle₁ hle₂ hlo₁ hlo₂
  have hK₁ : ∀ x ∈ K, x < lo₁ := fun x hx ↦ by have := hK x hx; omega
  have hhas₁ : ∀ x, Region.Has ⟨lo₁, hi₁, n, n₁⟩ x → Region.Has ⟨lo, hi, n, n₂⟩ x := by
    simp only [Region.Has]
    omega
  have hhas₂ : ∀ x, Region.Has ⟨lo₂, hi₂, n₁, n₂⟩ x → Region.Has ⟨lo, hi, n, n₂⟩ x := by
    simp only [Region.Has]
    omega
  -- the second part assigns nothing that is known behind the first one
  have hkept : ∀ x ∈ K₁, ¬ Region.Has ⟨lo₂, hi₂, n₁, n₂⟩ x := by
    intro x hx
    rcases h₁.own hK₁ x hx with hx | hx
    · have := hK x hx
      simp only [Region.Has]
      omega
    · simp only [Region.Has] at hx ⊢
      omega
  constructor
  · exact Nat.le_trans hle₁ hle₂
  · rw [stmtLabels_append]
    rcases horder with ⟨rfl, rfl, rfl⟩ | ⟨rfl, rfl, rfl⟩
    · exact h₁.labels.append h₂.labels
    · exact (h₂.labels.append h₁.labels).perm List.perm_append_comm
  · exact List.subset_append_of_subset_left _ h₁.subset
  · intro s hs
    rcases List.mem_append.mp hs with hs | hs
    · exact (h₁.known s hs).mono (List.subset_append_left _ _)
    · exact (h₂.known s hs).mono (List.subset_append_right _ _)
  · intro B hB hclear
    obtain ⟨B₁, hsub₁, hflows₁, hown₁⟩ := h₁.flows B hB fun x hx ↦ by
      have := hclear x hx
      simp only at this ⊢
      omega
    obtain ⟨B₂, hsub₂, hflows₂, hown₂⟩ := h₂.flows B₁ (List.Subset.trans hsub hsub₁) fun x hx ↦ by
      rcases hown₁ x hx with hx | hx
      · have := hclear x hx
        simp only at this ⊢
        omega
      · simp only [Region.Has] at hx ⊢
        omega
    refine ⟨B₂, List.append_subset.mpr ⟨List.Subset.trans hsub₁ hflows₂.subset, hsub₂⟩,
      hflows₁.append hflows₂, fun x hx ↦ ?_⟩
    rcases hown₂ x hx with hx | hx
    · exact (hown₁ x hx).imp_right (hhas₁ x)
    · exact .inr (hhas₂ x hx)
  · intro ρ ρ' hρ hnone
    rw [runStmts_append (h₁.forward hK₁)]
    refine (h₁.runs ρ ρ' hρ fun x hx hx' ↦ hnone x ?_ ?_).bind ?_
    · simp only at hx ⊢
      omega
    · simp only at hx' ⊢
      omega
    rintro ⟨ws₁, ρ₁⟩ σ₁ ⟨hwords₁, hagrees₁, hinitial₁, hframe₁⟩
    refine (h₂.runs ρ₁ σ₁ hagrees₁ fun x hx hx' ↦ ?_).map ?_
    · rw [hframe₁ x]
      · refine hnone x ?_ ?_ <;> simp only at hx hx' ⊢ <;> omega
      · simp only [Region.Has] at hx hx' ⊢
        omega
    rintro ⟨ws₂, ρ₂⟩ σ₂ ⟨hwords₂, hagrees₂, hinitial₂, hframe₂⟩
    have hsame : ss₁.map (·.word A σ₂) = ss₁.map (·.word A σ₁) :=
      List.map_congr_left fun s hs ↦ Simple.word_congr (h₁.known s hs) hinitial₂
        fun x hx ↦ hframe₂ x (hkept x hx)
    refine ⟨?_, hagrees₂, hinitial₂.trans hinitial₁, fun x hx ↦ ?_⟩
    · rw [List.map_append, hsame, hwords₁, hwords₂]
    · rw [hframe₂ x (mt (hhas₂ x) hx), hframe₁ x (mt (hhas₁ x) hx)]
  · rw [bodiesOfStmts_append]
    exact List.rel_append h₁.bodies h₂.bodies

/-- Numbers may be left unused. -/
theorem widen (h : Stages A m K ⟨lo, mid, n, n₁⟩ c es stmts ss K₁) (hK : ∀ x ∈ K, x < lo)
    (hm : hi ≤ m) (hn : m ≤ n) (hhi : mid ≤ hi) :
    Stages A m K ⟨lo, hi, n, n₁⟩ c es stmts ss (K₁ ++ K) := by
  have happend := h.append (.nil hhi) h.subset hK hm hn (.inl ⟨rfl, rfl, rfl⟩)
  simp only [List.append_nil] at happend
  refine happend.of_eq fun ρ ↦ (congrArg (c ρ >>= ·) (funext fun p ↦ ?_)).trans
    (Dialogue.bind_done (c ρ))
  simp

/-- Words of the same operands need no other statements. -/
theorem map (h : Stages A m K r c es stmts ss K₁) (ss₁ : List Simple) (f : List V → List V)
    (hknown : ∀ s ∈ ss₁, s.operand.Known K₁)
    (hf : ∀ σ, ss₁.map (·.word A σ) = f (ss.map (·.word A σ))) :
    Stages A m K r (fun ρ ↦ do
      let (ws, ρ) ← c ρ
      return (f ws, ρ)) es stmts ss₁ K₁ where
  le := h.le
  labels := h.labels
  subset := h.subset
  known := hknown
  flows := h.flows
  runs ρ ρ' hρ hnone := (h.runs ρ ρ' hρ hnone).map fun _ σ hp ↦
    ⟨(hf σ).trans (congrArg f hp.words), hp.agrees, hp.initial, hp.frame⟩
  bodies := h.bodies

/-- What is computed from some words is kept in a step. -/
theorem stage (h : Stages A m K ⟨lo, hi, n, n₁⟩ c es₁ stmts ss K₁) (hK : ∀ x ∈ K, x < lo)
    (hn : m ≤ n) (source : Rhs) (act : List V → Run V V)
    (hact : ∀ σ, Dialogue.Rel False (· = ·) (act (ss.map (·.word A σ))) (source.eval A σ))
    (hsource : ∀ B, K₁ ⊆ B → Flows m n₁ B (.rhs source) n₂ B)
    (hbodies : List.Forall₂ (IsBlockOf m) es₂ source.bodies) :
    Stages A m K ⟨lo, hi, n, n₂ + 1⟩ (fun ρ ↦ do
      let (ws, ρ) ← c ρ
      let w ← act ws
      return ([w], ρ)) (es₁ ++ es₂) (stmts ++ [Stmt.move ⟨n₂, none⟩ source])
      [.value (.temp ⟨n₂, none⟩)] (n₂ :: K₁) := by
  have hle₁ : n ≤ n₁ := h.le
  have hle₂ : n₁ ≤ n₂ := (hsource K₁ (List.Subset.refl _)).le
  have hhas : ∀ x, Region.Has ⟨lo, hi, n, n₁⟩ x → Region.Has ⟨lo, hi, n, n₂ + 1⟩ x := by
    simp only [Region.Has]
    omega
  constructor
  · exact Nat.le_trans hle₁ (Nat.le_succ_of_le hle₂)
  · simpa [stmtLabels] using h.labels
  · exact List.Subset.trans h.subset (List.subset_cons_self _ _)
  · exact List.forall_mem_singleton.mpr List.mem_cons_self
  · intro B hB hclear
    obtain ⟨B', hsub, hflows, hown⟩ := h.flows B hB hclear
    refine ⟨n₂ :: B', List.cons_subset_cons _ hsub,
      hflows.append (.staged (hsource B' hsub) (Nat.le_refl _) .nil), ?_⟩
    refine List.forall_mem_cons.mpr ⟨.inr (.inr ⟨?_, Nat.lt_succ_self _⟩), fun x hx ↦ ?_⟩
    · exact Nat.le_trans hle₁ hle₂
    · exact (hown x hx).imp_right (hhas x)
  · intro ρ ρ' hρ hnone
    rw [runStmts_append (h.forward hK)]
    refine (h.runs ρ ρ' hρ hnone).bind ?_
    rintro ⟨ws, ρ₁⟩ σ ⟨rfl, hagrees, hinitial, hframe⟩
    rw [runStmts_move]
    refine (hact σ).bind ?_
    rintro w _ rfl
    refine .done ⟨?_, hagrees.set_step (Nat.le_trans hn (Nat.le_trans hle₁ hle₂)), hinitial,
      fun x hx ↦ ?_⟩
    · simp [Simple.word, Operand.eval]
    · rw [Store.assigned_set_of_ne, hframe x (mt (hhas x) hx)]
      rintro rfl
      exact hx (.inr ⟨Nat.le_trans hle₁ hle₂, Nat.lt_succ_self _⟩)
  · rw [bodiesOfStmts_append]
    refine List.rel_append h.bodies ?_
    simpa [bodiesOfStmts, Stmt.bodies] using hbodies

/-- To assign the word of a tree is to assign the one word that it leaves. -/
theorem single_set (e : Tree) (t : Temp) (ρ : Store V) :
    (do let (w, ρ) ← e.eval A ρ
        return ρ.set t w) = single A e ρ >>= fun
      | ([w], ρ) => .done (ρ.set t w)
      | _ => .stop := by
  rw [single, Dialogue.bind_assoc]
  rfl

/-- A word is assigned to a variable. -/
theorem runs_set {e : Tree} {s : Simple} (h : Stages A m K r (single A e) es stmts [s] K₁)
    {ρ ρ' : Store V} (hρ : Agrees m ρ ρ')
    (hnone : ∀ x, r.lo ≤ x → x < r.hi → ρ'.assigned x = none) (t : Temp) :
    Dialogue.Rel False
      (fun ρ σ ↦ Agrees m ρ σ ∧ σ.initial = ρ'.initial ∧ (σ.assigned t.id).isSome ∧
        ∀ x, x ≠ t.id → ¬ r.Has x → σ.assigned x = ρ'.assigned x)
      (do let (w, ρ) ← e.eval A ρ
          return ρ.set t w)
      (do let σ ← runStmts A stmts ρ'
          return σ.set t (← s.rhs.eval A σ)) := by
  rw [single_set]
  refine (h.runs ρ ρ' hρ hnone).bind ?_
  rintro ⟨ws, ρ₁⟩ σ ⟨rfl, hagrees, hinitial, hframe⟩
  rw [s.eval_rhs]
  refine .done ⟨hagrees.set, hinitial, ?_, fun x hxt hx ↦ ?_⟩
  · rw [Store.assigned_set_self]
    rfl
  · rw [Store.assigned_set_of_ne _ _ _ hxt, hframe x hx]

/-- The word of a variable is staged, and then it is known. -/
theorem store {e : Tree} {s : Simple} {t : Temp}
    (h : Stages A m K ⟨lo, t.id, n, n₁⟩ (single A e) es stmts [s] K₁) (hK : ∀ x ∈ K, x < lo)
    (ht : t.isSynthetic = false) (hm : t.id < m) (hn : m ≤ n) :
    Stages A m K ⟨lo, t.id + 1, n, n₁⟩ (fun ρ ↦ do
      let (w, ρ) ← e.eval A ρ
      return ([], ρ.set t w)) es (stmts ++ [Stmt.move t s.rhs]) [] (t.id :: K₁) := by
  have hlo : lo ≤ t.id := h.labels.le
  have hhas : ∀ x, Region.Has ⟨lo, t.id, n, n₁⟩ x → Region.Has ⟨lo, t.id + 1, n, n₁⟩ x := by
    simp only [Region.Has]
    omega
  have hself : Region.Has ⟨lo, t.id + 1, n, n₁⟩ t.id := .inl ⟨hlo, Nat.lt_succ_self _⟩
  constructor
  · exact h.le
  · simpa [stmtLabels] using h.labels.append (.nil (Nat.le_succ t.id))
  · exact List.Subset.trans h.subset (List.subset_cons_self _ _)
  · exact List.forall_mem_nil _
  · intro B hB hclear
    simp only at hclear
    obtain ⟨B', hsub, hflows, hown⟩ := h.flows B hB fun x hx ↦ by
      have := hclear x hx
      simp only
      omega
    have hnotMem : t.id ∉ B' := by
      intro hmem
      rcases hown _ hmem with hmem | hmem
      · have := hclear _ hmem
        omega
      · simp only [Region.Has] at hmem
        omega
    refine ⟨t.id :: B', List.cons_subset_cons _ hsub, hflows.append (.assign (Simple.flows ?_)
      ⟨ht, hm, hnotMem⟩ .nil), List.forall_mem_cons.mpr ⟨.inr hself, fun x hx ↦ ?_⟩⟩
    · exact (h.known s List.mem_cons_self).mono hsub
    · exact (hown x hx).imp_right (hhas x)
  · intro ρ ρ' hρ hnone
    rw [runStmts_append (h.forward hK)]
    have hset := h.runs_set hρ (fun x hx hx' ↦ hnone x hx (Nat.lt_succ_of_lt hx')) t
    have hrun : Dialogue.Rel False (Staged A m ⟨lo, t.id + 1, n, n₁⟩ [] ρ')
        ((do let (w, ρ) ← e.eval A ρ
             return ρ.set t w) >>= fun ρ ↦ .done ([], ρ)) _ := hset.map ?_
    · have hmove : runStmts A [.move t s.rhs] = fun σ ↦ do return σ.set t (← s.rhs.eval A σ) :=
        funext fun σ ↦ runStmts_move ..
      rw [Dialogue.bind_assoc] at hrun
      rw [hmove]
      exact hrun
    rintro ρ₁ σ ⟨hagrees, hinitial, -, hframe⟩
    refine ⟨rfl, hagrees, hinitial, fun x hx ↦ hframe x ?_ (mt (hhas x) hx)⟩
    rintro rfl
    exact hx hself
  · rw [bodiesOfStmts_append]
    simpa [bodiesOfStmts, Stmt.bodies] using h.bodies

end

end Stages

/-! ## Conditionals -/

section

variable {V : Type} {A : Algebra V} {m lo mid₁ mid₂ hi n n₁ n₂ n₃ : Nat} {K K₁ K₂ K₃ : List Nat}
  {c : Store V → Run V (List V × Store V)} {es₁ es₂ es₃ : List Tree}
  {test noStmts yesStmts : List Stmt} {j : Lower.Join} {v : Operand} {no yes : Tree}
  {noValue yesValue : Simple}

/-- The choice behind the branches of a conditional. -/
def Lower.Join.choose (j : Lower.Join) (ρ : Store V) : Option V :=
  ρ.choose [((Label.yes j.id).render, j.yes), ((Label.no j.id).render, j.no)]

/-- A branch of a conditional is taken, and its word is chosen. -/
def Lower.branches (A : Algebra V) (j : Lower.Join) (no yes : Tree) (w : V) (ρ : Store V) :
    Run V (V × Store V) :=
  .ask (.branch (A.isTrue w)) fun _ ↦
    (if A.isTrue w then do
      let (v, ρ) ← yes.eval A ρ
      return ρ.set j.yes v
    else do
      let (v, ρ) ← no.eval A ρ
      return ρ.set j.no v) >>= fun ρ ↦
        match j.choose ρ with
        | some v => .done (v, ρ.set j.result v)
        | none => .stop

theorem choose_yes {ρ : Store V} (hyes : (ρ.assigned j.yes.id).isSome)
    (hno : ρ.assigned j.no.id = none) : (j.choose ρ).isSome := by
  obtain ⟨v, hv⟩ := Option.isSome_iff_exists.mp hyes
  simp [Lower.Join.choose, Store.choose, hv, hno]

theorem choose_no {ρ : Store V} (hno : (ρ.assigned j.no.id).isSome)
    (hyes : ρ.assigned j.yes.id = none) : (j.choose ρ).isSome := by
  obtain ⟨v, hv⟩ := Option.isSome_iff_exists.mp hno
  simp [Lower.Join.choose, Store.choose, hv, hyes]

theorem Agrees.choose {ρ ρ' : Store V} (h : Agrees m ρ ρ') (hyes : j.yes.id < m)
    (hno : j.no.id < m) : j.choose ρ = j.choose ρ' := by
  simp only [Lower.Join.choose, Store.choose, List.filterMap_cons, List.filterMap_nil,
    h.assigned _ hyes, h.assigned _ hno]

/-- The statements of a conditional. Each branch starts where the test left off, and only one of
them leaves a word. -/
theorem Stages.diamond (htest : Stages A m K ⟨lo + 4, mid₁, n, n₁⟩ c es₁ test [.value v] K₁)
    (hno : Stages A m K ⟨mid₂, hi, n₁, n₂⟩ (single A no) es₂ noStmts [noValue] K₂)
    (hyes : Stages A m K ⟨mid₁, mid₂, n₂, n₃⟩ (single A yes) es₃ yesStmts [yesValue] K₃)
    (hj : j.DrawnFrom lo) (hK : ∀ x ∈ K, x < lo) (hm : hi ≤ m) (hn : m ≤ n) :
    Stages A m K ⟨lo, hi, n, n₃⟩ (fun ρ ↦ do
        let (ws, ρ) ← c ρ
        let w ← only ws
        let (v, ρ) ← Lower.branches A j no yes w ρ
        return ([v], ρ)) (es₁ ++ (es₂ ++ es₃))
      (test ++ Ir.diamond j v noStmts noValue.rhs yesStmts yesValue.rhs)
      [.value (.temp j.result)] (j.result.id :: K₁) := by
  have hjoin := hj.spelled
  obtain ⟨hjid, ⟨hjyes, hyesHint⟩, ⟨hjno, hnoHint⟩, hjresult, hresultHint⟩ := hj
  have hle : n ≤ n₁ ∧ n₁ ≤ n₂ ∧ n₂ ≤ n₃ := ⟨htest.le, hno.le, hyes.le⟩
  have hlo : lo + 4 ≤ mid₁ ∧ mid₁ ≤ mid₂ ∧ mid₂ ≤ hi :=
    ⟨htest.labels.le, hyes.labels.le, hno.labels.le⟩
  have hKtest : ∀ x ∈ K, x < lo + 4 := fun x hx ↦ by have := hK x hx; omega
  have hKno : ∀ x ∈ K, x < mid₂ := fun x hx ↦ by have := hK x hx; omega
  have hKyes : ∀ x ∈ K, x < mid₁ := fun x hx ↦ by have := hK x hx; omega
  have hnoLabels : (Label.yes j.id).render ∉ stmtLabels noStmts :=
    hno.labels.notMem trivial rfl (.inl (by simp only; omega))
  have hyesLabels : (Label.after j.id).render ∉ stmtLabels yesStmts :=
    hyes.labels.notMem trivial rfl (.inl (by simp only; omega))
  have hnoForward : Forward noStmts := hno.forward hKno
  have hyesForward : Forward yesStmts := hyes.forward hKyes
  constructor
  · simp only
    omega
  · refine (((hjoin.append htest.labels).append hyes.labels).append hno.labels).perm ?_
    rw [stmtLabels_append, stmtLabels_diamond, List.perm_iff_count]
    intro x
    simp only [List.count_append, List.count_cons, List.count_nil]
    omega
  · exact List.Subset.trans htest.subset (List.subset_cons_self _ _)
  · exact List.forall_mem_singleton.mpr List.mem_cons_self
  · intro B hB hclear
    simp only at hclear
    obtain ⟨B₁, hsub₁, hflows₁, hown₁⟩ := htest.flows B hB fun x hx ↦ by
      have := hclear x hx
      simp only
      omega
    -- behind the test, nothing is known that is not its own or was known before
    have hclear₁ : ∀ x ∈ B₁, x < lo ∨ lo + 4 ≤ x ∧ x < mid₁ ∨ hi ≤ x := by
      intro x hx
      rcases hown₁ x hx with hx | hx
      · have := hclear x hx
        omega
      · simp only [Region.Has] at hx
        omega
    have hK₁ : K ⊆ B₁ := List.Subset.trans htest.subset hsub₁
    obtain ⟨B₂, hsub₂, hflows₂, -⟩ := hno.flows B₁ hK₁ fun x hx ↦ by
      have := hclear₁ x hx
      simp only
      omega
    obtain ⟨B₃, hsub₃, hflows₃, -⟩ := hyes.flows B₁ hK₁ fun x hx ↦ by
      have := hclear₁ x hx
      simp only
      omega
    have hfresh : ∀ t : Temp, t.isSynthetic = false → lo ≤ t.id → t.id < lo + 4 → Fresh m B₁ t :=
      fun t ht hle hlt ↦ ⟨ht, by omega, fun hmem ↦ by have := hclear₁ _ hmem; omega⟩
    have hdiamond := Flows.cond ((htest.known _ List.mem_cons_self).mono hsub₁) hflows₂
      (Simple.flows ((hno.known _ List.mem_cons_self).mono hsub₂)) hflows₃
      (Simple.flows ((hyes.known _ List.mem_cons_self).mono hsub₃))
      (hfresh j.no hnoHint (by omega) (by omega)) (hfresh j.yes hyesHint (by omega) (by omega))
      (hfresh j.result hresultHint (by omega) (by omega)) hnoLabels hyesLabels .nil
    rw [List.append_nil] at hdiamond
    refine ⟨j.result.id :: B₁, List.cons_subset_cons _ hsub₁, hflows₁.append hdiamond,
      List.forall_mem_cons.mpr ⟨.inr (.inl ?_), fun x hx ↦ (hown₁ x hx).imp_right ?_⟩⟩
    · simp only
      omega
    · simp only [Region.Has]
      omega
  · intro ρ ρ' hρ hnone
    simp only at hnone
    rw [runStmts_append (htest.forward hKtest)]
    refine (htest.runs ρ ρ' hρ fun x hx hx' ↦ hnone x ?_ ?_).bind ?_
    · simp only at hx
      omega
    · simp only at hx'
      omega
    rintro ⟨ws, ρ₁⟩ σ₁ ⟨rfl, hagrees₁, hinitial₁, hframe₁⟩
    -- the numbers of the conditional itself and of its branches are still unused
    have hnone₁ : ∀ x, lo ≤ x → x < lo + 4 ∨ mid₁ ≤ x → x < hi → σ₁.assigned x = none := by
      intro x hx hx' hx''
      rw [hframe₁ x (by simp only [Region.Has]; omega), hnone x hx hx'']
    have hframe : ∀ x, ¬ Region.Has ⟨lo, hi, n, n₃⟩ x → σ₁.assigned x = ρ'.assigned x := by
      intro x hx
      refine hframe₁ x ?_
      simp only [Region.Has] at hx ⊢
      omega
    rw [runStmts_diamond hnoForward hyesForward hnoLabels hyesLabels]
    refine Dialogue.Rel.map (f := fun p : V × Store V ↦ ([p.1], p.2))
      (R := fun p σ ↦ Staged A m ⟨lo, hi, n, n₃⟩ [.value (.temp j.result)] ρ' ([p.1], p.2) σ) ?_
      fun _ _ h ↦ h
    refine .ask fun _ ↦ Dialogue.Rel.bind (R := fun ρ₂ σ₂ ↦ Agrees m ρ₂ σ₂ ∧
      σ₂.initial = ρ'.initial ∧ (j.choose σ₂).isSome ∧
      ∀ x, ¬ Region.Has ⟨lo, hi, n, n₃⟩ x → σ₂.assigned x = ρ'.assigned x) ?_ ?_
    · change Dialogue.Rel False _ (if A.isTrue (v.eval A σ₁) then _ else _) _
      split
      · refine (hyes.runs_set hagrees₁ (fun x hx hx' ↦ hnone₁ x ?_ ?_ ?_) j.yes).mono ?_
        · simp only at hx
          omega
        · exact .inr hx
        · simp only at hx'
          omega
        rintro ρ₂ σ₂ ⟨hagrees₂, hinitial₂, hassigned, hframe₂⟩
        refine ⟨hagrees₂, hinitial₂.trans hinitial₁, choose_yes hassigned ?_, fun x hx ↦ ?_⟩
        · rw [hframe₂ _ (by omega) (by simp only [Region.Has]; omega)]
          exact hnone₁ _ (by omega) (by omega) (by omega)
        · rw [hframe₂ x _ _, hframe x hx]
          all_goals simp only [Region.Has] at hx ⊢
          all_goals omega
      · refine (hno.runs_set hagrees₁ (fun x hx hx' ↦ hnone₁ x ?_ ?_ ?_) j.no).mono ?_
        · simp only at hx
          omega
        · exact .inr (by simp only at hx; omega)
        · exact hx'
        rintro ρ₂ σ₂ ⟨hagrees₂, hinitial₂, hassigned, hframe₂⟩
        refine ⟨hagrees₂, hinitial₂.trans hinitial₁, choose_no hassigned ?_, fun x hx ↦ ?_⟩
        · rw [hframe₂ _ (by omega) (by simp only [Region.Has]; omega)]
          exact hnone₁ _ (by omega) (by omega) (by omega)
        · rw [hframe₂ x _ _, hframe x hx]
          all_goals simp only [Region.Has] at hx ⊢
          all_goals omega
    · rintro ρ₂ σ₂ ⟨hagrees₂, hinitial₂, hchosen, hframe₂⟩
      obtain ⟨u, hu⟩ := Option.isSome_iff_exists.mp hchosen
      have hchoice := hagrees₂.choose (j := j) (by omega) (by omega)
      rw [runStmts_phi, ← Lower.Join.choose]
      simp only [hchoice, hu]
      refine .done ⟨?_, hagrees₂.set, hinitial₂, fun x hx ↦ ?_⟩
      · simp [Simple.word, Operand.eval]
      · rw [Store.assigned_set_of_ne, hframe₂ x hx]
        simp only [Region.Has] at hx
        omega
  · rw [bodiesOfStmts_append]
    refine List.rel_append htest.bodies ?_
    have hbodies := List.rel_append hno.bodies hyes.bodies
    simpa [Ir.diamond, bodiesOfStmts, Stmt.bodies] using hbodies

end

end TaggedLisp.Ir
