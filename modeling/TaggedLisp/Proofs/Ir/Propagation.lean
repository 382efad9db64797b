import TaggedLisp.Ir.Copies
import TaggedLisp.Proofs.Ir.Numbering

/-!
# Copies are not missed

A block without copies asks what the block asked, in the same order and with the same words, and
ends with the same word; so do the blocks of the functions in it. The blocks of a whole program
share one table of copies, and what is noted in one branch of a conditional is used in the other one
too, whether or not the first one was run.

This is right because a copy has a number of its own. Wherever a copy is known, so is what it was
copied from (`Copies.Sound`), and neither is assigned again. So where the copy has a word, what it
was copied from has the same one (`Mirrors`); elsewhere the note is not used.

What was copied from is never a copy itself, as it is replaced first. One look at the table finds
the origin of a temporary.
-/

namespace TaggedLisp.Ir

/-! ## Origins -/

namespace Copies

variable {c c' c'' : Copies} {m n n' x : Nat} {B B' : List Nat} {t u : Temp} {v : Operand}

/-- What a temporary was copied from, if it is a dropped copy. -/
def source (c : Copies) (x : Nat) : Option Temp := c.sources.lookup x

/-- The temporaries among some that are no copies. -/
def kept (c : Copies) (B : List Nat) : List Nat := B.filter fun x ↦ (c.source x).isNone

/-- The notes on the numbers below `n` are the same. -/
def Grown (n : Nat) (c c' : Copies) : Prop := ∀ x < n, c'.source x = c.source x

/-- The copies in a text whose numbers are below `n`, where `B` is known: steps that were copied
from something else than copies. -/
structure Sound (m n : Nat) (B : List Nat) (c : Copies) : Prop where
  le : m ≤ n
  lt : ∀ x ∈ B, x < n
  step : ∀ {x u}, c.source x = some u → m ≤ x ∧ x < n
  origin : ∀ {x u}, c.source x = some u → u.id < n ∧ c.source u.id = Option.none
  /-- Where a copy is known, its origin is. -/
  known : ∀ {x u}, x ∈ B → c.source x = some u → u.id ∈ B

theorem source_none (x : Nat) : none.source x = Option.none := rfl

theorem source_drop (c : Copies) (t u : Temp) (x : Nat) :
    (c.drop t u).source x = if x = t.id then some u else c.source x := by
  rw [source, drop, List.lookup_cons]
  by_cases h : x = t.id
  · simp [h]
  · rw [if_neg h, beq_eq_false_iff_ne.mpr h]
    rfl

private theorem originWithin_eq {sources : List (Nat × Temp)} {t : Temp}
    (h : sources.lookup t.id = Option.none) (n : Nat) : originWithin sources n t = t := by
  cases n with
  | zero => rfl
  | succ n => rw [originWithin, h]

theorem origin_of_none (h : c.source t.id = Option.none) : c.origin t = t := originWithin_eq h _

theorem mem_kept : x ∈ c.kept B ↔ x ∈ B ∧ c.source x = Option.none := by
  rw [kept, List.mem_filter, Option.isNone_iff_eq_none]

theorem kept_cons (h : c.source x = Option.none) : c.kept (x :: B) = x :: c.kept B := by
  rw [kept, List.filter_cons, h]
  rfl

theorem Grown.trans (h : Grown n c c') (h' : Grown n' c' c'') (hn : n ≤ n') : Grown n c c'' :=
  fun x hx ↦ (h' x (Nat.lt_of_lt_of_le hx hn)).trans (h x hx)

theorem Grown.kept_eq (h : Grown n c c') (hB : ∀ x ∈ B, x < n) : c'.kept B = c.kept B :=
  List.filter_congr fun x hx ↦ by rw [h x (hB x hx)]

namespace Sound

theorem empty (hm : m ≤ n) : Sound m n [] Copies.none where
  le := hm
  lt := by simp
  step h := by simp [source_none] at h
  origin h := by simp [source_none] at h
  known h := by simp at h

/-- One look finds the origin of a temporary. -/
theorem origin_eq (h : c.Sound m n B) (t : Temp) : c.origin t = (c.source t.id).getD t := by
  cases hu : c.source t.id with
  | none => exact origin_of_none hu
  | some u =>
    rw [Copies.origin]
    cases hlength : c.sources.length with
    | zero =>
      rw [source, List.eq_nil_of_length_eq_zero hlength] at hu
      cases hu
    | succ k =>
      rw [originWithin, show c.sources.lookup t.id = some u from hu]
      exact originWithin_eq (h.origin hu).2 k

/-- The variables are no copies. -/
theorem of_variable (h : c.Sound m n B) (hx : x < m) : c.source x = Option.none := by
  by_contra hne
  obtain ⟨u, hu⟩ := Option.ne_none_iff_exists'.mp hne
  exact absurd (h.step hu).1 (Nat.not_le.mpr hx)

/-- Numbers that are not used yet are no copies. -/
theorem of_unused (h : c.Sound m n B) (hx : n ≤ x) : c.source x = Option.none := by
  by_contra hne
  obtain ⟨u, hu⟩ := Option.ne_none_iff_exists'.mp hne
  exact absurd (h.step hu).2 (Nat.not_lt.mpr hx)

theorem operand_known (h : c.Sound m n B) (hv : v.Known B) : (c.operand v).Known (c.kept B) := by
  cases v with
  | const k => trivial
  | temp t =>
    change (c.origin t).id ∈ c.kept B
    rw [h.origin_eq, mem_kept]
    cases hu : c.source t.id with
    | none => exact ⟨hv, hu⟩
    | some u => exact ⟨h.known hv hu, (h.origin hu).2⟩

/-- Copies that are noted further down do not matter for what is known here. -/
theorem grown (h : c.Sound m n B) (h' : c'.Sound m n' B') (hgrown : Grown n c c') (hn : n ≤ n') :
    c'.Sound m n' B where
  le := h'.le
  lt x hx := Nat.lt_of_lt_of_le (h.lt x hx) hn
  step := h'.step
  origin := h'.origin
  known hx hu := h.known hx (hgrown _ (h.lt _ hx) ▸ hu)

/-- In the body of a function, only variables are known at first. -/
theorem inside (h : c.Sound m n B) (hB' : ∀ x ∈ B', x < m) : c.Sound m n B' where
  le := h.le
  lt x hx := Nat.lt_of_lt_of_le (hB' x hx) h.le
  step := h.step
  origin := h.origin
  known hx hu := absurd hu (by simp [h.of_variable (hB' _ hx)])

theorem assign (h : c.Sound m n B) (hx : x < m) : c.Sound m n (x :: B) where
  le := h.le
  lt := List.forall_mem_cons.mpr ⟨Nat.lt_of_lt_of_le hx h.le, h.lt⟩
  step := h.step
  origin := h.origin
  known {y u} hy hu := by
    rcases List.mem_cons.mp hy with rfl | hy
    · rw [h.of_variable hx] at hu
      cases hu
    · exact List.mem_cons_of_mem _ (h.known hy hu)

theorem stage (h : c.Sound m n B) (hx : n ≤ x) : c.Sound m (x + 1) (x :: B) where
  le := Nat.le_succ_of_le (Nat.le_trans h.le hx)
  lt := List.forall_mem_cons.mpr ⟨Nat.lt_succ_self x, fun y hy ↦ by have := h.lt y hy; omega⟩
  step hu := by
    have := h.step hu
    omega
  origin hu := ⟨by have := (h.origin hu).1; omega, (h.origin hu).2⟩
  known {y u} hy hu := by
    rcases List.mem_cons.mp hy with rfl | hy
    · rw [h.of_unused hx] at hu
      cases hu
    · exact List.mem_cons_of_mem _ (h.known hy hu)

/-- A copy of something known is noted. -/
theorem drop (h : c.Sound m n B) (hx : n ≤ x) (hu : u.id ∈ c.kept B) :
    (c.drop ⟨x, Option.none⟩ u).Sound m (x + 1) (x :: B) := by
  obtain ⟨hmem, hnone⟩ := mem_kept.mp hu
  have hlt := h.lt _ hmem
  have hle := h.le
  have hnew : ∀ y < n, (c.drop ⟨x, Option.none⟩ u).source y = c.source y := fun y hy ↦ by
    rw [source_drop, if_neg (by simp only; omega)]
  constructor
  · omega
  · exact (h.stage hx).lt
  · intro y w hw
    rw [source_drop] at hw
    split at hw
    · simp only at *
      omega
    · have := h.step hw
      omega
  · intro y w hw
    rw [source_drop] at hw
    split at hw
    · cases hw
      exact ⟨by omega, (hnew _ hlt).trans hnone⟩
    · obtain ⟨hwlt, hwnone⟩ := h.origin hw
      exact ⟨by omega, (hnew _ hwlt).trans hwnone⟩
  · intro y w hy hw
    rcases List.mem_cons.mp hy with rfl | hy
    · rw [source_drop, if_pos rfl] at hw
      cases hw
      exact List.mem_cons_of_mem _ hmem
    · rw [hnew y (h.lt y hy)] at hw
      exact List.mem_cons_of_mem _ (h.known hy hw)

theorem kept_drop (h : c.Sound m n B) (hx : n ≤ x) :
    (c.drop ⟨x, Option.none⟩ u).kept (x :: B) = c.kept B := by
  have hgrown : Grown n c (c.drop ⟨x, Option.none⟩ u) := fun y hy ↦ by
    rw [source_drop, if_neg (by simp only; omega)]
  rw [← hgrown.kept_eq h.lt, kept, List.filter_cons, source_drop, if_pos rfl]
  rfl

end Sound

end Copies

/-! ## Stores without copies -/

/-- The second store is one without copies: it has the words of all temporaries but copies, and the
known copies have the words of their origins. -/
structure Mirrors {V : Type} (c : Copies) (B : List Nat) (ρ ρ' : Store V) : Prop where
  initial : ρ'.initial = ρ.initial
  assigned : ∀ x, c.source x = none → ρ'.assigned x = ρ.assigned x
  copied : ∀ {t u : Temp}, t.id ∈ B → c.source t.id = some u → ρ'.get u = ρ.get t

namespace Mirrors

variable {V : Type} {A : Algebra V} {c c' : Copies} {m n x : Nat} {B B' : List Nat} {t u : Temp}
  {v : Operand} {w : V} {ρ ρ' : Store V}

theorem get (h : Mirrors c B ρ ρ') (ht : c.source t.id = none) : ρ'.get t = ρ.get t := by
  rw [Store.get, Store.get, h.assigned _ ht, h.initial]

theorem operand (h : Mirrors c B ρ ρ') (hc : c.Sound m n B) (hv : v.Known B) :
    (c.operand v).eval A ρ' = v.eval A ρ := by
  cases v with
  | const k => rfl
  | temp t =>
    change ρ'.get (c.origin t) = ρ.get t
    rw [hc.origin_eq]
    cases hu : c.source t.id with
    | none => exact h.get hu
    | some u => exact h.copied hv hu

theorem subset (h : Mirrors c B ρ ρ') (hB : B' ⊆ B) : Mirrors c B' ρ ρ' :=
  { h with copied := fun ht hu ↦ h.copied (hB ht) hu }

theorem grown (h : Mirrors c B ρ ρ') (hc : c.Sound m n B) (hgrown : Copies.Grown n c c') :
    Mirrors c' B ρ ρ' where
  initial := h.initial
  assigned x hx := by
    refine h.assigned x ?_
    cases hu : c.source x with
    | none => rfl
    | some u => rw [← hu, ← hgrown x (hc.step hu).2, hx]
  copied ht hu := h.copied ht (hgrown _ (hc.lt _ ht) ▸ hu)

/-- A word is assigned to a temporary that is neither a copy nor the origin of a known one. -/
theorem set (h : Mirrors c B ρ ρ') (hc : c.Sound m n B) (ht : c.source t.id = none)
    (htB : t.id ∉ B) : Mirrors c (t.id :: B) (ρ.set t w) (ρ'.set t w) where
  initial := h.initial
  assigned x hx := by
    by_cases hxt : x = t.id
    · rw [hxt, Store.assigned_set_self, Store.assigned_set_self]
    · rw [Store.assigned_set_of_ne _ _ _ hxt, Store.assigned_set_of_ne _ _ _ hxt, h.assigned x hx]
  copied {s u} hs hu := by
    have hst : s.id ≠ t.id := by
      rintro heq
      rw [heq, ht] at hu
      cases hu
    have hsB := List.mem_of_ne_of_mem hst hs
    have hut : u.id ≠ t.id := fun heq ↦ htB (heq ▸ hc.known hsB hu)
    have := h.copied hsB hu
    simp only [Store.get] at this ⊢
    rw [Store.assigned_set_of_ne _ _ _ hst, Store.assigned_set_of_ne _ _ _ hut]
    exact this

/-- Only one of the stores gets the word of a copy. -/
theorem drop (h : Mirrors c B ρ ρ') :
    Mirrors (c.drop ⟨x, none⟩ u) (x :: B) (ρ.set ⟨x, none⟩ (ρ'.get u)) ρ' where
  initial := h.initial
  assigned y hy := by
    rw [Copies.source_drop] at hy
    split at hy
    · cases hy
    · rename_i hne
      rw [Store.assigned_set_of_ne _ _ _ hne]
      exact h.assigned y hy
  copied {s w} hs hw := by
    rw [Copies.source_drop] at hw
    split at hw
    · rename_i heq
      cases hw
      rw [Store.get, Store.get, heq, Store.assigned_set_self]
      rfl
    · rename_i hne
      have := h.copied (List.mem_of_ne_of_mem hne hs) hw
      rw [this, Store.get, Store.get, Store.assigned_set_of_ne _ _ _ hne]
      rfl

theorem choose (h : Mirrors c B ρ ρ') {j : Lower.Join} (hyes : c.source j.yes.id = none)
    (hno : c.source j.no.id = none) : j.choose ρ' = j.choose ρ := by
  simp only [Lower.Join.choose, Store.choose, List.filterMap_cons, List.filterMap_nil,
    h.assigned _ hyes, h.assigned _ hno]

end Mirrors

/-! ## Steps of propagation -/

namespace Propagate

variable {α β : Type} {c c₁ c₂ : Copies} {t : Temp} {source source' : Rhs} {s : Stmt}
  {ss first rest : List Stmt}

theorem run_bind {p : Propagate α} {f : α → Propagate β} {a : α} (h : p.run c = (a, c₁)) :
    (p >>= f).run c = (f a).run c₁ := by
  rw [StateT.run_bind, h]
  rfl

theorem run_cons (hs : s.propagate.run c = (first, c₁))
    (hss : (propagateAll ss).run c₁ = (rest, c₂)) :
    (propagateAll (s :: ss)).run c = (first ++ rest, c₂) := by
  rw [propagateAll, run_bind hs, run_bind hss]
  rfl

theorem run_append {ss' : List Stmt} (hss : (propagateAll ss).run c = (first, c₁))
    (hss' : (propagateAll ss').run c₁ = (rest, c₂)) :
    (propagateAll (ss ++ ss')).run c = (first ++ rest, c₂) := by
  induction ss generalizing c first with
  | nil =>
    cases hss
    exact hss'
  | cons s ss ih =>
    generalize hs : s.propagate.run c = p at hss
    obtain ⟨first', c₃⟩ := p
    generalize hmid : (propagateAll ss).run c₃ = q at hss
    obtain ⟨mid, c₄⟩ := q
    rw [run_cons hs hmid] at hss
    cases hss
    rw [List.cons_append, run_cons hs (ih hmid), List.append_assoc]

/-- A move into a variable is not dropped. -/
theorem run_assign (h : source.propagate.run c = (source', c₁)) (ht : t.isSynthetic = false) :
    (Stmt.move t source).propagate.run c = ([.move t source'], c₁) := by
  rw [Stmt.propagate, run_bind h]
  split
  · simp only [ht]
    rfl
  · rfl

theorem run_drop {x : Nat} (h : source.propagate.run c = (.value (.temp t), c₁)) :
    (Stmt.move ⟨x, none⟩ source).propagate.run c = ([], c₁.drop ⟨x, none⟩ t) := by
  rw [Stmt.propagate, run_bind h]
  rfl

/-- A step that is no copy is not dropped. -/
theorem run_staged {x : Nat} (h : source.propagate.run c = (source', c₁))
    (hsource' : ∀ t, source' ≠ .value (.temp t)) :
    (Stmt.move ⟨x, none⟩ source).propagate.run c = ([.move ⟨x, none⟩ source'], c₁) := by
  rw [Stmt.propagate, run_bind h]
  split
  · exact absurd rfl (hsource' _)
  · rfl

theorem run_block {stmts stmts' : List Stmt} {value value' : Rhs}
    (hstmts : (propagateAll stmts).run c = (stmts', c₁))
    (hvalue : value.propagate.run c₁ = (value', c₂)) :
    (Block.mk stmts value).propagate.run c = (.mk stmts' value', c₂) := by
  rw [Block.propagate, run_bind hstmts, run_bind hvalue]
  rfl

theorem run_func {head : FuncHead} {captures : List (Cell × Operand)} {body body' : Block}
    (h : body.propagate.run c = (body', c₁)) :
    (Rhs.func head captures body).propagate.run c
      = (.func head (captures.map fun (cell, v) ↦ (cell, c.operand v)) body', c₁) := by
  have hget : (get : Propagate Copies).run c = (c, c) := rfl
  rw [Rhs.propagate, run_bind hget, run_bind h]
  rfl

theorem run_phi (t : Temp) (ts : List (String × Temp)) (c : Copies) :
    (Stmt.phi t ts).propagate.run c = ([.phi t (ts.map fun (l, u) ↦ (l, c.origin u))], c) := rfl

/-- The branches of a conditional are met in the order in which they stand. The temporaries that are
chosen from are no copies. -/
theorem run_diamond {j : Lower.Join} {v : Operand} {no no' yes yes' : List Stmt}
    {noValue noValue' yesValue yesValue' : Rhs} {c₃ c₄ : Copies}
    (hno : (propagateAll no).run c = (no', c₁))
    (hnoValue : noValue.propagate.run c₁ = (noValue', c₂))
    (hyes : (propagateAll yes).run c₂ = (yes', c₃))
    (hyesValue : yesValue.propagate.run c₃ = (yesValue', c₄)) (hjno : j.no.isSynthetic = false)
    (hjyes : j.yes.isSynthetic = false) (hnoOrigin : c₄.origin j.no = j.no)
    (hyesOrigin : c₄.origin j.yes = j.yes) :
    (propagateAll (diamond j v no noValue yes yesValue)).run c
      = (diamond j (c.operand v) no' noValue' yes' yesValue', c₄) := by
  have hbranch : ∀ l c, (Stmt.branch v l).propagate.run c = ([.branch (c.operand v) l], c) :=
    fun _ _ ↦ rfl
  have hlabel : ∀ l c, (Stmt.label l).propagate.run c = ([.label l], c) := fun _ _ ↦ rfl
  have hjump : ∀ l c, (Stmt.jump l).propagate.run c = ([.jump l], c) := fun _ _ ↦ rfl
  have hnil : (propagateAll []).run c₄ = ([], c₄) := rfl
  refine (run_cons (hbranch _ _) (run_cons (hlabel _ _) (run_append hno
    (run_cons (run_assign hnoValue hjno) (run_cons (hjump _ _) (run_cons (hlabel _ _)
      (run_append hyes (run_cons (run_assign hyesValue hjyes) (run_cons (hlabel _ _)
        (run_cons (run_phi _ _ _) hnil)))))))))).trans ?_
  simp only [List.map_cons, List.map_nil, hnoOrigin, hyesOrigin]
  rfl

end Propagate

/-! ## Parts without copies -/

/-- Run for enough steps, the second block asks what the first one asks and ends with the same
word. -/
def Block.RunsAs (b b' : Block) : Prop :=
  ∀ {V : Type} (A : Algebra V) (initial : Nat → V) (steps steps' : Nat), b.stmts.length < steps →
    b'.stmts.length < steps' → b'.run A steps' initial = b.run A steps initial

/-- The labels that stand in a part. -/
def Part.labels : Part → List String
  | rhs _ => []
  | stmts ss => stmtLabels ss

/-- The bodies of the functions in a part. -/
def Part.bodies : Part → List Block
  | rhs source => source.bodies
  | stmts ss => bodiesOfStmts ss

/-- The temporaries that are introduced in a part. -/
def Part.introduced : Part → List Nat
  | rhs source => source.introduced
  | stmts ss => introducedInStmts ss

/-- The second part does what the first one does, where the first one starts with the copies `c` and
`B` known and ends with the copies `c'` and `B'` known. -/
def Part.Corresponds (c : Copies) (B : List Nat) (c' : Copies) (B' : List Nat) : Part → Part → Prop
  | rhs source, rhs source' => ∀ {V : Type} (A : Algebra V) (ρ ρ' : Store V), Mirrors c B ρ ρ' →
      source'.eval A ρ' = source.eval A ρ
  | stmts ss, stmts ss' => ∀ {V : Type} (A : Algebra V) (ρ ρ' : Store V), Mirrors c B ρ ρ' →
      Dialogue.Rel True (Mirrors c' B') (runStmts A ss ρ) (runStmts A ss' ρ')
  | _, _ => False

/-- What is said of a part and the part without copies that it becomes. -/
structure Propagated (m n : Nat) (B : List Nat) (c : Copies) (p : Part) (n' : Nat) (B' : List Nat)
    (c' : Copies) (p' : Part) : Prop where
  sound : c'.Sound m n' B'
  grown : Copies.Grown n c c'
  /-- Fewer numbers are used, so other parts without copies may have used fewer of them before. -/
  flows : ∀ k ≤ n, ∃ k' ≤ n', Flows m k (c.kept B) p' k' (c'.kept B')
  labels : p'.labels = p.labels
  introduced : ∀ x, p'.introduced.count x ≤ p.introduced.count x
  corresponds : p.Corresponds c B c' B' p'
  bodies : List.Forall₂ Block.RunsAs p.bodies p'.bodies

namespace Propagated

section

variable {m n n₁ n₂ n₃ n₄ n' : Nat} {B B₁ B₂ B' : List Nat} {c c₁ c₂ c₃ c₄ c' : Copies}
  {source source' value value' noValue noValue' yesValue yesValue' : Rhs} {v : Operand}
  {stmts stmts' ss ss' no no' yes yes' : List Stmt} {head : FuncHead}
  {captures : List (Cell × Operand)} {t u : Temp} {x : Nat} {j : Lower.Join}

/-- Only the operands of a computation change. -/
theorem operands (hc : c.Sound m n B)
    (hflows : ∀ k, Flows m k (c.kept B) (.rhs source') k (c.kept B))
    (heval : ∀ {V : Type} (A : Algebra V) (ρ ρ' : Store V), Mirrors c B ρ ρ' →
      source'.eval A ρ' = source.eval A ρ)
    (hbodies : source.bodies = []) (hbodies' : source'.bodies = [])
    (hentries' : source'.entries = []) :
    Propagated m n B c (.rhs source) n B c (.rhs source') where
  sound := hc
  grown _ _ := rfl
  flows k hk := ⟨k, hk, hflows k⟩
  labels := rfl
  introduced x := by simp [Part.introduced, Rhs.introduced, hentries']
  corresponds := heval
  bodies := by
    rw [Part.bodies, Part.bodies, hbodies, hbodies']
    exact .nil

theorem call {callee : Operand} {args : List Operand} (hc : c.Sound m n B)
    (hcallee : callee.Known B) (hargs : ∀ v ∈ args, v.Known B) :
    Propagated m n B c (.rhs (.call callee args)) n B c
      (.rhs (.call (c.operand callee) (args.map c.operand))) := by
  refine operands hc (fun k ↦ .call (hc.operand_known hcallee) ?_) ?_ rfl rfl rfl
  · intro _ hv
    obtain ⟨u, hu, rfl⟩ := List.mem_map.mp hv
    exact hc.operand_known (hargs u hu)
  · intro V A ρ ρ' hρ
    have hwords : args.map (fun v ↦ (c.operand v).eval A ρ') = args.map (·.eval A ρ) :=
      List.map_congr_left fun v hv ↦ hρ.operand hc (hargs v hv)
    rw [Rhs.eval, Rhs.eval, hρ.operand hc hcallee, List.map_map]
    exact congrArg (fun ws ↦ (.ask (.call (callee.eval A ρ) ws) .done : Run V V)) hwords

/-- The block that is made of statements and a computation without copies does the same. -/
theorem runsAs (hstmts : Propagated m n B c (.stmts stmts) n₁ B₁ c₁ (.stmts stmts'))
    (hvalue : Propagated m n₁ B₁ c₁ (.rhs value) n' B₁ c' (.rhs value'))
    (hB : ∀ x ∈ B, x < m) (hc : c.Sound m n B) (hforward : Forward stmts)
    (hlabels : (stmtLabels stmts).Nodup) :
    (Block.mk stmts value).RunsAs (.mk stmts' value') := by
  intro V A initial steps steps' hsteps hsteps'
  obtain ⟨k', -, hflows⟩ := hstmts.flows n (Nat.le_refl n)
  have hsame : stmtLabels stmts' = stmtLabels stmts := hstmts.labels
  have hlabels' : (stmtLabels stmts').Nodup := hsame ▸ hlabels
  rw [Block.run_eq hforward hlabels hsteps, Block.run_eq hflows.forward hlabels' hsteps']
  have hstart : Mirrors c B (.start initial) (.start initial) :=
    ⟨rfl, fun _ _ ↦ rfl, fun ht hu ↦ by simp [hc.of_variable (hB _ ht)] at hu⟩
  refine ((hstmts.corresponds A _ _ hstart).bind fun ρ ρ' hρ ↦ ?_).eq.symm
  rw [hvalue.corresponds A ρ ρ' hρ]
  exact .refl trivial _

/-- What is noted in the body of a function is not about what is known around it. -/
theorem func (hc : c.Sound m n B) (hcaptures : ∀ p ∈ captures, p.2.Known B)
    (hinner : ∀ x ∈ innerIds head captures, x < m) (hlabels : (stmtLabels stmts).Nodup)
    (hforward : Forward stmts)
    (hstmts : Propagated m n (innerIds head captures) c (.stmts stmts) n₁ B₁ c₁ (.stmts stmts'))
    (hvalue : Propagated m n₁ B₁ c₁ (.rhs value) n' B₁ c' (.rhs value')) (hn : n ≤ n₁)
    (hn' : n₁ ≤ n') :
    Propagated m n B c (.rhs (.func head captures (.mk stmts value))) n' B c'
      (.rhs (.func head (captures.map fun (cell, v) ↦ (cell, c.operand v))
        (.mk stmts' value'))) := by
  have hgrown : Copies.Grown n c c' := hstmts.grown.trans hvalue.grown hn
  have hinside : c.Sound m n (innerIds head captures) := hc.inside hinner
  have hall : c.kept (innerIds head captures) = innerIds head captures :=
    List.filter_eq_self.mpr fun x hx ↦ by rw [hc.of_variable (hinner x hx)]; rfl
  have hids : innerIds head (captures.map fun (cell, v) ↦ (cell, c.operand v))
      = c.kept (innerIds head captures) := by
    rw [hall, innerIds, List.map_map]
    rfl
  constructor
  · exact hc.grown hvalue.sound hgrown (Nat.le_trans hn hn')
  · exact hgrown
  · intro k hk
    obtain ⟨k₁, hk₁, hflows₁⟩ := hstmts.flows k hk
    obtain ⟨k', hk', hflows'⟩ := hvalue.flows k₁ hk₁
    have hsame : stmtLabels stmts' = stmtLabels stmts := hstmts.labels
    rw [hvalue.grown.kept_eq hstmts.sound.lt] at hflows'
    refine ⟨k', hk', ?_⟩
    rw [hgrown.kept_eq hc.lt]
    refine .func ?_ ?_ (hsame ▸ hlabels) (hids ▸ hflows₁) hflows'
    · intro _ hp
      obtain ⟨q, hq, rfl⟩ := List.mem_map.mp hp
      exact hc.operand_known (hcaptures q hq)
    · rw [hids]
      exact fun x hx ↦ hinner x (Copies.mem_kept.mp hx).1
  · rfl
  · intro x
    have hcount₁ := hstmts.introduced x
    have hcount₂ := hvalue.introduced x
    simp only [Part.introduced, count_introduced_func, hids, hall] at *
    omega
  · intro V A ρ ρ' hρ
    have hwords : captures.map (fun p ↦ (c.operand p.2).eval A ρ')
        = captures.map fun p ↦ p.2.eval A ρ :=
      List.map_congr_left fun p hp ↦ hρ.operand hc (hcaptures p hp)
    rw [Rhs.eval, Rhs.eval, List.map_map]
    exact congrArg (fun ws ↦ (.ask (.closure head.label ws) fun _ ↦
      .done (A.closure head.label ws) : Run V V)) hwords
  · exact .cons (hstmts.runsAs hvalue hinner hinside hforward hlabels)
      (List.rel_append hstmts.bodies hvalue.bodies)

theorem nil (hc : c.Sound m n B) : Propagated m n B c (.stmts []) n B c (.stmts []) where
  sound := hc
  grown _ _ := rfl
  flows k hk := ⟨k, hk, .nil⟩
  labels := rfl
  introduced _ := Nat.le_refl _
  corresponds _ _ _ hρ := .done hρ
  bodies := .nil

theorem assign (hc : c.Sound m n B) (hn : n ≤ n₁) (ht : Fresh m B t)
    (hsource : Propagated m n B c (.rhs source) n₁ B c₁ (.rhs source'))
    (hrest : Propagated m n₁ (t.id :: B) c₁ (.stmts ss) n' B' c' (.stmts ss')) :
    Propagated m n B c (.stmts (.move t source :: ss)) n' B' c'
      (.stmts (.move t source' :: ss')) where
  sound := hrest.sound
  grown := hsource.grown.trans hrest.grown hn
  flows k hk := by
    obtain ⟨k₁, hk₁, hflows₁⟩ := hsource.flows k hk
    obtain ⟨k', hk', hflows'⟩ := hrest.flows k₁ hk₁
    rw [hsource.grown.kept_eq hc.lt] at hflows₁
    rw [Copies.kept_cons (hsource.sound.of_variable ht.lt), hsource.grown.kept_eq hc.lt] at hflows'
    exact ⟨k', hk', .assign hflows₁ ⟨ht.hint, ht.lt, fun h ↦ ht.notMem (Copies.mem_kept.mp h).1⟩
      hflows'⟩
  labels := hrest.labels
  introduced x := by
    have hcount₁ := hsource.introduced x
    have hcount₂ := hrest.introduced x
    simp only [Part.introduced, count_introducedInStmts_cons_move] at *
    omega
  corresponds A ρ ρ' hρ := by
    rw [runStmts_move, runStmts_move, hsource.corresponds A ρ ρ' hρ]
    refine (Dialogue.Rel.refl trivial _).bind ?_
    rintro w _ rfl
    exact hrest.corresponds A _ _ ((hρ.grown hc hsource.grown).set hsource.sound
      (hsource.sound.of_variable ht.lt) ht.notMem)
  bodies := List.rel_append hsource.bodies hrest.bodies

/-- A step is kept that is no copy. -/
theorem staged (hc : c.Sound m n B) (hn : n ≤ n₁) (hx : n₁ ≤ x)
    (hsource : Propagated m n B c (.rhs source) n₁ B c₁ (.rhs source'))
    (hrest : Propagated m (x + 1) (x :: B) c₁ (.stmts ss) n' B' c' (.stmts ss')) :
    Propagated m n B c (.stmts (.move ⟨x, none⟩ source :: ss)) n' B' c'
      (.stmts (.move ⟨x, none⟩ source' :: ss')) where
  sound := hrest.sound
  grown := hsource.grown.trans hrest.grown (by omega)
  flows k hk := by
    obtain ⟨k₁, hk₁, hflows₁⟩ := hsource.flows k hk
    obtain ⟨k', hk', hflows'⟩ := hrest.flows (x + 1) (Nat.le_refl _)
    rw [hsource.grown.kept_eq hc.lt] at hflows₁
    rw [Copies.kept_cons (hsource.sound.of_unused hx), hsource.grown.kept_eq hc.lt] at hflows'
    exact ⟨k', hk', .staged hflows₁ (Nat.le_trans hk₁ hx) hflows'⟩
  labels := hrest.labels
  introduced x := by
    have hcount₁ := hsource.introduced x
    have hcount₂ := hrest.introduced x
    simp only [Part.introduced, count_introducedInStmts_cons_move] at *
    omega
  corresponds A ρ ρ' hρ := by
    rw [runStmts_move, runStmts_move, hsource.corresponds A ρ ρ' hρ]
    refine (Dialogue.Rel.refl trivial _).bind ?_
    rintro w _ rfl
    refine hrest.corresponds A _ _ ((hρ.grown hc hsource.grown).set hsource.sound
      (t := ⟨x, none⟩) (hsource.sound.of_unused hx) fun h ↦ ?_)
    have := hc.lt x h
    omega
  bodies := List.rel_append hsource.bodies hrest.bodies

/-- A copy is dropped. -/
theorem dropped (hc : c.Sound m n B) (hn : n ≤ n₁) (hx : n₁ ≤ x)
    (hsource : Propagated m n B c (.rhs source) n₁ B c₁ (.rhs (.value (.temp u))))
    (hrest : Propagated m (x + 1) (x :: B) (c₁.drop ⟨x, none⟩ u) (.stmts ss) n' B' c'
      (.stmts ss')) :
    Propagated m n B c (.stmts (.move ⟨x, none⟩ source :: ss)) n' B' c' (.stmts ss') where
  sound := hrest.sound
  grown := by
    refine hsource.grown.trans (fun y hy ↦ ?_) hn
    rw [hrest.grown y (by omega), Copies.source_drop, if_neg (by simp only; omega)]
  flows k hk := by
    obtain ⟨k', hk', hflows'⟩ := hrest.flows k (by omega)
    rw [hsource.sound.kept_drop hx, hsource.grown.kept_eq hc.lt] at hflows'
    exact ⟨k', hk', hflows'⟩
  labels := hrest.labels
  introduced x := by
    have hcount₁ := hsource.introduced x
    have hcount₂ := hrest.introduced x
    simp only [Part.introduced, count_introducedInStmts_cons_move] at *
    omega
  corresponds A ρ ρ' hρ := by
    have hword : source.eval A ρ = .done (ρ'.get u) := (hsource.corresponds A ρ ρ' hρ).symm
    rw [runStmts_move, hword]
    exact hrest.corresponds A _ _ (hρ.grown hc hsource.grown).drop
  bodies := by
    have hbodies := List.rel_append hsource.bodies hrest.bodies
    simpa [Part.bodies, bodiesOfStmts, Stmt.bodies, Rhs.bodies] using hbodies

/-- The word of a branch is left in a variable. What is noted in the branch, and what is noted
between it and the place where the branches meet, does not matter there. -/
theorem branch (hsub : B ⊆ B₁) (ht : Fresh m B t)
    (hstmts : Propagated m n B c (.stmts stmts) n₁ B₁ c₁ (.stmts stmts'))
    (hvalue : Propagated m n₁ B₁ c₁ (.rhs value) n₂ B₁ c₂ (.rhs value'))
    (hgrown : Copies.Grown n₂ c₂ c') (hc' : c'.Sound m n' B) {V : Type} (A : Algebra V)
    {ρ ρ' : Store V} (hρ : Mirrors c B ρ ρ') :
    Dialogue.Rel True (Mirrors c' B)
      (do let ρ ← runStmts A stmts ρ
          return ρ.set t (← value.eval A ρ))
      (do let ρ ← runStmts A stmts' ρ'
          return ρ.set t (← value'.eval A ρ)) := by
  refine (hstmts.corresponds A ρ ρ' hρ).bind fun σ σ' hσ ↦ ?_
  rw [hvalue.corresponds A σ σ' hσ]
  refine (Dialogue.Rel.refl trivial _).bind ?_
  rintro w _ rfl
  have hmeet : Mirrors c' B σ σ' :=
    ((hσ.grown hstmts.sound hvalue.grown).grown hvalue.sound hgrown).subset hsub
  exact .done ((hmeet.set hc' (hc'.of_variable ht.lt) ht.notMem).subset (List.subset_cons_self _ _))

theorem cond (hc : c.Sound m n B) (hv : v.Known B)
    (hle : n ≤ n₁ ∧ n₁ ≤ n₂ ∧ n₂ ≤ n₃ ∧ n₃ ≤ n₄) (hsub₁ : B ⊆ B₁) (hsub₂ : B ⊆ B₂)
    (hjno : Fresh m B j.no) (hjyes : Fresh m B j.yes) (hjresult : Fresh m B j.result)
    (hnoForward : Forward no) (hyesForward : Forward yes)
    (hnoLabels : (Label.yes j.id).render ∉ stmtLabels no)
    (hyesLabels : (Label.after j.id).render ∉ stmtLabels yes)
    (hno : Propagated m n B c (.stmts no) n₁ B₁ c₁ (.stmts no'))
    (hnoValue : Propagated m n₁ B₁ c₁ (.rhs noValue) n₂ B₁ c₂ (.rhs noValue'))
    (hyes : Propagated m n₂ B c₂ (.stmts yes) n₃ B₂ c₃ (.stmts yes'))
    (hyesValue : Propagated m n₃ B₂ c₃ (.rhs yesValue) n₄ B₂ c₄ (.rhs yesValue'))
    (hrest : Propagated m n₄ (j.result.id :: B) c₄ (.stmts ss) n' B' c' (.stmts ss')) :
    Propagated m n B c (.stmts (diamond j v no noValue yes yesValue ++ ss)) n' B' c'
      (.stmts (diamond j (c.operand v) no' noValue' yes' yesValue' ++ ss')) := by
  have hgrown₂ : Copies.Grown n c c₂ := hno.grown.trans hnoValue.grown hle.1
  have hgrown₄ : Copies.Grown n₂ c₂ c₄ := hyes.grown.trans hyesValue.grown hle.2.2.1
  have hgrown : Copies.Grown n c c₄ := hgrown₂.trans hgrown₄ (by omega)
  have hc₄ : c₄.Sound m n₄ B := hc.grown hyesValue.sound hgrown (by omega)
  have hsameNo : stmtLabels no' = stmtLabels no := hno.labels
  have hsameYes : stmtLabels yes' = stmtLabels yes := hyes.labels
  have hsame : stmtLabels ss' = stmtLabels ss := hrest.labels
  -- the branches without copies are branches again
  have hflows : ∀ k ≤ n, ∃ k' ≤ n', Flows m k (c.kept B)
      (.stmts (diamond j (c.operand v) no' noValue' yes' yesValue' ++ ss')) k' (c'.kept B') := by
    intro k hk
    obtain ⟨k₁, hk₁, hflows₁⟩ := hno.flows k hk
    obtain ⟨k₂, hk₂, hflows₂⟩ := hnoValue.flows k₁ hk₁
    obtain ⟨k₃, hk₃, hflows₃⟩ := hyes.flows k₂ hk₂
    obtain ⟨k₄, hk₄, hflows₄⟩ := hyesValue.flows k₃ hk₃
    obtain ⟨k', hk', hflows'⟩ := hrest.flows k₄ hk₄
    rw [hnoValue.grown.kept_eq hno.sound.lt] at hflows₂
    rw [hgrown₂.kept_eq hc.lt] at hflows₃
    rw [hyesValue.grown.kept_eq hyes.sound.lt] at hflows₄
    rw [Copies.kept_cons (hc₄.of_variable hjresult.lt), hgrown.kept_eq hc.lt] at hflows'
    have hfresh : ∀ {t}, Fresh m B t → Fresh m (c.kept B) t := fun ht ↦
      ⟨ht.hint, ht.lt, fun h ↦ ht.notMem (Copies.mem_kept.mp h).1⟩
    exact ⟨k', hk', .cond (hc.operand_known hv) hflows₁ hflows₂ hflows₃ hflows₄ (hfresh hjno)
      (hfresh hjyes) (hfresh hjresult) (hsameNo ▸ hnoLabels) (hsameYes ▸ hyesLabels) hflows'⟩
  obtain ⟨_, -, hnoFlows⟩ := hno.flows n (Nat.le_refl _)
  obtain ⟨_, -, hyesFlows⟩ := hyes.flows n₂ (Nat.le_refl _)
  constructor
  · exact hrest.sound
  · exact hgrown.trans hrest.grown (by omega)
  · exact hflows
  · simp only [Part.labels, stmtLabels_append, stmtLabels_diamond, hsameNo, hsameYes, hsame]
  · intro x
    have hcount₁ := hno.introduced x
    have hcount₂ := hnoValue.introduced x
    have hcount₃ := hyes.introduced x
    have hcount₄ := hyesValue.introduced x
    have hcount' := hrest.introduced x
    simp only [Part.introduced, count_introducedInStmts_append,
      count_introducedInStmts_diamond] at *
    omega
  · intro V A ρ ρ' hρ
    rw [runStmts_append (forward_diamond hnoForward hyesForward),
      runStmts_append (forward_diamond hnoFlows.forward hyesFlows.forward),
      runStmts_diamond hnoForward hyesForward hnoLabels hyesLabels,
      runStmts_diamond hnoFlows.forward hyesFlows.forward (hsameNo ▸ hnoLabels)
        (hsameYes ▸ hyesLabels), hρ.operand hc hv]
    refine Dialogue.Rel.bind (R := Mirrors c₄ (j.result.id :: B)) ?_
      fun σ σ' hσ ↦ hrest.corresponds A σ σ' hσ
    refine .ask fun _ ↦ Dialogue.Rel.bind (R := Mirrors c₄ B) ?_ fun σ σ' hσ ↦ ?_
    · split
      · exact branch hsub₂ hjyes hyes hyesValue (fun _ _ ↦ rfl) hc₄ A (hρ.grown hc hgrown₂)
      · exact branch hsub₁ hjno hno hnoValue hgrown₄ hc₄ A hρ
    · -- both take the same one of the two variables
      rw [runStmts_phi, runStmts_phi, ← Lower.Join.choose, ← Lower.Join.choose,
        hσ.choose (hc₄.of_variable hjyes.lt) (hc₄.of_variable hjno.lt)]
      cases j.choose σ with
      | none => exact .stop trivial
      | some w => exact .done (hσ.set hc₄ (hc₄.of_variable hjresult.lt) hjresult.notMem)
  · have hbranches := List.rel_append hno.bodies (List.rel_append hnoValue.bodies
      (List.rel_append hyes.bodies (List.rel_append hyesValue.bodies hrest.bodies)))
    simpa [Part.bodies, diamond, bodiesOfStmts, Stmt.bodies] using hbranches

end

end Propagated

theorem Flows.value_known {m n n' : Nat} {B B' : List Nat} {v : Operand}
    (h : Flows m n B (.rhs (.value v)) n' B') : v.Known B := by
  cases h with
  | value hv => exact hv

/-- What is said of a part where copies are noted along it. -/
def Part.IsKept (m n : Nat) (B : List Nat) (n' : Nat) (B' : List Nat) : Part → Prop
  | rhs source => ∀ c : Copies, c.Sound m n B → ∃ source' c',
      source.propagate.run c = (source', c') ∧
        Propagated m n B c (.rhs source) n' B' c' (.rhs source')
  | stmts ss => ∀ c : Copies, c.Sound m n B → ∃ ss' c', (propagateAll ss).run c = (ss', c') ∧
      Propagated m n B c (.stmts ss) n' B' c' (.stmts ss')

/-- Parts of the shapes of blocks do the same without copies. -/
theorem Flows.isKept {m n n' : Nat} {B B' : List Nat} {p : Part} (h : Flows m n B p n' B') :
    p.IsKept m n B n' B' := by
  induction h with
  | value hv =>
    exact fun c hc ↦ ⟨_, c, rfl, .operands hc (fun k ↦ .value (hc.operand_known hv))
      (fun A ρ ρ' hρ ↦ by rw [Rhs.eval, Rhs.eval, hρ.operand hc hv]) rfl rfl rfl⟩
  | tag hv =>
    exact fun c hc ↦ ⟨_, c, rfl, .operands hc (fun k ↦ .tag (hc.operand_known hv))
      (fun A ρ ρ' hρ ↦ by rw [Rhs.eval, Rhs.eval, hρ.operand hc hv]) rfl rfl rfl⟩
  | untag hv =>
    exact fun c hc ↦ ⟨_, c, rfl, .operands hc (fun k ↦ .untag (hc.operand_known hv))
      (fun A ρ ρ' hρ ↦ by rw [Rhs.eval, Rhs.eval, hρ.operand hc hv]) rfl rfl rfl⟩
  | call hcallee hargs => exact fun c hc ↦ ⟨_, c, rfl, .call hc hcallee hargs⟩
  | func hcaptures hinner hlabels hstmts hvalue ihstmts ihvalue =>
    intro c hc
    obtain ⟨stmts', c₁, hrun₁, hkept₁⟩ := ihstmts c (hc.inside hinner)
    obtain ⟨value', c₂, hrun₂, hkept₂⟩ := ihvalue c₁ hkept₁.sound
    exact ⟨_, c₂, Propagate.run_func (Propagate.run_block hrun₁ hrun₂),
      .func hc hcaptures hinner hlabels hstmts.forward hkept₁ hkept₂ hstmts.le hvalue.le⟩
  | nil => exact fun c hc ↦ ⟨[], c, rfl, .nil hc⟩
  | assign hsource ht hrest ihsource ihrest =>
    intro c hc
    obtain ⟨source', c₁, hrun₁, hkept₁⟩ := ihsource c hc
    obtain ⟨ss', c₂, hrun₂, hkept₂⟩ := ihrest c₁ (hkept₁.sound.assign ht.lt)
    exact ⟨_, c₂, Propagate.run_cons (Propagate.run_assign hrun₁ ht.hint) hrun₂,
      .assign hc hsource.le ht hkept₁ hkept₂⟩
  | @staged _ _ _ B _ _ _ _ hsource hid hrest ihsource ihrest =>
    intro c hc
    obtain ⟨source', c₁, hrun₁, hkept₁⟩ := ihsource c hc
    by_cases hcopy : ∃ u, source' = .value (.temp u)
    · obtain ⟨u, rfl⟩ := hcopy
      -- what is copied is known, and it is no copy
      obtain ⟨k, -, hflows⟩ := hkept₁.flows _ (Nat.le_refl _)
      have hu : u.id ∈ c₁.kept B := by
        rw [hkept₁.grown.kept_eq hc.lt]
        exact hflows.value_known
      obtain ⟨ss', c₂, hrun₂, hkept₂⟩ := ihrest _ (hkept₁.sound.drop hid hu)
      exact ⟨_, c₂, Propagate.run_cons (Propagate.run_drop hrun₁) hrun₂,
        .dropped hc hsource.le hid hkept₁ hkept₂⟩
    · obtain ⟨ss', c₂, hrun₂, hkept₂⟩ := ihrest c₁ (hkept₁.sound.stage hid)
      exact ⟨_, c₂, Propagate.run_cons
        (Propagate.run_staged hrun₁ fun u hu ↦ hcopy ⟨u, hu⟩) hrun₂,
        .staged hc hsource.le hid hkept₁ hkept₂⟩
  | cond hv hno hnoValue hyes hyesValue hjno hjyes hjresult hnoLabels hyesLabels hrest
      ihno ihnoValue ihyes ihyesValue ihrest =>
    intro c hc
    obtain ⟨no', c₁, hrun₁, hkept₁⟩ := ihno c hc
    obtain ⟨noValue', c₂, hrun₂, hkept₂⟩ := ihnoValue c₁ hkept₁.sound
    have hgrown₂ := hkept₁.grown.trans hkept₂.grown hno.le
    have hc₂ := hc.grown hkept₂.sound hgrown₂ (Nat.le_trans hno.le hnoValue.le)
    obtain ⟨yes', c₃, hrun₃, hkept₃⟩ := ihyes c₂ hc₂
    obtain ⟨yesValue', c₄, hrun₄, hkept₄⟩ := ihyesValue c₃ hkept₃.sound
    have hgrown₄ := hkept₃.grown.trans hkept₄.grown hyes.le
    have hc₄ := hc₂.grown hkept₄.sound hgrown₄ (Nat.le_trans hyes.le hyesValue.le)
    obtain ⟨ss', c₅, hrun₅, hkept₅⟩ := ihrest c₄ (hc₄.assign hjresult.lt)
    refine ⟨_, c₅, Propagate.run_append (Propagate.run_diamond hrun₁ hrun₂ hrun₃ hrun₄ hjno.hint
      hjyes.hint ?_ ?_) hrun₅, .cond hc hv ⟨hno.le, hnoValue.le, hyes.le, hyesValue.le⟩ hno.subset
        hyes.subset hjno hjyes hjresult hno.forward hyes.forward hnoLabels hyesLabels hkept₁ hkept₂
        hkept₃ hkept₄ hkept₅⟩
    · exact Copies.origin_of_none (hc₄.of_variable hjno.lt)
    · exact Copies.origin_of_none (hc₄.of_variable hjyes.lt)

/-! ## Programs -/

/-- A block that is run where `B` is known. The steps in it are numbered from `n` on and below
`n'`. -/
structure Block.Shaped (m n : Nat) (B : List Nat) (n' : Nat) (b : Block) : Prop where
  labels : (stmtLabels b.stmts).Nodup
  flows : ∃ n₁ B₁, Flows m n B (.stmts b.stmts) n₁ B₁ ∧ Flows m n₁ B₁ (.rhs b.value) n' B₁

/-- Blocks of a program, with the steps in them numbered along the text. -/
inductive Shaped (m : Nat) : (n : Nat) → List Block → (n' : Nat) → Prop where
  | nil {n} : Shaped m n [] n
  | cons {n n₁ n' b bs} (hb : b.Shaped m n [] n₁) (hbs : Shaped m n₁ bs n') :
      Shaped m n (b :: bs) n'

/-- Run for enough steps, both blocks ask the same and end with the same word. -/
def Block.DoneBy (b b' : Block) : Prop :=
  ∀ {V : Type} (A : Algebra V) (initial : Nat → V) (steps steps' : Nat), b.stmts.length < steps →
    b'.stmts.length < steps' →
    (b.run A steps initial).Total ∧ b'.run A steps' initial = b.run A steps initial

section

variable {m n n' k k' lo hi : Nat} {B K : List Nat} {c : Copies} {b : Block} {bs : List Block}
  {e : Tree} {es : List Tree}

theorem Flatten.run_blocks_cons (h : (blocks (e :: es)).run k = (bs, k')) :
    ∃ b bs' k₁, bs = b :: bs' ∧ e.block.run k = (b, k₁) ∧ (blocks es).run k₁ = (bs', k') := by
  generalize hb : e.block.run k = p at h
  obtain ⟨b, k₁⟩ := p
  generalize hbs : (blocks es).run k₁ = p at h
  obtain ⟨bs', k₂⟩ := p
  rw [blocks, run_bind hb, run_bind hbs] at h
  cases h
  exact ⟨b, bs', k₁, rfl, rfl, hbs⟩

/-- The blocks of lowered trees number their steps along the text. -/
theorem Made.shaped (h : Made [] lo hi (.trees es)) (hm : hi ≤ m) (hk : m ≤ k)
    (hblocks : (blocks es).run k = (bs, k')) : Shaped m k bs k' := by
  induction es generalizing lo k bs with
  | nil =>
    cases hblocks
    exact .nil
  | cons e es ih =>
    cases h with
    | cons he hes =>
      obtain ⟨b, bs', k₁, rfl, hb, hbs⟩ := Flatten.run_blocks_cons hblocks
      obtain ⟨stmts, s, k₂, K', hflat, hstages⟩ := he.flattened (A := Algebra.unit) (by simp)
        (Nat.le_trans hes.le hm) k hk
      rw [Tree.run_block hflat] at hb
      cases hb
      obtain ⟨B', hsub, hflows, -⟩ := hstages.flows [] (List.Subset.refl _) (by simp)
      have hvalue := Simple.flows (m := m) (n := k₁)
        ((hstages.known s List.mem_cons_self).mono hsub)
      exact .cons ⟨hstages.labels.nodup, k₁, B', hflows, hvalue⟩
        (ih hes (Nat.le_trans hk hstages.le) hbs)

/-- The blocks of a program do the same without copies, and they are shaped as they were. -/
theorem Shaped.propagated (h : Shaped m n bs n') (hc : c.Sound m n []) :
    ∃ bs' c', (propagateBlocks bs).run c = (bs', c') ∧
      List.Forall₂ (fun b b' ↦ List.Forall₂ Block.RunsAs (b :: b.bodies) (b' :: b'.bodies)) bs bs' ∧
      (∀ k ≤ n, ∃ k' ≤ n', Shaped m k bs' k') ∧
      ∀ x, (introduced bs').count x ≤ (introduced bs).count x := by
  induction h generalizing c with
  | nil => exact ⟨[], c, rfl, .nil, fun k hk ↦ ⟨k, hk, .nil⟩, fun _ ↦ Nat.le_refl _⟩
  | @cons n n₁ n' b bs hb _ ih =>
    obtain ⟨stmts, value⟩ := b
    obtain ⟨hlabels, n₂, B₁, hstmts, hvalue⟩ := hb
    obtain ⟨stmts', c₁, hrun₁, hkept₁⟩ := hstmts.isKept c hc
    obtain ⟨value', c₂, hrun₂, hkept₂⟩ := hvalue.isKept c₁ hkept₁.sound
    obtain ⟨bs', c', hrun', hbs', hshaped', hcount'⟩ := ih (hc.grown hkept₂.sound
      (hkept₁.grown.trans hkept₂.grown hstmts.le) (Nat.le_trans hstmts.le hvalue.le))
    have hrun : (Block.mk stmts value).propagate.run c = (.mk stmts' value', c₂) :=
      Propagate.run_block hrun₁ hrun₂
    refine ⟨.mk stmts' value' :: bs', c', ?_, .cons (.cons ?_ ?_) hbs', fun k hk ↦ ?_, fun x ↦ ?_⟩
    · rw [propagateBlocks, Propagate.run_bind hrun, Propagate.run_bind hrun']
      rfl
    · exact hkept₁.runsAs hkept₂ (by simp) hc hstmts.forward hlabels
    · exact List.rel_append hkept₁.bodies hkept₂.bodies
    · obtain ⟨k₁, hk₁, hflows₁⟩ := hkept₁.flows k hk
      obtain ⟨k₂, hk₂, hflows₂⟩ := hkept₂.flows k₁ hk₁
      obtain ⟨k', hk', hrest⟩ := hshaped' k₂ hk₂
      have hsame : stmtLabels stmts' = stmtLabels stmts := hkept₁.labels
      rw [hkept₂.grown.kept_eq hkept₁.sound.lt] at hflows₂
      exact ⟨k', hk', .cons ⟨hsame ▸ hlabels, k₁, _, hflows₁, hflows₂⟩ hrest⟩
    · have hcount₁ := hkept₁.introduced x
      have hcount₂ := hkept₂.introduced x
      have hcount := hcount' x
      rw [count_introduced_cons, count_introduced_cons]
      simp only [Part.introduced, Block.stmts, Block.value] at hcount₁ hcount₂
      omega

private theorem forall₂_compose {α β γ : Type} {R : α → β → Prop} {S T : β → γ → Prop}
    {as : List α} {bs : List β} {cs : List γ} (h : List.Forall₂ R as bs) (h' : List.Forall₂ S bs cs)
    (hT : ∀ a b c, R a b → S b c → T b c) : List.Forall₂ T bs cs := by
  induction h generalizing cs with
  | nil =>
    cases h'
    exact .nil
  | cons hab _ ih =>
    cases h' with
    | cons hbc h' => exact .cons (hT _ _ _ hab hbc) (ih h')

/-- Leaving out the copies of a program keeps what its blocks do, and every function in it. -/
theorem withoutCopies_keeps {es : List Expr} {trees : List Tree} {l : Lowerer}
    (hlower : (lowerAll es).outcome (.start n) = (.ok trees, l)) (hk : l.next ≤ k)
    (hblocks : (blocks trees).run k = (bs, k')) :
    List.Forall₂ (fun b b' ↦ List.Forall₂ Block.DoneBy (b :: b.bodies) (b' :: b'.bodies)) bs
      (withoutCopies bs) := by
  obtain ⟨hmade, -⟩ := lowerAll_made (fun e _ ↦ e.lowersMade) (Lowerer.sees_start n) hlower
  have hblockOf := hmade.isBlockOf (by simp) (Nat.le_refl _) hk hblocks
  obtain ⟨bs', c', hrun, hsame, -, -⟩ :=
    (hmade.shaped (Nat.le_refl _) hk hblocks).propagated (.empty hk)
  rw [withoutCopies, hrun]
  refine forall₂_compose hblockOf hsame fun e b b' he hb ↦ ?_
  refine forall₂_compose (.cons he he.bodies) hb fun e b b' he hb V A initial steps steps' hsteps
    hsteps' ↦ ⟨?_, hb A initial steps steps' hsteps hsteps'⟩
  obtain ⟨htotal, hrun⟩ := he.doneBy A initial steps hsteps
  exact hrun ▸ htotal

end

/-- A branch of a conditional and a call are arguments of a call, so copies are dropped. -/
theorem nestedExpr_keeps_without_copies : ∃ trees l bs k,
    (lowerAll [nestedExpr]).outcome (.start 0) = (.ok trees, l) ∧
    (blocks trees).run l.next = (bs, k) ∧
    List.Forall₂ (fun b b' ↦ List.Forall₂ Block.DoneBy (b :: b.bodies) (b' :: b'.bodies)) bs
      (withoutCopies bs) := by
  obtain ⟨trees, l, hlower⟩ :
      ∃ trees l, (lowerAll [nestedExpr]).outcome (.start 0) = (.ok trees, l) := ⟨_, _, rfl⟩
  exact ⟨trees, l, _, _, hlower, rfl, withoutCopies_keeps hlower (Nat.le_refl _) rfl⟩

end TaggedLisp.Ir
