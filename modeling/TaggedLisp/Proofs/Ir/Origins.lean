import TaggedLisp.Proofs.Ir.Apart

/-!
# Origins are found

To find the origin of a copy, one looks up what it was copied from, and looks that up again, as long
as there is a note on it. Nothing in the notes bounds how often. Where two temporaries are copied
from each other, the search goes on forever (`propagateUpTo_circle`).

Here the search is cut off instead: `Copies.originUpTo n` looks up at most `n` notes and gives up if
that is not enough, and `Block.propagateUpTo n` leaves out copies with it, or gives up with it. The
search ends if there is a limit for which it does not give up.

In the blocks of a checked program a single note is enough (`propagation_ends`). A move is noted
once the origins stand for the copies in it, so what is copied from is no copy then. It does not
become one later: a copy that is noted is numbered above all temporaries that are mentioned in the
notes. So the notes stay `Copies.Flat`.
-/

namespace TaggedLisp.Ir

/-! ## A search with a limit -/

namespace Copies

/-- What `t` was first copied from, unless more than `n` notes have to be looked up. -/
def originUpTo (c : Copies) : (n : Nat) → Temp → Option Temp
  | 0, t => if (c.source t.id).isNone then some t else Option.none
  | n + 1, t =>
    match c.source t.id with
    | .none => some t
    | some u => c.originUpTo n u

/-- An operand with the origin for a copy. -/
def operandUpTo (c : Copies) (n : Nat) : Operand → Option Operand
  | .temp t => return .temp (← c.originUpTo n t)
  | v => return v

end Copies

/-- A step of copy propagation that can give up. -/
abbrev PropagateUpTo := StateT Copies Option

mutual

/-- A computation with origins for copies. -/
def Rhs.propagateUpTo (n : Nat) : Rhs → PropagateUpTo Rhs
  | .value v => do return .value (← (← get).operandUpTo n v)
  | .tag t v => do return .tag t (← (← get).operandUpTo n v)
  | .untag v => do return .untag (← (← get).operandUpTo n v)
  | .call callee args => do
    let c ← get
    let callee ← c.operandUpTo n callee
    let args ← args.mapM fun v ↦ c.operandUpTo n v
    return .call callee args
  | .func head captures body => do
    let c ← get
    let captures ← captures.mapM fun (cell, v) ↦ do return (cell, ← c.operandUpTo n v)
    return .func head captures (← body.propagateUpTo n)

/-- A block without copies. -/
def Block.propagateUpTo (n : Nat) : Block → PropagateUpTo Block
  | .mk stmts value => do
    let stmts ← propagateAllUpTo n stmts
    return .mk stmts (← value.propagateUpTo n)

/-- Statements without copies. -/
def propagateAllUpTo (n : Nat) : List Stmt → PropagateUpTo (List Stmt)
  | [] => return []
  | s :: ss => do
    let first ← s.propagateUpTo n
    let rest ← propagateAllUpTo n ss
    return first ++ rest

/-- A statement with origins for copies, or nothing when it only copies. -/
def Stmt.propagateUpTo (n : Nat) : Stmt → PropagateUpTo (List Stmt)
  | .move dest source => do
    let source ← source.propagateUpTo n
    match source with
    | .value (.temp t) =>
      if dest.isSynthetic then
        modify (·.drop dest t)
        return []
      else return [.move dest source]
    | _ => return [.move dest source]
  | .branch cond l => do return [.branch (← (← get).operandUpTo n cond) l]
  | .phi dest sources => do
    let c ← get
    return [.phi dest (← sources.mapM fun (l, t) ↦ do return (l, ← c.originUpTo n t))]
  | .jump l => return [.jump l]
  | .label l => return [.label l]

end

/-- Blocks without copies, with what is learned in each used in the later ones. -/
def propagateBlocksUpTo (n : Nat) : List Block → PropagateUpTo (List Block)
  | [] => return []
  | b :: bs => do
    let b ← b.propagateUpTo n
    return b :: (← propagateBlocksUpTo n bs)

/-! ## Circles -/

namespace Copies

variable {c : Copies} {t : Temp}

theorem originUpTo_of_none (h : c.source t.id = Option.none) (n : Nat) :
    c.originUpTo n t = some t := by
  cases n with
  | zero => rw [originUpTo, h]; rfl
  | succ n => rw [originUpTo, h]

/-- Among temporaries that are all copied from each other, the search does not end. -/
theorem originUpTo_circle {S : Nat → Prop}
    (hS : ∀ x, S x → ∃ u : Temp, c.source x = some u ∧ S u.id) (ht : S t.id) (n : Nat) :
    c.originUpTo n t = Option.none := by
  induction n generalizing t with
  | zero =>
    obtain ⟨u, hu, -⟩ := hS _ ht
    rw [originUpTo, hu]
    rfl
  | succ n ih =>
    obtain ⟨u, hu, hSu⟩ := hS _ ht
    rw [originUpTo, hu]
    exact ih hSu

/-- A copy of itself has no origin. -/
theorem originUpTo_self (h : c.source t.id = some t) (n : Nat) :
    c.originUpTo n t = Option.none :=
  originUpTo_circle (S := (· = t.id)) (fun _ hx ↦ ⟨t, hx ▸ h, rfl⟩) rfl n

end Copies

namespace Propagate

theorem run_get {α : Type} (f : Copies → PropagateUpTo α) (c : Copies) :
    (get >>= f).run c = (f c).run c := rfl

theorem runUpTo_value (n : Nat) (t : Temp) (c : Copies) :
    ((Rhs.value (.temp t)).propagateUpTo n).run c
      = (c.originUpTo n t).map fun u ↦ (.value (.temp u), c) := by
  simp only [Rhs.propagateUpTo]
  rw [run_get, Copies.operandUpTo]
  cases c.originUpTo n t <;> rfl

/-- A move between steps is dropped if the origin of its source is found. -/
theorem runUpTo_copy (n x : Nat) (t : Temp) (ss : List Stmt) (c : Copies) :
    (propagateAllUpTo n (.move ⟨x, none⟩ (.value (.temp t)) :: ss)).run c
      = (c.originUpTo n t).bind fun u ↦ (propagateAllUpTo n ss).run (c.drop ⟨x, none⟩ u) := by
  simp only [propagateAllUpTo, Stmt.propagateUpTo]
  rw [StateT.run_bind, StateT.run_bind, runUpTo_value]
  cases c.originUpTo n t with
  | none => rfl
  | some u =>
    exact bind_pure ((propagateAllUpTo n ss).run (c.drop ⟨x, Option.none⟩ u))

end Propagate

/-- Where two temporaries are copied from each other and one of them is read, no limit is enough. -/
theorem propagateUpTo_circle (x y n : Nat) :
    ((Block.mk [.move ⟨x, none⟩ (.value (.temp ⟨y, none⟩)),
      .move ⟨y, none⟩ (.value (.temp ⟨x, none⟩))] (.value (.temp ⟨y, none⟩))).propagateUpTo n).run
        .none = none := by
  rw [Block.propagateUpTo, StateT.run_bind, Propagate.runUpTo_copy,
    Copies.originUpTo_of_none rfl, Option.bind_some, Propagate.runUpTo_copy]
  generalize hc : Copies.none.drop ⟨x, none⟩ ⟨y, none⟩ = c
  have hx : c.source x = some ⟨y, none⟩ := by
    rw [← hc, Copies.source_drop, if_pos rfl]
  cases hsecond : c.originUpTo n ⟨x, none⟩ with
  | none => rfl
  | some u =>
    -- the first one was copied from the second one, so this is noted as a copy of itself
    have hu : u = ⟨y, none⟩ := by
      cases n with
      | zero => simp [Copies.originUpTo, hx] at hsecond
      | succ n =>
        simp only [Copies.originUpTo, hx] at hsecond
        by_cases hxy : y = x
        · rw [Copies.originUpTo_self (hxy ▸ hx)] at hsecond
          cases hsecond
        · rw [Copies.originUpTo_of_none (by rw [← hc, Copies.source_drop, if_neg hxy]; rfl)]
            at hsecond
          exact (Option.some.inj hsecond).symm
    have hself : (c.drop ⟨y, none⟩ u).originUpTo n ⟨y, none⟩ = none :=
      Copies.originUpTo_self (by rw [hu, Copies.source_drop, if_pos rfl]) n
    change (((Rhs.value (.temp ⟨y, none⟩)).propagateUpTo n).run (c.drop ⟨y, none⟩ u) >>= _) = _
    rw [Propagate.runUpTo_value, hself]
    rfl

/-! ## Notes that are flat -/

namespace Copies

variable {c : Copies} {m n n' x : Nat} {B : List Nat} {u : Temp}

/-- Nothing that was copied from is a copy, whichever was noted first. All temporaries in the notes
are numbered below `n`. -/
structure Flat (n : Nat) (c : Copies) : Prop where
  lt : ∀ p ∈ c.sources, p.1 < n ∧ p.2.id < n
  apart : ∀ p ∈ c.sources, ∀ q ∈ c.sources, q.1 ≠ p.2.id

namespace Flat

theorem empty (n : Nat) : none.Flat n where
  lt := by simp [none]
  apart := by simp [none]

theorem mono (h : c.Flat n) (hn : n ≤ n') : c.Flat n' where
  lt p hp := ⟨Nat.lt_of_lt_of_le (h.lt p hp).1 hn, Nat.lt_of_lt_of_le (h.lt p hp).2 hn⟩
  apart := h.apart

/-- A copy is noted that is numbered above the notes. What it is copied from is no copy. -/
theorem drop (h : c.Flat n) (hx : n ≤ x) (hu : u.id < n) (hnone : c.source u.id = Option.none) :
    (c.drop ⟨x, Option.none⟩ u).Flat (x + 1) where
  lt := by
    have hlt : u.id < x + 1 := by omega
    refine List.forall_mem_cons.mpr ⟨⟨Nat.lt_succ_self x, hlt⟩, fun p hp ↦ ?_⟩
    have := h.lt p hp
    omega
  apart := by
    have hkeys : ∀ q ∈ c.sources, q.1 ≠ u.id := fun q hq heq ↦ by
      have := List.lookup_eq_none_iff.mp hnone q hq
      simp [heq] at this
    refine List.forall_mem_cons.mpr ⟨List.forall_mem_cons.mpr ⟨?_, hkeys⟩, fun p hp ↦
      List.forall_mem_cons.mpr ⟨?_, h.apart p hp⟩⟩
    · show x ≠ u.id
      omega
    · have := (h.lt p hp).2
      show x ≠ p.2.id
      omega

end Flat

namespace Sound

/-- What a copy was copied from is no copy, so one note is enough. -/
theorem originUpTo_eq (h : c.Sound m n B) (t : Temp) (k : Nat) :
    c.originUpTo (k + 1) t = some (c.origin t) := by
  rw [h.origin_eq]
  cases hu : c.source t.id with
  | none => rw [originUpTo_of_none hu, Option.getD_none]
  | some u =>
    rw [originUpTo, hu]
    exact originUpTo_of_none (h.origin hu).2 k

theorem operandUpTo_eq (h : c.Sound m n B) (v : Operand) (k : Nat) :
    c.operandUpTo (k + 1) v = some (c.operand v) := by
  cases v with
  | const w => rfl
  | temp t =>
    rw [operandUpTo, h.originUpTo_eq]
    rfl

end Sound

end Copies

/-! ## Steps that end -/

namespace Propagate

/-- Run with the notes `c`, the step with a limit does the same as the one without. It does not give
up, whatever the limit is, if one note may be looked up. -/
def Ends {α : Type} (c : Copies) (p : Propagate α) (q : Nat → PropagateUpTo α) : Prop :=
  ∀ k, (q (k + 1)).run c = some (p.run c)

/-- What is done for one statement after the other is done for a first part and then for the
rest. -/
theorem append_eq {μ : Type → Type} [Monad μ] [LawfulMonad μ] {f : Stmt → μ (List Stmt)}
    {fs : List Stmt → μ (List Stmt)} (hnil : fs [] = pure [])
    (hcons : ∀ s ss, fs (s :: ss) = do
      let first ← f s
      let rest ← fs ss
      return first ++ rest) (ss ss' : List Stmt) : fs (ss ++ ss') = (do
    let first ← fs ss
    let rest ← fs ss'
    return first ++ rest) := by
  induction ss with
  | nil => simp [hnil]
  | cons s ss ih =>
    simp only [List.cons_append, hcons, ih, bind_assoc, pure_bind, List.append_assoc]

/-- If something is found for all, it is found for all in a list. -/
theorem mapM_found {α β γ : Type} {f : α → Option β} {g : α → β} (h : ∀ a, f a = some (g a))
    (l : List (γ × α)) :
    (l.mapM fun (b, a) ↦ do return (b, ← f a) : PropagateUpTo (List (γ × β)))
      = pure (l.map fun (b, a) ↦ (b, g a)) := by
  simp only [h]
  exact List.mapM_pure

namespace Ends

variable {α β : Type} {m n n' : Nat} {B B' : List Nat} {c c₁ c₂ c₃ c₄ : Copies} {p : Propagate α}
  {q : Nat → PropagateUpTo α} {a : α} {v : Operand} {s : Stmt}
  {source value value' noValue noValue' yesValue yesValue' : Rhs}
  {ss ss' stmts stmts' first no no' yes yes' : List Stmt}

theorem pure (c : Copies) (a : α) : Ends c (pure a) fun _ ↦ Pure.pure a := fun _ ↦ rfl

theorem bind {f : α → Propagate β} {g : Nat → α → PropagateUpTo β} (h : Ends c p q)
    (hrun : p.run c = (a, c₁)) (hf : Ends c₁ (f a) fun k ↦ g k a) :
    Ends c (p >>= f) fun k ↦ q k >>= g k := fun k ↦ by
  rw [run_bind hrun, StateT.run_bind, h k, hrun]
  exact hf k

theorem cons (hs : Ends c s.propagate s.propagateUpTo) (hrun : s.propagate.run c = (first, c₁))
    (hss : Ends c₁ (propagateAll ss) (propagateAllUpTo · ss)) :
    Ends c (propagateAll (s :: ss)) (propagateAllUpTo · (s :: ss)) := by
  simp only [propagateAll, propagateAllUpTo]
  exact hs.bind hrun (hss.bind rfl (.pure _ _))

theorem append (hss : Ends c (propagateAll ss) (propagateAllUpTo · ss))
    (hrun : (propagateAll ss).run c = (first, c₁))
    (hss' : Ends c₁ (propagateAll ss') (propagateAllUpTo · ss')) :
    Ends c (propagateAll (ss ++ ss')) (propagateAllUpTo · (ss ++ ss')) := by
  have happend : propagateAll (ss ++ ss') = _ :=
    append_eq (by rw [propagateAll]) (fun s ss ↦ by rw [propagateAll]) ss ss'
  have happendUpTo : ∀ k, propagateAllUpTo k (ss ++ ss') = _ :=
    fun k ↦ append_eq (by rw [propagateAllUpTo]) (fun s ss ↦ by rw [propagateAllUpTo]) ss ss'
  rw [happend]
  simp only [happendUpTo]
  exact hss.bind hrun (hss'.bind rfl (.pure _ _))

theorem block (hstmts : Ends c (propagateAll stmts) (propagateAllUpTo · stmts))
    (hrun : (propagateAll stmts).run c = (stmts', c₁))
    (hvalue : Ends c₁ value.propagate value.propagateUpTo) :
    Ends c (Block.mk stmts value).propagate (Block.mk stmts value).propagateUpTo := by
  simp only [Block.propagate, Block.propagateUpTo]
  exact hstmts.bind hrun (hvalue.bind rfl (.pure _ _))

/-- Whether a move is dropped depends on what its source becomes only. -/
theorem move (h : Ends c source.propagate source.propagateUpTo) (t : Temp) :
    Ends c (Stmt.move t source).propagate (Stmt.move t source).propagateUpTo := by
  generalize hrun : source.propagate.run c = r
  obtain ⟨source', c'⟩ := r
  simp only [Stmt.propagate, Stmt.propagateUpTo]
  refine h.bind hrun fun k ↦ ?_
  cases source' with
  | value v =>
    cases v with
    | temp u =>
      dsimp only
      split <;> rfl
    | const w => rfl
  | _ => rfl

/-! Where the notes are sound, all operands are found. -/

theorem operand (hc : c.Sound m n B) (f : Operand → α) (v : Operand) :
    Ends c (do return f ((← get).operand v)) fun k ↦ do return f (← (← get).operandUpTo k v) :=
  fun k ↦ by
    rw [run_get, hc.operandUpTo_eq]
    rfl

theorem call (hc : c.Sound m n B) (callee : Operand) (args : List Operand) :
    Ends c (Rhs.call callee args).propagate (Rhs.call callee args).propagateUpTo := fun k ↦ by
  have hargs : args.mapM (fun v ↦ (c.operandUpTo (k + 1) v : PropagateUpTo Operand))
      = Pure.pure (args.map c.operand) := by
    simp only [hc.operandUpTo_eq]
    exact List.mapM_pure
  simp only [Rhs.propagateUpTo]
  rw [run_get, hargs, hc.operandUpTo_eq]
  rfl

theorem func {head : FuncHead} {captures : List (Cell × Operand)} {body : Block}
    (hc : c.Sound m n B) (hbody : Ends c body.propagate body.propagateUpTo) :
    Ends c (Rhs.func head captures body).propagate
      (Rhs.func head captures body).propagateUpTo := fun k ↦ by
  simp only [Rhs.propagateUpTo]
  rw [run_get, mapM_found (hc.operandUpTo_eq · k) captures, pure_bind, StateT.run_bind, hbody k,
    run_func rfl]
  rfl

theorem phi (hc : c.Sound m n B) (t : Temp) (ts : List (String × Temp)) :
    Ends c (Stmt.phi t ts).propagate (Stmt.phi t ts).propagateUpTo := fun k ↦ by
  simp only [Stmt.propagateUpTo]
  rw [run_get, mapM_found (hc.originUpTo_eq · k) ts]
  rfl

/-- Both branches of a conditional are run through, and so is the choice behind them. -/
theorem diamond {j : Lower.Join} (hc : c.Sound m n B) (hc₄ : c₄.Sound m n' B')
    (hjno : j.no.isSynthetic = false) (hjyes : j.yes.isSynthetic = false)
    (hno : Ends c (propagateAll no) (propagateAllUpTo · no))
    (hnoRun : (propagateAll no).run c = (no', c₁))
    (hnoValue : Ends c₁ noValue.propagate noValue.propagateUpTo)
    (hnoValueRun : noValue.propagate.run c₁ = (noValue', c₂))
    (hyes : Ends c₂ (propagateAll yes) (propagateAllUpTo · yes))
    (hyesRun : (propagateAll yes).run c₂ = (yes', c₃))
    (hyesValue : Ends c₃ yesValue.propagate yesValue.propagateUpTo)
    (hyesValueRun : yesValue.propagate.run c₃ = (yesValue', c₄)) :
    Ends c (propagateAll (diamond j v no noValue yes yesValue))
      (propagateAllUpTo · (diamond j v no noValue yes yesValue)) := by
  have hbranch : ∀ l, Ends c (Stmt.branch v l).propagate (Stmt.branch v l).propagateUpTo := by
    intro l
    simp only [Stmt.propagate, Stmt.propagateUpTo]
    exact .operand hc (fun v ↦ [Stmt.branch v l]) v
  have hlabel : ∀ l c, Ends c (Stmt.label l).propagate (Stmt.label l).propagateUpTo :=
    fun _ _ _ ↦ rfl
  have hjump : ∀ l c, Ends c (Stmt.jump l).propagate (Stmt.jump l).propagateUpTo :=
    fun _ _ _ ↦ rfl
  have hnil : Ends c₄ (propagateAll []) (propagateAllUpTo · []) := fun _ ↦ rfl
  exact .cons (hbranch _) rfl (.cons (hlabel _ _) rfl (.append hno hnoRun
    (.cons (hnoValue.move _) (run_assign hnoValueRun hjno) (.cons (hjump _ _) rfl
      (.cons (hlabel _ _) rfl (.append hyes hyesRun
        (.cons (hyesValue.move _) (run_assign hyesValueRun hjyes) (.cons (hlabel _ _) rfl
          (.cons (.phi hc₄ _ _) rfl hnil)))))))))

end Ends

end Propagate

/-! ## Parts -/

/-- What is said of a part where origins are looked for along it. -/
def Part.Ends (m n : Nat) (B : List Nat) (n' : Nat) : Part → Prop
  | rhs source => ∀ c : Copies, c.Sound m n B →
      Propagate.Ends c source.propagate source.propagateUpTo ∧
        (c.Flat n → (source.propagate.run c).2.Flat n')
  | stmts ss => ∀ c : Copies, c.Sound m n B →
      Propagate.Ends c (propagateAll ss) (propagateAllUpTo · ss) ∧
        (c.Flat n → ((propagateAll ss).run c).2.Flat n')

section

variable {m n n₁ n₂ n₃ n₄ n' x : Nat} {B B₁ B₂ B' : List Nat} {c : Copies} {t : Temp} {v : Operand}
  {source value noValue yesValue : Rhs} {stmts ss no yes : List Stmt} {head : FuncHead}
  {captures : List (Cell × Operand)} {j : Lower.Join}

namespace Part.Ends

/-- The notes stay as they are along a computation without functions. -/
theorem operands (h : ∀ c : Copies, c.Sound m n B →
      Propagate.Ends c source.propagate source.propagateUpTo)
    (hrun : ∀ c, (source.propagate.run c).2 = c) : (Part.rhs source).Ends m n B n :=
  fun c hc ↦ ⟨h c hc, fun hflat ↦ (hrun c).symm ▸ hflat⟩

theorem run_rhs (h : (Part.rhs source).Ends m n B n') (hflows : Flows m n B (.rhs source) n' B')
    (hc : c.Sound m n B) : ∃ source' c', source.propagate.run c = (source', c') ∧
      Propagated m n B c (.rhs source) n' B' c' (.rhs source') ∧
      Propagate.Ends c source.propagate source.propagateUpTo ∧ (c.Flat n → c'.Flat n') := by
  obtain ⟨source', c', hrun, hkept⟩ := hflows.isKept c hc
  obtain ⟨hends, hflat⟩ := h c hc
  rw [hrun] at hflat
  exact ⟨source', c', hrun, hkept, hends, hflat⟩

theorem run_stmts (h : (Part.stmts ss).Ends m n B n') (hflows : Flows m n B (.stmts ss) n' B')
    (hc : c.Sound m n B) : ∃ ss' c', (propagateAll ss).run c = (ss', c') ∧
      Propagated m n B c (.stmts ss) n' B' c' (.stmts ss') ∧
      Propagate.Ends c (propagateAll ss) (propagateAllUpTo · ss) ∧ (c.Flat n → c'.Flat n') := by
  obtain ⟨ss', c', hrun, hkept⟩ := hflows.isKept c hc
  obtain ⟨hends, hflat⟩ := h c hc
  rw [hrun] at hflat
  exact ⟨ss', c', hrun, hkept, hends, hflat⟩

/-- After statements and a computation, what was known before them is known. -/
theorem run_block (hstmts : (Part.stmts stmts).Ends m n B n₁)
    (hvalue : (Part.rhs value).Ends m n₁ B₁ n₂) (hflows : Flows m n B (.stmts stmts) n₁ B₁)
    (hflows' : Flows m n₁ B₁ (.rhs value) n₂ B₁) (hc : c.Sound m n B) : ∃ stmts' value' c₁ c₂,
      (propagateAll stmts).run c = (stmts', c₁) ∧ value.propagate.run c₁ = (value', c₂) ∧
      Propagate.Ends c (propagateAll stmts) (propagateAllUpTo · stmts) ∧
      Propagate.Ends c₁ value.propagate value.propagateUpTo ∧
      c₂.Sound m n₂ B ∧ (c.Flat n → c₂.Flat n₂) := by
  obtain ⟨stmts', c₁, hrun₁, hkept₁, hends₁, hflat₁⟩ := hstmts.run_stmts hflows hc
  obtain ⟨value', c₂, hrun₂, hkept₂, hends₂, hflat₂⟩ := hvalue.run_rhs hflows' hkept₁.sound
  have hgrown := hkept₁.grown.trans hkept₂.grown hflows.le
  exact ⟨stmts', value', c₁, c₂, hrun₁, hrun₂, hends₁, hends₂,
    hc.grown hkept₂.sound hgrown (Nat.le_trans hflows.le hflows'.le), hflat₂ ∘ hflat₁⟩

theorem func (hinner : ∀ x ∈ innerIds head captures, x < m)
    (hflows : Flows m n (innerIds head captures) (.stmts stmts) n₁ B₁)
    (hflows' : Flows m n₁ B₁ (.rhs value) n' B₁)
    (hstmts : (Part.stmts stmts).Ends m n (innerIds head captures) n₁)
    (hvalue : (Part.rhs value).Ends m n₁ B₁ n') :
    (Part.rhs (.func head captures (.mk stmts value))).Ends m n B n' := by
  intro c hc
  obtain ⟨stmts', value', c₁, c₂, hrun₁, hrun₂, hends₁, hends₂, -, hflat⟩ :=
    hstmts.run_block hvalue hflows hflows' (hc.inside hinner)
  refine ⟨.func hc (.block hends₁ hrun₁ hends₂), fun h ↦ ?_⟩
  rw [Propagate.run_func (Propagate.run_block hrun₁ hrun₂)]
  exact hflat h

theorem assign (ht : Fresh m B t) (hflows : Flows m n B (.rhs source) n₁ B)
    (hsource : (Part.rhs source).Ends m n B n₁)
    (hrest : (Part.stmts ss).Ends m n₁ (t.id :: B) n') :
    (Part.stmts (.move t source :: ss)).Ends m n B n' := by
  intro c hc
  obtain ⟨source', c₁, hrun₁, hkept₁, hends₁, hflat₁⟩ := hsource.run_rhs hflows hc
  obtain ⟨hends₂, hflat₂⟩ := hrest c₁ (hkept₁.sound.assign ht.lt)
  have hmove := Propagate.run_assign hrun₁ ht.hint
  refine ⟨.cons (hends₁.move t) hmove hends₂, fun hflat ↦ ?_⟩
  rw [Propagate.run_cons hmove rfl]
  exact hflat₂ (hflat₁ hflat)

/-- Only what is known and no copy is copied. -/
theorem staged (hx : n₁ ≤ x) (hflows : Flows m n B (.rhs source) n₁ B)
    (hsource : (Part.rhs source).Ends m n B n₁)
    (hrest : (Part.stmts ss).Ends m (x + 1) (x :: B) n') :
    (Part.stmts (.move ⟨x, none⟩ source :: ss)).Ends m n B n' := by
  intro c hc
  obtain ⟨source', c₁, hrun₁, hkept₁, hends₁, hflat₁⟩ := hsource.run_rhs hflows hc
  by_cases hcopy : ∃ u, source' = .value (.temp u)
  · obtain ⟨u, rfl⟩ := hcopy
    obtain ⟨k, -, hflows'⟩ := hkept₁.flows _ (Nat.le_refl _)
    have hu : u.id ∈ c₁.kept B := by
      rw [hkept₁.grown.kept_eq hc.lt]
      exact hflows'.value_known
    obtain ⟨hmem, hnone⟩ := Copies.mem_kept.mp hu
    have hlt : u.id < n₁ := hkept₁.sound.lt u.id hmem
    obtain ⟨hends₂, hflat₂⟩ := hrest _ (hkept₁.sound.drop hx hu)
    have hmove := Propagate.run_drop hrun₁ (x := x)
    refine ⟨.cons (hends₁.move _) hmove hends₂, fun hflat ↦ ?_⟩
    rw [Propagate.run_cons hmove rfl]
    exact hflat₂ ((hflat₁ hflat).drop hx hlt hnone)
  · obtain ⟨hends₂, hflat₂⟩ := hrest c₁ (hkept₁.sound.stage hx)
    have hmove := Propagate.run_staged hrun₁ (x := x) fun u hu ↦ hcopy ⟨u, hu⟩
    refine ⟨.cons (hends₁.move _) hmove hends₂, fun hflat ↦ ?_⟩
    rw [Propagate.run_cons hmove rfl]
    exact hflat₂ ((hflat₁ hflat).mono (by omega))

theorem cond (hjno : Fresh m B j.no) (hjyes : Fresh m B j.yes) (hjresult : Fresh m B j.result)
    (hnoFlows : Flows m n B (.stmts no) n₁ B₁) (hnoValueFlows : Flows m n₁ B₁ (.rhs noValue) n₂ B₁)
    (hyesFlows : Flows m n₂ B (.stmts yes) n₃ B₂)
    (hyesValueFlows : Flows m n₃ B₂ (.rhs yesValue) n₄ B₂)
    (hno : (Part.stmts no).Ends m n B n₁) (hnoValue : (Part.rhs noValue).Ends m n₁ B₁ n₂)
    (hyes : (Part.stmts yes).Ends m n₂ B n₃) (hyesValue : (Part.rhs yesValue).Ends m n₃ B₂ n₄)
    (hrest : (Part.stmts ss).Ends m n₄ (j.result.id :: B) n') :
    (Part.stmts (diamond j v no noValue yes yesValue ++ ss)).Ends m n B n' := by
  intro c hc
  obtain ⟨no', noValue', c₁, c₂, hrun₁, hrun₂, hends₁, hends₂, hc₂, hflat₂⟩ :=
    hno.run_block hnoValue hnoFlows hnoValueFlows hc
  obtain ⟨yes', yesValue', c₃, c₄, hrun₃, hrun₄, hends₃, hends₄, hc₄, hflat₄⟩ :=
    hyes.run_block hyesValue hyesFlows hyesValueFlows hc₂
  obtain ⟨hends', hflat'⟩ := hrest c₄ (hc₄.assign hjresult.lt)
  have hdiamond := Propagate.run_diamond (v := v) hrun₁ hrun₂ hrun₃ hrun₄ hjno.hint hjyes.hint
    (Copies.origin_of_none (hc₄.of_variable hjno.lt))
    (Copies.origin_of_none (hc₄.of_variable hjyes.lt))
  refine ⟨.append (.diamond hc hc₄ hjno.hint hjyes.hint hends₁ hrun₁ hends₂ hrun₂ hends₃ hrun₃
    hends₄ hrun₄) hdiamond hends', fun hflat ↦ ?_⟩
  rw [Propagate.run_append hdiamond rfl]
  exact hflat' (hflat₄ (hflat₂ hflat))

end Part.Ends

/-- Along parts of the shapes of blocks, all origins are found. -/
theorem Flows.propagationEnds {p : Part} (h : Flows m n B p n' B') : p.Ends m n B n' := by
  induction h with
  | @value _ _ v _ =>
    refine .operands (fun c hc ↦ ?_) fun _ ↦ rfl
    simp only [Rhs.propagate, Rhs.propagateUpTo]
    exact .operand hc Rhs.value v
  | @tag _ _ g v _ =>
    refine .operands (fun c hc ↦ ?_) fun _ ↦ rfl
    simp only [Rhs.propagate, Rhs.propagateUpTo]
    exact .operand hc (Rhs.tag g) v
  | @untag _ _ v _ =>
    refine .operands (fun c hc ↦ ?_) fun _ ↦ rfl
    simp only [Rhs.propagate, Rhs.propagateUpTo]
    exact .operand hc Rhs.untag v
  | call => exact .operands (fun c hc ↦ .call hc _ _) fun _ ↦ rfl
  | func _ hinner _ hstmts hvalue ihstmts ihvalue =>
    exact .func hinner hstmts hvalue ihstmts ihvalue
  | nil => exact fun c _ ↦ ⟨fun _ ↦ rfl, id⟩
  | assign hsource ht _ ihsource ihrest => exact .assign ht hsource ihsource ihrest
  | staged hsource hid _ ihsource ihrest => exact .staged hid hsource ihsource ihrest
  | cond _ hno hnoValue hyes hyesValue hjno hjyes hjresult _ _ _ ihno ihnoValue ihyes ihyesValue
      ihrest =>
    exact .cond hjno hjyes hjresult hno hnoValue hyes hyesValue ihno ihnoValue ihyes ihyesValue
      ihrest

/-! ## Programs -/

/-- All origins are found in the blocks of a program, and the notes stay flat. -/
theorem Shaped.propagationEnds {bs : List Block} (h : Shaped m n bs n') (hc : c.Sound m n [])
    (hflat : c.Flat n) :
    Propagate.Ends c (propagateBlocks bs) (propagateBlocksUpTo · bs) ∧
      ((propagateBlocks bs).run c).2.Flat n' := by
  induction h generalizing c with
  | nil => exact ⟨fun _ ↦ rfl, hflat⟩
  | @cons n n₁ n' b bs hb _ ih =>
    obtain ⟨stmts, value⟩ := b
    obtain ⟨-, n₂, B₁, hstmts, hvalue⟩ := hb
    dsimp only [Block.stmts, Block.value] at hstmts hvalue
    obtain ⟨stmts', value', c₁, c₂, hrun₁, hrun₂, hends₁, hends₂, hc₂, hflat₂⟩ :=
      hstmts.propagationEnds.run_block hvalue.propagationEnds hstmts hvalue hc
    obtain ⟨hends, hflat'⟩ := ih hc₂ (hflat₂ hflat)
    have hrun := Propagate.run_block hrun₁ hrun₂
    constructor
    · simp only [propagateBlocks, propagateBlocksUpTo]
      exact (Propagate.Ends.block hends₁ hrun₁ hends₂).bind hrun (hends.bind rfl (.pure _ _))
    · rw [propagateBlocks, Propagate.run_bind hrun]
      exact hflat'

end

/-- **Looking up one note is enough.** For every checked program, what is copied from in a block or
in a function body is never a copy itself, neither when it is noted nor later. So with every limit
that lets one note be looked up, all origins are found, and the blocks without copies are the ones
that are found without a limit. -/
theorem propagation_ends {forms : List Form} {es : List Expr} {types : TypeTable}
    (h : checkProgram forms = .ok (es, types)) (s : Session) :
    ∃ trees s' bs k bs' c, (Session.lower es).outcome s = (.ok trees, s') ∧
      (blocks trees).run s'.next = (bs, k) ∧ (propagateBlocks bs).run .none = (bs', c) ∧
      (∀ p ∈ c.sources, ∀ q ∈ c.sources, q.1 ≠ p.2.id) ∧
      ∀ n, 1 ≤ n → (propagateBlocksUpTo n bs).run .none = some (bs', c) := by
  obtain ⟨trees, l, -, hlower, -⟩ := checkProgram_lowers h s.next
  obtain ⟨hmade, -⟩ := lowerAll_made (fun e _ ↦ e.lowersMade) (Lowerer.sees_start s.next) hlower
  generalize hblocks : (blocks trees).run l.next = p
  obtain ⟨bs, k⟩ := p
  have hshaped : Shaped l.next l.next bs k := hmade.shaped (Nat.le_refl _) (Nat.le_refl _) hblocks
  have houtcome : (Session.lower es).outcome s = (.ok trees, { s with next := l.next }) := by
    rw [Session.outcome_lower, hlower]
  obtain ⟨hends, hflat⟩ := hshaped.propagationEnds (.empty (Nat.le_refl _)) (.empty _)
  refine ⟨trees, _, bs, k, _, _, houtcome, hblocks, rfl, hflat.apart, fun n hn ↦ ?_⟩
  obtain ⟨n, rfl⟩ := Nat.exists_eq_add_of_le' hn
  exact hends n

/-- Copies are noted in a block and in the body of a function inside another one. -/
theorem copiedChoices_ends : ∃ es types, checkProgram copiedChoices = .ok (es, types) ∧
    ∃ trees s' bs k bs' c, (Session.lower es).outcome (.start true) = (.ok trees, s') ∧
      (blocks trees).run s'.next = (bs, k) ∧ (propagateBlocks bs).run .none = (bs', c) ∧
      (∀ p ∈ c.sources, ∀ q ∈ c.sources, q.1 ≠ p.2.id) ∧
      ∀ n, 1 ≤ n → (propagateBlocksUpTo n bs).run .none = some (bs', c) := by
  obtain ⟨es, types, h⟩ : ∃ es types, checkProgram copiedChoices = .ok (es, types) := ⟨_, _, rfl⟩
  exact ⟨es, types, h, propagation_ends h (.start true)⟩

end TaggedLisp.Ir
