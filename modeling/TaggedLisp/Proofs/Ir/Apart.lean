import TaggedLisp.Proofs.Ir.Jumps

/-!
# Copies block by block

All blocks of a program share one table of copies, and so do the bodies of the functions in them:
what is noted in one of them is still in the table in all that follow. `Block.apart` leaves the
copies out of a block with a table of its own, and out of each function body in it with yet another
one. For the blocks of a checked program this makes no difference (`withoutCopies_eq_map_apart`).

A block reads known temporaries only. So two tables lead to the same block as soon as they say the
same of these (`Copies.Aligned`), whatever else is noted in one of them. At the start of a block
nothing is known, and at the start of a function body only variables are, which are no copies in any
table.
-/

namespace TaggedLisp.Ir

/-! ## A table for each block -/

/-- A move in which origins stand for copies, or nothing when it only copies. -/
def Stmt.moved (dest : Temp) (source : Rhs) : Propagate (List Stmt) :=
  match source with
  | .value (.temp t) =>
    if dest.isSynthetic then do
      modify (·.drop dest t)
      return []
    else return [.move dest source]
  | _ => return [.move dest source]

mutual

/-- A computation with origins for copies, where the body of a function is left to itself. -/
def Rhs.propagateApart : Rhs → Propagate Rhs
  | .func head captures body => do
    let c ← get
    return .func head (captures.map fun (cell, v) ↦ (cell, c.operand v)) body.apart
  | source => source.propagate

/-- A block without its own copies. What is copied around it or in the functions in it is not
known. -/
def Block.apart : Block → Block
  | .mk stmts value =>
    let (stmts, c) := (propagateAllApart stmts).run .none
    .mk stmts (value.propagateApart.run c).1

/-- Statements without copies, where the bodies of functions are left to themselves. -/
def propagateAllApart : List Stmt → Propagate (List Stmt)
  | [] => return []
  | s :: ss => do
    let first ← s.propagateApart
    let rest ← propagateAllApart ss
    return first ++ rest

/-- A statement without copies, where the bodies of functions are left to themselves. -/
def Stmt.propagateApart : Stmt → Propagate (List Stmt)
  | .move dest source => do
    let source ← source.propagateApart
    Stmt.moved dest source
  | s => s.propagate

end

/-! ## Tables that are aligned -/

namespace Copies

variable {c c' d d' : Copies} {m n n' x : Nat} {B B' : List Nat} {t u : Temp} {v : Operand}

theorem Grown.refl (n : Nat) (c : Copies) : Grown n c c := fun _ _ ↦ rfl

/-- A copy that is noted is numbered above all that were noted before. -/
theorem Grown.drop (hx : n ≤ x) (c : Copies) (u : Temp) :
    Grown n c (c.drop ⟨x, Option.none⟩ u) := fun y hy ↦ by
  rw [source_drop, if_neg (by simp only; omega)]

theorem Sound.mono (h : c.Sound m n B) (hn : n ≤ n') : c.Sound m n' B where
  le := Nat.le_trans h.le hn
  lt x hx := Nat.lt_of_lt_of_le (h.lt x hx) hn
  step hu := ⟨(h.step hu).1, Nat.lt_of_lt_of_le (h.step hu).2 hn⟩
  origin hu := ⟨Nat.lt_of_lt_of_le (h.origin hu).1 hn, (h.origin hu).2⟩
  known := h.known

/-- Two tables that say the same of the temporaries that are known. -/
structure Aligned (m n : Nat) (B : List Nat) (c d : Copies) : Prop where
  shared : c.Sound m n B
  own : d.Sound m n B
  same : ∀ x ∈ B, d.source x = c.source x

namespace Aligned

/-- At the start of a function body, no table knows copies of what is known. -/
theorem start (hc : c.Sound m n B) (hB' : ∀ x ∈ B', x < m) : Aligned m n B' c .none where
  shared := hc.inside hB'
  own := (Sound.empty hc.le).inside hB'
  same x hx := (hc.of_variable (hB' x hx)).symm

theorem operand (h : Aligned m n B c d) (hv : v.Known B) : d.operand v = c.operand v := by
  cases v with
  | const k => rfl
  | temp t =>
    change Operand.temp (d.origin t) = .temp (c.origin t)
    rw [h.shared.origin_eq, h.own.origin_eq, h.same _ hv]

/-- What is noted further down does not matter for what is known here. -/
theorem grown (h : Aligned m n B c d) (h' : Aligned m n' B' c' d') (hc : Grown n c c')
    (hd : Grown n d d') (hn : n ≤ n') : Aligned m n' B c' d' where
  shared := h.shared.grown h'.shared hc hn
  own := h.own.grown h'.own hd hn
  same x hx := by
    have hlt := h.shared.lt x hx
    rw [hc x hlt, hd x hlt, h.same x hx]

theorem assign (h : Aligned m n B c d) (hx : x < m) : Aligned m n (x :: B) c d where
  shared := h.shared.assign hx
  own := h.own.assign hx
  same := List.forall_mem_cons.mpr
    ⟨(h.own.of_variable hx).trans (h.shared.of_variable hx).symm, h.same⟩

theorem stage (h : Aligned m n B c d) (hx : n ≤ x) : Aligned m (x + 1) (x :: B) c d where
  shared := h.shared.stage hx
  own := h.own.stage hx
  same := List.forall_mem_cons.mpr
    ⟨(h.own.of_unused hx).trans (h.shared.of_unused hx).symm, h.same⟩

/-- The same copy is noted in both. -/
theorem drop (h : Aligned m n B c d) (hx : n ≤ x) (hu : u.id ∈ c.kept B) :
    Aligned m (x + 1) (x :: B) (c.drop ⟨x, Option.none⟩ u) (d.drop ⟨x, Option.none⟩ u) where
  shared := h.shared.drop hx hu
  own := by
    obtain ⟨hmem, hnone⟩ := mem_kept.mp hu
    exact h.own.drop hx (mem_kept.mpr ⟨hmem, (h.same _ hmem).trans hnone⟩)
  same y hy := by
    rw [source_drop, source_drop]
    split
    · rfl
    · next hne => exact h.same y (List.mem_of_ne_of_mem hne hy)

end Aligned

end Copies

/-! ## Steps -/

namespace Propagate

variable {c c₁ c₂ d d₁ d₂ : Copies} {t : Temp} {source source' : Rhs} {s : Stmt}
  {ss ss' first rest : List Stmt}

theorem run_moved_assign (ht : t.isSynthetic = false) (source : Rhs) (d : Copies) :
    (Stmt.moved t source).run d = ([.move t source], d) := by
  unfold Stmt.moved
  split
  · rw [ht]
    rfl
  · rfl

theorem run_moved_drop (x : Nat) (u : Temp) (d : Copies) :
    (Stmt.moved ⟨x, none⟩ (.value (.temp u))).run d = ([], d.drop ⟨x, none⟩ u) := rfl

theorem run_moved_staged {x : Nat} (h : ∀ u, source ≠ .value (.temp u)) (d : Copies) :
    (Stmt.moved ⟨x, none⟩ source).run d = ([.move ⟨x, none⟩ source], d) := by
  unfold Stmt.moved
  split
  · exact absurd rfl (h _)
  · rfl

theorem runApart_move (h : source.propagateApart.run d = (source', d₁)) (t : Temp) :
    (Stmt.move t source).propagateApart.run d = (Stmt.moved t source').run d₁ := by
  rw [Stmt.propagateApart, run_bind h]

theorem runApart_cons (hs : s.propagateApart.run d = (first, d₁))
    (hss : (propagateAllApart ss).run d₁ = (rest, d₂)) :
    (propagateAllApart (s :: ss)).run d = (first ++ rest, d₂) := by
  rw [propagateAllApart, run_bind hs, run_bind hss]
  rfl

theorem apart_block {stmts stmts' : List Stmt} {value value' : Rhs}
    (hstmts : (propagateAllApart stmts).run .none = (stmts', d))
    (hvalue : value.propagateApart.run d = (value', d)) :
    (Block.mk stmts value).apart = .mk stmts' value' := by
  rw [Block.apart, hstmts]
  exact congrArg (fun r ↦ Block.mk stmts' r.1) hvalue

theorem propagateAllApart_append (ss ss' : List Stmt) : propagateAllApart (ss ++ ss') = (do
    let first ← propagateAllApart ss
    let rest ← propagateAllApart ss'
    return first ++ rest) := by
  induction ss with
  | nil => simp [propagateAllApart]
  | cons s ss ih =>
    simp only [List.cons_append, propagateAllApart, ih, bind_assoc, pure_bind, List.append_assoc]

theorem runApart_append (hss : (propagateAllApart ss).run d = (first, d₁))
    (hss' : (propagateAllApart ss').run d₁ = (rest, d₂)) :
    (propagateAllApart (ss ++ ss')).run d = (first ++ rest, d₂) := by
  rw [propagateAllApart_append, run_bind hss, run_bind hss']
  rfl

theorem runApart_diamond {j : Lower.Join} {v : Operand} {no no' yes yes' : List Stmt}
    {noValue noValue' yesValue yesValue' : Rhs} (hno : (propagateAllApart no).run d = (no', d₁))
    (hnoValue : noValue.propagateApart.run d₁ = (noValue', d₁))
    (hyes : (propagateAllApart yes).run d₁ = (yes', d₂))
    (hyesValue : yesValue.propagateApart.run d₂ = (yesValue', d₂))
    (hjno : j.no.isSynthetic = false) (hjyes : j.yes.isSynthetic = false)
    (hnoOrigin : d₂.origin j.no = j.no) (hyesOrigin : d₂.origin j.yes = j.yes) :
    (propagateAllApart (diamond j v no noValue yes yesValue)).run d
      = (diamond j (d.operand v) no' noValue' yes' yesValue', d₂) := by
  have hbranch : ∀ l d, (Stmt.branch v l).propagateApart.run d = ([.branch (d.operand v) l], d) :=
    fun _ _ ↦ rfl
  have hlabel : ∀ l d, (Stmt.label l).propagateApart.run d = ([.label l], d) := fun _ _ ↦ rfl
  have hjump : ∀ l d, (Stmt.jump l).propagateApart.run d = ([.jump l], d) := fun _ _ ↦ rfl
  have hphi (ts : List (String × Temp)) : (Stmt.phi j.result ts).propagateApart.run d₂
      = ([.phi j.result (ts.map fun p ↦ (p.1, d₂.origin p.2))], d₂) := run_phi j.result ts d₂
  have hnil : (propagateAllApart []).run d₂ = ([], d₂) := rfl
  have hnoMove := (runApart_move hnoValue j.no).trans (run_moved_assign hjno noValue' d₁)
  have hyesMove := (runApart_move hyesValue j.yes).trans (run_moved_assign hjyes yesValue' d₂)
  refine (runApart_cons (hbranch _ _) (runApart_cons (hlabel _ _) (runApart_append hno
    (runApart_cons hnoMove (runApart_cons (hjump _ _) (runApart_cons (hlabel _ _)
      (runApart_append hyes (runApart_cons hyesMove (runApart_cons (hlabel _ _)
        (runApart_cons (hphi _) hnil)))))))))).trans ?_
  simp only [List.map_cons, List.map_nil, hnoOrigin, hyesOrigin]
  rfl

end Propagate

/-! ## Parts -/

/-- What is said of a part when copies are left out of it with a table that is shared and with one
of its own. -/
def Part.IsApart (m n : Nat) (B : List Nat) (n' : Nat) (B' : List Nat) : Part → Prop
  | rhs source => ∀ c d : Copies, Copies.Aligned m n B c d → ∃ source' c',
      source.propagate.run c = (source', c') ∧ source.propagateApart.run d = (source', d) ∧
        Copies.Aligned m n' B' c' d ∧ Copies.Grown n c c'
  | stmts ss => ∀ c d : Copies, Copies.Aligned m n B c d → ∃ ss' c' d',
      (propagateAll ss).run c = (ss', c') ∧ (propagateAllApart ss).run d = (ss', d') ∧
        Copies.Aligned m n' B' c' d' ∧ Copies.Grown n c c' ∧ Copies.Grown n d d'

section

variable {m n n₁ n₂ n' x : Nat} {B B₁ B' : List Nat} {c d : Copies} {t : Temp} {v : Operand}
  {source value : Rhs} {stmts ss : List Stmt} {head : FuncHead} {captures : List (Cell × Operand)}

namespace Part.IsApart

/-- A computation without functions is the same with both tables if its operands are. -/
theorem operands (h : ∀ c d : Copies, Copies.Aligned m n B c d → ∃ source',
    source.propagate.run c = (source', c) ∧ source.propagateApart.run d = (source', d)) :
    (Part.rhs source).IsApart m n B n B := by
  intro c d hcd
  obtain ⟨source', hrun, happart⟩ := h c d hcd
  exact ⟨source', c, hrun, happart, hcd, .refl n c⟩

/-- After statements and a computation, the same is known as before them if what was known since is
forgotten. -/
theorem block (hstmts : (Part.stmts stmts).IsApart m n B n₁ B₁)
    (hvalue : (Part.rhs value).IsApart m n₁ B₁ n₂ B₁) (hn : n ≤ n₁) (hn' : n₁ ≤ n₂)
    (hcd : Copies.Aligned m n B c d) : ∃ stmts' value' c₁ c₂ d',
      (propagateAll stmts).run c = (stmts', c₁) ∧ value.propagate.run c₁ = (value', c₂) ∧
      (propagateAllApart stmts).run d = (stmts', d') ∧ value.propagateApart.run d' = (value', d') ∧
      Copies.Aligned m n₂ B c₂ d' ∧ Copies.Grown n c c₂ ∧ Copies.Grown n d d' := by
  obtain ⟨stmts', c₁, d', hrun₁, happart₁, hcd₁, hc₁, hd₁⟩ := hstmts c d hcd
  obtain ⟨value', c₂, hrun₂, happart₂, hcd₂, hc₂⟩ := hvalue c₁ d' hcd₁
  have hgrown : Copies.Grown n c c₂ := hc₁.trans hc₂ hn
  exact ⟨stmts', value', c₁, c₂, d', hrun₁, hrun₂, happart₁, happart₂,
    hcd.grown hcd₂ hgrown hd₁ (Nat.le_trans hn hn'), hgrown, hd₁⟩

/-- Where only variables are known, a block comes out the same with an empty table. -/
theorem apart (hstmts : (Part.stmts stmts).IsApart m n B n₁ B₁)
    (hvalue : (Part.rhs value).IsApart m n₁ B₁ n₂ B₁) (hn : n ≤ n₁) (hn' : n₁ ≤ n₂)
    (hc : c.Sound m n B') (hB : ∀ x ∈ B, x < m) : ∃ b c₂,
      (Block.mk stmts value).propagate.run c = (b, c₂) ∧ (Block.mk stmts value).apart = b ∧
        c₂.Sound m n₂ B ∧ Copies.Grown n c c₂ := by
  obtain ⟨stmts', value', c₁, c₂, d, hrun₁, hrun₂, happart₁, happart₂, hcd, hgrown, -⟩ :=
    hstmts.block hvalue hn hn' (.start hc hB)
  exact ⟨.mk stmts' value', c₂, Propagate.run_block hrun₁ hrun₂,
    Propagate.apart_block happart₁ happart₂, hcd.shared, hgrown⟩

/-- The body of a function comes out the same with a table of its own. -/
theorem func (hcaptures : ∀ p ∈ captures, p.2.Known B)
    (hinner : ∀ x ∈ innerIds head captures, x < m) (hn : n ≤ n₁) (hn' : n₁ ≤ n')
    (hstmts : (Part.stmts stmts).IsApart m n (innerIds head captures) n₁ B₁)
    (hvalue : (Part.rhs value).IsApart m n₁ B₁ n' B₁) :
    (Part.rhs (.func head captures (.mk stmts value))).IsApart m n B n' B := by
  intro c d hcd
  obtain ⟨b, c₂, hrun, happart, hc₂, hgrown⟩ := hstmts.apart hvalue hn hn' hcd.shared hinner
  have hcaptures' : captures.map (fun p ↦ (p.1, d.operand p.2))
      = captures.map fun p ↦ (p.1, c.operand p.2) :=
    List.map_congr_left fun p hp ↦ congrArg (Prod.mk p.1) (hcd.operand (hcaptures p hp))
  have hle := Nat.le_trans hn hn'
  refine ⟨_, c₂, Propagate.run_func hrun,
    congrArg₂ (fun captures body ↦ (Rhs.func head captures body, d)) hcaptures' happart, ?_, hgrown⟩
  exact ⟨hcd.shared.grown hc₂ hgrown hle, hcd.own.mono hle, fun x hx ↦ by
    rw [hgrown x (hcd.shared.lt x hx), hcd.same x hx]⟩

theorem assign (hn : n ≤ n₁) (ht : Fresh m B t) (hsource : (Part.rhs source).IsApart m n B n₁ B)
    (hrest : (Part.stmts ss).IsApart m n₁ (t.id :: B) n' B') :
    (Part.stmts (.move t source :: ss)).IsApart m n B n' B' := by
  intro c d hcd
  obtain ⟨source', c₁, hrun₁, happart₁, hcd₁, hc₁⟩ := hsource c d hcd
  obtain ⟨ss', c', d', hrun', happart', hcd', hc', hd'⟩ := hrest c₁ d (hcd₁.assign ht.lt)
  exact ⟨_, c', d', Propagate.run_cons (Propagate.run_assign hrun₁ ht.hint) hrun',
    Propagate.runApart_cons ((Propagate.runApart_move happart₁ t).trans
      (Propagate.run_moved_assign ht.hint source' d)) happart', hcd', hc₁.trans hc' hn,
    (Copies.Grown.refl n d).trans hd' hn⟩

/-- A step is kept with both tables or noted in both. -/
theorem staged (hn : n ≤ n₁) (hx : n₁ ≤ x) (hflows : Flows m n B (.rhs source) n₁ B)
    (hsource : (Part.rhs source).IsApart m n B n₁ B)
    (hrest : (Part.stmts ss).IsApart m (x + 1) (x :: B) n' B') :
    (Part.stmts (.move ⟨x, none⟩ source :: ss)).IsApart m n B n' B' := by
  intro c d hcd
  obtain ⟨source', c₁, hrun₁, happart₁, hcd₁, hc₁⟩ := hsource c d hcd
  by_cases hcopy : ∃ u, source' = .value (.temp u)
  · obtain ⟨u, rfl⟩ := hcopy
    -- what is copied is known, and it is no copy
    obtain ⟨source'', c₂, hrun₂, hkept⟩ := hflows.isKept c hcd.shared
    cases hrun₁.symm.trans hrun₂
    obtain ⟨k, -, hflows'⟩ := hkept.flows _ (Nat.le_refl _)
    have hu : u.id ∈ c₁.kept B := by
      rw [hc₁.kept_eq hcd.shared.lt]
      exact hflows'.value_known
    obtain ⟨ss', c', d', hrun', happart', hcd', hc', hd'⟩ := hrest _ _ (hcd₁.drop hx hu)
    refine ⟨ss', c', d', Propagate.run_cons (Propagate.run_drop hrun₁) hrun',
      Propagate.runApart_cons ((Propagate.runApart_move happart₁ _).trans
        (Propagate.run_moved_drop x u d)) happart', hcd', ?_, ?_⟩
    · exact hc₁.trans ((Copies.Grown.drop hx c₁ u).trans hc' (by omega)) hn
    · exact (Copies.Grown.drop (Nat.le_trans hn hx) d u).trans hd' (by omega)
  · have hkeep : ∀ u, source' ≠ .value (.temp u) := fun u hu ↦ hcopy ⟨u, hu⟩
    obtain ⟨ss', c', d', hrun', happart', hcd', hc', hd'⟩ := hrest c₁ d (hcd₁.stage hx)
    exact ⟨_, c', d', Propagate.run_cons (Propagate.run_staged hrun₁ hkeep) hrun',
      Propagate.runApart_cons ((Propagate.runApart_move happart₁ _).trans
        (Propagate.run_moved_staged hkeep d)) happart', hcd', hc₁.trans hc' (by omega),
      (Copies.Grown.refl n d).trans hd' (by omega)⟩

theorem cond {n₃ n₄ : Nat} {B₂ : List Nat} {j : Lower.Join} {no yes : List Stmt}
    {noValue yesValue : Rhs} (hv : v.Known B)
    (hle : n ≤ n₁ ∧ n₁ ≤ n₂ ∧ n₂ ≤ n₃ ∧ n₃ ≤ n₄) (hjno : Fresh m B j.no) (hjyes : Fresh m B j.yes)
    (hjresult : Fresh m B j.result) (hno : (Part.stmts no).IsApart m n B n₁ B₁)
    (hnoValue : (Part.rhs noValue).IsApart m n₁ B₁ n₂ B₁)
    (hyes : (Part.stmts yes).IsApart m n₂ B n₃ B₂)
    (hyesValue : (Part.rhs yesValue).IsApart m n₃ B₂ n₄ B₂)
    (hrest : (Part.stmts ss).IsApart m n₄ (j.result.id :: B) n' B') :
    (Part.stmts (diamond j v no noValue yes yesValue ++ ss)).IsApart m n B n' B' := by
  obtain ⟨hle₁, hle₂, hle₃, hle₄⟩ := hle
  intro c d hcd
  obtain ⟨no', noValue', c₁, c₂, d₁, hrun₁, hrun₂, happart₁, happart₂, hcd₂, hc₂, hd₂⟩ :=
    hno.block hnoValue hle₁ hle₂ hcd
  obtain ⟨yes', yesValue', c₃, c₄, d₃, hrun₃, hrun₄, happart₃, happart₄, hcd₄, hc₄, hd₄⟩ :=
    hyes.block hyesValue hle₃ hle₄ hcd₂
  obtain ⟨ss', c', d', hrun', happart', hcd', hc', hd'⟩ :=
    hrest c₄ d₃ (hcd₄.assign hjresult.lt)
  refine ⟨_, c', d', Propagate.run_append (Propagate.run_diamond hrun₁ hrun₂ hrun₃ hrun₄ hjno.hint
    hjyes.hint ?_ ?_) hrun', ?_, hcd', ?_, ?_⟩
  · exact Copies.origin_of_none (hcd₄.shared.of_variable hjno.lt)
  · exact Copies.origin_of_none (hcd₄.shared.of_variable hjyes.lt)
  · rw [← hcd.operand hv]
    exact Propagate.runApart_append (Propagate.runApart_diamond happart₁ happart₂ happart₃ happart₄
      hjno.hint hjyes.hint (Copies.origin_of_none (hcd₄.own.of_variable hjno.lt))
      (Copies.origin_of_none (hcd₄.own.of_variable hjyes.lt))) happart'
  · exact (hc₂.trans hc₄ (by omega)).trans hc' (by omega)
  · exact (hd₂.trans hd₄ (by omega)).trans hd' (by omega)

end Part.IsApart

/-- A part of the shape of blocks comes out the same with a shared table and with one of its own. -/
theorem Flows.isApart {p : Part} (h : Flows m n B p n' B') : p.IsApart m n B n' B' := by
  induction h with
  | value hv => exact .operands fun c d hcd ↦ ⟨_, rfl, by rw [← hcd.operand hv]; rfl⟩
  | tag hv => exact .operands fun c d hcd ↦ ⟨_, rfl, by rw [← hcd.operand hv]; rfl⟩
  | untag hv => exact .operands fun c d hcd ↦ ⟨_, rfl, by rw [← hcd.operand hv]; rfl⟩
  | call hcallee hargs =>
    refine .operands fun c d hcd ↦ ⟨_, rfl, ?_⟩
    rw [← hcd.operand hcallee, ← List.map_congr_left fun v hv ↦ hcd.operand (hargs v hv)]
    rfl
  | func hcaptures hinner _ hstmts hvalue ihstmts ihvalue =>
    exact .func hcaptures hinner hstmts.le hvalue.le ihstmts ihvalue
  | @nil n _ => exact fun c d hcd ↦ ⟨[], c, d, rfl, rfl, hcd, .refl n c, .refl n d⟩
  | assign hsource ht _ ihsource ihrest => exact .assign hsource.le ht ihsource ihrest
  | staged hsource hid _ ihsource ihrest => exact .staged hsource.le hid hsource ihsource ihrest
  | cond hv hno hnoValue hyes hyesValue hjno hjyes hjresult _ _ _ ihno ihnoValue ihyes ihyesValue
      ihrest =>
    exact .cond hv ⟨hno.le, hnoValue.le, hyes.le, hyesValue.le⟩ hjno hjyes hjresult ihno ihnoValue
      ihyes ihyesValue ihrest

/-! ## Programs -/

/-- What was noted in the blocks before a block does not matter for it. -/
theorem Shaped.run_eq {bs : List Block} (h : Shaped m n bs n') (hc : c.Sound m n []) :
    ((propagateBlocks bs).run c).1 = bs.map Block.apart := by
  induction h generalizing c with
  | nil => rfl
  | @cons n n₁ n' b bs hb _ ih =>
    obtain ⟨stmts, value⟩ := b
    obtain ⟨-, n₂, B₁, hstmts, hvalue⟩ := hb
    dsimp only [Block.stmts, Block.value] at hstmts hvalue
    obtain ⟨b, c₂, hrun, happart, hc₂, -⟩ :=
      hstmts.isApart.apart hvalue.isApart hstmts.le hvalue.le hc (by simp)
    rw [propagateBlocks, Propagate.run_bind hrun, List.map_cons, ← ih hc₂]
    exact congrArg (· :: _) happart.symm

end

/-- **Each block could have a table of its own.** For every checked program, leaving the copies out
of its blocks with one table for all blocks and all function bodies gives the same blocks as leaving
them out of each block, and of each function body in it, with a table that is empty at first. -/
theorem withoutCopies_eq_map_apart {forms : List Form} {es : List Expr} {types : TypeTable}
    (h : checkProgram forms = .ok (es, types)) (s : Session) :
    ∃ trees s' bs k, (Session.lower es).outcome s = (.ok trees, s') ∧
      (blocks trees).run s'.next = (bs, k) ∧ withoutCopies bs = bs.map Block.apart := by
  obtain ⟨trees, l, -, hlower, -⟩ := checkProgram_lowers h s.next
  obtain ⟨hmade, -⟩ := lowerAll_made (fun e _ ↦ e.lowersMade) (Lowerer.sees_start s.next) hlower
  generalize hblocks : (blocks trees).run l.next = p
  obtain ⟨bs, k⟩ := p
  have hshaped : Shaped l.next l.next bs k := hmade.shaped (Nat.le_refl _) (Nat.le_refl _) hblocks
  have houtcome : (Session.lower es).outcome s = (.ok trees, { s with next := l.next }) := by
    rw [Session.outcome_lower, hlower]
  exact ⟨trees, _, bs, k, houtcome, hblocks, hshaped.run_eq (.empty (Nat.le_refl _))⟩

/-- The program `(+ (if true 1 2) 3) (fn [x] (fn [y] (+ (if true x y) x)))`. -/
def copiedChoices : List Form :=
  let symbol (name : String) : Form := .atom (.symbol name) ⟨.symbol, name, 1⟩
  let number (n : Int64) : Form := .atom (.number n) ⟨.number, toString n, 1⟩
  let yes : Form := .atom (.boolean true) ⟨.boolean true, "true", 1⟩
  let list (fs : List Form) : Form := .group .list fs ⟨.opening .list, "(", 1⟩
  let vector (fs : List Form) : Form := .group .vector fs ⟨.opening .vector, "[", 1⟩
  let sum (a b c : Form) : Form := list [symbol "+", list [symbol "if", yes, a, b], c]
  let inner : Form := list [symbol "fn", vector [symbol "y"], sum (symbol "x") (symbol "y")
    (symbol "x")]
  [sum (number 1) (number 2) (number 3), list [symbol "fn", vector [symbol "x"], inner]]

/-- What a choice comes to is copied for a call, in a block and in the body of a function inside
another one. -/
theorem copiedChoices_apart : ∃ es types, checkProgram copiedChoices = .ok (es, types) ∧
    ∃ trees s' bs k, (Session.lower es).outcome (.start true) = (.ok trees, s') ∧
      (blocks trees).run s'.next = (bs, k) ∧ withoutCopies bs = bs.map Block.apart := by
  obtain ⟨es, types, h⟩ : ∃ es types, checkProgram copiedChoices = .ok (es, types) := ⟨_, _, rfl⟩
  exact ⟨es, types, h, withoutCopies_eq_map_apart h (.start true)⟩

end TaggedLisp.Ir
