import Mathlib.Data.List.Perm.Subperm
import Mathlib.Logic.Relation
import TaggedLisp.Proofs.Ir.Origins

/-!
# What is left when copies are dropped

`Block.copies` lists the moves of a block that only copy, also those in the bodies of functions.
`Block.Trimmed` says that one block is another one with some of these moves left out and with other
temporaries read, and which moves those are. Whenever all origins are found in a list of blocks, no
copy is left, exactly the copies are left out, and a temporary is read for another one only if that
one was copied from it (`propagation_complete`). No block has to come from a program for that:
temporaries may be assigned to again and again.

That the result is its own result needs no more than that no copy is left, since nothing is noted
then. All of this is said of the search with a limit, which gives up where copies run in a circle.
Where it does not give up, the limit does not matter: a search that ends never looks up a note
twice.
-/

namespace TaggedLisp.Ir

/-! ## Searches that end -/

namespace Copies

/-- The search for what `t` was first copied from looks up the notes on `xs` and ends with `u`. -/
inductive Search (c : Copies) : (t : Temp) → (xs : List Nat) → (u : Temp) → Prop where
  | done {t} (h : c.source t.id = Option.none) : Search c t [] t
  | look {t w xs u} (h : c.source t.id = some w) (hw : Search c w xs u) : Search c t (t.id :: xs) u

variable {c : Copies} {t t' u u' : Temp} {xs xs' : List Nat} {n x : Nat}

/-- Which notes are looked up depends on the number of the temporary only. -/
theorem Search.unique (h : c.Search t xs u) (h' : c.Search t' xs' u') (hid : t.id = t'.id) :
    xs = xs' := by
  induction h generalizing t' xs' with
  | done hnone =>
    cases h' with
    | done _ => rfl
    | look hw _ =>
      rw [← hid, hnone] at hw
      cases hw
  | look hw _ ih =>
    cases h' with
    | done hnone =>
      rw [← hid, hw] at hnone
      cases hnone
    | look hw' hrest =>
      rw [← hid] at hw' ⊢
      obtain rfl := Option.some.inj (hw.symm.trans hw')
      rw [ih hrest rfl]

/-- The rest of a search from a note on that it looks up. -/
theorem Search.of_mem (h : c.Search t xs u) (hx : x ∈ xs) :
    ∃ t' xs', t'.id = x ∧ c.Search t' xs' u ∧ xs'.length ≤ xs.length := by
  induction h with
  | done _ => cases hx
  | @look t w xs u hw hrest ih =>
    rcases List.mem_cons.mp hx with rfl | hx
    · exact ⟨t, _, rfl, .look hw hrest, Nat.le_refl _⟩
    · obtain ⟨t', xs', hid, hsearch, hlength⟩ := ih hx
      exact ⟨t', xs', hid, hsearch, Nat.le_succ_of_le hlength⟩

/-- No note is looked up twice: the search from there on would be shorter than itself. -/
theorem Search.nodup (h : c.Search t xs u) : xs.Nodup := by
  induction h with
  | done _ => exact List.nodup_nil
  | look hw hrest ih =>
    refine List.nodup_cons.mpr ⟨fun hmem ↦ ?_, ih⟩
    obtain ⟨t', xs', hid, hsearch, hlength⟩ := hrest.of_mem hmem
    obtain rfl := (Search.look hw hrest).unique hsearch hid.symm
    exact Nat.not_succ_le_self _ hlength

theorem Search.mem_keys (h : c.Search t xs u) : xs ⊆ c.sources.map Prod.fst := by
  induction h with
  | done _ => exact List.nil_subset _
  | @look t w _ _ hw _ ih =>
    obtain ⟨before, after, hsources, -⟩ := List.lookup_eq_some_iff.mp hw
    refine List.cons_subset.mpr ⟨?_, ih⟩
    simp [hsources]

theorem Search.length_le (h : c.Search t xs u) : xs.length ≤ c.sources.length := by
  simpa using (List.subperm_of_subset h.nodup h.mem_keys).length_le

theorem Search.originWithin_eq (h : c.Search t xs u) (hn : xs.length ≤ n) :
    originWithin c.sources n t = u := by
  induction h generalizing n with
  | done hnone =>
    cases n with
    | zero => rfl
    | succ n => rw [originWithin, show c.sources.lookup _ = Option.none from hnone]
  | @look t w _ _ hw _ ih =>
    obtain ⟨n, rfl⟩ := Nat.exists_eq_add_of_le' (Nat.le_trans (Nat.succ_pos _) hn)
    rw [originWithin, show c.sources.lookup t.id = some w from hw]
    exact ih (Nat.le_of_succ_le_succ hn)

theorem exists_search (h : c.originUpTo n t = some u) : ∃ xs, c.Search t xs u := by
  induction n generalizing t with
  | zero =>
    rw [originUpTo] at h
    split at h
    · next hnone =>
      cases h
      exact ⟨[], .done (Option.isNone_iff_eq_none.mp hnone)⟩
    · cases h
  | succ n ih =>
    rw [originUpTo] at h
    split at h
    · next hnone =>
      cases h
      exact ⟨[], .done hnone⟩
    · next w hw =>
      obtain ⟨xs, hxs⟩ := ih h
      exact ⟨_, .look hw hxs⟩

/-- What a search with a limit finds is what is found without one. -/
theorem origin_of_originUpTo (h : c.originUpTo n t = some u) : c.origin t = u := by
  obtain ⟨xs, hxs⟩ := exists_search h
  exact hxs.originWithin_eq hxs.length_le

theorem operand_of_operandUpTo {v w : Operand} (h : c.operandUpTo n v = some w) :
    c.operand v = w := by
  cases v with
  | const k =>
    cases h
    rfl
  | temp t =>
    obtain ⟨u, hu, hw⟩ := Option.bind_eq_some_iff.mp h
    cases hw
    rw [operand, origin_of_originUpTo hu]

end Copies

/-! ## Propagation that does not give up -/

namespace Propagate

/-- Unless it gives up, the step with a limit does the same as the one without. -/
def Found {α : Type} (p : Propagate α) (q : PropagateUpTo α) : Prop :=
  ∀ c r, q.run c = some r → p.run c = r

namespace Found

variable {α β : Type} {p : Propagate α} {q : PropagateUpTo α} {a : α}

theorem pure (a : α) : Found (pure a) (Pure.pure a) := fun _ _ h ↦ Option.some.inj h

theorem bind {f : α → Propagate β} {g : α → PropagateUpTo β} (h : Found p q)
    (hf : ∀ a, Found (f a) (g a)) : Found (p >>= f) (q >>= g) := by
  intro c r hr
  obtain ⟨⟨a, c₁⟩, ha, hr⟩ := Option.bind_eq_some_iff.mp hr
  rw [run_bind (h c _ ha)]
  exact hf a c₁ r hr

theorem get {f : Copies → Propagate α} {g : Copies → PropagateUpTo α}
    (hf : ∀ c, Found (f c) (g c)) : Found (get >>= f) (MonadState.get >>= g) := fun c ↦ hf c c

/-- A step that has no effect but to give up. -/
theorem step {p : Propagate β} {g : α → PropagateUpTo β} (hq : Found (Pure.pure a) q)
    (hp : Found p (g a)) : Found p (q >>= g) := by
  intro c r hr
  obtain ⟨p', ha, hr⟩ := Option.bind_eq_some_iff.mp hr
  obtain rfl : (a, c) = p' := hq c p' ha
  exact hp c r hr

/-- Something is looked for with a limit. -/
theorem lift {o : Option α} (h : ∀ b, o = some b → a = b) :
    Found (Pure.pure a) (o : PropagateUpTo α) := by
  intro c r hr
  obtain ⟨b, hb, hr⟩ := Option.bind_eq_some_iff.mp hr
  cases hr
  rw [h b hb]
  rfl

theorem mapM {f : β → α} {g : β → PropagateUpTo α} (h : ∀ b, Found (Pure.pure (f b)) (g b))
    (l : List β) : Found (Pure.pure (l.map f)) (l.mapM g) := by
  induction l with
  | nil => exact .pure []
  | cons b l ih =>
    rw [List.mapM_cons]
    exact .step (h b) (.step ih (.pure _))

end Found

open Copies

mutual

theorem found_rhs (n : Nat) : (source : Rhs) → Found source.propagate (source.propagateUpTo n)
  | .value _ | .tag _ _ | .untag _ => by
    simp only [Rhs.propagate, Rhs.propagateUpTo]
    exact .get fun c ↦ .step (.lift fun _ ↦ operand_of_operandUpTo) (.pure _)
  | .call callee args => by
    simp only [Rhs.propagate, Rhs.propagateUpTo]
    exact .get fun c ↦ .step (.lift fun _ ↦ operand_of_operandUpTo)
      (.step (.mapM (fun _ ↦ .lift fun _ ↦ operand_of_operandUpTo) args) (.pure _))
  | .func head captures body => by
    simp only [Rhs.propagate, Rhs.propagateUpTo]
    refine .get fun c ↦ .step (.mapM (fun p ↦ ?_) captures)
      (.bind (found_block n body) fun _ ↦ .pure _)
    exact .step (.lift fun _ ↦ operand_of_operandUpTo) (.pure (p.1, c.operand p.2))

theorem found_block (n : Nat) : (b : Block) → Found b.propagate (b.propagateUpTo n)
  | .mk stmts value => by
    simp only [Block.propagate, Block.propagateUpTo]
    exact .bind (found_stmts n stmts) fun _ ↦ .bind (found_rhs n value) fun _ ↦ .pure _

theorem found_stmts (n : Nat) : (ss : List Stmt) → Found (propagateAll ss) (propagateAllUpTo n ss)
  | [] => by
    simp only [propagateAll, propagateAllUpTo]
    exact .pure _
  | s :: ss => by
    simp only [propagateAll, propagateAllUpTo]
    exact .bind (found_stmt n s) fun _ ↦ .bind (found_stmts n ss) fun _ ↦ .pure _

theorem found_stmt (n : Nat) : (s : Stmt) → Found s.propagate (s.propagateUpTo n)
  | .move dest source => by
    simp only [Stmt.propagate, Stmt.propagateUpTo]
    refine .bind (found_rhs n source) fun source' ↦ ?_
    -- whether the move is dropped is no matter of the limit
    cases source' with
    | value v =>
      cases v with
      | temp u =>
        dsimp only
        split
        · exact fun _ _ h ↦ Option.some.inj h
        · exact .pure _
      | const w => exact .pure _
    | tag | untag | call | func => exact .pure _
  | .branch _ _ => by
    simp only [Stmt.propagate, Stmt.propagateUpTo]
    exact .get fun c ↦ .step (.lift fun _ ↦ operand_of_operandUpTo) (.pure _)
  | .phi _ sources => by
    simp only [Stmt.propagate, Stmt.propagateUpTo]
    refine .get fun c ↦ .step (.mapM (fun p ↦ ?_) sources) (.pure _)
    exact .step (.lift fun _ ↦ origin_of_originUpTo) (.pure (p.1, c.origin p.2))
  | .jump _ | .label _ => by
    simp only [Stmt.propagate, Stmt.propagateUpTo]
    exact .pure _

end

/-- The limit does not matter where all origins are found. -/
theorem found_blocks (n : Nat) (bs : List Block) :
    Found (propagateBlocks bs) (propagateBlocksUpTo n bs) := by
  induction bs with
  | nil => exact .pure []
  | cons b bs ih => exact .bind (found_block n b) fun _ ↦ .bind ih fun _ ↦ .pure _

end Propagate

/-! ## Copies in a text -/

/-- The copy that a move makes, if it only copies: the temporary that is moved into and the one that
is moved. -/
def copyOf (dest : Temp) : Rhs → List (Temp × Temp)
  | .value (.temp source) => if dest.isSynthetic then [(dest, source)] else []
  | _ => []

mutual

/-- The copies in a computation, which stand in the body of a function. -/
def Rhs.copies : Rhs → List (Temp × Temp)
  | .func _ _ body => body.copies
  | .value _ | .tag _ _ | .untag _ | .call _ _ => []

/-- The copies in a block. -/
def Block.copies : Block → List (Temp × Temp)
  | .mk stmts value => copiesOfStmts stmts ++ value.copies

/-- The copies in statements. -/
def copiesOfStmts : List Stmt → List (Temp × Temp)
  | [] => []
  | s :: ss => s.copies ++ copiesOfStmts ss

/-- The copies in a statement. -/
def Stmt.copies : Stmt → List (Temp × Temp)
  | .move dest source => copyOf dest source ++ source.copies
  | .branch _ _ | .phi _ _ | .jump _ | .label _ => []

end

theorem copiesOfStmts_append (ss ss' : List Stmt) :
    copiesOfStmts (ss ++ ss') = copiesOfStmts ss ++ copiesOfStmts ss' := by
  induction ss with
  | nil => rfl
  | cons s ss ih => rw [List.cons_append, copiesOfStmts, copiesOfStmts, ih, List.append_assoc]

/-! ## Texts without some of their copies -/

/-- The second operand reads a temporary that is related to the one that the first operand reads. -/
inductive Operand.Renamed (R : Temp → Temp → Prop) : Operand → Operand → Prop where
  | const (w : Const) : Renamed R (.const w) (.const w)
  | temp {t u : Temp} (h : R t u) : Renamed R (.temp t) (.temp u)

section

variable (R : Temp → Temp → Prop)

mutual

/-- The second computation is the first one with the copies `D` left out and temporaries read that
are related to those read in the first one. -/
inductive Rhs.Trimmed : (D : List (Temp × Temp)) → Rhs → Rhs → Prop where
  | value {v v'} (hv : v.Renamed R v') : Rhs.Trimmed [] (.value v) (.value v')
  | tag {v v'} (t : Tag) (hv : v.Renamed R v') : Rhs.Trimmed [] (.tag t v) (.tag t v')
  | untag {v v'} (hv : v.Renamed R v') : Rhs.Trimmed [] (.untag v) (.untag v')
  | call {callee callee' args args'} (hcallee : callee.Renamed R callee')
      (hargs : List.Forall₂ (Operand.Renamed R) args args') :
      Rhs.Trimmed [] (.call callee args) (.call callee' args')
  | func {D captures captures' body body'} (head : FuncHead)
      (hcaptures : List.Forall₂ (fun p p' ↦ p.1 = p'.1 ∧ p.2.Renamed R p'.2) captures captures')
      (hbody : Block.Trimmed D body body') :
      Rhs.Trimmed D (.func head captures body) (.func head captures' body')

/-- The second block is the first one without the copies `D`. -/
inductive Block.Trimmed : (D : List (Temp × Temp)) → Block → Block → Prop where
  | mk {D D' stmts stmts' value value'} (hstmts : TrimmedStmts D stmts stmts')
      (hvalue : Rhs.Trimmed D' value value') :
      Block.Trimmed (D ++ D') (.mk stmts value) (.mk stmts' value')

/-- The second statements are the first ones without the copies `D`. -/
inductive TrimmedStmts : (D : List (Temp × Temp)) → List Stmt → List Stmt → Prop where
  | nil : TrimmedStmts [] [] []
  | cons {D D' s first ss rest} (hs : Stmt.Trimmed D s first) (hss : TrimmedStmts D' ss rest) :
      TrimmedStmts (D ++ D') (s :: ss) (first ++ rest)

/-- The statement is left out, being a copy itself, or kept without the copies `D` inside. -/
inductive Stmt.Trimmed : (D : List (Temp × Temp)) → Stmt → List Stmt → Prop where
  | leftOut {dest} (source : Temp) (hdest : dest.isSynthetic = true) :
      Stmt.Trimmed [(dest, source)] (.move dest (.value (.temp source))) []
  | move {D source source'} (dest : Temp) (hsource : Rhs.Trimmed D source source') :
      Stmt.Trimmed D (.move dest source) [.move dest source']
  | branch {cond cond'} (l : String) (hcond : cond.Renamed R cond') :
      Stmt.Trimmed [] (.branch cond l) [.branch cond' l]
  | phi {sources sources'} (dest : Temp)
      (hsources : List.Forall₂ (fun p p' ↦ p.1 = p'.1 ∧ R p.2 p'.2) sources sources') :
      Stmt.Trimmed [] (.phi dest sources) [.phi dest sources']
  | jump (l : String) : Stmt.Trimmed [] (.jump l) [.jump l]
  | label (l : String) : Stmt.Trimmed [] (.label l) [.label l]

end

end

/-- The temporary `u` is `t` itself, or `t` was copied from it by one or several of the copies `D`.
-/
def Copied (D : List (Temp × Temp)) : Temp → Temp → Prop :=
  Relation.ReflTransGen fun t u ↦ ∃ dest, (dest, u) ∈ D ∧ dest.id = t.id

/-! ## Notes on copies -/

namespace Copies

/-- What is noted are copies of `D`, and `k` of them were dropped. -/
structure Noted (D : List (Temp × Temp)) (k : Nat) (c : Copies) : Prop where
  copied : ∀ {t u : Temp}, c.source t.id = some u → Copied D t u
  dropped : c.dropped = k

namespace Noted

variable {D : List (Temp × Temp)} {k : Nat} {c : Copies}

theorem empty (D : List (Temp × Temp)) : none.Noted D 0 where
  copied h := by simp [source_none] at h
  dropped := rfl

theorem origin (h : c.Noted D k) (t : Temp) : Copied D t (c.origin t) := by
  have hwithin : ∀ n t, Copied D t (originWithin c.sources n t) := by
    intro n
    induction n with
    | zero => exact fun t ↦ .refl
    | succ n ih =>
      intro t
      rw [originWithin]
      split
      · exact .refl
      · next u hu => exact (h.copied hu).trans (ih u)
  exact hwithin _ t

theorem operand (h : c.Noted D k) (v : Operand) : v.Renamed (Copied D) (c.operand v) := by
  cases v with
  | const w => exact .const w
  | temp t => exact .temp (h.origin t)

theorem operands (h : c.Noted D k) (vs : List Operand) :
    List.Forall₂ (Operand.Renamed (Copied D)) vs (vs.map c.operand) :=
  List.forall₂_map_right_iff.mpr (List.forall₂_same.mpr fun v _ ↦ h.operand v)

/-- A copy of `D` is noted, with what it was first copied from. -/
theorem drop {dest t : Temp} (h : c.Noted D k) (hD : (dest, t) ∈ D) :
    (c.drop dest (c.origin t)).Noted D (k + 1) where
  copied {s u} hu := by
    rw [source_drop] at hu
    split at hu
    · next hid =>
      cases hu
      exact .head ⟨dest, hD, hid.symm⟩ (h.origin t)
    · exact h.copied hu
  dropped := congrArg (· + 1) h.dropped

end Noted

end Copies

/-! ## Propagation drops all copies -/

theorem Rhs.Trimmed.copyOf_eq_nil {R : Temp → Temp → Prop} {D : List (Temp × Temp)}
    {source source' : Rhs} (h : Rhs.Trimmed R D source source') {dest : Temp}
    (hdest : copyOf dest source = []) : copyOf dest source' = [] := by
  cases h with
  | value hv =>
    cases hv with
    | const w => rfl
    | temp _ => simpa [copyOf] using hdest
  | tag | untag | call | func => rfl

theorem eq_of_copyOf_ne_nil {dest : Temp} {source : Rhs} (h : copyOf dest source ≠ []) :
    dest.isSynthetic = true ∧ ∃ t, source = .value (.temp t) := by
  unfold copyOf at h
  split at h
  · split at h
    · next hdest => exact ⟨hdest, _, rfl⟩
    · exact absurd rfl h
  · exact absurd rfl h

namespace Propagate

variable {D : List (Temp × Temp)} {k : Nat} {c : Copies}

/-- A move that does not only copy is kept. -/
theorem run_kept {dest : Temp} {source source' : Rhs} {c₁ : Copies}
    (h : source.propagate.run c = (source', c₁)) (hdest : copyOf dest source' = []) :
    (Stmt.move dest source).propagate.run c = ([.move dest source'], c₁) := by
  rw [Stmt.propagate, run_bind h]
  split
  · split
    · next hsynthetic => simp [copyOf, hsynthetic] at hdest
    · rfl
  · rfl

theorem run_leftOut {dest : Temp} (hdest : dest.isSynthetic = true) (t : Temp) (c : Copies) :
    (Stmt.move dest (.value (.temp t))).propagate.run c = ([], c.drop dest (c.origin t)) := by
  have hrun : (Rhs.value (.temp t)).propagate.run c = (.value (.temp (c.origin t)), c) := rfl
  rw [Stmt.propagate, run_bind hrun]
  simp only [hdest]
  rfl

/-- Run where only copies of `D` are noted, the step gives something that `P` holds of and drops as
many copies as are in `D'`, which are copies of `D` too. -/
def Drops {α : Type} (D D' : List (Temp × Temp)) (p : Propagate α) (P : α → Prop) : Prop :=
  ∀ k c, c.Noted D k → ∃ a c', p.run c = (a, c') ∧ P a ∧ c'.Noted D (k + D'.length)

mutual

theorem drops_rhs : (source : Rhs) → source.copies ⊆ D → Drops D source.copies source.propagate
    fun source' ↦ source.Trimmed (Copied D) source.copies source' ∧ source'.copies = []
  | .value v, _ => fun k c hc ↦ ⟨_, c, rfl, ⟨.value (hc.operand v), rfl⟩, hc⟩
  | .tag t v, _ => fun k c hc ↦ ⟨_, c, rfl, ⟨.tag t (hc.operand v), rfl⟩, hc⟩
  | .untag v, _ => fun k c hc ↦ ⟨_, c, rfl, ⟨.untag (hc.operand v), rfl⟩, hc⟩
  | .call callee args, _ => fun k c hc ↦
    ⟨_, c, rfl, ⟨.call (hc.operand callee) (hc.operands args), rfl⟩, hc⟩
  | .func head captures body, hD => fun k c hc ↦ by
    obtain ⟨body', c', hrun, ⟨htrimmed, hnone⟩, hc'⟩ := drops_block body hD k c hc
    refine ⟨_, c', run_func hrun, ⟨.func head ?_ htrimmed, hnone⟩, hc'⟩
    exact List.forall₂_map_right_iff.mpr (List.forall₂_same.mpr fun p _ ↦ ⟨rfl, hc.operand p.2⟩)

theorem drops_block : (b : Block) → b.copies ⊆ D → Drops D b.copies b.propagate
    fun b' ↦ b.Trimmed (Copied D) b.copies b' ∧ b'.copies = []
  | .mk stmts value, hD => fun k c hc ↦ by
    obtain ⟨hstmts, hvalue⟩ := List.append_subset.mp hD
    obtain ⟨stmts', c₁, hrun₁, ⟨htrimmed₁, hnone₁⟩, hc₁⟩ := drops_stmts stmts hstmts k c hc
    obtain ⟨value', c₂, hrun₂, ⟨htrimmed₂, hnone₂⟩, hc₂⟩ := drops_rhs value hvalue _ c₁ hc₁
    refine ⟨_, c₂, run_block hrun₁ hrun₂, ⟨.mk htrimmed₁ htrimmed₂, ?_⟩, ?_⟩
    · rw [Block.copies, hnone₁, hnone₂, List.append_nil]
    · rwa [Block.copies, List.length_append, ← Nat.add_assoc]

theorem drops_stmts : (ss : List Stmt) → copiesOfStmts ss ⊆ D →
    Drops D (copiesOfStmts ss) (propagateAll ss)
      fun ss' ↦ TrimmedStmts (Copied D) (copiesOfStmts ss) ss ss' ∧ copiesOfStmts ss' = []
  | [], _ => fun k c hc ↦ ⟨[], c, rfl, ⟨.nil, rfl⟩, hc⟩
  | s :: ss, hD => fun k c hc ↦ by
    obtain ⟨hs, hss⟩ := List.append_subset.mp hD
    obtain ⟨first, c₁, hrun₁, ⟨htrimmed₁, hnone₁⟩, hc₁⟩ := drops_stmt s hs k c hc
    obtain ⟨rest, c₂, hrun₂, ⟨htrimmed₂, hnone₂⟩, hc₂⟩ := drops_stmts ss hss _ c₁ hc₁
    refine ⟨_, c₂, run_cons hrun₁ hrun₂, ⟨.cons htrimmed₁ htrimmed₂, ?_⟩, ?_⟩
    · rw [copiesOfStmts_append, hnone₁, hnone₂, List.append_nil]
    · rwa [copiesOfStmts, List.length_append, ← Nat.add_assoc]

theorem drops_stmt : (s : Stmt) → s.copies ⊆ D → Drops D s.copies s.propagate
    fun first ↦ s.Trimmed (Copied D) s.copies first ∧ copiesOfStmts first = []
  | .move dest source, hD => fun k c hc ↦ by
    by_cases hdest : copyOf dest source = []
    · rw [Stmt.copies, hdest, List.nil_append] at hD ⊢
      obtain ⟨source', c', hrun, ⟨htrimmed, hnone⟩, hc'⟩ := drops_rhs source hD k c hc
      have hdest' := htrimmed.copyOf_eq_nil hdest
      refine ⟨_, c', run_kept hrun hdest', ⟨.move dest htrimmed, ?_⟩, hc'⟩
      rw [copiesOfStmts, Stmt.copies, hdest', hnone]
      rfl
    · obtain ⟨hsynthetic, t, rfl⟩ := eq_of_copyOf_ne_nil hdest
      have hcopies : (Stmt.move dest (.value (.temp t))).copies = [(dest, t)] := by
        simp [Stmt.copies, copyOf, hsynthetic, Rhs.copies]
      rw [hcopies] at hD ⊢
      exact ⟨[], _, run_leftOut hsynthetic t c, ⟨.leftOut t hsynthetic, rfl⟩,
        hc.drop (hD List.mem_cons_self)⟩
  | .branch cond l, _ => fun k c hc ↦ ⟨_, c, rfl, ⟨.branch l (hc.operand cond), rfl⟩, hc⟩
  | .phi dest sources, _ => fun k c hc ↦ by
    refine ⟨_, c, run_phi dest sources c, ⟨.phi dest ?_, rfl⟩, hc⟩
    exact List.forall₂_map_right_iff.mpr (List.forall₂_same.mpr fun p _ ↦ ⟨rfl, hc.origin p.2⟩)
  | .jump l, _ => fun k c hc ↦ ⟨_, c, rfl, ⟨.jump l, rfl⟩, hc⟩
  | .label l, _ => fun k c hc ↦ ⟨_, c, rfl, ⟨.label l, rfl⟩, hc⟩

end

/-- In all blocks the copies are dropped, and no other moves. -/
theorem drops_blocks (bs : List Block) (hD : bs.flatMap Block.copies ⊆ D) :
    Drops D (bs.flatMap Block.copies) (propagateBlocks bs) fun bs' ↦
      List.Forall₂ (fun b b' ↦ b.Trimmed (Copied D) b.copies b') bs bs' ∧
        bs'.flatMap Block.copies = [] := by
  induction bs with
  | nil => exact fun k c hc ↦ ⟨[], c, rfl, ⟨.nil, rfl⟩, hc⟩
  | cons b bs ih =>
    intro k c hc
    rw [List.flatMap_cons] at hD ⊢
    obtain ⟨hb, hbs⟩ := List.append_subset.mp hD
    obtain ⟨b', c₁, hrun₁, ⟨htrimmed₁, hnone₁⟩, hc₁⟩ := drops_block b hb k c hc
    obtain ⟨bs', c₂, hrun₂, ⟨htrimmed₂, hnone₂⟩, hc₂⟩ := ih hbs _ c₁ hc₁
    refine ⟨b' :: bs', c₂, ?_, ⟨.cons htrimmed₁ htrimmed₂, ?_⟩, ?_⟩
    · rw [propagateBlocks, run_bind hrun₁, run_bind hrun₂]
      rfl
    · rw [List.flatMap_cons, hnone₁, hnone₂, List.append_nil]
    · rwa [List.length_append, ← Nat.add_assoc]

/-! ## Where there are no copies -/

variable {n : Nat}

/-- Nothing changes, and nothing is noted. -/
def Rests {α : Type} (q : PropagateUpTo α) (a : α) : Prop := q.run .none = some (a, .none)

theorem Rests.bind {α β : Type} {q : PropagateUpTo α} {f : α → PropagateUpTo β} {a : α} {b : β}
    (h : Rests q a) (hf : Rests (f a) b) : Rests (q >>= f) b := by
  rw [Rests, StateT.run_bind, h]
  exact hf

theorem Rests.pure {α : Type} (a : α) : Rests (Pure.pure a) a := rfl

theorem Rests.get {α : Type} {f : Copies → PropagateUpTo α} {a : α} (hf : Rests (f .none) a) :
    Rests (MonadState.get >>= f) a := hf

theorem rests_origin (n : Nat) (t : Temp) :
    Rests (Copies.none.originUpTo n t : PropagateUpTo Temp) t := by
  rw [Copies.originUpTo_of_none (Copies.source_none t.id)]
  rfl

theorem rests_operand (n : Nat) (v : Operand) :
    Rests (Copies.none.operandUpTo n v : PropagateUpTo Operand) v := by
  cases v with
  | const w => rfl
  | temp t =>
    rw [Copies.operandUpTo, Copies.originUpTo_of_none (Copies.source_none t.id)]
    rfl

theorem Rests.mapM {α : Type} {f : α → PropagateUpTo α} (h : ∀ a, Rests (f a) a) (l : List α) :
    Rests (l.mapM f) l := by
  induction l with
  | nil => rfl
  | cons a l ih =>
    rw [List.mapM_cons]
    exact (h a).bind (ih.bind (.pure _))

mutual

theorem rests_rhs (n : Nat) :
    (source : Rhs) → source.copies = [] → Rests (source.propagateUpTo n) source
  | .value v, _ | .tag _ v, _ | .untag v, _ => by
    rw [Rhs.propagateUpTo]
    exact .get ((rests_operand n v).bind (.pure _))
  | .call callee args, _ => by
    rw [Rhs.propagateUpTo]
    exact .get ((rests_operand n callee).bind ((Rests.mapM (rests_operand n) args).bind (.pure _)))
  | .func head captures body, h => by
    rw [Rhs.propagateUpTo]
    refine .get ((Rests.mapM (fun p ↦ ?_) captures).bind ((rests_block n body h).bind (.pure _)))
    exact (rests_operand n p.2).bind (.pure _)

theorem rests_block (n : Nat) : (b : Block) → b.copies = [] → Rests (b.propagateUpTo n) b
  | .mk stmts value, h => by
    obtain ⟨hstmts, hvalue⟩ := List.append_eq_nil_iff.mp h
    rw [Block.propagateUpTo]
    exact (rests_stmts n stmts hstmts).bind ((rests_rhs n value hvalue).bind (.pure _))

theorem rests_stmts (n : Nat) :
    (ss : List Stmt) → copiesOfStmts ss = [] → Rests (propagateAllUpTo n ss) ss
  | [], _ => rfl
  | s :: ss, h => by
    obtain ⟨hs, hss⟩ := List.append_eq_nil_iff.mp h
    rw [propagateAllUpTo]
    exact (rests_stmt n s hs).bind ((rests_stmts n ss hss).bind (.pure _))

theorem rests_stmt (n : Nat) : (s : Stmt) → s.copies = [] → Rests (s.propagateUpTo n) [s]
  | .move dest source, h => by
    obtain ⟨hdest, hsource⟩ := List.append_eq_nil_iff.mp h
    rw [Stmt.propagateUpTo]
    refine (rests_rhs n source hsource).bind ?_
    split
    · split
      · next hsynthetic => simp [copyOf, hsynthetic] at hdest
      · exact .pure _
    · exact .pure _
  | .branch cond _, _ => by
    rw [Stmt.propagateUpTo]
    exact .get ((rests_operand n cond).bind (.pure _))
  | .phi _ sources, _ => by
    rw [Stmt.propagateUpTo]
    refine .get ((Rests.mapM (fun p ↦ ?_) sources).bind (.pure _))
    exact (rests_origin n p.2).bind (.pure _)
  | .jump _, _ | .label _, _ => by
    rw [Stmt.propagateUpTo]
    exact .pure _

end

theorem rests_blocks (n : Nat) (bs : List Block) (h : bs.flatMap Block.copies = []) :
    Rests (propagateBlocksUpTo n bs) bs := by
  induction bs with
  | nil => rfl
  | cons b bs ih =>
    rw [List.flatMap_cons] at h
    obtain ⟨hb, hbs⟩ := List.append_eq_nil_iff.mp h
    rw [propagateBlocksUpTo]
    exact (rests_block n b hb).bind ((ih hbs).bind (.pure _))

end Propagate

/-- **Copies are dropped once and for all.** Take any blocks, from a program or not, in which all
origins are found. The blocks without copies are then the same ones whatever the limit is. No copy
is left in them, in blocks or in function bodies; they are the former blocks with all copies left
out, as many as were counted, and a temporary is read in place of another one only if that one was
copied from it. Dropping copies from them, with any limit, finds all origins and changes nothing. -/
theorem propagation_complete {bs bs' : List Block} {c : Copies} {n : Nat}
    (h : (propagateBlocksUpTo n bs).run .none = some (bs', c)) :
    (propagateBlocks bs).run .none = (bs', c) ∧
    bs'.flatMap Block.copies = [] ∧
    List.Forall₂ (fun b b' ↦ b.Trimmed (Copied (bs.flatMap Block.copies)) b.copies b') bs bs' ∧
    c.dropped = (bs.flatMap Block.copies).length ∧
    (∀ m, (propagateBlocksUpTo m bs').run .none = some (bs', .none)) ∧
    (propagateBlocks bs').run .none = (bs', .none) := by
  have hrun := Propagate.found_blocks n bs _ _ h
  obtain ⟨bs'', c', hrun', ⟨htrimmed, hnone⟩, hc'⟩ :=
    Propagate.drops_blocks bs (List.Subset.refl _) 0 .none (.empty _)
  obtain ⟨rfl, rfl⟩ := Prod.mk.injEq .. ▸ hrun.symm.trans hrun'
  have hrests : ∀ m, (propagateBlocksUpTo m bs').run .none = some (bs', .none) :=
    fun m ↦ Propagate.rests_blocks m bs' hnone
  refine ⟨hrun, hnone, htrimmed, ?_, hrests, Propagate.found_blocks 0 bs' _ _ (hrests 0)⟩
  rw [hc'.dropped, Nat.zero_add]

/-- A copy is captured, read in the body of a function, and then made again of something else. -/
def recopied : List Block :=
  let x : Temp := ⟨0, some "x"⟩
  let y : Temp := ⟨1, some "y"⟩
  let copy : Temp := ⟨2, none⟩
  let inner : Temp := ⟨3, none⟩
  [ .mk
      [ .move copy (.value (.temp x)),
        .move y (.func ⟨"f", [], false⟩ [(⟨"x", x⟩, .temp copy)]
          (.mk [.move inner (.value (.temp copy))] (.call (.temp inner) [.temp copy]))),
        .move copy (.value (.temp y)) ]
      (.value (.temp copy)),
    .mk [.phi x [("yes", inner), ("no", copy)]] (.value (.temp inner)) ]

/-- Three copies are dropped, one of them in the body of the function. -/
theorem recopied_complete : ∃ bs' c, (propagateBlocksUpTo 2 recopied).run .none = some (bs', c) ∧
    c.dropped = 3 ∧ (propagateBlocks recopied).run .none = (bs', c) ∧
    bs'.flatMap Block.copies = [] ∧
    List.Forall₂ (fun b b' ↦ b.Trimmed (Copied (recopied.flatMap Block.copies)) b.copies b')
      recopied bs' ∧
    (∀ m, (propagateBlocksUpTo m bs').run .none = some (bs', .none)) ∧
    (propagateBlocks bs').run .none = (bs', .none) := by
  obtain ⟨bs', c, h⟩ : ∃ bs' c, (propagateBlocksUpTo 2 recopied).run .none = some (bs', c) :=
    ⟨_, _, rfl⟩
  obtain ⟨hrun, hnone, htrimmed, hdropped, hrests, hrest⟩ := propagation_complete h
  exact ⟨bs', c, h, hdropped, hrun, hnone, htrimmed, hrests, hrest⟩

end TaggedLisp.Ir
