import TaggedLisp.Proofs.Ir.Stages

/-!
# Flattening keeps what a tree does

The block of a lowered tree asks what the tree asks, in the same order and with the same words, and
ends with the same word; so do the blocks of the functions in it. Both come to an end whatever is
answered.

The proof goes along the shapes of `Made`. For each of them the statements are put together from
those of its parts, in the order of evaluation, with the lemmas of `Stages`.
-/

namespace TaggedLisp.Ir

/-! ## Steps of flattening -/

namespace Flatten

variable {α β : Type} {n n₁ n₂ n₃ : Nat}

theorem run_bind {p : Flatten α} {f : α → Flatten β} {a : α} (h : p.run n = (a, n₁)) :
    (p >>= f).run n = (f a).run n₁ := by
  rw [StateT.run_bind, h]
  rfl

theorem run_cons {s : Effect} {ss : List Effect} {first rest : List Stmt}
    (hs : s.flatten.run n = (first, n₁)) (hss : (flattenEffects ss).run n₁ = (rest, n₂)) :
    (flattenEffects (s :: ss)).run n = (first ++ rest, n₂) := by
  rw [flattenEffects, run_bind hs, run_bind hss]
  rfl

/-- The steps of a sequence may be flattened one by one. -/
theorem run_after_cons {s : Effect} {ss : List Effect} {e : Tree} {first rest : List Stmt}
    {value : Rhs} (hs : s.flatten.run n = (first, n₁))
    (hrest : (Tree.after (.seq ss) e).flatten.run n₁ = ((rest, value), n₂)) :
    (Tree.after (.seq (s :: ss)) e).flatten.run n = ((first ++ rest, value), n₂) := by
  generalize hss : (flattenEffects ss).run n₁ = p at hrest
  obtain ⟨mid, n₃⟩ := p
  generalize he : e.flatten.run n₃ = q at hrest
  obtain ⟨⟨last, value'⟩, n₄⟩ := q
  rw [Tree.flatten, Effect.flatten, run_bind hss, run_bind he] at hrest
  rw [Tree.flatten, Effect.flatten, run_bind (run_cons hs hss), run_bind he]
  cases hrest
  rw [← List.append_assoc]
  rfl

theorem run_captures {cs : List (Cell × Tree)} {stmts : List Stmt} {vs : List Operand}
    (h : (flattenOperands (cs.map Prod.snd)).run n = ((stmts, vs), n₁)) :
    ∃ cvs, (flattenCaptures cs).run n = ((stmts, cvs), n₁) ∧ cvs.map Prod.snd = vs ∧
      cvs.map Prod.fst = cs.map Prod.fst := by
  induction cs generalizing n stmts vs with
  | nil =>
    cases h
    exact ⟨[], rfl, rfl, rfl⟩
  | cons c cs ih =>
    obtain ⟨cell, e⟩ := c
    generalize he : e.flatten.run n = p
    obtain ⟨⟨s, value⟩, n₂⟩ := p
    generalize ho : (operand e s value).run n₂ = p
    obtain ⟨⟨s', v⟩, n₃⟩ := p
    generalize hes : (flattenOperands (cs.map Prod.snd)).run n₃ = p
    obtain ⟨⟨rest, vs'⟩, n₄⟩ := p
    rw [List.map_cons, flattenOperands, run_bind he, run_bind ho, run_bind hes] at h
    cases h
    obtain ⟨cvs, hcs, hvs, hcells⟩ := ih hes
    refine ⟨(cell, v) :: cvs, ?_, by rw [List.map_cons, hvs], by rw [List.map_cons, hcells]; rfl⟩
    rw [flattenCaptures, run_bind he, run_bind ho, run_bind hcs]
    rfl

/-- The statements of a conditional are a diamond behind those of its test. -/
theorem run_cond {j : Lower.Join} {test yes no : Tree} {n₄ : Nat} {s s₁ s₂ s₃ : List Stmt}
    {value₁ value₂ value₃ : Rhs} {v : Operand}
    (htest : (Tree.untag test).flatten.run n = ((s, value₁), n₁))
    (ho : (operand (.untag test) s value₁).run n₁ = ((s₁, v), n₂))
    (hno : no.flatten.run n₂ = ((s₂, value₂), n₃))
    (hyes : yes.flatten.run n₃ = ((s₃, value₃), n₄)) :
    (Lower.cond j test yes no).flatten.run n
      = ((s₁ ++ diamond j v s₂ value₂ s₃ value₃, .value (.temp j.result)), n₄) := by
  have hbranch : ∀ l, (Effect.branch (.untag test) l).flatten.run n
      = (s₁ ++ [Stmt.branch v l], n₂) := by
    intro l
    rw [Effect.flatten, run_bind htest, run_bind ho]
    rfl
  have hmoveNo : (Effect.move j.no no).flatten.run n₂ = (s₂ ++ [Stmt.move j.no value₂], n₃) := by
    rw [Effect.flatten, run_bind hno]
    rfl
  have hmoveYes : (Effect.move j.yes yes).flatten.run n₃ =
      (s₃ ++ [Stmt.move j.yes value₃], n₄) := by
    rw [Effect.flatten, run_bind hyes]
    rfl
  have hlabel : ∀ l n, (Effect.label l).flatten.run n = ([.label l], n) := fun _ _ ↦ rfl
  have hjump : ∀ l n, (Effect.jump l).flatten.run n = ([.jump l], n) := fun _ _ ↦ rfl
  have hphi : ∀ t ts n, (Effect.phi t ts).flatten.run n = ([.phi t ts], n) := fun _ _ _ ↦ rfl
  have hnil : (flattenEffects []).run n₄ = ([], n₄) := rfl
  have htemp : (Tree.temp j.result).flatten.run n₄ = (([], .value (.temp j.result)), n₄) := rfl
  rw [Lower.cond, Tree.flatten, Effect.flatten]
  refine (run_bind (run_cons (hbranch _) (run_cons (hlabel _ _) (run_cons hmoveNo
    (run_cons (hjump _ _) (run_cons (hlabel _ _) (run_cons hmoveYes (run_cons (hlabel _ _)
      (run_cons (hphi _ _ _) hnil))))))))).trans ?_
  rw [run_bind htemp]
  simp only [diamond, List.append_assoc, List.cons_append, List.nil_append, List.append_nil]
  rfl

end Flatten

/-! ## Evaluation of the shapes -/

section

variable {V : Type} (A : Algebra V)

theorem evalSources_eq (cs : List (Cell × Tree)) (ρ : Store V) :
    evalSources A cs ρ = evalTrees A (cs.map Prod.snd) ρ := by
  induction cs generalizing ρ with
  | nil => rfl
  | cons c cs ih =>
    rw [evalSources, List.map_cons, evalTrees]
    simp only [ih]

theorem bodiesOfSources_eq (cs : List (Cell × Tree)) :
    bodiesOfSources cs = bodiesOfTrees (cs.map Prod.snd) := by
  induction cs with
  | nil => rfl
  | cons c cs ih => rw [bodiesOfSources, List.map_cons, bodiesOfTrees, ih]

theorem eval_after (s : Effect) (e : Tree) (ρ : Store V) :
    (Tree.after s e).eval A ρ = s.exec A ρ >>= fun
      | (none, ρ) => e.eval A ρ
      | (some _, _) => .stop := rfl

/-- A conditional takes one of its branches. -/
theorem eval_cond (j : Lower.Join) (test yes no : Tree) (ρ : Store V) :
    (Lower.cond j test yes no).eval A ρ
      = (Tree.untag test).eval A ρ >>= fun (w, ρ) ↦ Lower.branches A j no yes w ρ := by
  have hyesNo : (Label.no j.id).render ≠ (Label.yes j.id).render :=
    Label.render_ne trivial trivial (by simp)
  have hyesAfter : (Label.yes j.id).render ≠ (Label.after j.id).render :=
    Label.render_ne trivial trivial (by simp)
  rw [Lower.cond, eval_after]
  simp only [Effect.exec, execEffects, Dialogue.bind_assoc]
  refine congrArg _ (funext ?_)
  rintro ⟨w, ρ⟩
  simp only [Lower.branches, Dialogue.ask_bind, Dialogue.pure_eq_done, Dialogue.done_bind]
  refine congrArg _ (funext fun _ ↦ ?_)
  cases A.isTrue w with
  | true =>
    simp only [↓reduceIte, resumeEffects, hyesNo, execEffects, Effect.exec, Dialogue.pure_eq_done,
      Dialogue.done_bind, bind_assoc]
    refine congrArg _ (funext fun p ↦ ?_)
    rw [← Lower.Join.choose]
    cases j.choose (p.2.set j.yes p.1) with
    | none => rfl
    | some v => simp [Tree.eval]
  | false =>
    simp only [Bool.false_eq_true, ↓reduceIte, resumeEffects, hyesAfter, execEffects, Effect.exec,
      Dialogue.pure_eq_done, bind_assoc, Dialogue.done_bind]
    refine congrArg _ (funext fun p ↦ ?_)
    rw [← Lower.Join.choose]
    cases j.choose (p.2.set j.no p.1) with
    | none => rfl
    | some v => simp [Tree.eval]

/-- What is said of the statements that a tree, or several, are flattened to. -/
def Flattened (m : Nat) (K : List Nat) (lo hi : Nat) : Grove → Prop
  | .tree e => ∀ n, m ≤ n → ∃ stmts s n' K', e.flatten.run n = ((stmts, s.rhs), n') ∧
      Stages A m K ⟨lo, hi, n, n'⟩ (single A e) e.bodies stmts [s] K'
  | .trees es => ∀ n, m ≤ n → ∃ stmts vs n' K', (flattenOperands es).run n = ((stmts, vs), n') ∧
      Stages A m K ⟨lo, hi, n, n'⟩ (evalTrees A es) (bodiesOfTrees es) stmts
        (vs.map Simple.value) K'

variable {A} {m lo mid hi n n' : Nat} {K K' : List Nat} {e : Tree} {stmts : List Stmt} {s : Simple}

/-- A tree leaves one word. -/
theorem single_only (e : Tree) :
    (fun ρ ↦ do
      let (ws, ρ) ← single A e ρ
      let w ← only ws
      return ([w], ρ)) = single A e := by
  funext ρ
  simp only [single, only, Dialogue.bind_assoc, Dialogue.pure_eq_done, Dialogue.done_bind]

/-- The operand of a tree keeps its word. -/
theorem staged_operand (he : e.flatten.run n = ((stmts, s.rhs), n'))
    (h : Stages A m K ⟨lo, hi, n, n'⟩ (single A e) e.bodies stmts [s] K')
    (hK : ∀ x ∈ K, x < lo) (hn : m ≤ n) :
    ∃ stmts' v n₁ K₁, (Flatten.operand e stmts s.rhs).run n' = ((stmts', v), n₁) ∧
      Stages A m K ⟨lo, hi, n, n₁⟩ (single A e) e.bodies stmts' [.value v] K₁ := by
  have hstage := h.stage hK hn s.rhs only
    (fun σ ↦ by rw [s.eval_rhs]; exact .done rfl)
    (fun B hB ↦ Simple.flows ((h.known s List.mem_cons_self).mono hB))
    (by rw [Simple.bodies_rhs]; exact .nil)
  rw [single_only, List.append_nil] at hstage
  by_cases hatom : (∃ c, e = .const c) ∨ ∃ t, e = .temp t
  · -- nothing is done for a tree that is an operand already
    rcases hatom with ⟨c, rfl⟩ | ⟨t, rfl⟩
    · cases s <;> cases he
      exact ⟨[], _, n, K', rfl, h⟩
    · cases s <;> cases he
      exact ⟨[], _, n, K', rfl, h⟩
  · refine ⟨_, _, _, _, ?_, hstage⟩
    cases e with
    | const c => exact absurd (.inl ⟨c, rfl⟩) hatom
    | temp t => exact absurd (.inr ⟨t, rfl⟩) hatom
    | _ => rfl

namespace Flattened

section

variable {g : Tag} {es : List Tree} {callee : Tree} {args : List Tree}

theorem const {c : Const} : Flattened A m K lo lo (.tree (.const c)) := fun n _ ↦
  ⟨[], .value (.const c), n, K, rfl, .atom trivial fun _ _ _ ↦ rfl⟩

theorem temp {t : Temp} (ht : t.id ∈ K) (hlt : t.id < m) :
    Flattened A m K lo lo (.tree (.temp t)) := by
  refine fun n _ ↦ ⟨[], .value (.temp t), n, K, rfl, .atom ht fun ρ ρ' hρ ↦ ?_⟩
  rw [Tree.eval, hρ.get hlt]
  rfl

/-- What is computed from one tree is computed from its operand. -/
theorem simple {e' : Tree} {f : Operand → Simple} {op : V → V} (h : Flattened A m K lo hi (.tree e))
    (hK : ∀ x ∈ K, x < lo)
    (hflatten : e'.flatten = do
      let (stmts, value) ← e.flatten
      let (stmts, v) ← Flatten.operand e stmts value
      return (stmts, (f v).rhs))
    (heval : ∀ ρ, e'.eval A ρ = do
      let (w, ρ) ← e.eval A ρ
      return (op w, ρ))
    (hbodies : e'.bodies = e.bodies) (hoperand : ∀ v, (f v).operand = v)
    (hword : ∀ v σ, (f v).word A σ = op (v.eval A σ)) :
    Flattened A m K lo hi (.tree e') := by
  intro n hn
  obtain ⟨stmts, s, n₁, K₁, he, hstages⟩ := h n hn
  obtain ⟨stmts', v, n₂, K₂, ho, hstages'⟩ := staged_operand he hstages hK hn
  refine ⟨stmts', f v, n₂, K₂, ?_, ?_⟩
  · rw [hflatten, Flatten.run_bind he, Flatten.run_bind ho]
    rfl
  · have hknown : (f v).operand.Known K₂ := by
      rw [hoperand]
      exact hstages'.known (.value v) List.mem_cons_self
    rw [hbodies]
    have hmap := hstages'.map [f v] (fun ws ↦ ws.map op) (List.forall_mem_singleton.mpr hknown)
      fun σ ↦ congrArg (fun w ↦ [w]) (hword v σ)
    refine hmap.of_eq fun ρ ↦ ?_
    simp [single, heval]

theorem tag (h : Flattened A m K lo hi (.tree e)) (hK : ∀ x ∈ K, x < lo) :
    Flattened A m K lo hi (.tree (.tag g e)) :=
  h.simple (f := .tag g) hK rfl (fun _ ↦ rfl) rfl (fun _ ↦ rfl) fun _ _ ↦ rfl

theorem untag (h : Flattened A m K lo hi (.tree e)) (hK : ∀ x ∈ K, x < lo) :
    Flattened A m K lo hi (.tree (.untag e)) :=
  h.simple (f := .untag) hK rfl (fun _ ↦ rfl) rfl (fun _ ↦ rfl) fun _ _ ↦ rfl

theorem nil : Flattened A m K lo lo (.trees []) := fun n _ ↦
  ⟨[], [], n, K, rfl, .nil (Nat.le_refl lo)⟩

/-- Operands are staged from left to right. -/
theorem cons (h : Flattened A m K lo mid (.tree e)) (hes : Flattened A m K mid hi (.trees es))
    (hK : ∀ x ∈ K, x < lo) (hm : hi ≤ m) : Flattened A m K lo hi (.trees (e :: es)) := by
  intro n hn
  obtain ⟨stmts, s, n₁, K₁, he, hstages⟩ := h n hn
  obtain ⟨stmts', v, n₂, K₂, ho, hstages'⟩ := staged_operand he hstages hK hn
  obtain ⟨rest, vs, n₃, K₃, hes, hrest⟩ := hes n₂ (Nat.le_trans hn hstages'.le)
  refine ⟨stmts' ++ rest, v :: vs, n₃, K₂ ++ K₃, ?_, ?_⟩
  · rw [flattenOperands, Flatten.run_bind he, Flatten.run_bind ho, Flatten.run_bind hes]
    rfl
  · have happend := hstages'.append hrest hstages'.subset hK hm hn (.inl ⟨rfl, rfl, rfl⟩)
    refine happend.of_eq fun ρ ↦ ?_
    simp [inTurn, single, evalTrees]

/-- The arguments of a call are staged before its callee, though that has the lower numbers. -/
theorem call (hcallee : Flattened A m K lo mid (.tree callee))
    (hargs : Flattened A m K mid hi (.trees args)) (hK : ∀ x ∈ K, x < lo)
    (hm : hi ≤ m) : Flattened A m K lo hi (.tree (.call callee args)) := by
  intro n hn
  obtain ⟨stmts₁, vs, n₁, K₁, hargs, hstages₁⟩ := hargs n hn
  have hn₁ : m ≤ n₁ := Nat.le_trans hn hstages₁.le
  obtain ⟨stmts, s, n₂, K₂, he, hstages⟩ := hcallee n₁ hn₁
  obtain ⟨stmts₂, v, n₃, K₃, ho, hstages₂⟩ := staged_operand he hstages hK hn₁
  have hboth := hstages₁.append hstages₂ hstages₁.subset hK hm hn (.inr ⟨rfl, rfl, rfl⟩)
  -- the last word is that of the callee
  have hstage := hboth.stage hK hn (.call v vs)
    (fun ws ↦ ws.getLast?.elim .stop fun f ↦ .ask (.call f ws.dropLast) .done)
    (fun σ ↦ by
      rw [List.map_append, List.map_map, List.map_singleton, List.getLast?_concat,
        List.dropLast_concat]
      exact .ask fun r ↦ .done rfl)
    (fun B hB ↦ .call ((hboth.known (.value v) (by simp)).mono hB) fun u hu ↦
      (hboth.known (.value u) (by simp [hu])).mono hB) .nil
  rw [List.append_nil] at hstage
  refine ⟨_, .value (.temp ⟨n₃, none⟩), n₃ + 1, _, ?_, hstage.of_eq fun ρ ↦ ?_⟩
  · rw [Tree.flatten, Flatten.run_bind hargs, Flatten.run_bind he, Flatten.run_bind ho]
    rfl
  · simp only [inTurn, single, Tree.eval, Dialogue.bind_assoc, Dialogue.pure_eq_done,
      Dialogue.done_bind, List.getLast?_concat]
    refine congrArg _ (funext fun p ↦ congrArg _ (funext fun q ↦ ?_))
    rw [List.dropLast_concat]
    rfl

/-- A function is made of the words that its captured variables have. Its body is flattened right
after them. -/
theorem func {head : FuncHead} {captures : List (Cell × Tree)} {body : Tree} {k : Nat}
    (hsources : Flattened A m K lo mid (.trees (captures.map Prod.snd)))
    (hinner : innerIds head captures = List.range' (mid + 1) k)
    (hmade : Made (innerIds head captures) (mid + 1 + k) hi (.tree body))
    (hbody : Flattened A m (innerIds head captures) (mid + 1 + k) hi (.tree body))
    (hK : ∀ x ∈ K, x < lo) (hm : hi ≤ m) :
    Flattened A m K lo hi (.tree (.tag .closure (.func head captures body))) := by
  intro n hn
  have hlt : ∀ x ∈ innerIds head captures, x < mid + 1 + k := by
    intro x hx
    rw [hinner] at hx
    exact (List.mem_range'_1.mp hx).2
  obtain ⟨stmts, vs, n₁, K₁, hvs, hstages⟩ := hsources n hn
  obtain ⟨cvs, hcvs, rfl, hcells⟩ := Flatten.run_captures hvs
  have hn₁ : m ≤ n₁ := Nat.le_trans hn hstages.le
  obtain ⟨inner, s, n₂, K₂, he, hstages'⟩ := hbody n₁ hn₁
  have hblock : IsBlockOf m body (.mk inner s.rhs) := by
    refine ⟨_, _, _, n₁, n₂, hmade, hlt, hm, hn₁, ?_⟩
    rw [Tree.block, Flatten.run_bind he]
    rfl
  have hids : innerIds head cvs = innerIds head captures := by
    have := congrArg (List.map (·.slot.id)) hcells
    simp only [List.map_map] at this
    exact congrArg (· ++ _) this
  have hflows : ∀ B, K₁ ⊆ B → Flows m n₁ B (.rhs (.func head cvs (.mk inner s.rhs))) n₂ B := by
    intro B hB
    obtain ⟨B', hsub, hinside, -⟩ := hstages'.flows (innerIds head captures)
      (List.Subset.refl _) fun x hx ↦ .inl (hlt x hx)
    refine .func (fun c hc ↦ ?_) (fun x hx ↦ ?_) hstages'.labels.nodup (hids ▸ hinside)
      (Simple.flows ((hstages'.known s List.mem_cons_self).mono hsub))
    · exact (hstages.known (.value c.2) (by simpa using ⟨_, hc⟩)).mono hB
    · have := hlt x (hids ▸ hx)
      have := hmade.le
      omega
  have hbodies : List.Forall₂ (IsBlockOf m) (body :: body.bodies)
      (Rhs.func head cvs (.mk inner s.rhs)).bodies := by
    simpa [Rhs.bodies, Block.bodies] using ⟨hblock, hstages'.bodies⟩
  have hstage := hstages.stage hK hn (.func head cvs (.mk inner s.rhs))
    (fun ws ↦ .ask (.closure head.label ws) fun _ ↦ .done (A.closure head.label ws))
    (fun σ ↦ by rw [List.map_map, List.map_map]; exact .ask fun _ ↦ .done rfl) hflows hbodies
  have hwide := hstage.widen hK hm hn (by have := hmade.le; omega)
  have hknown : (Operand.temp ⟨n₂, none⟩).Known _ := hwide.known _ List.mem_cons_self
  have hmap := hwide.map [.tag .closure (.temp ⟨n₂, none⟩)]
    (fun ws ↦ ws.map (A.tag .closure)) (List.forall_mem_singleton.mpr hknown) fun σ ↦ rfl
  refine ⟨stmts ++ [Stmt.move ⟨n₂, none⟩ (.func head cvs (.mk inner s.rhs))],
    .tag .closure (.temp ⟨n₂, none⟩), n₂ + 1, n₂ :: K₁ ++ K, ?_, ?_⟩
  · have hfunc : (Tree.func head captures body).flatten.run n
        = ((stmts, .func head cvs (.mk inner s.rhs)), n₂) := by
      rw [Tree.flatten, Flatten.run_bind hcvs, Flatten.run_bind he]
      rfl
    rw [Tree.flatten, Flatten.run_bind hfunc]
    rfl
  · have hbodies : (Tree.tag .closure (.func head captures body)).bodies
        = bodiesOfTrees (captures.map Prod.snd) ++ body :: body.bodies := by
      rw [Tree.bodies, Tree.bodies, bodiesOfSources_eq]
    rw [hbodies]
    refine hmap.of_eq fun ρ ↦ ?_
    simp [single, Tree.eval, evalSources_eq]

/-- The branches of a conditional are flattened in the order in which they stand, the one for a
false test first. -/
theorem cond {j : Lower.Join} {test yes no : Tree} {mid₁ mid₂ : Nat} (hj : j.DrawnFrom lo)
    (htest : Flattened A m K (lo + 4) mid₁ (.tree test))
    (hyes : Flattened A m K mid₁ mid₂ (.tree yes)) (hno : Flattened A m K mid₂ hi (.tree no))
    (hK : ∀ x ∈ K, x < lo) (hm : hi ≤ m) :
    Flattened A m K lo hi (.tree (Lower.cond j test yes no)) := by
  intro n hn
  have hKtest : ∀ x ∈ K, x < lo + 4 := fun x hx ↦ Nat.lt_add_right 4 (hK x hx)
  obtain ⟨stmts, s, n₁, K₁, he, hstages⟩ := htest.untag hKtest n hn
  obtain ⟨stmts₁, v, n₂, K₂, ho, hstages₁⟩ := staged_operand he hstages hKtest hn
  have hn₂ : m ≤ n₂ := Nat.le_trans hn hstages₁.le
  obtain ⟨stmts₂, s₂, n₃, K₃, he₂, hstages₂⟩ := hno n₂ hn₂
  obtain ⟨stmts₃, s₃, n₄, K₄, he₃, hstages₃⟩ := hyes n₃ (Nat.le_trans hn₂ hstages₂.le)
  have hdiamond := hstages₁.diamond hstages₂ hstages₃ hj hK hm hn
  have hbodies : (Lower.cond j test yes no).bodies
      = (Tree.untag test).bodies ++ (no.bodies ++ yes.bodies) := by
    simp [Lower.cond, Tree.bodies, Effect.bodies, bodiesOfEffects]
  refine ⟨stmts₁ ++ diamond j v stmts₂ s₂.rhs stmts₃ s₃.rhs, .value (.temp j.result), n₄,
    j.result.id :: K₂, ?_, ?_⟩
  · exact Flatten.run_cond he ho he₂ he₃
  · rw [hbodies]
    refine hdiamond.of_eq fun ρ ↦ ?_
    simp only [eval_cond, single, only, Dialogue.bind_assoc, Dialogue.pure_eq_done,
      Dialogue.done_bind]

theorem body (h : Flattened A m K lo hi (.tree e)) :
    Flattened A m K lo hi (.tree (.after (.seq []) e)) := by
  intro n hn
  obtain ⟨stmts, s, n₁, K₁, he, hstages⟩ := h n hn
  refine ⟨stmts, s, n₁, K₁, ?_, hstages.of_eq fun ρ ↦ rfl⟩
  have hnil : (Effect.seq []).flatten.run n = ([], n) := rfl
  rw [Tree.flatten, Flatten.run_bind hnil, Flatten.run_bind he]
  rfl

/-- A step that does not jump is taken before what stands behind it. -/
theorem next {K₁ K₂ : List Nat} {n₁ : Nat} {first : Effect} {ss : List Effect} {last : Tree}
    {d : Store V → Run V (Store V)} (hfirst : first.flatten.run n = (stmts, n₁))
    (hstages : Stages A m K ⟨lo, mid, n, n₁⟩ (fun ρ ↦ d ρ >>= fun ρ ↦ .done ([], ρ)) first.bodies
      stmts [] K₁)
    (hexec : ∀ ρ, first.exec A ρ = d ρ >>= fun ρ ↦ .done (none, ρ))
    (hrest : Flattened A m K₂ mid hi (.tree (.after (.seq ss) last))) (hsub : K₂ ⊆ K₁)
    (hK : ∀ x ∈ K, x < lo) (hm : hi ≤ m) (hn : m ≤ n) :
    ∃ stmts s n' K', (Tree.after (.seq (first :: ss)) last).flatten.run n = ((stmts, s.rhs), n') ∧
      Stages A m K ⟨lo, hi, n, n'⟩ (single A (.after (.seq (first :: ss)) last))
        (Tree.after (.seq (first :: ss)) last).bodies stmts [s] K' := by
  obtain ⟨rest, s, n₂, K', hr, hstages'⟩ := hrest n₁ (Nat.le_trans hn hstages.le)
  have happend := hstages.append hstages' hsub hK hm hn (.inl ⟨rfl, rfl, rfl⟩)
  refine ⟨stmts ++ rest, s, n₂, K₁ ++ K', Flatten.run_after_cons hfirst hr, ?_⟩
  have hbodies : (Tree.after (.seq (first :: ss)) last).bodies
      = first.bodies ++ (Tree.after (.seq ss) last).bodies := by
    simp only [Tree.bodies, Effect.bodies, bodiesOfEffects, List.append_assoc]
  rw [hbodies]
  refine happend.of_eq fun ρ ↦ ?_
  simp only [inTurn, single, eval_after, Effect.exec, execEffects, hexec, Dialogue.bind_assoc,
    Dialogue.pure_eq_done, Dialogue.done_bind, List.nil_append]

/-- What stands behind a binding may read its variable. -/
theorem bind {t : Temp} {value last : Tree} {ss : List Effect}
    (hvalue : Flattened A m K lo t.id (.tree value)) (ht : t.isSynthetic = false)
    (hrest : Flattened A m (t.id :: K) (t.id + 1) hi (.tree (.after (.seq ss) last)))
    (hlt : t.id < hi) (hK : ∀ x ∈ K, x < lo) (hm : hi ≤ m) :
    Flattened A m K lo hi (.tree (.after (.seq (.move t value :: ss)) last)) := by
  intro n hn
  obtain ⟨stmts, s, n₁, K₁, he, hstages⟩ := hvalue n hn
  have hmove : (Effect.move t value).flatten.run n = (stmts ++ [Stmt.move t s.rhs], n₁) := by
    rw [Effect.flatten, Flatten.run_bind he]
    rfl
  have hstore := hstages.store hK ht (Nat.lt_of_lt_of_le hlt hm) hn
  refine next (d := fun ρ ↦ do
    let (w, ρ) ← value.eval A ρ
    return ρ.set t w) hmove (hstore.of_eq fun ρ ↦ ?_) (fun ρ ↦ ?_) hrest
    (List.cons_subset_cons _ hstages.subset) hK hm hn
  · simp
  · simp [Effect.exec]

/-- Of a step, only the statements are left. -/
theorem step {last : Tree} {ss : List Effect} (he : Flattened A m K lo mid (.tree e))
    (hrest : Flattened A m K mid hi (.tree (.after (.seq ss) last)))
    (hK : ∀ x ∈ K, x < lo) (hm : hi ≤ m) :
    Flattened A m K lo hi (.tree (.after (.seq (.eval e :: ss)) last)) := by
  intro n hn
  obtain ⟨stmts, s, n₁, K₁, he, hstages⟩ := he n hn
  have heval : (Effect.eval e).flatten.run n = (stmts, n₁) := by
    rw [Effect.flatten, Flatten.run_bind he]
    rfl
  have hdrop := hstages.map [] (fun _ ↦ []) (List.forall_mem_nil _) fun _ ↦ rfl
  refine next (d := fun ρ ↦ do
    let (_, ρ) ← e.eval A ρ
    return ρ) heval (hdrop.of_eq fun ρ ↦ ?_) (fun ρ ↦ ?_) hrest hstages.subset hK hm hn
  · simp [single]
  · simp [Effect.exec]

/-- The word of a variable is the one it was just assigned. -/
theorem name {t : Temp} {value : Tree} (hvalue : Flattened A m K lo t.id (.tree value))
    (ht : t.isSynthetic = false) (hK : ∀ x ∈ K, x < lo) (hm : t.id < m) :
    Flattened A m K lo (t.id + 1) (.tree (.after (.move t value) (.temp t))) := by
  intro n hn
  obtain ⟨stmts, s, n₁, K₁, he, hstages⟩ := hvalue n hn
  have hstore := hstages.store hK ht hm hn
  have hatom : Stages A m (t.id :: K₁) ⟨t.id + 1, t.id + 1, n₁, n₁⟩ (single A (.temp t)) [] []
      [.value (.temp t)] (t.id :: K₁) := by
    refine .atom List.mem_cons_self fun ρ ρ' hρ ↦ ?_
    rw [Tree.eval, hρ.get hm]
    rfl
  have happend := hstore.append hatom (List.Subset.refl _) hK hm hn (.inl ⟨rfl, rfl, rfl⟩)
  refine ⟨stmts ++ [Stmt.move t s.rhs] ++ [], .value (.temp t), n₁, t.id :: K₁ ++ (t.id :: K₁),
    ?_, ?_⟩
  · have hmove : (Effect.move t value).flatten.run n = (stmts ++ [Stmt.move t s.rhs], n₁) := by
      rw [Effect.flatten, Flatten.run_bind he]
      rfl
    have htemp : (Tree.temp t).flatten.run n₁ = (([], .value (.temp t)), n₁) := rfl
    rw [Tree.flatten, Flatten.run_bind hmove, Flatten.run_bind htemp]
    rfl
  · refine happend.of_eq fun ρ ↦ ?_
    simp only [inTurn, single, Effect.exec, Tree.eval, Store.get_set_self,
      Dialogue.bind_assoc, Dialogue.pure_eq_done, Dialogue.done_bind, List.nil_append]

end

end Flattened

/-- Every lowered tree is flattened to statements that do the same. -/
theorem Made.flattened {g : Grove} (h : Made K lo hi g) (hK : ∀ x ∈ K, x < lo) (hm : hi ≤ m) :
    Flattened A m K lo hi g := by
  induction h with
  | const => exact .const
  | temp ht => exact .temp ht (Nat.lt_of_lt_of_le (hK _ ht) hm)
  | tag _ ih => exact (ih hK hm).tag hK
  | untag _ ih => exact (ih hK hm).untag hK
  | call hcallee hargs ihcallee ihargs =>
    have hlo := hcallee.le
    have hhi := hargs.le
    exact .call (ihcallee hK (by omega)) (ihargs (fun x hx ↦ by have := hK x hx; omega) hm) hK hm
  | func hsources hinner hbody ihsources ihbody =>
    have hhi := hbody.le
    refine .func (ihsources hK (by omega)) hinner hbody (ihbody (fun x hx ↦ ?_) hm) hK hm
    rw [hinner] at hx
    exact (List.mem_range'_1.mp hx).2
  | cond hj htest hyes hno ihtest ihyes ihno =>
    have hlo := htest.le
    have hmid := hyes.le
    have hhi := hno.le
    exact .cond hj (ihtest (fun x hx ↦ by have := hK x hx; omega) (by omega))
      (ihyes (fun x hx ↦ by have := hK x hx; omega) (by omega))
      (ihno (fun x hx ↦ by have := hK x hx; omega) hm) hK hm
  | body _ ih => exact (ih hK hm).body
  | bind hvalue ht hrest ihvalue ihrest =>
    have hlo := hvalue.le
    have hhi := hrest.le
    refine .bind (ihvalue hK (by omega)) ht (ihrest ?_ hm) (by omega) hK hm
    exact List.forall_mem_cons.mpr ⟨Nat.lt_succ_self _, fun x hx ↦ by have := hK x hx; omega⟩
  | step he hrest ihe ihrest =>
    have hlo := he.le
    have hhi := hrest.le
    exact .step (ihe hK (by omega)) (ihrest (fun x hx ↦ by have := hK x hx; omega) hm) hK hm
  | name hvalue ht ih =>
    have hlo := hvalue.le
    exact .name (ih hK (by omega)) ht hK (by omega)
  | nil => exact .nil
  | cons he hes ihe ihes =>
    have hlo := he.le
    have hhi := hes.le
    exact .cons (ihe hK (by omega)) (ihes (fun x hx ↦ by have := hK x hx; omega) hm) hK hm

end

/-! ## Programs -/

/-- Words that cannot be told apart. -/
def Algebra.unit : Algebra Unit where
  const _ := ()
  tag _ _ := ()
  untag _ := ()
  isTrue _ := true
  closure _ _ := ()

theorem Tree.run_block {e : Tree} {n n' : Nat} {stmts : List Stmt} {value : Rhs}
    (h : e.flatten.run n = ((stmts, value), n')) : e.block.run n = (.mk stmts value, n') := by
  rw [Tree.block, Flatten.run_bind h]
  rfl

/-- However the words of a tree and a block are initialized, the block asks what the tree asks and
ends with the same word, as soon as it may take more steps than it has statements. Both end. -/
def Tree.DoneBy (e : Tree) (b : Block) : Prop :=
  ∀ {V : Type} (A : Algebra V) (initial : Nat → V) (steps : Nat), b.stmts.length < steps →
    (e.run A initial).Total ∧ b.run A steps initial = e.run A initial

namespace IsBlockOf

variable {V : Type} {m : Nat} {e : Tree} {b : Block}

theorem stages (h : IsBlockOf m e b) (A : Algebra V) :
    ∃ stmts s K r K', b = .mk stmts s.rhs ∧ (∀ x ∈ K, x < r.lo) ∧
      Stages A m K r (single A e) e.bodies stmts [s] K' := by
  obtain ⟨K, lo, hi, n, n', hmade, hK, hm, hn, hb⟩ := h
  obtain ⟨stmts, s, n₁, K', he, hstages⟩ := hmade.flattened hK hm n hn
  rw [Tree.run_block he] at hb
  exact ⟨stmts, s, K, ⟨lo, hi, n, n₁⟩, K', (Prod.mk.inj hb).1.symm, hK, hstages⟩

theorem doneBy (h : IsBlockOf m e b) : e.DoneBy b := by
  intro V A initial steps hsteps
  obtain ⟨stmts, s, K, r, K', rfl, hK, hstages⟩ := h.stages A
  have hrun : e.run A initial = single A e (.start initial) >>= fun p ↦ only p.1 := by
    rw [Tree.run, single, Dialogue.bind_assoc]
    rfl
  have hrel : Dialogue.Rel False (· = ·) (e.run A initial)
      ((Block.mk stmts s.rhs).run A steps initial) := by
    rw [Block.run_eq (hstages.forward hK) hstages.labels.nodup hsteps, hrun]
    refine (hstages.runs _ _ ⟨rfl, fun _ _ ↦ rfl⟩ fun _ _ _ ↦ rfl).bind ?_
    rintro ⟨ws, ρ⟩ σ ⟨rfl, -, -, -⟩
    rw [s.eval_rhs]
    exact .done rfl
  have heq := hrel.eq
  rw [← heq] at hrel ⊢
  exact ⟨hrel, rfl⟩

theorem bodies (h : IsBlockOf m e b) : List.Forall₂ (IsBlockOf m) e.bodies b.bodies := by
  obtain ⟨stmts, s, K, r, K', rfl, -, hstages⟩ := h.stages Algebra.unit
  simpa [Block.bodies] using hstages.bodies

end IsBlockOf

theorem Made.isBlockOf {m k k' : Nat} {K : List Nat} {lo hi : Nat} {es : List Tree}
    {bs : List Block} (h : Made K lo hi (.trees es)) (hK : ∀ x ∈ K, x < lo) (hm : hi ≤ m)
    (hk : m ≤ k) (hblocks : (blocks es).run k = (bs, k')) :
    List.Forall₂ (IsBlockOf m) es bs := by
  induction es generalizing lo k bs with
  | nil =>
    cases hblocks
    exact .nil
  | cons e es ih =>
    cases h with
    | cons he hes =>
      have hlo := he.le
      have hhi := hes.le
      obtain ⟨stmts, s, k₁, K', hflat, hstages⟩ :=
        he.flattened (A := Algebra.unit) hK (by omega) k hk
      generalize hbs : (blocks es).run k₁ = p
      obtain ⟨bs', k₂⟩ := p
      have hb := Tree.run_block hflat
      rw [blocks, Flatten.run_bind hb, Flatten.run_bind hbs] at hblocks
      cases hblocks
      exact .cons ⟨K, lo, _, k, k₁, he, hK, by omega, hk, hb⟩
        (ih hes (fun x hx ↦ by have := hK x hx; omega) (Nat.le_trans hk hstages.le) hbs)

/-- Flattening a program, and every function in it, keeps what it does. -/
theorem flatten_keeps {es : List Expr} {trees : List Tree} {l : Lowerer} {bs : List Block}
    {n k k' : Nat} (hlower : (lowerAll es).outcome (.start n) = (.ok trees, l)) (hk : l.next ≤ k)
    (hblocks : (blocks trees).run k = (bs, k')) :
    List.Forall₂ (fun e b ↦ List.Forall₂ Tree.DoneBy (e :: e.bodies) (b :: b.bodies)) trees bs := by
  obtain ⟨hmade, -⟩ := lowerAll_made (fun e _ ↦ e.lowersMade) (Lowerer.sees_start n) hlower
  exact (hmade.isBlockOf (List.forall_mem_nil _) (Nat.le_refl _) hk hblocks).imp fun e b h ↦
    .cons h.doneBy (h.bodies.imp fun _ _ h ↦ h.doneBy)

/-- The expression `(let [x true] (print (if (not x) x (print)) (fn [y] x)))`. -/
def nestedExpr : Expr :=
  .letIn [("x", .literal (.boolean true) default)]
    (.call (.symbol "print" default)
      [ .cond (.call (.symbol "not" default) [.symbol "x" default] none default)
          (.symbol "x" default) (.call (.symbol "print" default) [] none default) default,
        .fn ⟨none, ["y"], none, false⟩ (.symbol "x" default) { (default : Note) with
          captures := ["x"] } ]
      none default)
    default

/-- There are jumps and a function among the arguments of a call. -/
theorem nestedExpr_keeps : ∃ trees l bs k,
    (lowerAll [nestedExpr]).outcome (.start 0) = (.ok trees, l) ∧
    (blocks trees).run l.next = (bs, k) ∧
    List.Forall₂ (fun e b ↦ List.Forall₂ Tree.DoneBy (e :: e.bodies) (b :: b.bodies)) trees bs := by
  obtain ⟨trees, l, hlower⟩ :
      ∃ trees l, (lowerAll [nestedExpr]).outcome (.start 0) = (.ok trees, l) := ⟨_, _, rfl⟩
  exact ⟨trees, l, _, _, hlower, rfl, flatten_keeps hlower (Nat.le_refl _) rfl⟩

end TaggedLisp.Ir
