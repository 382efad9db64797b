import TaggedLisp.Proofs.Ir.Propagation

/-!
# Single assignment along control paths

No temporary of a program is introduced twice, with and without copies. On every path that control
can take through a block, what is read has its word: it was assigned on this path, or it had it when
the block was entered. Where branches meet, the path has assigned exactly one of the temporaries
that are chosen from, the one that belongs to the label that it came by.

A path is a path of the statement counter (`Reaches`), with both ways of every branch. What holds on
all paths is proved by going along the statements as they stand: `Along` says what has to hold in
front of each statement, and a jump only skips statements, because it goes forward.
-/

namespace TaggedLisp.Ir

/-! ## Paths -/

/-- The temporary that an operand reads, if it reads one. -/
def Operand.reads : Operand → List Nat
  | const _ => []
  | temp t => [t.id]

/-- The temporaries that a computation reads. -/
def Rhs.reads : Rhs → List Nat
  | value v | tag _ v | untag v => v.reads
  | call callee args => callee.reads ++ args.flatMap Operand.reads
  | func _ captures _ => captures.flatMap fun (_, v) ↦ v.reads

/-- The temporaries that a statement reads on each path. A choice reads one of its own. -/
def Stmt.reads : Stmt → List Nat
  | move _ source => source.reads
  | branch cond _ => cond.reads
  | jump _ | phi _ _ | label _ => []

/-- Whether control may go on to the next statement. -/
def Stmt.Falls : Stmt → Prop
  | jump _ => False
  | move _ _ | branch _ _ | phi _ _ | label _ => True

/-- Control can pass the statements `trace`, one after another, and then comes to the place `pc`. -/
inductive Reaches (stmts : List Stmt) : (trace : List Stmt) → (pc : Nat) → Prop where
  | start : Reaches stmts [] 0
  | next {trace pc s} (h : Reaches stmts trace pc) (hs : stmts[pc]? = some s) (hfalls : s.Falls) :
      Reaches stmts (trace ++ [s]) (pc + 1)
  | jump {trace pc s l pc'} (h : Reaches stmts trace pc) (hs : stmts[pc]? = some s)
      (hl : s.target = some l) (hpc' : place stmts l = some pc') :
      Reaches stmts (trace ++ [s]) pc'

/-- The temporary has its word: from the start, or it was assigned on the path. -/
def Has (known : List Nat) (trace : List Stmt) (x : Nat) : Prop := x ∈ known ∨ x ∈ dests trace

/-- Exactly one of the temporaries that are chosen from was assigned on the path. It is the one
whose label was passed, and the labels of the others were not. -/
def Chosen (trace : List Stmt) (sources : List (String × Temp)) : Prop :=
  ∃ p ∈ sources, ∀ q ∈ sources,
    (q.2.id ∈ dests trace ↔ q = p) ∧ (.label q.1 ∈ trace ↔ q = p)

/-- On every path through the block, what is read has its word, and each choice finds exactly one
temporary with a word. -/
structure Entry.Closed (e : Entry) : Prop where
  reads : ∀ {trace pc s}, Reaches e.block.stmts trace pc → e.block.stmts[pc]? = some s →
    ∀ x ∈ s.reads, Has e.known trace x
  value : ∀ {trace pc}, Reaches e.block.stmts trace pc → e.block.stmts[pc]? = none →
    ∀ x ∈ e.block.value.reads, Has e.known trace x
  choice : ∀ {trace pc t sources}, Reaches e.block.stmts trace pc →
    e.block.stmts[pc]? = some (.phi t sources) → Chosen trace sources

/-! ## Along statements -/

section

variable (ok : List Stmt → Stmt → Prop) (done : List Stmt → Prop)

mutual

/-- On each way through the statements that starts behind `trace`, `ok` holds at every statement and
`done` at the end. -/
def Along : List Stmt → (trace : List Stmt) → Prop
  | [], trace => done trace
  | s :: ss, trace => ok trace s ∧ (s.Falls → Along ss (trace ++ [s])) ∧
      ∀ l, s.target = some l → AlongFrom l ss (trace ++ [s])

/-- The same for the ways that start at the first place of a label, which there has to be. -/
def AlongFrom (l : String) : List Stmt → (trace : List Stmt) → Prop
  | [], _ => False
  | .label m :: ss, trace =>
    if m = l then ok trace (.label m) ∧ Along ss (trace ++ [.label m]) else AlongFrom l ss trace
  | _ :: ss, trace => AlongFrom l ss trace

end

variable {ok done} {done' : List Stmt → Prop} {c c' : List Stmt} {trace : List Stmt} {l : String}
  {s : Stmt}

theorem along_label (hok : ok trace (.label l)) (h : Along ok done c (trace ++ [.label l])) :
    Along ok done (.label l :: c) trace := by
  rw [Along]
  exact ⟨hok, fun _ ↦ h, by simp [Stmt.target]⟩

theorem along_move {t : Temp} {source : Rhs} (hok : ok trace (.move t source))
    (h : Along ok done c (trace ++ [.move t source])) :
    Along ok done (.move t source :: c) trace := by
  rw [Along]
  exact ⟨hok, fun _ ↦ h, by simp [Stmt.target]⟩

theorem alongFrom_label (hok : ok trace (.label l)) (h : Along ok done c (trace ++ [.label l])) :
    AlongFrom ok done l (.label l :: c) trace := by
  rw [AlongFrom, if_pos rfl]
  exact ⟨hok, h⟩

/-- A jump skips statements that do not have its label. -/
theorem alongFrom_append (h : l ∉ stmtLabels c) (h' : AlongFrom ok done l c' trace) :
    AlongFrom ok done l (c ++ c') trace := by
  induction c with
  | nil => exact h'
  | cons s ss ih =>
    rw [← List.singleton_append, stmtLabels_append, List.mem_append, not_or] at h
    have hss := ih h.2
    cases s with
    | label m =>
      have hm : m ≠ l := fun heq ↦ h.1 (mem_stmtLabels.mpr (heq ▸ List.mem_cons_self))
      rw [List.cons_append, AlongFrom, if_neg hm]
      exact hss
    | move _ _ => exact hss
    | jump _ => exact hss
    | branch _ _ => exact hss
    | phi _ _ => exact hss

/-- Ways through statements lead on through those behind them. -/
theorem Along.append (h : Along ok done c trace)
    (hdone : ∀ trace, done trace → Along ok done' c' trace) : Along ok done' (c ++ c') trace := by
  suffices (∀ trace, Along ok done c trace → Along ok done' (c ++ c') trace) ∧
    ∀ l trace, AlongFrom ok done l c trace → AlongFrom ok done' l (c ++ c') trace from this.1 _ h
  clear h
  induction c with
  | nil => exact ⟨fun trace h ↦ hdone trace h, fun l trace h ↦ h.elim⟩
  | cons s ss ih =>
    constructor
    · intro trace h
      rw [Along] at h
      rw [List.cons_append, Along]
      exact ⟨h.1, fun hfalls ↦ ih.1 _ (h.2.1 hfalls), fun l hl ↦ ih.2 l _ (h.2.2 l hl)⟩
    · intro l trace h
      cases s with
      | label m =>
        rw [AlongFrom] at h
        rw [List.cons_append, AlongFrom]
        split at h
        · rename_i hm
          rw [if_pos hm]
          exact ⟨h.1, ih.1 _ h.2⟩
        · rename_i hm
          rw [if_neg hm]
          exact ih.2 l _ h
      | move _ _ => exact ih.2 l _ h
      | jump _ => exact ih.2 l _ h
      | branch _ _ => exact ih.2 l _ h
      | phi _ _ => exact ih.2 l _ h

theorem Along.mono (h : Along ok done c trace) (hdone : ∀ trace, done trace → done' trace) :
    Along ok done' c trace := by
  have happend : Along ok done' (c ++ []) trace := h.append hdone
  rwa [List.append_nil] at happend

theorem AlongFrom.split (h : AlongFrom ok done l c trace) :
    ∃ before after, c = before ++ .label l :: after ∧ Along ok done (.label l :: after) trace := by
  induction c with
  | nil => exact h.elim
  | cons s ss ih =>
    have hskip : AlongFrom ok done l ss trace → ∃ before after,
        s :: ss = before ++ .label l :: after ∧ Along ok done (.label l :: after) trace := by
      intro h
      obtain ⟨before, after, rfl, hafter⟩ := ih h
      exact ⟨s :: before, after, rfl, hafter⟩
    cases s with
    | label m =>
      rw [AlongFrom] at h
      split at h
      · rename_i hm
        subst hm
        exact ⟨[], ss, rfl, along_label h.1 h.2⟩
      · exact hskip h
    | move _ _ => exact hskip h
    | jump _ => exact hskip h
    | branch _ _ => exact hskip h
    | phi _ _ => exact hskip h

/-- What holds along the statements holds on every path of the counter. -/
theorem Reaches.along {stmts : List Stmt} {pc : Nat} (h : Reaches stmts trace pc)
    (hnodup : (stmtLabels stmts).Nodup) (hstmts : Along ok done stmts []) :
    Along ok done (stmts.drop pc) trace := by
  induction h with
  | start => exact hstmts
  | @next trace pc s _ hs hfalls ih =>
    obtain ⟨hlt, rfl⟩ := List.getElem?_eq_some_iff.mp hs
    rw [List.drop_eq_getElem_cons hlt, Along] at ih
    exact ih.2.1 hfalls
  | @jump trace pc s l pc' _ hs hl hpc' ih =>
    obtain ⟨hlt, rfl⟩ := List.getElem?_eq_some_iff.mp hs
    rw [List.drop_eq_getElem_cons hlt, Along] at ih
    obtain ⟨before, after, hsplit, hafter⟩ := (ih.2.2 l hl).split
    -- a label stands once, so this is the place that the counter goes to
    have hwhole : stmts = (stmts.take (pc + 1) ++ before) ++ .label l :: after := by
      rw [List.append_assoc, ← hsplit, List.take_append_drop]
    have hplace := place_eq (hwhole ▸ hnodup)
    rw [← hwhole, hpc'] at hplace
    have hdrop : stmts.drop pc' = .label l :: after := by
      rw [Option.some.inj hplace]
      exact (congrArg _ hwhole).trans List.drop_left
    rw [hdrop]
    exact hafter

end

/-! ## Shapes of statements along paths -/

section

variable {known B B' : List Nat} {trace trace' c c' u : List Stmt} {m n n' x : Nat} {l : String}
  {source : Rhs} {p : Part}

/-- What a statement reads on a path has its word there. -/
def Stmt.Ready (known : List Nat) (trace : List Stmt) : Stmt → Prop
  | phi _ sources => Chosen trace sources
  | move _ source => ∀ x ∈ source.reads, Has known trace x
  | branch cond _ => ∀ x ∈ cond.reads, Has known trace x
  | jump _ | label _ => True

theorem Stmt.Ready.has {s : Stmt} (h : s.Ready known trace) : ∀ x ∈ s.reads, Has known trace x := by
  cases s with
  | move _ _ | branch _ _ => exact h
  | jump _ | phi _ _ | label _ => exact List.forall_mem_nil _

theorem Has.mono (h : Has known trace x) (u : List Stmt) : Has known (trace ++ u) x := by
  rw [Has, dests_append]
  exact h.imp_right (List.mem_append_left _)

theorem Operand.Known.reads {v : Operand} (h : v.Known B) : ∀ x ∈ v.reads, x ∈ B := by
  cases v with
  | const k => simp [Operand.reads]
  | temp t => exact List.forall_mem_singleton.mpr h

theorem Flows.reads (h : Flows m n B (.rhs source) n' B') : ∀ x ∈ source.reads, x ∈ B := by
  cases h with
  | value hv | tag hv | untag hv => exact hv.reads
  | call hcallee hargs =>
    intro x hx
    rcases List.mem_append.mp hx with hx | hx
    · exact hcallee.reads x hx
    · obtain ⟨v, hv, hx⟩ := List.mem_flatMap.mp hx
      exact (hargs v hv).reads x hx
  | func hcaptures _ _ _ _ =>
    intro x hx
    obtain ⟨q, hq, hx⟩ := List.mem_flatMap.mp hx
    exact (hcaptures q hq).reads x hx

/-- A choice between two temporaries, of which a path has assigned the first one. -/
theorem Chosen.first {p q : String × Temp} (hp : p.2.id ∈ dests trace) (hpl : .label p.1 ∈ trace)
    (hq : q.2.id ∉ dests trace) (hql : .label q.1 ∉ trace) : Chosen trace [p, q] := by
  have hne : q ≠ p := fun heq ↦ hq (heq ▸ hp)
  refine ⟨p, List.mem_cons_self, List.forall_mem_cons.mpr ⟨?_, List.forall_mem_singleton.mpr ?_⟩⟩
  · exact ⟨iff_of_true hp rfl, iff_of_true hpl rfl⟩
  · exact ⟨iff_of_false hq hne, iff_of_false hql hne⟩

theorem Chosen.swap {p q : String × Temp} (h : Chosen trace [q, p]) : Chosen trace [p, q] := by
  obtain ⟨r, hr, hall⟩ := h
  have hmem : ∀ {r}, r ∈ [p, q] ↔ r ∈ [q, p] := (List.Perm.swap _ _ _).mem_iff
  exact ⟨r, hmem.mpr hr, fun r hr ↦ hall r (hmem.mp hr)⟩

/-! ### Statements that stand once -/

/-- No temporary is assigned by two of the statements, and no label stands twice. -/
structure Once (stmts : List Stmt) : Prop where
  dests : (dests stmts).Nodup
  labels : (stmtLabels stmts).Nodup

namespace Once

theorem sublist (h : Once c') (hc : c.Sublist c') : Once c where
  dests := h.dests.sublist (hc.filterMap _)
  labels := h.labels.sublist (hc.filterMap _)

/-- The label does not stand among other statements. -/
theorem label_notMem (h : Once (c ++ .label l :: c')) (hu : u.Sublist (c ++ c')) :
    .label l ∉ u := by
  have hlabels := h.labels
  rw [stmtLabels_append] at hlabels
  have hnotMem : l ∉ stmtLabels c ++ stmtLabels c' :=
    (List.nodup_cons.mp (List.nodup_middle.mp hlabels)).1
  rw [← stmtLabels_append, mem_stmtLabels] at hnotMem
  exact fun hmem ↦ hnotMem (hu.subset hmem)

/-- Other statements do not assign what a statement assigns. -/
theorem dest_notMem {s : Stmt} (h : Once (c ++ s :: c')) (hs : s.dest = some x)
    (hu : u.Sublist (c ++ c')) : x ∉ Ir.dests u := by
  have hdests := h.dests
  rw [dests_append, Ir.dests, Ir.dests, List.filterMap_cons_some hs] at hdests
  have hnotMem : x ∉ Ir.dests (c ++ c') := by
    rw [dests_append]
    exact (List.nodup_cons.mp (List.nodup_middle.mp hdests)).1
  exact fun hmem ↦ hnotMem ((hu.filterMap _).subset hmem)

end Once

/-- Some of the statements `c` were passed behind `trace`, and what is in `B` has its word. -/
structure Behind (known : List Nat) (trace c : List Stmt) (B : List Nat) (trace' : List Stmt) :
    Prop where
  has : ∀ x ∈ B, Has known trace' x
  passed : ∃ u, u.Sublist c ∧ trace' = trace ++ u

theorem Behind.after (h : Behind known (trace ++ u) c' B trace') (hu : u.Sublist c) :
    Behind known trace (c ++ c') B trace' := by
  obtain ⟨hhas, u', hu', rfl⟩ := h
  exact ⟨hhas, u ++ u', hu.append hu', List.append_assoc ..⟩

/-! ### Conditionals -/

section

variable {B₁ B₂ : List Nat} {j : Lower.Join} {v : Operand} {no yes : List Stmt}
  {noValue yesValue : Rhs}

/-- The choice where the branches of a conditional meet. -/
def meet (j : Lower.Join) : Stmt :=
  .phi j.result [((Label.yes j.id).render, j.yes), ((Label.no j.id).render, j.no)]

/-- The statements of a conditional from the label of its second branch on. -/
def diamondEnd (j : Lower.Join) (yes : List Stmt) (yesValue : Rhs) : List Stmt :=
  .label (Label.yes j.id).render ::
    (yes ++ [Stmt.move j.yes yesValue, .label (Label.after j.id).render, meet j])

private theorem sublist_no (v : Operand) (noValue : Rhs) (hu : u.Sublist no)
    (hrest : c.Sublist (diamondEnd j yes yesValue)) :
    (Stmt.branch v (Label.yes j.id).render :: Stmt.label (Label.no j.id).render ::
      (u ++ Stmt.move j.no noValue :: Stmt.jump (Label.after j.id).render :: c)).Sublist
      (diamond j v no noValue yes yesValue) :=
  .cons_cons _ (.cons_cons _ (hu.append (.cons_cons _ (.cons_cons _ hrest))))

private theorem sublist_yes (v : Operand) (noValue : Rhs) (no : List Stmt)
    (hrest : c.Sublist (diamondEnd j yes yesValue)) :
    (Stmt.branch v (Label.yes j.id).render :: Stmt.label (Label.no j.id).render ::
      .move j.no noValue :: c).Sublist (diamond j v no noValue yes yesValue) :=
  .cons_cons _ (.cons_cons _ (List.sublist_append_of_sublist_right (.cons_cons _ (.cons _ hrest))))

/-- Behind the choice, its result has a word too. -/
private theorem along_meet
    (hchosen : Chosen (trace ++ u)
      [((Label.yes j.id).render, j.yes), ((Label.no j.id).render, j.no)])
    (hB : ∀ x ∈ B, Has known trace x) (hu : (u ++ [meet j]).Sublist c) :
    Along (Stmt.Ready known) (Behind known trace c (j.result.id :: B)) [meet j] (trace ++ u) := by
  rw [Along]
  refine ⟨hchosen, fun _ ↦ ⟨List.forall_mem_cons.mpr ⟨.inr ?_, fun x hx ↦ ?_⟩, _, hu, ?_⟩, by
    simp [meet, Stmt.target]⟩
  · rw [dests_append]
    exact List.mem_append_right _ List.mem_cons_self
  · exact ((hB x hx).mono u).mono _
  · rw [List.append_assoc]

/-- The branch that is passed leads through its statements to the choice. -/
private theorem along_no (hB : ∀ x ∈ B, Has known trace x)
    (hno : ∀ {trace}, (∀ x ∈ B, Has known trace x) → Once (trace ++ no) →
      Along (Stmt.Ready known) (Behind known trace no B₁) no trace)
    (hnoValue : ∀ x ∈ noValue.reads, x ∈ B₁)
    (hyesLabels : (Label.after j.id).render ∉ stmtLabels yes)
    (honce : Once (trace ++ diamond j v no noValue yes yesValue)) :
    Along (Stmt.Ready known)
      (Behind known trace (diamond j v no noValue yes yesValue) (j.result.id :: B))
      (Stmt.label (Label.no j.id).render :: (no ++ Stmt.move j.no noValue ::
        Stmt.jump (Label.after j.id).render :: diamondEnd j yes yesValue))
      (trace ++ [Stmt.branch v (Label.yes j.id).render]) := by
  have hsublist : ∀ {c}, c.Sublist (diamond j v no noValue yes yesValue) → Once (trace ++ c) :=
    fun hc ↦ honce.sublist ((List.Sublist.refl trace).append hc)
  have hyesAfter : (Label.after j.id).render ≠ (Label.yes j.id).render :=
    Label.render_ne trivial trivial (by simp)
  have hskipped : (Label.after j.id).render ∉ stmtLabels (Stmt.label (Label.yes j.id).render ::
      (yes ++ [Stmt.move j.yes yesValue])) := by
    simpa [stmtLabels, hyesAfter] using hyesLabels
  have hend : [Stmt.label (Label.after j.id).render, meet j].Sublist (diamondEnd j yes yesValue) :=
    .cons _ (List.sublist_append_of_sublist_right (.cons _ (.refl _)))
  have hother : [Stmt.label (Label.yes j.id).render, .move j.yes yesValue,
      .label (Label.after j.id).render].Sublist (diamondEnd j yes yesValue) :=
    .cons_cons _ (List.sublist_append_of_sublist_right
      (.cons_cons _ (.cons_cons _ (List.nil_sublist _))))
  refine along_label trivial ((hno (fun x hx ↦ ((hB x hx).mono _).mono _) ?_).append ?_)
  · have := hsublist
      (sublist_no v noValue (.refl no) (List.nil_sublist (diamondEnd j yes yesValue)))
    refine this.sublist ?_
    simp
  rintro _ ⟨hhas, u, hu, rfl⟩
  refine along_move (fun x hx ↦ hhas x (hnoValue x hx)) ?_
  rw [Along]
  refine ⟨trivial, fun h ↦ h.elim, fun l hl ↦ ?_⟩
  cases hl
  have hsplit : diamondEnd j yes yesValue = .label (Label.yes j.id).render ::
      (yes ++ [Stmt.move j.yes yesValue]) ++ [Stmt.label (Label.after j.id).render, meet j] := by
    simp [diamondEnd]
  rw [hsplit]
  refine alongFrom_append hskipped (alongFrom_label trivial ?_)
  -- the label and the temporary of the other branch do not occur on this one
  have hboth := hsublist (sublist_no v noValue hu hother)
  have hpath : trace ++ [Stmt.branch v (Label.yes j.id).render] ++
      [Stmt.label (Label.no j.id).render] ++ u ++ [Stmt.move j.no noValue] ++
      [Stmt.jump (Label.after j.id).render] ++ [Stmt.label (Label.after j.id).render]
      = trace ++ Stmt.branch v (Label.yes j.id).render :: Stmt.label (Label.no j.id).render ::
        (u ++ [Stmt.move j.no noValue, .jump (Label.after j.id).render,
          .label (Label.after j.id).render]) := by simp
  rw [hpath]
  refine along_meet (Chosen.first ?_ ?_ ?_ ?_).swap hB ?_
  · exact List.mem_filterMap.mpr ⟨.move j.no noValue, by simp, rfl⟩
  · simp
  · have hmove : Once ((trace ++ Stmt.branch v (Label.yes j.id).render ::
        Stmt.label (Label.no j.id).render :: (u ++ [Stmt.move j.no noValue,
          .jump (Label.after j.id).render, .label (Label.yes j.id).render])) ++
        Stmt.move j.yes yesValue :: [Stmt.label (Label.after j.id).render]) := by simpa using hboth
    exact hmove.dest_notMem rfl (by simp)
  · have hlabel : Once ((trace ++ Stmt.branch v (Label.yes j.id).render ::
        Stmt.label (Label.no j.id).render :: (u ++ [Stmt.move j.no noValue,
          .jump (Label.after j.id).render])) ++ Stmt.label (Label.yes j.id).render ::
        [Stmt.move j.yes yesValue, .label (Label.after j.id).render]) := by simpa using hboth
    exact hlabel.label_notMem (by simp)
  · have := sublist_no v noValue hu hend
    simpa using this

/-- The branch that is taken leads past the other one. -/
private theorem along_yes (hB : ∀ x ∈ B, Has known trace x)
    (hyes : ∀ {trace}, (∀ x ∈ B, Has known trace x) → Once (trace ++ yes) →
      Along (Stmt.Ready known) (Behind known trace yes B₂) yes trace)
    (hyesValue : ∀ x ∈ yesValue.reads, x ∈ B₂)
    (hnoLabels : (Label.yes j.id).render ∉ stmtLabels no)
    (honce : Once (trace ++ diamond j v no noValue yes yesValue)) :
    AlongFrom (Stmt.Ready known)
      (Behind known trace (diamond j v no noValue yes yesValue) (j.result.id :: B))
      (Label.yes j.id).render (Stmt.label (Label.no j.id).render :: (no ++ Stmt.move j.no noValue ::
        Stmt.jump (Label.after j.id).render :: diamondEnd j yes yesValue))
      (trace ++ [Stmt.branch v (Label.yes j.id).render]) := by
  have hsublist : ∀ {c}, c.Sublist (diamond j v no noValue yes yesValue) → Once (trace ++ c) :=
    fun hc ↦ honce.sublist ((List.Sublist.refl trace).append hc)
  have hyesNo : (Label.yes j.id).render ≠ (Label.no j.id).render :=
    Label.render_ne trivial trivial (by simp)
  have hpassed : (Label.yes j.id).render ∉ stmtLabels (Stmt.label (Label.no j.id).render ::
      (no ++ [Stmt.move j.no noValue, .jump (Label.after j.id).render])) := by
    simpa [stmtLabels, hyesNo] using hnoLabels
  have hend : ∀ {u c}, u.Sublist yes → c.Sublist [Stmt.label (Label.after j.id).render, meet j] →
      (Stmt.label (Label.yes j.id).render :: (u ++ Stmt.move j.yes yesValue :: c)).Sublist
        (diamondEnd j yes yesValue) :=
    fun hu hc ↦ .cons_cons _ (hu.append (.cons_cons _ hc))
  have hsplit : .label (Label.no j.id).render :: (no ++ Stmt.move j.no noValue ::
      .jump (Label.after j.id).render :: diamondEnd j yes yesValue)
      = .label (Label.no j.id).render :: (no ++ [Stmt.move j.no noValue,
        .jump (Label.after j.id).render]) ++ diamondEnd j yes yesValue := by simp
  rw [hsplit]
  refine alongFrom_append hpassed (alongFrom_label trivial
    ((hyes (fun x hx ↦ ((hB x hx).mono _).mono _) ?_).append ?_))
  · have := hsublist (sublist_yes v noValue no
      (hend (.refl yes) (List.nil_sublist _)))
    refine this.sublist ?_
    simp only [List.append_assoc, List.cons_append, List.nil_append]
    refine (List.Sublist.refl trace).append (.cons_cons _ (.cons _ (.cons _ (.cons_cons _ ?_))))
    exact List.sublist_append_left ..
  rintro _ ⟨hhas, u, hu, rfl⟩
  refine along_move (fun x hx ↦ hhas x (hyesValue x hx)) (along_label trivial ?_)
  -- the label and the temporary of the other branch do not occur on this one
  have hboth := hsublist (sublist_yes v noValue no
    (hend hu (.cons_cons _ (List.nil_sublist _))))
  have hpath : trace ++ [Stmt.branch v (Label.yes j.id).render] ++
      [Stmt.label (Label.yes j.id).render] ++ u ++ [Stmt.move j.yes yesValue] ++
      [Stmt.label (Label.after j.id).render]
      = trace ++ Stmt.branch v (Label.yes j.id).render :: Stmt.label (Label.yes j.id).render ::
        (u ++ [Stmt.move j.yes yesValue, .label (Label.after j.id).render]) := by simp
  rw [hpath]
  refine along_meet (Chosen.first ?_ ?_ ?_ ?_) hB ?_
  · exact List.mem_filterMap.mpr ⟨.move j.yes yesValue, by simp, rfl⟩
  · simp
  · have hmove : Once ((trace ++ [Stmt.branch v (Label.yes j.id).render,
        .label (Label.no j.id).render]) ++ Stmt.move j.no noValue ::
        Stmt.label (Label.yes j.id).render :: (u ++ [Stmt.move j.yes yesValue,
          .label (Label.after j.id).render])) := by simpa using hboth
    exact hmove.dest_notMem rfl (by simp)
  · have hlabel : Once ((trace ++ [Stmt.branch v (Label.yes j.id).render]) ++
        Stmt.label (Label.no j.id).render :: Stmt.move j.no noValue ::
        Stmt.label (Label.yes j.id).render :: (u ++ [Stmt.move j.yes yesValue,
          .label (Label.after j.id).render])) := by simpa using hboth
    exact hlabel.label_notMem (by simp)
  · have hlast : (Stmt.label (Label.yes j.id).render :: (u ++ [Stmt.move j.yes yesValue,
        .label (Label.after j.id).render, meet j])).Sublist (diamondEnd j yes yesValue) :=
      hend hu (.refl _)
    have hpassed := sublist_yes v noValue no hlast
    simpa using (List.Sublist.cons_cons _ (.cons _ (.cons _ (.refl _)))).trans hpassed

theorem along_diamond (hv : ∀ x ∈ v.reads, Has known trace x) (hB : ∀ x ∈ B, Has known trace x)
    (hno : ∀ {trace}, (∀ x ∈ B, Has known trace x) → Once (trace ++ no) →
      Along (Stmt.Ready known) (Behind known trace no B₁) no trace)
    (hyes : ∀ {trace}, (∀ x ∈ B, Has known trace x) → Once (trace ++ yes) →
      Along (Stmt.Ready known) (Behind known trace yes B₂) yes trace)
    (hnoValue : ∀ x ∈ noValue.reads, x ∈ B₁) (hyesValue : ∀ x ∈ yesValue.reads, x ∈ B₂)
    (hnoLabels : (Label.yes j.id).render ∉ stmtLabels no)
    (hyesLabels : (Label.after j.id).render ∉ stmtLabels yes)
    (honce : Once (trace ++ diamond j v no noValue yes yesValue)) :
    Along (Stmt.Ready known)
      (Behind known trace (diamond j v no noValue yes yesValue) (j.result.id :: B))
      (diamond j v no noValue yes yesValue) trace := by
  rw [diamond, Along]
  refine ⟨hv, fun _ ↦ along_no hB hno hnoValue hyesLabels honce, fun l hl ↦ ?_⟩
  cases hl
  exact along_yes hB hyes hyesValue hnoLabels honce

end

/-- Statements of the shapes of blocks find what they read on every path. -/
theorem Flows.along (h : Flows m n B (.stmts c) n' B') (hB : ∀ x ∈ B, Has known trace x)
    (honce : Once (trace ++ c)) :
    Along (Stmt.Ready known) (Behind known trace c B') c trace := by
  generalize hp : Part.stmts c = p at h
  induction h generalizing c trace with
  | value | tag | untag | call | func => cases hp
  | nil =>
    cases hp
    exact ⟨hB, [], .slnil, (List.append_nil _).symm⟩
  | @assign _ _ _ B _ t source ss hsource ht hrest _ ih =>
    cases hp
    have hreads : ∀ x ∈ source.reads, Has known trace x := fun x hx ↦ hB x (hsource.reads x hx)
    have hnext : ∀ x ∈ t.id :: B, Has known (trace ++ [Stmt.move t source]) x :=
      List.forall_mem_cons.mpr ⟨.inr (by simp [dests, Stmt.dest]), fun x hx ↦ (hB x hx).mono _⟩
    have hrest := ih hnext (by simpa using honce) rfl
    exact along_move hreads (hrest.mono fun _ h ↦ h.after (.refl _))
  | @staged _ _ _ B _ id source ss hsource hid hrest _ ih =>
    cases hp
    have hreads : ∀ x ∈ source.reads, Has known trace x := fun x hx ↦ hB x (hsource.reads x hx)
    have hnext : ∀ x ∈ id :: B, Has known (trace ++ [Stmt.move ⟨id, none⟩ source]) x :=
      List.forall_mem_cons.mpr ⟨.inr (by simp [dests, Stmt.dest]), fun x hx ↦ (hB x hx).mono _⟩
    have hrest := ih hnext (by simpa using honce) rfl
    exact along_move hreads (hrest.mono fun _ h ↦ h.after (.refl _))
  | cond hv _ hnoValue _ hyesValue _ _ _ hnoLabels hyesLabels _ ihno _ ihyes _ ihrest =>
    cases hp
    rw [← List.append_assoc] at honce
    have hdiamond := along_diamond (fun x hx ↦ hB x (hv.reads x hx)) hB
      (fun hB honce ↦ ihno hB honce rfl) (fun hB honce ↦ ihyes hB honce rfl) hnoValue.reads
      hyesValue.reads hnoLabels hyesLabels (honce.sublist (List.sublist_append_left ..))
    refine hdiamond.append fun _ hbehind ↦ ?_
    obtain ⟨hhas, u, hu, rfl⟩ := hbehind
    have hrest := ihrest hhas
      (honce.sublist (((List.Sublist.refl _).append hu).append (.refl _))) rfl
    exact hrest.mono fun _ h ↦ h.after hu

end

/-! ## Programs -/

/-- The bodies of functions in a part. -/
def Part.entries : Part → List Entry
  | rhs source => source.entries
  | stmts ss => entriesOfStmts ss

section

variable {m n n' k k' : Nat} {B B' : List Nat} {p : Part} {e : Entry} {b : Block} {bs : List Block}

/-- The bodies of functions are blocks of the same shapes. -/
theorem Flows.entries (h : Flows m n B p n' B') :
    ∀ e ∈ p.entries, ∃ n₁ n₂, e.block.Shaped m n₁ e.known n₂ := by
  induction h with
  | value | tag | untag | call | nil => exact List.forall_mem_nil _
  | func _ _ hlabels hstmts hvalue ihstmts ihvalue =>
    refine List.forall_mem_cons.mpr ⟨⟨_, _, hlabels, _, _, hstmts, hvalue⟩, fun e he ↦ ?_⟩
    exact (List.mem_append.mp he).elim (ihstmts e) (ihvalue e)
  | assign _ _ _ ihsource ihrest =>
    exact fun e he ↦ (List.mem_append.mp he).elim (ihsource e) (ihrest e)
  | staged _ _ _ ihsource ihrest =>
    exact fun e he ↦ (List.mem_append.mp he).elim (ihsource e) (ihrest e)
  | cond _ _ _ _ _ _ _ _ _ _ _ ihno ihnoValue ihyes ihyesValue ihrest =>
    intro e he
    simp only [Part.entries, diamond, List.cons_append, entriesOfStmts, entriesOfStmts_append,
      Stmt.entries, List.nil_append, List.append_assoc, List.mem_append] at he
    rcases he with he | he | he | he | he
    · exact ihno e he
    · exact ihnoValue e he
    · exact ihyes e he
    · exact ihyesValue e he
    · exact ihrest e he

/-- A block finds what it reads, if it assigns nothing twice. -/
theorem Block.Shaped.closed (h : b.Shaped m n B n') (hnodup : (dests b.stmts).Nodup) :
    Entry.Closed ⟨B, b⟩ := by
  obtain ⟨hlabels, n₁, B₁, hstmts, hvalue⟩ := h
  have halong : Along (Stmt.Ready B) (Behind B [] b.stmts B₁) b.stmts [] :=
    hstmts.along (fun x hx ↦ .inl hx) ⟨hnodup, hlabels⟩
  have hready : ∀ {trace pc s}, Reaches b.stmts trace pc → b.stmts[pc]? = some s →
      s.Ready B trace := by
    intro trace pc s hreaches hs
    obtain ⟨hlt, rfl⟩ := List.getElem?_eq_some_iff.mp hs
    have hhere := hreaches.along hlabels halong
    rw [List.drop_eq_getElem_cons hlt, Along] at hhere
    exact hhere.1
  constructor
  · exact fun hreaches hs ↦ (hready hreaches hs).has
  · intro trace pc hreaches hpc x hx
    have hend := hreaches.along hlabels halong
    rw [List.drop_eq_nil_of_le (List.getElem?_eq_none_iff.mp hpc), Along] at hend
    exact hend.has x (hvalue.reads x hx)
  · exact fun hreaches hs ↦ hready hreaches hs

/-- All blocks of a program and the bodies of its functions are of the shapes of blocks. -/
theorem Shaped.entries (h : Shaped m n bs n') :
    ∀ b ∈ bs, ∀ e ∈ b.entries [], ∃ n₁ n₂, e.block.Shaped m n₁ e.known n₂ := by
  induction h with
  | nil => exact List.forall_mem_nil _
  | @cons _ _ _ b bs hb _ ih =>
    refine List.forall_mem_cons.mpr ⟨?_, ih⟩
    obtain ⟨stmts, value⟩ := b
    obtain ⟨hlabels, n₁, B₁, hstmts, hvalue⟩ := hb
    refine List.forall_mem_cons.mpr ⟨⟨_, _, hlabels, n₁, B₁, hstmts, hvalue⟩, fun e he ↦ ?_⟩
    exact (List.mem_append.mp he).elim (hstmts.entries e) (hvalue.entries e)

theorem Shaped.closed (h : Shaped m n bs n') (hnodup : (introduced bs).Nodup) :
    ∀ b ∈ bs, ∀ e ∈ b.entries [], e.Closed := by
  intro b hb e he
  obtain ⟨n₁, n₂, hentry⟩ := h.entries b hb e he
  have hown : e.introduced.Nodup :=
    (List.nodup_flatMap.mp ((List.nodup_flatMap.mp hnodup).1 b hb)).1 e he
  exact hentry.closed (List.nodup_append.mp hown).2.1

/-- **Single assignment.** With and without copies, no temporary of a program is introduced twice,
and on every path through one of its blocks or functions, what is read has its word. -/
theorem single_assignment {es : List Expr} {trees : List Tree} {l : Lowerer}
    (hlower : (lowerAll es).outcome (.start n) = (.ok trees, l)) (hk : l.next ≤ k)
    (hblocks : (blocks trees).run k = (bs, k')) (optimize : Bool) :
    let program := if optimize then withoutCopies bs else bs
    (introduced program).Nodup ∧ ∀ b ∈ program, ∀ e ∈ b.entries [], e.Closed := by
  obtain ⟨hmade, -⟩ := lowerAll_made (fun e _ ↦ e.lowersMade) (Lowerer.sees_start n) hlower
  have hnodup : (introduced bs).Nodup := nodup_introduced hmade hk hblocks
  have hshaped : Shaped l.next k bs k' := hmade.shaped (Nat.le_refl _) hk hblocks
  cases optimize with
  | false => exact ⟨hnodup, hshaped.closed hnodup⟩
  | true =>
    obtain ⟨bs', c', hrun, -, hshaped', hcount⟩ := hshaped.propagated (.empty hk)
    obtain ⟨n', -, hshaped'⟩ := hshaped' k (Nat.le_refl k)
    have hbs' : withoutCopies bs = bs' := congrArg Prod.fst hrun
    have hnodup' : (introduced bs').Nodup := List.nodup_iff_count_le_one.mpr fun x ↦
      Nat.le_trans (hcount x) (List.nodup_iff_count_le_one.mp hnodup x)
    simp only [↓reduceIte, hbs']
    exact ⟨hnodup', hshaped'.closed hnodup'⟩

end

/-- The branches of the conditional and the function in it are looked at on all paths. -/
theorem nestedExpr_single_assignment : ∃ trees l bs k,
    (lowerAll [nestedExpr]).outcome (.start 0) = (.ok trees, l) ∧
    (blocks trees).run l.next = (bs, k) ∧
    let program := withoutCopies bs
    (introduced program).Nodup ∧ ∀ b ∈ program, ∀ e ∈ b.entries [], e.Closed := by
  obtain ⟨trees, l, hlower⟩ :
      ∃ trees l, (lowerAll [nestedExpr]).outcome (.start 0) = (.ok trees, l) := ⟨_, _, rfl⟩
  exact ⟨trees, l, _, _, hlower, rfl, single_assignment hlower (Nat.le_refl _) rfl true⟩

end TaggedLisp.Ir
