import TaggedLisp.Proofs.Ir.Jumps

/-!
# Where branches meet

A choice stands behind the label at which the branches of a conditional meet, and names the labels
at which the two branches start. Control comes to the meeting label in two ways: by the jump at the
end of one branch, and from the end of the other one, which stands right before. Each branch is
entered at its label only, so the label by which control came says which way it was:
`choices_name_branches`.

That label need not head the basic block from which control arrives. A branch that contains a
conditional of its own is several basic blocks, and the last of them starts where the branches of
the inner conditional meet.
-/

namespace TaggedLisp.Ir

/-! ## Arrivals -/

/-- Control can go from the statement at `q` to the place `p`. -/
def Arrives (stmts : List Stmt) (q p : Nat) : Prop :=
  ∃ s, stmts[q]? = some s ∧
    (s.Falls ∧ p = q + 1 ∨ ∃ l, s.target = some l ∧ place stmts l = some p)

/-- The label `l` heads the basic block of the statement at `q`: from the label on, control goes
from each statement to the next one up to `q`, and passes no other label. -/
def Heads (stmts : List Stmt) (l : String) (q : Nat) : Prop :=
  ∃ p ≤ q, stmts[p]? = some (.label l) ∧
    (∀ i l', p < i → i ≤ q → stmts[i]? ≠ some (.label l')) ∧
    ∀ i s, p ≤ i → i < q → stmts[i]? = some s → s.target = none

/-- There is a conditional behind `first` and up to `last`. -/
def Branching (stmts : List Stmt) (first last : Nat) : Prop :=
  ∃ i v l, first < i ∧ i ≤ last ∧ stmts[i]? = some (.branch v l)

/-- The statements from `first` to `last` are a branch with the label `l`: control enters them at
the label only. The label heads the basic block in which the branch ends if there is no conditional
in the branch, and otherwise a label does where inner branches meet. -/
structure IsBranch (stmts : List Stmt) (l : String) (first last : Nat) : Prop where
  label : stmts[first]? = some (.label l)
  lt : first < last
  entered : ∀ q p, Arrives stmts q p → first < p → p ≤ last → first ≤ q ∧ q ≤ last
  head : Heads stmts l last ↔ ¬ Branching stmts first last
  joined : Branching stmts first last → ∃ p l' t sources, first < p ∧ p < last ∧
    stmts[p]? = some (.label l') ∧ stmts[p + 1]? = some (.phi t sources) ∧ Heads stmts l' last

/-- The two branches of the conditional at `i` meet in a choice with these sources. One ends at `q`
with a jump to the label at `r + 1`, the other one ends at `r`, and control comes to the label from
these two places only. -/
structure Joins (stmts : List Stmt) (sources : List (String × Temp)) (i q r : Nat)
    (yes no after : String) : Prop where
  test : ∃ v, stmts[i]? = some (.branch v yes)
  noBranch : IsBranch stmts no (i + 1) q
  yesBranch : IsBranch stmts yes (q + 1) r
  jump : stmts[q]? = some (.jump after)
  label : stmts[r + 1]? = some (.label after)
  arrives : ∀ p, Arrives stmts p (r + 1) ↔ p = q ∨ p = r
  toNo : ∀ p, Arrives stmts p (i + 1) ↔ p = i
  toYes : ∀ p, Arrives stmts p (q + 1) ↔ p = i
  sources : sources.map Prod.fst = [yes, no]

/-- The labels of the sources are those that head the basic blocks from which control comes to the
place `p`. -/
def NamesArrivals (stmts : List Stmt) (p : Nat) (sources : List (String × Temp)) : Prop :=
  ∀ l, l ∈ sources.map Prod.fst ↔ ∃ q, Arrives stmts q p ∧ Heads stmts l q

/-- The choice at `k` is one in which two branches meet. -/
def Meets (stmts : List Stmt) (k : Nat) (sources : List (String × Temp)) : Prop :=
  ∃ i q r yes no after, k = r + 2 ∧ Joins stmts sources i q r yes no after

/-! ## Segments -/

/-- Whether control goes on behind the statement, and comes to it from the one before only. -/
def Stmt.IsStraight : Stmt → Prop
  | move _ _ | phi _ _ => True
  | jump _ | branch _ _ | label _ => False

/-- The labels that statements jump to. -/
def targets (stmts : List Stmt) : List String := stmts.filterMap Stmt.target

/-- Statements between others. No label stands twice, and no jump leads from the others to a label
of theirs. -/
structure Inner (before c after : List Stmt) : Prop where
  nodup : (stmtLabels (before ++ c ++ after)).Nodup
  apart : (targets (before ++ after)).Disjoint (stmtLabels c)

section

variable {stmts before c mid x y after : List Stmt} {s : Stmt} {l l' : String} {p q : Nat}

@[simp] theorem targets_append (c c' : List Stmt) : targets (c ++ c') = targets c ++ targets c' :=
  List.filterMap_append

theorem Forward.targets_subset (h : Forward c) : targets c ⊆ stmtLabels c := by
  induction c with
  | nil => exact List.nil_subset _
  | cons s ss ih =>
    intro l hl
    have hss : stmtLabels ss ⊆ stmtLabels (s :: ss) := by
      rw [← List.singleton_append, stmtLabels_append]
      exact List.subset_append_right _ _
    obtain ⟨s', hs', htarget⟩ := List.mem_filterMap.mp hl
    rcases List.mem_cons.mp hs' with rfl | hs'
    · exact hss (h.1 l htarget)
    · exact hss (ih h.2 (List.mem_filterMap.mpr ⟨s', hs', htarget⟩))

theorem place_eq_iff (hnodup : (stmtLabels stmts).Nodup) :
    place stmts l = some p ↔ stmts[p]? = some (.label l) := by
  refine ⟨fun h ↦ ?_, place_of_label hnodup⟩
  obtain ⟨hlt, hs, -⟩ := List.findIdx?_eq_some_iff_getElem.mp h
  rw [List.getElem?_eq_getElem hlt]
  split at hs
  · next m hm =>
    rw [hm, beq_iff_eq.mp hs]
  · cases hs

/-- Control comes to a label from the statement before and from the jumps to it. -/
theorem arrives_label_iff (hnodup : (stmtLabels stmts).Nodup) (hl : stmts[p]? = some (.label l)) :
    Arrives stmts q p ↔ ∃ s, stmts[q]? = some s ∧ (s.Falls ∧ p = q + 1 ∨ s.target = some l) := by
  refine exists_congr fun s ↦ and_congr_right fun _ ↦ or_congr_right ⟨?_, fun h ↦ ?_⟩
  · rintro ⟨l', hs, hplace⟩
    have hl' := (place_eq_iff hnodup).mp hplace
    rw [hl] at hl'
    cases hl'
    exact hs
  · exact ⟨l, h, (place_eq_iff hnodup).mpr hl⟩

/-- A jump to a label that is not jumped to from elsewhere stands in the middle. -/
theorem jump_middle (hl : l ∉ targets (before ++ after)) (hs : (before ++ c ++ after)[q]? = some s)
    (htarget : s.target = some l) : before.length ≤ q ∧ q < before.length + c.length := by
  rw [targets_append, List.mem_append, not_or] at hl
  rw [List.append_assoc, List.getElem?_append] at hs
  split at hs
  · exact absurd (List.mem_filterMap.mpr ⟨s, List.mem_of_getElem? hs, htarget⟩) hl.1
  · next hq =>
    rw [List.getElem?_append] at hs
    split at hs
    · omega
    · exact absurd (List.mem_filterMap.mpr ⟨s, List.mem_of_getElem? hs, htarget⟩) hl.2

/-- The label of a basic block is the only one. -/
theorem Heads.unique (h : Heads c l q) (h' : Heads c l' q) : l = l' := by
  obtain ⟨p, hpq, hp, hpnone, -⟩ := h
  obtain ⟨p', hpq', hp', hpnone', -⟩ := h'
  rcases Nat.lt_trichotomy p p' with hlt | rfl | hlt
  · exact absurd hp' (hpnone p' l' hlt hpq')
  · rw [hp] at hp'
    cases hp'
    rfl
  · exact absurd hp (hpnone' p l hlt hpq)

/-- Jumps between the parts of statements stay in these. -/
theorem Inner.part (h : Inner before (x ++ c ++ y) after)
    (hxy : targets (x ++ y) ⊆ stmtLabels (x ++ y)) : Inner (before ++ x) c (y ++ after) := by
  have hnodup : (stmtLabels (x ++ c ++ y)).Nodup := by
    have hall := h.nodup
    rw [stmtLabels_append, stmtLabels_append] at hall
    exact (List.nodup_append.mp (List.nodup_append.mp hall).1).2.1
  constructor
  · simpa only [List.append_assoc] using h.nodup
  · intro l hl hc
    have hsplit : l ∈ targets (before ++ after) ∨ l ∈ targets (x ++ y) := by
      simp only [targets_append, List.mem_append] at hl ⊢
      tauto
    rcases hsplit with houter | hinner
    · exact h.apart houter (by simp [hc])
    · have hxy := hxy hinner
      simp only [stmtLabels_append, List.nodup_append, List.mem_append] at hnodup hxy
      rcases hxy with hx | hy
      · exact hnodup.1.2.2 l hx l hc rfl
      · exact hnodup.2.2 l (.inr hc) l hy rfl

theorem Inner.left (h : Inner before (x ++ y) after) (hy : Forward y) :
    Inner before x (y ++ after) := by
  have hpart := (show Inner before ([] ++ x ++ y) after from h).part hy.targets_subset
  rwa [List.append_nil] at hpart

theorem Inner.right (h : Inner before (x ++ y) after) (hx : Forward x) :
    Inner (before ++ x) y after := by
  have hall : Inner before (x ++ y ++ []) after := by rwa [List.append_nil]
  exact hall.part (by simpa using hx.targets_subset)

theorem Inner.behind_move {t : Temp} {source : Rhs}
    (h : Inner before (.move t source :: c) after) : Inner (before ++ [.move t source]) c after :=
  (show Inner before ([.move t source] ++ c) after from h).right (by simp [Forward, Stmt.target])

end

/-! ## Branches -/

/-- Control goes straight through the statements, or straight on from where the branches of the last
conditional in them meet. -/
inductive Ends : List Stmt → Prop where
  | straight {c} (hc : ∀ s ∈ c, s.IsStraight) : Ends c
  | joined {c v l l' t sources ss} (hbranch : .branch v l ∈ c) (hss : ∀ s ∈ ss, s.IsStraight) :
      Ends (c ++ .label l' :: .phi t sources :: ss)

section

variable {before c c' after : List Stmt} {last s : Stmt} {l : String} {i : Nat}

theorem Ends.cons (h : Ends c) (hs : s.IsStraight) : Ends (s :: c) := by
  cases h with
  | straight hc => exact .straight (List.forall_mem_cons.mpr ⟨hs, hc⟩)
  | joined hbranch hss => exact .joined (List.mem_cons_of_mem _ hbranch) hss

theorem Ends.append (h : Ends c) (hc' : ∀ s ∈ c', s.IsStraight) : Ends (c ++ c') := by
  cases h with
  | straight hc => exact .straight (List.forall_mem_append.mpr ⟨hc, hc'⟩)
  | joined hbranch hss =>
    rw [List.append_assoc]
    exact .joined hbranch (List.forall_mem_append.mpr ⟨hss, hc'⟩)

theorem ends_diamond (j : Lower.Join) (v : Operand) (no yes : List Stmt) (noValue yesValue : Rhs)
    (h : Ends c) : Ends (diamond j v no noValue yes yesValue ++ c) := by
  have hbranch : .branch v (Label.yes j.id).render ∈ diamond j v no noValue yes yesValue :=
    List.mem_cons_self
  cases h with
  | straight hc =>
    have hsplit : diamond j v no noValue yes yesValue ++ c
        = (.branch v (Label.yes j.id).render :: .label (Label.no j.id).render ::
          (no ++ Stmt.move j.no noValue :: .jump (Label.after j.id).render ::
            .label (Label.yes j.id).render :: (yes ++ [.move j.yes yesValue]))) ++
          .label (Label.after j.id).render :: .phi j.result
            [((Label.yes j.id).render, j.yes), ((Label.no j.id).render, j.no)] :: c := by
      simp [diamond]
    rw [hsplit]
    exact .joined List.mem_cons_self hc
  | joined _ hss =>
    rw [← List.append_assoc]
    exact .joined (List.mem_append_left _ hbranch) hss

theorem Flows.ends {m n n' : Nat} {B B' : List Nat} (h : Flows m n B (.stmts c) n' B') :
    Ends c := by
  generalize hp : Part.stmts c = p at h
  induction h generalizing c with
  | value | tag | untag | call | func => cases hp
  | nil =>
    cases hp
    exact .straight (List.forall_mem_nil _)
  | assign _ _ _ _ ih =>
    cases hp
    exact (ih rfl).cons trivial
  | staged _ _ _ _ ih =>
    cases hp
    exact (ih rfl).cons trivial
  | cond _ _ _ _ _ _ _ _ _ _ _ _ _ _ _ ih =>
    cases hp
    exact ends_diamond _ _ _ _ _ _ (ih rfl)

theorem getElem?_behind (before : List Stmt) (s : Stmt) (rest : List Stmt) (i : Nat) :
    (before ++ s :: rest)[before.length + 1 + i]? = rest[i]? := by
  rw [List.getElem?_append_right (by omega)]
  simp [Nat.add_assoc, Nat.add_comm 1 i]

theorem mem_behind (hlt : before.length < i) (hle : i ≤ before.length + 1 + c.length)
    (hs : (before ++ .label l :: (c ++ last :: after))[i]? = some s) : s ∈ c ∨ s = last := by
  obtain ⟨i, rfl⟩ := Nat.exists_eq_add_of_le (Nat.succ_le_of_lt hlt)
  rw [getElem?_behind, List.getElem?_append] at hs
  split at hs
  · exact .inl (List.mem_of_getElem? hs)
  · have hi : i - c.length = 0 := by omega
    rw [hi, List.getElem?_cons_zero] at hs
    exact .inr (Option.some.inj hs).symm

/-- Behind a label, its basic block goes on up to a jump or a label. -/
theorem heads_of_straight (before : List Stmt) (l : String) (hc : ∀ s ∈ c, s.IsStraight)
    (hlast : ∀ l', last ≠ .label l') :
    Heads (before ++ .label l :: (c ++ last :: after)) l (before.length + 1 + c.length) := by
  refine ⟨before.length, by omega, by simp, fun i l' hlt hle hs ↦ ?_, fun i s hle hlt hs ↦ ?_⟩
  · rcases mem_behind hlt hle hs with hs | hs
    · exact hc _ hs
    · exact hlast l' hs.symm
  · by_cases hi : i = before.length
    · rw [hi, List.getElem?_append_right (Nat.le_refl _), Nat.sub_self] at hs
      obtain rfl : Stmt.label l = s := Option.some.inj hs
      rfl
    · obtain ⟨i, rfl⟩ := Nat.exists_eq_add_of_le (show before.length + 1 ≤ i by omega)
      rw [getElem?_behind, List.getElem?_append_left (by omega)] at hs
      have hstraight := hc s (List.mem_of_getElem? hs)
      cases s with
      | move | phi => rfl
      | jump | branch | label => exact hstraight.elim

theorem branching_iff (before : List Stmt) (l : String) (hlast : ∀ v l', last ≠ .branch v l') :
    Branching (before ++ .label l :: (c ++ last :: after)) before.length
      (before.length + 1 + c.length) ↔ ∃ v l', .branch v l' ∈ c := by
  constructor
  · rintro ⟨i, v, l', hlt, hle, hs⟩
    exact ⟨v, l', (mem_behind hlt hle hs).resolve_right fun h ↦ hlast v l' h.symm⟩
  · rintro ⟨v, l', hmem⟩
    obtain ⟨i, hi⟩ := List.getElem?_of_mem hmem
    have hlt := (List.getElem?_eq_some_iff.mp hi).1
    refine ⟨before.length + 1 + i, v, l', by omega, by omega, ?_⟩
    rw [getElem?_behind, List.getElem?_append_left hlt]
    exact hi

/-- A jump to a label of the statements is one of them. -/
theorem Inner.entered (h : Inner (before ++ [.label l]) c (last :: after))
    (hlast : ∀ l', last ≠ .label l') {q p : Nat}
    (harrives : Arrives (before ++ .label l :: (c ++ last :: after)) q p) (hlt : before.length < p)
    (hle : p ≤ before.length + 1 + c.length) :
    before.length ≤ q ∧ q ≤ before.length + 1 + c.length := by
  have hsplit : before ++ .label l :: (c ++ last :: after)
      = before ++ [.label l] ++ c ++ last :: after := by simp
  obtain ⟨s, hs, ⟨-, rfl⟩ | ⟨l', htarget, hplace⟩⟩ := harrives
  · omega
  · have hl' : l' ∈ stmtLabels c := by
      have hp := (place_eq_iff (hsplit ▸ h.nodup)).mp hplace
      exact mem_stmtLabels.mpr ((mem_behind hlt hle hp).resolve_right fun h ↦ hlast l' h.symm)
    rw [hsplit] at hs
    have hq := jump_middle (fun ho ↦ h.apart ho hl') hs htarget
    simp only [List.length_append, List.length_singleton] at hq
    omega

/-- Statements behind a label are a branch, up to a move or a jump behind them. -/
theorem Ends.isBranch (h : Ends c) (before : List Stmt) (l : String)
    (hinner : Inner (before ++ [.label l]) c (last :: after)) (hlabel : ∀ l', last ≠ .label l')
    (hbranch : ∀ v l', last ≠ .branch v l') :
    IsBranch (before ++ .label l :: (c ++ last :: after)) l before.length
      (before.length + 1 + c.length) := by
  have hentered := fun q p ↦ hinner.entered hlabel (q := q) (p := p)
  cases h with
  | straight hc =>
    have hnone : ¬ Branching (before ++ .label l :: (c ++ last :: after)) before.length
        (before.length + 1 + c.length) :=
      mt (branching_iff before l hbranch).mp fun ⟨_, _, hmem⟩ ↦ hc _ hmem
    exact ⟨by simp, by omega, hentered, iff_of_true (heads_of_straight before l hc hlabel) hnone,
      fun h ↦ absurd h hnone⟩
  | @joined c₁ v lv l' t sources ss hv hss =>
    have hsome : Branching
        (before ++ .label l :: (c₁ ++ .label l' :: .phi t sources :: ss ++ last :: after))
        before.length (before.length + 1 + (c₁ ++ .label l' :: .phi t sources :: ss).length) :=
      (branching_iff before l hbranch).mpr ⟨v, lv, List.mem_append_left _ hv⟩
    have hstraight : ∀ s ∈ .phi t sources :: ss, s.IsStraight :=
      List.forall_mem_cons.mpr ⟨trivial, hss⟩
    have hheads : Heads
        (before ++ .label l :: (c₁ ++ .label l' :: .phi t sources :: ss ++ last :: after)) l'
        (before.length + 1 + (c₁ ++ .label l' :: .phi t sources :: ss).length) := by
      have hsplit : before ++ .label l :: (c₁ ++ .label l' :: .phi t sources :: ss ++ last :: after)
          = before ++ .label l :: c₁ ++ .label l' :: (.phi t sources :: ss ++ last :: after) := by
        simp
      have hlength : before.length + 1 + (c₁ ++ .label l' :: .phi t sources :: ss).length
          = (before ++ .label l :: c₁).length + 1 + (Stmt.phi t sources :: ss).length := by
        simp
        omega
      rw [hsplit, hlength]
      exact heads_of_straight _ l' hstraight hlabel
    -- the label of the branch stands further up than the one of the last block
    have hne : l ≠ l' := by
      rintro rfl
      have hnodup := hinner.nodup
      rw [List.append_assoc, List.append_assoc, stmtLabels_append, List.nodup_append] at hnodup
      have hbelow : l ∈ stmtLabels (c₁ ++ .label l :: .phi t sources :: ss ++ last :: after) :=
        mem_stmtLabels.mpr (by simp)
      exact (List.nodup_cons.mp hnodup.2.1).1 hbelow
    refine ⟨by simp, by omega, hentered, ?_, fun _ ↦ ?_⟩
    · exact iff_of_false (fun h ↦ hne (h.unique hheads)) (not_not_intro hsome)
    · refine ⟨before.length + 1 + c₁.length, l', t, sources, by omega, ?_, ?_, ?_, hheads⟩
      · rw [List.length_append, List.length_cons]
        omega
      · rw [getElem?_behind]
        simp
      · rw [Nat.add_assoc, getElem?_behind]
        simp

end

/-! ## Conditionals -/

section

variable {stmts before c after : List Stmt} {s : Stmt} {l : String} {p q i : Nat}

@[simp] theorem targets_nil : targets [] = [] := rfl

@[simp] theorem targets_cons (s : Stmt) (c : List Stmt) :
    targets (s :: c) = s.target.toList ++ targets c := by
  cases hs : s.target <;> simp [targets, hs]

theorem getElem?_split (hc : stmts = before ++ s :: after) (hi : i = before.length) :
    stmts[i]? = some s := by
  simp [hc, hi]

/-- If a single statement jumps to a label, control comes from it and from the statement before. -/
theorem arrives_jumped_iff (hnodup : (stmtLabels stmts).Nodup) (hl : stmts[p]? = some (.label l))
    (hc : stmts = before ++ s :: after) (hs : s.target = some l)
    (hl' : l ∉ targets (before ++ after)) :
    Arrives stmts q p ↔ q = before.length ∨ p = q + 1 ∧ ∃ s, stmts[q]? = some s ∧ s.Falls := by
  rw [arrives_label_iff hnodup hl]
  constructor
  · rintro ⟨s', hs', ⟨hfalls, rfl⟩ | htarget⟩
    · exact .inr ⟨rfl, s', hs', hfalls⟩
    · rw [hc, ← List.singleton_append, ← List.append_assoc] at hs'
      have hq := jump_middle hl' hs' htarget
      rw [List.length_singleton] at hq
      exact .inl (by omega)
  · rintro (rfl | ⟨rfl, s', hs', hfalls⟩)
    · exact ⟨s, getElem?_split hc rfl, .inr hs⟩
    · exact ⟨s', hs', .inl ⟨hfalls, rfl⟩⟩

variable {j : Lower.Join} {v : Operand} {no yes : List Stmt} {noValue yesValue : Rhs}

theorem targets_diamondEnd : targets (diamondEnd j yes yesValue) = targets yes := by
  simp [diamondEnd, meet, Stmt.target]

/-- A statement that is no label can be counted in. -/
theorem Inner.extend (h : Inner before c (s :: after)) (hs : s.IsStraight) :
    Inner before (c ++ [s]) after := by
  have hlabels : stmtLabels [s] = [] := by
    cases s with
    | move | phi => rfl
    | jump | branch | label => exact hs.elim
  constructor
  · simpa using h.nodup
  · rw [stmtLabels_append, hlabels, List.append_nil]
    refine List.disjoint_of_subset_left (fun l hl ↦ ?_) h.apart
    simp only [targets_append, targets_cons, List.mem_append] at hl ⊢
    tauto

theorem Inner.no_part (h : Inner before (diamond j v no noValue yes yesValue) after)
    (hyes : Forward yes) :
    Inner (before ++ [.branch v (Label.yes j.id).render, .label (Label.no j.id).render]) no
      (.move j.no noValue :: .jump (Label.after j.id).render ::
        (diamondEnd j yes yesValue ++ after)) := by
  have hsplit : diamond j v no noValue yes yesValue
      = [.branch v (Label.yes j.id).render, .label (Label.no j.id).render] ++ no ++
        .move j.no noValue :: .jump (Label.after j.id).render :: diamondEnd j yes yesValue := by
    simp [diamond, diamondEnd, meet]
  rw [hsplit] at h
  refine h.part fun l hl ↦ ?_
  simp only [List.cons_append, List.nil_append, targets_cons, targets_diamondEnd, Stmt.target,
    Option.toList, List.mem_cons] at hl
  rw [mem_stmtLabels]
  rcases hl with rfl | rfl | hl
  · simp [diamondEnd]
  · simp [diamondEnd]
  · simp [diamondEnd, mem_stmtLabels.mp (hyes.targets_subset hl)]

theorem Inner.yes_part (h : Inner before (diamond j v no noValue yes yesValue) after)
    (hno : Forward no) :
    Inner (before ++ .branch v (Label.yes j.id).render :: .label (Label.no j.id).render ::
        (no ++ [Stmt.move j.no noValue, .jump (Label.after j.id).render,
          .label (Label.yes j.id).render])) yes
      (.move j.yes yesValue :: .label (Label.after j.id).render :: meet j :: after) := by
  have hsplit : diamond j v no noValue yes yesValue
      = .branch v (Label.yes j.id).render :: .label (Label.no j.id).render ::
          (no ++ [Stmt.move j.no noValue, .jump (Label.after j.id).render,
            .label (Label.yes j.id).render]) ++ yes ++
        [Stmt.move j.yes yesValue, .label (Label.after j.id).render, meet j] := by
    simp [diamond, meet]
  rw [hsplit] at h
  refine h.part fun l hl ↦ ?_
  simp only [List.cons_append, List.append_assoc, List.nil_append, targets_nil, targets_cons,
    targets_append, Stmt.target, meet, Option.toList, List.mem_cons, List.mem_append,
    List.not_mem_nil, or_false] at hl
  rw [mem_stmtLabels]
  rcases hl with rfl | hl | rfl
  · simp
  · simp [mem_stmtLabels.mp (hno.targets_subset hl)]
  · simp

theorem Inner.isBranch_no (h : Inner before (diamond j v no noValue yes yesValue) after)
    (hno : Ends no) (hyes : Forward yes) :
    IsBranch (before ++ diamond j v no noValue yes yesValue ++ after) (Label.no j.id).render
      (before.length + 1) (before.length + no.length + 3) := by
  have hinner := (h.no_part hyes).extend (by simp [Stmt.IsStraight])
  have hends : Ends (no ++ [.move j.no noValue]) := hno.append (by simp [Stmt.IsStraight])
  have hbranch := hends.isBranch (before ++ [.branch v (Label.yes j.id).render])
    (Label.no j.id).render (by simpa using hinner) (by simp) (by simp)
  convert hbranch using 1
  · simp [diamond, diamondEnd, meet]
  · simp
  · simp
    omega

theorem Inner.isBranch_yes (h : Inner before (diamond j v no noValue yes yesValue) after)
    (hno : Forward no) (hyes : Ends yes) :
    IsBranch (before ++ diamond j v no noValue yes yesValue ++ after) (Label.yes j.id).render
      (before.length + no.length + 3 + 1) (before.length + no.length + yes.length + 5) := by
  have hinner := h.yes_part hno
  have hbranch := hyes.isBranch (before ++ .branch v (Label.yes j.id).render ::
      .label (Label.no j.id).render ::
        (no ++ [Stmt.move j.no noValue, .jump (Label.after j.id).render]))
    (Label.yes j.id).render (by simpa using hinner) (by simp) (by simp)
  convert hbranch using 1
  · simp [diamond, meet]
  · simp
    omega
  · simp
    omega

/-- Only the conditional itself jumps to its labels. -/
theorem Inner.jumps_elsewhere (h : Inner before (diamond j v no noValue yes yesValue) after)
    (hno : Forward no) (hyes : Forward yes) (hl : l = (Label.no j.id).render ∨
      l = (Label.yes j.id).render ∨ l = (Label.after j.id).render) :
    l ∉ targets before ∧ l ∉ targets no ∧ l ∉ targets yes ∧ l ∉ targets after := by
  have hnodup := h.nodup
  have happart : l ∉ targets (before ++ after) := by
    intro hmem
    refine h.apart hmem ?_
    rw [stmtLabels_diamond]
    simp only [List.mem_cons, List.mem_append]
    tauto
  rw [stmtLabels_append, stmtLabels_append, stmtLabels_diamond] at hnodup
  have hown := (List.nodup_append.mp (List.nodup_append.mp hnodup).1).2.1
  simp only [List.nodup_cons, List.nodup_append, List.mem_cons, List.mem_append] at hown
  rw [targets_append, List.mem_append, not_or] at happart
  refine ⟨happart.1, fun hmem ↦ ?_, fun hmem ↦ ?_, happart.2⟩
  · have hnoLabel := hno.targets_subset hmem
    grind
  · have hyesLabel := hyes.targets_subset hmem
    grind

/-! A statement of a conditional, with all that stands before it and behind it. -/

theorem split_branch (before after : List Stmt) :
    before ++ diamond j v no noValue yes yesValue ++ after
      = before ++ .branch v (Label.yes j.id).render :: (.label (Label.no j.id).render ::
        (no ++ Stmt.move j.no noValue :: .jump (Label.after j.id).render ::
          diamondEnd j yes yesValue) ++ after) := by
  simp [diamond, diamondEnd, meet]

theorem split_jump (before after : List Stmt) :
    before ++ diamond j v no noValue yes yesValue ++ after
      = (before ++ .branch v (Label.yes j.id).render :: .label (Label.no j.id).render ::
          (no ++ [Stmt.move j.no noValue])) ++
        .jump (Label.after j.id).render :: (diamondEnd j yes yesValue ++ after) := by
  simp [diamond, diamondEnd, meet]

theorem split_move (before after : List Stmt) :
    before ++ diamond j v no noValue yes yesValue ++ after
      = (before ++ .branch v (Label.yes j.id).render :: .label (Label.no j.id).render ::
          (no ++ Stmt.move j.no noValue :: .jump (Label.after j.id).render ::
            .label (Label.yes j.id).render :: yes)) ++
        .move j.yes yesValue :: .label (Label.after j.id).render :: meet j :: after := by
  simp [diamond, meet]

theorem split_after (before after : List Stmt) :
    before ++ diamond j v no noValue yes yesValue ++ after
      = (before ++ .branch v (Label.yes j.id).render :: .label (Label.no j.id).render ::
          (no ++ Stmt.move j.no noValue :: .jump (Label.after j.id).render ::
            .label (Label.yes j.id).render :: (yes ++ [.move j.yes yesValue]))) ++
        .label (Label.after j.id).render :: meet j :: after := by
  simp [diamond, meet]

theorem getElem?_jump :
    (before ++ diamond j v no noValue yes yesValue ++ after)[before.length + no.length + 3]?
      = some (.jump (Label.after j.id).render) :=
  getElem?_split (split_jump before after) (by simp; omega)

theorem getElem?_after :
    (before ++ diamond j v no noValue yes yesValue ++ after)[before.length + no.length +
      yes.length + 5 + 1]? = some (.label (Label.after j.id).render) :=
  getElem?_split (split_after before after) (by simp; omega)

section

variable (h : Inner before (diamond j v no noValue yes yesValue) after) (hno : Forward no)
  (hyes : Forward yes)

include h hno hyes

/-- Nothing jumps to the first branch, which stands behind the test. -/
theorem Inner.arrives_no (hl : (before ++ diamond j v no noValue yes yesValue ++ after)[
      before.length + 1]? = some (.label (Label.no j.id).render)) :
    Arrives (before ++ diamond j v no noValue yes yesValue ++ after) p (before.length + 1) ↔
      p = before.length := by
  have hnoYes : (Label.no j.id).render ≠ (Label.yes j.id).render :=
    Label.render_ne trivial trivial (by simp)
  have hnoAfter : (Label.no j.id).render ≠ (Label.after j.id).render :=
    Label.render_ne trivial trivial (by simp)
  have hfree := h.jumps_elsewhere hno hyes (.inl rfl)
  have hnone : (Label.no j.id).render ∉
      targets (before ++ diamond j v no noValue yes yesValue ++ after) := by
    rw [split_branch]
    simp [Stmt.target, hfree, hnoYes, hnoAfter, targets_diamondEnd]
  rw [arrives_label_iff h.nodup hl]
  constructor
  · rintro ⟨s, hs, ⟨-, hp⟩ | htarget⟩
    · omega
    · exact absurd (List.mem_filterMap.mpr ⟨s, List.mem_of_getElem? hs, htarget⟩) hnone
  · rintro rfl
    exact ⟨_, getElem?_split (split_branch before after) rfl, .inl ⟨trivial, rfl⟩⟩

/-- The test jumps to the other branch, and the jump before it does not go on. -/
theorem Inner.arrives_yes (hl : (before ++ diamond j v no noValue yes yesValue ++ after)[
      before.length + no.length + 3 + 1]? = some (.label (Label.yes j.id).render)) :
    Arrives (before ++ diamond j v no noValue yes yesValue ++ after) p
      (before.length + no.length + 3 + 1) ↔ p = before.length := by
  have hyesAfter : (Label.yes j.id).render ≠ (Label.after j.id).render :=
    Label.render_ne trivial trivial (by simp)
  have hfree := h.jumps_elsewhere hno hyes (.inr (.inl rfl))
  rw [arrives_jumped_iff h.nodup hl (split_branch before after) rfl
    (by simp [Stmt.target, hfree, hyesAfter, targets_diamondEnd])]
  constructor
  · rintro (rfl | ⟨hp, s, hs, hfalls⟩)
    · rfl
    · obtain rfl : p = before.length + no.length + 3 := by omega
      rw [getElem?_jump] at hs
      cases hs
      exact hfalls.elim
  · exact .inl

/-- Both branches end in front of the choice, one of them with a jump. -/
theorem Inner.arrives_after :
    Arrives (before ++ diamond j v no noValue yes yesValue ++ after) p
      (before.length + no.length + yes.length + 5 + 1) ↔
        p = before.length + no.length + 3 ∨ p = before.length + no.length + yes.length + 5 := by
  have hafterYes : (Label.after j.id).render ≠ (Label.yes j.id).render :=
    Label.render_ne trivial trivial (by simp)
  have hfree := h.jumps_elsewhere hno hyes (.inr (.inr rfl))
  rw [arrives_jumped_iff h.nodup getElem?_after (split_jump before after) rfl
    (by simp [Stmt.target, hfree, hafterYes, targets_diamondEnd])]
  constructor
  · rintro (rfl | ⟨hp, -⟩)
    · exact .inl (by simp; omega)
    · exact .inr (by omega)
  · rintro (rfl | rfl)
    · exact .inl (by simp; omega)
    · exact .inr ⟨rfl, _, getElem?_split (split_move before after) (by simp; omega), trivial⟩

end

/-- The two branches of a conditional meet in its choice. -/
theorem joins_diamond (h : Inner before (diamond j v no noValue yes yesValue) after)
    (hno : Ends no) (hyes : Ends yes) (hnoForward : Forward no) (hyesForward : Forward yes) :
    Joins (before ++ diamond j v no noValue yes yesValue ++ after)
      [((Label.yes j.id).render, j.yes), ((Label.no j.id).render, j.no)]
      before.length (before.length + no.length + 3) (before.length + no.length + yes.length + 5)
      (Label.yes j.id).render (Label.no j.id).render (Label.after j.id).render where
  test := ⟨v, getElem?_split (split_branch before after) rfl⟩
  noBranch := h.isBranch_no hno hyesForward
  yesBranch := h.isBranch_yes hnoForward hyes
  jump := getElem?_jump
  label := getElem?_after
  arrives _ := h.arrives_after hnoForward hyesForward
  toNo _ := h.arrives_no hnoForward hyesForward (h.isBranch_no hno hyesForward).label
  toYes _ := h.arrives_yes hnoForward hyesForward (h.isBranch_yes hnoForward hyes).label
  sources := rfl

end

/-! ## Programs -/

section

variable {m n n' k : Nat} {B B' : List Nat} {before c c' after : List Stmt} {t : Temp}
  {sources : List (String × Temp)}

/-- A choice of a conditional is the one where its branches meet, or it is in a branch. -/
theorem phi_diamond {j : Lower.Join} {v : Operand} {no yes : List Stmt} {noValue yesValue : Rhs}
    (h : (diamond j v no noValue yes yesValue)[k]? = some (.phi t sources)) :
    (∃ i, no[i]? = some (.phi t sources) ∧ k = i + 2) ∨
      (∃ i, yes[i]? = some (.phi t sources) ∧ k = no.length + 5 + i) ∨
      k = no.length + yes.length + 7 ∧
        sources = [((Label.yes j.id).render, j.yes), ((Label.no j.id).render, j.no)] := by
  rcases k with _ | _ | k
  · cases h
  · cases h
  rw [diamond, List.getElem?_cons_succ, List.getElem?_cons_succ, List.getElem?_append] at h
  split at h
  · exact .inl ⟨k, h, rfl⟩
  next hk =>
  obtain ⟨i, rfl⟩ := Nat.exists_eq_add_of_le (Nat.le_of_not_lt hk)
  rw [Nat.add_sub_cancel_left] at h
  rcases i with _ | _ | _ | i
  · cases h
  · cases h
  · cases h
  simp only [List.getElem?_cons_succ, List.getElem?_append] at h
  split at h
  · exact .inr (.inl ⟨i, h, by omega⟩)
  next hi =>
  obtain ⟨i, rfl⟩ := Nat.exists_eq_add_of_le (Nat.le_of_not_lt hi)
  rw [Nat.add_sub_cancel_left] at h
  rcases i with _ | _ | _ | i
  · cases h
  · cases h
  · cases h
    exact .inr (.inr ⟨by omega, rfl⟩)
  · cases h

/-- Two branches meet in each choice of the statements between others. -/
def Joined (before mid after : List Stmt) : Prop :=
  ∀ k t sources, mid[k]? = some (.phi t sources) →
    Meets (before ++ mid ++ after) (before.length + k) sources

theorem Joined.append (h : Joined before c (c' ++ after)) (h' : Joined (before ++ c) c' after) :
    Joined before (c ++ c') after := by
  have hsplit : before ++ (c ++ c') ++ after = before ++ c ++ (c' ++ after) := by simp
  intro k t sources hk
  rw [List.getElem?_append] at hk
  split at hk
  · rw [hsplit]
    exact h k t sources hk
  · next hlt =>
    obtain ⟨k, rfl⟩ := Nat.exists_eq_add_of_le (Nat.le_of_not_lt hlt)
    rw [Nat.add_sub_cancel_left] at hk
    have hmeets := h' k t sources hk
    rwa [List.append_assoc, List.length_append, Nat.add_assoc, ← hsplit] at hmeets

theorem joined_move (before after : List Stmt) (t : Temp) (source : Rhs) :
    Joined before [.move t source] after := by
  intro k t' sources hk
  cases k with
  | zero => cases hk
  | succ k => cases hk

/-- In statements of the shapes of blocks, two branches meet in each choice. -/
theorem Flows.joined (h : Flows m n B (.stmts c) n' B') (hinner : Inner before c after) :
    Joined before c after := by
  generalize hp : Part.stmts c = p at h
  induction h generalizing c before after with
  | value | tag | untag | call | func => cases hp
  | nil =>
    cases hp
    intro k t sources hk
    cases hk
  | @assign _ _ _ _ _ t source ss _ _ _ _ ih =>
    cases hp
    exact (joined_move before _ t source).append (ih hinner.behind_move rfl)
  | @staged _ _ _ _ _ x source ss _ _ _ _ ih =>
    cases hp
    exact (joined_move before _ ⟨x, none⟩ source).append (ih hinner.behind_move rfl)
  | cond _ hno _ hyes _ _ _ _ _ _ hrest ihno _ ihyes _ ih =>
    cases hp
    have hdiamond := hinner.left hrest.forward
    refine Joined.append (fun k t sources hk ↦ ?_)
      (ih (hinner.right (forward_diamond hno.forward hyes.forward)) rfl)
    rcases phi_diamond hk with ⟨i, hi, rfl⟩ | ⟨i, hi, rfl⟩ | ⟨rfl, rfl⟩
    · have hmeets := ihno (hdiamond.no_part hyes.forward) rfl i t sources hi
      convert hmeets using 1
      · simp [diamond, diamondEnd, meet]
      · simp
        omega
    · have hmeets := ihyes (hdiamond.yes_part hno.forward) rfl i t sources hi
      convert hmeets using 1
      · simp [diamond, meet]
      · simp
        omega
    · exact ⟨_, _, _, _, _, _, by omega,
        joins_diamond hdiamond hno.ends hyes.ends hno.forward hyes.forward⟩

end

/-- The labels name the basic blocks from which control comes, if and only if no branch contains a
conditional. -/
theorem Joins.namesArrivals_iff {stmts : List Stmt} {sources : List (String × Temp)} {i q r : Nat}
    {yes no after : String} (h : Joins stmts sources i q r yes no after)
    (hnodup : (stmtLabels stmts).Nodup) : NamesArrivals stmts (r + 1) sources ↔
      ¬ Branching stmts (i + 1) q ∧ ¬ Branching stmts (q + 1) r := by
  have hplace : ∀ {p p' : Nat} {l}, stmts[p]? = some (.label l) →
      stmts[p']? = some (.label l) → p = p' := by
    intro p p' l hp hp'
    have hplace := place_of_label hnodup hp
    rw [place_of_label hnodup hp'] at hplace
    exact (Option.some.inj hplace).symm
  have hiq := h.noBranch.lt
  have hqr := h.yesBranch.lt
  have harrivesQ := (h.arrives q).mpr (.inl rfl)
  have harrivesR := (h.arrives r).mpr (.inr rfl)
  rw [NamesArrivals, h.sources]
  constructor
  · intro hnames
    -- the label of the last block of a branch with a conditional stands inside the branch
    have hnone : ∀ {l first last}, IsBranch stmts l first last → Arrives stmts last (r + 1) →
        first = i + 1 ∧ last = q ∨ first = q + 1 ∧ last = r → ¬ Branching stmts first last := by
      intro l first last hbranch harrives hbounds hbranching
      obtain ⟨p, l', _, _, hlt, hle, hp, -, hheads⟩ := hbranch.joined hbranching
      have hl' := (hnames l').mpr ⟨last, harrives, hheads⟩
      rw [List.mem_pair] at hl'
      rcases hl' with rfl | rfl
      · have hp := hplace hp h.yesBranch.label
        omega
      · have hp := hplace hp h.noBranch.label
        omega
    exact ⟨hnone h.noBranch harrivesQ (.inl ⟨rfl, rfl⟩),
      hnone h.yesBranch harrivesR (.inr ⟨rfl, rfl⟩)⟩
  · rintro ⟨hno, hyes⟩ l
    have hnoHeads := h.noBranch.head.mpr hno
    have hyesHeads := h.yesBranch.head.mpr hyes
    rw [List.mem_pair]
    constructor
    · rintro (rfl | rfl)
      · exact ⟨r, harrivesR, hyesHeads⟩
      · exact ⟨q, harrivesQ, hnoHeads⟩
    · rintro ⟨p, harrives, hheads⟩
      rcases (h.arrives p).mp harrives with rfl | rfl
      · exact .inr (hheads.unique hnoHeads)
      · exact .inl (hheads.unique hyesHeads)

/-- **Choices name branches.** A checked program is lowered to blocks in which each choice joins the
two branches of a conditional, with and without copies. Its labels are those at which the branches
start, and each branch is entered at its label only. They head the basic blocks from which control
comes to the choice, if and only if no branch contains a conditional. -/
theorem choices_name_branches {forms : List Form} {es : List Expr} {types : TypeTable}
    (h : checkProgram forms = .ok (es, types)) (s : Session) :
    ∃ program s', (do Session.blocks (← Session.lower es)).outcome s = (.ok program, s') ∧
      ∀ b ∈ program, ∀ e ∈ b.entries [], ∀ k t sources,
        e.block.stmts[k]? = some (.phi t sources) → ∃ i q r yes no after, k = r + 2 ∧
          Joins e.block.stmts sources i q r yes no after ∧
          (NamesArrivals e.block.stmts (r + 1) sources ↔
            ¬ Branching e.block.stmts (i + 1) q ∧ ¬ Branching e.block.stmts (q + 1) r) := by
  obtain ⟨program, s', houtcome, ⟨m, n, n', hshaped⟩, -⟩ := checked_blocks h s
  refine ⟨program, s', houtcome, fun b hb e he k t sources hk ↦ ?_⟩
  obtain ⟨n₁, n₂, hlabels, n₃, B, hflows, -⟩ := hshaped.entries b hb e he
  have hinner : Inner [] e.block.stmts [] := by
    constructor
    · simpa using hlabels
    · simp
  have hmeets := hflows.joined hinner k t sources hk
  rw [List.nil_append, List.append_nil, List.length_nil, Nat.zero_add] at hmeets
  obtain ⟨i, q, r, yes, no, after, hr, hjoins⟩ := hmeets
  exact ⟨i, q, r, yes, no, after, hr, hjoins, hjoins.namesArrivals_iff hlabels⟩

theorem nestedForms_branches : ∃ es types, checkProgram nestedForms = .ok (es, types) ∧
    ∃ program s', (do Session.blocks (← Session.lower es)).outcome (.start true)
        = (.ok program, s') ∧
      ∀ b ∈ program, ∀ e ∈ b.entries [], ∀ k t sources,
        e.block.stmts[k]? = some (.phi t sources) → ∃ i q r yes no after, k = r + 2 ∧
          Joins e.block.stmts sources i q r yes no after ∧
          (NamesArrivals e.block.stmts (r + 1) sources ↔
            ¬ Branching e.block.stmts (i + 1) q ∧ ¬ Branching e.block.stmts (q + 1) r) := by
  obtain ⟨es, types, h⟩ : ∃ es types, checkProgram nestedForms = .ok (es, types) := ⟨_, _, rfl⟩
  exact ⟨es, types, h, choices_name_branches h (.start true)⟩

/-- The inner conditional ends in a basic block of its own, which the outer choice does not name. -/
theorem nestedForms_unnamed : ∃ es types, checkProgram nestedForms = .ok (es, types) ∧
    ∃ program s', (do Session.blocks (← Session.lower es)).outcome (.start false)
        = (.ok program, s') ∧
      ∃ b ∈ program, ∃ e ∈ b.entries [], ∃ p l t sources,
        e.block.stmts[p]? = some (.label l) ∧ e.block.stmts[p + 1]? = some (.phi t sources) ∧
        ¬ NamesArrivals e.block.stmts p sources := by
  obtain ⟨es, types, hcheck, program, s', houtcome, b, hb, hend⟩ :
      ∃ es types, checkProgram nestedForms = .ok (es, types) ∧
      ∃ program s', (do Session.blocks (← Session.lower es)).outcome (.start false)
          = (.ok program, s') ∧
        ∃ b ∈ program, b.stmts.drop 15 = [.label "after_4",
          .phi ⟨7, "if_result"⟩ [("true_4", ⟨5, "if_true"⟩), ("false_4", ⟨6, "if_false"⟩)],
          .move ⟨1, "if_true"⟩ (.value (.temp ⟨7, "if_result"⟩)), .label "after_0",
          .phi ⟨3, "if_result"⟩ [("true_0", ⟨1, "if_true"⟩), ("false_0", ⟨2, "if_false"⟩)]] :=
    ⟨_, _, rfl, _, _, rfl, _, List.mem_cons_self, rfl⟩
  have hat : ∀ i, b.stmts[15 + i]? = (b.stmts.drop 15)[i]? := fun i ↦ List.getElem?_drop.symm
  rw [hend] at hat
  have hentry : ⟨[], b⟩ ∈ b.entries [] := by
    cases b
    exact List.mem_cons_self
  refine ⟨es, types, hcheck, program, s', houtcome, b, hb, ⟨[], b⟩, hentry, 18, _, _, _, hat 3,
    hat 4, fun hnames ↦ ?_⟩
  -- control comes from the block of the label at 15, through the statement at 17
  have hmem := (hnames "after_4").mpr ⟨17, ⟨_, hat 2, .inl ⟨trivial, rfl⟩⟩, 15, by decide, hat 0,
    fun i l hlt hle ↦ ?_, fun i s hle hlt hs ↦ ?_⟩
  · revert hmem
    decide
  · obtain rfl | rfl : i = 16 ∨ i = 17 := by omega
    · exact fun h ↦ nomatch (hat 1).symm.trans h
    · exact fun h ↦ nomatch (hat 2).symm.trans h
  · obtain rfl | rfl : i = 15 ∨ i = 16 := by omega
    · cases (hat 0).symm.trans hs
      rfl
    · cases (hat 1).symm.trans hs
      rfl

end TaggedLisp.Ir
