import TaggedLisp.Proofs.Ir.Flattening

/-!
# Numbers of temporaries

No temporary of a program is introduced twice. Lowering draws a number for each temporary that it
introduces; flattening introduces those of the tree, if it does not leave out the function that they
are in, and draws a number for each of its own.

Numbers are counted. `Draws` says how often a number may be introduced at most, given how often it
was introduced before, so it does not matter in which order the parts of a tree are flattened.
-/

namespace TaggedLisp.Ir

/-! ## What is introduced -/

/-- The temporary that a statement assigns. -/
def Stmt.dest : Stmt → Option Nat
  | move t _ | phi t _ => some t.id
  | jump _ | branch _ _ | label _ => none

/-- The temporaries that statements assign. -/
def dests (stmts : List Stmt) : List Nat := stmts.filterMap Stmt.dest

/-- A block that is run on its own, and the temporaries that have their words when it is entered. -/
structure Entry where
  known : List Nat
  block : Block

/-- The temporaries that are introduced where a block is entered or in its statements. -/
def Entry.introduced (e : Entry) : List Nat := e.known ++ dests e.block.stmts

mutual

/-- A block that is entered where `known` have their words, and the bodies of the functions in it.
Those start with the captured variables and the parameters. -/
def Block.entries (known : List Nat) : Block → List Entry
  | .mk stmts value => ⟨known, .mk stmts value⟩ :: (entriesOfStmts stmts ++ value.entries)

def Rhs.entries : Rhs → List Entry
  | .func head captures body => body.entries (innerIds head captures)
  | .value _ | .tag _ _ | .untag _ | .call _ _ => []

def entriesOfStmts : List Stmt → List Entry
  | [] => []
  | s :: ss => s.entries ++ entriesOfStmts ss

def Stmt.entries : Stmt → List Entry
  | .move _ source => source.entries
  | .jump _ | .branch _ _ | .phi _ _ | .label _ => []

end

/-- The temporaries that are introduced in a program, as often as they are. -/
def introduced (bs : List Block) : List Nat :=
  bs.flatMap fun b ↦ (b.entries []).flatMap Entry.introduced

/-- The temporaries that are introduced in a computation. -/
def Rhs.introduced (source : Rhs) : List Nat := source.entries.flatMap Entry.introduced

/-- The temporaries that are introduced in statements. -/
def introducedInStmts (stmts : List Stmt) : List Nat :=
  dests stmts ++ (entriesOfStmts stmts).flatMap Entry.introduced

mutual

/-- The temporaries that are introduced in a tree. -/
def Tree.introduced : Tree → List Nat
  | .const _ | .temp _ => []
  | .tag _ e | .untag e => e.introduced
  | .call callee args => introducedInTrees args ++ callee.introduced
  | .func head captures body =>
    introducedInSources captures ++ (innerIds head captures ++ body.introduced)
  | .after effect e => effect.introduced ++ e.introduced

def introducedInTrees : List Tree → List Nat
  | [] => []
  | e :: es => e.introduced ++ introducedInTrees es

def introducedInSources : List (Cell × Tree) → List Nat
  | [] => []
  | (_, e) :: cs => e.introduced ++ introducedInSources cs

def Effect.introduced : Effect → List Nat
  | .move t e => e.introduced ++ [t.id]
  | .seq effects => introducedInEffects effects
  | .branch e _ | .eval e => e.introduced
  | .phi t _ => [t.id]
  | .jump _ | .label _ => []

def introducedInEffects : List Effect → List Nat
  | [] => []
  | s :: ss => s.introduced ++ introducedInEffects ss

end

section

variable {c c' : List Stmt} {n n₁ n₂ n' : Nat} {old old' new new' : List Nat}

@[simp] theorem dests_append (c c' : List Stmt) : dests (c ++ c') = dests c ++ dests c' :=
  List.filterMap_append

@[simp] theorem entriesOfStmts_append (c c' : List Stmt) :
    entriesOfStmts (c ++ c') = entriesOfStmts c ++ entriesOfStmts c' := by
  induction c with
  | nil => rfl
  | cons s ss ih => rw [List.cons_append, entriesOfStmts, entriesOfStmts, ih, List.append_assoc]

@[simp] theorem count_introducedInStmts_append (c c' : List Stmt) (x : Nat) :
    (introducedInStmts (c ++ c')).count x
      = (introducedInStmts c).count x + (introducedInStmts c').count x := by
  simp only [introducedInStmts, dests_append, entriesOfStmts_append, List.flatMap_append,
    List.count_append]
  omega

theorem introducedInStmts_move (t : Temp) (source : Rhs) :
    introducedInStmts [.move t source] = t.id :: source.introduced := by
  simp [introducedInStmts, dests, Stmt.dest, entriesOfStmts, Stmt.entries, Rhs.introduced]

theorem count_introducedInStmts_cons_move (t : Temp) (source : Rhs) (c : List Stmt) (x : Nat) :
    (introducedInStmts (.move t source :: c)).count x
      = [t.id].count x + source.introduced.count x + (introducedInStmts c).count x := by
  have hcons : Stmt.move t source :: c = [Stmt.move t source] ++ c := rfl
  rw [hcons, count_introducedInStmts_append, introducedInStmts_move, ← List.singleton_append,
    List.count_append]

theorem count_introduced_func (head : FuncHead) (captures : List (Cell × Operand))
    (stmts : List Stmt) (value : Rhs) (x : Nat) :
    (Rhs.func head captures (.mk stmts value)).introduced.count x
      = (innerIds head captures).count x + (introducedInStmts stmts).count x
        + value.introduced.count x := by
  simp only [Rhs.introduced, Rhs.entries, Block.entries, List.flatMap_cons, List.flatMap_append,
    Entry.introduced, Block.stmts, introducedInStmts, List.count_append]
  omega

theorem count_introducedInStmts_diamond (j : Lower.Join) (v : Operand) (no : List Stmt)
    (noValue : Rhs) (yes : List Stmt) (yesValue : Rhs) (x : Nat) :
    (introducedInStmts (diamond j v no noValue yes yesValue)).count x
      = (introducedInStmts no).count x + noValue.introduced.count x
        + (introducedInStmts yes).count x + yesValue.introduced.count x
        + [j.no.id, j.yes.id, j.result.id].count x := by
  have hbranch : ∀ v l l' c, introducedInStmts (.branch v l :: .label l' :: c)
      = introducedInStmts c := fun _ _ _ _ ↦ rfl
  have hjump : ∀ l l' c, introducedInStmts (.jump l :: .label l' :: c) = introducedInStmts c :=
    fun _ _ _ ↦ rfl
  have hphi : ∀ l t ts, introducedInStmts [.label l, .phi t ts] = [t.id] := fun _ _ _ ↦ rfl
  simp only [diamond, hbranch, hjump, hphi, count_introducedInStmts_append,
    count_introducedInStmts_cons_move, List.count_cons, List.count_nil]
  omega

theorem count_introduced_cons (stmts : List Stmt) (value : Rhs) (bs : List Block) (x : Nat) :
    (introduced (.mk stmts value :: bs)).count x = (introducedInStmts stmts).count x
      + value.introduced.count x + (introduced bs).count x := by
  simp only [introduced, List.flatMap_cons, Block.entries, List.flatMap_append, Entry.introduced,
    Block.stmts, introducedInStmts, Rhs.introduced, List.count_append, List.count_nil]
  omega

/-! ## How often numbers are introduced -/

/-- Each number is introduced in `new` as often as in `old` at most, and once more if it is one of
those from `n` on and below `n'`. -/
structure Draws (n n' : Nat) (old new : List Nat) : Prop where
  le : n ≤ n'
  count : ∀ x, new.count x ≤ old.count x + if n ≤ x ∧ x < n' then 1 else 0

namespace Draws

theorem refl (n : Nat) (l : List Nat) : Draws n n l l :=
  ⟨Nat.le_refl n, fun _ ↦ Nat.le_add_right _ _⟩

theorem fresh (n : Nat) : Draws n (n + 1) [] [n] := by
  refine ⟨Nat.le_succ n, fun x ↦ ?_⟩
  rw [List.count_singleton]
  by_cases h : n = x
  · subst h
    simp
  · simp [h]

/-- What is drawn for one part is not drawn for the next one. -/
theorem append (h : Draws n n₁ old new) (h' : Draws n₁ n' old' new') :
    Draws n n' (old ++ old') (new ++ new') where
  le := Nat.le_trans h.le h'.le
  count x := by
    have hle := h.le
    have hle' := h'.le
    have hcount := h.count x
    have hcount' := h'.count x
    rw [List.count_append, List.count_append]
    split_ifs at * <;> omega

/-- Where numbers stand does not matter. -/
theorem of_count (h : Draws n n' old new) (hold : ∀ x, old.count x ≤ old'.count x)
    (hnew : ∀ x, new'.count x ≤ new.count x) : Draws n n' old' new' where
  le := h.le
  count x := by
    have hcount := h.count x
    have hold := hold x
    have hnew := hnew x
    omega

theorem range' (n k : Nat) : Draws n (n + k) [] (List.range' n k) := by
  induction k generalizing n with
  | zero => exact refl n []
  | succ k ih =>
    have := (fresh n).append (ih (n + 1))
    rwa [Nat.add_right_comm, Nat.add_assoc] at this

/-- Numbers that were drawn one after another are different. -/
theorem nodup {lo hi : Nat} (h : Draws lo hi [] old) (h' : Draws n n' old new) (hn : hi ≤ n) :
    new.Nodup := by
  refine List.nodup_iff_count_le_one.mpr fun x ↦ ?_
  have hcount := h.count x
  have hcount' := h'.count x
  rw [List.count_nil] at hcount
  split_ifs at * <;> omega

end Draws

end

/-! ## Flattening -/

section

variable {n n₁ n' : Nat} {e : Tree} {stmts stmts' : List Stmt} {value : Rhs} {v : Operand}

theorem Flatten.run_bind_eq {α β : Type} {p : Flatten α} {f : α → Flatten β} {b : β} :
    (p >>= f).run n = (b, n') ↔ ∃ a n₁, p.run n = (a, n₁) ∧ (f a).run n₁ = (b, n') := by
  rw [StateT.run_bind]
  constructor
  · exact fun h ↦ ⟨_, _, rfl, h⟩
  · rintro ⟨a, n₁, hp, hf⟩
    rw [hp]
    exact hf

theorem Draws.operand (h : Draws n n₁ e.introduced (introducedInStmts stmts ++ value.introduced))
    (ho : (Flatten.operand e stmts value).run n₁ = ((stmts', v), n')) :
    Draws n n' e.introduced (introducedInStmts stmts') := by
  have hsame : Draws n n₁ e.introduced (introducedInStmts stmts) :=
    h.of_count (fun _ ↦ Nat.le_refl _) fun x ↦ by simp
  have hstaged : Draws n (n₁ + 1) e.introduced
      (introducedInStmts (stmts ++ [Stmt.move ⟨n₁, none⟩ value])) := by
    refine (h.append (.fresh n₁)).of_count (fun x ↦ by simp) fun x ↦ ?_
    simp only [count_introducedInStmts_append, introducedInStmts_move, List.count_append,
      List.count_cons, List.count_nil]
    omega
  cases e with
  | const c =>
    cases ho
    exact hsame
  | temp t =>
    cases ho
    exact hsame
  | _ =>
    cases ho
    exact hstaged

end

mutual

/-- A tree is flattened to statements and a computation that introduce what it introduces, and
numbers that are drawn. -/
theorem Tree.draws_flatten (e : Tree) {n n' : Nat} {stmts : List Stmt} {value : Rhs}
    (h : e.flatten.run n = ((stmts, value), n')) :
    Draws n n' e.introduced (introducedInStmts stmts ++ value.introduced) :=
  match e with
  | .const c => by
    cases h
    exact .refl n _
  | .temp t => by
    cases h
    exact .refl n _
  | .tag g e => by
    rw [Tree.flatten] at h
    obtain ⟨⟨stmts, value⟩, n₁, he, h⟩ := Flatten.run_bind_eq.mp h
    obtain ⟨⟨stmts', v⟩, n₂, ho, h⟩ := Flatten.run_bind_eq.mp h
    cases h
    have hoperand := (e.draws_flatten he).operand ho
    exact hoperand.of_count (fun _ ↦ Nat.le_refl _) fun x ↦ by simp [Rhs.introduced, Rhs.entries]
  | .untag e => by
    rw [Tree.flatten] at h
    obtain ⟨⟨stmts, value⟩, n₁, he, h⟩ := Flatten.run_bind_eq.mp h
    obtain ⟨⟨stmts', v⟩, n₂, ho, h⟩ := Flatten.run_bind_eq.mp h
    cases h
    have hoperand := (e.draws_flatten he).operand ho
    exact hoperand.of_count (fun _ ↦ Nat.le_refl _) fun x ↦ by simp [Rhs.introduced, Rhs.entries]
  | .call callee args => by
    rw [Tree.flatten] at h
    obtain ⟨⟨argStmts, vs⟩, n₁, hargs, h⟩ := Flatten.run_bind_eq.mp h
    obtain ⟨⟨stmts, value⟩, n₂, he, h⟩ := Flatten.run_bind_eq.mp h
    obtain ⟨⟨stmts', v⟩, n₃, ho, h⟩ := Flatten.run_bind_eq.mp h
    cases h
    have hoperand := (callee.draws_flatten he).operand ho
    refine (((draws_flattenOperands args hargs).append hoperand).append (.fresh n₃)).of_count
      (fun x ↦ by simp [Tree.introduced]) fun x ↦ ?_
    simp only [List.count_append, count_introducedInStmts_append, introducedInStmts_move,
      Rhs.introduced, Rhs.entries, List.flatMap_nil, List.count_nil]
    omega
  | .func head captures body => by
    rw [Tree.flatten] at h
    obtain ⟨⟨stmts, vs⟩, n₁, hcaptures, h⟩ := Flatten.run_bind_eq.mp h
    obtain ⟨⟨inner, value⟩, n₂, hbody, h⟩ := Flatten.run_bind_eq.mp h
    cases h
    obtain ⟨hdraws, hcells⟩ := draws_flattenCaptures captures hcaptures
    have hids : innerIds head vs = innerIds head captures := by
      have := congrArg (List.map (·.slot.id)) hcells
      simp only [List.map_map] at this
      exact congrArg (· ++ _) this
    refine (hdraws.append ((Draws.refl _ (innerIds head captures)).append
      (body.draws_flatten hbody))).of_count (fun _ ↦ Nat.le_refl _) fun x ↦ ?_
    simp only [List.count_append, count_introduced_func, hids]
    omega
  | .after effect e => by
    rw [Tree.flatten] at h
    obtain ⟨first, n₁, heffect, h⟩ := Flatten.run_bind_eq.mp h
    obtain ⟨⟨stmts, value⟩, n₂, he, h⟩ := Flatten.run_bind_eq.mp h
    cases h
    refine ((effect.draws_flatten heffect).append (e.draws_flatten he)).of_count
      (fun x ↦ by simp [Tree.introduced]) fun x ↦ ?_
    simp only [List.count_append, count_introducedInStmts_append]
    omega

theorem draws_flattenOperands (es : List Tree) {n n' : Nat} {stmts : List Stmt} {vs : List Operand}
    (h : (flattenOperands es).run n = ((stmts, vs), n')) :
    Draws n n' (introducedInTrees es) (introducedInStmts stmts) :=
  match es with
  | [] => by
    cases h
    exact .refl n _
  | e :: es => by
    rw [flattenOperands] at h
    obtain ⟨⟨first, value⟩, n₁, he, h⟩ := Flatten.run_bind_eq.mp h
    obtain ⟨⟨first', v⟩, n₂, ho, h⟩ := Flatten.run_bind_eq.mp h
    obtain ⟨⟨rest, vs'⟩, n₃, hes, h⟩ := Flatten.run_bind_eq.mp h
    cases h
    exact (((e.draws_flatten he).operand ho).append (draws_flattenOperands es hes)).of_count
      (fun _ ↦ Nat.le_refl _) fun x ↦ by simp

theorem draws_flattenCaptures (cs : List (Cell × Tree)) {n n' : Nat} {stmts : List Stmt}
    {vs : List (Cell × Operand)} (h : (flattenCaptures cs).run n = ((stmts, vs), n')) :
    Draws n n' (introducedInSources cs) (introducedInStmts stmts) ∧
      vs.map Prod.fst = cs.map Prod.fst :=
  match cs with
  | [] => by
    cases h
    exact ⟨.refl n _, rfl⟩
  | (cell, e) :: cs => by
    rw [flattenCaptures] at h
    obtain ⟨⟨first, value⟩, n₁, he, h⟩ := Flatten.run_bind_eq.mp h
    obtain ⟨⟨first', v⟩, n₂, ho, h⟩ := Flatten.run_bind_eq.mp h
    obtain ⟨⟨rest, vs'⟩, n₃, hcs, h⟩ := Flatten.run_bind_eq.mp h
    cases h
    obtain ⟨hdraws, hcells⟩ := draws_flattenCaptures cs hcs
    refine ⟨(((e.draws_flatten he).operand ho).append hdraws).of_count
      (fun _ ↦ Nat.le_refl _) fun x ↦ by simp, ?_⟩
    rw [List.map_cons, List.map_cons, hcells]

theorem Effect.draws_flatten (s : Effect) {n n' : Nat} {stmts : List Stmt}
    (h : s.flatten.run n = (stmts, n')) : Draws n n' s.introduced (introducedInStmts stmts) :=
  match s with
  | .move t e => by
    rw [Effect.flatten] at h
    obtain ⟨⟨stmts, value⟩, n₁, he, h⟩ := Flatten.run_bind_eq.mp h
    cases h
    refine ((e.draws_flatten he).append (.refl _ [t.id])).of_count (fun _ ↦ Nat.le_refl _)
      fun x ↦ ?_
    rw [count_introducedInStmts_append, introducedInStmts_move]
    simp only [List.count_append, List.count_cons, List.count_nil]
    omega
  | .seq effects => draws_flattenEffects effects h
  | .jump l => by
    cases h
    exact .refl n _
  | .branch e l => by
    rw [Effect.flatten] at h
    obtain ⟨⟨stmts, value⟩, n₁, he, h⟩ := Flatten.run_bind_eq.mp h
    obtain ⟨⟨stmts', v⟩, n₂, ho, h⟩ := Flatten.run_bind_eq.mp h
    cases h
    have hbranch : introducedInStmts [.branch v l] = [] := rfl
    exact ((e.draws_flatten he).operand ho).of_count (fun _ ↦ Nat.le_refl _) fun x ↦ by
      simp [hbranch]
  | .phi t sources => by
    cases h
    exact .refl n _
  | .label l => by
    cases h
    exact .refl n _
  | .eval e => by
    rw [Effect.flatten] at h
    obtain ⟨⟨stmts, value⟩, n₁, he, h⟩ := Flatten.run_bind_eq.mp h
    cases h
    exact (e.draws_flatten he).of_count (fun _ ↦ Nat.le_refl _) fun x ↦ by simp

theorem draws_flattenEffects (ss : List Effect) {n n' : Nat} {stmts : List Stmt}
    (h : (flattenEffects ss).run n = (stmts, n')) :
    Draws n n' (introducedInEffects ss) (introducedInStmts stmts) :=
  match ss with
  | [] => by
    cases h
    exact .refl n _
  | s :: ss => by
    rw [flattenEffects] at h
    obtain ⟨first, n₁, hs, h⟩ := Flatten.run_bind_eq.mp h
    obtain ⟨rest, n₂, hss, h⟩ := Flatten.run_bind_eq.mp h
    cases h
    exact ((s.draws_flatten hs).append (draws_flattenEffects ss hss)).of_count
      (fun _ ↦ Nat.le_refl _) fun x ↦ by simp

end

/-! ## Lowering -/

/-- What is introduced in trees. -/
def Grove.introduced : Grove → List Nat
  | tree e => e.introduced
  | trees es => introducedInTrees es

theorem introducedInSources_eq (cs : List (Cell × Tree)) :
    introducedInSources cs = introducedInTrees (cs.map Prod.snd) := by
  induction cs with
  | nil => rfl
  | cons c cs ih => rw [introducedInSources, List.map_cons, introducedInTrees, ih]

/-- Everything that is introduced in a lowered tree was drawn for it. -/
theorem Made.draws {K : List Nat} {lo hi : Nat} {g : Grove} (h : Made K lo hi g) :
    Draws lo hi [] g.introduced := by
  induction h with
  | const | temp _ | nil => exact .refl _ _
  | tag _ ih | untag _ ih => exact ih
  | call _ _ ihcallee ihargs =>
    refine (ihcallee.append ihargs).of_count (fun _ ↦ Nat.le_refl _) fun x ↦ ?_
    simp only [Grove.introduced, Tree.introduced, List.count_append]
    omega
  | @func _ lo mid k hi head captures body _ hinner _ ihsources ihbody =>
    have hown := ((ihsources.append (.fresh mid)).append (.range' (mid + 1) k)).append ihbody
    refine hown.of_count (fun _ ↦ Nat.le_refl _) fun x ↦ ?_
    simp only [Grove.introduced, Tree.introduced, introducedInSources_eq, hinner, List.count_append]
    omega
  | @cond _ lo mid₁ mid₂ hi j test yes no hj _ _ _ ihtest ihyes ihno =>
    obtain ⟨-, ⟨hyes, -⟩, ⟨hno, -⟩, hresult, -⟩ := hj
    have hfirst : List.range' lo 4 = [lo, lo + 1, lo + 2, lo + 3] := rfl
    have hown := (((Draws.range' lo 4).append ihtest).append ihyes).append ihno
    refine hown.of_count (fun _ ↦ Nat.le_refl _) fun x ↦ ?_
    simp only [Grove.introduced, Lower.cond, Tree.introduced, Effect.introduced,
      introducedInEffects, hyes, hno, hresult, hfirst, List.count_append,
      List.count_cons, List.count_nil]
    omega
  | body _ ih => exact ih
  | bind _ _ _ ihvalue ihrest =>
    refine ((ihvalue.append (.fresh _)).append ihrest).of_count (fun _ ↦ Nat.le_refl _) fun x ↦ ?_
    simp only [Grove.introduced, Tree.introduced, Effect.introduced, introducedInEffects,
      List.count_append]
    omega
  | step _ _ ihe ihrest =>
    refine (ihe.append ihrest).of_count (fun _ ↦ Nat.le_refl _) fun x ↦ ?_
    simp only [Grove.introduced, Tree.introduced, Effect.introduced, introducedInEffects,
      List.count_append]
    omega
  | name _ _ ihvalue =>
    refine (ihvalue.append (.fresh _)).of_count (fun _ ↦ Nat.le_refl _) fun x ↦ ?_
    simp only [Grove.introduced, Tree.introduced, Effect.introduced, List.count_append,
      List.count_nil]
    omega
  | cons _ _ ihe ihes => exact ihe.append ihes

/-! ## Programs -/

/-- The blocks of trees introduce what the trees introduce, and numbers that are drawn. -/
theorem draws_blocks {es : List Tree} {bs : List Block} {n n' : Nat}
    (h : (blocks es).run n = (bs, n')) : Draws n n' (introducedInTrees es) (introduced bs) := by
  induction es generalizing n bs with
  | nil =>
    cases h
    exact .refl _ _
  | cons e es ih =>
    rw [blocks] at h
    obtain ⟨b, n₁, hb, h⟩ := Flatten.run_bind_eq.mp h
    obtain ⟨bs, n₂, hbs, h⟩ := Flatten.run_bind_eq.mp h
    cases h
    rw [Tree.block] at hb
    obtain ⟨⟨stmts, value⟩, n₂, he, hb⟩ := Flatten.run_bind_eq.mp hb
    cases hb
    refine ((e.draws_flatten he).append (ih hbs)).of_count (fun _ ↦ Nat.le_refl _) fun x ↦ ?_
    simp only [count_introduced_cons, List.count_append]
    omega

/-- No temporary of a program is introduced twice. -/
theorem nodup_introduced {K : List Nat} {lo hi n n' : Nat} {es : List Tree} {bs : List Block}
    (h : Made K lo hi (.trees es)) (hn : hi ≤ n) (hblocks : (blocks es).run n = (bs, n')) :
    (introduced bs).Nodup :=
  h.draws.nodup (draws_blocks hblocks) hn

end TaggedLisp.Ir
