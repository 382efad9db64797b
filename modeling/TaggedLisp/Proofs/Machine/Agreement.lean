import TaggedLisp.Proofs.Machine.Stack

/-!
# Variables and machine states

A state agrees with a translator if every name that the translator sees stands for a place that
holds the word of the name. The places are on the stack, in registers that are saved around calls,
or in the running closure, so what keeps these keeps the agreement: it survives every piece of code,
however many words are pushed by then.
-/

namespace TaggedLisp.Machine

variable {S : Setting} {σ τ : State} {t t' : Translator} {G G' ρ : String → Option Word}

/-! ## Places -/

/-- A word of memory that calls keep has a value. -/
def Setting.Has (S : Setting) (σ : State) (i : Nat) (w : Word) : Prop := S.Safe σ i ∧ σ.mem i = w

/-- The state after the tag of a register is cleared. -/
def State.untag (σ : State) (r : Reg) : State := σ.set r (σ.reg r).untagged

theorem slotAddress_index {k : Nat} (h : 8 * k ≤ (σ.reg .rbp).toNat) :
    (slotAddress k).index σ = (σ.reg .rbp).toNat - 8 * k := by
  have := (σ.reg .rbp).isLt
  change (σ.reg .rbp + BitVec.ofInt 64 (-(8 * k : Int))).toNat = _
  rw [BitVec.toNat_add, BitVec.toNat_ofInt]
  omega

/-- A place holds a word. -/
def Place.Holds (S : Setting) (a : Activation) (σ : State) (w : Word) : Place → Prop
  | .slot k => S.Has σ ((slotAddress k).index σ) w
  | .param i =>
    a.inFunction = true ∧ i < a.params ∧
      match argRegisters[i]? with
      | some r => σ.reg r = w
      | none => S.Has σ ((stackParamAddress (i - argRegisters.length)).index σ) w
  | .captured k =>
    a.inFunction = true ∧ S.Has σ ((Address.mk .rdi (8 * (k + 1))).index (σ.untag .rdi)) w
  | .current => a.inFunction = true ∧ σ.reg .rdi = w
  | .static l => closureWord S.address l = w

theorem Activation.rdi_mem {a : Activation} (h : a.inFunction = true) : .rdi ∈ a.liveRegisters := by
  simp [liveRegisters, h]

theorem Activation.param_mem {a : Activation} (h : a.inFunction = true) {i : Nat} {r : Reg}
    (hi : i < a.params) (hr : argRegisters[i]? = some r) : r ∈ a.liveRegisters := by
  rw [liveRegisters, if_pos h, List.mem_cons]
  exact Or.inr (List.mem_of_getElem? ((List.getElem?_take_of_lt hi).trans hr))

theorem Setting.Has.keeps {i k : Nat} {w : Word} {live : List Reg} (h : S.Has σ i w)
    (hk : Keeps S live k σ τ) : S.Has τ i w := ⟨hk.safe h.1, (hk.mem i h.1).trans h.2⟩

theorem Place.Holds.keeps {a : Activation} {w : Word} {p : Place} {k : Nat} (h : p.Holds S a σ w)
    (hk : Keeps S a.liveRegisters k σ τ) : p.Holds S a τ w := by
  have hindex : ∀ n, (Address.mk .rbp n).index τ = (Address.mk .rbp n).index σ := by
    intro n
    simp only [Address.index, Address.value, hk.rbp]
  cases p with
  | slot n =>
    rw [Holds, slotAddress, hindex]
    exact Setting.Has.keeps h hk
  | param i =>
    obtain ⟨hin, hi, h⟩ := h
    refine ⟨hin, hi, ?_⟩
    cases hr : argRegisters[i]? with
    | some r =>
      simp only [hr] at h ⊢
      rw [hk.live r (a.param_mem hin hi hr), h]
    | none =>
      simp only [hr, stackParamAddress, hindex] at h ⊢
      exact Setting.Has.keeps h hk
  | captured n =>
    refine ⟨h.1, ?_⟩
    have hrdi : (Address.mk .rdi (8 * (n + 1))).index (τ.untag .rdi)
        = (Address.mk .rdi (8 * (n + 1))).index (σ.untag .rdi) := by
      simp only [Address.index, Address.value, State.untag, State.reg_set_self,
        hk.live _ (a.rdi_mem h.1)]
    rw [hrdi]
    exact Setting.Has.keeps h.2 hk
  | current => exact ⟨h.1, (hk.live _ (a.rdi_mem h.1)).trans h.2⟩
  | static l => exact h

/-- A place holds one word. -/
theorem Place.Holds.unique {a : Activation} {p : Place} {w w' : Word} (h : p.Holds S a σ w)
    (h' : p.Holds S a σ w') : w = w' := by
  cases p with
  | slot n => exact h.2.symm.trans h'.2
  | param i =>
    obtain ⟨-, -, h⟩ := h
    obtain ⟨-, -, h'⟩ := h'
    cases hr : argRegisters[i]? with
    | some r =>
      simp only [hr] at h h'
      exact h.symm.trans h'
    | none =>
      simp only [hr] at h h'
      exact h.2.symm.trans h'.2
  | captured n => exact h.2.2.symm.trans h'.2.2
  | current => exact h.2.symm.trans h'.2
  | static l => exact h.symm.trans h'

/-! ## Agreement -/

private theorem rel_mono {α β : Type} {r r' : α → β → Prop} {a : Option α} {b : Option β}
    (h : Option.Rel r a b) (hr : ∀ a b, r a b → r' a b) : Option.Rel r' a b := by
  cases h with
  | some h => exact .some (hr _ _ h)
  | none => exact .none

/-- Every visible name stands for a place that holds the word of the name. Global names have the
words `G`, the others the words `ρ`. -/
structure Agrees (S : Setting) (t : Translator) (G ρ : String → Option Word) (σ : State) :
    Prop where
  visible : ∀ x, Option.Rel (fun p w ↦ p.Holds S t.activation σ w) (t.scopes.lookup x)
    ((ρ x).or (G x))
  isLocal : ∀ x, (ρ x).isSome = (t.scopes.locals.lookup x).isSome

/-- A name has a place that holds its word. -/
abbrev NameHolds (S : Setting) (a : Activation) (σ : State) (b : String × Place)
    (c : String × Word) : Prop := b.1 = c.1 ∧ b.2.Holds S a σ c.2

theorem rel_lookup {a : Activation} {bs : List (String × Place)} {cs : List (String × Word)}
    (h : List.Forall₂ (NameHolds S a σ) bs cs) (x : String) :
    Option.Rel (fun p w ↦ p.Holds S a σ w) (bs.lookup x) (cs.lookup x) := by
  induction h with
  | nil => exact .none
  | @cons b c _ _ hbc _ ih =>
    rw [List.lookup_cons, List.lookup_cons, hbc.1]
    split
    · exact .some hbc.2
    · exact ih

/-- The stack of an activation: the frame pointer lies above the words that were pushed. -/
structure Framed (depth : Nat) (σ : State) : Prop where
  aligned : σ.top % 8 = 0
  rbp : (σ.reg .rbp).toNat = σ.top + 8 * depth

theorem Framed.rbp_aligned {depth : Nat} (h : Framed depth σ) : (σ.reg .rbp).toNat % 8 = 0 := by
  have := h.aligned
  have := h.rbp
  omega

theorem Framed.keeps {depth k : Nat} {live : List Reg} (h : Framed depth σ)
    (hk : Keeps S live k σ τ) : Framed (depth + k) τ where
  aligned := by have := h.aligned; have := hk.top; omega
  rbp := by rw [hk.rbp, h.rbp, ← hk.top]; omega

namespace Agrees

theorem keeps {k : Nat} (h : Agrees S t G ρ σ) (hk : Keeps S t.activation.liveRegisters k σ τ) :
    Agrees S t G ρ τ where
  visible x := rel_mono (h.visible x) fun _ _ hp ↦ hp.keeps hk
  isLocal := h.isLocal

/-- A new frame shows what was seen before. -/
theorem enter (h : Agrees S t G ρ σ) (hs : t.scopes.WellFormed) :
    Agrees S { t with scopes := t.scopes.enter } G ρ σ where
  visible x := by
    rw [hs.enter.lookup_eq, hs.locals_enter, hs.globals_enter, ← hs.lookup_eq]
    exact h.visible x
  isLocal x := by
    rw [hs.locals_enter]
    exact h.isLocal x

theorem resolve (h : Agrees S t G ρ σ) {x : String} {p : Place} (hp : t.scopes.lookup x = some p) :
    ∃ w, (ρ x).or (G x) = some w ∧ p.Holds S t.activation σ w := by
  have := h.visible x
  rw [hp] at this
  generalize (ρ x).or (G x) = b at this
  cases this with
  | some h => exact ⟨_, rfl, h⟩

/-- What is said about places does not depend on the depth. -/
theorem of_activation (h : Agrees S t G ρ σ) {d : Nat} (hscopes : t'.scopes = t.scopes)
    (hact : t'.activation = { t.activation with depth := d }) : Agrees S t' G ρ σ where
  visible x := by
    rw [hscopes, hact]
    refine rel_mono (h.visible x) fun p w hp ↦ ?_
    cases p <;> exact hp
  isLocal := by rw [hscopes]; exact h.isLocal

/-- A new global name is hidden by a local one. -/
private theorem defineGlobal {s : Scopes Place} (hs : s.WellFormed) {a : Activation} (x : String)
    (l : Label)
    (visible : ∀ x, Option.Rel (fun p w ↦ p.Holds S a σ w) (s.lookup x) ((ρ x).or (G x)))
    (isLocal : ∀ x, (ρ x).isSome = (s.locals.lookup x).isSome) (y : String) :
    Option.Rel (fun p w ↦ p.Holds S a σ w) ((s.defineGlobal x (.static l)).lookup y)
      ((ρ y).or (if y = x then some (closureWord S.address l) else G y)) := by
  have hvis := visible y
  have hloc := isLocal y
  rw [hs.lookup_eq] at hvis
  rw [(hs.defineGlobal x _).lookup_eq, Scopes.locals_defineGlobal, hs.globals_defineGlobal,
    List.lookup_cons]
  cases hp : s.locals.lookup y with
  | some p =>
    obtain ⟨w, hw⟩ := Option.isSome_iff_exists.mp (hloc.trans (by rw [hp]; rfl))
    simpa [hp, hw] using hvis
  | none =>
    have hw : ρ y = none := by simpa [hp] using hloc
    by_cases hy : y = x
    · subst hy
      rw [hw, if_pos rfl, beq_self_eq_true]
      exact .some rfl
    · simpa [hp, hw, hy, beq_false_of_ne hy] using hvis

/-- New global names get the words of their closures. -/
theorem defineGlobals (h : Agrees S t G ρ σ) (hs : t.scopes.WellFormed)
    (ds : List (String × Label)) :
    Agrees S { t with scopes := t.scopes.defineGlobals .static ds }
      (closureWords S.address G ds) ρ σ := by
  induction ds generalizing t G with
  | nil => exact h
  | cons d ds ih =>
    obtain ⟨x, l⟩ := d
    refine ih (t := { t with scopes := t.scopes.defineGlobal x (.static l) }) ?_
      (hs.defineGlobal _ _)
    exact ⟨defineGlobal hs x l h.visible h.isLocal, by
      simpa [Scopes.locals_defineGlobal] using h.isLocal⟩

/-- What a translation adds to the global names, it adds on both sides. -/
theorem emits {d : Nat} {f : Statics → Statics} {c : List Instr} (h : Agrees S t G ρ σ)
    (hs : t.scopes.WellFormed) (he : Emits S.address t t' d f c) :
    ∃ G', f ⟨t.next, G⟩ = ⟨t'.next, G'⟩ ∧ Agrees S t' G' ρ σ := by
  obtain ⟨ds, hds, hf⟩ := he.scopes
  exact ⟨_, hf G, (h.defineGlobals hs ds).of_activation hds he.activation⟩

/-- The names that a translator sees have the words of a list if they have them one by one. -/
theorem of_forall₂ {locals globals : List (String × Word)} (hs : t.scopes.WellFormed)
    (hlocals : List.Forall₂ (NameHolds S t.activation σ) t.scopes.locals locals)
    (hglobals : List.Forall₂ (NameHolds S t.activation σ) t.scopes.globals globals) :
    Agrees S t (fun x ↦ globals.lookup x) (fun x ↦ locals.lookup x) σ where
  visible x := by
    rw [hs.lookup_eq]
    have hl := rel_lookup hlocals x
    have hg := rel_lookup hglobals x
    generalize t.scopes.locals.lookup x = p, locals.lookup x = w at hl
    cases hl with
    | some h => exact .some h
    | none => exact hg
  isLocal x := by
    have hl := rel_lookup hlocals x
    generalize t.scopes.locals.lookup x = p, locals.lookup x = w at hl
    cases hl <;> rfl

end Agrees

/-- A state in which a translator's code may start: names have their words, and the frame pointer
is where the depth says. -/
structure Ready (S : Setting) (t : Translator) (G ρ : String → Option Word) (σ : State) : Prop
    extends Agrees S t G ρ σ where
  framed : Framed t.activation.depth σ

namespace Ready

theorem emitted (h : Ready S t G ρ σ) {k : Nat} (hk : Keeps S t.activation.liveRegisters k σ τ)
    (c : List Instr) : Ready S (t.emitted c (t.activation.depth + k)) G ρ τ where
  toAgrees := (h.toAgrees.keeps hk).of_activation rfl rfl
  framed := h.framed.keeps hk

/-- The code of an expression leads from one such state to another. -/
theorem emits (h : Ready S t G ρ σ) (hs : t.scopes.WellFormed) {f : Statics → Statics}
    {c : List Instr} (he : Emits S.address t t' t.activation.depth f c)
    (hk : Keeps S t.activation.liveRegisters 0 σ τ) :
    ∃ G', f ⟨t.next, G⟩ = ⟨t'.next, G'⟩ ∧ Ready S t' G' ρ τ := by
  obtain ⟨G', hG', hagree⟩ := (h.toAgrees.keeps hk).emits hs he
  refine ⟨G', hG', hagree, ?_⟩
  rw [he.activation]
  exact h.framed.keeps hk

end Ready

/-! ## Loading variables -/

theorem labels_load (p : Place) : labels p.load = [] := by
  cases p with
  | param i =>
    simp only [Place.load]
    split <;> rfl
  | _ => rfl

namespace Executes

/-- The address of the object in `rdi`. -/
theorem untagged : Executes S [.mov .rax (.reg .rdi), .and .rax (~~~Tag.mask).toInt] σ (.done ())
    fun _ τ ↦ τ.reg .rax = (σ.reg .rdi).untagged ∧ Changes σ τ := by
  refine .next rfl (.next rfl (.nil ⟨?_, Changes.refl.rax.rax.test⟩))
  rw [State.reg_test, State.reg_set_self, State.reg_set_self, ofInt_toInt, Word.untagged]

/-- The code that loads a place. -/
theorem place {a : Activation} {w : Word} {p : Place} (h : p.Holds S a σ w)
    (hal : (σ.reg .rbp).toNat % 8 = 0) :
    Executes S p.load σ (.done ()) fun _ τ ↦ τ.reg .rax = w ∧ Changes σ τ := by
  cases p with
  | slot k =>
    have hmod : (slotAddress k).index σ % 8 = 0 := by
      have := toNat_add_mod_eight hal (-k)
      rwa [← Int.neg_mul_comm, ← Int.neg_mul_eq_neg_mul] at this
    exact .load rfl hmod (.nil ⟨by rw [State.reg_set_self, h.2], Changes.refl.rax⟩)
  | param i =>
    obtain ⟨-, -, h⟩ := h
    cases hr : argRegisters[i]? with
    | some r =>
      simp only [Place.load, hr] at h ⊢
      exact .next rfl (.nil ⟨by rw [State.reg_set_self, h], Changes.refl.rax⟩)
    | none =>
      simp only [Place.load, hr] at h ⊢
      have hmod : (stackParamAddress (i - argRegisters.length)).index σ % 8 = 0 := by
        have := toNat_add_mod_eight hal (2 + (i - argRegisters.length : Nat))
        rwa [Int.mul_add] at this
      exact .load rfl hmod (.nil ⟨by rw [State.reg_set_self, h.2], Changes.refl.rax⟩)
  | captured k =>
    obtain ⟨-, h⟩ := h
    have hmod : (Address.mk .rdi (8 * (k + 1))).index (σ.untag .rdi) % 8 = 0 := by
      rw [Address.index, Address.value, State.untag, State.reg_set_self]
      exact toNat_add_mod_eight (untagged_mod_eight _) (k + 1)
    have hload : (Place.captured k).load = [.mov .rax (.reg .rdi), .and .rax (~~~Tag.mask).toInt]
        ++ [.mov .rax (.memory ⟨.rax, 8 * (k + 1)⟩)] := rfl
    rw [hload]
    refine untagged.andThen ?_
    rintro τ ⟨hrax, hτ⟩
    have hindex : (Address.mk .rax (8 * (k + 1))).index τ
        = (Address.mk .rdi (8 * (k + 1))).index (σ.untag .rdi) := by
      simp only [Address.index, Address.value, State.untag, State.reg_set_self, hrax]
    refine .load rfl (hindex ▸ hmod) (.nil ⟨?_, hτ.rax⟩)
    rw [State.reg_set_self, hindex, hτ.mem, h.2]
  | current => exact .next rfl (.nil ⟨by rw [State.reg_set_self, h.2], Changes.refl.rax⟩)
  | static l =>
    refine .next rfl (.next rfl (.nil ⟨?_, Changes.refl.rax.rax.test⟩))
    rw [State.reg_test, State.reg_set_self, State.reg_set_self, ofInt_toInt]
    exact h

end Executes

end TaggedLisp.Machine
