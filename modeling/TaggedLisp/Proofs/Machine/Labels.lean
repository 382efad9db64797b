import TaggedLisp.Proofs.Expr.Induction
import TaggedLisp.Proofs.Machine.Functions
import TaggedLisp.Proofs.Spelling

/-!
# The labels of a program

Code and data define labels and mention them: jumps and calls go to labels, loads take addresses of
data, and a closure in the data section holds the address of its code. `label_integrity` says that
the assembler finds each label that is mentioned exactly once.

A construct may mention a label before it is defined: a conditional jumps to what stands behind it,
and the body of a function without captures may name the closure that is written when the body is
done. `Linked` says what is defined by a piece of a translation, and which labels it needs in
addition to those that were known before; what a construct needs, it defines itself in the end.
-/

namespace TaggedLisp.Machine

open Translate

variable {t t' t'' : Translator} {ls ls' needs needs' : List Label} {c : List Instr}

/-! ## Defined and mentioned labels -/

/-- The labels that an instruction mentions. -/
def Instr.mentions : Instr → List Label
  | mov _ (.label l) | jmp l | je l | jne l | call l => [l]
  | _ => []

/-- The label of a piece of data. -/
def Datum.label : Datum → Label
  | text l _ | closure l _ => l

/-- The labels that a piece of data mentions. -/
def Datum.mentions : Datum → List Label
  | text _ _ => []
  | closure _ code => [code]

/-- The label that a place stands for. -/
def Place.label? : Place → Option Label
  | static l => some l
  | slot _ | param _ | captured _ | current => none

theorem Place.eq_static {p : Place} {l : Label} (h : p.label? = some l) : p = .static l := by
  cases p <;> cases h
  rfl

namespace Translator

/-- The labels that were defined so far. -/
def defines (t : Translator) : List Label :=
  labels t.code.toList ++ t.data.toList.map Datum.label

/-- The labels that were mentioned so far. -/
def mentions (t : Translator) : List Label :=
  t.code.toList.flatMap Instr.mentions ++ t.data.toList.flatMap Datum.mentions

/-- A label that the runtime provides, that is defined, or that is promised by `P`. -/
def Knows (t : Translator) (P : Label → Prop) (l : Label) : Prop :=
  l ∈ externs ∨ l ∈ t.defines ∨ P l

/-- All labels that were mentioned or may be mentioned are known. -/
structure Sound (t : Translator) (P : Label → Prop) : Prop where
  mentions : ∀ l ∈ t.mentions, t.Knows P l
  places : ∀ f ∈ t.scopes.frames, ∀ x l, (x, .static l) ∈ f.bindings → t.Knows P l

variable {P Q : Label → Prop} {l : Label}

theorem Knows.mono (h : t.Knows P l) (hdefines : ∀ l ∈ t.defines, t'.Knows Q l)
    (hP : ∀ l, P l → t'.Knows Q l) : t'.Knows Q l := by
  rcases h with h | h | h
  · exact Or.inl h
  · exact hdefines l h
  · exact hP l h

/-- A place that is visible is known. -/
theorem Sound.lookup (h : t.Sound P) {x : String} (hx : t.scopes.lookup x = some (.static l)) :
    t.Knows P l := by
  have hall : t.scopes.All fun p ↦ ∀ l, p = .static l → t.Knows P l := by
    rintro f hf ⟨y, p⟩ hb l rfl
    exact h.places f hf y l hb
  exact hall.of_lookup hx l rfl

end Translator

/-! ## Pieces of a translation -/

/-- Between two translators the labels `ls` are defined, and all labels stay known if those in
`needs` are. -/
structure Linked (t t' : Translator) (ls needs : List Label) : Prop where
  defines : t'.defines.Perm (t.defines ++ ls)
  sound : ∀ P, t.Sound P → (∀ l ∈ needs, t.Knows P l) → t'.Sound P

namespace Linked

theorem knows (h : Linked t t' ls needs) {P : Label → Prop} {l : Label} (hl : t.Knows P l) :
    t'.Knows P l :=
  hl.mono (fun _ hl ↦ Or.inr (Or.inl (h.defines.mem_iff.mpr (List.mem_append_left _ hl))))
    fun _ hl ↦ Or.inr (Or.inr hl)

theorem trans (h : Linked t t' ls needs) (h' : Linked t' t'' ls' needs') :
    Linked t t'' (ls ++ ls') (needs ++ needs') where
  defines := by
    refine h'.defines.trans ?_
    rw [← List.append_assoc]
    exact h.defines.append_right _
  sound P ht hneeds := by
    obtain ⟨hneeds, hneeds'⟩ := List.forall_mem_append.mp hneeds
    exact h'.sound P (h.sound P ht hneeds) fun l hl ↦ h.knows (hneeds' l hl)

theorem mono (h : Linked t t' ls needs) (hneeds : needs ⊆ needs') : Linked t t' ls needs' :=
  ⟨h.defines, fun P ht hknown ↦ h.sound P ht fun l hl ↦ hknown l (hneeds hl)⟩

/-- A construct that defines what it needs needs nothing. -/
theorem close (h : Linked t t' ls needs) (hneeds : ∀ l ∈ needs, l ∈ externs ∨ l ∈ ls) :
    Linked t t' ls [] where
  defines := h.defines
  sound P ht _ := by
    -- what is defined later may be promised first
    have hpromised : ∀ l, t.Knows P l → t.Knows (fun l ↦ P l ∨ l ∈ ls) l := fun l hl ↦
      hl.mono (fun _ hl ↦ Or.inr (Or.inl hl)) fun _ hl ↦ Or.inr (Or.inr (Or.inl hl))
    have hkept : ∀ l, t'.Knows (fun l ↦ P l ∨ l ∈ ls) l → t'.Knows P l := fun l hl ↦
      hl.mono (fun _ hl ↦ Or.inr (Or.inl hl)) fun l hl ↦ hl.elim (fun hl ↦ Or.inr (Or.inr hl))
        fun hl ↦ Or.inr (Or.inl (h.defines.mem_iff.mpr (List.mem_append_right _ hl)))
    have ht' := h.sound (fun l ↦ P l ∨ l ∈ ls)
      ⟨fun l hl ↦ hpromised l (ht.mentions l hl),
        fun f hf x l hl ↦ hpromised l (ht.places f hf x l hl)⟩
      fun l hl ↦ (hneeds l hl).elim Or.inl fun hl ↦ Or.inr (Or.inr (Or.inr hl))
    exact ⟨fun l hl ↦ hkept l (ht'.mentions l hl),
      fun f hf x l hl ↦ hkept l (ht'.places f hf x l hl)⟩

/-- What a visible variable stands for is known. -/
theorem visible {ps : List Place} (h : Linked t t' ls (needs ++ ps.filterMap Place.label?))
    (hps : ∀ p ∈ ps, ∃ x, t.scopes.lookup x = some p) : Linked t t' ls needs where
  defines := h.defines
  sound P ht hneeds := by
    refine h.sound P ht (List.forall_mem_append.mpr ⟨hneeds, fun l hl ↦ ?_⟩)
    obtain ⟨p, hp, hlabel⟩ := List.mem_filterMap.mp hl
    obtain ⟨x, hx⟩ := hps p hp
    exact ht.lookup (hx.trans (congrArg some (Place.eq_static hlabel)))

/-- Nothing is written. -/
theorem of_eq (hcode : t'.code = t.code) (hdata : t'.data = t.data)
    (hplaces : ∀ f ∈ t'.scopes.frames, ∀ x l, (x, .static l) ∈ f.bindings →
      l ∈ needs ∨ ∃ f ∈ t.scopes.frames, ∃ x, (x, .static l) ∈ f.bindings) :
    Linked t t' [] needs where
  defines := by
    rw [Translator.defines, hcode, hdata, List.append_nil]
    exact .refl _
  sound P ht hneeds := by
    have hknows : ∀ l, t.Knows P l → t'.Knows P l := by
      intro l hl
      rwa [Translator.Knows, Translator.defines, hcode, hdata]
    refine ⟨fun l hl ↦ ?_, fun f hf x l hl ↦ ?_⟩
    · rw [Translator.mentions, hcode, hdata] at hl
      exact hknows l (ht.mentions l hl)
    · rcases hplaces f hf x l hl with hl | ⟨f, hf, x, hl⟩
      · exact hknows l (hneeds l hl)
      · exact hknows l (ht.places f hf x l hl)

/-- Nothing is written, and the same is visible. -/
theorem of_same (hcode : t'.code = t.code) (hdata : t'.data = t.data)
    (hscopes : t'.scopes = t.scopes) : Linked t t' [] [] :=
  .of_eq hcode hdata fun f hf x _ hl ↦ Or.inr ⟨f, hscopes ▸ hf, x, hl⟩

/-- Code is written. -/
theorem emitted (c : List Instr) (d : Nat) :
    Linked t (t.emitted c d) (labels c) (c.flatMap Instr.mentions) where
  defines := by
    simp only [Translator.defines, Translator.emitted, Array.toList_append, labels_append,
      List.append_assoc]
    exact List.Perm.append_left _ List.perm_append_comm
  sound P ht hneeds := by
    have hknows : ∀ l, t.Knows P l → (t.emitted c d).Knows P l := fun l hl ↦
      hl.mono (fun l hl ↦ Or.inr (Or.inl (by
        simp only [Translator.defines, Translator.emitted, Array.toList_append, labels_append,
          List.mem_append] at hl ⊢
        tauto))) fun _ hl ↦ Or.inr (Or.inr hl)
    refine ⟨fun l hl ↦ ?_, fun f hf x l hl ↦ hknows l (ht.places f hf x l hl)⟩
    have hl : l ∈ t.mentions ∨ l ∈ c.flatMap Instr.mentions := by
      simp only [Translator.mentions, Translator.emitted, Array.toList_append, List.flatMap_append,
        List.mem_append] at hl ⊢
      tauto
    exact hknows l (hl.elim (ht.mentions l) (hneeds l))

/-- A piece of data is written. -/
theorem datum (d : Datum) : Linked t { t with data := t.data.push d } [d.label] d.mentions where
  defines := by simp [Translator.defines]
  sound P ht hneeds := by
    have hknows : ∀ l, t.Knows P l → ({ t with data := t.data.push d } : Translator).Knows P l :=
      fun l hl ↦ hl.mono (fun l hl ↦ Or.inr (Or.inl (by
        simp only [Translator.defines, Array.toList_push, List.map_append, List.mem_append] at hl ⊢
        tauto))) fun _ hl ↦ Or.inr (Or.inr hl)
    refine ⟨fun l hl ↦ ?_, fun f hf x l hl ↦ hknows l (ht.places f hf x l hl)⟩
    have hl : l ∈ t.mentions ∨ l ∈ d.mentions := by
      simp only [Translator.mentions, Array.toList_push, List.flatMap_append, List.mem_append,
        List.flatMap_singleton] at hl ⊢
      tauto
    exact hknows l (hl.elim (ht.mentions l) (hneeds l))

end Linked

/-! ## Steps -/

/-- Whenever a step succeeds, it defines labels of the numbers that it draws, and all that it needs.
-/
def Links {α : Type} (p : Translate α) : Prop :=
  ∀ ⦃t t' a⦄, p.outcome t = (.ok a, t') → ∃ ls, Linked t t' ls [] ∧ Owned t.next t'.next ls

namespace Links

variable {α β : Type} {p : Translate α}

/-- A step that writes nothing. -/
theorem of_same (h : ∀ t, (p.outcome t).2.code = t.code ∧ (p.outcome t).2.data = t.data ∧
    (p.outcome t).2.scopes = t.scopes ∧ (p.outcome t).2.next = t.next) : Links p := by
  intro t t' a hp
  obtain ⟨hcode, hdata, hscopes, hnext⟩ := h t
  rw [hp] at hcode hdata hscopes hnext
  exact ⟨[], .of_same hcode hdata hscopes, .nil (Nat.le_of_eq hnext.symm)⟩

theorem pure (a : α) : Links (Pure.pure a : Translate α) := .of_same fun _ ↦ ⟨rfl, rfl, rfl, rfl⟩

theorem bind {f : α → Translate β} (hp : Links p) (hf : ∀ a, Links (f a)) : Links (p >>= f) := by
  intro t t' b h
  obtain ⟨a, t₁, ha, h⟩ := Pass.outcome_bind_ok.mp h
  obtain ⟨ls, hls, howned⟩ := hp ha
  obtain ⟨ls', hls', howned'⟩ := hf a h
  exact ⟨ls ++ ls', hls.trans hls', howned.append howned'⟩

/-- Code without labels of its own that mentions routines only. -/
theorem emitted {p : Translate Unit} (c : Translator → List Instr) (d : Translator → Nat)
    (h : ∀ t, p.outcome t = (.ok (), t.emitted (c t) (d t)))
    (hlabels : ∀ t, labels (c t) = [])
    (hmentions : ∀ t, ∀ l ∈ (c t).flatMap Instr.mentions, l ∈ externs) : Links p := by
  intro t t' a hp
  obtain ⟨-, rfl⟩ := Prod.mk.injEq .. ▸ (h t).symm.trans hp
  refine ⟨[], ?_, .nil (Nat.le_refl _)⟩
  have hlinked := Linked.emitted (t := t) (c t) (d t)
  rw [hlabels] at hlinked
  exact hlinked.close fun l hl ↦ Or.inl (hmentions t l hl)

end Links

theorem mentions_pushes (rs : List Reg) : (rs.map .push).flatMap Instr.mentions = [] := by
  simp [List.flatMap_map, Instr.mentions]

theorem mentions_pops (rs : List Reg) : (rs.map .pop).flatMap Instr.mentions = [] := by
  simp [List.flatMap_map, Instr.mentions]

theorem mem_externs (r : Routine) : .routine r ∈ externs := by
  cases r <;> decide

theorem links_depth : Links depth := .of_same fun _ ↦ ⟨rfl, rfl, rfl, rfl⟩

theorem links_get : Links (get : Translate Translator) := .of_same fun _ ↦ ⟨rfl, rfl, rfl, rfl⟩

/-- Code without labels of its own that mentions routines only. -/
theorem links_emitAll (c : List Instr) (hlabels : labels c = [])
    (hmentions : ∀ l ∈ c.flatMap Instr.mentions, l ∈ externs) : Links (emitAll c) :=
  .emitted (fun _ ↦ c) _ (fun t ↦ outcome_emitAll t c) (fun _ ↦ hlabels) fun _ ↦ hmentions

theorem links_emit (i : Instr) (hlabels : labels [i] = []) (hmentions : i.mentions = []) :
    Links (emit i) :=
  .emitted (fun _ ↦ [i]) _ (fun t ↦ outcome_emit t i) (fun _ ↦ hlabels) fun _ l hl ↦ by
    simp [hmentions] at hl

theorem links_push (r : Reg) : Links (push r) :=
  .emitted (fun _ ↦ [.push r]) _ (fun t ↦ outcome_push t r) (fun _ ↦ rfl) fun _ _ hl ↦ by cases hl

theorem links_pushAll (rs : List Reg) : Links (pushAll rs) :=
  .emitted (fun _ ↦ rs.map .push) _ (fun t ↦ outcome_pushAll t rs) (fun _ ↦ labels_pushes rs)
    fun _ l hl ↦ by rw [mentions_pushes] at hl; cases hl

theorem links_popAll (rs : List Reg) : Links (popAll rs) :=
  .emitted (fun _ ↦ rs.map .pop) _ (fun t ↦ outcome_popAll t rs) (fun _ ↦ labels_pops rs)
    fun _ l hl ↦ by rw [mentions_pops] at hl; cases hl

theorem links_reserve (n : Nat) : Links (reserve n) :=
  .emitted (fun _ ↦ reserveCode n) _ (fun t ↦ outcome_reserve t n) (fun _ ↦ labels_reserveCode n)
    fun _ l hl ↦ by
      rw [reserveCode] at hl
      split at hl <;> cases hl

theorem links_release (n : Nat) : Links (release n) :=
  .emitted (fun _ ↦ releaseCode n) _ (fun t ↦ outcome_release t n) (fun _ ↦ labels_releaseCode n)
    fun _ l hl ↦ by
      rw [releaseCode] at hl
      split at hl <;> cases hl

/-! ## Literals and variables -/

theorem Linked.draw : Linked t t.drawn [] [] := .of_same rfl rfl rfl

theorem links_literal (v : Literal) : Links (literal v) := by
  cases v with
  | nil | boolean b | number k => exact links_emit _ rfl rfl
  | string s =>
    intro t t' a h
    simp only [literal, Pass.outcome_bind_ok, outcome_draw, outcome_emitAll, emitData,
      Pass.outcome_modify, Prod.mk.injEq, Except.ok.injEq] at h
    obtain ⟨_, _, ⟨rfl, rfl⟩, _, _, ⟨-, rfl⟩, -, rfl⟩ := h
    refine ⟨_, (Linked.draw.trans ((Linked.datum (.text (.text t.next) s)).trans
      (.emitted _ _))).close ?_, ?_⟩
    · simp [Datum.mentions, Datum.label, Instr.mentions]
    · exact .single none (by simp [Datum.label, labels]) (by simp [Datum.label, labels,
        Label.number, Label.function?])

/-- A load mentions a closure that the variable stands for. -/
theorem mentions_load {p : Place} {l : Label} (hl : l ∈ p.load.flatMap Instr.mentions) :
    p = .static l := by
  cases p with
  | slot | captured | current => cases hl
  | param i =>
    rw [Place.load] at hl
    split at hl <;> cases hl
  | static l' =>
    obtain rfl : l = l' := by simpa [Place.load, Instr.mentions] using hl
    rfl

theorem links_symbol (name : String) (line : Nat) :
    Links (do emitAll (← resolve name line).load) := by
  intro t t' a h
  obtain ⟨p, t₁, hp, h⟩ := Pass.outcome_bind_ok.mp h
  obtain ⟨hlookup, rfl⟩ := (outcome_resolve t).mp hp
  rw [outcome_emitAll] at h
  cases h
  refine ⟨[], ⟨?_, fun P ht _ ↦ ?_⟩, .nil (Nat.le_refl _)⟩
  · have hdefines := (Linked.emitted (t := t) p.load t.activation.depth).defines
    rwa [labels_load] at hdefines
  · refine (Linked.emitted p.load t.activation.depth).sound P ht fun l hl ↦ ?_
    exact ht.lookup (mentions_load hl ▸ hlookup)

/-! ## Constructs -/

theorem links_fill {es : List (Translate Unit)} (hes : ∀ e ∈ es, Links e) (slot : Nat) :
    Links (fill slot es) := by
  induction es generalizing slot with
  | nil => exact .pure _
  | cons e es ih =>
    obtain ⟨he, hes⟩ := List.forall_mem_cons.mp hes
    exact .bind he fun _ ↦ .bind (links_emit _ rfl rfl) fun _ ↦ ih hes _

theorem links_sequence {shape : Shape} {es : List (Translate Unit)} (hes : ∀ e ∈ es, Links e) :
    Links (sequence shape es) := by
  rw [Translate.sequence]
  split
  · exact links_emit _ rfl rfl
  · refine .bind (links_reserve _) fun _ ↦ .bind links_depth fun _ ↦ .bind (links_fill hes _)
      fun _ ↦ .bind links_get fun _ ↦ .bind (links_pushAll _) fun _ ↦
      .bind (links_emitAll _ rfl ?_) fun _ ↦ .bind (links_popAll _) fun _ ↦ links_release _
    intro l hl
    obtain rfl : l = .routine shape.routine := by simpa [Instr.mentions] using hl
    exact mem_externs _

/-- A conditional defines the labels of its jumps, the last one behind everything else. -/
theorem links_cond {test yes no : Translate Unit} (htest : Links test) (hyes : Links yes)
    (hno : Links no) : Links (cond test yes no) := by
  intro t t' a h
  simp only [Translate.cond, Pass.outcome_bind_ok, outcome_draw, outcome_emitAll,
    outcome_emit, Prod.mk.injEq, Except.ok.injEq] at h
  obtain ⟨_, _, ⟨rfl, rfl⟩, _, t₁, h₁, _, _, ⟨-, rfl⟩, _, t₂, h₂, _, _, ⟨-, rfl⟩, _, t₃, h₃, -,
    rfl⟩ := h
  obtain ⟨ls₁, l₁, o₁⟩ := htest h₁
  obtain ⟨ls₂, l₂, o₂⟩ := hno h₂
  obtain ⟨ls₃, l₃, o₃⟩ := hyes h₃
  refine ⟨_, (Linked.draw.trans (l₁.trans ((Linked.emitted _ _).trans (l₂.trans
    ((Linked.emitted _ _).trans (l₃.trans (.emitted _ _))))))).close ?_, ?_⟩
  · simp [Instr.mentions, labels]
  · have howned : Owned t.next (t.next + 1) [.yes t.next, .after t.next] :=
      .single none (by simp) (by simp [Label.number, Label.function?])
    refine (howned.append (o₁.append (o₂.append o₃))).perm ?_
    refine List.perm_iff_count.mpr fun l ↦ ?_
    simp only [labels, List.filterMap_cons, List.filterMap_nil, List.nil_append, List.count_append,
      List.count_cons, List.count_nil]
    omega

theorem links_passArgs {args : List (Translate Unit)} (hargs : ∀ e ∈ args, Links e) (base i : Nat) :
    Links (passArgs base i args) := by
  induction args generalizing i with
  | nil => exact .pure _
  | cons e es ih =>
    obtain ⟨he, hes⟩ := List.forall_mem_cons.mp hargs
    refine .bind he fun _ ↦ ?_
    split
    · exact .bind (links_push _) fun _ ↦ ih hes _
    · exact .bind (links_emit _ rfl rfl) fun _ ↦ ih hes _

theorem links_passed {args : List (Translate Unit)} (hargs : ∀ e ∈ args, Links e)
    (spread : Option Nat) : ∀ e ∈ passed spread args, Links e := by
  cases spread with
  | none => exact hargs
  | some k =>
    intro e he
    rcases List.mem_append.mp he with he | he
    · exact hargs e (List.mem_of_mem_take he)
    · rw [List.mem_singleton.mp he]
      exact links_sequence fun e he ↦ hargs e (List.mem_of_mem_drop he)

theorem links_call {callee : Translate Unit} {args : List (Translate Unit)} {spread : Option Nat}
    (hcallee : Links callee) (hargs : ∀ e ∈ args, Links e) : Links (call spread callee args) := by
  refine .bind links_get fun _ ↦ .bind (links_pushAll _) fun _ ↦ .bind (links_reserve _) fun _ ↦
    .bind links_depth fun _ ↦ .bind (links_passArgs (links_passed hargs spread) _ _) fun _ ↦
    .bind hcallee fun _ ↦ .bind (links_emitAll _ rfl ?_) fun _ ↦ .bind (links_popAll _) fun _ ↦
    .bind (links_emitAll _ rfl (by simp [Instr.mentions])) fun _ ↦ .bind (links_release _) fun _ ↦
    links_popAll _
  intro l hl
  obtain rfl : l = .routine .error := by simpa [Instr.mentions] using hl
  exact mem_externs _

/-! ## Frames -/

/-- Leaving a frame makes nothing visible. -/
theorem Linked.exit (a : Activation) (saved : ScopeId) :
    Linked t { t with activation := a, scopes := t.scopes.exit saved } [] [] :=
  .of_eq rfl rfl fun f hf x _ hl ↦ Or.inr ⟨f, List.mem_of_mem_take hf, x, hl⟩

/-- Opening a frame makes nothing visible. -/
theorem Linked.enterFrom (parent : ScopeId) :
    Linked t { t with scopes := t.scopes.enterFrom parent } [] [] :=
  .of_eq rfl rfl fun f hf x l hl ↦ by
    rcases List.mem_append.mp hf with hf | hf
    · exact Or.inr ⟨f, hf, x, hl⟩
    · obtain rfl := List.mem_singleton.mp hf
      cases hl

/-- A name is bound. -/
theorem Linked.defineIn (scope : ScopeId) (x : String) (p : Place)
    (hp : ∀ l, p = .static l → l ∈ needs) :
    Linked t { t with scopes := t.scopes.defineIn scope x p } [] needs := by
  refine .of_eq rfl rfl fun f hf y l hl ↦ ?_
  obtain ⟨i, hi⟩ := List.mem_iff_getElem?.mp hf
  rw [Scopes.defineIn, List.getElem?_modify] at hi
  obtain ⟨g, hg, rfl⟩ := Option.map_eq_some_iff.mp hi
  split at hl
  · rcases List.mem_cons.mp hl with hl | hl
    · exact Or.inl (hp l (congrArg Prod.snd hl).symm)
    · exact Or.inr ⟨g, List.mem_of_getElem? hg, y, hl⟩
  · exact Or.inr ⟨g, List.mem_of_getElem? hg, y, hl⟩

theorem Linked.defineAll {bs : List (String × Place)}
    (hbs : ∀ x l, (x, .static l) ∈ bs → l ∈ needs) :
    Linked t { t with scopes := t.scopes.defineAll bs } [] needs := by
  induction bs generalizing t with
  | nil => exact (Linked.of_same rfl rfl rfl).mono (List.nil_subset _)
  | cons b bs ih =>
    have hb : Linked t { t with scopes := t.scopes.define b.1 b.2 } [] needs :=
      .defineIn _ _ _ fun l hl ↦ hbs b.1 l (hl ▸ List.mem_cons_self)
    have htail := ih (t := { t with scopes := t.scopes.define b.1 b.2 })
      fun x l hl ↦ hbs x l (List.mem_cons_of_mem _ hl)
    exact (hb.trans htail).mono (List.append_subset.mpr ⟨List.Subset.refl _, List.Subset.refl _⟩)

theorem links_nested {body : Translate Unit} (h : Links body) : Links (nested body) := by
  intro t t' a hbody
  obtain ⟨t₁, h₁, rfl⟩ := Pass.outcome_between_ok.mp hbody
  obtain ⟨ls, hls, howned⟩ := h h₁
  refine ⟨ls, ?_, howned⟩
  have hlinked := (Linked.enterFrom (t := t) t.scopes.current).trans (hls.trans
    (.exit t₁.activation t.scopes.current))
  rw [List.nil_append, List.append_nil] at hlinked
  exact hlinked

theorem links_bindSlot (x : String) : Links (bindSlot x) :=
  .bind (links_push _) fun _ ↦ .bind links_depth fun d t t' a h ↦ by
    cases h
    exact ⟨[], .defineIn _ x _ (fun _ h ↦ by cases h), .nil (Nat.le_refl _)⟩

theorem links_bindings {bs : List (String × Expr)} (hbs : ∀ b ∈ bs, Links b.2.translate) :
    Links (translateBindings bs) := by
  induction bs with
  | nil => exact .pure _
  | cons b bs ih =>
    obtain ⟨hb, hbs⟩ := List.forall_mem_cons.mp hbs
    exact .bind hb fun _ ↦ .bind (links_bindSlot _) fun _ ↦ ih hbs

/-! ## Functions -/

theorem mentions_captureCode {offset : Nat} {ps : List Place} {l : Label}
    (hl : l ∈ (captureCode offset ps).flatMap Instr.mentions) : .static l ∈ ps := by
  induction ps generalizing offset with
  | nil => cases hl
  | cons p ps ih =>
    rw [captureCode, List.flatMap_append, List.flatMap_append] at hl
    rcases List.mem_append.mp hl with hl | hl
    · exact mentions_load hl ▸ List.mem_cons_self
    · exact List.mem_cons_of_mem _ (ih (by simpa [Instr.mentions] using hl))

theorem mentions_allocateCode {live : List Reg} {code : Label} {ps : List Place} {l : Label}
    (hl : l ∈ (allocateCode live code ps).flatMap Instr.mentions) :
    l = .routine .allocate ∨ l = code ∨ .static l ∈ ps := by
  simp only [allocateCode, List.flatMap_append, mentions_pushes, mentions_pops, List.nil_append,
    List.append_nil, List.mem_append] at hl
  rcases hl with hl | hl | hl | hl | hl
  · exact Or.inl (by simpa [Instr.mentions] using hl)
  · exact Or.inr (Or.inl (by simpa [Instr.mentions] using hl))
  · cases hl
  · exact Or.inr (Or.inr (mentions_captureCode hl))
  · cases hl

/-- The labels that the translation of a function makes of its number. -/
def functionLabels (h : FnHead) (id : Nat) (isStatic : Bool) : List Label :=
  [.code h.name id, .after id] ++ if isStatic then [.closure h.name id] else []

theorem owned_functionLabels (h : FnHead) (id : Nat) (isStatic : Bool) :
    Owned id (id + 1) (functionLabels h id isStatic) := by
  refine .single h.name ?_ ?_
  · cases isStatic <;> simp [functionLabels]
  · cases isStatic <;> simp [functionLabels, Label.number, Label.function?]

/-- What the body of a function sees is the closure of the function, when that is a static one. -/
theorem static_of_mem_bodyPlaces {h : FnHead} {captures : Captures} {id : Nat} {x : String}
    {l : Label} (hl : (x, .static l) ∈ bodyPlaces h captures id) :
    captures = [] ∧ l = .closure h.name id := by
  simp only [bodyPlaces, List.mem_append, List.mem_mapIdx, List.mem_map, Prod.mk.injEq,
    reduceCtorEq, and_false, exists_false, false_or] at hl
  obtain ⟨-, -, -, hl⟩ := hl
  split at hl
  · next hnil => exact ⟨List.isEmpty_iff.mp hnil, by simpa using hl.symm⟩
  · cases hl

theorem Linked.inBody (h : FnHead) (captures : Captures) (id : Nat) :
    Linked t (t.inBody h captures id) [] (functionLabels h id captures.isEmpty) := by
  have hbody : Linked { t with scopes := t.scopes.enterFrom ScopeId.global }
      { t with scopes := (t.scopes.enterFrom ScopeId.global).defineAll (bodyPlaces h captures id) }
      [] (functionLabels h id captures.isEmpty) := .defineAll fun x l hl ↦ by
    obtain ⟨rfl, rfl⟩ := static_of_mem_bodyPlaces hl
    simp [functionLabels]
  have hactivation : Linked
      { t with scopes := (t.scopes.enterFrom ScopeId.global).defineAll (bodyPlaces h captures id) }
      (t.inBody h captures id) [] [] := .of_same rfl rfl rfl
  exact ((Linked.enterFrom ScopeId.global).trans (hbody.trans hactivation)).mono (by simp)

/-- What is written behind the body of a function makes its closure. -/
theorem linked_closure {h : FnHead} {sources : List Place} {id : Nat}
    (hclosure : (if sources.isEmpty then do
        emitData (.closure (.closure h.name id) (.code h.name id))
        emitAll (Place.static (.closure h.name id)).load
        match h.isGlobal, h.name with
        | true, some name => defineGlobal name (.static (.closure h.name id))
        | _, _ => pure ()
      else allocate (.code h.name id) sources : Translate Unit).outcome t = (.ok (), t')) :
    t'.next = t.next ∧ Linked t t' (if sources.isEmpty then [.closure h.name id] else [])
      ((.routine .allocate :: functionLabels h id sources.isEmpty) ++
        sources.filterMap Place.label?) := by
  cases sources with
  | nil =>
    simp only [List.isEmpty_nil, if_true, Pass.outcome_bind_ok, emitData, Pass.outcome_modify,
      outcome_emitAll, Prod.mk.injEq] at hclosure
    obtain ⟨_, _, ⟨-, rfl⟩, _, _, ⟨-, rfl⟩, hname⟩ := hclosure
    have hwritten := (Linked.datum (t := t) (.closure (.closure h.name id) (.code h.name id))).trans
      (.emitted (Place.static (.closure h.name id)).load t.activation.depth)
    -- only a global function with a name is bound
    have hglobal : ∀ {u : Translator}, (match h.isGlobal, h.name with
          | true, some name => defineGlobal name (.static (.closure h.name id))
          | _, _ => pure () : Translate Unit).outcome u = (.ok (), t') →
        t'.next = u.next ∧ Linked u t' [] [.closure h.name id] := by
      intro u hu
      split at hu <;> cases hu
      · exact ⟨rfl, .defineIn _ _ _ fun l hl ↦ by cases hl; exact List.mem_singleton_self _⟩
      · exact ⟨rfl, (Linked.of_same rfl rfl rfl).mono (List.nil_subset _)⟩
    obtain ⟨hnext, hlinked⟩ := hglobal hname
    refine ⟨hnext, (hwritten.trans hlinked).mono fun l hl ↦ ?_⟩
    simp only [Datum.mentions, Place.load, Instr.mentions, List.flatMap_cons, List.flatMap_nil,
      List.append_nil, List.mem_append, List.mem_singleton] at hl
    simp only [functionLabels, List.isEmpty_nil, if_true, List.mem_append, List.mem_cons]
    tauto
  | cons p ps =>
    rw [List.isEmpty_cons, if_neg (by decide), outcome_allocate] at hclosure
    cases hclosure
    refine ⟨rfl, ?_⟩
    have hwritten := Linked.emitted (t := t)
      (allocateCode t.activation.liveRegisters (.code h.name id) (p :: ps)) t.activation.depth
    rw [labels_allocateCode] at hwritten
    refine hwritten.mono fun l hl ↦ ?_
    rcases mentions_allocateCode hl with rfl | rfl | hl
    · exact List.mem_append_left _ List.mem_cons_self
    · simp [functionLabels]
    · exact List.mem_append_right _ (List.mem_filterMap.mpr ⟨_, hl, rfl⟩)

/-- A function may name its closure before that is written. -/
theorem links_fn {h : FnHead} {n : Note} {body : Translate Unit} (hbody : Links body) :
    Links (Translate.fn h n body) := by
  intro t t' a hfn
  simp only [Translate.fn, isolated, Pass.outcome_bind_ok, outcome_draw, outcome_emitAll,
    outcome_places, Pass.outcome_between_ok, Prod.mk.injEq, Except.ok.injEq] at hfn
  obtain ⟨_, _, ⟨rfl, rfl⟩, sources, _, ⟨hsources, rfl⟩, _, _, ⟨-, rfl⟩, _, _, ⟨t₁, h₁, rfl⟩, _, _,
    ⟨-, rfl⟩, hfn⟩ := hfn
  obtain ⟨ls, hls, howned⟩ := hbody h₁
  obtain ⟨hnext, hclosure⟩ := linked_closure hfn
  have hempty := isEmpty_eq_of_mapM hsources
  have hlinked := (Linked.draw (t := t)).trans ((Linked.emitted
    [.jmp (.after t.next), .label (.code h.name t.next), .push .rbp, .mov .rbp (.reg .rsp)]
    t.activation.depth).trans ((Linked.inBody h n.captures t.next).trans (hls.trans
      ((Linked.exit t.activation t.scopes.current).trans ((Linked.emitted
        [.pop .rbp, .ret, .label (.after t.next)] t.activation.depth).trans hclosure)))))
  rw [isEmpty_eq_of_mapM hsources] at hlinked
  have hneeds : Linked t t' _ ((.routine .allocate :: functionLabels h t.next sources.isEmpty) ++
      sources.filterMap Place.label?) := hlinked.mono fun l hl ↦ by
      simp only [Instr.mentions, List.flatMap_cons, List.flatMap_nil, List.nil_append,
        List.append_nil, List.mem_append, List.mem_singleton] at hl
      simp only [functionLabels, List.mem_append, List.mem_cons] at hl ⊢
      tauto
  refine ⟨_, (hneeds.visible fun p hp ↦
    Scopes.exists_of_mem_mapM hsources hp).close fun l hl ↦ ?_, ?_⟩
  · rcases List.mem_cons.mp hl with rfl | hl
    · exact Or.inl (mem_externs _)
    · simp only [functionLabels, List.mem_append, List.mem_cons] at hl
      refine Or.inr ?_
      simp only [labels, List.filterMap_cons, List.filterMap_nil, List.nil_append, List.mem_append,
        List.mem_singleton]
      tauto
  · rw [hnext]
    refine ((owned_functionLabels h t.next sources.isEmpty).append howned).perm
      (List.perm_iff_count.mpr fun l ↦ ?_)
    simp only [functionLabels, labels, List.filterMap_cons, List.filterMap_nil, List.nil_append,
      List.count_append, List.count_cons, List.count_nil]
    omega

/-! ## Expressions and programs -/

theorem links_translateAll {es : List Expr} (hes : ∀ e ∈ es, Links e.translate) :
    Links (translateAll es) := by
  induction es with
  | nil => exact .pure _
  | cons e es ih =>
    obtain ⟨he, hes⟩ := List.forall_mem_cons.mp hes
    exact .bind he fun _ ↦ ih hes

theorem links_translateEach {es : List Expr} (hes : ∀ e ∈ es, Links e.translate) :
    ∀ p ∈ translateEach es, Links p := by
  rw [translateEach_eq_map]
  exact List.forall_mem_map.mpr hes

/-- Every expression defines what it needs. -/
theorem links_translate (e : Expr) : Links e.translate := by
  induction e using Expr.memberInduction with
  | literal v n => exact links_literal v
  | symbol name n => exact links_symbol name _
  | group shape elems n helems => exact links_sequence (links_translateEach helems)
  | cond test yes no n htest hyes hno => exact links_cond htest hyes hno
  | letIn bindings body n hbindings hbody =>
    exact links_nested (.bind (links_bindings hbindings) fun _ ↦ .bind hbody fun _ ↦
      links_release _)
  | fn head body n hbody => exact links_fn hbody
  | seq steps n hsteps =>
    rw [Expr.translate]
    split
    · exact links_literal .nil
    · exact links_translateAll hsteps
  | call callee args spread n hcallee hargs =>
    exact links_call hcallee (links_translateEach hargs)

namespace Program

/-- The instructions of a program, in the order of its text. -/
def instrs (p : Program) : List Instr := preamble ++ p.code ++ epilogue

/-- The directives of a program, in the order of its text. -/
def directives (p : Program) : List Directive := p.data.flatMap Datum.directives

end Program

/-- The labels that stand before a directive. -/
def Directive.defines : Directive → List Label
  | label l => [l]
  | number _ | address _ | bytes _ | align => []

/-- The labels that a directive mentions. -/
def Directive.mentions : Directive → List Label
  | address l => [l]
  | label _ | number _ | bytes _ | align => []

/-- The labels that are defined in the text of a program. -/
def Program.defines (p : Program) : List Label :=
  labels p.instrs ++ p.directives.flatMap Directive.defines

/-- The labels that are mentioned in the text of a program. -/
def Program.mentions (p : Program) : List Label :=
  p.instrs.flatMap Instr.mentions ++ p.directives.flatMap Directive.mentions

theorem defines_directives (d : Datum) : d.directives.flatMap Directive.defines = [d.label] := by
  cases d with
  | closure l code => rfl
  | text l value =>
    rw [Datum.directives]
    split <;> rfl

theorem mentions_directives (d : Datum) :
    d.directives.flatMap Directive.mentions = d.mentions := by
  cases d with
  | closure l code => rfl
  | text l value =>
    rw [Datum.directives]
    split <;> rfl

theorem Program.defines_program (t : Translator) : t.program.defines = .start :: t.defines := by
  have hcode : labels t.program.instrs = .start :: labels t.code.toList := by
    rw [instrs, labels_append, labels_append]
    exact congrArg (Label.start :: ·) (List.append_nil _)
  rw [defines, hcode, directives, List.flatMap_assoc]
  simp only [defines_directives]
  rw [← List.map_eq_flatMap]
  rfl

theorem Program.mem_mentions_program {t : Translator} {l : Label} (hl : l ∈ t.program.mentions) :
    l ∈ externs ∨ l ∈ t.mentions := by
  rw [mentions, instrs, directives, List.flatMap_assoc] at hl
  simp only [mentions_directives, List.flatMap_append, List.mem_append] at hl
  rcases hl with ((hl | hl) | hl) | hl
  · obtain rfl : l = .routine .allocInit := by simpa [preamble, Instr.mentions] using hl
    exact Or.inl (mem_externs _)
  · exact Or.inr (List.mem_append_left _ hl)
  · obtain rfl : l = .routine .debexit := by simpa [epilogue, Instr.mentions] using hl
    exact Or.inl (mem_externs _)
  · exact Or.inr (List.mem_append_right _ hl)

/-- At the start, only the closures of builtin functions are visible. -/
theorem start_places (next : Nat) : (Translator.start next).scopes.All
    fun p ↦ ∃ b ∈ builtins, p = .static (.builtin b.symbol) := by
  intro f hf p hp
  have hframes : (Translator.start next).scopes.frames
      = [⟨none, (builtins.map fun b ↦ (b.name, Place.static (.builtin b.symbol))).reverse⟩] := rfl
  rw [hframes, List.mem_singleton] at hf
  subst hf
  obtain ⟨b, hb, rfl⟩ := List.mem_map.mp (List.mem_reverse.mp hp)
  exact ⟨b, hb, rfl⟩

/-- What is visible at the start is provided by the runtime. -/
theorem sound_start (next : Nat) : (Translator.start next).Sound fun _ ↦ False where
  mentions l hl := by cases hl
  places f hf x l hl := by
    obtain ⟨b, hb, hplace⟩ := start_places next f hf _ hl
    cases hplace
    exact Or.inl (List.mem_append_right _ (List.mem_map_of_mem hb))

/-- **The labels of a program fit together.** Whenever a program is translated, the labels in its
text and those that it takes from the runtime are all spelled differently; a label that is mentioned
by an instruction or a directive is one of them, so its spelling stands there once; and all are
spelled with letters, digits and underscores of ASCII, the first of which is not a digit. -/
theorem label_integrity {es : List Expr} {next : Nat} {t : Translator}
    (h : (translateAll es).outcome (.start next) = (.ok (), t)) :
    ((t.program.defines ++ externs).map Label.render).Nodup ∧
    (∀ l ∈ t.program.mentions,
      ((t.program.defines ++ externs).map Label.render).count l.render = 1) ∧
    ∀ l ∈ t.program.defines ++ externs, IsIdentifier l.render := by
  obtain ⟨ls, hlinked, howned⟩ := links_translateAll (fun e _ ↦ links_translate e) h
  have hdefines : t.defines.Perm ls := hlinked.defines
  have howned := howned.perm hdefines.symm
  have hnodup : ((t.program.defines ++ externs).map Label.render).Nodup := by
    rw [Program.defines_program]
    exact howned.nodup_render
  refine ⟨hnodup, fun l hl ↦ List.count_eq_one_of_mem hnodup (List.mem_map_of_mem ?_),
    fun l hl ↦ Label.isIdentifier_render ?_⟩
  · rw [Program.defines_program]
    rcases Program.mem_mentions_program hl with hl | hl
    · exact List.mem_append_right _ hl
    · rcases (hlinked.sound _ (sound_start next) (by simp)).mentions l hl with hl | hl | hl
      · exact List.mem_append_right _ hl
      · exact List.mem_append_left _ (List.mem_cons_of_mem _ hl)
      · exact hl.elim
  · rw [Program.defines_program] at hl
    rcases List.mem_append.mp hl with hl | hl
    · rcases List.mem_cons.mp hl with rfl | hl
      · exact Or.inr (Or.inl rfl)
      · obtain ⟨id, hid, -⟩ := howned.number l hl
        exact Or.inr (Or.inr (hid ▸ rfl))
    · exact Or.inl hl

/-- The expression `(fn é [x] (if x "λ" é))`. -/
def accentExpr : Expr :=
  .fn ⟨some "é", ["x"], none, false⟩ (.cond (.symbol "x" default)
    (.literal (.string "λ") default) (.symbol "é" default) default) default

/-- A function without captures is called by its name before its closure is written. -/
theorem accentExpr_labels : ∃ t, (translateAll [accentExpr]).outcome (.start 0) = (.ok (), t) ∧
    t.program.defines.map Label.render
      = ["_start", "fn0__", "true_1", "after_1", "after_0", "string_2", "fn0___closure"] ∧
    Label.closure (some "é") 0 ∈ t.program.mentions ∧
    ((t.program.defines ++ externs).map Label.render).Nodup ∧
    ∀ l ∈ t.program.mentions,
      ((t.program.defines ++ externs).map Label.render).count l.render = 1 := by
  have h : (translateAll [accentExpr]).outcome (.start 0)
      = (.ok (), ((translateAll [accentExpr]).outcome (.start 0)).2) := rfl
  obtain ⟨hnodup, hmentions, -⟩ := label_integrity h
  refine ⟨_, h, ?_, List.mem_append_left _ (by decide), hnodup, hmentions⟩
  rw [Program.defines_program]
  decide

end TaggedLisp.Machine
