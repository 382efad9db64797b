import TaggedLisp.Proofs.Machine.Order
import TaggedLisp.Proofs.Machine.Visibility

/-!
# The stack discipline of translated code

Whatever is translated, the code keeps order in its frame: what the translator counts as the depth
is how far `rsp` lies below `rbp`, and no word that was pushed is overwritten before it is popped.
This holds of every way through the code, and so it does not matter what is computed.

A translator that is `Seated` in a frame looks for variables at depths at which words were pushed.
Each construct takes a seated translator to a seated one; its own pushes and its reserved room come
behind the words that are there, and it takes them away again.
-/

namespace TaggedLisp.Machine

open Translate

variable {t t' t'' : Translator} {B F F' F'' : Cells} {c c' : List Instr} {n : Note}

/-! ## Translators and frames -/

/-- The words of a frame are as many as the translator has counted, and its variables are among
those that were pushed. -/
structure Translator.Seated (t : Translator) (F : Cells) : Prop where
  wellFormed : t.scopes.WellFormed
  depth : t.activation.depth = F.length
  isHeld : ∀ x k, t.scopes.locals.lookup x = some (.slot k) → cell F k = some .held
  notGlobal : ∀ x k, t.scopes.globals.lookup x ≠ some (.slot k)

/-- Where a place is a word of the frame, the word was pushed. -/
def Place.In (F : Cells) (p : Place) : Prop := ∀ k, p = .slot k → cell F k = some .held

theorem Translator.Seated.lookup {x : String} {p : Place} (h : t.Seated F)
    (hp : t.scopes.lookup x = some p) : p.In F := by
  rintro k rfl
  rw [h.wellFormed.lookup_eq, Option.or_eq_some_iff] at hp
  rcases hp with hp | ⟨-, hp⟩
  · exact h.isHeld x k hp
  · exact absurd hp (h.notGlobal x k)

/-- Between two translators a piece of code is written, which is tidy. -/
structure Writes (t t' : Translator) (B F F' : Cells) (c : List Instr) : Prop where
  adds : ∃ f, Adds (fun _ ↦ 0) t t' F'.length f c
  tidy : Tidy B F c F'

namespace Writes

theorem trans (h : Writes t t' B F F' c) (h' : Writes t' t'' B F' F'' c') :
    Writes t t'' B F F'' (c ++ c') := by
  obtain ⟨f, hf⟩ := h.adds
  obtain ⟨g, hg⟩ := h'.adds
  exact ⟨⟨_, hf.trans hg⟩, h.tidy.append h'.tidy⟩

theorem refl (h : t.activation.depth = F.length) (hB : B <+: F) : Writes t t B F F [] :=
  ⟨⟨id, h ▸ Emits.refl.toAdds⟩, .nil hB⟩

theorem mono (h : Writes t t' B F F' c) {B' : Cells} (hB : B' <+: B) : Writes t t' B' F F' c :=
  ⟨h.adds, h.tidy.mono hB⟩

theorem exit (h : Writes t t' B F F' c) (saved : ScopeId) :
    Writes { t with scopes := t.scopes.exit saved } { t' with scopes := t'.scopes.exit saved }
      B F F' c := by
  obtain ⟨f, hf⟩ := h.adds
  exact ⟨⟨f, hf.exit saved⟩, h.tidy⟩

theorem emitted {d : Nat} (h : Tidy B F c F') (hd : d = F'.length) :
    Writes t (t.emitted c d) B F F' c := ⟨⟨id, hd ▸ .emitted⟩, h⟩

end Writes

namespace Translator.Seated

/-- What is written leaves the variables where they were. -/
theorem writes (h : t.Seated F) (hw : Writes t t' B F F' c) (hF : F <+: F') : t'.Seated F' := by
  obtain ⟨f, hf⟩ := hw.adds
  obtain ⟨ds, hds, -⟩ := hf.scopes
  refine ⟨hf.wellFormed h.wellFormed, by rw [hf.activation], fun x k hk ↦ ?_, fun x k hk ↦ ?_⟩
  · rw [hds, Scopes.locals_defineGlobals] at hk
    exact cell_of_prefix hF (h.isHeld x k hk)
  · rw [hds, h.wellFormed.globals_defineGlobals, List.lookup_append, Option.or_eq_some_iff] at hk
    rcases hk with hk | ⟨-, hk⟩
    · rw [← List.map_reverse, Scopes.lookup_mapValues] at hk
      obtain ⟨l, -, hl⟩ := Option.map_eq_some_iff.mp hk
      cases hl
    · exact h.notGlobal x k hk

theorem emitted {d : Nat} (h : t.Seated F) (hF : F <+: F') (hd : d = F'.length) (c : List Instr) :
    (t.emitted c d).Seated F' where
  wellFormed := h.wellFormed
  depth := hd
  isHeld x k hk := cell_of_prefix hF (h.isHeld x k hk)
  notGlobal := h.notGlobal

end Translator.Seated

/-- The translation of an expression writes tidy code, which gives back the frame. -/
def Disciplined (e : Expr) : Prop :=
  ∀ ⦃t t' F⦄, e.translate.outcome t = (.ok (), t') → t.Seated F → ∃ c, Writes t t' F F F c

/-! ## Literals and variables -/

theorem Tidy.load {p : Place} (hp : p.In F) (hB : B <+: F) : Tidy B F p.load F := by
  cases p with
  | slot k =>
    refine .instr (i := .mov .rax (.memory (slotAddress k))) rfl ⟨by decide, ?_⟩ hB
    rintro _ ⟨⟩
    exact .inr ⟨k, rfl, hp k rfl⟩
  | param i =>
    cases hr : argRegisters[i]? with
    | some r =>
      simp only [Place.load, hr]
      exact .still rfl hB
    | none =>
      simp only [Place.load, hr]
      refine .instr (i := .mov .rax (.memory (stackParamAddress (i - argRegisters.length)))) rfl
        ⟨by decide, ?_⟩ hB
      rintro _ ⟨⟩
      exact .inl (Int.le_add_of_nonneg_right (by omega))
  | captured k => exact .still rfl hB
  | current => exact .still rfl hB
  | static l => exact .still rfl hB

theorem disciplined_literal (v : Literal) : Disciplined (.literal v n) := by
  intro t t' F h ht
  rw [Expr.translate] at h
  cases v with
  | nil | boolean b | number k =>
    rw [Translate.literal, outcome_emit] at h
    cases h
    exact ⟨_, .emitted (.still rfl (List.prefix_refl F)) ht.depth⟩
  | string s =>
    simp only [Translate.literal, emitData, Pass.outcome_bind, outcome_draw, Pass.outcome_modify,
      outcome_emitAll] at h
    cases h
    exact ⟨[.mov .rax (.label (.text t.next)), .or .rax Tag.string.bits.toInt],
      ⟨_, (Adds.draw.trans ((Adds.datum _).trans Adds.emitted)).congr ht.depth (fun _ ↦ rfl) rfl⟩,
      .still rfl (List.prefix_refl F)⟩

theorem disciplined_symbol (name : String) : Disciplined (.symbol name n) := by
  intro t t' F h ht
  rw [Expr.translate, Pass.outcome_bind_ok] at h
  obtain ⟨p, t₁, hp, h⟩ := h
  obtain ⟨hlook, rfl⟩ := (outcome_resolve t).mp hp
  rw [outcome_emitAll] at h
  cases h
  exact ⟨_, .emitted (.load (ht.lookup hlook) (List.prefix_refl F)) ht.depth⟩

/-! ## Conditionals and steps one after another -/

theorem disciplined_cond {test yes no : Expr} (htest : Disciplined test) (hyes : Disciplined yes)
    (hno : Disciplined no) : Disciplined (.cond test yes no n) := by
  intro t t' F h ht
  simp only [Expr.translate, Translate.cond, Pass.outcome_bind_ok, outcome_draw, Prod.mk.injEq,
    Except.ok.injEq, outcome_emitAll, outcome_emit] at h
  obtain ⟨_, t₀, ⟨rfl, rfl⟩, _, t₁, h₁, _, _, ⟨-, rfl⟩, _, t₂, h₂, _, _, ⟨-, rfl⟩, _, t₃, h₃, -,
    rfl⟩ := h
  have hpre := List.prefix_refl F
  have ht₀ : t.drawn.Seated F := ⟨ht.wellFormed, ht.depth, ht.isHeld, ht.notGlobal⟩
  obtain ⟨c₁, w₁⟩ := htest h₁ ht₀
  have ht₁ := (ht₀.writes w₁ hpre)
  obtain ⟨c₂, w₂⟩ := hno h₂ (ht₁.emitted hpre ht₁.depth _)
  have ht₂ := (ht₁.emitted hpre ht₁.depth _).writes w₂ hpre
  obtain ⟨c₃, w₃⟩ := hyes h₃ (ht₂.emitted hpre ht₂.depth _)
  have ht₃ := (ht₂.emitted hpre ht₂.depth _).writes w₃ hpre
  obtain ⟨f₁, a₁⟩ := w₁.adds
  obtain ⟨f₂, a₂⟩ := w₂.adds
  obtain ⟨f₃, a₃⟩ := w₃.adds
  exact ⟨condCode t.next c₁ c₂ c₃, ⟨_, (Adds.draw.trans (a₁.trans (Adds.emitted.trans (a₂.trans
    (Adds.emitted.trans (a₃.trans Adds.emitted)))))).congr ht₃.depth (fun _ ↦ rfl) rfl⟩,
      .conditional hpre w₁.tidy w₂.tidy w₃.tidy⟩

theorem translateAll_writes {es : List Expr} (hes : ∀ e ∈ es, Disciplined e)
    (h : (translateAll es).outcome t = (.ok (), t')) (ht : t.Seated F) :
    ∃ c, Writes t t' F F F c := by
  have hpre := List.prefix_refl F
  induction es generalizing t with
  | nil =>
    cases h
    exact ⟨[], .refl ht.depth hpre⟩
  | cons e es ih =>
    rw [translateAll, Pass.outcome_bind_ok] at h
    obtain ⟨_, t₁, h₁, h⟩ := h
    obtain ⟨he, hes⟩ := List.forall_mem_cons.mp hes
    obtain ⟨c₁, w₁⟩ := he h₁ ht
    obtain ⟨c₂, w₂⟩ := ih hes h (ht.writes w₁ hpre)
    exact ⟨_, w₁.trans w₂⟩

theorem disciplined_seq {steps : List Expr} (hsteps : ∀ e ∈ steps, Disciplined e) :
    Disciplined (.seq steps n) := by
  intro t t' F h ht
  rw [Expr.translate] at h
  cases steps with
  | nil => exact disciplined_literal (n := n) .nil h ht
  | cons e es => exact translateAll_writes hsteps h ht

/-! ## Words side by side -/

/-- The words of expressions are stored into room that was reserved behind the words of `B`. -/
theorem fill_writes {es : List Expr} (hes : ∀ e ∈ es, Disciplined e) {slot : Nat}
    (h : (fill slot (translateEach es)).outcome t = (.ok (), t')) (ht : t.Seated F) (hB : B <+: F)
    (hroom : ∀ k, slot < k + es.length → k ≤ slot → B.length < k ∧ cell F k = some .room) :
    ∃ c, Writes t t' B F F c := by
  have hpre := List.prefix_refl F
  induction es generalizing t slot with
  | nil =>
    cases h
    exact ⟨[], .refl ht.depth hB⟩
  | cons e es ih =>
    rw [translateEach, fill, Pass.outcome_bind_ok] at h
    obtain ⟨_, t₁, h₁, h⟩ := h
    rw [Pass.outcome_bind, outcome_emit] at h
    obtain ⟨he, hes⟩ := List.forall_mem_cons.mp hes
    rw [List.length_cons] at hroom
    obtain ⟨c₁, w₁⟩ := he h₁ ht
    have ht₁ := ht.writes w₁ hpre
    obtain ⟨hlt, hcell⟩ := hroom slot (by omega) (Nat.le_refl _)
    have hstore : Tidy B F [.store (slotAddress slot) .rax] F :=
      .instr (i := .store (slotAddress slot) .rax) rfl ⟨slot, rfl, hlt, hcell⟩ hB
    obtain ⟨c₂, w₂⟩ := ih hes h (ht₁.emitted hpre ht₁.depth _) fun k hk hle ↦
      hroom k (by omega) (by omega)
    exact ⟨_, (w₁.mono hB).trans ((Writes.emitted hstore ht₁.depth).trans w₂)⟩

/-- The words of expressions are pushed. -/
theorem pushEach_writes {es : List Expr} (hes : ∀ e ∈ es, Disciplined e)
    (h : (pushEach (translateEach es)).outcome t = (.ok (), t')) (ht : t.Seated F) :
    ∃ c, Writes t t' F F (F ++ List.replicate es.length .held) c := by
  have hpre := List.prefix_refl F
  induction es generalizing t F with
  | nil =>
    cases h
    rw [List.length_nil, List.replicate_zero, List.append_nil]
    exact ⟨[], .refl ht.depth hpre⟩
  | cons e es ih =>
    rw [translateEach, pushEach, Pass.outcome_bind_ok] at h
    obtain ⟨_, t₁, h₁, h⟩ := h
    rw [Pass.outcome_bind, outcome_push] at h
    obtain ⟨he, hes⟩ := List.forall_mem_cons.mp hes
    obtain ⟨c₁, w₁⟩ := he h₁ ht
    have ht₁ := ht.writes w₁ hpre
    have hpush : Tidy F F [Instr.push .rax] (F ++ [Cell.held]) := .push hpre
    have hdepth : t₁.activation.depth + 1 = (F ++ [Cell.held]).length := by
      rw [ht₁.depth, List.length_append, List.length_singleton]
    have hF := List.prefix_append F [Cell.held]
    obtain ⟨c₂, w₂⟩ := ih hes h (ht₁.emitted hF hdepth _) (List.prefix_refl _)
    rw [List.append_assoc, List.singleton_append, ← List.replicate_succ] at w₂
    exact ⟨_, w₁.trans ((Writes.emitted hpush hdepth).trans (w₂.mono hF))⟩

theorem Activation.free_of_mem (a : Activation) {r : Reg} (hr : r ∈ a.liveRegisters) : r.Free := by
  have := a.not_mem_of_mem_liveRegisters hr
  exact ⟨fun h ↦ this (by simp [h]), fun h ↦ this (by simp [h])⟩

/-- Registers are saved around a piece of code. -/
theorem Tidy.saving (a : Activation) (hB : B <+: F)
    (h : Tidy B (F ++ List.replicate a.liveRegisters.length .held) c
      (F ++ List.replicate a.liveRegisters.length .held)) :
    Tidy B F (a.liveRegisters.map .push ++ (c ++ a.liveRegisters.reverse.map .pop)) F := by
  have hrbp : Reg.rbp ∉ a.liveRegisters := fun h ↦ (a.free_of_mem h).2 rfl
  refine (Tidy.pushes hrbp hB).append (h.append (.pops (fun r hr ↦ ?_) hB ?_))
  · exact a.free_of_mem (List.mem_reverse.mp hr)
  · rw [List.length_replicate, List.length_reverse]

private theorem tidy_sequence {a : Activation} {shape : Shape} {k d : Nat} (hB : B <+: F)
    (hd : 0 < d) (hle : d ≤ F.length) :
    Tidy B F (a.liveRegisters.map .push ++ ([ .mov .rdi (.const k), .lea .rsi (slotAddress d),
      .call (.routine shape.routine) ] ++ a.liveRegisters.reverse.map .pop)) F := by
  refine .saving a hB ?_
  have hG := hB.trans (List.prefix_append F (List.replicate a.liveRegisters.length .held))
  have hlen := (List.prefix_append F (List.replicate a.liveRegisters.length Cell.held)).length_le
  generalize F ++ List.replicate a.liveRegisters.length Cell.held = G at hG hlen ⊢
  have hlea : Tidy B G [.lea .rsi (slotAddress d)] G :=
    .instr (i := .lea .rsi (slotAddress d)) rfl ⟨by decide, d, rfl, hd, by omega⟩ hG
  exact (Tidy.still (c := [.mov .rdi (.const k)]) rfl hG).append
    (hlea.append (.still (c := [.call (.routine shape.routine)]) rfl hG))

theorem disciplined_group {shape : Shape} {es : List Expr} (hes : ∀ e ∈ es, Disciplined e) :
    Disciplined (.group shape es n) := by
  intro t t' F h ht
  have hpre := List.prefix_refl F
  rw [Expr.translate, Translate.sequence] at h
  cases hne : es.isEmpty with
  | true =>
    obtain rfl := List.isEmpty_iff.mp hne
    rw [translateEach, List.isEmpty_nil, if_pos rfl, outcome_emit] at h
    cases h
    exact ⟨_, .emitted (.still rfl hpre) ht.depth⟩
  | false =>
    have hne' : (translateEach es).isEmpty = false := by
      rw [translateEach_eq_map, List.isEmpty_map, hne]
    rw [hne', if_neg (by decide)] at h
    simp only [Pass.outcome_bind_ok, outcome_reserve, outcome_depth, Pass.outcome_get,
      outcome_pushAll, outcome_emitAll, outcome_popAll, outcome_release, Prod.mk.injEq,
      Except.ok.injEq, translateEach_length] at h
    obtain ⟨_, _, ⟨-, rfl⟩, _, _, ⟨rfl, rfl⟩, _, t₂, h₂, _, _, ⟨rfl, rfl⟩, _, _, ⟨-, rfl⟩, _, _,
      ⟨-, rfl⟩, _, _, ⟨-, rfl⟩, -, rfl⟩ := h
    have hF := List.prefix_append F (List.replicate es.length Cell.room)
    have hlen : t.activation.depth + es.length
        = (F ++ List.replicate es.length Cell.room).length := by
      rw [ht.depth, List.length_append, List.length_replicate]
    have ht₁ := ht.emitted hF hlen (reserveCode es.length)
    obtain ⟨c, w⟩ := fill_writes hes h₂ ht₁ hF fun k hk hle ↦ by
      rw [ht₁.depth, ← hlen, ht.depth] at hk hle
      exact ⟨by omega, cell_append_replicate (by omega) (by omega)⟩
    have ht₂ := ht₁.writes w (List.prefix_refl _)
    have hpos : 0 < es.length := List.length_pos_iff.mpr fun h ↦ by simp [h] at hne
    have hcall := @tidy_sequence F _ t₂.activation shape es.length _ hF (by omega)
      (Nat.le_of_eq hlen)
    have htail := hcall.append (.release hpre (List.length_replicate (n := es.length)))
    simp only [Translator.emitted_emitted]
    refine ⟨_, (Writes.emitted (.reserve es.length hpre) hlen).trans (w.trans (.emitted
      (c := _) (by simpa [List.append_assoc] using htail) ?_))⟩
    simp [ht₂.depth]

/-! ## Calls -/

/-- The words of arguments are pushed, or stored into the room that was reserved for them. -/
theorem passArgs_writes {es : List Expr} (hes : ∀ e ∈ es, Disciplined e)
    (h : (passArgs t.activation.depth 0 (translateEach es)).outcome t = (.ok (), t'))
    (ht : t.Seated (F ++ List.replicate (es.length - argRegisters.length) .room)) :
    ∃ c, Writes t t' F (F ++ List.replicate (es.length - argRegisters.length) .room)
      (F ++ List.replicate (es.length - argRegisters.length) .room ++
        List.replicate (es.take argRegisters.length).length .held) c := by
  rw [passArgs_eq _ _ (Nat.zero_le _), Nat.sub_zero, translateEach_eq_map, ← List.map_take,
    ← List.map_drop, ← translateEach_eq_map, ← translateEach_eq_map, Pass.outcome_bind_ok] at h
  obtain ⟨_, t₁, h₁, h₂⟩ := h
  obtain ⟨c₁, w₁⟩ := pushEach_writes (fun e he ↦ hes e (List.mem_of_mem_take he)) h₁ ht
  have ht₁ := ht.writes w₁ (List.prefix_append _ _)
  have hF := List.prefix_append F (List.replicate (es.length - argRegisters.length) Cell.room)
  have hlen : t.activation.depth = F.length + (es.length - argRegisters.length) := by
    rw [ht.depth, List.length_append, List.length_replicate]
  obtain ⟨c₂, w₂⟩ := fill_writes (fun e he ↦ hes e (List.mem_of_mem_drop he)) h₂ ht₁
    (hF.trans (List.prefix_append _ _)) fun k hk hle ↦ by
      rw [List.length_drop] at hk
      exact ⟨by omega, cell_append (cell_append_replicate (by omega) (by omega))⟩
  exact ⟨_, (w₁.mono hF).trans w₂⟩

/-- The code of a call behind that of its arguments and its callee. -/
private theorem tidy_apply {G : Cells} {k : Nat} (hB : B <+: F)
    (hG : G.length = (argRegisters.take k).length) :
    Tidy B (F ++ G)
      (checkCode ++ (fetchCode (argRegisters.take k).reverse ++ [Instr.callThrough .rax])) F := by
  have hFG := hB.trans (List.prefix_append F G)
  have hfree : ∀ r ∈ (argRegisters.take k).reverse, r.Free := by
    have hall : ∀ r ∈ argRegisters, r.Free := by decide
    exact fun r hr ↦ hall r (List.mem_of_mem_take (List.mem_reverse.mp hr))
  have hcheck : Tidy B (F ++ G) checkCode (F ++ G) := .still rfl hFG
  have hmov : Tidy B (F ++ G) [.mov .rdi (.reg .rax)] (F ++ G) := .still rfl hFG
  have hpops := Tidy.pops hfree hB (by rw [hG, List.length_reverse])
  have hpointer : Tidy B F [.mov .rax (.reg .rdi), .and .rax (~~~Tag.mask).toInt] F := .still rfl hB
  have hcall : Tidy B F [.callThrough .rax] F := .still rfl hB
  exact hcheck.append ((hmov.append (hpops.append hpointer)).append hcall)

theorem disciplined_call {callee : Expr} {args : List Expr} {spread : Option Nat}
    (hcallee : Disciplined callee) (hargs : ∀ e ∈ args, Disciplined e) :
    Disciplined (.call callee args spread n) := by
  intro t t' F h ht
  have hes : ∀ e ∈ passedExprs spread args, Disciplined e :=
    forall_passedExprs hargs (fun _ ↦ disciplined_group) spread
  simp only [Expr.translate, Translate.call, passed_translateEach, Pass.outcome_bind_ok,
    Pass.outcome_get, outcome_pushAll, outcome_reserve, outcome_depth, outcome_emitAll,
    outcome_popAll, outcome_release, Prod.mk.injEq, Except.ok.injEq, translateEach_length] at h
  obtain ⟨_, _, ⟨rfl, rfl⟩, _, _, ⟨-, rfl⟩, _, _, ⟨-, rfl⟩, _, _, ⟨rfl, rfl⟩, _, t₁, h₁, _, t₂, h₂,
    _, _, ⟨-, rfl⟩, _, _, ⟨-, rfl⟩, _, _, ⟨-, rfl⟩, _, _, ⟨-, rfl⟩, -, rfl⟩ := h
  generalize passedExprs spread args = es at *
  have hpre := List.prefix_refl F
  have hfree : ∀ r ∈ t.activation.liveRegisters, r.Free := fun r ↦ t.activation.free_of_mem
  generalize hlive : t.activation.liveRegisters = live at *
  have hF₁ := List.prefix_append F (List.replicate live.length Cell.held)
  have hlen₁ : t.activation.depth + live.length
      = (F ++ List.replicate live.length Cell.held).length := by
    rw [ht.depth, List.length_append, List.length_replicate]
  have hpushes := Tidy.pushes (fun h ↦ (hfree _ h).2 rfl) hpre
  have ht₁ := ht.emitted hF₁ hlen₁ (live.map .push)
  have hpops : Tidy F (F ++ List.replicate live.length .held) (live.reverse.map .pop) F :=
    .pops (fun r hr ↦ hfree r (List.mem_reverse.mp hr)) hpre (by simp)
  generalize F ++ List.replicate live.length Cell.held = F₁ at *
  have hF₂ := List.prefix_append F₁ (List.replicate (es.length - argRegisters.length) Cell.room)
  have hlen₂ : t.activation.depth + live.length + (es.length - argRegisters.length)
      = (F₁ ++ List.replicate (es.length - argRegisters.length) Cell.room).length := by
    rw [hlen₁, List.length_append, List.length_replicate]
  have ht₂ := ht₁.emitted hF₂ hlen₂ (reserveCode (es.length - argRegisters.length))
  obtain ⟨c₁, w₁⟩ := passArgs_writes hes h₁ ht₂
  have ht₃ := ht₂.writes w₁ (List.prefix_append _ _)
  obtain ⟨c₂, w₂⟩ := hcallee h₂ ht₃
  have ht₄ := ht₃.writes w₂ (List.prefix_refl _)
  have hmin : (es.take argRegisters.length).length = (argRegisters.take es.length).length := by
    rw [List.length_take, List.length_take, Nat.min_comm]
  have hcall := tidy_apply (hF₁.trans hF₂) ((List.length_replicate (a := Cell.held)).trans hmin)
  have htail := hcall.append ((Tidy.release hF₁ List.length_replicate).append hpops)
  simp only [Translator.emitted_emitted]
  refine ⟨_, (Writes.emitted hpushes hlen₁).trans ((Writes.emitted (.reserve _ hF₁) hlen₂).trans
    ((w₁.mono hF₁).trans ((w₂.mono ?_).trans (.emitted (c := _) ?_ ?_))))⟩
  · exact (hF₁.trans hF₂).trans (List.prefix_append _ _)
  · simpa [checkCode, fetchCode] using htail
  · have hdepth := ht₄.depth
    simp only [List.length_append, List.length_replicate] at hdepth
    simp only [Translator.activation_emitted, List.length_reverse, ← hmin, hdepth]
    have := ht.depth
    omega

/-! ## Bindings -/

theorem Translator.Seated.bound (h : t.Seated F) (hcur : t.scopes.current ≠ ScopeId.global)
    (name : String) : (t.bound name).Seated (F ++ [Cell.held]) := by
  have hpre := List.prefix_append F [Cell.held]
  have hloc : (t.bound name).scopes.locals
      = (name, .slot (t.activation.depth + 1)) :: t.scopes.locals :=
    h.wellFormed.locals_define hcur name _
  have hglob : (t.bound name).scopes.globals = t.scopes.globals := Scopes.globals_define hcur name _
  refine ⟨h.wellFormed.define _ _, ?_, fun x k hk ↦ ?_, fun x k ↦ by
    rw [hglob]; exact h.notGlobal x k⟩
  · rw [List.length_append, ← h.depth]
    rfl
  · rw [hloc, List.lookup_cons] at hk
    split at hk
    · obtain rfl : t.activation.depth + 1 = k := by simpa using hk
      rw [h.depth]
      exact cell_append_replicate (n := 1) (Nat.lt_succ_self _) (Nat.le_refl _)
    · exact cell_append (h.isHeld x k hk)

/-- The words of the variables are pushed. What is written is said of the frame outside, as the
variables are left at the end of the `let`. -/
theorem translateBindings_writes {bs : List (String × Expr)} (hbs : ∀ b ∈ bs, Disciplined b.2)
    (h : (translateBindings bs).outcome t = (.ok (), t')) (ht : t.Seated F)
    (hcur : t.scopes.current ≠ ScopeId.global) (saved : ScopeId) :
    t'.Seated (F ++ List.replicate bs.length .held) ∧
      ∃ c, Writes { t with scopes := t.scopes.exit saved }
        { t' with scopes := t'.scopes.exit saved } F F (F ++ List.replicate bs.length .held) c := by
  have hpre := List.prefix_refl F
  induction bs generalizing t F with
  | nil =>
    cases h
    rw [List.length_nil, List.replicate_zero, List.append_nil]
    exact ⟨ht, [], .refl ht.depth hpre⟩
  | cons b bs ih =>
    obtain ⟨name, value⟩ := b
    rw [translateBindings, Pass.outcome_bind_ok] at h
    obtain ⟨_, t₁, h₁, h⟩ := h
    rw [Pass.outcome_bind, outcome_bindSlot] at h
    obtain ⟨hvalue, hbs⟩ := List.forall_mem_cons.mp hbs
    obtain ⟨c₁, w₁⟩ := hvalue h₁ ht
    have ht₁ := ht.writes w₁ hpre
    obtain ⟨f₁, a₁⟩ := w₁.adds
    have hcur₁ : t₁.scopes.current ≠ ScopeId.global := a₁.current ▸ hcur
    have hF := List.prefix_append F [Cell.held]
    obtain ⟨ht', c₂, w₂⟩ := ih hbs h (ht₁.bound hcur₁ name) hcur₁ (List.prefix_refl _)
    rw [List.append_assoc, List.singleton_append, ← List.replicate_succ] at ht' w₂
    have hpush : Writes { t₁ with scopes := t₁.scopes.exit saved }
        { t₁.bound name with scopes := (t₁.bound name).scopes.exit saved } F F (F ++ [Cell.held])
        [.push .rax] := by
      have hexit : (t₁.bound name).scopes.exit saved = t₁.scopes.exit saved :=
        Scopes.exit_define ..
      rw [hexit]
      refine .emitted (.push hpre) ?_
      rw [ht₁.depth, List.length_append, List.length_singleton]
    exact ⟨ht', _, (w₁.exit saved).trans (hpush.trans (w₂.mono hF))⟩

theorem disciplined_letIn {bs : List (String × Expr)} {body : Expr}
    (hbs : ∀ b ∈ bs, Disciplined b.2) (hbody : Disciplined body) :
    Disciplined (.letIn bs body n) := by
  intro t t' F h ht
  rw [Expr.translate, nested, Pass.outcome_between_ok] at h
  obtain ⟨t₃, h, rfl⟩ := h
  simp only [Pass.outcome_bind_ok, outcome_release] at h
  obtain ⟨_, t₁, h₁, _, t₂, h₂, h⟩ := h
  obtain ⟨-, rfl⟩ := Prod.mk.inj h
  have hs := ht.wellFormed
  have ht₀ : Translator.Seated { t with scopes := t.scopes.enter } F :=
    ⟨hs.enter, ht.depth, by simpa only [hs.locals_enter] using ht.isHeld,
      by simpa only [hs.globals_enter] using ht.notGlobal⟩
  obtain ⟨ht₁, c₁, w₁⟩ := translateBindings_writes hbs h₁ ht₀ hs.current_enter t.scopes.current
  obtain ⟨c₂, w₂⟩ := hbody h₂ ht₁
  have ht₂ := ht₁.writes w₂ (List.prefix_refl _)
  have hexit : { t with scopes := t.scopes.enter.exit t.scopes.current } = t := by
    rw [Scopes.enter, Scopes.exit_enterFrom]
  have hdepth : t₂.activation.depth - bs.length = F.length := by
    rw [ht₂.depth, List.length_append, List.length_replicate, Nat.add_sub_cancel]
  have hF := List.prefix_append F (List.replicate bs.length Cell.held)
  have hrelease : Tidy F (F ++ List.replicate bs.length .held) (releaseCode bs.length) F :=
    .release (List.prefix_refl F) List.length_replicate
  have w := w₁.trans (((w₂.mono hF).exit t.scopes.current).trans (.emitted hrelease hdepth))
  rw [hexit] at w
  exact ⟨_, w⟩

/-! ## Functions -/

/-- Captured words are copied while the address of the closure is on top of the stack. -/
private theorem tidy_capture {ps : List Place} (hps : ∀ p ∈ ps, p.In F) (hB : B <+: F)
    (hF : F ≠ []) (offset : Nat) : Tidy B F (captureCode offset ps) F := by
  induction ps generalizing offset with
  | nil => exact .nil hB
  | cons p ps ih =>
    obtain ⟨hp, hps⟩ := List.forall_mem_cons.mp hps
    have htop : Tidy B F [.mov .r11 (.memory ⟨.rsp, 0⟩)] F := by
      refine .instr (i := .mov .r11 (.memory ⟨.rsp, 0⟩)) rfl ⟨by decide, ?_⟩ hB
      rintro _ ⟨⟩
      exact ⟨rfl, hF⟩
    have hstore : Tidy B F [.store ⟨.r11, offset⟩ .rax] F := .still rfl hB
    exact (Tidy.load hp hB).append (htop.append (hstore.append (ih hps (offset + 8))))

private theorem tidy_allocate {a : Activation} {code : Label} {ps : List Place}
    (hps : ∀ p ∈ ps, p.In F) : Tidy F F (allocateCode a.liveRegisters code ps) F := by
  have hpre := List.prefix_refl F
  have hF := List.prefix_append F [Cell.held]
  have hcall : Tidy F F (a.liveRegisters.map .push ++
      ([Instr.mov .rax (.const (8 * (1 + ps.length))), .call (.routine .allocate)] ++
        a.liveRegisters.reverse.map .pop)) F :=
    .saving a hpre (.still rfl (List.prefix_append _ _))
  have hcode : Tidy F F [.mov .r11 (.label code), .store ⟨.rax, 0⟩ .r11] F := .still rfl hpre
  have hpush : Tidy F F [Instr.push .rax] (F ++ [Cell.held]) := .push hpre
  have hcapture : Tidy F (F ++ [Cell.held]) (captureCode 8 ps) (F ++ [Cell.held]) :=
    tidy_capture (fun p hp k hk ↦ cell_append (hps p hp k hk)) hF (by simp) 8
  have hpop : Tidy F (F ++ [Cell.held]) ([Reg.rax].map .pop) F := .pops (by decide) hpre rfl
  have hor : Tidy F F [.or .rax Tag.closure.bits.toInt] F := .still rfl hpre
  exact hcall.append (hcode.append (hpush.append (hcapture.append (hpop.append hor))))

/-- A body is translated in an empty frame, in which no variable has its word on the stack below
`rbp`. -/
theorem Translator.Seated.inBody (h : t.Seated F) (head : FnHead) (captures : Captures) (id : Nat) :
    (t.inBody head captures id).Seated [] := by
  have hs := h.wellFormed
  have hcur := hs.current_enterFrom ScopeId.global
  refine ⟨Translator.wellFormed_inBody hs head captures id, rfl, fun x k hk ↦ ?_, fun x k ↦ ?_⟩
  · rw [Translator.scopes_inBody, (hs.enterFrom hs.global_lt).locals_defineAll _ hcur, hs.locals_enterFrom_global,
      List.append_nil] at hk
    have hmem := List.mem_reverse.mp (Scopes.mem_of_lookup hk)
    simp only [bodyPlaces, List.mem_append, List.mem_mapIdx, List.mem_map] at hmem
    rcases hmem with (⟨_, _, heq⟩ | ⟨_, _, heq⟩) | ⟨_, _, heq⟩
    · cases heq
    · cases heq
    · split at heq <;> cases heq
  · rw [Translator.scopes_inBody, Scopes.globals_defineAll _ hcur, hs.globals_enterFrom]
    exact h.notGlobal x k

/-- The captured variables are in the frame. -/
private theorem in_of_mapM (h : t.Seated F) {names : List String} {ps : List Place}
    (hps : names.mapM t.scopes.lookup = some ps) : ∀ p ∈ ps, p.In F := by
  intro p hp
  obtain ⟨x, hx⟩ := Scopes.exists_of_mem_mapM hps hp
  exact h.lookup hx

theorem disciplined_fn {head : FnHead} {body : Expr} (hbody : Disciplined body) :
    Disciplined (.fn head body n) := by
  intro t t' F h ht
  simp only [Expr.translate, Translate.fn, isolated, Pass.outcome_bind_ok, outcome_draw,
    outcome_emitAll, outcome_places, Pass.outcome_between_ok, Prod.mk.injEq, Except.ok.injEq] at h
  obtain ⟨_, _, ⟨rfl, rfl⟩, sources, _, ⟨hsources, rfl⟩, _, _, ⟨-, rfl⟩, _, _, ⟨t₂, h₂, rfl⟩, _, _,
    ⟨-, rfl⟩, h⟩ := h
  have hpre := List.prefix_refl F
  have ht₀ : t.drawn.Seated F := ⟨ht.wellFormed, ht.depth, ht.isHeld, ht.notGlobal⟩
  have ht₁ := (ht₀.emitted hpre ht.depth [.jmp (.after t.next), .label (.code head.name t.next),
    .push .rbp, .mov .rbp (.reg .rsp)]).inBody head n.captures t.next
  obtain ⟨c, ⟨f, hf⟩, htidy⟩ := hbody h₂ ht₁
  have hadds := Adds.draw.trans (Adds.emitted.trans ((adds_body hf).trans
    (Adds.emitted (d := t.activation.depth) (c := [.pop .rbp, .ret, .label (.after t.next)]))))
  cases sources with
  | nil =>
    simp only [List.isEmpty_nil, if_true, Pass.outcome_bind_ok, emitData, Pass.outcome_modify,
      outcome_emitAll, Prod.mk.injEq] at h
    obtain ⟨_, _, ⟨-, rfl⟩, _, _, ⟨-, rfl⟩, h⟩ := h
    have hmake := hadds.trans ((Adds.datum (.closure (.closure head.name t.next)
      (.code head.name t.next))).trans (Adds.emitted (d := t.activation.depth)
        (c := (Place.static (.closure head.name t.next)).load)))
    obtain ⟨-, hname⟩ := adds_name h
    have hload : Tidy F F (Place.static (.closure head.name t.next)).load F :=
      .load (by simp [Place.In]) hpre
    exact ⟨fnCode head.name t.next c (Place.static (.closure head.name t.next)).load,
      ⟨_, (hmake.trans hname).congr ht.depth (fun _ ↦ rfl) (by simp [fnCode])⟩,
      .function hpre htidy hload⟩
  | cons p ps =>
    rw [List.isEmpty_cons, if_neg (by decide), outcome_allocate] at h
    cases h
    exact ⟨fnCode head.name t.next c
      (allocateCode t.activation.liveRegisters (.code head.name t.next) (p :: ps)),
      ⟨_, (hadds.trans Adds.emitted).congr ht.depth (fun _ ↦ rfl) (by simp [fnCode]; rfl)⟩,
      .function hpre htidy (tidy_allocate (a := t.activation) (in_of_mapM ht₀ hsources))⟩

/-! ## The discipline -/

theorem disciplined (e : Expr) : Disciplined e := by
  induction e using Expr.memberInduction with
  | literal v n => exact disciplined_literal v
  | symbol name n => exact disciplined_symbol name
  | group shape elems n helems => exact disciplined_group helems
  | cond test yes no n htest hyes hno => exact disciplined_cond htest hyes hno
  | letIn bindings body n hbindings hbody => exact disciplined_letIn hbindings hbody
  | fn head body n hbody => exact disciplined_fn hbody
  | seq steps n hsteps => exact disciplined_seq hsteps
  | call callee args spread n hcallee hargs => exact disciplined_call hcallee hargs

theorem Translator.Valid.seated (h : t.Valid) :
    t.Seated (List.replicate t.activation.depth .held) where
  wellFormed := h.wellFormed
  depth := List.length_replicate.symm
  isHeld x k hk := by
    obtain ⟨hpos, hle⟩ := h.slot x k hk
    exact cell_append_replicate (F := []) hpos (by rwa [List.length_nil, Nat.zero_add])
  notGlobal := h.notGlobal

/-- The code of an expression gives back the depth. From the words that are pushed when it starts,
it keeps order until its end, and so does every function in it, from an empty frame until it
returns. -/
theorem stack_discipline {e : Expr} (ht : t.Valid) (h : e.translate.outcome t = (.ok (), t')) :
    t'.activation = t.activation ∧ t'.code.toList = t.code.toList ++ t.since t' ∧
    Orderly (t.since t') (t.activation.depth, []) 0 (List.replicate t.activation.depth .held)
      (· = (t.since t').length) ∧
    ∀ pc name id, (t.since t')[pc]? = some (.label (.code name id)) →
      FunctionAt (t.since t') (t.activation.depth, []) pc := by
  obtain ⟨c, ⟨f, hf⟩, htidy⟩ := disciplined e h ht.seated
  obtain ⟨c', hc', -⟩ := correct smallSetting e h ht.wellFormed
  obtain rfl : t.since t' = c := hf.since_eq
  obtain rfl : t.since t' = c' := hc'.since_eq
  have hst : Stands (t.since t') (t.activation.depth, []) 0 (t.since t')
      ((List.replicate t.activation.depth Cell.held).length, []) :=
    ⟨.of_numbered hc'.numbered, [], [], by simp, rfl, by rw [List.length_replicate]; rfl⟩
  refine ⟨hc'.activation, hf.code, Guarded.orderly ?_ ?_ ⟨_, rfl, ?_⟩, fun pc name id hpc ↦ ?_⟩
  · refine (htidy.guarded hst).imp ?_
    rintro _ _ ⟨rfl, rfl⟩
    exact ⟨Nat.zero_add _, rfl⟩
  · rintro _ rfl i hi
    rw [List.getElem?_eq_none (Nat.le_refl _)] at hi
    cases hi
  · have := htidy.walks hst
    rwa [Nat.zero_add] at this
  · have := htidy.functions hst hpc
    rwa [Nat.zero_add] at this

theorem captureExpr_discipline :
    Orderly (startCode captureExpr) (0, []) 0 [] (· = (startCode captureExpr).length) ∧
      ∃ pc name id, (startCode captureExpr)[pc]? = some (.label (.code name id)) ∧
        FunctionAt (startCode captureExpr) (0, []) pc := by
  obtain ⟨-, -, horder, hfn⟩ :=
    stack_discipline (e := captureExpr) (Translator.Reached.start 0).valid rfl
  exact ⟨horder, _, _, _, rfl, hfn 5 none 0 rfl⟩

end TaggedLisp.Machine
