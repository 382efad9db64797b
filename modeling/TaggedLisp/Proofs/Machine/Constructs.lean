import TaggedLisp.Proofs.Machine.Agreement

/-!
# Literals, variables, conditionals and `let`

`Correct` says that the code of an expression does what the evaluation of the expression says,
wherever the code stands and whatever has been pushed by then. Each construct is correct if its
parts are, and nothing is used of the parts but that.
-/

namespace TaggedLisp.Machine

open Translate

variable {S : Setting} {σ τ : State} {t t' : Translator} {G ρ : String → Option Word} {n : Note}

/-- The word of an expression is in `rax`, and all that is still needed is kept. -/
def Yields (S : Setting) (live : List Reg) (σ : State) (w : Word) (τ : State) : Prop :=
  Keeps S live 0 σ τ ∧ τ.reg .rax = w

/-- The translation of an expression writes code that gives the word of the expression. -/
def Correct (S : Setting) (e : Expr) : Prop :=
  ∀ ⦃t t' : Translator⦄, e.translate.outcome t = (.ok (), t') → t.scopes.WellFormed →
    ∃ c, Emits S.address t t' t.activation.depth (e.statics S.address) c ∧
      ∀ ⦃G ρ σ⦄, Ready S t G ρ σ → S.Fits c σ →
        Executes S c σ (e.eval S.address ⟨t.next, G⟩ ρ) (Yields S t.activation.liveRegisters σ)

/-- Code that only changes intermediate results. -/
theorem Yields.of_changes {a : Activation} {w : Word} (hw : τ.reg .rax = w) (h : Changes σ τ) :
    Yields S a.liveRegisters σ w τ := ⟨h.keeps a, hw⟩

/-! ## Literals and variables -/

/-- The load of a word. -/
theorem Executes.loadWord {a : Activation} {i : Instr} {w : Word}
    (h : i.action S.address σ = .next (σ.set .rax w)) :
    Executes S [i] σ (.done w) (Yields S a.liveRegisters σ) :=
  .next h (.nil (.of_changes (State.reg_set_self ..) Changes.refl.rax))

theorem correct_literal (v : Literal) : Correct S (.literal v n) := by
  intro t t' h _
  rw [Expr.translate] at h
  cases v with
  | nil =>
    rw [Translate.literal, outcome_emit] at h
    cases h
    refine ⟨_, .emitted rfl, fun G ρ σ _ _ ↦ ?_⟩
    rw [Expr.eval]
    exact .next rfl (.nil (.of_changes (State.reg_set_self σ .rax 0) Changes.refl.rax.test))
  | boolean b =>
    rw [Translate.literal, outcome_emit] at h
    cases h
    refine ⟨_, .emitted rfl, fun G ρ σ _ _ ↦ ?_⟩
    rw [Expr.eval]
    exact Executes.loadWord (by rw [Instr.action, ofInt_toInt]; rfl)
  | number k =>
    rw [Translate.literal, outcome_emit] at h
    cases h
    refine ⟨_, .emitted rfl, fun G ρ σ _ _ ↦ ?_⟩
    rw [Expr.eval]
    exact Executes.loadWord (by rw [Instr.action, ofInt_toInt]; rfl)
  | string s =>
    simp only [Translate.literal, emitData, Pass.outcome_bind, outcome_draw, Pass.outcome_modify,
      outcome_emitAll] at h
    cases h
    refine ⟨[.mov .rax (.label (.text t.next)), .or .rax Tag.string.bits.toInt],
      ⟨⟨by simp [Translator.emitted, Translator.drawn], rfl, [], rfl, fun _ ↦ rfl⟩,
        .nil (Nat.le_succ _)⟩,
      fun G ρ σ _ _ ↦ ?_⟩
    rw [Expr.eval]
    refine .next rfl (.next rfl (.nil (.of_changes ?_ Changes.refl.rax.rax.test)))
    rw [State.reg_test, State.reg_set_self, State.reg_set_self, ofInt_toInt]
    rfl

theorem correct_symbol (name : String) : Correct S (.symbol name n) := by
  intro t t' h _
  rw [Expr.translate, Pass.outcome_bind_ok] at h
  obtain ⟨p, t₁, hp, h⟩ := h
  obtain ⟨hlook, rfl⟩ := (outcome_resolve t).mp hp
  rw [outcome_emitAll] at h
  cases h
  refine ⟨p.load, .emitted (labels_load p), fun G ρ σ hready _ ↦ ?_⟩
  obtain ⟨w, hw, hp⟩ := hready.resolve hlook
  rw [Expr.eval, Statics.lookup, hw]
  refine (Executes.place hp hready.framed.rbp_aligned).andDone ?_
  rintro τ ⟨hrax, hτ⟩
  exact .of_changes hrax hτ

/-! ## Conditionals -/

/-- The code of a conditional around the code of its parts. -/
def condCode (id : Nat) (test no yes : List Instr) : List Instr :=
  test ++ ([.cmp .rax trueWord.toInt, .je (.yes id)] ++
    (no ++ ([.jmp (.after id), .label (.yes id)] ++ (yes ++ [.label (.after id)]))))

/-- The labels of a conditional are those of its parts and two of its own. -/
private theorem numbered_condCode {id m₁ m₂ m₃ : Nat} {c₁ c₂ c₃ : List Instr}
    (h₁ : Numbered (id + 1) m₁ (labels c₁)) (h₂ : Numbered m₁ m₂ (labels c₂))
    (h₃ : Numbered m₂ m₃ (labels c₃)) : Numbered id m₃ (labels (condCode id c₁ c₂ c₃)) := by
  have hpair : Numbered id (id + 1) [.yes id, .after id] := .pair rfl rfl (by simp)
  refine (hpair.append (h₁.append (h₂.append h₃))).perm (List.perm_iff_count.mpr fun l ↦ ?_)
  have hlabels : labels (condCode id c₁ c₂ c₃)
      = labels c₁ ++ (labels c₂ ++ (.yes id :: (labels c₃ ++ [.after id]))) := by
    simp [condCode, labels]
  rw [hlabels]
  simp only [List.count_append, List.count_cons, List.count_nil]
  omega

/-- The code of a conditional runs the test and one of the branches. -/
private theorem executes_condCode {id : Nat} {c₁ c₂ c₃ : List Instr} {d : Evaluation Word}
    {d' : Word → Evaluation Word} {P : State → Prop} {Q : Word → State → Prop}
    (h₁ : Executes S c₁ σ d fun w τ ↦ P τ ∧ τ.reg .rax = w)
    (hP : ∀ τ w, P τ → P (τ.test w))
    (h₂ : ∀ w τ, P τ → w ≠ trueWord.toBitVec → Executes S c₂ τ (d' w) Q)
    (h₃ : ∀ w τ, P τ → w = trueWord.toBitVec → Executes S c₃ τ (d' w) Q) :
    Executes S (condCode id c₁ c₂ c₃) σ (d >>= d') Q := by
  refine h₁.bind ?_
  rintro w τ ⟨hτ, hw⟩
  refine .next rfl ?_
  rw [hw, ofInt_toInt]
  have hafter : ∀ w τ, Q w τ → Executes S [.label (.after id)] τ (.done w) Q :=
    fun w τ hQ ↦ .next rfl (.nil hQ)
  by_cases htrue : w = trueWord.toBitVec
  · have hzero : (τ.test (w - trueWord.toBitVec)).zero = true := by
      rw [State.zero_test, sub_beq_zero, decide_eq_true htrue]
    have := (h₃ w (τ.test (w - trueWord.toBitVec)) (hP τ _ hτ) htrue).bind hafter
    rw [Dialogue.bind_done] at this
    have hskip : Executes S (.je (.yes id) :: (c₂ ++ [Instr.jmp (.after id)]) ++
        Instr.label (.yes id) :: (c₃ ++ [Instr.label (.after id)])) _ (d' w) Q :=
      .skip (action_je hzero) this
    simpa using hskip
  · have hzero : (τ.test (w - trueWord.toBitVec)).zero = false := by
      rw [State.zero_test, sub_beq_zero, decide_eq_false htrue]
    refine .next (action_je_next hzero) ?_
    rw [← Dialogue.bind_done (d' w)]
    refine (h₂ w _ (hP τ _ hτ) htrue).bind fun v υ hQ ↦ ?_
    have hskip : Executes S (.jmp (.after id) :: (.label (.yes id) :: c₃) ++
        .label (.after id) :: []) υ (.done v) Q := .skip rfl (.nil hQ)
    simpa using hskip

theorem correct_cond {test yes no : Expr} (htest : Correct S test) (hyes : Correct S yes)
    (hno : Correct S no) : Correct S (.cond test yes no n) := by
  intro t t' h hs
  simp only [Expr.translate, Translate.cond, Pass.outcome_bind_ok, outcome_draw, Prod.mk.injEq,
    Except.ok.injEq, outcome_emitAll, outcome_emit] at h
  obtain ⟨_, t₀, ⟨rfl, rfl⟩, _, t₁, h₁, _, _, ⟨-, rfl⟩, _, t₂, h₂, _, _, ⟨-, rfl⟩, _, t₃, h₃, -,
    rfl⟩ := h
  obtain ⟨c₁, e₁, r₁⟩ := htest h₁ hs
  obtain ⟨c₂, e₂, r₂⟩ := hno h₂ (e₁.wellFormed hs)
  obtain ⟨c₃, e₃, r₃⟩ := hyes h₃ (e₂.wellFormed (e₁.wellFormed hs))
  have a₁ : t₁.activation = t.activation := e₁.activation
  have a₂ : t₂.activation = t.activation := e₂.activation.trans a₁
  have a₃ : t₃.activation = t.activation := e₃.activation.trans a₂
  refine ⟨condCode t.next c₁ c₂ c₃, ⟨?_, numbered_condCode e₁.numbered e₂.numbered e₃.numbered⟩,
    fun G ρ σ hready hfits ↦ ?_⟩
  · rw [show t.activation.depth = t₃.activation.depth by rw [a₃]]
    exact Adds.draw.trans (e₁.toAdds.trans (Adds.emitted.trans (e₂.toAdds.trans
      (Adds.emitted.trans (e₃.toAdds.trans Adds.emitted)))))
  · have hready₀ : Ready S t.drawn G ρ σ := ⟨hready.of_activation rfl rfl, hready.framed⟩
    have hfits₂ : ∀ τ, Keeps S t.activation.liveRegisters 0 σ τ → S.Fits c₂ τ ∧ S.Fits c₃ τ := by
      intro τ hτ
      have htop : τ.top = σ.top := hτ.top
      simp only [Setting.Fits, condCode, room_append] at hfits ⊢
      omega
    rw [Expr.eval]
    refine executes_condCode (P := fun τ ↦ Keeps S t.activation.liveRegisters 0 σ τ)
      (r₁ hready₀ hfits.left) (fun τ w h ↦ ⟨h.top, h.rbp, h.live, h.mem⟩) ?_ ?_
    · intro w τ hτ hw
      obtain ⟨G₁, hG₁, hready₁⟩ := hready₀.emits hs e₁ hτ
      rw [if_neg hw, show test.statics S.address (Statics.draw ⟨t.next, G⟩) = _ from hG₁]
      refine (r₂ (hready₁.emitted .refl _) (hfits₂ τ hτ).1).mono ?_
      rintro v υ ⟨hυ, hv⟩
      refine ⟨?_, hv⟩
      rw [Translator.activation_emitted, a₁] at hυ
      exact hτ.trans hυ
    · intro w τ hτ hw
      obtain ⟨G₁, hG₁, hready₁⟩ := hready₀.emits hs e₁ hτ
      obtain ⟨G₂, hG₂, hready₂⟩ := (hready₁.emitted .refl _).emits (e₁.wellFormed hs) e₂ .refl
      rw [if_pos hw, show test.statics S.address (Statics.draw ⟨t.next, G⟩) = _ from hG₁,
        show no.statics S.address ⟨t₁.next, G₁⟩ = _ from hG₂]
      refine (r₃ (hready₂.emitted .refl _) (hfits₂ τ hτ).2).mono ?_
      rintro v υ ⟨hυ, hv⟩
      refine ⟨?_, hv⟩
      rw [Translator.activation_emitted, a₂] at hυ
      exact hτ.trans hυ

/-! ## Steps one after another -/

/-- The word of the last expression is in `rax`; without any, it is what it was. -/
theorem translateAll_correct {es : List Expr} (hes : ∀ e ∈ es, Correct S e) {t t' : Translator}
    (h : (translateAll es).outcome t = (.ok (), t')) (hs : t.scopes.WellFormed) :
    ∃ c, Emits S.address t t' t.activation.depth (staticsAll S.address es) c ∧
      ∀ ⦃G ρ σ⦄, Ready S t G ρ σ → S.Fits c σ →
        Executes S c σ (evalAll S.address es ⟨t.next, G⟩ ρ) fun ws τ ↦
          ws.length = es.length ∧ Yields S t.activation.liveRegisters σ
            (ws.getLastD (σ.reg .rax)) τ := by
  induction es generalizing t with
  | nil =>
    cases h
    exact ⟨[], .refl, fun G ρ σ _ _ ↦ .nil ⟨rfl, .refl, rfl⟩⟩
  | cons e es ih =>
    rw [translateAll, Pass.outcome_bind_ok] at h
    obtain ⟨_, t₁, h₁, h⟩ := h
    obtain ⟨he, hes⟩ := List.forall_mem_cons.mp hes
    obtain ⟨c₁, e₁, r₁⟩ := he h₁ hs
    obtain ⟨c₂, e₂, r₂⟩ := ih hes h (e₁.wellFormed hs)
    have a₁ : t₁.activation = t.activation := e₁.activation
    rw [a₁] at e₂ r₂
    refine ⟨c₁ ++ c₂, e₁.trans e₂, fun G ρ σ hready hfits ↦ ?_⟩
    rw [evalAll]
    refine (r₁ hready hfits.left).bind ?_
    rintro w τ ⟨hτ, hw⟩
    obtain ⟨G₁, hG₁, hready₁⟩ := hready.emits hs e₁ hτ
    rw [hG₁]
    refine (r₂ hready₁ (hfits.right hτ (Nat.zero_le _))).map ?_
    rintro ws υ ⟨hlen, hυ, hlast⟩
    refine ⟨by rw [List.length_cons, List.length_cons, hlen], hτ.trans hυ, ?_⟩
    rw [hlast, hw, List.getLastD_cons]

theorem correct_seq {steps : List Expr} (hsteps : ∀ e ∈ steps, Correct S e) :
    Correct S (.seq steps n) := by
  intro t t' h hs
  rw [Expr.translate] at h
  cases steps with
  | nil => exact correct_literal (n := n) .nil h hs
  | cons e es =>
    obtain ⟨c, he, hc⟩ := translateAll_correct hsteps h hs
    refine ⟨c, he, fun G ρ σ hready hfits ↦ ?_⟩
    rw [Expr.eval]
    refine (hc hready hfits).map ?_
    rintro ws τ ⟨hlen, hτ, hlast⟩
    refine ⟨hτ, ?_⟩
    cases ws with
    | nil => cases hlen
    | cons w ws => rw [hlast, List.getLastD_cons, List.getLastD_cons]

/-! ## Bindings -/

/-- The translator that has pushed the word of a variable. -/
def Translator.bound (t : Translator) (name : String) : Translator :=
  { t.emitted [.push .rax] (t.activation.depth + 1) with
    scopes := t.scopes.define name (.slot (t.activation.depth + 1)) }

theorem outcome_bindSlot (name : String) (t : Translator) :
    (bindSlot name).outcome t = (.ok (), t.bound name) := by
  rw [bindSlot, Pass.outcome_bind, outcome_push]
  rfl

/-- The word on top of the stack is that of a new variable. -/
theorem Ready.bound (h : Ready S t G ρ σ) (hs : t.scopes.WellFormed)
    (hcur : t.scopes.current ≠ ScopeId.global) {name : String} {w : Word}
    (hτ : Keeps S t.activation.liveRegisters 1 σ τ) (hw : τ.mem τ.top = w) :
    Ready S (t.bound name) G (Locals.define ρ name w) τ := by
  have hready := h.emitted hτ [.push .rax]
  refine ⟨⟨fun x ↦ ?_, fun x ↦ ?_⟩, hready.framed⟩
  · have hlook : (t.bound name).scopes.lookup x
        = if x = name then some (.slot (t.activation.depth + 1)) else t.scopes.lookup x :=
      hs.lookup_define hcur name _ x
    rw [hlook, Locals.define]
    by_cases hx : x = name
    · rw [if_pos hx, if_pos hx, Option.some_or]
      have hindex : (slotAddress (t.activation.depth + 1)).index τ = τ.top := by
        have hrbp : (τ.reg .rbp).toNat = τ.top + 8 * (t.activation.depth + 1) := hready.framed.rbp
        rw [slotAddress_index (by omega)]
        omega
      refine .some ⟨Or.inr (Nat.le_of_eq hindex.symm), ?_⟩
      rw [hindex, hw]
    · rw [if_neg hx, if_neg hx]
      exact hready.visible x
  · have hloc : (t.bound name).scopes.locals = (name, .slot _) :: t.scopes.locals :=
      hs.locals_define hcur name _
    rw [hloc, Locals.define, List.lookup_cons]
    by_cases hx : x = name
    · simp [hx]
    · simpa [hx, beq_false_of_ne hx] using h.isLocal x

/-- The push of the word of a variable. The memory below the stack stays as it is. -/
theorem executes_push {a : Activation} (hal : σ.top % 8 = 0) (hroom : S.floor + 8 ≤ σ.top) :
    Executes S [.push .rax] σ (.done ()) fun _ τ ↦
      Keeps S a.liveRegisters 1 σ τ ∧ τ.mem τ.top = σ.reg .rax ∧
        ∀ i, i < S.floor → τ.mem i = σ.mem i := by
  refine (Executes.pushes [.rax] (by decide) hal hroom).mono ?_
  rintro _ τ ⟨htop, hreg, hmem, hst⟩
  have htop : τ.top + 8 = σ.top := htop
  refine ⟨⟨htop, hreg _ (by decide), fun r hr ↦ hreg r ?_, fun b hb ↦ hmem b ?_⟩, hst 0 _ rfl,
    fun i hi ↦ hmem i (Or.inl (by omega))⟩
  · rintro rfl
    exact a.not_mem_of_mem_liveRegisters hr (by decide)
  · by_contra hout
    exact Setting.not_safe (by omega) (by omega) hb

/-- The bindings of a `let` push their words. What is seen after them is left again at the end of
the `let`, so what they add is said of the frame outside. -/
theorem translateBindings_correct {bs : List (String × Expr)} (hbs : ∀ b ∈ bs, Correct S b.2)
    {t t' : Translator} (h : (translateBindings bs).outcome t = (.ok (), t'))
    (hs : t.scopes.WellFormed) (hcur : t.scopes.current ≠ ScopeId.global) (saved : ScopeId) :
    t'.scopes.WellFormed ∧
    ∃ c, Emits S.address { t with scopes := t.scopes.exit saved }
        { t' with scopes := t'.scopes.exit saved } (t.activation.depth + bs.length)
        (staticsBindings S.address bs) c ∧ bs.length ≤ room c ∧
      ∀ ⦃G ρ σ⦄, Ready S t G ρ σ → S.Fits c σ →
        Executes S c σ (evalBindings S.address bs ⟨t.next, G⟩ ρ) fun ρ' τ ↦
          Keeps S t.activation.liveRegisters bs.length σ τ ∧
            ∃ G', staticsBindings S.address bs ⟨t.next, G⟩ = ⟨t'.next, G'⟩ ∧
              Ready S t' G' ρ' τ := by
  induction bs generalizing t with
  | nil =>
    cases h
    exact ⟨hs, [], .refl, Nat.zero_le _, fun G ρ σ hready _ ↦ .nil ⟨.refl, G, rfl, hready⟩⟩
  | cons b bs ih =>
    obtain ⟨name, value⟩ := b
    rw [translateBindings, Pass.outcome_bind_ok] at h
    obtain ⟨_, t₁, h₁, h⟩ := h
    rw [Pass.outcome_bind, outcome_bindSlot] at h
    obtain ⟨hvalue, hbs⟩ := List.forall_mem_cons.mp hbs
    obtain ⟨c₁, e₁, r₁⟩ := hvalue h₁ hs
    have a₁ : t₁.activation = t.activation := e₁.activation
    have hs₁ : t₁.scopes.WellFormed := e₁.wellFormed hs
    have hcur₁ : t₁.scopes.current ≠ ScopeId.global := e₁.current ▸ hcur
    obtain ⟨hs', c₂, e₂, hroom₂, r₂⟩ := ih hbs h (hs₁.define _ _) hcur₁
    have hbound : Emits S.address { t₁ with scopes := t₁.scopes.exit saved }
        { t₁.bound name with scopes := (t₁.bound name).scopes.exit saved }
        (t.activation.depth + 1) id [.push .rax] := by
      have hexit : (t₁.bound name).scopes.exit saved = t₁.scopes.exit saved :=
        Scopes.exit_define ..
      rw [hexit, ← a₁]
      exact .emitted rfl
    have hdepth : (t₁.bound name).activation.depth + bs.length
        = t.activation.depth + (bs.length + 1) := by
      rw [show (t₁.bound name).activation.depth = t₁.activation.depth + 1 from rfl, a₁]
      omega
    rw [hdepth] at e₂
    refine ⟨hs', _, (e₁.exit saved).trans (hbound.trans e₂), ?_, fun G ρ σ hready hfits ↦ ?_⟩
    · simp only [List.length_cons, room_append, room_cons, Instr.room]
      omega
    rw [evalBindings]
    refine (r₁ hready hfits.left).bind ?_
    rintro w τ ⟨hτ, hw⟩
    obtain ⟨G₁, hG₁, hready₁⟩ := hready.emits hs e₁ hτ
    have hfits₁ := hfits.right hτ (Nat.zero_le _)
    rw [hG₁]
    have hroom : S.floor + 8 ≤ τ.top := by
      simp only [Setting.Fits, room_append, room_cons, Instr.room] at hfits₁
      omega
    refine (executes_push (a := t₁.activation) hready₁.framed.aligned hroom).andThen ?_
    rintro υ ⟨hυ, hmem, -⟩
    have hready₂ : Ready S (t₁.bound name) _ _ υ := hready₁.bound hs₁ hcur₁ hυ hmem
    rw [hw] at hready₂
    refine (r₂ hready₂ (hfits₁.right hυ (by simp [Instr.room]))).mono ?_
    rintro ρ' ω ⟨hω, G', hG', hready'⟩
    refine ⟨?_, G', ?_, hready'⟩
    · have hυω : Keeps S t.activation.liveRegisters (1 + bs.length) τ ω := by
        rw [show (t₁.bound name).activation.liveRegisters = t₁.activation.liveRegisters from rfl,
          a₁] at hω
        rw [a₁] at hυ
        exact hυ.trans hω
      have := hτ.trans hυω
      rwa [Nat.zero_add, Nat.add_comm] at this
    · rw [staticsBindings, hG₁]
      exact hG'

theorem correct_letIn {bs : List (String × Expr)} {body : Expr}
    (hbs : ∀ b ∈ bs, Correct S b.2) (hbody : Correct S body) : Correct S (.letIn bs body n) := by
  intro t t' h hs
  rw [Expr.translate, nested, Pass.outcome_between_ok] at h
  obtain ⟨t₃, h, rfl⟩ := h
  simp only [Pass.outcome_bind_ok, outcome_release] at h
  obtain ⟨_, t₁, h₁, _, t₂, h₂, h⟩ := h
  obtain ⟨-, rfl⟩ := Prod.mk.inj h
  have hcur : t.scopes.enter.current ≠ ScopeId.global := Nat.ne_of_gt hs.global_lt
  obtain ⟨hs₁, c₁, e₁, hroom, r₁⟩ := translateBindings_correct hbs h₁ hs.enter hcur t.scopes.current
  obtain ⟨c₂, e₂, r₂⟩ := hbody h₂ hs₁
  have a₁ : t₁.activation = { t.activation with depth := t.activation.depth + bs.length } :=
    e₁.activation
  have a₂ : t₂.activation = t₁.activation := e₂.activation
  have hdepth : t₂.activation.depth - bs.length = t.activation.depth := by
    rw [a₂, a₁, Nat.add_sub_cancel]
  have hexit : { t with scopes := t.scopes.enter.exit t.scopes.current } = t := by
    rw [Scopes.enter, Scopes.exit_enterFrom]
  refine ⟨c₁ ++ (c₂ ++ releaseCode bs.length), ?_, fun G ρ σ hready hfits ↦ ?_⟩
  · have := e₁.trans ((e₂.exit t.scopes.current).trans
      (.emitted (d := t.activation.depth) (labels_releaseCode bs.length)))
    rw [hexit] at this
    rw [hdepth]
    exact this
  · rw [Expr.eval]
    refine (r₁ ⟨hready.enter hs, hready.framed⟩ hfits.left).bind ?_
    rintro ρ' τ ⟨hτ, G₁, hG₁, hready₁⟩
    rw [hG₁, ← Dialogue.bind_done (body.eval S.address _ ρ')]
    have hfits₁ := hfits.right hτ hroom
    refine (r₂ hready₁ hfits₁.left).bind ?_
    rintro w υ ⟨hυ, hw⟩
    have hlt : σ.top < 2 ^ 64 := (σ.reg .rsp).isLt
    have hτtop := hτ.top
    have hυtop : υ.top = τ.top := hυ.top
    rw [a₁] at hυ
    refine (Executes.release bs.length (by omega)).andDone ?_
    rintro ω ⟨htop, hreg, hmem⟩
    refine ⟨⟨by omega, ?_, fun r hr ↦ ?_, fun a ha ↦ ?_⟩, ?_⟩
    · rw [hreg _ (by decide), hυ.rbp, hτ.rbp]
    · have hne : r ≠ .rsp := by
        rintro rfl
        exact t.activation.not_mem_of_mem_liveRegisters hr (by decide)
      rw [hreg r hne, hυ.live r hr, hτ.live r hr]
    · rw [hmem, hυ.mem a (hτ.safe ha), hτ.mem a ha]
    · rw [hreg _ (by decide), hw]

end TaggedLisp.Machine
