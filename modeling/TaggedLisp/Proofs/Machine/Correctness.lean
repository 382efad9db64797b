import TaggedLisp.Proofs.Expr.Induction
import TaggedLisp.Proofs.Machine.Functions

/-!
# The code of an expression

Whatever calls are answered, the code that is written for an expression asks what the evaluation of
the expression asks, in the same order and with the same words, and leaves the word of the
expression in `rax`. It gives back the stack, the frame pointer, and the registers that the running
function still needs. The top level needs none, so a call there leaves its callee in `rdi`. That
calls keep the objects in use is not for convenience: captured variables are read from one of them
(`lateRead_loses_word`).

The code may start in any state in which the names that the translator sees have their words where
it looks for them, and in which there is room for what the code pushes.
-/

namespace TaggedLisp.Machine

variable {S : Setting} {t t' : Translator} {G ρ : String → Option Word} {σ τ : State} {e : Expr}

/-! ## Correctness -/

/-- Every expression is translated correctly. -/
theorem correct (S : Setting) (e : Expr) : Correct S e := by
  induction e using Expr.memberInduction with
  | literal v n => exact correct_literal v
  | symbol name n => exact correct_symbol name
  | group shape elems n helems => exact correct_group helems
  | cond test yes no n htest hyes hno => exact correct_cond htest hyes hno
  | letIn bindings body n hbindings hbody => exact correct_letIn hbindings hbody
  | fn head body n hbody => exact correct_fn hbody
  | seq steps n hsteps => exact correct_seq hsteps
  | call callee args spread n hcallee hargs => exact correct_call hcallee hargs

/-- The code that was written between two translators. -/
def Translator.since (t t' : Translator) : List Instr := t'.code.toList.drop t.code.size

theorem Adds.since_eq {address : Label → Word} {d : Nat} {f : Statics → Statics} {c : List Instr}
    (h : Adds address t t' d f c) : t.since t' = c := by
  rw [Translator.since, h.code, ← Array.length_toList, List.drop_left]

/-- Nothing is taken from a translator's code, and the code that is added runs as far as the
evaluation of the expression comes, with the same calls and writes. Where the evaluation has a
result, the end is reached with the result in `rax`, and all that is still needed is kept. Where it
stops, the code has jumped to the error routine because of a callee that is no closure. -/
theorem translate_correct (O : Oracle S) (h : e.translate.outcome t = (.ok (), t'))
    (hs : t.scopes.WellFormed) (hready : Ready S t G ρ σ) (hfits : S.Fits (t.since t') σ) :
    t'.code.toList = t.code.toList ++ t.since t' ∧
    ∃ es s τ r, Runs O (t.since t') [] 0 σ es s τ ∧
      Follows (e.eval S.address ⟨t.next, G⟩ ρ) es r ∧
        r.Ends (Yields S t.activation.liveRegisters σ) s τ := by
  obtain ⟨c, hc, hrun⟩ := correct S e h hs
  rw [hc.since_eq] at hfits ⊢
  exact ⟨hc.code, (hrun hready hfits).runs O (.of_numbered hc.numbered)⟩

/-! ## The top level -/

theorem Translator.scopes_start (next : Nat) :
    (Translator.start next).scopes = Scopes.empty.defineGlobals .static builtinClosures := by
  rw [Scopes.defineGlobals, builtinClosures, List.foldl_map]
  rfl

theorem Translator.wellFormed_start (next : Nat) : (Translator.start next).scopes.WellFormed := by
  rw [scopes_start]
  exact Scopes.wellFormed_empty.defineGlobals _ _

/-- At the start, the code may run in every state whose frame is empty. -/
theorem Ready.start {next : Nat} (h : Framed 0 σ) :
    Ready S (.start next) (closureWords S.address (fun _ ↦ none) builtinClosures) (fun _ ↦ none)
      σ where
  toAgrees := by
    have hempty : Agrees S { Translator.start next with scopes := .empty } (fun _ ↦ none)
        (fun _ ↦ none) σ := ⟨fun _ ↦ .none, fun _ ↦ rfl⟩
    exact (hempty.defineGlobals Scopes.wellFormed_empty builtinClosures).of_activation
      (Translator.scopes_start next) rfl
  framed := h

/-- A program's expressions are translated one after another, and each finds what it needs. -/
theorem Ready.after (h : e.translate.outcome t = (.ok (), t')) (hs : t.scopes.WellFormed)
    (hready : Ready S t G ρ σ) (hτ : Keeps S t.activation.liveRegisters 0 σ τ) :
    t'.scopes.WellFormed ∧
      ∃ G', e.statics S.address ⟨t.next, G⟩ = ⟨t'.next, G'⟩ ∧ Ready S t' G' ρ τ := by
  obtain ⟨c, hc, -⟩ := correct S e h hs
  exact ⟨hc.wellFormed hs, hready.emits hs hc hτ⟩

/-! ## Runs on a small machine -/

/-- A machine with all labels at one address and a stack above the first thousand bytes, in which
nothing is kept. -/
def smallSetting : Setting := ⟨fun _ ↦ 0, 1024, fun _ ↦ False, fun _ h ↦ h.elim⟩

/-- Calls return at once. The memory below the stack is provided for every request that it holds. -/
def smallOracle : Oracle smallSetting where
  answer _ target σ :=
    if target = .label (.routine .allocate) then
      if (σ.reg .rax).toNat ≤ 1024 then some (σ.set .rax 0) else none
    else some σ
  allowed _ target σ τ h := by
    split at h
    · split at h
      · next hle =>
        obtain rfl := Option.some.inj h
        refine ⟨rfl, rfl, fun _ _ ↦ rfl, fun _ ↦ ⟨rfl, ?_, fun _ _ _ h ↦ h⟩⟩
        rw [State.reg_set_self]
        exact (Nat.zero_add _).symm ▸ hle
      · cases h
    · next hne =>
      obtain rfl := Option.some.inj h
      exact ⟨rfl, rfl, fun _ _ ↦ rfl, fun h ↦ (hne h).elim⟩

/-- A state with an empty frame. -/
def smallState : State where
  reg r := if r = .rsp ∨ r = .rbp then 4096 else 0
  mem _ := 0
  zero := false

/-- The code of an expression at the start of a program. -/
def startCode (e : Expr) : List Instr :=
  (Translator.start 0).since (e.translate.outcome (.start 0)).2

/-- The expression `(let [x true] ((fn [y] x) nil))`. -/
def captureExpr : Expr :=
  .letIn [("x", .literal (.boolean true) default)]
    (.call (.fn ⟨none, ["y"], none, false⟩ (.symbol "x" default) ⟨.any, ["x"], default⟩)
      [.literal .nil default] none default) default

theorem captureExpr_runs :
    ∃ es s τ r, Runs smallOracle (startCode captureExpr) [] 0 smallState es s τ ∧
      Follows (captureExpr.eval smallSetting.address
        ⟨0, closureWords smallSetting.address (fun _ ↦ none) builtinClosures⟩ (fun _ ↦ none)) es r ∧
      r.Ends (Yields smallSetting [] smallState) s τ :=
  (translate_correct smallOracle (e := captureExpr) rfl (Translator.wellFormed_start 0)
    (.start ⟨rfl, rfl⟩) (Nat.le_of_ble_eq_true rfl)).2

/-- The expression `(not true)`. -/
def notExpr : Expr :=
  .call (.symbol "not" default) [.literal (.boolean true) default] none default

/-- A call at the top level leaves its callee in `rdi`. -/
theorem notExpr_changes_rdi :
    (notExpr.translate.outcome (.start 0)).1 = .ok () ∧
    Ready smallSetting (.start 0)
      (closureWords smallSetting.address (fun _ ↦ none) builtinClosures) (fun _ ↦ none) smallState ∧
    smallSetting.Fits (startCode notExpr) smallState ∧
    ∃ es τ, Runs smallOracle (startCode notExpr) [] 0 smallState es .finished τ ∧
      τ.reg .rdi ≠ smallState.reg .rdi := by
  refine ⟨rfl, .start ⟨rfl, rfl⟩, Nat.le_of_ble_eq_true rfl, _, _, .silent rfl (.silent rfl (.silent
    rfl (.silent rfl (.silent rfl (.silent rfl (.silent rfl (.silent rfl (.silent rfl (.silent rfl
      (.silent rfl (.silent rfl (.call rfl rfl (.stop rfl))))))))))))), ?_⟩
  decide

/-- The same machine with a word that is in use. -/
def wordSetting : Setting :=
  { smallSetting with kept := (· = 520), kept_lt_floor := by rintro _ rfl; decide }

/-- Calls return at once, after writing to that word. -/
def carelessOracle : Oracle smallSetting where
  answer _ target σ :=
    if target ≠ .label (.routine .allocate) ∧ 520 < σ.top then some (σ.store 520 0) else none
  allowed _ target σ τ h := by
    split at h
    · next hσ =>
      obtain rfl := Option.some.inj h
      refine ⟨rfl, rfl, fun a ha ↦ State.mem_store_of_ne σ 0 ?_, fun h ↦ (hσ.1 h).elim⟩
      rcases ha with hkept | htop
      · exact hkept.elim
      · omega
    · cases h

/-- A translator in a function that is called `g` and has captured `y`. -/
def insideTranslator : Translator where
  next := 1
  scopes := (Scopes.empty.enterFrom ScopeId.global).defineAll [("y", .captured 0), ("g", .current)]
  activation := ⟨true, 0, 0⟩
  code := #[]
  data := #[]

/-- The running closure lies at the address 512 and has captured the word 10. -/
def insideState : State where
  reg r := if r = .rsp ∨ r = .rbp then 4096 else if r = .rdi then 515 else 0
  mem a := if a = 520 then 10 else 0
  zero := false

/-- The expression `(do (g) y)`. -/
def lateRead : Expr :=
  .seq [.call (.symbol "g" default) [] none default, .symbol "y" default] default

/-- A captured variable is read from the running closure, so its word is lost if a call does not
keep the objects that are in use. -/
theorem lateRead_loses_word :
    (lateRead.translate.outcome insideTranslator).1 = .ok () ∧
    Ready wordSetting insideTranslator (fun x ↦ [].lookup x)
      (fun x ↦ [("g", 515), ("y", 10)].lookup x) insideState ∧
    ∃ es τ, Runs carelessOracle
        (insideTranslator.since (lateRead.translate.outcome insideTranslator).2) [] 0 insideState es
        .finished τ ∧
      Follows (lateRead.eval smallSetting.address ⟨1, fun x ↦ [].lookup x⟩
        fun x ↦ [("g", 515), ("y", 10)].lookup x) es (.result 10) ∧
      τ.reg .rax = 0 := by
  have hwf : insideTranslator.scopes.WellFormed :=
    (Scopes.wellFormed_empty.enterFrom (by decide)).defineAll _
  refine ⟨rfl, ⟨.of_forall₂ hwf (.cons ⟨rfl, rfl, rfl⟩ (.cons ⟨rfl, rfl, .inl rfl, rfl⟩ .nil)) .nil,
    rfl, rfl⟩, _, _, .silent rfl (.silent rfl (.silent rfl (.silent rfl (.silent rfl (.silent rfl
      (.silent rfl (.silent rfl (.silent rfl (.call rfl rfl (.silent rfl (.silent rfl (.silent rfl
        (.silent rfl (.stop rfl)))))))))))))), .call ⟨rfl, rfl, nofun⟩ .done, rfl⟩

end TaggedLisp.Machine
