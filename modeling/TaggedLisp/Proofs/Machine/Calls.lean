import TaggedLisp.Proofs.Machine.Constructs

/-!
# Sequences and calls

Both evaluate several expressions and put the words side by side on the stack, into room that was
reserved before. While that goes on, the words that are there already lie above the top of the stack
and are kept. The words that a call passes in registers are pushed first and popped in the end, when
nothing is evaluated any more.
-/

namespace TaggedLisp.Machine

open Translate

variable {S : Setting} {σ σ₀ τ : State} {t t' : Translator} {G ρ : String → Option Word} {n : Note}

/-! ## Filling reserved room -/

/-- The words are stored from the slot downwards in depth, which is upwards in memory. What is
visible was there at a state `σ₀` above the room. -/
theorem fill_correct {es : List Expr} (hes : ∀ e ∈ es, Correct S e) {slot : Nat} {t t' : Translator}
    (h : (fill slot (translateEach es)).outcome t = (.ok (), t')) (hs : t.scopes.WellFormed)
    (hslot : slot ≤ t.activation.depth) (hlen : es.length ≤ slot) :
    ∃ c, Emits S.address t t' t.activation.depth (staticsAll S.address es) c ∧
      ∀ ⦃G ρ σ₀ σ k⦄, Agrees S t G ρ σ₀ → Keeps S t.activation.liveRegisters k σ₀ σ →
        Framed t.activation.depth σ → S.Fits c σ → t.activation.depth + es.length ≤ slot + k →
        Executes S c σ (evalAll S.address es ⟨t.next, G⟩ ρ) fun ws τ ↦
          ws.length = es.length ∧ τ.top = σ.top ∧
          Keeps S t.activation.liveRegisters k σ₀ τ ∧
          (∀ a, σ.top ≤ a → a < (σ.reg .rbp).toNat - 8 * slot → τ.mem a = σ.mem a) ∧
          Stored τ ((σ.reg .rbp).toNat - 8 * slot) ws := by
  induction es generalizing t slot with
  | nil =>
    cases h
    exact ⟨[], .refl, fun G ρ σ₀ σ k _ hk _ _ _ ↦
      .nil ⟨rfl, rfl, hk, fun _ _ _ ↦ rfl, .nil⟩⟩
  | cons e es ih =>
    rw [translateEach, fill, Pass.outcome_bind_ok] at h
    obtain ⟨_, t₁, h₁, h⟩ := h
    rw [Pass.outcome_bind, outcome_emit] at h
    obtain ⟨he, hes⟩ := List.forall_mem_cons.mp hes
    obtain ⟨c₁, e₁, r₁⟩ := he h₁ hs
    have a₁ : t₁.activation = t.activation := e₁.activation
    rw [List.length_cons] at hlen
    obtain ⟨c₂, e₂, r₂⟩ := ih hes h (e₁.wellFormed hs) (by simp [a₁]; omega) (by omega)
    have hdepth : t₁.activation.depth = t.activation.depth := by rw [a₁]
    refine ⟨_, hdepth ▸ e₁.trans ((Emits.emitted rfl).trans e₂),
      fun G ρ σ₀ σ k hagree hk hframed hfits hroom ↦ ?_⟩
    obtain ⟨G₁, hG₁, hagree₁⟩ := hagree.emits hs e₁
    rw [evalAll]
    refine (r₁ ⟨hagree.keeps hk, hframed⟩ hfits.left).bind ?_
    rintro w τ ⟨hτ, hw⟩
    rw [hG₁]
    have hfits₁ := hfits.right hτ (Nat.zero_le _)
    have hτtop : τ.top = σ.top := hτ.top
    have hrbp := hframed.rbp
    have hal := hframed.aligned
    have htop := hk.top
    have hfloor : S.floor ≤ τ.top := by
      rw [Setting.Fits] at hfits₁
      omega
    -- the word goes into the lowest word of what is left of the room
    have hindex : (slotAddress slot).index τ = (σ.reg .rbp).toNat - 8 * slot := by
      rw [slotAddress_index (by rw [hτ.rbp]; omega), hτ.rbp]
    rw [List.length_cons] at hroom
    refine Executes.store (a := (slotAddress slot).index τ) rfl (by omega) (by omega) ?_
    rw [hindex, hw]
    generalize hbase : (σ.reg .rbp).toNat - 8 * slot = base
    have hk₁ : Keeps S t.activation.liveRegisters k σ₀ (τ.store base w) :=
      (hk.trans hτ).store (Setting.not_safe (by omega) (by omega))
    have hframed₁ : Framed t.activation.depth (τ.store base w) := by
      refine ⟨by rw [State.top_store]; omega, ?_⟩
      rw [State.reg_store, State.top_store, hτ.rbp, hτtop, hrbp]
    rw [← a₁] at hk₁ hframed₁
    have hbase₁ : ((τ.store base w).reg .rbp).toNat - 8 * (slot - 1) = base + 8 := by
      rw [State.reg_store, hτ.rbp]
      omega
    have hfits₂ : S.Fits c₂ (τ.store base w) := by
      rw [Setting.Fits, room_append] at hfits₁
      rw [Setting.Fits, State.top_store]
      omega
    refine (r₂ (hagree₁.of_activation rfl rfl) hk₁ hframed₁ hfits₂ ?_).map ?_
    · change t₁.activation.depth + es.length ≤ slot - 1 + k
      omega
    rintro ws υ ⟨hlen', hυtop, hυ, hbelow, hst⟩
    rw [hbase₁] at hbelow hst
    rw [State.top_store] at hbelow hυtop
    rw [Translator.activation_emitted, a₁] at hυ
    refine ⟨by rw [List.length_cons, List.length_cons, hlen'], hυtop.trans hτtop, hυ,
      fun a ha hlt ↦ ?_, .cons ?_ hst⟩
    · rw [hbelow a (by omega) (by omega), State.mem_store_of_ne _ _ (by omega),
        hτ.mem a (Or.inr ha)]
    · rw [hbelow base (by omega) (by omega), State.mem_store_self]

/-! ## Sequences -/

/-- Room on the stack that is not used yet. -/
theorem Executes.reserved {a : Activation} (k : Nat) (hroom : S.floor + 8 * k ≤ σ.top) :
    Executes S (reserveCode k) σ (.done ()) fun _ τ ↦ Keeps S a.liveRegisters k σ τ := by
  refine (Executes.reserve k (by omega)).mono ?_
  rintro _ τ ⟨htop, hreg, hmem⟩
  refine ⟨htop, hreg _ (by decide), fun r hr ↦ hreg r ?_, fun b _ ↦ by rw [hmem]⟩
  rintro rfl
  exact a.not_mem_of_mem_liveRegisters hr (by decide)

/-- Room on the stack is given up. -/
theorem Executes.released {live : List Reg} {k : Nat} {w : Word} (hlive : Reg.rsp ∉ live)
    (hk : Keeps S live k σ τ) (hw : τ.reg .rax = w) :
    Executes S (releaseCode k) τ (.done w) (Yields S live σ) := by
  have hlt : σ.top < 2 ^ 64 := (σ.reg .rsp).isLt
  have htop := hk.top
  refine (Executes.release k (by omega)).andDone ?_
  rintro υ ⟨hυtop, hreg, hmem⟩
  refine ⟨⟨by omega, ?_, fun r hr ↦ ?_, fun a ha ↦ ?_⟩, ?_⟩
  · rw [hreg _ (by decide), hk.rbp]
  · have hne : r ≠ .rsp := fun h ↦ hlive (h ▸ hr)
    rw [hreg r hne, hk.live r hr]
  · rw [hmem, hk.mem a ha]
  · rw [hreg _ (by decide), hw]

/-- The call that makes a sequence of words on the stack. -/
private theorem executes_sequence {a : Activation} {depth : Nat} {shape : Shape} {ws : List Word}
    (hframed : Framed depth σ) (hroom : S.floor + 8 * a.liveRegisters.length ≤ σ.top)
    (hst : Stored σ σ.top ws) :
    Executes S (a.liveRegisters.map .push ++
        ([ Instr.mov .rdi (.const ws.length), .lea .rsi (slotAddress depth),
          .call (.routine shape.routine) ] ++ a.liveRegisters.reverse.map .pop)) σ
      (Evaluation.call (.sequence shape ws)) (Yields S a.liveRegisters σ) := by
  refine Executes.saving a (P := fun w v ↦ v = w) hframed.aligned hroom fun τ hτ ↦ ?_
  refine .next rfl (.next rfl ?_)
  rw [BitVec.ofInt_natCast]
  set υ := (τ.set .rdi (BitVec.ofNat 64 ws.length)).set .rsi
    ((slotAddress depth).value (τ.set .rdi (BitVec.ofNat 64 ws.length))) with hυ
  have hkυ : Keeps S [] 0 τ υ := (Keeps.refl.set (by decide) _).set (by decide) _
  have hrsi : (υ.reg .rsi).toNat = σ.top := by
    have hrbp := hframed.rbp
    have hindex : (slotAddress depth).index τ = σ.top := by
      rw [slotAddress_index (by rw [hτ.rbp]; omega), hτ.rbp]
      omega
    have hrbp' : (τ.set .rdi (BitVec.ofNat 64 ws.length)).reg .rbp = τ.reg .rbp :=
      State.reg_set_of_ne _ _ (by decide)
    rw [← hindex, hυ, State.reg_set_self, Address.index, Address.value, Address.value, slotAddress,
      hrbp']
  have hands : Hands (.sequence shape ws) (.label (.routine shape.routine)) υ := by
    refine ⟨rfl, by rw [hυ, State.reg_set_of_ne _ _ (by decide), State.reg_set_self],
      fun i w hw ↦ ?_⟩
    rw [hrsi, ← hst i w hw, hυ, State.mem_set, State.mem_set, hτ.mem _ (Or.inr (by omega))]
  exact .call rfl rfl hands fun ω hω ↦ .nil ⟨hkυ.trans hω.keeps, rfl⟩

theorem translateEach_length (es : List Expr) : (translateEach es).length = es.length := by
  rw [translateEach_eq_map, List.length_map]

theorem correct_group {shape : Shape} {es : List Expr} (hes : ∀ e ∈ es, Correct S e) :
    Correct S (.group shape es n) := by
  intro t t' h hs
  rw [Expr.translate, Translate.sequence] at h
  cases hne : es.isEmpty with
  | true =>
    obtain rfl := List.isEmpty_iff.mp hne
    rw [translateEach, List.isEmpty_nil, if_pos rfl, outcome_emit] at h
    cases h
    refine ⟨_, .emitted rfl, fun G ρ σ _ _ ↦ ?_⟩
    rw [Expr.eval, evalAll]
    exact .loadWord (by rw [Instr.action, ofInt_toInt])
  | false =>
    have hne' : (translateEach es).isEmpty = false := by
      rw [translateEach_eq_map, List.isEmpty_map, hne]
    rw [hne', if_neg (by decide)] at h
    simp only [Pass.outcome_bind_ok, outcome_reserve, outcome_depth, Pass.outcome_get,
      outcome_pushAll, outcome_emitAll, outcome_popAll, outcome_release, Prod.mk.injEq,
      Except.ok.injEq, translateEach_length] at h
    obtain ⟨_, _, ⟨-, rfl⟩, _, _, ⟨rfl, rfl⟩, _, t₂, h₂, _, _, ⟨rfl, rfl⟩, _, _, ⟨-, rfl⟩, _, _,
      ⟨-, rfl⟩, _, _, ⟨-, rfl⟩, -, rfl⟩ := h
    obtain ⟨c₂, e₂, r₂⟩ := fill_correct hes h₂ hs (Nat.le_refl _) (Nat.le_add_left ..)
    have a₂ : t₂.activation = { t.activation with depth := t.activation.depth + es.length } :=
      e₂.activation
    refine ⟨_, ((Emits.emitted (labels_reserveCode _)).trans (e₂.trans
      ((Emits.emitted (labels_pushes _)).trans ((Emits.emitted rfl).trans
        ((Emits.emitted (labels_pops _)).trans (.emitted (labels_releaseCode _))))))).congr
          (by simp [a₂]) (fun _ ↦ rfl) rfl, fun G ρ σ hready hfits ↦ ?_⟩
    have hlive : t₂.activation.liveRegisters = t.activation.liveRegisters := by rw [a₂]; rfl
    rw [hlive] at hfits ⊢
    rw [Expr.eval]
    have hroom : S.floor + 8 * es.length ≤ σ.top := by
      have := hfits.left
      rwa [Setting.Fits, room_reserveCode] at this
    refine (Executes.reserved (a := t.activation) es.length hroom).andThen fun τ hτ ↦ ?_
    have hfits₁ := hfits.right hτ (Nat.le_of_eq (room_reserveCode _).symm)
    have hframed : Framed (t.activation.depth + es.length) τ := hready.framed.keeps hτ
    refine (r₂ (hready.of_activation rfl rfl) hτ hframed hfits₁.left (Nat.le_refl _)).bind ?_
    rintro ws υ ⟨hlen, hυtop, hυ, _, hst⟩
    have hbase : (τ.reg .rbp).toNat - 8 * (t.activation.depth + es.length) = υ.top := by
      rw [hframed.rbp, hυtop, Nat.add_sub_cancel]
    have hws : ws.isEmpty = false := by
      cases ws with
      | nil => rw [List.eq_nil_of_length_eq_zero hlen.symm] at hne; cases hne
      | cons w ws => rfl
    have hroom₂ : S.floor + 8 * t.activation.liveRegisters.length ≤ υ.top := by
      simp only [Setting.Fits, room_append, room_pushes] at hfits₁
      omega
    rw [Evaluation.sequence, hws, if_neg (by decide), ← Dialogue.bind_done (Evaluation.call _)]
    have hseq := @executes_sequence S υ t.activation _ shape _ (hready.framed.keeps hυ) hroom₂
      (hbase ▸ hst)
    rw [hlen] at hseq
    have hrest : ∀ w ω, Yields S t.activation.liveRegisters υ w ω →
        Executes S (releaseCode es.length) ω (.done w) (Yields S t.activation.liveRegisters σ) := by
      rintro w ω ⟨hω, hw⟩
      exact .released t.activation.rsp_not_mem (hυ.trans hω) hw
    have := hseq.bind hrest
    rwa [List.append_assoc, List.append_assoc] at this

/-! ## Arguments -/

namespace Translate

/-- Evaluates each step and pushes its word. -/
def pushEach : List (Translate Unit) → Translate Unit
  | [] => return
  | e :: es => do
    e
    push .rax
    pushEach es

/-- Behind the register arguments, arguments are stored like the elements of a sequence. -/
theorem passArgs_eq_fill (base : Nat) (args : List (Translate Unit)) {i : Nat}
    (hi : argRegisters.length ≤ i) :
    passArgs base i args = fill (base - (i - argRegisters.length)) args := by
  induction args generalizing i with
  | nil => rfl
  | cons arg args ih =>
    rw [passArgs, fill, if_neg (Nat.not_lt.mpr hi), ih (Nat.le_succ_of_le hi)]
    rw [show base - (i - argRegisters.length) - 1 = base - (i + 1 - argRegisters.length) by omega]

/-- Arguments that are passed in registers are pushed, the others are stored. -/
theorem passArgs_eq (base : Nat) (args : List (Translate Unit)) {i : Nat}
    (hi : i ≤ argRegisters.length) :
    passArgs base i args = (do
      pushEach (args.take (argRegisters.length - i))
      fill base (args.drop (argRegisters.length - i))) := by
  induction args generalizing i with
  | nil => simp [passArgs, pushEach, fill]
  | cons arg args ih =>
    rcases Nat.eq_or_lt_of_le hi with rfl | hlt
    · rw [passArgs_eq_fill base _ (Nat.le_refl _)]
      simp [pushEach]
    · obtain ⟨k, hk⟩ : ∃ k, argRegisters.length - i = k + 1 :=
        ⟨argRegisters.length - i - 1, by omega⟩
      rw [passArgs, if_pos hlt, ih hlt, show argRegisters.length - (i + 1) = k by omega, hk]
      simp only [List.take_succ_cons, List.drop_succ_cons, pushEach, bind_assoc]

end Translate

theorem pushEach_correct {es : List Expr} (hes : ∀ e ∈ es, Correct S e) {t t' : Translator}
    (h : (pushEach (translateEach es)).outcome t = (.ok (), t')) (hs : t.scopes.WellFormed) :
    ∃ c, Emits S.address t t' (t.activation.depth + es.length) (staticsAll S.address es) c ∧
      es.length ≤ room c ∧
      ∀ ⦃G ρ σ⦄, Ready S t G ρ σ → S.Fits c σ →
        Executes S c σ (evalAll S.address es ⟨t.next, G⟩ ρ) fun ws τ ↦
          ws.length = es.length ∧ Keeps S t.activation.liveRegisters es.length σ τ ∧
          Stored τ τ.top ws.reverse := by
  induction es generalizing t with
  | nil =>
    cases h
    exact ⟨[], .refl, Nat.zero_le _, fun G ρ σ _ _ ↦ .nil ⟨rfl, .refl, .nil⟩⟩
  | cons e es ih =>
    rw [translateEach, pushEach, Pass.outcome_bind_ok] at h
    obtain ⟨_, t₁, h₁, h⟩ := h
    rw [Pass.outcome_bind, outcome_push] at h
    obtain ⟨he, hes⟩ := List.forall_mem_cons.mp hes
    obtain ⟨c₁, e₁, r₁⟩ := he h₁ hs
    have a₁ : t₁.activation = t.activation := e₁.activation
    obtain ⟨c₂, e₂, hroom₂, r₂⟩ := ih hes h (e₁.wellFormed hs)
    refine ⟨_, (e₁.trans ((Emits.emitted rfl).trans e₂)).congr ?_ (fun _ ↦ rfl) rfl, ?_,
      fun G ρ σ hready hfits ↦ ?_⟩
    · simp only [Translator.activation_emitted, a₁, List.length_cons]
      omega
    · simp only [List.length_cons, room_append, room_cons, Instr.room]
      omega
    rw [evalAll]
    refine (r₁ hready hfits.left).bind ?_
    rintro w τ ⟨hτ, hw⟩
    obtain ⟨G₁, hG₁, hready₁⟩ := hready.emits hs e₁ hτ
    rw [hG₁]
    have hfits₁ := hfits.right hτ (Nat.zero_le _)
    have hroom : S.floor + 8 ≤ τ.top := by
      simp only [Setting.Fits, room_append, room_cons, Instr.room] at hfits₁
      omega
    refine (executes_push (a := t₁.activation) hready₁.framed.aligned hroom).andThen ?_
    rintro υ ⟨hυ, hmem, -⟩
    refine (r₂ (hready₁.emitted hυ _) (hfits₁.right hυ (by simp [Instr.room]))).map ?_
    rintro ws ω ⟨hlen, hω, hst⟩
    refine ⟨by rw [List.length_cons, List.length_cons, hlen], ?_, ?_⟩
    · have hτω : Keeps S t₁.activation.liveRegisters (1 + es.length) τ ω := hυ.trans hω
      rw [a₁] at hτω
      have := hτ.trans hτω
      rwa [Nat.zero_add, Nat.add_comm] at this
    · have htop := hω.top
      rw [List.reverse_cons]
      refine hst.append (.cons ?_ .nil)
      rw [List.length_reverse, hlen, htop, hω.mem _ (Or.inr (Nat.le_refl _)), hmem, hw]

/-- The words of the arguments stand on the stack: those for registers from the top on, the last one
first, and then the others in order. -/
def Passed (ws : List Word) (σ : State) : Prop :=
  Stored σ σ.top (ws.take argRegisters.length).reverse ∧
    Stored σ (σ.top + 8 * (ws.take argRegisters.length).length) (ws.drop argRegisters.length)

theorem Passed.keeps {ws : List Word} {live : List Reg} (h : Passed ws σ)
    (hk : Keeps S live 0 σ τ) : Passed ws τ := by
  have htop : τ.top = σ.top := hk.top
  refine ⟨?_, ?_⟩ <;> rw [htop]
  · exact h.1.congr fun i _ ↦ hk.mem _ (Or.inr (Nat.le_add_right ..))
  · exact h.2.congr fun i _ ↦ hk.mem _ (Or.inr (by omega))

/-- What is visible was there at a state `σ₀` above the room for arguments on the stack. -/
theorem passArgs_correct {es : List Expr} (hes : ∀ e ∈ es, Correct S e) {t t' : Translator}
    (h : (passArgs t.activation.depth 0 (translateEach es)).outcome t = (.ok (), t'))
    (hs : t.scopes.WellFormed) (hdepth : es.length - argRegisters.length ≤ t.activation.depth) :
    ∃ c, Emits S.address t t'
        (t.activation.depth + (es.take argRegisters.length).length) (staticsAll S.address es) c ∧
      (es.take argRegisters.length).length ≤ room c ∧
      ∀ ⦃G ρ σ₀ σ⦄, Agrees S t G ρ σ₀ →
        Keeps S t.activation.liveRegisters (es.length - argRegisters.length) σ₀ σ →
        Framed t.activation.depth σ → S.Fits c σ →
        Executes S c σ (evalAll S.address es ⟨t.next, G⟩ ρ) fun ws τ ↦
          ws.length = es.length ∧ Passed ws τ ∧
            Keeps S t.activation.liveRegisters
              (es.length - argRegisters.length + (es.take argRegisters.length).length) σ₀ τ := by
  rw [passArgs_eq _ _ (Nat.zero_le _), Nat.sub_zero, translateEach_eq_map, ← List.map_take,
    ← List.map_drop, ← translateEach_eq_map, ← translateEach_eq_map, Pass.outcome_bind_ok] at h
  obtain ⟨_, t₁, h₁, h₂⟩ := h
  have hes₁ : ∀ e ∈ es.take argRegisters.length, Correct S e :=
    fun e he ↦ hes e (List.mem_of_mem_take he)
  have hes₂ : ∀ e ∈ es.drop argRegisters.length, Correct S e :=
    fun e he ↦ hes e (List.mem_of_mem_drop he)
  obtain ⟨c₁, e₁, hroom₁, r₁⟩ := pushEach_correct hes₁ h₁ hs
  have a₁ := e₁.activation
  obtain ⟨c₂, e₂, r₂⟩ := fill_correct hes₂ h₂ (e₁.wellFormed hs) (by simp [a₁])
    (by rw [List.length_drop]; exact hdepth)
  refine ⟨c₁ ++ c₂, (e₁.trans e₂).congr (by rw [a₁]) (fun G ↦ ?_) rfl, ?_,
    fun G ρ σ₀ σ hagree hk hframed hfits ↦ ?_⟩
  · rw [Function.comp_apply, ← staticsAll_append, List.take_append_drop]
  · rw [room_append]
    omega
  have hsplit := @evalAll_append S.address (es.take argRegisters.length)
    (es.drop argRegisters.length) ⟨t.next, G⟩ ρ
  rw [List.take_append_drop] at hsplit
  obtain ⟨G₁, hG₁, hagree₁⟩ := hagree.emits hs e₁
  rw [hsplit]
  refine (r₁ ⟨hagree.keeps hk, hframed⟩ hfits.left).bind ?_
  rintro ws₁ τ ⟨hlen₁, hτ, hst₁⟩
  rw [hG₁]
  have hlive : t₁.activation.liveRegisters = t.activation.liveRegisters := by rw [a₁]; rfl
  have hframed₁ := hframed.keeps hτ
  have hrbp := hframed₁.rbp
  have hdepth₁ : t₁.activation.depth
      = t.activation.depth + (es.take argRegisters.length).length := by rw [a₁]
  have hlenDrop : (es.drop argRegisters.length).length = es.length - argRegisters.length :=
    List.length_drop
  refine (r₂ hagree₁ (hlive ▸ hk.trans hτ) (hdepth₁ ▸ hframed₁) (hfits.right hτ hroom₁)
    (by omega)).map ?_
  rintro ws₂ υ ⟨hlen₂, hυtop, hυ, hbelow, hst₂⟩
  have hbase : (τ.reg .rbp).toNat - 8 * t.activation.depth = υ.top + 8 * ws₁.length := by
    omega
  rw [hbase] at hbelow hst₂
  obtain ⟨htake, hdrop⟩ := split_append (hlen₁.trans List.length_take) (hlen₂.trans hlenDrop)
  refine ⟨?_, ⟨?_, ?_⟩, hlive ▸ hυ⟩
  · rw [List.length_append, hlen₁, hlen₂, ← List.length_append, List.take_append_drop]
  · rw [htake, hυtop]
    refine hst₁.congr fun i hi ↦ hbelow _ (by omega) ?_
    rw [List.length_reverse] at hi
    omega
  · rw [htake, hdrop]
    exact hst₂

/-! ## Calls -/

/-- The code that checks the tag of the callee. -/
def checkCode : List Instr :=
  [ .mov .r11 (.reg .rax), .and .r11 Tag.mask.toInt, .cmp .r11 Tag.closure.bits.toInt,
    .jne (.routine .error) ]

/-- The code that fetches the arguments in registers and the address of the callee. -/
def fetchCode (registers : List Reg) : List Instr :=
  .mov .rdi (.reg .rax) :: (registers.map .pop ++
    [.mov .rax (.reg .rdi), .and .rax (~~~Tag.mask).toInt])

/-- The tag that is left of a word is compared with that of closures. -/
private theorem zero_eq_hasTag (w : Word) :
    ((w &&& BitVec.ofInt 64 Tag.mask.toInt) - BitVec.ofInt 64 Tag.closure.bits.toInt == 0)
      = w.hasTag .closure := by
  rw [ofInt_toInt, ofInt_toInt, sub_beq_zero, Word.hasTag, Bool.beq_eq_decide_eq]

private theorem executes_check (h : (σ.reg .rax).hasTag .closure = true) :
    Executes S checkCode σ (.done ()) fun _ τ ↦ τ.reg .rax = σ.reg .rax ∧ Changes σ τ := by
  refine .next rfl (.next rfl (.next rfl (.next (action_jne_next ?_) (.nil ⟨?_,
    Changes.refl.r11.r11.test.test⟩))))
  · simp only [State.zero_test, State.reg_test, State.reg_set_self, zero_eq_hasTag, h]
  · simp

/-- A word without the tag of closures leads to the error routine. -/
private theorem executes_checkFault {α : Type} {c : List Instr} {Q : α → State → Prop}
    (h : (σ.reg .rax).hasTag .closure = false) : Executes S (checkCode ++ c) σ .stop Q := by
  refine .next rfl (.next rfl (.next rfl (.fault (action_jne ?_) ?_)))
  · simp only [State.zero_test, State.reg_test, State.reg_set_self, zero_eq_hasTag, h]
  · simpa using h

/-- The argument that a register is for. -/
private def argumentFor (ws : List Word) (r : Reg) : Word := ws.getD (argRegisters.idxOf r) 0

private theorem map_argumentFor {ws : List Word} (h : ws.length ≤ argRegisters.length) :
    (argRegisters.take ws.length).map (argumentFor ws) = ws := by
  match ws, h with
  | [], _ => rfl
  | [_], _ => rfl
  | [_, _], _ => rfl
  | [_, _, _], _ => rfl
  | [_, _, _, _], _ => rfl
  | [_, _, _, _, _], _ => rfl

/-- Arguments are found in registers and then on the stack. -/
private theorem argument_eq {ws₁ ws₂ : List Word} (hlen : ws₁.length ≤ argRegisters.length)
    (hfull : ws₂ = [] ∨ ws₁.length = argRegisters.length)
    (hreg : ∀ r ∈ argRegisters.take ws₁.length, σ.reg r = argumentFor ws₁ r)
    (hst : Stored σ σ.top ws₂) {i : Nat} {w : Word} (hw : (ws₁ ++ ws₂)[i]? = some w) :
    argument i σ = w := by
  rcases Nat.lt_or_ge i ws₁.length with hi | hi
  · rw [List.getElem?_append_left hi] at hw
    obtain ⟨r, hr⟩ : ∃ r, argRegisters[i]? = some r :=
      ⟨_, List.getElem?_eq_getElem (Nat.lt_of_lt_of_le hi hlen)⟩
    have htake : (argRegisters.take ws₁.length)[i]? = some r := by
      rw [List.getElem?_take_of_lt hi, hr]
    have hmap := congrArg (·[i]?) (map_argumentFor hlen)
    simp only [List.getElem?_map, htake, hw, Option.map_some, Option.some.injEq] at hmap
    rw [argument, hr, ← hmap]
    exact hreg r (List.mem_of_getElem? htake)
  · rw [List.getElem?_append_right hi] at hw
    have hfive : ws₁.length = argRegisters.length := by
      refine hfull.resolve_left ?_
      rintro rfl
      simp at hw
    rw [argument, List.getElem?_eq_none (hfive ▸ hi)]
    exact hst _ w (hfive ▸ hw)

/-- What a call instruction finds: the callee, and the arguments where a function looks for them. -/
structure Handed (f : Word) (ws : List Word) (σ : State) : Prop where
  tag : f.hasTag .closure = true
  callee : σ.reg .rdi = f
  pointer : σ.reg .rax = f.untagged
  arg : ∀ i w, ws[i]? = some w → argument i σ = w
  aligned : σ.top % 8 = 0

/-- The code in front of a call instruction, where the arguments stand on the stack. -/
private theorem executes_fetch {f : Word} {ws : List Word} {m : Nat}
    (hk : Keeps S [] (m + (ws.take argRegisters.length).length) σ₀ σ) (hal : σ.top % 8 = 0)
    (hf : σ.reg .rax = f) (hpassed : Passed ws σ) :
    Executes S (checkCode ++ fetchCode (argRegisters.take ws.length).reverse) σ (.checked f)
      fun _ τ ↦ Handed f ws τ ∧ Keeps S [] m σ₀ τ := by
  have htake : argRegisters.take ws.length
      = argRegisters.take (ws.take argRegisters.length).length := by
    rw [List.length_take, ← List.take_take, List.take_of_length_le (List.length_take_le' _ _)]
  have hfull : ws.drop argRegisters.length = [] ∨
      (ws.take argRegisters.length).length = argRegisters.length := by
    rw [List.drop_eq_nil_iff, List.length_take]
    omega
  have hlen := List.length_take_le argRegisters.length ws
  obtain ⟨h₁, h₂⟩ := hpassed
  have hws := List.take_append_drop argRegisters.length ws
  rw [htake]
  generalize ws.take argRegisters.length = ws₁ at *
  generalize ws.drop argRegisters.length = ws₂ at *
  subst hws
  cases htag : f.hasTag .closure with
  | false =>
    rw [Evaluation.checked, htag, if_neg (by decide)]
    exact executes_checkFault (hf ▸ htag)
  | true =>
    rw [Evaluation.checked, htag, if_pos rfl]
    refine (executes_check (hf ▸ htag)).andThen ?_
    rintro τ ⟨hτf, hτ⟩
    refine .next rfl ?_
    have hnot : ∀ r, r ∉ argRegisters → r ∉ (argRegisters.take ws₁.length).reverse :=
      fun r hr h ↦ hr (List.mem_of_mem_take (List.mem_reverse.mp h))
    have hregs : ((argRegisters.take ws₁.length).reverse).length = ws₁.length := by
      rw [List.length_reverse, List.length_take, Nat.min_eq_left hlen]
    have htop : (τ.set .rdi (τ.reg .rax)).top = σ.top := by
      rw [State.top_set_of_ne _ _ (by decide), hτ.top]
    have hlt : σ₀.top < 2 ^ 64 := (σ₀.reg .rsp).isLt
    have hσtop := hk.top
    refine Executes.andThen
      (.pops _ (hnot _ (by decide)) (argumentFor ws₁) (by omega) (by omega) ?_) ?_
    · rw [htop, List.map_reverse, map_argumentFor hlen]
      exact h₁.congr fun i _ ↦ by rw [State.mem_set, hτ.mem]
    rintro υ ⟨hυtop, hυreg, hυpop, hυmem⟩
    rw [htop, hregs] at hυtop
    have hυf : υ.reg .rdi = f := by
      rw [hυreg _ (hnot _ (by decide)) (by decide), State.reg_set_self, hτf, hf]
    have hυrbp : υ.reg .rbp = σ.reg .rbp := by
      rw [hυreg _ (hnot _ (by decide)) (by decide), State.reg_set_of_ne _ _ (by decide),
        hτ.reg _ (by decide)]
    refine Executes.untagged.mono ?_
    rintro _ ω ⟨hrax, hω⟩
    have hωtop : ω.top = σ.top + 8 * ws₁.length := hω.top.trans hυtop
    have hωmem : ω.mem = σ.mem := by rw [hω.mem, hυmem, State.mem_set, hτ.mem]
    have hωreg : ∀ r ∈ argRegisters.take ws₁.length, ω.reg r = argumentFor ws₁ r := by
      intro r hr
      have hscratch : ∀ r ∈ argRegisters, r ∉ scratch := by decide
      rw [hω.reg r (hscratch r (List.mem_of_mem_take hr)), hυpop r (List.mem_reverse.mpr hr)]
    have hωst : Stored ω ω.top ws₂ := by
      rw [hωtop]
      exact h₂.congr fun i _ ↦ by rw [hωmem]
    refine ⟨⟨htag, by rw [hω.reg _ (by decide), hυf], by rw [hrax, hυf],
      fun i w hw ↦ argument_eq hlen hfull hωreg hωst hw, by omega⟩, ?_⟩
    exact ⟨by omega, by rw [hω.reg _ (by decide), hυrbp, hk.rbp], by simp,
      fun a ha ↦ by rw [hωmem, hk.mem a ha]⟩

/-- The words that a call passes are those of some expressions. -/
theorem passed_translateEach (spread : Option Nat) (args : List Expr) :
    passed spread (translateEach args) = translateEach (passedExprs spread args) := by
  cases spread with
  | none => rfl
  | some k =>
    simp only [passed, passedExprs, translateEach_eq_map, List.map_append, List.map_take,
      List.map_cons, List.map_nil, Expr.translate, List.map_drop]

/-- The code of a call, up to the call instruction and behind it. Its operands are handed over as
they were evaluated. -/
theorem operands_correct {callee : Expr} {args : List Expr} {spread : Option Nat}
    (hcallee : Correct S callee) (hargs : ∀ e ∈ args, Correct S e) {t t' : Translator}
    (h : (Expr.call callee args spread n).translate.outcome t = (.ok (), t'))
    (hs : t.scopes.WellFormed) :
    ∃ c, Emits S.address t t' t.activation.depth
        ((Expr.call callee args spread n).statics S.address)
        (t.activation.liveRegisters.map .push ++ ((c ++ (.callThrough .rax ::
          releaseCode ((passedExprs spread args).length - argRegisters.length))) ++
            t.activation.liveRegisters.reverse.map .pop)) ∧
      (passedExprs spread args).length - argRegisters.length + 2 ≤ room c ∧
      ∀ ⦃G ρ σ τ⦄, Ready S t G ρ σ →
        Keeps S t.activation.liveRegisters t.activation.liveRegisters.length σ τ → S.Fits c τ →
        Executes S c τ (evalOperands S.address callee args spread ⟨t.next, G⟩ ρ) fun (f, ws) υ ↦
          ws.length = (passedExprs spread args).length ∧ Handed f ws υ ∧
            Keeps S [] ((passedExprs spread args).length - argRegisters.length) τ υ := by
  have hes : ∀ e ∈ passedExprs spread args, Correct S e :=
    forall_passedExprs hargs (fun _ ↦ correct_group) spread
  simp only [Expr.translate, Translate.call, passed_translateEach, Pass.outcome_bind_ok,
    Pass.outcome_get, outcome_pushAll, outcome_reserve, outcome_depth, outcome_emitAll,
    outcome_popAll, outcome_release, Prod.mk.injEq, Except.ok.injEq, translateEach_length] at h
  obtain ⟨_, _, ⟨rfl, rfl⟩, _, _, ⟨-, rfl⟩, _, _, ⟨-, rfl⟩, _, _, ⟨rfl, rfl⟩, _, t₁, h₁, _, t₂, h₂,
    _, _, ⟨-, rfl⟩, _, _, ⟨-, rfl⟩, _, _, ⟨-, rfl⟩, _, _, ⟨-, rfl⟩, -, rfl⟩ := h
  generalize hlist : passedExprs spread args = es at *
  obtain ⟨c₁, e₁, hroom₁, r₁⟩ := passArgs_correct hes h₁ hs (Nat.le_add_left ..)
  obtain ⟨c₂, e₂, r₂⟩ := hcallee h₂ (e₁.wellFormed hs)
  have a₁ := e₁.activation
  have a₂ : t₂.activation = t₁.activation := e₂.activation
  have hstatics : ∀ s, callee.statics S.address (staticsAll S.address es s)
      = (Expr.call callee args spread n).statics S.address s := by
    intro s
    rw [← hlist, staticsAll_passedExprs, Expr.statics]
  refine ⟨reserveCode (es.length - argRegisters.length) ++ (c₁ ++ (c₂ ++
    (checkCode ++ fetchCode (argRegisters.take es.length).reverse))), ?_, ?_,
      fun G ρ σ τ hready hτ hfits ↦ ?_⟩
  · refine ((Emits.emitted (labels_pushes _)).trans ((Emits.emitted (labels_reserveCode _)).trans
      (e₁.trans (e₂.trans ((Emits.emitted rfl).trans ((Emits.emitted (labels_pops _)).trans
        ((Emits.emitted rfl).trans ((Emits.emitted (labels_releaseCode _)).trans
          (.emitted (labels_pops _)))))))))).congr ?_ (fun G ↦ hstatics _) ?_
    · have hmin : (argRegisters.take es.length).length = (es.take argRegisters.length).length := by
        rw [List.length_take, List.length_take, Nat.min_comm]
      simp only [Translator.activation_emitted, a₁, a₂, List.length_reverse, hmin]
      omega
    · simp [checkCode, fetchCode]
  · simp only [room_append, room_reserveCode, checkCode, room_cons, Instr.room]
    omega
  · have heval : evalOperands S.address callee args spread ⟨t.next, G⟩ ρ = (do
        let ws ← evalAll S.address es ⟨t.next, G⟩ ρ
        let f ← callee.eval S.address (staticsAll S.address es ⟨t.next, G⟩) ρ
        Evaluation.checked f
        return (f, ws)) := by
      rw [evalOperands, ← hlist, evalAll_passedExprs, bind_assoc, staticsAll_passedExprs]
    have hready₁ := hready.emitted hτ (t.activation.liveRegisters.map .push)
    have hroom : S.floor + 8 * (es.length - argRegisters.length) ≤ τ.top := by
      have := hfits.left
      rwa [Setting.Fits, room_reserveCode] at this
    rw [heval]
    refine (Executes.reserved (a := t.activation) _ hroom).andThen fun υ hυ ↦ ?_
    have hfits₂ := hfits.right hυ (Nat.le_of_eq (room_reserveCode _).symm)
    have hready₂ := hready₁.emitted hυ (reserveCode (es.length - argRegisters.length))
    refine (r₁ (hready₁.of_activation rfl rfl) hυ hready₂.framed hfits₂.left).bind ?_
    rintro ws ω ⟨hlen, hpassed, hω⟩
    obtain ⟨G₁, hG₁, hagree₁⟩ := Agrees.emits (t := (t.emitted _ _).emitted _ _)
      (hready₁.of_activation rfl rfl) hs e₁
    rw [show staticsAll S.address es ⟨t.next, G⟩ = _ from hG₁]
    have hlive : t₁.activation.liveRegisters = t.activation.liveRegisters := by rw [a₁]; rfl
    have hready₃ : Ready S t₁ G₁ ρ ω := by
      refine ⟨hagree₁.keeps (hlive ▸ hω), ?_⟩
      have := hready₁.framed.keeps hω
      rw [← Nat.add_assoc] at this
      rw [a₁]
      exact this
    have hfits₃ : S.Fits c₂ ω := by
      have := hυ.top
      have := hω.top
      simp only [Setting.Fits, room_append] at hfits₂ ⊢
      omega
    refine (r₂ hready₃ hfits₃).bind ?_
    rintro f ψ ⟨hψ, hf⟩
    rw [hlive] at hψ
    have hp : (ws.take argRegisters.length).length = (es.take argRegisters.length).length := by
      rw [List.length_take, List.length_take, hlen]
    have hτψ : Keeps S [] (es.length - argRegisters.length + (ws.take argRegisters.length).length)
        τ ψ := by
      rw [hp]
      exact (hω.trans hψ).mono (List.nil_subset _)
    have hal : ψ.top % 8 = 0 := (hready₃.framed.keeps hψ).aligned
    have hfetch := executes_fetch hτψ hal hf (hpassed.keeps hψ)
    rw [hlen] at hfetch
    exact hfetch.map fun _ χ hχ ↦ ⟨hlen, hχ⟩

theorem correct_call {callee : Expr} {args : List Expr} {spread : Option Nat}
    (hcallee : Correct S callee) (hargs : ∀ e ∈ args, Correct S e) :
    Correct S (.call callee args spread n) := by
  intro t t' h hs
  obtain ⟨c, e, -, r⟩ := operands_correct hcallee hargs h hs
  refine ⟨_, e, fun G ρ σ hready hfits ↦ ?_⟩
  have hroom : S.floor + 8 * t.activation.liveRegisters.length ≤ σ.top := by
    have := hfits.left
    rwa [Setting.Fits, room_pushes] at this
  rw [Expr.eval_call]
  refine Executes.saving t.activation (P := fun w v ↦ v = w) hready.framed.aligned hroom
    fun τ hτ ↦ ?_
  have hfits₁ := (hfits.right hτ (Nat.le_of_eq (room_pushes _).symm)).left.left
  refine (r hready hτ hfits₁).bind ?_
  rintro ⟨f, ws⟩ υ ⟨-, hhanded, hυ⟩
  have halign : (Target.through (υ.reg .rax)).isAligned = true := by
    rw [hhanded.pointer, Target.isAligned, untagged_mod_eight, beq_self_eq_true]
  have hands : Hands (.closure f ws) (.through (υ.reg .rax)) υ :=
    ⟨by rw [hhanded.pointer], hhanded.callee, hhanded.arg⟩
  exact .call rfl halign hands fun ψ hψ ↦ .released (by simp) (hυ.trans hψ.keeps) rfl

end TaggedLisp.Machine
