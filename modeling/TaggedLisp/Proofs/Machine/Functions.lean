import TaggedLisp.Proofs.Machine.Calls

/-!
# Functions

The code of a function stands where the function is made, and is jumped over. What is left to do is
to make the closure: without captures it is in the data section, and otherwise its words are written
into a block of memory that the runtime provides. These writes can be seen from outside, and they
are all that a piece of code writes outside the stack.
-/

namespace TaggedLisp.Machine

open Translate

variable {S : Setting} {σ σ₀ τ : State} {t t' : Translator} {G ρ : String → Option Word} {n : Note}

/-! ## Captured words -/

/-- The code that copies captured words. -/
def captureCode : (offset : Nat) → List Place → List Instr
  | _, [] => []
  | offset, p :: ps =>
    p.load ++ ([.mov .r11 (.memory ⟨.rsp, 0⟩), .store ⟨.r11, offset⟩ .rax] ++
      captureCode (offset + 8) ps)

theorem outcome_capture (offset : Nat) (ps : List Place) (t : Translator) :
    (capture offset ps).outcome t
      = (.ok (), t.emitted (captureCode offset ps) t.activation.depth) := by
  induction ps generalizing offset t with
  | nil => simp [capture, captureCode, Translator.emitted]
  | cons p ps ih => simp [capture, captureCode, Pass.outcome_bind, ih]

theorem labels_captureCode (offset : Nat) (ps : List Place) :
    labels (captureCode offset ps) = [] := by
  induction ps generalizing offset with
  | nil => rfl
  | cons p ps ih =>
    rw [captureCode, labels_append, labels_append, labels_load, ih]
    rfl

theorem length_le_room_captureCode (offset : Nat) (ps : List Place) :
    ps.length ≤ room (captureCode offset ps) := by
  induction ps generalizing offset with
  | nil => exact Nat.zero_le _
  | cons p ps ih =>
    have := ih (offset + 8)
    simp only [captureCode, room_append, room_cons, Instr.room, List.length_cons]
    omega

/-- A fresh block is neither kept by calls nor on the stack. -/
theorem Setting.Fresh.not_safe {block bytes a : Nat} (h : S.Fresh block bytes) (hle : block ≤ a)
    (hlt : a < block + bytes) (hfloor : S.floor ≤ σ.top) : ¬ S.Safe σ a := by
  have := h.below
  rintro (hkept | htop)
  · exact h.unused a hle hlt hkept
  · omega

/-- The words of the captured variables, as they are at a state `σ₀` above the address of the block,
are written into the block. What stands before them stays as it is. -/
theorem executes_capture {a : Activation} {block : Word} {bytes k : Nat} {ps : List Place}
    {ws : List Word} (hps : List.Forall₂ (fun p w ↦ p.Holds S a σ₀ w) ps ws)
    (hk : Keeps S a.liveRegisters k σ₀ σ) (hrbp : (σ.reg .rbp).toNat % 8 = 0)
    (hal : σ.top % 8 = 0) (hfloor : S.floor ≤ σ.top) (hblock : σ.mem σ.top = block)
    (hfresh : S.Fresh block.toNat bytes) {offset : Nat} (hoffset : offset % 8 = 0)
    (hlen : offset + 8 * ps.length ≤ bytes) :
    Executes S (captureCode offset ps) σ (.write (block.toNat + offset) ws) fun _ τ ↦
      (Keeps S a.liveRegisters k σ₀ τ ∧ τ.top = σ.top ∧ τ.mem τ.top = block) ∧
        (∀ i, i < block.toNat + offset → τ.mem i = σ.mem i) ∧
          Stored τ (block.toNat + offset) ws := by
  induction hps generalizing σ offset with
  | nil => exact .nil ⟨⟨hk, rfl, hblock⟩, fun _ _ ↦ rfl, .nil⟩
  | @cons p w ps ws hp _ ih =>
    rw [List.length_cons] at hlen
    refine (Executes.place (hp.keeps hk) hrbp).andThen ?_
    rintro τ ⟨hw, hτ⟩
    have hindex : (Address.mk .rsp 0).index τ = σ.top := by
      rw [← hτ.top, Address.index, Address.value]
      simp [State.top]
    refine .load rfl (by rw [hindex]; exact hal) ?_
    rw [hindex, hτ.mem, hblock]
    have hbelow := hfresh.below
    have haligned := hfresh.aligned
    have hlt : σ.top < 2 ^ 64 := (σ.reg .rsp).isLt
    have hplace : (Address.mk .r11 offset).index (τ.set .r11 block) = block.toNat + offset := by
      rw [Address.index, Address.value, State.reg_set_self, BitVec.ofInt_natCast, BitVec.toNat_add,
        BitVec.toNat_ofNat]
      omega
    have hstore : (Instr.store ⟨.r11, offset⟩ .rax).action S.address (τ.set .r11 block)
        = .store (block.toNat + offset) w (τ.set .r11 block) := by
      rw [Instr.action, hplace, State.reg_set_of_ne _ _ (by decide), hw]
    have hchanges : Changes σ (τ.set .r11 block) := hτ.r11
    have htop : ((τ.set .r11 block).store (block.toNat + offset) w).top = σ.top := hchanges.top
    have hkτ : Keeps S a.liveRegisters k σ₀
        ((τ.set .r11 block).store (block.toNat + offset) w) := by
      have hle : σ.top ≤ σ₀.top := by have := hk.top; omega
      exact (hk.trans (hchanges.keeps a)).store
        (hfresh.not_safe (Nat.le_add_right ..) (by omega) (Nat.le_trans hfloor hle))
    rw [Evaluation.write]
    refine .write hstore (by omega) (by omega) ?_
    rw [Nat.add_assoc]
    refine (ih hkτ ?_ ?_ ?_ ?_ (by omega) (by omega)).mono ?_
    · rw [hkτ.rbp, ← hk.rbp]
      exact hrbp
    · rw [htop]
      exact hal
    · rw [htop]
      exact hfloor
    · rw [htop, State.mem_store_of_ne _ _ (by omega), State.mem_set, hτ.mem, hblock]
    · rintro _ υ ⟨⟨hυ, hυtop, hυblock⟩, hbefore, hstored⟩
      refine ⟨⟨hυ, hυtop.trans htop, hυblock⟩, fun i hi ↦ ?_, .cons ?_ ?_⟩
      · rw [hbefore i (by omega), State.mem_store_of_ne _ _ (by omega), State.mem_set, hτ.mem]
      · rw [hbefore _ (by omega), State.mem_store_self]
      · rwa [Nat.add_assoc]

/-! ## Allocated closures -/

/-- The code that makes a closure with captured words. -/
def allocateCode (live : List Reg) (code : Label) (sources : List Place) : List Instr :=
  (live.map .push ++
    ([.mov .rax (.const (8 * (1 + sources.length))), .call (.routine .allocate)] ++
      live.reverse.map .pop)) ++
  ([.mov .r11 (.label code), .store ⟨.rax, 0⟩ .r11] ++ ([.push .rax] ++
    (captureCode 8 sources ++ [.pop .rax, .or .rax Tag.closure.bits.toInt])))

theorem outcome_allocate (code : Label) (sources : List Place) (t : Translator) :
    (allocate code sources).outcome t
      = (.ok (), t.emitted (allocateCode t.activation.liveRegisters code sources)
          t.activation.depth) := by
  simp [allocate, allocateCode, Pass.outcome_bind, outcome_capture, outcome_emit]

theorem labels_allocateCode (live : List Reg) (code : Label) (sources : List Place) :
    labels (allocateCode live code sources) = [] := by
  simp only [allocateCode, labels_append, labels_pushes, labels_pops, labels_captureCode]
  rfl

/-- The call that provides a block of memory. -/
private theorem executes_block (a : Activation) {bytes : Nat} (hal : σ.top % 8 = 0)
    (hroom : S.floor + 8 * a.liveRegisters.length ≤ σ.top) (hbytes : bytes < 2 ^ 64) :
    Executes S (a.liveRegisters.map .push ++
        ([Instr.mov .rax (.const bytes), .call (.routine .allocate)] ++
          a.liveRegisters.reverse.map .pop)) σ (Evaluation.call (.allocate bytes)) fun w τ ↦
      Keeps S a.liveRegisters 0 σ τ ∧ τ.reg .rax = w ∧ S.Fresh w.toNat bytes := by
  refine Executes.saving a (P := fun w v ↦ v = w ∧ S.Fresh w.toNat bytes) hal hroom fun τ hτ ↦
    .next rfl ?_
  rw [BitVec.ofInt_natCast]
  refine .call rfl rfl ⟨rfl, State.reg_set_self ..⟩ fun υ hυ ↦ .nil ⟨?_, rfl, ?_⟩
  · exact (Keeps.refl.set (by decide) _).trans hυ.keeps
  · have := hυ.fresh rfl
    rwa [State.reg_set_self, BitVec.toNat_ofNat, Nat.mod_eq_of_lt hbytes] at this

/-- A closure stands in memory: its word has the tag of closures, and from its address on stand the
address of its code and the captured words. -/
structure IsClosure (σ : State) (f : Word) (words : List Word) : Prop where
  tag : f.hasTag .closure = true
  stored : Stored σ f.untagged.toNat words

/-- The code that makes a closure asks for the block and writes the words that the places hold. The
closure that is made of them stands in memory then. -/
theorem executes_allocate {a : Activation} {depth : Nat} {code : Label} {ps : List Place}
    {ws : List Word} (hps : List.Forall₂ (fun p w ↦ p.Holds S a σ w) ps ws)
    (hframed : Framed depth σ) (hfits : S.Fits (allocateCode a.liveRegisters code ps) σ) :
    Executes S (allocateCode a.liveRegisters code ps) σ (.allocate (S.address code) ws) fun w τ ↦
      Yields S a.liveRegisters σ w τ ∧ IsClosure τ w (S.address code :: ws) := by
  have hlen : ps.length = ws.length := hps.length_eq
  have hcapture := length_le_room_captureCode 8 ps
  have htop : σ.top < 2 ^ 64 := (σ.reg .rsp).isLt
  simp only [Setting.Fits, allocateCode, room_append, room_pushes, room_cons, room_nil,
    Instr.room] at hfits
  have hconst : (8 * (1 + ps.length) : Int) = ((8 * (1 + ws.length) : Nat) : Int) := by
    rw [hlen]
    push_cast
    rfl
  rw [allocateCode, hconst, Evaluation.allocate]
  refine (executes_block a hframed.aligned (by omega) (by omega)).bind ?_
  rintro block τ ⟨hτ, hblock, hfresh⟩
  have hbelow := hfresh.below
  have haligned := hfresh.aligned
  have hτtop : τ.top = σ.top := hτ.top
  -- the address of the code
  refine .next rfl ?_
  have hplace : (Address.mk .rax 0).index (τ.set .r11 (S.address code)) = block.toNat := by
    rw [Address.index, Address.value, State.reg_set_of_ne _ _ (by decide), hblock]
    simp
  have hstore : (Instr.store ⟨.rax, 0⟩ .r11).action S.address (τ.set .r11 (S.address code))
      = .store block.toNat (S.address code) (τ.set .r11 (S.address code)) := by
    rw [Instr.action, hplace, State.reg_set_self]
  rw [Evaluation.write]
  refine .write hstore haligned (by omega) ?_
  have hτ₁ : Keeps S a.liveRegisters 0 σ
      ((τ.set .r11 (S.address code)).store block.toNat (S.address code)) := by
    have hr11 : Changes τ (τ.set .r11 (S.address code)) := Changes.refl.r11
    exact (hτ.trans (hr11.keeps a)).store
      (hfresh.not_safe (Nat.le_refl _) (by omega) (by omega))
  have hframed₁ := hframed.keeps hτ₁
  have hroom : S.floor + 8 ≤ ((τ.set .r11 (S.address code)).store block.toNat
      (S.address code)).top := by
    have := hτ₁.top
    omega
  -- the address of the block stays on the stack while the words are copied
  refine (executes_push (a := a) hframed₁.aligned hroom).andThen ?_
  rintro υ ⟨hυ, hυblock, hυmem⟩
  have hframed₂ := hframed₁.keeps hυ
  rw [State.reg_store, State.reg_set_of_ne _ _ (by decide), hblock] at hυblock
  have hυtop := (hτ₁.trans hυ).top
  refine (executes_capture hps (hτ₁.trans hυ) hframed₂.rbp_aligned hframed₂.aligned (by omega)
    hυblock hfresh (by decide) (by omega)).bind ?_
  rintro _ ω ⟨⟨hω, hωtop, hωblock⟩, hbefore, hstored⟩
  refine .load rfl (by rw [hωtop]; exact hframed₂.aligned) (.next rfl (.nil ⟨⟨?_, ?_⟩, ?_, ?_⟩))
  · have hrax : Reg.rax ∉ Reg.rsp :: .rbp :: a.liveRegisters := by
      intro hmem
      simp only [List.mem_cons, reduceCtorEq, false_or] at hmem
      exact a.not_mem_of_mem_liveRegisters hmem (by decide)
    exact (((hω.raise (k := 0) a.rsp_not_mem).set hrax _).set hrax _).test _
  · rw [State.reg_test, State.reg_set_self, State.reg_set_self, hωblock, ofInt_toInt]
    rfl
  · exact hasTag_tagged haligned .closure
  · rw [untagged_tagged haligned]
    refine .cons ?_ hstored
    change ω.mem block.toNat = S.address code
    rw [hbefore _ (by omega), hυmem _ (by omega), State.mem_store_self]

/-! ## Bodies -/

/-- The code of a function, and behind it the code that makes the closure. -/
def fnCode (name : Option String) (id : Nat) (body make : List Instr) : List Instr :=
  .jmp (.after id) :: ([.label (.code name id), .push .rbp, .mov .rbp (.reg .rsp)] ++
    (body ++ [.pop .rbp, .ret])) ++ .label (.after id) :: make

/-- There is enough stack for the code behind a function as well. -/
theorem Setting.Fits.make {name : Option String} {id : Nat} {body make : List Instr}
    (h : S.Fits (fnCode name id body make) σ) : S.Fits make σ := by
  simp only [Setting.Fits, fnCode, room_append, room_cons] at h ⊢
  omega

/-- The body is jumped over, and the closure is made. -/
theorem executes_fn {a : Activation} {depth : Nat} {name : Option String} {id : Nat}
    {body : List Instr} {ps : List Place} {ws : List Word}
    (hps : List.Forall₂ (fun p w ↦ p.Holds S a σ w) ps ws) (hframed : Framed depth σ)
    (hfits : S.Fits (fnCode name id body (allocateCode a.liveRegisters (.code name id) ps)) σ) :
    Executes S (fnCode name id body (allocateCode a.liveRegisters (.code name id) ps)) σ
      (.allocate (S.address (.code name id)) ws) fun w τ ↦
        Yields S a.liveRegisters σ w τ ∧ IsClosure τ w (S.address (.code name id) :: ws) :=
  .skip rfl (executes_allocate hps hframed hfits.make)

private theorem numbered_fnCode {id hi : Nat} {name : Option String} {body make : List Instr}
    (h : Numbered (id + 1) hi (labels body)) (hmake : labels make = []) :
    Numbered id hi (labels (fnCode name id body make)) := by
  have hpair : Numbered id (id + 1) [.code name id, .after id] := .pair rfl rfl (by simp)
  refine (hpair.append h).perm (List.perm_iff_count.mpr fun l ↦ ?_)
  have hlabels : labels (fnCode name id body make)
      = .code name id :: (labels body ++ .after id :: labels make) := by
    simp [fnCode, labels]
  rw [hlabels, hmake]
  simp only [List.count_append, List.count_cons, List.count_nil]
  omega

/-- The scopes of a body. -/
def bodyScopes (h : FnHead) (captures : Captures) (id : Nat) (s : Scopes Place) : Scopes Place :=
  (bodyPlaces h captures id).foldl (fun s (name, p) ↦ s.define name p)
    (s.enterFrom ScopeId.global)

/-- The translator with which a body is translated. -/
def Translator.inBody (t : Translator) (h : FnHead) (captures : Captures) (id : Nat) : Translator :=
  { t with
    activation := ⟨true, h.allParams.length, 0⟩
    scopes := bodyScopes h captures id t.scopes }

theorem Translator.scopes_inBody (t : Translator) (h : FnHead) (captures : Captures) (id : Nat) :
    (t.inBody h captures id).scopes
      = (t.scopes.enterFrom ScopeId.global).defineAll (bodyPlaces h captures id) := rfl

theorem Translator.wellFormed_inBody {t : Translator} (hs : t.scopes.WellFormed) (h : FnHead)
    (captures : Captures) (id : Nat) : (t.inBody h captures id).scopes.WellFormed :=
  (hs.enterFrom hs.global_lt).defineAll _

/-- A body adds its code and its global names to what stands outside. -/
theorem adds_body {address : Label → Word} {h : FnHead} {captures : Captures} {id : Nat}
    {f : Statics → Statics} {c : List Instr}
    (he : Adds address (t.inBody h captures id) t' 0 f c) :
    Adds address t { t' with
      activation := t.activation
      scopes := t'.scopes.exit t.scopes.current } t.activation.depth f c where
  code := he.code
  activation := rfl
  scopes := by
    obtain ⟨ds, hds, hf⟩ := he.scopes
    refine ⟨ds, ?_, hf⟩
    rw [hds, Scopes.exit_defineGlobals, Translator.scopes_inBody, Scopes.exit_defineAll,
      Scopes.exit_enterFrom]

/-- The words of captured variables are known. -/
private theorem captured_words (h : Agrees S t G ρ σ) {names : List String} {ps : List Place}
    (hps : names.mapM t.scopes.lookup = some ps) :
    ∃ ws, names.mapM (fun x ↦ (ρ x).or (G x)) = some ws ∧
      List.Forall₂ (fun p w ↦ p.Holds S t.activation σ w) ps ws := by
  have hall := Scopes.forall₂_of_mapM hps
  clear hps
  induction hall with
  | nil => exact ⟨[], rfl, .nil⟩
  | cons hp _ ih =>
    obtain ⟨w, hw, hholds⟩ := h.resolve hp
    obtain ⟨ws, hws, hall⟩ := ih
    exact ⟨w :: ws, by rw [List.mapM_cons, hw, hws]; rfl, .cons hholds hall⟩

/-- A global function without captures gets its name. -/
theorem adds_name {address : Label → Word} {head : FnHead} {l : Label}
    (h : Pass.outcome (match head.isGlobal, head.name with
        | true, some name => Translate.defineGlobal name (.static l)
        | _, _ => pure ()) t = (.ok (), t')) :
    t'.next = t.next ∧ Adds address t t' t.activation.depth
      (fun s ↦ match head.isGlobal, head.name with
        | true, some name => s.define name (closureWord address l)
        | _, _ => s) [] := by
  obtain ⟨name, params, rest, isGlobal⟩ := head
  rcases isGlobal, name with ⟨_ | _, _ | x⟩ <;> cases h
  · exact ⟨rfl, Emits.refl.toAdds⟩
  · exact ⟨rfl, Emits.refl.toAdds⟩
  · exact ⟨rfl, Emits.refl.toAdds⟩
  · exact ⟨rfl, .defineGlobal x l⟩

theorem isEmpty_eq_of_mapM {names : List String} {f : String → Option Place}
    {ps : List Place} (h : names.mapM f = some ps) : names.isEmpty = ps.isEmpty := by
  cases Scopes.forall₂_of_mapM h <;> rfl

theorem correct_fn {head : FnHead} {body : Expr} (hbody : Correct S body) :
    Correct S (.fn head body n) := by
  intro t t' h hs
  simp only [Expr.translate, Translate.fn, isolated, Pass.outcome_bind_ok, outcome_draw,
    outcome_emitAll, outcome_places, Pass.outcome_between_ok, Prod.mk.injEq, Except.ok.injEq] at h
  obtain ⟨_, _, ⟨rfl, rfl⟩, sources, _, ⟨hsources, rfl⟩, _, _, ⟨-, rfl⟩, _, _, ⟨t₂, h₂, rfl⟩, _, _,
    ⟨-, rfl⟩, h⟩ := h
  have hbody₂ : body.translate.outcome ((t.drawn.emitted _ _).inBody head n.captures t.next)
    = (.ok _, t₂) := h₂
  obtain ⟨c, e, -⟩ := hbody hbody₂ (Translator.wellFormed_inBody hs ..)
  have hadds := Adds.draw.trans (Adds.emitted.trans ((adds_body e.toAdds).trans
    (Adds.emitted (d := t.activation.depth) (c := [.pop .rbp, .ret, .label (.after t.next)]))))
  have hempty := isEmpty_eq_of_mapM hsources
  cases sources with
  | nil =>
    rw [List.isEmpty_nil] at hempty
    simp only [List.isEmpty_nil, if_true, Pass.outcome_bind_ok, emitData, Pass.outcome_modify,
      outcome_emitAll, Prod.mk.injEq] at h
    obtain ⟨_, _, ⟨-, rfl⟩, _, _, ⟨-, rfl⟩, h⟩ := h
    have hmake := hadds.trans ((Adds.datum (.closure (.closure head.name t.next)
      (.code head.name t.next))).trans (Adds.emitted (d := t.activation.depth)
        (c := (Place.static (.closure head.name t.next)).load)))
    have hnumbered := @numbered_fnCode _ _ head.name _ _ e.numbered
      (labels_load (.static (.closure head.name t.next)))
    refine ⟨fnCode head.name t.next c (Place.static (.closure head.name t.next)).load, ?_,
      fun G ρ σ hready _ ↦ ?_⟩
    · obtain ⟨hnext, hname⟩ := adds_name h
      refine ⟨(hmake.trans hname).congr rfl (fun G ↦ ?_) (by simp [fnCode]), hnext ▸ hnumbered⟩
      rw [Expr.statics, Statics.defineFn, hempty, Bool.true_and]
      rfl
    · rw [Expr.eval, hempty, if_pos rfl]
      refine .skip rfl ((Executes.place (a := t.activation) (p := .static _) rfl
        hready.framed.rbp_aligned).andDone ?_)
      rintro τ ⟨hrax, hτ⟩
      exact .of_changes hrax hτ
  | cons p ps =>
    rw [List.isEmpty_cons] at hempty
    rw [List.isEmpty_cons, if_neg (by decide), outcome_allocate] at h
    cases h
    refine ⟨fnCode head.name t.next c
      (allocateCode t.activation.liveRegisters (.code head.name t.next) (p :: ps)),
      ⟨(hadds.trans Adds.emitted).congr rfl (fun G ↦ ?_) (by simp [fnCode]; rfl),
        numbered_fnCode e.numbered (labels_allocateCode ..)⟩, fun G ρ σ hready hfits ↦ ?_⟩
    · rw [Expr.statics, Statics.defineFn, hempty, Bool.false_and]
      rfl
    · obtain ⟨ws, hws, hholds⟩ := captured_words hready.toAgrees hsources
      rw [Expr.eval, hempty, if_neg (by decide),
        show n.captures.mapM (Statics.lookup ⟨t.next, G⟩ ρ) = some ws from hws]
      exact (executes_fn hholds hready.framed hfits).mono fun _ _ h ↦ h.1

end TaggedLisp.Machine
