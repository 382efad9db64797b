import TaggedLisp.Proofs.Machine.Correctness

/-!
# Where arguments are passed and found

A call and the function that it reaches are translated apart from each other, and each computes the
place of an argument by itself. The call pushes what goes into registers and pops it in reverse, and
counts the other arguments from the frame pointer downwards in depth, into room that was reserved
before anything was pushed. The function counts from its own frame pointer, above the return address
and the frame pointer of the caller.

Both meet at the call instruction. What a call hands over there is found in the words that its
operands evaluate to (`call_hands_over`), whatever happened before, and a parameter is loaded from
where `argument` looks for it at that very state (`executes_prologue`), whatever the count.
-/

namespace TaggedLisp.Machine

open Translate

variable {S : Setting} {σ τ : State} {t t' u u' : Translator} {G ρ : String → Option Word}
  {callee body : Expr} {args : List Expr} {spread : Option Nat} {head : FnHead} {n m : Note}

/-! ## The caller -/

/-- The number of words that a call passes. -/
theorem length_passedExprs (spread : Option Nat) (args : List Expr) :
    (passedExprs spread args).length
      = spread.elim args.length fun k ↦ min k args.length + 1 := by
  cases spread <;> simp [passedExprs]

/-- The code behind a call instruction. -/
def callEnd (a : Activation) (passed : Nat) : List Instr :=
  releaseCode (passed - argRegisters.length) ++ a.liveRegisters.reverse.map .pop

/-- Behind a call instruction, words are taken from the stack, and nothing else happens. -/
theorem mem_callEnd {a : Activation} {k : Nat} {i : Instr} (hi : i ∈ callEnd a k) :
    (∃ n, i = .add .rsp n) ∨ ∃ r, i = .pop r := by
  rcases List.mem_append.mp hi with hi | hi
  · rw [releaseCode] at hi
    split at hi
    · cases hi
    · exact Or.inl ⟨_, List.mem_singleton.mp hi⟩
  · obtain ⟨r, -, rfl⟩ := List.mem_map.mp hi
    exact Or.inr ⟨r, rfl⟩

/-- Nothing jumps behind a call instruction. -/
theorem callEnd_action {a : Activation} {k : Nat} {address : Label → Word} {i : Instr}
    (hi : i ∈ Instr.callThrough .rax :: callEnd a k) (σ : State) (l : Label) :
    i.action address σ ≠ .jump l := by
  rcases List.mem_cons.mp hi with rfl | hi
  · simp [Instr.action]
  · rcases mem_callEnd hi with ⟨n, rfl⟩ | ⟨r, rfl⟩ <;> simp [Instr.action]

/-- Every run that comes to the call instruction has evaluated the operands, and finds the words
where a function looks for its arguments. The stack holds two words more: the return address and the
frame pointer of the caller. -/
theorem call_hands_over (O : Oracle S)
    (h : (Expr.call callee args spread n).translate.outcome t = (.ok (), t'))
    (hs : t.scopes.WellFormed) (hready : Ready S t G ρ σ) (hfits : S.Fits (t.since t') σ) :
    ∃ front, t.since t'
        = front ++ .callThrough .rax :: callEnd t.activation (passedExprs spread args).length ∧
      ∀ es τ, Comes O (t.since t') [] 0 σ es front.length τ →
        ∃ f ws, Follows (evalOperands S.address callee args spread ⟨t.next, G⟩ ρ) es
            (.result (f, ws)) ∧
          ws.length = (passedExprs spread args).length ∧ Handed f ws τ ∧
          S.floor + 16 ≤ τ.top ∧ τ.top + 8 * (ws.length - argRegisters.length) < 2 ^ 64 := by
  obtain ⟨c, e, hroom, r⟩ := operands_correct (correct S callee) (fun e _ ↦ correct S e) h hs
  have hsince : t.since t' = (t.activation.liveRegisters.map .push ++ c) ++
      .callThrough .rax :: callEnd t.activation (passedExprs spread args).length := by
    rw [e.since_eq, callEnd]
    simp
  refine ⟨_, hsince, fun es τ hcomes ↦ ?_⟩
  rw [hsince] at hfits hcomes
  have hsaved : S.floor + 8 * t.activation.liveRegisters.length ≤ σ.top := by
    have := hfits.left.left
    rwa [Setting.Fits, room_pushes] at this
  -- the registers that are saved first and the operands make up one piece of code
  have hpiece := (Executes.saved _ t.activation.rsp_not_mem hready.framed.aligned hsaved).andThen
    fun υ hυ ↦ (r hready hυ.1 (hfits.left.right hυ.1 (Nat.le_of_eq (room_pushes _).symm))).mono
      fun fw ψ hψ ↦ (⟨υ, hυ.1, hψ⟩ : ∃ υ, Keeps S t.activation.liveRegisters _ σ υ ∧
        fw.2.length = (passedExprs spread args).length ∧ Handed fw.1 fw.2 ψ ∧
          Keeps S [] ((passedExprs spread args).length - argRegisters.length) υ ψ)
  have hlink : Linkable ((t.activation.liveRegisters.map .push ++ c) ++
      .callThrough .rax :: callEnd t.activation (passedExprs spread args).length) :=
    hsince ▸ e.since_eq.symm ▸ .of_numbered e.numbered
  obtain ⟨⟨f, ws⟩, hfollows, υ, hυ, hlen, hhanded, hψ⟩ :=
    hpiece.comes hlink (fun i hi ↦ callEnd_action hi) hcomes
  refine ⟨f, ws, hfollows, hlen, hhanded, ?_, ?_⟩
  · have hυtop := hυ.top
    have hψtop := hψ.top
    have hfront := hfits.left
    rw [Setting.Fits, room_append, room_pushes] at hfront
    omega
  · have hψtop := hψ.top
    have hlt : υ.top < 2 ^ 64 := (υ.reg .rsp).isLt
    rw [hlen]
    omega

/-! ## The callee -/

/-- The state in which a called function starts: the return address stands on top of the stack. -/
def State.entered (σ : State) (back : Word) : State := (σ.lower 1).store (σ.lower 1).top back

/-- What the code of a function starts with, behind its label. -/
def prologue : List Instr := [.push .rbp, .mov .rbp (.reg .rsp)]

/-- The prologue makes the frame of the function. The words above the return address, those below
the stack and all registers but the two of the stack are as they were at the call instruction. -/
theorem executes_prologue (back : Word) (hal : σ.top % 8 = 0) (hroom : S.floor + 16 ≤ σ.top) :
    Executes S prologue (σ.entered back) (.done ()) fun _ τ ↦
      Framed 0 τ ∧ τ.top + 16 = σ.top ∧ (∀ r, r ≠ .rsp → r ≠ .rbp → τ.reg r = σ.reg r) ∧
        ∀ a, a < S.floor ∨ σ.top ≤ a → τ.mem a = σ.mem a := by
  have htop : (σ.lower 1).top + 8 = σ.top := σ.top_lower (by omega)
  have hentered : (σ.entered back).top = (σ.lower 1).top := State.top_store ..
  have hlower : ((σ.entered back).lower 1).top + 8 = (σ.entered back).top :=
    State.top_lower _ (by omega)
  refine .store rfl (by omega) (by omega) (.next rfl (.nil ⟨⟨?_, ?_⟩, ?_, ?_, ?_⟩))
  · rw [State.top_set_of_ne _ _ (by decide), State.top_store]
    omega
  · rw [State.top_set_of_ne _ _ (by decide), State.reg_set_self]
    rfl
  · rw [State.top_set_of_ne _ _ (by decide), State.top_store]
    omega
  · intro r hrsp hrbp
    rw [State.reg_set_of_ne _ _ hrbp, State.reg_store, State.reg_lower_of_ne _ hrsp]
    exact State.reg_lower_of_ne _ hrsp 1
  · intro a ha
    rw [State.mem_set, State.mem_store_of_ne _ _ (by omega), State.mem_lower, State.entered,
      State.mem_store_of_ne _ _ (by omega), State.mem_lower]

/-- Behind the prologue, a parameter holds what stood at the place of its argument at the call. -/
theorem param_holds {a : Activation} (ha : a.inFunction = true) {i : Nat} (hi : i < a.params)
    (hframed : Framed 0 τ) (htop : τ.top + 16 = σ.top)
    (hlt : σ.top + 8 * (i - argRegisters.length) < 2 ^ 64)
    (hreg : ∀ r, r ≠ .rsp → r ≠ .rbp → τ.reg r = σ.reg r)
    (hmem : ∀ b, σ.top ≤ b → τ.mem b = σ.mem b) :
    (Place.param i).Holds S a τ (argument i σ) := by
  refine ⟨ha, hi, ?_⟩
  rw [argument]
  cases hr : argRegisters[i]? with
  | some r =>
    have hne : ∀ r ∈ argRegisters, r ≠ .rsp ∧ r ≠ .rbp := by decide
    obtain ⟨hrsp, hrbp⟩ := hne r (List.mem_of_getElem? hr)
    exact hreg r hrsp hrbp
  | none =>
    have hrbp := hframed.rbp
    have hindex : (stackParamAddress (i - argRegisters.length)).index τ
        = σ.top + 8 * (i - argRegisters.length) := by
      change (τ.reg .rbp + BitVec.ofInt 64 (16 + 8 * (i - argRegisters.length : Nat))).toNat = _
      rw [BitVec.toNat_add, BitVec.toNat_ofInt]
      omega
    refine ⟨Or.inr (by omega), ?_⟩
    rw [hindex]
    exact hmem _ (Nat.le_add_right ..)

/-- A function that loads a parameter behind its prologue reads the place of the argument. -/
theorem executes_param (back : Word) {i : Nat} (hal : σ.top % 8 = 0)
    (hroom : S.floor + 16 ≤ σ.top) (hlt : σ.top + 8 * (i - argRegisters.length) < 2 ^ 64) :
    Executes S (prologue ++ (Place.param i).load) (σ.entered back) (.done ()) fun _ τ ↦
      τ.reg .rax = argument i σ := by
  refine (executes_prologue back hal hroom).andThen ?_
  rintro τ ⟨hframed, htop, hreg, hmem⟩
  have hholds := param_holds (S := S) (a := ⟨true, i + 1, 0⟩) rfl (Nat.lt_succ_self i) hframed htop
    hlt hreg fun b hb ↦ hmem b (Or.inr hb)
  exact (Executes.place hholds hframed.rbp_aligned).mono fun _ υ hυ ↦ hυ.1

/-- The translator with which the body of a function is translated. -/
def Translator.entering (t : Translator) (h : FnHead) (captures : Captures) : Translator :=
  (t.drawn.emitted (.jmp (.after t.next) :: .label (.code h.name t.next) :: prologue)
    t.activation.depth).inBody h captures t.next

theorem Translator.scopes_entering (t : Translator) (h : FnHead) (captures : Captures) :
    (t.entering h captures).scopes
      = (t.scopes.enterFrom ScopeId.global).defineAll (bodyPlaces h captures t.next) := rfl

/-- The code that makes the closure of a function with the number `id`. -/
def makeCode (live : List Reg) (name : Option String) (id : Nat) (sources : List Place) :
    List Instr :=
  if sources.isEmpty then (Place.static (.closure name id)).load
  else allocateCode live (.code name id) sources

/-- The code of a function is jumped over, and starts with the prologue behind its label. The body
is translated behind it, and then comes the code that makes the closure from the places of the
captured variables. -/
theorem fn_emits (h : (Expr.fn head body m).translate.outcome u = (.ok (), u'))
    (hu : u.scopes.WellFormed) :
    ∃ v sources, body.translate.outcome (u.entering head m.captures) = (.ok (), v) ∧
      m.captures.mapM u.scopes.lookup = some sources ∧
        u.since u' = fnCode head.name u.next ((u.entering head m.captures).since v)
          (makeCode u.activation.liveRegisters head.name u.next sources) := by
  simp only [Expr.translate, Translate.fn, isolated, Pass.outcome_bind_ok, outcome_draw,
    outcome_emitAll, outcome_places, Pass.outcome_between_ok, Prod.mk.injEq, Except.ok.injEq] at h
  obtain ⟨_, _, ⟨rfl, rfl⟩, sources, _, ⟨hsources, rfl⟩, _, _, ⟨-, rfl⟩, _, _, ⟨v, hv, rfl⟩, _, _,
    ⟨-, rfl⟩, h⟩ := h
  have hbody : body.translate.outcome (u.entering head m.captures) = (.ok _, v) := hv
  have hwf : (u.entering head m.captures).scopes.WellFormed := Translator.wellFormed_inBody hu ..
  obtain ⟨c, e, -⟩ := correct smallSetting body hbody hwf
  have hcode : v.code.toList = u.code.toList ++
      (.jmp (.after u.next) :: .label (.code head.name u.next) :: prologue ++ c) := by
    rw [e.code]
    simp [Translator.entering, Translator.inBody, Translator.emitted, Translator.drawn]
  refine ⟨v, sources, hbody, hsources, ?_⟩
  rw [e.since_eq, makeCode]
  -- what stands behind the body depends on whether anything is captured
  cases sources with
  | nil =>
    simp only [List.isEmpty_nil, if_true, Pass.outcome_bind_ok, emitData, Pass.outcome_modify,
      outcome_emitAll, Prod.mk.injEq] at h
    obtain ⟨_, _, ⟨-, rfl⟩, _, _, ⟨-, rfl⟩, h⟩ := h
    obtain ⟨-, hname⟩ := @adds_name _ _ smallSetting.address _ _ h
    rw [Translator.since, hname.code]
    simp [Translator.emitted, hcode, fnCode, prologue]
  | cons p ps =>
    rw [List.isEmpty_cons, if_neg (by decide), outcome_allocate] at h
    cases h
    rw [Translator.since]
    simp [Translator.emitted, hcode, fnCode, prologue]
    rfl

/-- A parameter is seen in the body, unless a later parameter or the function has its name. -/
theorem lookup_param (hu : u.scopes.WellFormed) (captures : Captures) {i : Nat} {x : String}
    (hx : head.allParams[i]? = some x) (hlater : x ∉ head.allParams.drop (i + 1))
    (hown : head.name ≠ some x) :
    (u.entering head captures).scopes.lookup x = some (.param i) := by
  have hwf := hu.enterFrom hu.global_lt
  have hopen : (u.scopes.enterFrom ScopeId.global).current ≠ ScopeId.global :=
    hu.current_enterFrom _
  obtain ⟨hi, hget⟩ := List.getElem?_eq_some_iff.mp hx
  have hsplit : head.allParams = head.allParams.take i ++ x :: head.allParams.drop (i + 1) := by
    rw [← hget, ← List.drop_eq_getElem_cons hi, List.take_append_drop]
  have hlength : (head.allParams.take i).length = i := List.length_take_of_le (Nat.le_of_lt hi)
  have hparams : ∀ g : Nat → String → String × Place, (∀ j y, (g j y).1 = y) →
      x ∉ ((head.allParams.drop (i + 1)).mapIdx g).map Prod.fst := by
    intro g hg hmem
    obtain ⟨b, hb, rfl⟩ := List.mem_map.mp hmem
    obtain ⟨j, hj, rfl⟩ := List.mem_mapIdx.mp hb
    exact hlater (hg j _ ▸ List.getElem_mem hj)
  have hself : ∀ own : Place, x ∉ (head.name.toList.map (·, own)).map Prod.fst := by
    simpa [Function.comp_def] using hown
  rw [Translator.scopes_entering, (hwf.defineAll _).lookup_eq, hwf.locals_defineAll _ hopen,
    bodyPlaces, hsplit, List.mapIdx_append, List.mapIdx_cons, hlength]
  -- the latest binding comes first: the name of the function, then the parameters from the last on
  simp only [List.reverse_append, List.reverse_cons, List.append_assoc, List.lookup_append]
  rw [Scopes.lookup_reverse_eq_none (hself _),
    Scopes.lookup_reverse_eq_none (hparams _ fun _ _ ↦ rfl)]
  simp

/-! ## Both together -/

/-- What stands in the code of a call before the call instruction, which is the last one. -/
def EndsInCall (code front : List Instr) : Prop :=
  ∃ rest, code = front ++ .callThrough .rax :: rest ∧ ∀ i ∈ rest, ∀ r, i ≠ .callThrough r

/-- There is one last call instruction. -/
theorem EndsInCall.unique {code front front' : List Instr} (h : EndsInCall code front)
    (h' : EndsInCall code front') : front = front' := by
  obtain ⟨rest, rfl, hrest⟩ := h
  obtain ⟨rest', hcode, hrest'⟩ := h'
  -- of two, one would stand behind the other
  have hbehind : ∀ (i : Instr) (more back : List Instr), i ∈ more ++ i :: back :=
    fun _ _ _ ↦ List.mem_append_right _ List.mem_cons_self
  rcases List.append_eq_append_iff.mp hcode with ⟨more, hfront, hmore⟩ | ⟨more, hfront, hmore⟩
  · rcases List.cons_eq_append_iff.mp hmore with ⟨rfl, -⟩ | ⟨more, rfl, rfl⟩
    · rw [hfront, List.append_nil]
    · exact absurd rfl (hrest _ (hbehind ..) .rax)
  · rcases List.cons_eq_append_iff.mp hmore with ⟨rfl, -⟩ | ⟨more, rfl, rfl⟩
    · rw [hfront, List.append_nil]
    · exact absurd rfl (hrest' _ (hbehind ..) .rax)

/-- **Calls and functions agree on where arguments are.** Whenever a run comes to the call
instruction of a call, the words of the arguments, the surplus ones in one list, stand where
`argument` says: five in `rsi`, `rdx`, `rcx`, `r8` and `r9`, the others from the top of the stack
on, with the callee in `rdi`. In the code of any function, the body stands behind the prologue and
sees its parameters in order, that for the surplus arguments last; and there each parameter is
loaded from exactly the place that `argument` says, so it holds the word of its argument. -/
theorem calling_convention (O : Oracle S)
    (hcall : (Expr.call callee args spread n).translate.outcome t = (.ok (), t'))
    (hs : t.scopes.WellFormed) (hready : Ready S t G ρ σ) (hfits : S.Fits (t.since t') σ)
    (hfn : (Expr.fn head body m).translate.outcome u = (.ok (), u')) (hu : u.scopes.WellFormed) :
    ((∃ front, EndsInCall (t.since t') front) ∧ ∀ front, EndsInCall (t.since t') front →
      ∀ es τ, Comes O (t.since t') [] 0 σ es front.length τ →
        ∃ f ws, Follows (evalOperands S.address callee args spread ⟨t.next, G⟩ ρ) es
            (.result (f, ws)) ∧
          ws.length = spread.elim args.length (fun k ↦ min k args.length + 1) ∧
          f.hasTag .closure = true ∧ τ.reg .rdi = f ∧ τ.reg .rax = f.untagged ∧
          ∀ i w, ws[i]? = some w → argument i τ = w ∧ ∀ back, i < head.allParams.length →
            Executes S (prologue ++ (Place.param i).load) (τ.entered back) (.done ())
              fun _ υ ↦ υ.reg .rax = w) ∧
    (∃ v make, body.translate.outcome (u.entering head m.captures) = (.ok (), v) ∧
      u.since u' = .jmp (.after u.next) :: .label (.code head.name u.next) :: prologue ++
        (u.entering head m.captures).since v ++ [.pop .rbp, .ret, .label (.after u.next)] ++ make) ∧
    (∀ i x, head.allParams[i]? = some x → x ∉ head.allParams.drop (i + 1) → head.name ≠ some x →
      (u.entering head m.captures).scopes.lookup x = some (.param i)) ∧
    ∀ σ back i, σ.top % 8 = 0 → S.floor + 16 ≤ σ.top → i < head.allParams.length →
      σ.top + 8 * (i - argRegisters.length) < 2 ^ 64 →
        Executes S (prologue ++ (Place.param i).load) (σ.entered back) (.done ()) fun _ υ ↦
          υ.reg .rax = argument i σ := by
  obtain ⟨front, hsince, hreached⟩ := call_hands_over O hcall hs hready hfits
  obtain ⟨v, sources, hbody, -, hcode⟩ := fn_emits hfn hu
  have hends : EndsInCall (t.since t') front := by
    refine ⟨_, hsince, fun i hi r ↦ ?_⟩
    rcases mem_callEnd hi with ⟨n, rfl⟩ | ⟨q, rfl⟩ <;> simp
  refine ⟨⟨⟨front, hends⟩, fun front' hends' es τ hcomes ↦ ?_⟩,
    ⟨v, makeCode u.activation.liveRegisters head.name u.next sources, hbody, ?_⟩,
    fun i x ↦ lookup_param hu m.captures, fun σ back i hal hroom _ ↦ executes_param back hal hroom⟩
  · obtain rfl := hends.unique hends'
    obtain ⟨f, ws, hfollows, hlen, hhanded, hroom, hlt⟩ := hreached es τ hcomes
    refine ⟨f, ws, hfollows, hlen.trans (length_passedExprs _ _), hhanded.tag, hhanded.callee,
      hhanded.pointer, fun i w hw ↦ ⟨hhanded.arg i w hw, fun back _ ↦ ?_⟩⟩
    have hi : i < ws.length := (List.getElem?_eq_some_iff.mp hw).1
    rw [← hhanded.arg i w hw]
    exact executes_param back hhanded.aligned hroom (by omega)
  · rw [hcode, fnCode]
    simp [prologue]

/-- The expression `(fn [a b c d e f & r] r)`. -/
def restFn : Expr :=
  .fn ⟨none, ["a", "b", "c", "d", "e", "f"], some "r", false⟩ (.symbol "r" default) default

/-- The expression `((fn [a b c d e f & r] r) 1 2 3 4 5 6 7 8)`. -/
def restCall : Expr :=
  .call restFn ([1, 2, 3, 4, 5, 6, 7, 8].map fun n ↦ .literal (.number n) default) (some 6) default

/-- Six words and a list of the last two arguments are passed: the sixth word and the list are found
on the stack. -/
theorem restCall_hands_over :
    ∃ front es τ, EndsInCall (startCode restCall) front ∧
      Comes smallOracle (startCode restCall) [] 0 smallState es front.length τ ∧
      ∃ ws : List Word, ws.length = 7 ∧
        ws[5]? = some (τ.mem τ.top) ∧ ws[6]? = some (τ.mem (τ.top + 8)) ∧
        ∀ i w, ws[i]? = some w → argument i τ = w ∧ ∀ back,
          Executes smallSetting (prologue ++ (Place.param i).load) (τ.entered back) (.done ())
            fun _ υ ↦ υ.reg .rax = w := by
  have hends : EndsInCall (startCode restCall) ((startCode restCall).take 45) :=
    ⟨[.add .rsp 16], rfl, by simp⟩
  obtain ⟨es, τ, hcomes⟩ : ∃ es τ, Comes smallOracle (startCode restCall) [] 0 smallState es
      ((startCode restCall).take 45).length τ := by
    apply Exists.intro
    apply Exists.intro
    -- the list is made by the only call before
    iterate 20 apply Comes.silent rfl
    apply Comes.call rfl rfl
    iterate 18 apply Comes.silent rfl
    exact .here
  have hcall : restCall.translate.outcome (.start 0)
      = (.ok (), (restCall.translate.outcome (.start 0)).2) := Prod.ext (by rfl) rfl
  have hfn : restFn.translate.outcome (.start 0)
      = (.ok (), (restFn.translate.outcome (.start 0)).2) := rfl
  obtain ⟨f, ws, -, hlen, -, -, -, hargs⟩ :=
    (calling_convention smallOracle hcall (Translator.wellFormed_start 0) (.start ⟨rfl, rfl⟩)
      (Nat.le_of_ble_eq_true rfl) hfn (Translator.wellFormed_start 0)).1.2 _ hends es τ hcomes
  have hlen : ws.length = 7 := hlen
  have hword : ∀ i (hi : i < 7), ws[i]? = some (argument i τ) := fun i hi ↦ by
    have hget := List.getElem?_eq_getElem (hlen ▸ hi : i < ws.length)
    rw [hget, (hargs i _ hget).1]
  refine ⟨_, es, τ, hends, hcomes, ws, hlen, hword 5 (by decide), hword 6 (by decide),
    fun i w hw ↦ ⟨(hargs i w hw).1, fun back ↦ (hargs i w hw).2 back ?_⟩⟩
  exact Nat.lt_of_lt_of_eq (List.getElem?_eq_some_iff.mp hw).1 hlen

end TaggedLisp.Machine
