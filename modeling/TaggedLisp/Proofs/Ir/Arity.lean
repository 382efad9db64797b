import TaggedLisp.Proofs.Ir.Closures
import TaggedLisp.Proofs.Ir.Parts
import TaggedLisp.Proofs.Typing

/-!
# Arguments of direct calls

A call is direct when its callee is a closure that is known while the program is lowered: one that
stands under a label, or a function that is made on the spot. Such a call goes straight to the code,
and nothing counts the words that it hands over when the program runs. `direct_calls_fit` says that
they are as many as the function has parameters.

The checker counts the arguments by the type of the callee, and lowering takes the closure from the
scopes. Both find the same binding (`Resolved`). Where its operand is a closure, its type is written
out as a function type of as many words as the closure takes (`Binding.Fits`): this holds of the
builtin functions, of a function that is known by its name inside itself, before its result is
known, and of a global function afterwards, whatever its name was bound to before.
-/

namespace TaggedLisp

/-- The type is written out as that of a function of `count` words, with one for the list of the
surplus arguments. -/
def Ty.IsFnOf (t : Ty) (count : Nat) : Prop :=
  ∃ params rest ret, t = .fn params rest ret ∧ count = params.length + rest.toList.length

theorem Builtin.isFnOf (b : Builtin) : b.ty.IsFnOf (b.params.length + b.rest.toList.length) := by
  refine ⟨_, _, _, rfl, ?_⟩
  cases b.rest <;> simp

theorem isFnOf_fnTy {h : FnHead} {params : List Ty} {ret : Ty}
    (hparams : params.length = h.params.length) :
    (Check.fnTy h params ret).IsFnOf h.allParams.length := by
  refine ⟨_, _, _, rfl, ?_⟩
  cases hrest : h.rest <;> simp [FnHead.allParams, hparams, hrest]

namespace Ir

/-- Where the functions `ps` are known, a function of `count` words is called through the closure
`word`. -/
inductive Takes (ps : List Tree) : (word : Tree) → (count : Nat) → Prop where
  | builtin {b} (hb : b ∈ builtins) :
      Takes ps (.label (.builtin b.symbol)) (b.params.length + b.rest.toList.length)
  | function {head captures body} (hf : .func head captures body ∈ ps) :
      Takes ps (.const (.label (head.label ++ "_closure"))) head.params.length
  | literal {head captures body} : Takes ps (.func head captures body) head.params.length

theorem nodup_builtin_symbols : (builtins.map Builtin.symbol).Nodup := by decide

section

variable {ps : List Tree} {word : Tree} {count count' : Nat}

/-- A closure takes one number of words. -/
theorem Takes.unique {lo hi : Nat} (hps : Labelled lo hi ps) (h : Takes ps word count)
    (h' : Takes ps word count') : count = count' := by
  -- labels of functions start with a letter
  have hne : ∀ {head captures body} (b : Builtin), .func head captures body ∈ ps →
      head.label ++ "_closure" ≠ (Label.builtin b.symbol).render := by
    intro head _ _ b hf heq
    obtain ⟨name, id, hlabel, -⟩ := hps.number hf
    rw [hlabel] at heq
    have hhead := Label.head_render (l := .closure name id) rfl
    rw [show (Label.closure name id).render = (Label.builtin b.symbol).render from heq] at hhead
    simp [Label.render] at hhead
  cases h with
  | @builtin b hb =>
    generalize hw : Tree.label (.builtin b.symbol) = w at h'
    cases h' with
    | @builtin b' hb' =>
      simp only [Tree.label, Const.ofLabel, Tree.const.injEq, Const.label.injEq, Label.render,
        String.append_left_inj, String.append_right_inj] at hw
      rw [List.inj_on_of_nodup_map nodup_builtin_symbols hb hb' hw]
    | function hf =>
      simp only [Tree.label, Const.ofLabel, Tree.const.injEq, Const.label.injEq] at hw
      exact absurd hw.symm (hne b hf)
    | literal => cases hw
  | function hf =>
    generalize hw : Tree.const _ = w at h'
    cases h' with
    | @builtin b' _ =>
      simp only [Tree.label, Const.ofLabel, Tree.const.injEq, Const.label.injEq] at hw
      exact absurd hw (hne b' hf)
    | function hf' =>
      simp only [Tree.const.injEq, Const.label.injEq, String.append_left_inj] at hw
      rw [hps.unique hf hf' hw]
    | literal => cases hw
  | literal =>
    cases h' with
    | literal => rfl

/-! ## What names are bound to -/

/-- A temporary, or a closure that takes as many words as the type says. -/
def Tree.Fits (ps : List Tree) (ty : Ty) (t : Tree) : Prop :=
  (∃ x, t = .temp x) ∨ ∃ l count, t = .closure l ∧ Takes ps (.label l) count ∧ ty.IsFnOf count

/-- What a name stands for fits its type. -/
def Binding.Fits (ps : List Tree) (β : Binding) : Prop := β.operand.Fits ps β.ty

variable {s : Scopes Binding} {fs : List Captured} {ds : List (String × Binding)}

theorem Tree.Fits.notMem_call {ty : Ty} {t callee : Tree} {args : List Tree} (h : t.Fits ps ty) :
    .call (.untag callee) args ∉ t.parts := by
  rcases h with ⟨x, rfl⟩ | ⟨l, _, rfl, -⟩
  · exact Tree.IsCallOrFunc.call.notMem_temp x
  · exact Tree.IsCallOrFunc.call.notMem_closure l

theorem StandsFor.fits {x : String} {β : Binding} {scope : ScopeId} {t : Tree}
    (h : StandsFor s fs x β scope t) (hall : s.All (Binding.Fits ps)) :
    t.Fits ps β.ty := by
  cases h with
  | global hx _ => exact hall.of_lookupWithScope hx
  | «local» hx _ _ ht =>
    cases ht with
    | here => exact hall.of_lookupWithScope hx
    | slot => exact .inl ⟨_, rfl⟩

/-- The names that a function binds stand for its parameters and for itself. -/
theorem fits_ownBindings {h : FnHead} {params : List Ty} {id : Nat} {temps : List Temp}
    (ret : Ty) (around : List Captured) (hparams : params.length = h.params.length)
    (htemps : temps.map Temp.hint = h.allParams.map some)
    (hself : Takes ps (.label (.closure h.name id)) h.allParams.length) :
    ∀ b ∈ ownBindings h params ret (ownOperands h id temps) around, b.2.Fits ps := by
  intro b hb
  obtain ⟨p, hp, rfl⟩ := List.mem_map.mp hb
  have hlength := congrArg List.length htemps
  rw [List.length_map, List.length_map, FnHead.allParams, List.length_append] at hlength
  rw [FnHead.bindings, ← List.append_assoc, ownOperands,
    List.zip_append (by simp [hparams, hlength])] at hp
  rcases List.mem_append.mp hp with hp | hp
  · obtain ⟨t, -, ht⟩ := List.mem_map.mp (List.of_mem_zip hp).2
    exact .inl ⟨t, ht.symm⟩
  · cases hname : h.name with
    | none => simp [hname] at hp
    | some name =>
      simp only [hname, Option.toList_some, List.map_cons, List.map_nil, List.zip_cons_cons,
        List.zip_nil_left, List.mem_singleton] at hp
      subst hp
      exact .inr ⟨_, _, rfl, hname ▸ hself, isFnOf_fnTy hparams⟩

/-- Where a function is made, its closure takes as many words as its type says. -/
theorem Resolved.exists_fits {h : FnHead} {body : Expr} {n : Note} {id : Nat} {t : Tree}
    {T T' : TypeTable} {ks : List CallCheck}
    (hfunction : Resolved s fs (.function h body n id t) ds)
    (htyped : Typed T (.expr (.fn h body n)) T' ks) : ∃ head captures t',
      t = .tag .closure (.func head captures t') ∧
      head.label ++ "_closure" = (Label.closure h.name id).render ∧
      n.ty.IsFnOf head.params.length := by
  cases hfunction with
  | function _ htemps _ _ _ _ =>
    cases htyped with
    | fn _ hn =>
      have hlength := congrArg List.length htemps
      rw [List.length_map, List.length_map] at hlength
      refine ⟨_, _, _, rfl, rfl, ?_⟩
      rw [hn, hlength]
      exact isFnOf_fnTy (TypeTable.length_enter T h)

/-- An expression that is lowered to a closure has a type that says how many words this takes. -/
theorem Resolved.takes {e : Expr} {T T' : TypeTable} {ks : List CallCheck}
    (h : Resolved s fs (.expr e (.tag .closure word)) ds) (htyped : Typed T (.expr e) T' ks)
    (hall : s.All (Binding.Fits ps)) : ∃ count, Takes ps word count ∧ e.ty.IsFnOf count := by
  generalize ht : Tree.tag .closure word = t at h
  cases h with
  | @literal _ _ v n => cases v <;> cases ht
  | @symbol _ _ _ n _ _ _ h hty =>
    rcases h.fits hall with ⟨x, hx⟩ | ⟨l, count, hl, htakes, hfn⟩
    · cases ht.trans hx
    · cases ht.trans hl
      exact ⟨count, htakes, show n.ty.IsFnOf count from hty ▸ hfn⟩
  | @group _ _ shape elems n ts ds _ =>
    cases ts <;> cases ht
  | cond => cases ht
  | letIn => cases ht
  | fn _ hfunction =>
    obtain ⟨head, captures, t', rfl, -, hfn⟩ := hfunction.exists_fits htyped
    cases ht
    exact ⟨_, .literal, hfn⟩
  | defn => cases ht
  | @seq _ _ steps n ts _ _ =>
    cases ts <;> cases ht
  | @call _ _ _ _ spread _ _ _ _ _ =>
    rw [Lower.call_eq] at ht
    cases ht

theorem Resolved.length_eq {es : List Expr} {ts : List Tree} (h : Resolved s fs (.exprs es ts) ds) :
    ts.length = es.length := by
  induction es generalizing s ts ds with
  | nil =>
    cases h
    rfl
  | cons e es ih =>
    cases h with
    | cons _ hes => exact congrArg Nat.succ (ih hes)

end

/-- A call of a function whose type is written out passes as many words as the type says. -/
theorem length_passed {T T' : TypeTable} {callee ty : Ty} {args : List Ty} {spread : Option Nat}
    {count : Nat} {ts : List Tree} (h : Signed T callee args T' ty spread)
    (hcallee : callee.IsFnOf count) (hts : ts.length = args.length) :
    (Lower.passed spread ts).length = count := by
  obtain ⟨params, rest, ret, rfl, rfl⟩ := hcallee
  cases h with
  | known hfn harity _ =>
    rw [TypeTable.resolve_fn] at hfn
    cases hfn
    cases rest with
    | none =>
      rw [← hts] at harity
      simpa [Lower.passed, arityOf, Arity.admits] using harity
    | some t =>
      have hle : params.length ≤ ts.length := by
        rw [hts]
        simpa [arityOf, Arity.admits] using harity
      simp [Lower.passed, hle]
  | inferred hvar | frozen hvar | dynamic hvar =>
    rw [TypeTable.resolve_fn] at hvar
    cases hvar

/-! ## Lowered expressions -/

/-- The parts of the trees of a lowering. -/
def Lowering.parts : Lowering → List Tree
  | .expr _ t | .function _ _ _ _ t => t.parts
  | .exprs _ ts => partsOfTrees ts
  | .bindings _ ms _ => partsOfEffects ms

/-- What is lowered. -/
def Lowering.phrase : Lowering → Phrase
  | .expr e _ => .expr e
  | .exprs es _ => .exprs es
  | .bindings bs _ _ => .bindings bs
  | .function h body n _ _ => .expr (.fn h body n)

/-- The calls in a lowering pass as many words as their callees take, and what the lowering defines
fits its type again. -/
theorem Resolved.calls {ps : List Tree} {s : Scopes Binding} {fs : List Captured} {L : Lowering}
    {ds : List (String × Binding)} (h : Resolved s fs L ds) {T T' : TypeTable} {ks : List CallCheck}
    (htyped : Typed T L.phrase T' ks) (hall : s.All (Binding.Fits ps))
    (hfuncs : ∀ {head captures body}, .func head captures body ∈ L.parts →
      .func head captures body ∈ ps) :
    (∀ word args, .call (.untag (.tag .closure word)) args ∈ L.parts →
      Takes ps word args.length) ∧ ∀ d ∈ ds ++ L.bound, d.2.Fits ps := by
  induction h generalizing T T' ks with
  | literal =>
    exact ⟨fun word args hcall ↦ absurd hcall (Tree.IsCallOrFunc.call.notMem_literal _),
      List.forall_mem_nil _⟩
  | symbol h =>
    exact ⟨fun word args hcall ↦ absurd hcall (h.fits hall).notMem_call, List.forall_mem_nil _⟩
  | group _ ih =>
    cases htyped with
    | group helems _ =>
      obtain ⟨hcalls, hbound⟩ := ih helems hall fun hf ↦
        hfuncs ((Tree.IsCallOrFunc.func.mem_sequence _).mpr hf)
      exact ⟨fun word args hcall ↦
        hcalls word args ((Tree.IsCallOrFunc.call.mem_sequence _).mp hcall), hbound⟩
  | @cond s fs test yes no n j t t₁ t₂ ds _ ih =>
    have hparts {p : Tree} (hp : p.IsCallOrFunc) :
        p ∈ (Lower.cond j t t₁ t₂).parts ↔ p ∈ partsOfTrees [t, t₁, t₂] := by
      rw [hp.mem_cond]
      simp [partsOfTrees]
    cases htyped with
    | cond hexprs _ _ =>
      obtain ⟨hcalls, hbound⟩ := ih hexprs hall fun hf ↦ hfuncs ((hparts .func).mpr hf)
      exact ⟨fun word args hcall ↦ hcalls word args ((hparts .call).mp hcall), hbound⟩
  | letIn _ _ ihbindings ihbody =>
    cases htyped with
    | letIn hbindings hbody _ =>
      obtain ⟨hvalues, hbound⟩ := ihbindings hbindings hall.enter fun hf ↦
        hfuncs (Tree.IsCallOrFunc.func.mem_after.mpr (.inl hf))
      obtain ⟨hcalls, -⟩ := ihbody hbody (hall.enter.defineAll hbound) fun hf ↦
        hfuncs (Tree.IsCallOrFunc.func.mem_after.mpr (.inr hf))
      exact ⟨fun word args hcall ↦ (Tree.IsCallOrFunc.call.mem_after.mp hcall).elim
        (hvalues word args) (hcalls word args), List.forall_mem_nil _⟩
  | fn _ _ ih => exact ih htyped hall hfuncs
  | defn _ _ _ hfunction ih =>
    have hfuncs' {head captures body} (hf : Tree.func head captures body ∈ _) :=
      hfuncs (Tree.IsCallOrFunc.func.mem_move.mpr hf)
    obtain ⟨hcalls, -⟩ := ih htyped hall hfuncs'
    obtain ⟨head, captures, t, rfl, hlabel, hfn⟩ := hfunction.exists_fits htyped
    have htakes := Takes.function (hfuncs' (List.mem_cons_of_mem _ List.mem_cons_self))
    rw [hlabel] at htakes
    exact ⟨fun word args hcall ↦ hcalls word args (Tree.IsCallOrFunc.call.mem_move.mp hcall),
      List.forall_mem_singleton.mpr (.inr ⟨_, _, rfl, htakes, hfn⟩)⟩
  | seq _ ih =>
    cases htyped with
    | seq hsteps _ _ =>
      obtain ⟨hcalls, hbound⟩ := ih hsteps hall fun hf ↦
        hfuncs (Tree.IsCallOrFunc.func.mem_steps.mpr hf)
      exact ⟨fun word args hcall ↦ hcalls word args (Tree.IsCallOrFunc.call.mem_steps.mp hcall),
        hbound⟩
  | @call s fs callee args spread n t ts ds hexprs ih =>
    have hparts {p : Tree} (hp : p.IsCallOrFunc) : p ∈ (Lower.call spread t ts).parts ↔
        p = .call (.untag t) (Lower.passed spread ts) ∨ p ∈ partsOfTrees (t :: ts) := by
      rw [hp.mem_call, partsOfTrees, List.mem_append]
    cases htyped with
    | call htyped hsigned =>
      obtain ⟨hcalls, hbound⟩ := ih htyped hall fun hf ↦ hfuncs ((hparts .func).mpr (.inr hf))
      refine ⟨fun word args' hcall ↦ ?_, hbound⟩
      rcases (hparts .call).mp hcall with heq | hcall
      · cases heq
        cases hexprs with
        | cons hcallee hargs =>
          cases htyped with
          | cons htyped _ =>
            obtain ⟨count, htakes, hfn⟩ := hcallee.takes htyped hall
            have hlength := hargs.length_eq
            rw [← List.length_map Expr.ty] at hlength
            exact length_passed hsigned hfn hlength ▸ htakes
      · exact hcalls word args' hcall
  | nil => exact ⟨fun _ _ hcall ↦ absurd hcall List.not_mem_nil, List.forall_mem_nil _⟩
  | cons _ _ ihe ihes =>
    cases htyped with
    | cons he hes =>
      obtain ⟨hcalls, hds⟩ := ihe he hall fun hf ↦ hfuncs (List.mem_append_left _ hf)
      rw [Lowering.bound, List.append_nil] at hds
      obtain ⟨hcalls', hds'⟩ := ihes hes (hall.defineGlobals hds) fun hf ↦
        hfuncs (List.mem_append_right _ hf)
      refine ⟨fun word args hcall ↦ (List.mem_append.mp hcall).elim (hcalls word args)
        (hcalls' word args), ?_⟩
      rw [List.append_assoc]
      exact List.forall_mem_append.mpr ⟨hds, hds'⟩
  | bound => exact ⟨fun _ _ hcall ↦ absurd hcall List.not_mem_nil, List.forall_mem_nil _⟩
  | bind _ _ _ ihvalue ihrest =>
    cases htyped with
    | bind hvalue hrest =>
      obtain ⟨hcalls, -⟩ := ihvalue hvalue hall fun hf ↦ hfuncs (List.mem_append_left _ hf)
      obtain ⟨hcalls', hbound⟩ := ihrest hrest (hall.defineIn _ _ (.inl ⟨_, rfl⟩)) fun hf ↦
        hfuncs (List.mem_append_right _ hf)
      exact ⟨fun word args hcall ↦ (List.mem_append.mp hcall).elim (hcalls word args)
        (hcalls' word args), List.forall_mem_cons.mpr ⟨.inl ⟨_, rfl⟩, hbound⟩⟩
  | @function s fs h body n id cs temps t params ret hparams htemps _ _ hsources _ ih =>
    have hlength := congrArg List.length htemps
    rw [List.length_map, List.length_map] at hlength
    have hself : Takes ps (.label (.closure h.name id)) h.allParams.length :=
      hlength ▸ Takes.function (hfuncs (List.mem_cons_of_mem _ List.mem_cons_self))
    have hown := fits_ownBindings ret (cs :: fs) hparams htemps hself
    have hparts {p : Tree} (hp : p ∈ t.parts) : p ∈ (Tree.tag .closure
        (.func ⟨(Label.code h.name id).render, temps, h.rest.isSome⟩ cs t)).parts :=
      List.mem_cons_of_mem _ (List.mem_cons_of_mem _ (List.mem_append_right _ hp))
    cases htyped with
    | fn hbody _ =>
      obtain ⟨hcalls, -⟩ := ih hbody (hall.enter.defineAll hown) fun hf ↦ hfuncs (hparts hf)
      refine ⟨fun word args hcall ↦ ?_, List.forall_mem_nil _⟩
      simp only [Lowering.parts, Tree.parts, List.mem_cons, List.mem_append,
        mem_partsOfSources] at hcall
      rcases hcall with hcall | hcall | ⟨c, hc, hcall⟩ | hcall
      · cases hcall
      · cases hcall
      · -- what is captured is a temporary or a closure
        obtain ⟨β, scope, -, hstands⟩ := hsources c hc
        exact absurd hcall (hstands.fits hall).notMem_call
      · exact hcalls word args hcall

/-! ## Programs -/

/-- **Arguments of direct calls.** In what a checked program is lowered to, a call of a closure that
is known, be it that of a builtin function or of a function of the program under its label, or a
function that is made for the call, passes as many words as the function takes: the one number of
words that is taken is the number of arguments. -/
theorem direct_calls_fit {forms : List Form} {es : List Expr} {types : TypeTable}
    (h : checkProgram forms = .ok (es, types)) (s : Session) :
    ∃ trees s', (Session.lower es).outcome s = (.ok trees, s') ∧
      ∀ word args, .call (.untag (.tag .closure word)) args ∈ partsOfTrees trees →
        ∀ count, Takes (partsOfTrees trees) word count ↔ count = args.length := by
  obtain ⟨trees, l, ds, hlower, hresolved⟩ := checkProgram_lowers h s.next
  obtain ⟨ks, htyped⟩ := checkProgram_typed h
  have houtcome : (Session.lower es).outcome s = (.ok trees, { s with next := l.next }) := by
    rw [Session.outcome_lower, hlower]
  have hall : startScopes.All (Binding.Fits (partsOfTrees trees)) := by
    refine Scopes.All.empty.defineGlobals fun d hd ↦ ?_
    obtain ⟨b, hb, rfl⟩ := List.mem_map.mp hd
    exact .inr ⟨_, _, rfl, .builtin hb, b.isFnOf⟩
  obtain ⟨hcalls, -⟩ := hresolved.calls htyped hall id
  refine ⟨trees, _, houtcome, fun word args hcall count ↦ ⟨fun htakes ↦ ?_, ?_⟩⟩
  · exact htakes.unique (lowerAll_labelled hlower) (hcalls word args hcall)
  · rintro rfl
    exact hcalls word args hcall

/-- A function that calls itself, one of another arity that takes its name and has a parameter for
surplus arguments, a function with the name of a builtin one, and a function that is called where it
is made:
`(defn f [x] (if (< x 1) 0 (f (- x 1))))`, `(defn f [x y & rest] (f x y 1 2))`, `(f 1 2 3 4)`,
`(defn list [x] x)`, `(list 5)`, `((fn [x] (+ x 1)) 2)`. -/
def redefinedForms : List Form :=
  let symbol (name : String) : Form := .atom (.symbol name) ⟨.symbol, name, 1⟩
  let number (n : Nat) : Form := .atom (.number (.ofNat n)) ⟨.number, toString n, 1⟩
  let list (fs : List Form) : Form := .group .list fs ⟨.opening .list, "(", 1⟩
  let vector (fs : List Form) : Form := .group .vector fs ⟨.opening .vector, "[", 1⟩
  let smaller := list [symbol "<", symbol "x", number 1]
  let again := list [symbol "f", list [symbol "-", symbol "x", number 1]]
  let surplus := list [symbol "f", symbol "x", symbol "y", number 1, number 2]
  let successor := list [symbol "+", symbol "x", number 1]
  [ list [symbol "defn", symbol "f", vector [symbol "x"],
      list [symbol "if", smaller, number 0, again]],
    list [symbol "defn", symbol "f", vector [symbol "x", symbol "y", symbol "&", symbol "rest"],
      surplus],
    list [symbol "f", number 1, number 2, number 3, number 4],
    list [symbol "defn", symbol "list", vector [symbol "x"], symbol "x"],
    list [symbol "list", number 5],
    list [list [symbol "fn", vector [symbol "x"], successor], number 2] ]

/-- Direct calls fit through recursion and under names that are bound anew. -/
theorem redefinedForms_calls_fit : ∃ es types trees s',
    checkProgram redefinedForms = .ok (es, types) ∧
    (Session.lower es).outcome (.start false) = (.ok trees, s') ∧
    ∀ word args, .call (.untag (.tag .closure word)) args ∈ partsOfTrees trees →
      ∀ count, Takes (partsOfTrees trees) word count ↔ count = args.length := by
  have hchecked : (checkProgram redefinedForms).toBool = true := by decide +kernel
  obtain ⟨⟨es, types⟩, hcheck⟩ : ∃ p, checkProgram redefinedForms = .ok p := by
    cases hcheck : checkProgram redefinedForms with
    | error e => simp [hcheck, Except.toBool] at hchecked
    | ok p => exact ⟨p, rfl⟩
  obtain ⟨trees, s', hlower, hfit⟩ := direct_calls_fit hcheck (.start false)
  exact ⟨es, types, trees, s', hcheck, hlower, hfit⟩

end Ir

end TaggedLisp
