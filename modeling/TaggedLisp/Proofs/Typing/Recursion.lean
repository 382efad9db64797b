import TaggedLisp.Proofs.Ty.Consistency
import TaggedLisp.Proofs.Typing

/-!
# Results of recursive calls

While the body of a named function is checked, the name stands for a signature of its own. The
parameters in it are those of the function, but the result is a new placeholder, for the type of the
body is not known yet. What the body does with the results of recursive calls is written into that
placeholder, and the type of the body takes its place in the end (`checkFn_own`). The two are not
compared.

`recursive_result` says when they agree nevertheless. They do for good if the type of the body was
left open, because it is frozen then, and they do for now if nothing was asked of the recursive
results. Otherwise both have a head, which stays, and a clash is there to stay as well.
`recursiveSum_clashes` is such a function: it adds to what it takes from itself, and answers a
string.
-/

namespace TaggedLisp

namespace TypeTable

variable {T T' : TypeTable} {t : Ty}

/-- Two functions with the same parameters are told apart by what they answer. -/
theorem satisfies_fnTy (T : TypeTable) (h : FnHead) (params : List Ty) (ret ret' : Ty) :
    T.satisfies (Check.fnTy h params ret) (Check.fnTy h params ret') = T.satisfies ret ret' := by
  have hparams : Ty.agreesAll (params.map T.expand) (params.map T.expand) = true :=
    Ty.agreesAll_map fun t _ ↦ T.satisfies_refl t
  have hrest (rest : Option Ty) : Ty.agreesRest (rest.map T.expand) (rest.map T.expand) = true :=
    Ty.agreesRest_map fun t _ ↦ T.satisfies_refl t
  rw [satisfies, Check.fnTy, Check.fnTy, expand_fn, expand_fn, Ty.agrees, hparams, hrest,
    Bool.true_and, Bool.true_and, satisfies]

/-- What is frozen before it has a head is never found to clash with anything. -/
theorem Sound.satisfies_of_frozen (hT : T.Sound) (ht : t.Over T.size)
    (hloose : (T.resolve t).isLoose = true) (h : (T.freeze t).Later T') (hT' : T'.ChainsEnd)
    (u : Ty) : T'.satisfies t u = true := by
  refine hT'.satisfies_of_loose_left ?_ u
  have hlater : T.Later T' := (Later.freeze T t).trans h
  cases he : T.resolve t with
  | base b =>
    rw [hlater.resolve_eq hT.ends he nofun]
    rwa [he] at hloose
  | fn params rest ret =>
    rw [he] at hloose
    contradiction
  | var v =>
    have hv : v < (T.freeze t).size := (size_freeze T t).symm ▸ hT.lt_size ht he
    rw [h.resolve_eq_var (hT.freeze t).ends ((hT.ends.resolve_freeze t t).trans he) hv
      (hT.ends.isNarrowable_freeze_end he)]
    rfl

end TypeTable

/-! ## The signature for recursive calls -/

/-- In the function with the head `h`, the name `x` stands for a function that takes what the
function takes and answers the open placeholder `v`. -/
structure OwnSignature (c : Checker) (h : FnHead) (x : String) (params : List Ty) (v : Nat) :
    Prop where
  bound : c.scopes.lookup x = some (Check.fnTy h params (.var v))
  unresolved : c.types.resolved? v = none
  isOpen : c.types.isNarrowable v = true
  name : c.types.name v = x ++ "-ret"

theorem own_of_bindHead {c c' : Checker} {h : FnHead} {x : String} {params : List Ty}
    (hs : c.scopes.WellFormed) (hname : h.name = some x)
    (hhead : (Check.bindHead h).outcome c = (.ok params, c')) :
    ∃ v, OwnSignature c' h x params v := by
  obtain ⟨name, names, rest, isGlobal⟩ := h
  obtain rfl : name = some x := hname
  obtain ⟨tys, c₁, htys, hhead⟩ := Pass.outcome_bind_ok.mp hhead
  obtain ⟨-, hscopes⟩ := Check.bindParams_scopes htys
  have hs₁ : c₁.scopes.WellFormed := hscopes ▸ hs.defineAll _
  let own := Check.fnTy ⟨some x, names, rest, isGlobal⟩ tys (.var c₁.types.size)
  -- the name is bound last, so it is seen whatever the parameters are called
  have hown {s : Scopes Ty} (hs : s.WellFormed) : OwnSignature
      ⟨(c₁.types.fresh (x ++ "-ret")).2, s.define x own⟩ ⟨some x, names, rest, isGlobal⟩ x tys
      c₁.types.size := by
    constructor
    · exact Scopes.lookup_define_self hs.current_lt _ _
    · exact (TypeTable.resolved?_fresh _ _ _).trans (TypeTable.resolved?_of_le (Nat.le_refl _))
    · rw [TypeTable.isNarrowable_fresh, if_pos rfl]
    · rw [TypeTable.name_fresh, if_pos rfl]
  cases rest with
  | none =>
    cases hhead
    exact ⟨_, hown hs₁⟩
  | some rest =>
    cases hhead
    exact ⟨_, hown (hs₁.define _ _)⟩

/-! ## Named functions -/

section

variable {op : Token} {isGlobal : Bool} {name params body : Form} {c c' : Checker} {e : Expr}

/-- **Named functions.** The body of a named function is checked where the name stands for the
function's own signature, and its type, which is frozen then, is what the function answers. -/
theorem checkFn_own (hc : c.Sound) (hs : c.scopes.WellFormed)
    (h : (checkFn op isGlobal [name, params, body]).outcome c = (.ok e, c')) :
    ∃ head body' n x tys v c₁ c₂, e = .fn head body' n ∧ head.name = some x ∧
      OwnSignature c₁ head x tys v ∧ body.check.outcome c₁ = (.ok body', c₂) ∧ c₂.types.Sound ∧
      body'.ty.Over c₂.types.size ∧ c'.types = c₂.types.freeze body'.ty ∧
      n.ty = Check.fnTy head tys body'.ty := by
  obtain ⟨head, c₀, hhead, hfn⟩ := Pass.outcome_bind_ok.mp h
  obtain ⟨-, -, hname, -⟩ := Check.fnHead_ok hhead
  obtain ⟨x, hx⟩ := Option.isSome_iff_exists.mp hname
  obtain rfl : c = c₀ := by
    have hstate := Check.state_fnHead op isGlobal (some name) params c
    rw [hhead] at hstate
    exact hstate.symm
  obtain ⟨⟨body', tys⟩, c₃, hnested, hfn⟩ := Pass.outcome_bind_ok.mp hfn
  obtain ⟨c₄, hframe, rfl⟩ := Check.outcome_nested.mp hnested
  obtain ⟨tys', c₁, hbound, hframe⟩ := Pass.outcome_bind_ok.mp hframe
  obtain ⟨e', c₂, hbody, hframe⟩ := Pass.outcome_bind_ok.mp hframe
  obtain ⟨_, c₅, hfreeze, hframe⟩ := Pass.outcome_bind_ok.mp hframe
  cases hfreeze
  cases hframe
  obtain ⟨v, hown⟩ := own_of_bindHead hs.enter hx hbound
  obtain ⟨-, hc₁⟩ := Check.bindHead_ok hc.enter hbound
  obtain ⟨hc₂, ks, htyped⟩ := body.check_types hc₁ hbody
  have hover := (htyped.sound hc₁.types).2.2 body' (List.mem_singleton_self _)
  dsimp only at hfn
  split at hfn
  all_goals
    cases hfn
    exact ⟨_, _, _, x, _, v, c₁, c₂, rfl, hx, hown, hbody, hc₂.types, hover, rfl, rfl⟩

/-- **Results of recursive calls.** A named function takes from itself what it takes from others,
so it is consistent with its own signature if and only if the type of its body is with the result of
that. They are consistent for good if the type of the body has no head when the function has been
checked, and they are then if the result of the signature has none. If they clash then, both have a
head, and they clash for good. -/
theorem recursive_result (hc : c.Sound) (hs : c.scopes.WellFormed)
    (h : (checkFn op isGlobal [name, params, body]).outcome c = (.ok e, c')) :
    ∃ head body' n x tys v c₁, e = .fn head body' n ∧ head.name = some x ∧
      OwnSignature c₁ head x tys v ∧
      (∀ T : TypeTable, T.satisfies n.ty (Check.fnTy head tys (.var v))
        = T.satisfies body'.ty (.var v)) ∧
      ((c'.types.resolve body'.ty).isLoose = true → ∀ T, c'.types.Later T → T.ChainsEnd →
        T.satisfies body'.ty (.var v) = true) ∧
      ((c'.types.resolve (.var v)).isLoose = true → c'.types.satisfies body'.ty (.var v) = true) ∧
      (c'.types.satisfies body'.ty (.var v) = false → ∀ T, c'.types.Later T →
        T.Acyclic body'.ty → T.Acyclic (.var v) → T.satisfies body'.ty (.var v) = false) := by
  obtain ⟨head, body', n, x, tys, v, c₁, c₂, he, hx, hown, -, hc₂, hover, htypes, hn⟩ :=
    checkFn_own hc hs h
  refine ⟨head, body', n, x, tys, v, c₁, he, hx, hown, fun T ↦ ?_, fun hloose T hT hends ↦ ?_,
    fun hloose ↦ ?_, fun hclash T hT hbody hresult ↦ ?_⟩
  · rw [hn, TypeTable.satisfies_fnTy]
  · rw [htypes, hc₂.ends.resolve_freeze] at hloose
    exact hc₂.satisfies_of_frozen hover hloose (htypes ▸ hT) hends _
  · rw [htypes] at hloose ⊢
    exact (hc₂.freeze _).ends.satisfies_of_loose_right hloose _
  · by_contra hagree
    rw [Bool.not_eq_false] at hagree
    rw [hbody.satisfies_earlier hresult hT.writes hagree] at hclash
    contradiction

/-- The form `(defn f [n] (do (+ (f n) 1) "a"))`. -/
def recursiveSum : Form :=
  let symbol (name : String) : Form := .atom (.symbol name) ⟨.symbol, name, 1⟩
  let list (fs : List Form) : Form := .group .list fs ⟨.opening .list, "(", 1⟩
  let vector (fs : List Form) : Form := .group .vector fs ⟨.opening .vector, "[", 1⟩
  let recursion := list [symbol "f", symbol "n"]
  let sum := list [symbol "+", recursion, .atom (.number 1) ⟨.number, "1", 1⟩]
  let answer : Form := .atom (.string "a") ⟨.string, "a", 1⟩
  list [symbol "defn", symbol "f", vector [symbol "n"], list [symbol "do", sum, answer]]

/-- What the function takes from itself is a number, and what it answers is a string. -/
theorem recursiveSum_clashes : ∃ head body n c,
    recursiveSum.check.outcome .start = (.ok (.fn head body n), c) ∧
      n.ty = Check.fnTy head [.var 0] .string ∧ c.types.name 1 = "f-ret" ∧
      c.types.resolve (.var 1) = .number ∧ c.types.satisfies body.ty (.var 1) = false :=
  ⟨_, _, _, _, rfl, rfl, rfl, rfl, rfl⟩

end

end TaggedLisp
