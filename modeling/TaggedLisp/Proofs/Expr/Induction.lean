import TaggedLisp.Expr

/-!
# Induction over expressions

An expression holds lists of expressions, and what is proved of expressions is proved of the members
of these lists on the way. `Expr.memberInduction` hands over the induction hypothesis for the
members, so that no second statement about lists has to be carried along.
-/

namespace TaggedLisp

/-- What holds of an expression whenever it holds of its parts holds of every expression. -/
@[elab_as_elim]
theorem Expr.memberInduction {motive : Expr → Prop} (literal : ∀ v n, motive (.literal v n))
    (symbol : ∀ name n, motive (.symbol name n))
    (group : ∀ shape elems n, (∀ e ∈ elems, motive e) → motive (.group shape elems n))
    (cond : ∀ test yes no n, motive test → motive yes → motive no → motive (.cond test yes no n))
    (letIn : ∀ bindings body n, (∀ b ∈ bindings, motive b.2) → motive body →
      motive (.letIn bindings body n))
    (fn : ∀ head body n, motive body → motive (.fn head body n))
    (seq : ∀ steps n, (∀ e ∈ steps, motive e) → motive (.seq steps n))
    (call : ∀ callee args spread n, motive callee → (∀ e ∈ args, motive e) →
      motive (.call callee args spread n))
    (e : Expr) : motive e :=
  @Expr.rec motive (fun es ↦ ∀ e ∈ es, motive e) (fun bs ↦ ∀ b ∈ bs, motive b.2)
    (fun b ↦ motive b.2) literal symbol group cond letIn fn seq call
    (List.forall_mem_nil _) (fun _ _ he hes ↦ List.forall_mem_cons.mpr ⟨he, hes⟩)
    (List.forall_mem_nil _) (fun _ _ hb hbs ↦ List.forall_mem_cons.mpr ⟨hb, hbs⟩)
    (fun _ _ hvalue ↦ hvalue) e

end TaggedLisp
