import TaggedLisp.Proofs.Expr.Induction
import TaggedLisp.Proofs.Ir.Flow
import TaggedLisp.Proofs.Pass
import TaggedLisp.Proofs.Scopes

/-!
# The shape of lowered trees

Not every tree is made from an expression. `Made` says which shapes occur, which temporaries they
may read, and that every part draws its numbers from a range of its own: so the temporaries that are
assigned in one part of a tree are neither read nor assigned in another. What is proved of blocks is
proved of the blocks of such trees.

The range of a part says when it was lowered, not when it is evaluated. A callee is lowered before
the arguments of its call, and the then branch of a conditional before the other one, but what the
code does comes in the other order.
-/

namespace TaggedLisp.Ir

/-! ## Shapes -/

/-- A tree, or several in a row. -/
inductive Grove where
  | tree (e : Tree)
  | trees (es : List Tree)

/-- The temporaries of a conditional, with the first four numbers of its range. -/
structure Lower.Join.DrawnFrom (j : Join) (lo : Nat) : Prop where
  id : j.id = lo
  yes : j.yes.id = lo + 1 ∧ j.yes.isSynthetic = false
  no : j.no.id = lo + 2 ∧ j.no.isSynthetic = false
  result : j.result.id = lo + 3 ∧ j.result.isSynthetic = false

/-- The labels of a conditional are made of the first number of its range. -/
theorem Lower.Join.DrawnFrom.spelled {j : Join} {lo : Nat} (h : j.DrawnFrom lo) :
    Spelled lo (lo + 4) [(Label.no j.id).render, (Label.yes j.id).render,
      (Label.after j.id).render] := by
  refine ⟨[.no j.id, .yes j.id, .after j.id], rfl, by simp [Label.IsJump], ?_, by simp, ?_⟩
  · exact Nat.le_add_right _ _
  · simp only [List.forall_mem_cons, Label.number, h.id]
    exact ⟨⟨lo, rfl, by omega⟩, ⟨lo, rfl, by omega⟩, ⟨lo, rfl, by omega⟩, List.forall_mem_nil _⟩

/-- Trees as they are made from expressions, which read the temporaries `K` of variables around them
and draw their numbers from `lo` on and below `hi`. -/
inductive Made : (K : List Nat) → (lo hi : Nat) → Grove → Prop where
  | const {K lo c} : Made K lo lo (.tree (.const c))
  | temp {K lo t} (ht : t.id ∈ K) : Made K lo lo (.tree (.temp t))
  | tag {K lo hi g e} (he : Made K lo hi (.tree e)) : Made K lo hi (.tree (.tag g e))
  | untag {K lo hi e} (he : Made K lo hi (.tree e)) : Made K lo hi (.tree (.untag e))
  | call {K lo mid hi callee args} (hcallee : Made K lo mid (.tree callee))
      (hargs : Made K mid hi (.trees args)) : Made K lo hi (.tree (.call callee args))
  | func {K lo mid k hi head captures body}
      (hsources : Made K lo mid (.trees (captures.map Prod.snd)))
      (hinner : innerIds head captures = List.range' (mid + 1) k)
      (hbody : Made (innerIds head captures) (mid + 1 + k) hi (.tree body)) :
      Made K lo hi (.tree (.tag .closure (.func head captures body)))
  | cond {K lo mid₁ mid₂ hi j test yes no} (hj : j.DrawnFrom lo)
      (htest : Made K (lo + 4) mid₁ (.tree test)) (hyes : Made K mid₁ mid₂ (.tree yes))
      (hno : Made K mid₂ hi (.tree no)) : Made K lo hi (.tree (Lower.cond j test yes no))
  | body {K lo hi e} (he : Made K lo hi (.tree e)) : Made K lo hi (.tree (.after (.seq []) e))
  | bind {K lo hi t value ms e} (hvalue : Made K lo t.id (.tree value))
      (ht : t.isSynthetic = false)
      (hrest : Made (t.id :: K) (t.id + 1) hi (.tree (.after (.seq ms) e))) :
      Made K lo hi (.tree (.after (.seq (.move t value :: ms)) e))
  | step {K lo mid hi e ms last} (he : Made K lo mid (.tree e))
      (hrest : Made K mid hi (.tree (.after (.seq ms) last))) :
      Made K lo hi (.tree (.after (.seq (.eval e :: ms)) last))
  | name {K lo t value} (hvalue : Made K lo t.id (.tree value)) (ht : t.isSynthetic = false) :
      Made K lo (t.id + 1) (.tree (.after (.move t value) (.temp t)))
  | nil {K lo} : Made K lo lo (.trees [])
  | cons {K lo mid hi e es} (he : Made K lo mid (.tree e)) (hes : Made K mid hi (.trees es)) :
      Made K lo hi (.trees (e :: es))

namespace Made

variable {K : List Nat} {lo hi : Nat} {g : Grove}

theorem le (h : Made K lo hi g) : lo ≤ hi := by
  induction h with
  | const | temp | nil => exact Nat.le_refl _
  | tag _ ih | untag _ ih | body _ ih => exact ih
  | call _ _ ih₁ ih₂ | step _ _ ih₁ ih₂ | cons _ _ ih₁ ih₂ => exact Nat.le_trans ih₁ ih₂
  | func _ _ _ ih₁ ih₂ => omega
  | cond _ _ _ _ ih₁ ih₂ ih₃ => omega
  | bind _ _ _ ih₁ ih₂ => omega
  | name _ _ ih => omega

end Made

/-! ## Scopes -/

/-- What a name may stand for: a temporary that may be read, or a closure. -/
def Atom (K : List Nat) (e : Tree) : Prop := (∃ t, e = .temp t ∧ t.id ∈ K) ∨ ∃ l, e = .closure l

/-- Local names stand for temporaries that may be read or for closures, global ones for closures. -/
structure Sees (K : List Nat) (s : Scopes Tree) : Prop where
  wellFormed : s.WellFormed
  locals : ∀ b ∈ s.locals, Atom K b.2
  globals : ∀ b ∈ s.globals, ∃ l, b.2 = .closure l

/-- Some global functions were added. -/
def Grows (s s' : Scopes Tree) : Prop :=
  ∃ ds : List (String × Label), s' = s.defineGlobals Tree.closure ds

theorem Grows.refl (s : Scopes Tree) : Grows s s := ⟨[], rfl⟩

theorem Grows.trans {s s' s'' : Scopes Tree} (h : Grows s s') (h' : Grows s' s'') :
    Grows s s'' := by
  obtain ⟨ds, rfl⟩ := h
  obtain ⟨ds', rfl⟩ := h'
  exact ⟨ds ++ ds', (Scopes.defineGlobals_append ..).symm⟩

theorem Grows.current {s s' : Scopes Tree} (h : Grows s s') : s'.current = s.current := by
  obtain ⟨ds, rfl⟩ := h
  exact Scopes.current_defineGlobals ..

theorem Grows.exit {s s' : Scopes Tree} (h : Grows s s') (saved : ScopeId) :
    Grows (s.exit saved) (s'.exit saved) := by
  obtain ⟨ds, rfl⟩ := h
  exact ⟨ds, Scopes.exit_defineGlobals ..⟩

theorem Atom.mono {K K' : List Nat} {e : Tree} (h : Atom K e) (hK : K ⊆ K') : Atom K' e :=
  h.imp_left fun ht ↦ ht.imp fun _ h ↦ ⟨h.1, hK h.2⟩

theorem Atom.made {K : List Nat} {e : Tree} (h : Atom K e) (lo : Nat) : Made K lo lo (.tree e) := by
  rcases h with ⟨t, rfl, ht⟩ | ⟨l, rfl⟩
  · exact .temp ht
  · exact .tag .const

namespace Sees

variable {K K' : List Nat} {s s' : Scopes Tree}

theorem atom (h : Sees K s) {x : String} {e : Tree} (hx : s.lookup x = some e) : Atom K e := by
  rw [h.wellFormed.lookup_eq] at hx
  rcases Option.or_eq_some_iff.mp hx with hx | ⟨-, hx⟩
  · exact h.locals (x, e) (Scopes.mem_of_lookup hx)
  · exact Or.inr (h.globals (x, e) (Scopes.mem_of_lookup hx))

theorem mono (h : Sees K s) (hK : K ⊆ K') : Sees K' s :=
  { h with locals := fun b hb ↦ (h.locals b hb).mono hK }

theorem grows (h : Sees K s) (hs : Grows s s') : Sees K s' := by
  obtain ⟨ds, rfl⟩ := hs
  refine ⟨h.wellFormed.defineGlobals _ _, ?_, ?_⟩
  · rw [Scopes.locals_defineGlobals]
    exact h.locals
  · rw [h.wellFormed.globals_defineGlobals]
    intro b hb
    rcases List.mem_append.mp hb with hb | hb
    · obtain ⟨d, -, rfl⟩ := List.mem_map.mp (List.mem_reverse.mp hb)
      exact ⟨d.2, rfl⟩
    · exact h.globals b hb

theorem enter (h : Sees K s) : Sees K s.enter where
  wellFormed := h.wellFormed.enter
  locals := by
    rw [h.wellFormed.locals_enter]
    exact h.locals
  globals := by
    rw [h.wellFormed.globals_enter]
    exact h.globals

/-- In a function, nothing is seen of the place where it stands. -/
theorem isolated (h : Sees K s) : Sees [] (s.enterFrom ScopeId.global) where
  wellFormed := h.wellFormed.enterFrom h.wellFormed.global_lt
  locals := by simp [h.wellFormed.locals_enterFrom_global]
  globals := by
    rw [h.wellFormed.globals_enterFrom]
    exact h.globals

theorem define (h : Sees K s) (hs : s.current ≠ ScopeId.global) (x : String) {e : Tree}
    (he : Atom K e) : Sees K (s.define x e) where
  wellFormed := h.wellFormed.define _ _
  locals := by
    rw [h.wellFormed.locals_define hs]
    exact List.forall_mem_cons.mpr ⟨he, h.locals⟩
  globals := by
    rw [Scopes.globals_define hs]
    exact h.globals

/-- A function knows itself by its own name, if it has one. -/
theorem own (h : Sees K s) (hs : s.current ≠ ScopeId.global) (name : Option String) (own : Label) :
    let s' := name.elim s (s.define · (.closure own))
    Sees K s' ∧ ∀ saved, s'.exit saved = s.exit saved := by
  cases name with
  | none => exact ⟨h, fun _ ↦ rfl⟩
  | some name => exact ⟨h.define hs _ (.inr ⟨_, rfl⟩), Scopes.exit_define _ _ _⟩

end Sees

/-! ## Steps of lowering -/

namespace Lower

variable (l : Lowerer) {l' : Lowerer}

@[simp] theorem outcome_draw : draw.outcome l = (.ok l.next, { l with next := l.next + 1 }) := rfl

@[simp] theorem outcome_named (name : String) :
    (named name).outcome l = (.ok ⟨l.next, some name⟩, { l with next := l.next + 1 }) := rfl

@[simp] theorem outcome_define (name : String) (e : Tree) :
    (define name e).outcome l = (.ok (), { l with scopes := l.scopes.define name e }) := rfl

theorem outcome_resolve {name : String} {line : Nat} {e : Tree} :
    (resolve name line).outcome l = (.ok e, l') ↔ l.scopes.lookup name = some e ∧ l = l' := by
  rw [resolve, Pass.outcome_bind, Pass.outcome_get]
  cases h : l.scopes.lookup name <;> simp [h]

variable {l}

theorem outcome_join {j : Join} (h : join.outcome l = (.ok j, l')) :
    j.DrawnFrom l.next ∧ l' = { l with next := l.next + 4 } := by
  cases h
  exact ⟨⟨rfl, ⟨rfl, rfl⟩, ⟨rfl, rfl⟩, ⟨rfl, rfl⟩⟩, rfl⟩

end Lower

end TaggedLisp.Ir

/-! ## Lowered expressions -/

namespace TaggedLisp

open Ir

/-- Wherever it succeeds to lower the expression, a tree is made, and of the scopes nothing is left
but global functions. -/
def Expr.LowersMade (e : Expr) : Prop :=
  ∀ {K : List Nat} {l l' : Lowerer} {t : Tree}, Sees K l.scopes → e.lower.outcome l = (.ok t, l') →
    Made K l.next l'.next (.tree t) ∧ Grows l.scopes l'.scopes

section

variable {K : List Nat} {l l' : Lowerer} {es : List Expr} {ts : List Tree}

theorem lowerAll_made (hes : ∀ e ∈ es, e.LowersMade) (hsees : Sees K l.scopes)
    (h : (lowerAll es).outcome l = (.ok ts, l')) :
    Made K l.next l'.next (.trees ts) ∧ Grows l.scopes l'.scopes := by
  induction es generalizing l ts with
  | nil =>
    cases h
    exact ⟨.nil, .refl _⟩
  | cons e es ih =>
    obtain ⟨he, hes⟩ := List.forall_mem_cons.mp hes
    obtain ⟨t, l₁, ht, h⟩ := Pass.outcome_bind_ok.mp h
    obtain ⟨ts, l₂, hts, h⟩ := Pass.outcome_bind_ok.mp h
    cases h
    obtain ⟨hmade, hgrows⟩ := he hsees ht
    obtain ⟨hmade', hgrows'⟩ := ih hes (hsees.grows hgrows) hts
    exact ⟨.cons hmade hmade', hgrows.trans hgrows'⟩

/-- What follows the bindings of a `let` reads their temporaries too. When the frame is left, the
names are gone. -/
theorem lowerBindings_made {bs : List (String × Expr)} {ms : List Effect}
    (hbs : ∀ b ∈ bs, b.2.LowersMade) (hsees : Sees K l.scopes)
    (hcurrent : l.scopes.current ≠ ScopeId.global)
    (h : (lowerBindings bs).outcome l = (.ok ms, l')) :
    ∃ K', Sees K' l'.scopes ∧ (∀ saved, Grows (l.scopes.exit saved) (l'.scopes.exit saved)) ∧
      ∀ {hi body}, Made K' l'.next hi (.tree (.after (.seq []) body)) →
        Made K l.next hi (.tree (.after (.seq ms) body)) := by
  induction bs generalizing K l ms with
  | nil =>
    cases h
    exact ⟨K, hsees, fun _ ↦ .refl _, id⟩
  | cons b bs ih =>
    obtain ⟨name, value⟩ := b
    obtain ⟨hvalue, hbs⟩ := List.forall_mem_cons.mp hbs
    obtain ⟨v, l₁, hv, h⟩ := Pass.outcome_bind_ok.mp h
    simp only [Pass.outcome_bind, Lower.outcome_named, Lower.outcome_define] at h
    rw [← Pass.outcome_bind] at h
    obtain ⟨ms, l₂, hms, h⟩ := Pass.outcome_bind_ok.mp h
    cases h
    obtain ⟨hmade, hgrows⟩ := hvalue hsees hv
    have hcurrent₁ : l₁.scopes.current ≠ ScopeId.global := hgrows.current ▸ hcurrent
    have hsees₁ : Sees (l₁.next :: K) (l₁.scopes.define name (.temp ⟨l₁.next, some name⟩)) :=
      ((hsees.grows hgrows).mono (List.subset_cons_self _ _)).define hcurrent₁ name
        (.inl ⟨_, rfl, List.mem_cons_self⟩)
    obtain ⟨K', hsees', hexit, hcont⟩ := ih (l := ⟨l₁.next + 1, l₁.scopes.define name _⟩) hbs
      hsees₁ hcurrent₁ hms
    refine ⟨K', hsees', fun saved ↦ (hgrows.exit saved).trans ?_,
      fun hbody ↦ .bind hmade rfl (hcont hbody)⟩
    have := hexit saved
    rwa [Scopes.exit_define] at this

end

end TaggedLisp

namespace TaggedLisp.Ir

variable {K : List Nat} {l l' : Lowerer} {lo mid hi : Nat}

/-- All but the last of several trees are steps. -/
theorem Made.steps {es : List Tree} (h : Made K lo hi (.trees es)) :
    Made K lo hi (.tree (Lower.steps es)) := by
  cases h with
  | nil => exact .tag .const
  | @cons _ _ mid _ e es he hes =>
    induction es generalizing e lo mid with
    | nil =>
      cases hes
      exact .body he
    | cons e' es ih =>
      cases hes with
      | cons he' hes => exact .step he (ih he' hes)

theorem Made.sequence {es : List Tree} (h : Made K lo hi (.trees es)) (shape : Shape) :
    Made K lo hi (.tree (Lower.sequence shape es)) := by
  cases h with
  | nil => exact .tag .const
  | cons he hes => exact .call .const (.cons he hes)

/-- The trees from some position on may go into one. -/
theorem Made.spread {es : List Tree} (h : Made K lo hi (.trees es)) (n : Nat) :
    Made K lo hi (.trees (es.take n ++ [Lower.sequence .list (es.drop n)])) := by
  induction n generalizing es lo with
  | zero => exact .cons (h.sequence .list) .nil
  | succ n ih =>
    cases h with
    | nil => exact .cons (.tag .const) .nil
    | cons he hes => exact .cons he (ih hes)

theorem Made.callOf {callee : Tree} {args : List Tree} (hcallee : Made K lo mid (.tree callee))
    (hargs : Made K mid hi (.trees args)) (spread : Option Nat) :
    Made K lo hi (.tree (Lower.call spread callee args)) := by
  cases spread with
  | none => exact .call (.untag hcallee) hargs
  | some n => exact .call (.untag hcallee) (hargs.spread n)

namespace Lower

/-- The slots of captured variables have numbers in a row, and what they are worth can be read. -/
theorem captures_made {line : Nat} {names : List String} {cs : List (Cell × Tree)}
    (hsees : Sees K l.scopes) (h : (captures line names).outcome l = (.ok cs, l')) (lo : Nat) :
    Made K lo lo (.trees (cs.map Prod.snd)) ∧
      cs.map (·.1.slot.id) = List.range' l.next names.length ∧
      l' = { l with next := l.next + names.length } := by
  induction names generalizing l cs with
  | nil =>
    cases h
    exact ⟨.nil, rfl, rfl⟩
  | cons name names ih =>
    obtain ⟨source, l₁, hsource, h⟩ := Pass.outcome_bind_ok.mp h
    obtain ⟨hlookup, rfl⟩ := (outcome_resolve l).mp hsource
    obtain ⟨slot, l₂, hslot, h⟩ := Pass.outcome_bind_ok.mp h
    cases hslot
    obtain ⟨cs, l₃, hcs, h⟩ := Pass.outcome_bind_ok.mp h
    cases h
    obtain ⟨hmade, hslots, rfl⟩ := ih (l := { l with next := l.next + 1 }) hsees hcs
    refine ⟨.cons ((hsees.atom hlookup).made lo) hmade, ?_, ?_⟩
    · rw [List.map_cons, hslots, List.length_cons, List.range'_succ]
    · simp only [List.length_cons, Nat.add_assoc, Nat.add_comm 1]

theorem sees_cells {s : Scopes Tree} (hsees : Sees K s) (hcurrent : s.current ≠ ScopeId.global)
    (cells : List Cell) :
    let s' := cells.foldl (fun s c ↦ s.define c.name (.temp c.slot)) s
    Sees (K ++ cells.map (·.slot.id)) s' ∧ s'.current = s.current ∧
      ∀ saved, s'.exit saved = s.exit saved := by
  induction cells generalizing K s with
  | nil => exact ⟨by simpa using hsees, rfl, fun _ ↦ rfl⟩
  | cons c cells ih =>
    have hsees₁ : Sees (K ++ [c.slot.id]) (s.define c.name (.temp c.slot)) :=
      (hsees.mono (List.subset_append_left _ _)).define hcurrent _
        (.inl ⟨_, rfl, List.mem_append_right _ List.mem_cons_self⟩)
    obtain ⟨hsees', hcurrent', hexit⟩ := ih hsees₁ hcurrent
    refine ⟨?_, hcurrent', fun saved ↦ (hexit saved).trans (Scopes.exit_define ..)⟩
    rwa [List.append_assoc] at hsees'

/-- Parameters have numbers in a row. -/
theorem params_made {names : List String} {ts : List Temp} (hsees : Sees K l.scopes)
    (hcurrent : l.scopes.current ≠ ScopeId.global)
    (h : (params names).outcome l = (.ok ts, l')) :
    Sees (K ++ ts.map Temp.id) l'.scopes ∧ l'.scopes.current = l.scopes.current ∧
      (∀ saved, l'.scopes.exit saved = l.scopes.exit saved) ∧
      ts.map Temp.id = List.range' l.next names.length ∧ l'.next = l.next + names.length := by
  induction names generalizing K l ts with
  | nil =>
    cases h
    exact ⟨by simpa using hsees, rfl, fun _ ↦ rfl, rfl, rfl⟩
  | cons name names ih =>
    simp only [params, Pass.outcome_bind, outcome_named, outcome_define] at h
    rw [← Pass.outcome_bind] at h
    obtain ⟨ts, l₁, hts, h⟩ := Pass.outcome_bind_ok.mp h
    cases h
    have hsees₁ : Sees (K ++ [l.next]) (l.scopes.define name (.temp ⟨l.next, some name⟩)) :=
      (hsees.mono (List.subset_append_left _ _)).define hcurrent _
        (.inl ⟨_, rfl, List.mem_append_right _ List.mem_cons_self⟩)
    obtain ⟨hsees', hcurrent', hexit, hids, hnext⟩ := ih
      (l := ⟨l.next + 1, l.scopes.define name _⟩) hsees₁ hcurrent hts
    refine ⟨?_, hcurrent', fun saved ↦ (hexit saved).trans (Scopes.exit_define ..), ?_, ?_⟩
    · rwa [List.append_assoc] at hsees'
    · rw [List.map_cons, hids, List.length_cons, List.range'_succ]
    · simp only [hnext, List.length_cons, Nat.add_assoc, Nat.add_comm 1]

theorem outcome_within {α : Type} {parent : Scopes Tree → ScopeId} {body : Lower α} {a : α} :
    (within parent body).outcome l = (.ok a, l') ↔ ∃ l₁,
      body.outcome { l with scopes := l.scopes.enterFrom (parent l.scopes) } = (.ok a, l₁) ∧
        { l₁ with scopes := l₁.scopes.exit l.scopes.current } = l' := by
  rw [within, Pass.outcome_between_ok]

/-- The frame in which a function with the head `h` is lowered knows its captured variables, then
its parameters, then its own name. -/
theorem outcome_fn {h : FnHead} {n : Note} {body : Lower Tree} {t : Tree} :
    (fn h n body).outcome l = (.ok t, l') ↔ ∃ captured l₁ temps l₂ tree l₃,
      (captures n.token.line n.captures).outcome { l with next := l.next + 1 }
        = (.ok captured, l₁) ∧
      (params h.allParams).outcome { l₁ with
        scopes := (captured.map Prod.fst).foldl (fun s c ↦ s.define c.name (.temp c.slot))
          (l₁.scopes.enterFrom ScopeId.global) } = (.ok temps, l₂) ∧
      body.outcome { l₂ with
        scopes := h.name.elim l₂.scopes
          (l₂.scopes.define · (.closure (.closure h.name l.next))) } = (.ok tree, l₃) ∧
      let function := Tree.tag .closure
        (.func ⟨(Label.code h.name l.next).render, temps, h.rest.isSome⟩ captured tree)
      let outside := l₃.scopes.exit l₁.scopes.current
      (t, l') = if h.isGlobal then
        let name := h.name.getD "defn"
        (.after (.move ⟨l₃.next, some name⟩ function) (.temp ⟨l₃.next, some name⟩),
          ⟨l₃.next + 1, outside.defineGlobal name (.closure (.closure h.name l.next))⟩)
      else (function, { l₃ with scopes := outside }) := by
  obtain ⟨name, names, rest, isGlobal⟩ := h
  constructor
  · intro h
    obtain ⟨_, _, hid, h⟩ := Pass.outcome_bind_ok.mp h
    cases hid
    obtain ⟨captured, l₁, hcaptured, h⟩ := Pass.outcome_bind_ok.mp h
    obtain ⟨⟨temps, tree⟩, _, hinside, h⟩ := Pass.outcome_bind_ok.mp h
    obtain ⟨l₃, hframe, rfl⟩ := outcome_within.mp hinside
    obtain ⟨_, _, hcells, hframe⟩ := Pass.outcome_bind_ok.mp hframe
    cases hcells
    obtain ⟨temps', l₂, htemps, hframe⟩ := Pass.outcome_bind_ok.mp hframe
    have hbody : (body >>= fun tree ↦ pure (temps', tree)).outcome { l₂ with
        scopes := name.elim l₂.scopes
          (l₂.scopes.define · (.closure (.closure name l.next))) } = (.ok (temps, tree), l₃) := by
      cases name <;> exact hframe
    obtain ⟨tree, _, hbody, hpair⟩ := Pass.outcome_bind_ok.mp hbody
    cases hpair
    refine ⟨captured, l₁, temps, l₂, tree, l₃, hcaptured, htemps, hbody, ?_⟩
    cases isGlobal <;> cases h <;> rfl
  · rintro ⟨captured, l₁, temps, l₂, tree, l₃, hcaptured, htemps, hbody, hend⟩
    refine Pass.outcome_bind_ok.mpr ⟨_, _, rfl, Pass.outcome_bind_ok.mpr ⟨captured, l₁, hcaptured,
      Pass.outcome_bind_ok.mpr ⟨(temps, tree), _, outcome_within.mpr ⟨l₃, ?_, rfl⟩, ?_⟩⟩⟩
    · refine Pass.outcome_bind_ok.mpr ⟨(), _, rfl, Pass.outcome_bind_ok.mpr ⟨temps, l₂, htemps, ?_⟩⟩
      have hrest : (body >>= fun tree ↦ pure (temps, tree)).outcome _ = (.ok (temps, tree), l₃) :=
        Pass.outcome_bind_ok.mpr ⟨tree, l₃, hbody, rfl⟩
      cases name <;> exact hrest
    · cases isGlobal <;> cases hend <;> rfl

/-- A function reads the variables around it where it is made, and its body only what it captured
and its parameters. -/
theorem fn_made {head : FnHead} {n : Note} {body : Expr} {t : Tree} (hbody : body.LowersMade)
    (hsees : Sees K l.scopes) (h : (fn head n body.lower).outcome l = (.ok t, l')) :
    Made K l.next l'.next (.tree t) ∧ Grows l.scopes l'.scopes := by
  obtain ⟨captured, l₁, temps, l₂, tree, l₃, hcaptured, htemps, htree, hend⟩ := outcome_fn.mp h
  obtain ⟨hsources, hslots, rfl⟩ := captures_made (l := { l with next := l.next + 1 }) hsees
    hcaptured l.next
  -- the frame of the body: the captured variables, the parameters, the name of the function
  have hcurrent := hsees.wellFormed.current_enterFrom ScopeId.global
  obtain ⟨hsees₁, hcurrent₁, hexit₁⟩ := sees_cells hsees.isolated hcurrent (captured.map Prod.fst)
  obtain ⟨hsees₂, hcurrent₂, hexit₂, hids, hnext⟩ :=
    params_made (l := ⟨l.next + 1 + n.captures.length, _⟩) hsees₁ (hcurrent₁ ▸ hcurrent) htemps
  obtain ⟨hsees₃, hexit₃⟩ := hsees₂.own (hcurrent₂ ▸ hcurrent₁ ▸ hcurrent) head.name
    (.closure head.name l.next)
  obtain ⟨hmade, hgrows⟩ := hbody hsees₃ htree
  have houtside : Grows l.scopes (l₃.scopes.exit l.scopes.current) := by
    have := hgrows.exit l.scopes.current
    rwa [hexit₃, hexit₂, hexit₁, Scopes.exit_enterFrom] at this
  have hinner : innerIds ⟨(Label.code head.name l.next).render, temps, head.rest.isSome⟩ captured
      = List.range' (l.next + 1) (n.captures.length + head.allParams.length) := by
    rw [innerIds, hslots, hids, List.range'_append_1]
  have hfunction := Made.func (K := K) hsources hinner (by
    simpa [innerIds, hnext, Nat.add_assoc, Function.comp_def] using hmade)
  cases hglobal : head.isGlobal with
  | false =>
    rw [hglobal] at hend
    cases hend
    exact ⟨hfunction, houtside⟩
  | true =>
    rw [hglobal] at hend
    cases hend
    exact ⟨.name (t := ⟨l₃.next, _⟩) hfunction rfl, houtside.trans ⟨[(_, _)], rfl⟩⟩

end Lower

end TaggedLisp.Ir

namespace TaggedLisp

open Ir

/-- Lowering makes trees of the shapes of `Made`. -/
theorem Expr.lowersMade (e : Expr) : e.LowersMade := by
  induction e using Expr.memberInduction with
  | literal v n =>
    intro K l l' t hsees h
    cases h
    cases v <;> exact ⟨.tag .const, .refl _⟩
  | symbol name n =>
    intro K l l' t hsees h
    obtain ⟨hlookup, rfl⟩ := (Lower.outcome_resolve l).mp h
    exact ⟨(hsees.atom hlookup).made _, .refl _⟩
  | group shape elems n helems =>
    intro K l l' t hsees h
    obtain ⟨ts, l₁, hts, h⟩ := Pass.outcome_bind_ok.mp h
    cases h
    obtain ⟨hmade, hgrows⟩ := lowerAll_made helems hsees hts
    exact ⟨hmade.sequence shape, hgrows⟩
  | cond test yes no n htest hyes hno =>
    intro K l l' t hsees h
    obtain ⟨j, l₁, hj, h⟩ := Pass.outcome_bind_ok.mp h
    obtain ⟨hdrawn, rfl⟩ := Lower.outcome_join hj
    obtain ⟨test, l₂, htest', h⟩ := Pass.outcome_bind_ok.mp h
    obtain ⟨yes, l₃, hyes', h⟩ := Pass.outcome_bind_ok.mp h
    obtain ⟨no, l₄, hno', h⟩ := Pass.outcome_bind_ok.mp h
    cases h
    obtain ⟨hmade₁, hgrows₁⟩ := htest (l := ⟨l.next + 4, l.scopes⟩) hsees htest'
    obtain ⟨hmade₂, hgrows₂⟩ := hyes (hsees.grows hgrows₁) hyes'
    have hgrows := hgrows₁.trans hgrows₂
    obtain ⟨hmade₃, hgrows₃⟩ := hno (hsees.grows hgrows) hno'
    exact ⟨.cond hdrawn hmade₁ hmade₂ hmade₃, hgrows.trans hgrows₃⟩
  | letIn bindings body n hbindings hbody =>
    intro K l l' t hsees h
    rw [Expr.lower, Lower.nested] at h
    obtain ⟨l₁, hframe, rfl⟩ := Lower.outcome_within.mp h
    obtain ⟨ms, l₂, hms, hframe⟩ := Pass.outcome_bind_ok.mp hframe
    obtain ⟨body, l₃, hbody', hframe⟩ := Pass.outcome_bind_ok.mp hframe
    cases hframe
    obtain ⟨K', hsees', hexit, hcont⟩ := lowerBindings_made (l := ⟨l.next, l.scopes.enter⟩)
      hbindings hsees.enter (hsees.wellFormed.current_enterFrom _) hms
    obtain ⟨hmade, hgrows⟩ := hbody hsees' hbody'
    have hgrows' := (hexit l.scopes.current).trans (hgrows.exit l.scopes.current)
    rw [Scopes.enter, Scopes.exit_enterFrom] at hgrows'
    exact ⟨hcont (.body hmade), hgrows'⟩
  | fn head body n hbody =>
    intro K l l' t hsees h
    exact Lower.fn_made hbody hsees h
  | seq steps n hsteps =>
    intro K l l' t hsees h
    obtain ⟨ts, l₁, hts, h⟩ := Pass.outcome_bind_ok.mp h
    cases h
    obtain ⟨hmade, hgrows⟩ := lowerAll_made hsteps hsees hts
    exact ⟨hmade.steps, hgrows⟩
  | call callee args spread n hcallee hargs =>
    intro K l l' t hsees h
    obtain ⟨callee, l₁, hcallee', h⟩ := Pass.outcome_bind_ok.mp h
    obtain ⟨ts, l₂, hts, h⟩ := Pass.outcome_bind_ok.mp h
    cases h
    obtain ⟨hmade₁, hgrows₁⟩ := hcallee hsees hcallee'
    obtain ⟨hmade₂, hgrows₂⟩ := lowerAll_made hargs (hsees.grows hgrows₁) hts
    exact ⟨hmade₁.callOf hmade₂ spread, hgrows₁.trans hgrows₂⟩

/-- Only the builtin functions are known at the start. -/
theorem Ir.Lowerer.scopes_start (n : Nat) :
    (Lowerer.start n).scopes = Scopes.empty.defineGlobals Tree.closure builtinClosures := by
  rw [Scopes.defineGlobals, builtinClosures, List.foldl_map]
  rfl

/-- Where only the builtin functions are known, no temporary is. -/
theorem Ir.Lowerer.sees_start (n : Nat) : Sees [] (Lowerer.start n).scopes := by
  have hempty : Sees [] Scopes.empty :=
    ⟨Scopes.wellFormed_empty, List.forall_mem_nil _, List.forall_mem_nil _⟩
  exact hempty.grows ⟨_, scopes_start n⟩

end TaggedLisp
