import TaggedLisp.Proofs.Captures
import TaggedLisp.Proofs.Ty.View
import TaggedLisp.Proofs.Typing

/-!
# Forms checked side by side

What comes of checking a form depends on the bindings of the names that it mentions and on the
placeholders that these lead to, and on nothing else. `Form.check_agrees` says so: it checks one
form in two checkers that agree in what is seen of them, and they succeed with types that stand for
each other, or stop with the same fault; in either case they agree again.

The steps of checking are gone through one by one, as in `Form.check_leads`, but in two runs at
once. `View.Agrees` relates the runs: what it says of the results is asked for at the size of the
table at that time, since types are known over the placeholders that are there.
-/

namespace TaggedLisp

namespace View

variable {V : View}

/-! ## Scopes that agree -/

/-- Either nothing is found in both places, or types that stand for each other. -/
inductive Found (V : View) (n : Nat) : (found found' : Option Ty) → Prop where
  | none : Found V n none none
  | some {t t'} (ht : V.Same n t t') : Found V n (some t) (some t')

/-- What the names stand for agrees in all frames. -/
structure SameScopes (V : View) (n : Nat) (s s' : Scopes Ty) : Prop where
  current : s'.current = s.current
  length : s'.frames.length = s.frames.length
  frame : ∀ (i : Nat) (f f' : Frame Ty), s.frames[i]? = some f → s'.frames[i]? = some f' →
    f'.parent = f.parent ∧ ∀ x, V.names x = true → V.Found n (f.lookup x) (f'.lookup x)

theorem Found.mono {n m : Nat} {t t' : Option Ty} (h : V.Found n t t') (hnm : n ≤ m) :
    V.Found m t t' := by
  cases h with
  | none => exact .none
  | some ht => exact .some (ht.mono hnm)

namespace SameScopes

variable {n m : Nat} {s s' : Scopes Ty} (h : V.SameScopes n s s')

include h

theorem mono (hnm : n ≤ m) : V.SameScopes m s s' := by
  refine ⟨h.current, h.length, fun i f f' hf hf' ↦ ?_⟩
  obtain ⟨hparent, hfound⟩ := h.frame i f f' hf hf'
  exact ⟨hparent, fun x hx ↦ (hfound x hx).mono hnm⟩

/-- A frame that is open in one of the scopes is open in the other one. -/
theorem exists_frame {i : Nat} {f : Frame Ty} (hf : s.frames[i]? = some f) :
    ∃ f', s'.frames[i]? = some f' := by
  obtain ⟨hi, -⟩ := List.getElem?_eq_some_iff.mp hf
  exact ⟨_, List.getElem?_eq_getElem (h.length ▸ hi)⟩

theorem enter : V.SameScopes n s.enter s'.enter := by
  refine ⟨h.length, ?_, fun i f f' hf hf' ↦ ?_⟩
  · simp [Scopes.enter, Scopes.enterFrom, h.length]
  · simp only [Scopes.enter, Scopes.enterFrom, h.current, List.getElem?_append, h.length] at hf hf'
    split at hf
    · next hi =>
      rw [if_pos hi] at hf'
      exact h.frame i f f' hf hf'
    · next hi =>
      rw [if_neg hi] at hf'
      obtain rfl := Option.some.inj (hf.symm.trans hf')
      obtain ⟨-, rfl⟩ := by simpa [List.getElem?_singleton] using hf
      exact ⟨rfl, fun _ _ ↦ .none⟩

theorem exit (saved : ScopeId) : V.SameScopes n (s.exit saved) (s'.exit saved) := by
  refine ⟨rfl, ?_, fun i f f' hf hf' ↦ ?_⟩
  · simp [Scopes.exit, h.length, h.current]
  · simp only [Scopes.exit, List.getElem?_take, h.current] at hf hf'
    split at hf
    · next hi =>
      rw [if_pos hi] at hf'
      exact h.frame i f f' hf hf'
    · cases hf

theorem defineIn (i : ScopeId) (x : String) {t t' : Ty} (ht : V.Same n t t') :
    V.SameScopes n (s.defineIn i x t) (s'.defineIn i x t') := by
  refine ⟨h.current, by simp [h.length], fun j g g' hg hg' ↦ ?_⟩
  rw [Scopes.defineIn, List.getElem?_modify] at hg hg'
  obtain ⟨f, hf, rfl⟩ := Option.map_eq_some_iff.mp hg
  obtain ⟨f', hf', rfl⟩ := Option.map_eq_some_iff.mp hg'
  obtain ⟨hparent, hfound⟩ := h.frame j f f' hf hf'
  by_cases hij : i = j
  · simp only [if_pos hij]
    refine ⟨hparent, fun y hy ↦ ?_⟩
    rw [Frame.lookup_define, Frame.lookup_define]
    split
    · exact .some ht
    · exact hfound y hy
  · simp only [if_neg hij]
    exact ⟨hparent, hfound⟩

/-- A name is found in the same frame of both scopes, or in none. -/
theorem lookupWithScope {x : String} (hx : V.names x = true) :
    (s.lookupWithScope x = none ∧ s'.lookupWithScope x = none) ∨
      ∃ t t' i, s.lookupWithScope x = some (t, i) ∧ s'.lookupWithScope x = some (t', i) ∧
        V.Same n t t' := by
  rw [Scopes.lookupWithScope, Scopes.lookupWithScope, Scopes.visible, Scopes.visible, h.length,
    h.current]
  generalize s.frames.length = k, s.current = i
  induction k generalizing i with
  | zero => exact .inl ⟨rfl, rfl⟩
  | succ k ih =>
    rw [Scopes.visibleWithin, Scopes.visibleWithin]
    cases hf : s.frames[i]? with
    | none =>
      have hf' : s'.frames[i]? = none := by
        rw [List.getElem?_eq_none_iff] at hf ⊢
        rwa [h.length]
      rw [hf']
      exact .inl ⟨rfl, rfl⟩
    | some f =>
      obtain ⟨f', hf'⟩ := h.exists_frame hf
      obtain ⟨hparent, hfound⟩ := h.frame i f f' hf hf'
      have hfound := hfound x hx
      rw [hf']
      simp only [List.findSome?_cons, hparent]
      generalize f.lookup x = r at hfound
      generalize f'.lookup x = r' at hfound
      cases hfound with
      | some ht => exact .inr ⟨_, _, i, rfl, rfl, ht⟩
      | none =>
        cases f.parent with
        | none => exact .inl ⟨rfl, rfl⟩
        | some parent => exact ih parent

end SameScopes

/-! ## Checkers that agree -/

/-- Two checkers agree in what is seen of them. -/
structure Mirrored (V : View) (c c' : Checker) : Prop where
  types : V.Mirrors c.types c'.types
  scopes : V.SameScopes c.types.size c.scopes c'.scopes

theorem Mirrored.withTypes {c c' : Checker} (h : V.Mirrored c c') {T T' : TypeTable}
    (hT : V.Mirrors T T') (hsize : c.types.size ≤ T.size) :
    V.Mirrored { c with types := T } { c' with types := T' } := ⟨hT, h.scopes.mono hsize⟩

/-! ## Runs that agree -/

section

variable {α β γ δ : Type}

/-- Two outcomes agree: both are results that `Q` relates, or both are the same fault. The tables
have not become smaller than `n`. -/
inductive Matches (V : View) (n : Nat) (Q : Nat → α → β → Prop) :
    Except Fault α × Checker → Except Fault β × Checker → Prop where
  | ok {a b d d'} (hd : V.Mirrored d d') (hn : n ≤ d.types.size) (hab : Q d.types.size a b) :
      Matches V n Q (.ok a, d) (.ok b, d')
  | error {e d d'} (hd : V.Mirrored d d') (hn : n ≤ d.types.size) :
      Matches V n Q (.error e, d) (.error e, d')

/-- From checkers that agree and know the first `n` placeholders, two steps have outcomes that
agree. -/
def Agrees (V : View) (n : Nat) (Q : Nat → α → β → Prop) (p : Check α) (q : Check β) : Prop :=
  ∀ ⦃c c' : Checker⦄, V.Mirrored c c' → n ≤ c.types.size →
    V.Matches c.types.size Q (p.outcome c) (q.outcome c')

/-- Two results are the same. -/
def Equal (_ : Nat) (a b : α) : Prop := a = b

/-- Nothing is asked of two results. -/
def Anything (_ : Nat) (_ : α) (_ : β) : Prop := True

variable {n m : Nat} {Q : Nat → α → β → Prop} {R : Nat → γ → δ → Prop} {p : Check α} {q : Check β}

theorem Matches.mono {r : Except Fault α × Checker} {r' : Except Fault β × Checker}
    (h : V.Matches n Q r r') (hmn : m ≤ n) : V.Matches m Q r r' := by
  cases h with
  | ok hd hn hab => exact .ok hd (Nat.le_trans hmn hn) hab
  | error hd hn => exact .error hd (Nat.le_trans hmn hn)

theorem Matches.mirrored {r : Except Fault α × Checker} {r' : Except Fault β × Checker}
    (h : V.Matches n Q r r') : V.Mirrored r.2 r'.2 := by
  cases h with
  | ok hd _ _ => exact hd
  | error hd _ => exact hd

namespace Agrees

theorem pure {a : α} {b : β} (h : ∀ m, n ≤ m → Q m a b) :
    V.Agrees n Q (Pure.pure a) (Pure.pure b) := fun _ _ hc hn ↦ .ok hc (Nat.le_refl _) (h _ hn)

theorem fail (cause : Cause) (line : Nat) :
    V.Agrees n Q (Pass.fail cause line) (Pass.fail cause line) :=
  fun _ _ hc _ ↦ .error hc (Nat.le_refl _)

theorem bind {f : α → Check γ} {g : β → Check δ} (hp : V.Agrees n Q p q)
    (hf : ∀ m a b, n ≤ m → Q m a b → V.Agrees m R (f a) (g b)) :
    V.Agrees n R (p >>= f) (q >>= g) := by
  intro c c' hc hn
  have h := hp hc hn
  rw [Pass.outcome_bind, Pass.outcome_bind]
  generalize p.outcome c = r at h
  generalize q.outcome c' = r' at h
  cases h with
  | ok hd hm hab => exact (hf _ _ _ (Nat.le_trans hn hm) hab hd (Nat.le_refl _)).mono hm
  | error hd hm => exact .error hd hm

/-- Two steps that look at the state first. -/
theorem look {f : Checker → Check α} {g : Checker → Check β}
    (h : ∀ c c', V.Mirrored c c' → n ≤ c.types.size →
      V.Matches c.types.size Q ((f c).outcome c) ((g c').outcome c')) :
    V.Agrees n Q (get >>= f) (get >>= g) := by
  intro c c' hc hn
  rw [Pass.outcome_bind, Pass.outcome_bind]
  exact h c c' hc hn

end Agrees

end

/-! ## Steps on the state -/

section

open Check

variable {α β : Type} {n : Nat} {Q : Nat → α → β → Prop} {p : Check α} {q : Check β}
  {t t' a a' b b' : Ty}

theorem agrees_fresh (x : String) : V.Agrees n V.Same (fresh x) (fresh x) := by
  intro c c' hc _
  obtain ⟨hT, ht⟩ := hc.types.fresh x
  have hsize : c.types.size ≤ (c.types.fresh x).2.size := by simp
  exact .ok (hc.withTypes hT hsize) hsize ht

theorem agrees_define (x : String) (ht : V.Same n t t') :
    V.Agrees n Anything (define x t) (define x t') := by
  intro c c' hc hn
  have hdefined : V.Mirrored { c with scopes := c.scopes.define x t }
      { c' with scopes := c'.scopes.define x t' } := by
    rw [Scopes.define, Scopes.define, hc.scopes.current]
    exact ⟨hc.types, hc.scopes.defineIn _ x (ht.mono hn)⟩
  exact .ok hdefined (Nat.le_refl _) trivial

theorem agrees_defineGlobal (x : String) (ht : V.Same n t t') :
    V.Agrees n Anything (defineGlobal x t) (defineGlobal x t') :=
  fun _ _ hc hn ↦ .ok ⟨hc.types, hc.scopes.defineIn _ x (ht.mono hn)⟩ (Nat.le_refl _) trivial

theorem agrees_freeze (ht : V.Same n t t') : V.Agrees n Anything (freeze t) (freeze t') := by
  intro c c' hc hn
  obtain ⟨rfl, ht⟩ := ht
  have hsize : c.types.size ≤ (c.types.freeze t).size := by rw [TypeTable.size_freeze]
  exact .ok (hc.withTypes (hc.types.freeze (ht.mono hn)) hsize) hsize trivial

theorem agrees_satisfies (ha : V.Same n a a') (hb : V.Same n b b') :
    V.Agrees n Equal (satisfies a b) (satisfies a' b') := by
  intro c c' hc hn
  obtain ⟨rfl, ha⟩ := ha
  obtain ⟨rfl, hb⟩ := hb
  exact .ok hc (Nat.le_refl _) (hc.types.satisfies (ha.mono hn) (hb.mono hn)).symm

theorem agrees_display (ht : V.Same n t t') : V.Agrees n Equal (display t) (display t') := by
  intro c c' hc hn
  obtain ⟨rfl, ht⟩ := ht
  exact .ok hc (Nat.le_refl _) (hc.types.display (ht.mono hn)).symm

theorem agrees_nested (h : V.Agrees n Q p q) : V.Agrees n Q (nested p) (nested q) := by
  intro c c' hc hn
  have hinner : V.Mirrored { c with scopes := c.scopes.enter }
      { c' with scopes := c'.scopes.enter } := ⟨hc.types, hc.scopes.enter⟩
  have hbody := h hinner hn
  rw [nested, nested, Pass.outcome_between, Pass.outcome_between, hc.scopes.current]
  generalize p.outcome _ = r at hbody ⊢
  generalize q.outcome _ = r' at hbody ⊢
  cases hbody with
  | ok hd hm hab => exact .ok ⟨hd.types, hd.scopes.exit _⟩ hm hab
  | error hd hm => exact .error ⟨hd.types, hd.scopes.exit _⟩ hm

theorem agrees_mismatch (meeting : Meeting) (hb : V.Same n b b') (ha : V.Same n a a') (line : Nat) :
    V.Agrees n Q (mismatch meeting b a line) (mismatch meeting b' a' line) := by
  refine (agrees_display hb).bind ?_
  rintro m _ _ hm rfl
  refine (agrees_display (ha.mono hm)).bind ?_
  rintro m' _ _ _ rfl
  exact .fail _ _

theorem agrees_narrow (ha : V.Same n a a') (hb : V.Same n b b') (meeting : Meeting) (line : Nat) :
    V.Agrees n Anything (narrow a b meeting line) (narrow a' b' meeting line) := by
  refine .look fun c c' hc hn ↦ ?_
  have hclash := agrees_mismatch (Q := Anything (α := Unit) (β := Unit)) meeting hb ha line hc hn
  have hfrozen : V.Agrees n (Anything (α := Unit) (β := Unit))
      (do Pass.fail (.frozenType (← display a) (← display b)) line)
      (do Pass.fail (.frozenType (← display a') (← display b')) line) := by
    refine (agrees_display ha).bind ?_
    rintro m _ _ hm rfl
    refine (agrees_display (hb.mono hm)).bind ?_
    rintro m' _ _ _ rfl
    exact .fail _ _
  have hfrozen := hfrozen hc hn
  obtain ⟨rfl, ha⟩ := ha
  obtain ⟨rfl, hb⟩ := hb
  rcases hc.types.narrow (ha.mono hn) (hb.mono hn) with
    ⟨t, t', U, U', hU, hU', hmirrors, hsize⟩ | ⟨fault, hfault, hfault'⟩
  · rw [hU, hU']
    exact .ok (hc.withTypes hmirrors (Nat.le_of_eq hsize.symm)) (Nat.le_of_eq hsize.symm) trivial
  · rw [hfault, hfault']
    cases fault with
    | incompatible => exact hclash
    | frozen => exact hfrozen

end

/-! ## Expressions -/

/-- The types of two expressions stand for each other. -/
def SameExpr (V : View) (n : Nat) (e e' : Expr) : Prop := V.Same n e.ty e'.ty

/-- The types of several expressions stand for each other, one by one. -/
def SameExprs (V : View) (n : Nat) : (es es' : List Expr) → Prop := List.Forall₂ (V.SameExpr n)

/-- Several types stand for each other, one by one. -/
def SameAll (V : View) (n : Nat) : (ts ts' : List Ty) → Prop := List.Forall₂ (V.Same n)

section

variable {n m : Nat} {e e' : Expr} {es es' : List Expr} {ts ts' : List Ty} {t t' : Ty}

theorem SameExpr.mono (h : V.SameExpr n e e') (hnm : n ≤ m) : V.SameExpr m e e' := Same.mono h hnm

theorem SameExprs.mono (h : V.SameExprs n es es') (hnm : n ≤ m) : V.SameExprs m es es' :=
  h.imp fun _ _ he ↦ he.mono hnm

theorem SameAll.mono (h : V.SameAll n ts ts') (hnm : n ≤ m) : V.SameAll m ts ts' :=
  h.imp fun _ _ ht ↦ ht.mono hnm

theorem SameAll.eq_map (h : V.SameAll n ts ts') :
    ts' = ts.map V.ty ∧ ∀ t ∈ ts, V.Knows n t := by
  induction h with
  | nil => exact ⟨rfl, List.forall_mem_nil _⟩
  | cons ht _ ih =>
    obtain ⟨heq, hknows⟩ := ih
    exact ⟨by rw [ht.eq, heq, List.map_cons], List.forall_mem_cons.mpr ⟨ht.knows, hknows⟩⟩

theorem sameAll_map {ts : List Ty} (h : ∀ t ∈ ts, V.Knows n t) : V.SameAll n ts (ts.map V.ty) := by
  induction ts with
  | nil => exact .nil
  | cons t ts ih =>
    obtain ⟨ht, hts⟩ := List.forall_mem_cons.mp h
    exact .cons ⟨rfl, ht⟩ (ih hts)

theorem SameExprs.types (h : V.SameExprs n es es') :
    V.SameAll n (es.map Expr.ty) (es'.map Expr.ty) := by
  induction h with
  | nil => exact .nil
  | cons he _ ih => exact .cons he ih

theorem SameExprs.length_eq (h : V.SameExprs n es es') : es'.length = es.length :=
  (List.Forall₂.length_eq h).symm

theorem SameExprs.getLast? (h : V.SameExprs n es es') :
    (es.getLast? = none ∧ es'.getLast? = none) ∨
      ∃ e e', es.getLast? = some e ∧ es'.getLast? = some e' ∧ V.SameExpr n e e' := by
  induction h with
  | nil => exact .inl ⟨rfl, rfl⟩
  | @cons e e' es es' he hes ih =>
    rcases ih with ⟨hnone, hnone'⟩ | ⟨l, l', hl, hl', hlast⟩
    · rw [List.getLast?_eq_none_iff] at hnone hnone'
      subst hnone hnone'
      exact .inr ⟨e, e', rfl, rfl, he⟩
    · refine .inr ⟨l, l', ?_, ?_, hlast⟩ <;> rw [List.getLast?_cons] <;> simp [hl, hl']

/-- The type of a function, whose rest type is `any` if it has one. -/
theorem same_fn {ps ps' : List Ty} {ret ret' : Ty} {ρ : Type} (rest : Option ρ)
    (hps : V.SameAll n ps ps') (hret : V.Same n ret ret') :
    V.Same n (.fn ps (rest.map fun _ ↦ .any) ret) (.fn ps' (rest.map fun _ ↦ .any) ret') := by
  obtain ⟨rfl, hknows⟩ := hps.eq_map
  obtain ⟨rfl, hret⟩ := hret
  constructor
  · rw [ty_fn, Option.map_map]
    rfl
  · refine knows_fn.mpr ⟨hknows, fun t ht ↦ ?_, hret⟩
    obtain ⟨_, -, rfl⟩ := Option.map_eq_some_iff.mp ht
    exact knows_base _ _

end

/-! ## Parts of forms -/

section

open Check

variable {n : Nat}

theorem agrees_symbol {x : String} (hx : V.names x = true) (tok : Token) :
    V.Agrees n V.SameExpr (symbol x tok) (symbol x tok) := by
  refine .look fun c c' hc _ ↦ ?_
  rcases hc.scopes.lookupWithScope hx with ⟨hnone, hnone'⟩ | ⟨t, t', i, ht, ht', hsame⟩
  · rw [hnone, hnone']
    exact .error hc (Nat.le_refl _)
  · rw [ht, ht']
    exact .ok hc (Nat.le_refl _) hsame

theorem agrees_atom {a : Atom} {tok : Token}
    (h : ∀ x ∈ (Form.atom a tok).symbols, V.names x = true) :
    V.Agrees n V.SameExpr (atom a tok) (atom a tok) := by
  cases a with
  | nil | boolean | string => exact .pure fun _ _ ↦ same_base _ _
  | number i =>
    rw [atom]
    split
    · exact .pure fun _ _ ↦ same_base _ _
    · exact .fail _ _
  | symbol x => exact agrees_symbol (h x (List.mem_singleton_self x)) tok

theorem same_sequence (m : Nat) (shape : Shape) (es es' : List Expr) (tok : Token) :
    V.SameExpr m (sequence shape es tok) (sequence shape es' tok) := by
  cases shape <;> exact same_base _ _

theorem agrees_cond {op : Token} {test test' yes yes' no no' : Expr} (hyes : V.SameExpr n yes yes')
    (hno : V.SameExpr n no no') :
    V.Agrees n V.SameExpr (cond op test yes no) (cond op test' yes' no') := by
  refine (agrees_satisfies hno hyes).bind ?_
  rintro m agree _ hm rfl
  cases agree with
  | true => exact .pure fun m' hm' ↦ hyes.mono (Nat.le_trans hm hm')
  | false => exact agrees_mismatch _ (hyes.mono hm) (hno.mono hm) _

theorem same_seq {es es' : List Expr} (op : Token) (h : V.SameExprs n es es') :
    V.SameExpr n (seq op es) (seq op es') := by
  rw [seq, seq]
  rcases h.getLast? with ⟨hnone, hnone'⟩ | ⟨e, e', hlast, hlast', he⟩
  · rw [hnone, hnone']
    exact same_base _ _
  · rw [hlast, hlast']
    exact he

/-! ### Functions -/

theorem agrees_paramNames (op : Token) (f : Form) :
    V.Agrees n Equal (paramNames op f) (paramNames op f) := by
  cases f with
  | atom a t => exact .fail _ _
  | group shape elems t =>
    cases shape with
    | list => exact .fail _ _
    | vector =>
      rw [paramNames]
      split
      · exact .pure fun _ _ ↦ rfl
      · exact .fail _ _

theorem agrees_splitRest (op : Token) (names : List String) :
    V.Agrees n Equal (splitRest op names) (splitRest op names) := by
  rw [splitRest]
  split
  · exact .pure fun _ _ ↦ rfl
  · split
    · exact .fail _ _
    · exact .pure fun _ _ ↦ rfl
  · exact .fail _ _

theorem agrees_headOf (op : Token) (isGlobal : Bool) (params : Form) (own : Option String) :
    V.Agrees n Equal (headOf op isGlobal params own) (headOf op isGlobal params own) := by
  refine (agrees_paramNames op params).bind ?_
  rintro m names _ _ rfl
  refine (agrees_splitRest op names).bind ?_
  rintro m' split _ _ rfl
  exact .pure fun _ _ ↦ rfl

theorem agrees_fnHead (op : Token) (isGlobal : Bool) (name : Option Form) (params : Form) :
    V.Agrees n Equal (fnHead op isGlobal name params) (fnHead op isGlobal name params) := by
  refine .look fun c c' hc hn ↦ ?_
  have hglobal : c'.scopes.isGlobal = c.scopes.isGlobal := by
    rw [Scopes.isGlobal, Scopes.isGlobal, hc.scopes.current]
  dsimp only
  rw [hglobal]
  cases name with
  | none =>
    dsimp only
    split
    · exact Agrees.fail _ _ hc hn
    · exact agrees_headOf op isGlobal params none hc hn
  | some form =>
    dsimp only
    split
    · exact Agrees.fail _ _ hc hn
    · split
      · exact agrees_headOf op isGlobal params _ hc hn
      · exact Agrees.fail _ _ hc hn

theorem agrees_bindParams (names : List String) :
    V.Agrees n V.SameAll (bindParams names) (bindParams names) := by
  induction names generalizing n with
  | nil => exact .pure fun _ _ ↦ .nil
  | cons x names ih =>
    refine (agrees_fresh x).bind fun m t t' _ ht ↦ ?_
    refine (agrees_define x ht).bind fun m' _ _ hm' _ ↦ ?_
    refine ih.bind fun k ts ts' hk hts ↦ ?_
    exact .pure fun l hl ↦
      .cons (ht.mono (Nat.le_trans hm' (Nat.le_trans hk hl))) (hts.mono hl)

theorem agrees_bindHead (h : FnHead) : V.Agrees n V.SameAll (bindHead h) (bindHead h) := by
  obtain ⟨name, names, rest, isGlobal⟩ := h
  refine (agrees_bindParams names).bind fun m ps ps' _ hps ↦ ?_
  have hname {k : Nat} (hk : m ≤ k) (x : String) : V.Agrees k V.SameAll
      (do
        let ret ← fresh (x ++ "-ret")
        define x (fnTy ⟨some x, names, rest, isGlobal⟩ ps ret)
        return ps)
      (do
        let ret ← fresh (x ++ "-ret")
        define x (fnTy ⟨some x, names, rest, isGlobal⟩ ps' ret)
        return ps') := by
    refine (agrees_fresh _).bind fun k' ret ret' hk' hret ↦ ?_
    have hps := hps.mono (Nat.le_trans hk hk')
    refine (agrees_define x (same_fn rest hps hret)).bind fun l _ _ hl _ ↦ ?_
    exact .pure fun l' hl' ↦ hps.mono (Nat.le_trans hl hl')
  have hrest (rest : String) : V.Agrees m Anything (define rest .list) (define rest .list) :=
    agrees_define rest (same_base _ _)
  rcases rest with _ | rest <;> rcases name with _ | x
  · exact .pure fun k hk ↦ hps.mono hk
  · exact hname (Nat.le_refl m) x
  · exact (hrest rest).bind fun k _ _ hk _ ↦ .pure fun l hl ↦ hps.mono (Nat.le_trans hk hl)
  · exact (hrest rest).bind fun k _ _ hk _ ↦ hname hk x

theorem agrees_fn (op : Token) (h : FnHead) {p q : Check Expr}
    (hbody : ∀ m, V.Agrees m V.SameExpr p q) : V.Agrees n V.SameExpr (fn op h p) (fn op h q) := by
  have hframe : V.Agrees n
      (fun k r r' ↦ V.SameExpr k r.1 r'.1 ∧ V.SameAll k r.2 r'.2)
      (nested do
        let params ← bindHead h
        let body ← p
        freeze body.ty
        return (body, params))
      (nested do
        let params ← bindHead h
        let body ← q
        freeze body.ty
        return (body, params)) := by
    refine agrees_nested ((agrees_bindHead h).bind fun m ps ps' _ hps ↦ ?_)
    refine (hbody m).bind fun k e e' hk he ↦ ?_
    refine (agrees_freeze he).bind fun l _ _ hl _ ↦ ?_
    exact .pure fun l' hl' ↦
      ⟨he.mono (Nat.le_trans hl hl'), hps.mono (Nat.le_trans hk (Nat.le_trans hl hl'))⟩
  refine hframe.bind ?_
  rintro m ⟨e, ps⟩ ⟨e', ps'⟩ _ ⟨he, hps⟩
  obtain ⟨name, names, rest, isGlobal⟩ := h
  have hty := same_fn rest hps he
  have hresult {l : Nat} (hl : m ≤ l) (h : FnHead) (hrest : h.rest = rest) (cs cs' : Captures) :
      V.Agrees l V.SameExpr (pure (.fn h e ⟨fnTy h ps e.ty, cs, op⟩))
        (pure (.fn h e' ⟨fnTy h ps' e'.ty, cs', op⟩)) := by
    subst hrest
    exact .pure fun k hk ↦ hty.mono (Nat.le_trans hl hk)
  cases isGlobal with
  | false => exact hresult (Nat.le_refl m) _ rfl _ _
  | true =>
    cases name with
    | none => exact hresult (Nat.le_refl m) _ rfl _ _
    | some x => exact (agrees_defineGlobal x hty).bind fun l _ _ hl _ ↦ hresult hl _ rfl _ _

/-! ### Calls -/

theorem agrees_constrain (callee : String) (line position : Nat) {arg arg' : Expr} {t t' : Ty}
    (harg : V.SameExpr n arg arg') (ht : V.Same n t t') :
    V.Agrees n Anything (constrain callee line position arg t)
      (constrain callee line position arg' t') := by
  refine (agrees_satisfies harg ht).bind ?_
  rintro m agree _ hm rfl
  cases agree with
  | false => exact agrees_mismatch _ (ht.mono hm) (Same.mono harg hm) _
  | true =>
    refine .look fun c c' hc hm' ↦ ?_
    have hnarrow :=
      agrees_narrow (harg.mono hm) (ht.mono hm) (.argument position callee) line hc hm'
    have hknows := harg.knows.mono (Nat.le_trans hm hm')
    dsimp only
    rw [harg.eq, hc.types.openVar? hknows]
    cases hv : c.types.openVar? arg.ty with
    | none => exact .ok hc (Nat.le_refl _) trivial
    | some v =>
      obtain ⟨-, -, hopen⟩ := hc.types.openVar?_some hknows hv
      simp only [Option.map_some, hopen]
      rw [harg.eq] at hnarrow
      split
      · exact hnarrow
      · exact .ok hc (Nat.le_refl _) trivial

theorem agrees_constrainAll (callee : String) (line : Nat) {rest rest' : Option Ty}
    (hrest : V.Same n (rest.getD .any) (rest'.getD .any)) (position : Nat) {args args' : List Expr}
    (hargs : V.SameExprs n args args') {ps ps' : List Ty} (hps : V.SameAll n ps ps') :
    V.Agrees n Anything (constrainAll callee line rest position args ps)
      (constrainAll callee line rest' position args' ps') := by
  induction args generalizing n position args' ps ps' with
  | nil =>
    cases hargs with
    | nil => exact .pure fun _ _ ↦ trivial
  | cons arg args ih =>
    cases hargs with
    | cons harg hargs =>
      -- the rest of the arguments are checked where this one was narrowed
      have hnext {m : Nat} (hm : n ≤ m) {qs qs' : List Ty} (hqs : V.SameAll m qs qs') :=
        ih (hrest.mono hm) (position + 1) (SameExprs.mono hargs hm) hqs
      cases hps with
      | nil =>
        refine (agrees_constrain callee line position harg hrest).bind fun m _ _ hm _ ↦ ?_
        exact hnext hm .nil
      | cons hp hps =>
        refine (agrees_constrain callee line position harg hp).bind fun m _ _ hm _ ↦ ?_
        exact hnext hm (SameAll.mono hps hm)

/-- A call of a function whose type is known. -/
theorem agrees_knownCall (name : String) (line : Nat) {params : List Ty} {rest : Option Ty}
    {ret : Ty} (hknows : V.Knows n (.fn params rest ret)) {args args' : List Expr}
    (hargs : V.SameExprs n args args') (spread spread' : Option Nat) :
    V.Agrees n (fun m r r' ↦ V.Same m r.1 r'.1)
      (do constrainAll name line rest 0 args params; return (ret, spread))
      (do constrainAll name line (rest.map V.ty) 0 args' (params.map V.ty)
          return (V.ty ret, spread')) := by
  obtain ⟨hparams, hrest, hret⟩ := knows_fn.mp hknows
  have hmore : V.Same n (rest.getD .any) ((rest.map V.ty).getD .any) := by
    cases rest with
    | none => exact same_base _ _
    | some r => exact ⟨rfl, hrest r rfl⟩
  refine (agrees_constrainAll name line hmore 0 hargs (sameAll_map hparams)).bind
    fun m _ _ hm _ ↦ ?_
  exact .pure fun k hk ↦ Same.mono ⟨rfl, hret⟩ (Nat.le_trans hm hk)

/-- The first call of an open placeholder. -/
theorem agrees_firstCall (name : String) (line : Nat) {callee callee' : Expr}
    {args args' : List Expr} (hcallee : V.SameExpr n callee callee')
    (hargs : V.SameExprs n args args') :
    V.Agrees n (fun m r r' ↦ V.Same m r.1 r'.1)
      (do let ret ← fresh (name ++ "-ret")
          narrow callee.ty (.fn (args.map Expr.ty) none ret) (.operator name) line
          return (ret, (none : Option Nat)))
      (do let ret ← fresh (name ++ "-ret")
          narrow callee'.ty (.fn (args'.map Expr.ty) none ret) (.operator name) line
          return (ret, (none : Option Nat))) := by
  refine (agrees_fresh _).bind fun m ret ret' hm hret ↦ ?_
  have hsignature := same_fn (none : Option Unit) (hargs.mono hm).types hret
  refine (agrees_narrow (hcallee.mono hm) hsignature _ line).bind fun k _ _ hk _ ↦ ?_
  exact .pure fun l hl ↦ hret.mono (Nat.le_trans hk hl)

/-- The types of two calls stand for each other. -/
theorem agrees_signature (name : String) (line : Nat) {callee callee' : Expr}
    {args args' : List Expr} (hcallee : V.SameExpr n callee callee')
    (hargs : V.SameExprs n args args') :
    V.Agrees n (fun m r r' ↦ V.Same m r.1 r'.1) (signature name line callee args)
      (signature name line callee' args') := by
  refine .look fun c c' hc hn ↦ ?_
  obtain ⟨hresolve, hknows⟩ := hc.types.resolve (hcallee.knows.mono hn)
  have hlength := hargs.length_eq
  dsimp only
  rw [hcallee.eq, hresolve]
  cases he : c.types.resolve callee.ty with
  | fn params rest ret =>
    have hknown := agrees_knownCall name line (he ▸ hknows) (hargs.mono hn)
    rw [ty_fn]
    cases rest with
    | none | some =>
      dsimp only [Option.map_none, Option.map_some]
      rw [hlength, List.length_map]
      split
      · exact hknown _ _ hc (Nat.le_refl _)
      · exact Agrees.fail _ _ hc hn
  | var v =>
    have hv := TypeTable.openVar?_eq_some.mpr he
    obtain ⟨-, -, hopen⟩ := hc.types.openVar?_some (hcallee.knows.mono hn) hv
    rw [ty_var]
    dsimp only
    rw [hopen, ← hcallee.eq]
    split
    · exact agrees_firstCall name line hcallee hargs hc hn
    · exact .ok hc (Nat.le_refl _) (same_base _ _)
  | base b =>
    rw [ty_base]
    cases b with
    | any => exact .ok hc (Nat.le_refl _) (same_base _ _)
    | _ =>
      refine Agrees.bind (agrees_display (same_base n _)) ?_ hc hn
      rintro m _ _ _ rfl
      exact .fail _ _

theorem agrees_call (op : Form) {callee callee' : Expr} {args args' : List Expr}
    (hcallee : V.SameExpr n callee callee') (hargs : V.SameExprs n args args') :
    V.Agrees n V.SameExpr (call op callee args) (call op callee' args') := by
  refine (agrees_signature _ _ hcallee hargs).bind ?_
  rintro m ⟨t, spread⟩ ⟨t', spread'⟩ _ ht
  exact .pure fun k hk ↦ ht.mono hk

end

/-! ## Forms -/

/-- Whether all names that a form mentions may be looked up. -/
def Covers (V : View) (f : Form) : Prop := ∀ x ∈ f.symbols, V.names x = true

theorem covers_group {shape : Shape} {elems : List Form} {t : Token} :
    V.Covers (.group shape elems t) ↔ ∀ f ∈ elems, V.Covers f := by
  rw [Covers, Form.symbols]
  induction elems with
  | nil => simp [Form.symbolsAll]
  | cons f fs ih =>
    rw [Form.symbolsAll, List.forall_mem_append, List.forall_mem_cons, ih]
    exact Iff.rfl

section

variable {n : Nat} {p q : Check Expr} {ps qs : Check (List Expr)}

theorem agrees_nil : V.Agrees n V.SameExprs (pure []) (pure []) := .pure fun _ _ ↦ .nil

theorem agrees_cons (hp : V.Agrees n V.SameExpr p q)
    (hps : ∀ m, n ≤ m → V.Agrees m V.SameExprs ps qs) :
    V.Agrees n V.SameExprs (do return (← p) :: (← ps)) (do return (← q) :: (← qs)) := by
  refine hp.bind fun m e e' hm he ↦ ?_
  refine (hps m hm).bind fun k es es' hk hes ↦ ?_
  exact .pure fun l hl ↦ .cons (he.mono (Nat.le_trans hk hl)) (hes.mono hl)

theorem agrees_sequence (shape : Shape) (t : Token) (hps : V.Agrees n V.SameExprs ps qs) :
    V.Agrees n V.SameExpr (do return Check.sequence shape (← ps) t)
      (do return Check.sequence shape (← qs) t) :=
  hps.bind fun _ _ _ _ _ ↦ .pure fun _ _ ↦ same_sequence _ _ _ _ _

end

end View

section

open View

variable {V : View}

mutual

theorem Form.checkDatum_agrees :
    ∀ f : Form, V.Covers f → ∀ {n}, V.Agrees n V.SameExpr f.checkDatum f.checkDatum
  | .atom _ _, h, _ => agrees_atom h
  | .group shape elems t, h, _ =>
    agrees_sequence shape t (checkData_agrees elems (covers_group.mp h))

theorem checkData_agrees : ∀ fs : List Form, (∀ f ∈ fs, V.Covers f) →
    ∀ {n}, V.Agrees n V.SameExprs (checkData fs) (checkData fs)
  | [], _, _ => agrees_nil
  | f :: fs, h, _ =>
    agrees_cons (f.checkDatum_agrees (List.forall_mem_cons.mp h).1) fun _ _ ↦
      checkData_agrees fs (List.forall_mem_cons.mp h).2

end

mutual

/-- A form is checked alike in two checkers that agree in what is seen of them, if that covers the
names that the form mentions. -/
theorem Form.check_agrees :
    ∀ f : Form, V.Covers f → ∀ {n}, V.Agrees n V.SameExpr f.check f.check
  | .atom _ _, h, _ => agrees_atom h
  | .group .vector elems t, h, _ =>
    agrees_sequence .vector t (checkData_agrees elems (covers_group.mp h))
  | .group .list [] t, _, _ => .pure fun _ _ ↦ same_sequence _ _ _ _ _
  | .group .list (.group .list elems t' :: args) t, h, _ => by
    obtain ⟨hop, hargs⟩ := List.forall_mem_cons.mp (covers_group.mp h)
    rw [Form.check]
    refine (Form.check_agrees (.group .list elems t') hop).bind fun m _ _ _ hcallee ↦ ?_
    refine (checkAll_agrees args hargs).bind fun k _ _ hk hes ↦ ?_
    exact agrees_call _ (hcallee.mono hk) hes
  | .group .list (.group .vector _ _ :: _) _, _, _
  | .group .list (.atom .nil _ :: _) _, _, _ | .group .list (.atom (.boolean _) _ :: _) _, _, _
  | .group .list (.atom (.number _) _ :: _) _, _, _
  | .group .list (.atom (.string _) _ :: _) _, _, _ => .fail _ _
  | .group .list (.atom (.symbol name) opToken :: args) t, h, _ => by
    obtain ⟨hop, hargs⟩ := List.forall_mem_cons.mp (covers_group.mp h)
    unfold Form.check
    dsimp only
    split
    · split
      · next datum => exact datum.checkDatum_agrees (hargs datum (List.mem_singleton_self _))
      · exact .fail _ _
    · exact checkCond_agrees opToken args hargs
    · exact checkFn_agrees opToken false args hargs
    · exact checkFn_agrees opToken true args hargs
    · exact checkLet_agrees opToken args hargs
    · refine (checkAll_agrees args hargs).bind fun m _ _ _ hes ↦ ?_
      exact .pure fun k hk ↦ same_seq opToken (hes.mono hk)
    · refine (agrees_atom hop).bind fun m _ _ _ hcallee ↦ ?_
      refine (checkAll_agrees args hargs).bind fun k _ _ hk hes ↦ ?_
      exact agrees_call _ (hcallee.mono hk) hes

theorem checkAll_agrees : ∀ fs : List Form, (∀ f ∈ fs, V.Covers f) →
    ∀ {n}, V.Agrees n V.SameExprs (checkAll fs) (checkAll fs)
  | [], _, _ => agrees_nil
  | f :: fs, h, _ =>
    agrees_cons (f.check_agrees (List.forall_mem_cons.mp h).1) fun _ _ ↦
      checkAll_agrees fs (List.forall_mem_cons.mp h).2

theorem checkCond_agrees (op : Token) : ∀ fs : List Form, (∀ f ∈ fs, V.Covers f) →
    ∀ {n}, V.Agrees n V.SameExpr (checkCond op fs) (checkCond op fs)
  | [test, yes], h, _ => by
    refine (test.check_agrees (h test (by simp))).bind fun m _ _ _ _ ↦ ?_
    refine (yes.check_agrees (h yes (by simp))).bind fun k _ _ _ hyes ↦ ?_
    exact agrees_cond hyes (same_base _ _)
  | [test, yes, no], h, _ => by
    refine (test.check_agrees (h test (by simp))).bind fun m _ _ _ _ ↦ ?_
    refine (yes.check_agrees (h yes (by simp))).bind fun k _ _ _ hyes ↦ ?_
    refine (no.check_agrees (h no (by simp))).bind fun l _ _ hl hno ↦ ?_
    exact agrees_cond (hyes.mono hl) hno
  | [], _, _ | [_], _, _ | _ :: _ :: _ :: _ :: _, _, _ => .fail _ _

theorem checkFn_agrees (op : Token) (isGlobal : Bool) : ∀ fs : List Form, (∀ f ∈ fs, V.Covers f) →
    ∀ {n}, V.Agrees n V.SameExpr (checkFn op isGlobal fs) (checkFn op isGlobal fs)
  | [name, params, body], h, _ => by
    refine (agrees_fnHead op isGlobal (some name) params).bind ?_
    rintro m head _ _ rfl
    exact agrees_fn op head fun _ ↦ body.check_agrees (h body (by simp))
  | [params, body], h, _ => by
    cases isGlobal with
    | true => exact .fail _ _
    | false =>
      refine (agrees_fnHead op false none params).bind ?_
      rintro m head _ _ rfl
      exact agrees_fn op head fun _ ↦ body.check_agrees (h body (by simp))
  | [], _, _ | [_], _, _ | _ :: _ :: _ :: _ :: _, _, _ => .fail _ _

theorem checkLet_agrees (op : Token) : ∀ fs : List Form, (∀ f ∈ fs, V.Covers f) →
    ∀ {n}, V.Agrees n V.SameExpr (checkLet op fs) (checkLet op fs)
  | [.atom _ _, _], _, _ | [.group .list _ _, _], _, _ => .fail _ _
  | [.group .vector pairs t, body], h, _ => by
    obtain ⟨hpairs, hbody⟩ := List.forall_mem_cons.mp h
    rw [checkLet]
    split
    · refine agrees_nested ((checkPairs_agrees op pairs (covers_group.mp hpairs)).bind ?_)
      intro m _ _ _ _
      refine (body.check_agrees (hbody body (by simp))).bind fun k _ _ _ he ↦ ?_
      exact .pure fun l hl ↦ he.mono hl
    · exact .fail _ _
  | [], _, _ | [_], _, _ | _ :: _ :: _ :: _, _, _ => .fail _ _

theorem checkPairs_agrees (op : Token) : ∀ fs : List Form, (∀ f ∈ fs, V.Covers f) →
    ∀ {n}, V.Agrees n Anything (checkPairs op fs) (checkPairs op fs)
  | [], _, _ => .pure fun _ _ ↦ trivial
  | [_], _, _ => .fail _ _
  | name :: value :: rest, h, _ => by
    rw [checkPairs]
    split
    · exact .fail _ _
    · next x _ =>
      refine (value.check_agrees (h value (by simp))).bind fun m _ _ _ he ↦ ?_
      refine (agrees_define x he).bind fun k _ _ _ _ ↦ ?_
      refine (checkPairs_agrees op rest fun f hf ↦ h f (by simp [hf])).bind fun l _ _ _ _ ↦ ?_
      exact .pure fun _ _ ↦ trivial

end

end

end TaggedLisp
