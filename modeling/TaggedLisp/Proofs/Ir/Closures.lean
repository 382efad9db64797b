import TaggedLisp.Proofs.Captures
import TaggedLisp.Proofs.Ir.Resolution
import TaggedLisp.Proofs.Session

/-!
# Closures that are known by a label

The closure of a function that captures nothing stands under a label, once and for all. Any other
closure is made anew whenever its function is. So a tree that takes the address of a closure has to
mean a builtin function, or a function of the program without captures. `addresses_resolved` says
that this is so, but for functions that refer to themselves.

In its own body, a function is known by its label whether it captures variables or not. The body of
a function with captures takes an address under which there is no closure.

Which names are global is known from `Resolved`: global functions capture nothing, and the other
ones are known by name only inside themselves.
-/

namespace TaggedLisp.Ir

/-! ## Mentions of functions -/

/-- What a tree says of a function. -/
inductive Mention where
  /-- The address of a label is taken, in the bodies of the functions `around`. -/
  | address (around : List String) (label : String)
  /-- A function with this label is made, with places for the captured variables. -/
  | function (label : String) (cells : List Cell)

mutual

/-- What a tree in the bodies of the functions `around` says of functions. -/
def Tree.mentions (around : List String) : Tree → List Mention
  | .const (.label l) => [.address around l]
  | .const _ | .temp _ => []
  | .tag _ e | .untag e => e.mentions around
  | .call callee args => callee.mentions around ++ mentionsOfTrees around args
  | .func head captures body => .function head.label (captures.map Prod.fst) ::
      (mentionsOfSources around captures ++ body.mentions (head.label :: around))
  | .after effect e => effect.mentions around ++ e.mentions around

def mentionsOfTrees (around : List String) : List Tree → List Mention
  | [] => []
  | e :: es => e.mentions around ++ mentionsOfTrees around es

def mentionsOfSources (around : List String) : List (Cell × Tree) → List Mention
  | [] => []
  | (_, e) :: cs => e.mentions around ++ mentionsOfSources around cs

def Effect.mentions (around : List String) : Effect → List Mention
  | .move _ e | .branch e _ | .eval e => e.mentions around
  | .seq effects => mentionsOfEffects around effects
  | .jump _ | .phi _ _ | .label _ => []

def mentionsOfEffects (around : List String) : List Effect → List Mention
  | [] => []
  | s :: ss => s.mentions around ++ mentionsOfEffects around ss

end

/-- An address that is taken is `known`, or it is the one of a function around. -/
def Mention.Resolved (known : String → Prop) : Mention → Prop
  | address around l => known l ∨ ∃ f ∈ around, l = f ++ "_closure"
  | function _ _ => True

/-- The closure of a function without captures is `known`. -/
def Mention.Declared (known : String → Prop) : Mention → Prop
  | address _ _ => True
  | function f cells => cells = [] → known (f ++ "_closure")

/-! ## Parts of constructs -/

/-- The whole says what its parts say, and takes the addresses of routines besides. -/
structure Covers (around : List String) (whole parts : List Mention) : Prop where
  subset : parts ⊆ whole
  rest : ∀ m ∈ whole, m ∈ parts ∨ ∃ shape : Shape, m = .address around shape.routine.name

section

variable {known : String → Prop} {around : List String} {whole parts whole' parts' : List Mention}
  {ts : List Tree}

namespace Covers

theorem refl (parts : List Mention) : Covers around parts parts :=
  ⟨List.Subset.refl parts, fun _ hm ↦ .inl hm⟩

theorem append (h : Covers around whole parts) (h' : Covers around whole' parts') :
    Covers around (whole ++ whole') (parts ++ parts') := by
  constructor
  · exact List.append_subset.mpr ⟨List.subset_append_of_subset_left _ h.subset,
      List.subset_append_of_subset_right _ h'.subset⟩
  · intro m hm
    rcases List.mem_append.mp hm with hm | hm
    · exact (h.rest m hm).imp_left (List.mem_append_left _)
    · exact (h'.rest m hm).imp_left (List.mem_append_right _)

theorem declared (h : Covers around whole parts) (hwhole : ∀ m ∈ whole, m.Declared known) :
    ∀ m ∈ parts, m.Declared known := fun m hm ↦ hwhole m (h.subset hm)

theorem resolved (h : Covers around whole parts)
    (hroutine : ∀ shape : Shape, known shape.routine.name)
    (hparts : ∀ m ∈ parts, m.Resolved known) : ∀ m ∈ whole, m.Resolved known := by
  intro m hm
  rcases h.rest m hm with hm | ⟨shape, rfl⟩
  · exact hparts m hm
  · exact .inl (hroutine shape)

end Covers

@[simp] theorem mentionsOfTrees_append (ts ts' : List Tree) :
    mentionsOfTrees around (ts ++ ts')
      = mentionsOfTrees around ts ++ mentionsOfTrees around ts' := by
  induction ts with
  | nil => rfl
  | cons t ts ih => rw [List.cons_append, mentionsOfTrees, mentionsOfTrees, ih, List.append_assoc]

theorem covers_sequence (shape : Shape) (ts : List Tree) :
    Covers around ((Lower.sequence shape ts).mentions around) (mentionsOfTrees around ts) := by
  cases ts with
  | nil => exact .refl []
  | cons t ts =>
    refine ⟨List.subset_cons_self _ _, fun m hm ↦ ?_⟩
    rcases List.mem_cons.mp hm with rfl | hm
    · exact .inr ⟨shape, rfl⟩
    · exact .inl hm

theorem covers_cond (j : Lower.Join) (test yes no : Tree) :
    Covers around ((Lower.cond j test yes no).mentions around)
      (mentionsOfTrees around [test, yes, no]) := by
  constructor
  · intro m hm
    simp only [mentionsOfTrees, Lower.cond, Tree.mentions, Effect.mentions, mentionsOfEffects,
      List.mem_append, List.not_mem_nil, or_false, false_or] at hm ⊢
    tauto
  · intro m hm
    simp only [mentionsOfTrees, Lower.cond, Tree.mentions, Effect.mentions, mentionsOfEffects,
      List.mem_append, List.not_mem_nil, or_false, false_or] at hm ⊢
    tauto

theorem mentions_steps (ts : List Tree) :
    (Lower.steps ts).mentions around = mentionsOfTrees around ts := by
  cases ts with
  | nil => rfl
  | cons t ts =>
    rw [Lower.steps, Tree.mentions, Effect.mentions]
    induction ts generalizing t with
    | nil => exact (List.append_nil _).symm
    | cons t' ts ih =>
      rw [List.dropLast_cons_cons, List.getLast_cons_cons, List.map_cons, mentionsOfEffects,
        Effect.mentions, List.append_assoc, ih]
      rfl

theorem covers_call (spread : Option Nat) (callee : Tree) (ts : List Tree) :
    Covers around ((Lower.call spread callee ts).mentions around)
      (mentionsOfTrees around (callee :: ts)) := by
  cases spread with
  | none => exact .refl _
  | some n =>
    have hsplit : mentionsOfTrees around ts
        = mentionsOfTrees around (ts.take n) ++ mentionsOfTrees around (ts.drop n) := by
      rw [← mentionsOfTrees_append, List.take_append_drop]
    have hlast : Covers around (mentionsOfTrees around [Lower.sequence .list (ts.drop n)])
        (mentionsOfTrees around (ts.drop n)) := by
      rw [mentionsOfTrees, mentionsOfTrees, List.append_nil]
      exact covers_sequence .list _
    have hargs := (Covers.refl (mentionsOfTrees around (ts.take n))).append hlast
    rw [← mentionsOfTrees_append, ← hsplit] at hargs
    exact (Covers.refl (callee.mentions around)).append hargs

end

/-! ## What names stand for -/

/-- A name stands for a temporary, or for a closure whose address can be taken. -/
def AtHand (known : String → Prop) (around : List String) (t : Tree) : Prop :=
  (∃ x, t = .temp x) ∨ ∃ l, t = .closure l ∧ (Mention.address around l.render).Resolved known

section

variable {known : String → Prop} {around : List String} {s : Scopes Binding} {fs : List Captured}
  {t : Tree}

theorem AtHand.mentions (h : AtHand known around t) :
    ∀ m ∈ t.mentions around, m.Resolved known := by
  rcases h with ⟨x, rfl⟩ | ⟨l, rfl, hl⟩
  · exact List.forall_mem_nil _
  · exact List.forall_mem_singleton.mpr hl

theorem mentionsOfSources_resolved {cs : List (Cell × Tree)}
    (h : ∀ c ∈ cs, AtHand known around c.2) :
    ∀ m ∈ mentionsOfSources around cs, m.Resolved known := by
  induction cs with
  | nil => exact List.forall_mem_nil _
  | cons c cs ih =>
    obtain ⟨hc, hcs⟩ := List.forall_mem_cons.mp h
    exact List.forall_mem_append.mpr ⟨hc.mentions, ih hcs⟩

theorem AtHand.inside (h : AtHand known around t) (f : String) : AtHand known (f :: around) t :=
  h.imp_right fun ⟨l, ht, hl⟩ ↦
    ⟨l, ht, hl.imp_right fun ⟨f', hf', heq⟩ ↦ ⟨f', List.mem_cons_of_mem f hf', heq⟩⟩

theorem Through.atHand {x : String} {operand : Tree} {between : List Captured}
    (h : Through x operand between t) (hoperand : AtHand known around operand) :
    AtHand known around t := by
  cases h with
  | here => exact hoperand
  | slot => exact .inl ⟨_, rfl⟩

theorem StandsFor.atHand {x : String} {β : Binding} {scope : ScopeId}
    (h : StandsFor s fs x β scope t) (hs : s.All fun β ↦ AtHand known around β.operand) :
    AtHand known around t := by
  cases h with
  | global hx _ => exact hs.of_lookupWithScope hx
  | «local» hx _ _ ht => exact ht.atHand (hs.of_lookupWithScope hx)

/-- Where no construct is open, nothing can be captured. -/
theorem StandsFor.isGlobal {x : String} {β : Binding} {scope : ScopeId}
    (h : StandsFor s fs x β scope t) (hs : s.WellFormed) (hglobal : s.isGlobal = true) :
    scope = ScopeId.global := by
  have hlocal := hs.isLocal_of_isGlobal hglobal x
  cases h with
  | global _ hscope => exact hscope
  | «local» hx hscope _ _ =>
    rw [Scopes.isLocal, hx] at hlocal
    simpa using hlocal

end

/-! ## Lowered expressions -/

/-- What is said of functions in the trees of a lowering. -/
def Lowering.mentions (around : List String) : Lowering → List Mention
  | .expr _ t | .function _ _ _ _ t => t.mentions around
  | .exprs _ ts => mentionsOfTrees around ts
  | .bindings _ ms _ => mentionsOfEffects around ms

/-- The names that a lowering leaves bound in the frame. -/
def Lowering.bound : Lowering → List (String × Binding)
  | .bindings _ _ vs => vs
  | .expr _ _ | .exprs _ _ | .function _ _ _ _ _ => []

theorem Resolved.exists_func {s : Scopes Binding} {fs : List Captured} {h : FnHead} {body : Expr}
    {n : Note} {id : Nat} {t : Tree} {ds : List (String × Binding)}
    (hfunction : Resolved s fs (.function h body n id t) ds) : ∃ cs temps t',
      t = .tag .closure (.func ⟨(Label.code h.name id).render, temps, h.rest.isSome⟩ cs t') ∧
      ∀ c ∈ cs, ∃ β scope, scope ≠ ScopeId.global ∧ StandsFor s fs c.1.name β scope c.2 := by
  cases hfunction with
  | function _ _ _ _ hsources _ => exact ⟨_, _, _, rfl, hsources⟩

/-- Where the closures of all functions without captures are known, the address of another one is
taken in its own body only. -/
theorem Resolved.mentions {known : String → Prop} {around : List String} {s : Scopes Binding}
    {fs : List Captured} {L : Lowering} {ds : List (String × Binding)} (h : Resolved s fs L ds)
    (hroutine : ∀ shape : Shape, known shape.routine.name) (hs : s.WellFormed)
    (hall : s.All fun β ↦ AtHand known around β.operand)
    (hdeclared : ∀ m ∈ L.mentions around, m.Declared known) :
    (∀ m ∈ L.mentions around, m.Resolved known) ∧
      ∀ d ∈ ds ++ L.bound, AtHand known around d.2.operand := by
  induction h generalizing around with
  | @literal _ _ v n =>
    refine ⟨?_, List.forall_mem_nil _⟩
    rw [Lowering.mentions]
    cases v <;> exact List.forall_mem_nil _
  | symbol h => exact ⟨(h.atHand hall).mentions, List.forall_mem_nil _⟩
  | group _ ih =>
    obtain ⟨hmentions, hbound⟩ := ih hs hall ((covers_sequence _ _).declared hdeclared)
    exact ⟨(covers_sequence _ _).resolved hroutine hmentions, hbound⟩
  | cond _ ih =>
    obtain ⟨hmentions, hbound⟩ := ih hs hall ((covers_cond _ _ _ _).declared hdeclared)
    exact ⟨(covers_cond _ _ _ _).resolved hroutine hmentions, hbound⟩
  | letIn _ _ ihbindings ihbody =>
    obtain ⟨hms, hbody⟩ := List.forall_mem_append.mp hdeclared
    obtain ⟨hmentions, hbound⟩ := ihbindings hs.enter hall.enter hms
    obtain ⟨hmentions', -⟩ := ihbody (hs.enter.defineAll _) (hall.enter.defineAll hbound) hbody
    exact ⟨List.forall_mem_append.mpr ⟨hmentions, hmentions'⟩, List.forall_mem_nil _⟩
  | fn _ _ ih => exact ih hs hall hdeclared
  | @defn _ _ _ _ _ _ _ _ t _ hglobal _ hfunction ih =>
    have hmove : ∀ x, Tree.mentions around (.after (.move x t) (.temp x)) = t.mentions around :=
      fun _ ↦ List.append_nil _
    rw [Lowering.mentions, hmove] at hdeclared ⊢
    obtain ⟨hmentions, -⟩ := ih hs hall hdeclared
    refine ⟨hmentions, List.forall_mem_singleton.mpr (.inr ⟨_, rfl, .inl ?_⟩)⟩
    -- a function that is defined globally captures nothing
    obtain ⟨cs, temps, body, rfl, hsources⟩ := hfunction.exists_func
    refine hdeclared _ List.mem_cons_self (List.map_eq_nil_iff.mpr ?_)
    refine List.eq_nil_iff_forall_not_mem.mpr fun c hc ↦ ?_
    obtain ⟨β, scope, hscope, hstands⟩ := hsources c hc
    exact hscope (hstands.isGlobal hs hglobal)
  | seq _ ih =>
    rw [Lowering.mentions, mentions_steps] at hdeclared ⊢
    exact ih hs hall hdeclared
  | call _ ih =>
    obtain ⟨hmentions, hbound⟩ := ih hs hall ((covers_call _ _ _).declared hdeclared)
    exact ⟨(covers_call _ _ _).resolved hroutine hmentions, hbound⟩
  | nil => exact ⟨List.forall_mem_nil _, List.forall_mem_nil _⟩
  | cons _ _ ihe ihes =>
    obtain ⟨he, hes⟩ := List.forall_mem_append.mp hdeclared
    obtain ⟨hmentions, hds⟩ := ihe hs hall he
    rw [Lowering.bound, List.append_nil] at hds
    obtain ⟨hmentions', hds'⟩ := ihes (hs.defineGlobals _ _) (hall.defineGlobals hds) hes
    refine ⟨List.forall_mem_append.mpr ⟨hmentions, hmentions'⟩, ?_⟩
    rw [List.append_assoc]
    exact List.forall_mem_append.mpr ⟨hds, hds'⟩
  | bound => exact ⟨List.forall_mem_nil _, List.forall_mem_nil _⟩
  | bind _ _ _ ihvalue ihrest =>
    obtain ⟨hvalue, hrest⟩ := List.forall_mem_append.mp hdeclared
    obtain ⟨hmentions, -⟩ := ihvalue hs hall hvalue
    obtain ⟨hmentions', hbound⟩ := ihrest (hs.define _ _) (hall.defineIn _ _ (.inl ⟨_, rfl⟩)) hrest
    exact ⟨List.forall_mem_append.mpr ⟨hmentions, hmentions'⟩,
      List.forall_mem_cons.mpr ⟨.inl ⟨_, rfl⟩, hbound⟩⟩
  | @function s fs h body n id cs temps t params ret _ _ _ _ hsources _ ih =>
    obtain ⟨-, hrest⟩ := List.forall_mem_cons.mp hdeclared
    obtain ⟨-, hinside⟩ := List.forall_mem_append.mp hrest
    have hown : ∀ b ∈ ownBindings h params ret (ownOperands h id temps) (cs :: fs),
        AtHand known ((Label.code h.name id).render :: around) b.2.operand := by
      intro b hb
      obtain ⟨p, hp, rfl⟩ := List.mem_map.mp hb
      rcases List.mem_append.mp (List.of_mem_zip hp).2 with ht | hself
      · obtain ⟨x, -, hx⟩ := List.mem_map.mp ht
        exact .inl ⟨x, hx.symm⟩
      · obtain ⟨-, -, hself⟩ := List.mem_map.mp hself
        exact .inr ⟨_, hself.symm, .inr ⟨_, List.mem_cons_self, rfl⟩⟩
    have hall' :=
      (hall.enter.mono fun _ hβ ↦ hβ.inside (Label.code h.name id).render).defineAll hown
    obtain ⟨hmentions, -⟩ := ih (hs.enter.defineAll _) hall' hinside
    have hcaptured := mentionsOfSources_resolved fun c hc ↦
      (hsources c hc).elim fun β h ↦ h.elim fun scope h ↦ h.2.atHand hall
    exact ⟨List.forall_mem_cons.mpr ⟨trivial, List.forall_mem_append.mpr ⟨hcaptured, hmentions⟩⟩,
      List.forall_mem_nil _⟩

/-! ## Programs -/

/-- **Addresses of closures.** In what a checked program is lowered to, the address of a label is
taken only of a routine of the runtime, of the closure of a builtin function or of a function of the
program without captures, or of a function in whose body this is. -/
theorem addresses_resolved {forms : List Form} {es : List Expr} {types : TypeTable}
    (h : checkProgram forms = .ok (es, types)) (s : Session) :
    ∃ trees s', (Session.lower es).outcome s = (.ok trees, s') ∧
      ∀ around l, .address around l ∈ mentionsOfTrees [] trees →
        (∃ shape : Shape, l = shape.routine.name) ∨
        (∃ b ∈ builtins, l = (Label.builtin b.symbol).render) ∨
        (∃ f, .function f [] ∈ mentionsOfTrees [] trees ∧ l = f ++ "_closure") ∨
        ∃ f ∈ around, l = f ++ "_closure" := by
  obtain ⟨trees, l, ds, hlower, hresolved⟩ := checkProgram_lowers h s.next
  have houtcome : (Session.lower es).outcome s = (.ok trees, { s with next := l.next }) := by
    rw [Session.outcome_lower, hlower]
  let known (l : String) : Prop := (∃ shape : Shape, l = shape.routine.name) ∨
    (∃ b ∈ builtins, l = (Label.builtin b.symbol).render) ∨
    ∃ f, .function f [] ∈ mentionsOfTrees [] trees ∧ l = f ++ "_closure"
  have hwellFormed : startScopes.WellFormed := Scopes.wellFormed_empty.defineGlobals _ _
  have hall : startScopes.All fun β ↦ AtHand known [] β.operand := by
    refine Scopes.All.empty.defineGlobals fun d hd ↦ ?_
    obtain ⟨b, hb, rfl⟩ := List.mem_map.mp hd
    exact .inr ⟨_, rfl, .inl (.inr (.inl ⟨b, hb, rfl⟩))⟩
  have hdeclared : ∀ m ∈ mentionsOfTrees [] trees, m.Declared known := by
    rintro (⟨around, l⟩ | ⟨f, cells⟩) hm
    · trivial
    · rintro rfl
      exact .inr (.inr ⟨f, hm, rfl⟩)
  obtain ⟨hmentions, -⟩ :=
    hresolved.mentions (fun shape ↦ .inl ⟨shape, rfl⟩) hwellFormed hall hdeclared
  refine ⟨trees, _, houtcome, fun around l hl ↦ ?_⟩
  rcases hmentions _ hl with (hroutine | hbuiltin | hfunction) | hself
  · exact .inl hroutine
  · exact .inr (.inl hbuiltin)
  · exact .inr (.inr (.inl hfunction))
  · exact .inr (.inr (.inr hself))

/-- The program `(let [y 2] (fn f [x] (f y)))`. -/
def selfForm : Form :=
  let symbol (name : String) : Form := .atom (.symbol name) ⟨.symbol, name, 1⟩
  let list (fs : List Form) : Form := .group .list fs ⟨.opening .list, "(", 1⟩
  let vector (fs : List Form) : Form := .group .vector fs ⟨.opening .vector, "[", 1⟩
  let two : Form := .atom (.number 2) ⟨.number, "2", 1⟩
  list [symbol "let", vector [symbol "y", two],
    list [symbol "fn", symbol "f", vector [symbol "x"], list [symbol "f", symbol "y"]]]

/-- A function with captures takes its own address. -/
example : ∃ es types trees s', checkProgram [selfForm] = .ok (es, types) ∧
    (Session.lower es).outcome (.start false) = (.ok trees, s') ∧
    mentionsOfTrees [] trees =
      [.function "fn1_f" [⟨"y", ⟨2, "y"⟩⟩], .address ["fn1_f"] "fn1_f_closure"] :=
  ⟨_, _, _, _, rfl, rfl, rfl⟩

end TaggedLisp.Ir
