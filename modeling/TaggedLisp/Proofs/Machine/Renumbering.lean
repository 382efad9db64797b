import TaggedLisp.Machine.Translate
import TaggedLisp.Proofs.Expr.Induction
import TaggedLisp.Proofs.Pass
import TaggedLisp.Proofs.Scopes

/-!
# Code with other numbers

The numbers that are drawn while expressions are translated show in the labels of the code and the
data and nowhere else. So a translation that starts at a greater number does the same and ends with
the same fault if it fails, and its program differs in the numbers of the labels alone, all of them
by the distance of the starts: `translateAll_raised`.

`Raises` compares two passes of which one runs from the state that is raised by `d`. It is closed
under sequencing, and each construct has a lemma that says it of the parts that are put together.
-/

namespace TaggedLisp

/-! ## Renumbering -/

/-- The label with the number `f id` in place of `id`. Labels that are not made of a number are left
alone. -/
def Label.renumber (f : Nat → Nat) : Label → Label
  | start => start
  | routine r => routine r
  | builtin symbol => builtin symbol
  | yes id => yes (f id)
  | no id => no (f id)
  | after id => after (f id)
  | code name id => code name (f id)
  | closure name id => closure name (f id)
  | text id => text (f id)

namespace Machine

def Source.renumber (f : Nat → Nat) : Source → Source
  | label l => label (l.renumber f)
  | s => s

def Instr.renumber (f : Nat → Nat) : Instr → Instr
  | label l => label (l.renumber f)
  | mov r s => mov r (s.renumber f)
  | jmp l => jmp (l.renumber f)
  | je l => je (l.renumber f)
  | jne l => jne (l.renumber f)
  | call l => call (l.renumber f)
  | i => i

def Datum.renumber (f : Nat → Nat) : Datum → Datum
  | text l s => text (l.renumber f) s
  | closure l code => closure (l.renumber f) (code.renumber f)

/-- The program with the number `f id` in place of `id` in each of its labels. -/
def Program.renumber (f : Nat → Nat) (p : Program) : Program :=
  ⟨p.code.map (Instr.renumber f), p.data.map (Datum.renumber f)⟩

def Place.renumber (f : Nat → Nat) : Place → Place
  | static l => static (l.renumber f)
  | p => p

end Machine

open Machine

section

variable {f g : Nat → Nat}

open Function (LeftInverse)

/-- What renumbering did is undone by going back from the new numbers to the old ones. -/
theorem Label.renumber_leftInverse (h : LeftInverse g f) :
    LeftInverse (renumber g) (renumber f) := by
  intro l
  cases l <;> simp [renumber, h _]

theorem Machine.Instr.renumber_leftInverse (h : LeftInverse g f) :
    LeftInverse (renumber g) (renumber f) := by
  have hlabel := Label.renumber_leftInverse h
  intro i
  cases i with
  | mov r s => cases s <;> simp [renumber, Source.renumber, hlabel _]
  | _ => simp [renumber, hlabel _]

theorem Machine.Datum.renumber_leftInverse (h : LeftInverse g f) :
    LeftInverse (renumber g) (renumber f) := by
  have hlabel := Label.renumber_leftInverse h
  intro d
  cases d <;> simp [renumber, hlabel _]

theorem Machine.Program.renumber_leftInverse (h : LeftInverse g f) :
    LeftInverse (renumber g) (renumber f) := by
  have hcode := List.map_leftInverse_iff.mpr (Instr.renumber_leftInverse h)
  have hdata := List.map_leftInverse_iff.mpr (Datum.renumber_leftInverse h)
  intro p
  rw [renumber, renumber, hcode p.code, hdata p.data]

theorem Machine.Place.load_renumber (p : Place) :
    (p.renumber f).load = p.load.map (Instr.renumber f) := by
  cases p with
  | param i =>
    simp only [renumber, load]
    split <;> rfl
  | _ => rfl

end

/-! ## Raised states -/

namespace Machine

/-- The translator in which all numbers, those in labels and the next one, are greater by `d`. -/
def Translator.raised (d : Nat) (t : Translator) : Translator where
  next := t.next + d
  scopes := t.scopes.map (Place.renumber (· + d))
  activation := t.activation
  code := t.code.map (Instr.renumber (· + d))
  data := t.data.map (Datum.renumber (· + d))

/-- The closures of the builtin functions are not numbered. -/
theorem Translator.raised_start (d n : Nat) : (start n).raised d = start (n + d) := by
  simp only [raised, start, Array.map_empty]
  rfl

theorem Translator.program_raised (d : Nat) (t : Translator) :
    (t.raised d).program = t.program.renumber (· + d) := by
  simp [raised, program, Program.renumber]

namespace Translate

variable {α α' β β' : Type}

/-- The pass `q` does from a state raised by `d` what `p` does from the state itself: it ends in the
raised state, and with the same fault or with `f` of the result. -/
def Raises (d : Nat) (f : α → α') (p : Translate α) (q : Translate α') : Prop :=
  ∀ t, q.outcome (t.raised d) = ((p.outcome t).1.map f, (p.outcome t).2.raised d)

/-- The pass does the same from any state and from that raised by `d`. -/
abbrev Uniform (d : Nat) (p : Translate Unit) : Prop := Raises d id p p

variable {d : Nat} {f : α → α'} {g : β → β'} {p : Translate α} {q : Translate α'}
  {k : α → Translate β} {k' : α' → Translate β'} {body test yes no callee : Translate Unit}
  {parts : List (Translate Unit)}

theorem Raises.pure (f : α → α') (a : α) : Raises d f (Pure.pure a) (Pure.pure (f a)) := fun _ ↦ rfl

theorem Raises.bind (hp : Raises d f p q) (hk : ∀ a, Raises d g (k a) (k' (f a))) :
    Raises d g (p >>= k) (q >>= k') := by
  intro t
  rw [Pass.outcome_bind, Pass.outcome_bind, hp t]
  rcases p.outcome t with ⟨_ | a, t'⟩
  · rfl
  · exact hk a t'

theorem Raises.andThen {p q : Translate Unit} {k : Translate β} {k' : Translate β'}
    (hp : Raises d id p q) (hk : Raises d g k k') :
    Raises d g (p >>= fun _ ↦ k) (q >>= fun _ ↦ k') :=
  hp.bind fun _ ↦ hk

theorem Raises.between {enter enter' : Translator → Translator}
    {leave : Translator → Translator → Translator} (hp : Raises d f p q)
    (henter : ∀ t, enter' (t.raised d) = (enter t).raised d)
    (hleave : ∀ t t', leave (t.raised d) (t'.raised d) = (leave t t').raised d) :
    Raises d f (Pass.between enter leave p) (Pass.between enter' leave q) := by
  intro t
  rw [Pass.outcome_between, Pass.outcome_between, henter, hp, hleave]

/-! ## Writing and counting -/

theorem raises_get : Raises d (Translator.raised d) get get := fun _ ↦ rfl

theorem raises_draw : Raises d (· + d) draw draw := by
  intro t
  simp only [draw, Pass.outcome_modifyGet, Translator.raised, Nat.add_right_comm t.next 1 d]
  rfl

theorem raises_emit (i : Instr) : Raises d id (emit i) (emit (i.renumber (· + d))) := by
  intro t
  simp only [emit, Pass.outcome_modify, Translator.raised, Array.map_push]
  rfl

theorem raises_emitAll (is : List Instr) :
    Raises d id (emitAll is) (emitAll (is.map (Instr.renumber (· + d)))) := by
  induction is with
  | nil => exact .pure id ()
  | cons i is ih => exact .andThen (raises_emit i) ih

theorem raises_emitData (x : Datum) :
    Raises d id (emitData x) (emitData (x.renumber (· + d))) := by
  intro t
  simp only [emitData, Pass.outcome_modify, Translator.raised, Array.map_push]
  rfl

theorem raises_depth : Raises d id depth depth := fun _ ↦ rfl

theorem uniform_setDepth (f : Nat → Nat) : Uniform d (setDepth f) := fun _ ↦ rfl

theorem uniform_push (r : Reg) : Uniform d (push r) :=
  .andThen (raises_emit (.push r)) (uniform_setDepth _)

theorem uniform_pop (r : Reg) : Uniform d (pop r) :=
  .andThen (raises_emit (.pop r)) (uniform_setDepth _)

theorem uniform_reserve (words : Nat) : Uniform d (reserve words) := by
  rw [reserve]
  split
  · exact .andThen (raises_emit (.sub .rsp _)) (uniform_setDepth _)
  · exact .pure id ()

theorem uniform_release (words : Nat) : Uniform d (release words) := by
  rw [release]
  split
  · exact .andThen (raises_emit (.add .rsp _)) (uniform_setDepth _)
  · exact .pure id ()

theorem uniform_pushAll (rs : List Reg) : Uniform d (pushAll rs) := by
  induction rs with
  | nil => exact .pure id ()
  | cons r rs ih => exact .andThen (uniform_push r) ih

theorem uniform_popAll (rs : List Reg) : Uniform d (popAll rs) := by
  induction rs with
  | nil => exact .pure id ()
  | cons r rs ih => exact .andThen (uniform_pop r) ih

/-! ## Variables -/

theorem raises_define (name : String) (place : Place) :
    Raises d id (define name place) (define name (place.renumber (· + d))) := by
  intro t
  simp only [define, Pass.outcome_modify, Translator.raised, Scopes.map_define]
  rfl

theorem raises_defineGlobal (name : String) (place : Place) :
    Raises d id (defineGlobal name place) (defineGlobal name (place.renumber (· + d))) := by
  intro t
  simp only [defineGlobal, Pass.outcome_modify, Translator.raised, Scopes.map_defineGlobal]
  rfl

theorem raises_resolve (name : String) (line : Nat) :
    Raises d (Place.renumber (· + d)) (resolve name line) (resolve name line) := by
  refine .bind raises_get fun t ↦ ?_
  have hlookup : (t.raised d).scopes.lookup name
      = (t.scopes.lookup name).map (Place.renumber (· + d)) := by
    simp only [Translator.raised, Scopes.lookup, Scopes.lookupWithScope_map, Option.map_map]
    rfl
  rw [hlookup]
  cases t.scopes.lookup name with
  | none => exact fun _ ↦ rfl
  | some place => exact .pure _ place

theorem raises_load (place : Place) :
    Raises d id (emitAll place.load) (emitAll (place.renumber (· + d)).load) := by
  rw [Place.load_renumber]
  exact raises_emitAll place.load

theorem uniform_symbol (name : String) (line : Nat) :
    Uniform d (resolve name line >>= fun place ↦ emitAll place.load) :=
  .bind (raises_resolve name line) raises_load

/-! ## Parts of constructs -/

theorem uniform_literal (v : Literal) : Uniform d (literal v) := by
  cases v with
  | nil => exact raises_emit (.clear .rax)
  | boolean b => exact raises_emit (.mov .rax (.const _))
  | number n => exact raises_emit (.mov .rax (.const _))
  | string s =>
    exact .bind raises_draw fun id ↦ .andThen (raises_emitData (.text (.text id) s)) <|
      raises_emitAll [.mov .rax (.label (.text id)), .or .rax _]

theorem uniform_fill (hparts : ∀ p ∈ parts, Uniform d p) (slot : Nat) :
    Uniform d (fill slot parts) := by
  induction parts generalizing slot with
  | nil => exact .pure id ()
  | cons p parts ih =>
    obtain ⟨hp, hparts⟩ := List.forall_mem_cons.mp hparts
    exact .andThen hp <| .andThen (raises_emit (.store (slotAddress slot) .rax)) <|
      ih hparts (slot - 1)

theorem uniform_sequence (shape : Shape) (hparts : ∀ p ∈ parts, Uniform d p) :
    Uniform d (sequence shape parts) := by
  rw [sequence]
  split
  · exact raises_emit (.mov .rax (.const _))
  · refine .andThen (uniform_reserve _) <| .bind raises_depth fun base ↦
      .andThen (uniform_fill hparts base) <| .bind raises_get fun t ↦
      .andThen (uniform_pushAll _) <| .andThen ?_ <| .andThen (uniform_popAll _) <|
      uniform_release _
    exact raises_emitAll [.mov .rdi (.const parts.length), .lea .rsi (slotAddress base),
      .call (.routine shape.routine)]

theorem uniform_cond (htest : Uniform d test) (hyes : Uniform d yes) (hno : Uniform d no) :
    Uniform d (cond test yes no) :=
  .bind raises_draw fun id ↦ .andThen htest <|
    .andThen (raises_emitAll [.cmp .rax trueWord.toInt, .je (.yes id)]) <| .andThen hno <|
    .andThen (raises_emitAll [.jmp (.after id), .label (.yes id)]) <| .andThen hyes <|
    raises_emit (.label (.after id))

theorem uniform_passArgs (base : Nat) (hparts : ∀ p ∈ parts, Uniform d p) (i : Nat) :
    Uniform d (passArgs base i parts) := by
  induction parts generalizing i with
  | nil => exact .pure id ()
  | cons p parts ih =>
    obtain ⟨hp, hparts⟩ := List.forall_mem_cons.mp hparts
    refine .andThen hp ?_
    split
    · exact .andThen (uniform_push .rax) (ih hparts (i + 1))
    · exact .andThen (raises_emit (.store _ .rax)) (ih hparts (i + 1))

theorem uniform_passed (spread : Option Nat) (hparts : ∀ p ∈ parts, Uniform d p) :
    ∀ p ∈ passed spread parts, Uniform d p := by
  cases spread with
  | none => exact hparts
  | some n =>
    refine List.forall_mem_append.mpr ⟨fun p hp ↦ hparts p (List.mem_of_mem_take hp), ?_⟩
    exact List.forall_mem_singleton.mpr
      (uniform_sequence .list fun p hp ↦ hparts p (List.mem_of_mem_drop hp))

theorem uniform_call (spread : Option Nat) (hcallee : Uniform d callee)
    (hparts : ∀ p ∈ parts, Uniform d p) : Uniform d (call spread callee parts) := by
  refine .bind raises_get fun t ↦ .andThen (uniform_pushAll _) <|
    .andThen (uniform_reserve _) <| .bind raises_depth fun base ↦
    .andThen (uniform_passArgs base (uniform_passed spread hparts) 0) <| .andThen hcallee <|
    .andThen ?_ <| .andThen (uniform_popAll _) <| .andThen ?_ <|
    .andThen (uniform_release _) <| uniform_popAll _
  · exact raises_emitAll [.mov .r11 (.reg .rax), .and .r11 _, .cmp .r11 _, .jne (.routine .error),
      .mov .rdi (.reg .rax)]
  · exact raises_emitAll [.mov .rax (.reg .rdi), .and .rax _, .callThrough .rax]

/-! ## Functions -/

theorem raises_places (line : Nat) (names : List String) :
    Raises d (List.map (Place.renumber (· + d))) (places line names) (places line names) := by
  induction names with
  | nil => exact .pure _ []
  | cons name names ih =>
    exact .bind (raises_resolve name line) fun place ↦ .bind ih fun ps ↦ .pure _ (place :: ps)

/-- What the body of a function sees is raised with the number of the function. -/
theorem bodyPlaces_raised (h : FnHead) (captures : Captures) (id : Nat) :
    bodyPlaces h captures (id + d)
      = (bodyPlaces h captures id).map fun b ↦ (b.1, b.2.renumber (· + d)) := by
  simp only [bodyPlaces, List.map_append, List.mapIdx_eq_zipIdx_map, List.map_map]
  split <;> rfl

theorem raises_isolated (h : FnHead) (captures : Captures) (n : Nat) (hbody : Uniform d body) :
    Raises d id (isolated h captures n body) (isolated h captures (n + d) body) := by
  refine .between hbody (fun t ↦ ?_) fun t t' ↦ ?_
  · have hscopes := Scopes.map_defineAll (Place.renumber (· + d))
      (t.scopes.enterFrom ScopeId.global) (bodyPlaces h captures n)
    rw [Scopes.map_enterFrom, ← bodyPlaces_raised] at hscopes
    exact congrArg (fun scopes ↦ { t.raised d with
      activation := ⟨true, h.allParams.length, 0⟩, scopes := scopes }) hscopes.symm
  · simp only [Translator.raised, Scopes.map_exit]
    rfl

theorem raises_capture (offset : Nat) (ps : List Place) :
    Raises d id (capture offset ps)
      (capture offset (ps.map (Place.renumber (· + d)))) := by
  induction ps generalizing offset with
  | nil => exact .pure _ ()
  | cons p ps ih =>
    refine .andThen (raises_load p) <| .andThen ?_ <| ih (offset + 8)
    exact raises_emitAll [.mov .r11 (.memory ⟨.rsp, 0⟩), .store ⟨.r11, offset⟩ .rax]

theorem raises_allocate (code : Label) (sources : List Place) :
    Raises d id (allocate code sources)
      (allocate (code.renumber (· + d)) (sources.map (Place.renumber (· + d)))) := by
  refine .bind raises_get fun t ↦ .andThen (uniform_pushAll _) <| .andThen ?_ <|
    .andThen (uniform_popAll _) <| .andThen ?_ <| .andThen (uniform_push .rax) <|
    .andThen (raises_capture 8 sources) <| .andThen (uniform_pop .rax) <|
    raises_emit (.or .rax _)
  · rw [List.length_map]
    exact raises_emitAll [.mov .rax (.const _), .call (.routine .allocate)]
  · exact raises_emitAll [.mov .r11 (.label code), .store ⟨.rax, 0⟩ .r11]

theorem uniform_fn {h : FnHead} {n : Note} (hbody : Uniform d body) : Uniform d (fn h n body) := by
  refine .bind raises_draw fun id ↦ .bind (raises_places _ _) fun sources ↦ .andThen ?_ <|
    .andThen (raises_isolated h n.captures id hbody) <| .andThen ?_ ?_
  · exact raises_emitAll [.jmp (.after id), .label (.code h.name id), .push .rbp,
      .mov .rbp (.reg .rsp)]
  · exact raises_emitAll [.pop .rbp, .ret, .label (.after id)]
  · rw [List.isEmpty_map]
    split
    · refine .andThen (raises_emitData (.closure (.closure h.name id) (.code h.name id))) <|
        .andThen (raises_load (.static (.closure h.name id))) ?_
      split
      · exact raises_defineGlobal _ (.static (.closure h.name id))
      · exact .pure _ ()
    · exact raises_allocate (.code h.name id) sources

theorem uniform_nested (hbody : Uniform d body) : Uniform d (nested body) := by
  refine .between hbody (fun t ↦ ?_) fun t t' ↦ ?_
  · simp only [Translator.raised, Scopes.map_enter]
  · simp only [Translator.raised, Scopes.map_exit]
    rfl

theorem uniform_bindSlot (name : String) : Uniform d (bindSlot name) :=
  .andThen (uniform_push .rax) <| .bind raises_depth fun depth ↦
    raises_define name (.slot depth)

end Translate

/-! ## Expressions and programs -/

open Translate

variable {d : Nat}

theorem uniform_translateAll {es : List Expr} (hes : ∀ e ∈ es, Uniform d e.translate) :
    Uniform d (translateAll es) := by
  induction es with
  | nil => exact .pure _ ()
  | cons e es ih =>
    obtain ⟨he, hes⟩ := List.forall_mem_cons.mp hes
    exact .andThen he (ih hes)

theorem uniform_translateEach {es : List Expr} (hes : ∀ e ∈ es, Uniform d e.translate) :
    ∀ p ∈ translateEach es, Uniform d p := by
  rw [translateEach_eq_map]
  exact List.forall_mem_map.mpr hes

theorem uniform_translateBindings {bs : List (String × Expr)}
    (hbs : ∀ b ∈ bs, Uniform d b.2.translate) : Uniform d (translateBindings bs) := by
  induction bs with
  | nil => exact .pure _ ()
  | cons b bs ih =>
    obtain ⟨hb, hbs⟩ := List.forall_mem_cons.mp hbs
    exact .andThen hb <| .andThen (uniform_bindSlot b.1) <| ih hbs

/-- An expression is translated alike from any number on. -/
theorem uniform_translate (e : Expr) : Uniform d e.translate := by
  induction e using Expr.memberInduction with
  | literal v n => exact uniform_literal v
  | symbol name n => exact uniform_symbol name _
  | group shape elems n helems => exact uniform_sequence shape (uniform_translateEach helems)
  | cond test yes no n htest hyes hno => exact uniform_cond htest hyes hno
  | letIn bindings body n hbindings hbody =>
    exact uniform_nested (.andThen (uniform_translateBindings hbindings) <|
      .andThen hbody (uniform_release _))
  | fn head body n hbody => exact uniform_fn hbody
  | seq steps n hsteps =>
    rw [Expr.translate]
    split
    · exact uniform_literal .nil
    · exact uniform_translateAll hsteps
  | call callee args spread n hcallee hargs =>
    exact uniform_call spread hcallee (uniform_translateEach hargs)

/-- **The number from which expressions are translated shows in labels only.** A translation that
starts at a number greater by `d` ends with the same fault or without one, draws as many numbers,
and writes the same program but for the labels, whose numbers are greater by `d`. -/
theorem translateAll_raised (es : List Expr) (n d : Nat) :
    (translateAll es).outcome (.start (n + d))
      = (((translateAll es).outcome (.start n)).1,
          ((translateAll es).outcome (.start n)).2.raised d) := by
  have huniform : Uniform d (translateAll es) := uniform_translateAll fun e _ ↦ uniform_translate e
  have h := huniform (.start n)
  rw [Translator.raised_start, Except.map_id] at h
  exact h

end Machine

end TaggedLisp
