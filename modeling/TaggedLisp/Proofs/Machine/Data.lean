import TaggedLisp.Proofs.Machine.Section

/-!
# Strings and closures in the data section

Code gets at an object of the data section by loading its address and setting the tag in it. The
tag of a label is known from the label alone (`Label.tag?`), and whenever a label is loaded so, its
tag is set right behind (`Tagged`). A string is written to the data section when its literal is
translated, so the texts there, the loads of texts in the code and the string literals of the
program are in one order (`Translator.Stocked`), also when functions are still being translated
around them.

A closure is written behind its function and may be loaded before that, in the body; that it is
there in the end is known from `label_integrity`. Closures of builtin functions are not written at
all: the runtime provides them.
-/

namespace TaggedLisp

/-! ## Strings -/

mutual

/-- The strings of an expression in the order of translation: the branch of a conditional that is
taken when the test is true comes last, and so does the callee of a call. -/
def Expr.strings : Expr → List String
  | .literal (.string s) _ => [s]
  | .literal .nil _ | .literal (.boolean _) _ | .literal (.number _) _ | .symbol _ _ => []
  | .group _ elems _ => stringsAll elems
  | .cond test yes no _ => test.strings ++ (no.strings ++ yes.strings)
  | .letIn bindings body _ => stringsOf bindings ++ body.strings
  | .fn _ body _ => body.strings
  | .seq steps _ => stringsAll steps
  | .call callee args _ _ => stringsAll args ++ callee.strings

def Expr.stringsAll : List Expr → List String
  | [] => []
  | e :: es => e.strings ++ stringsAll es

def Expr.stringsOf : List (String × Expr) → List String
  | [] => []
  | (_, value) :: bs => value.strings ++ stringsOf bs

end

theorem Expr.stringsAll_append (es es' : List Expr) :
    stringsAll (es ++ es') = stringsAll es ++ stringsAll es' := by
  induction es with
  | nil => rfl
  | cons e es ih => rw [List.cons_append, stringsAll, stringsAll, ih, List.append_assoc]

theorem Expr.stringsAll_passedExprs (spread : Option Nat) (args : List Expr) :
    stringsAll (passedExprs spread args) = stringsAll args := by
  cases spread with
  | none => rfl
  | some n =>
    have hsurplus : stringsAll [.group .list (args.drop n) default] = stringsAll (args.drop n) :=
      List.append_nil _
    rw [passedExprs, stringsAll_append, hsurplus, ← stringsAll_append, List.take_append_drop]

/-! ## Tags -/

/-- The tag of the object that a label stands for. -/
def Label.tag? : Label → Option Tag
  | text _ => some .string
  | closure _ _ | builtin _ => some .closure
  | start | routine _ | yes _ | no _ | after _ | code _ _ => none

namespace Machine

open Translate

variable {t t' : Translator} {ss ss' : List String} {c c' : List Instr}

/-- Whether the instruction loads no label into `rax` and stands for no object. -/
def Instr.isPlain : Instr → Bool
  | .mov .rax (.label _) => false
  | .label l => l.tag?.isNone
  | _ => true

/-- Whatever label is loaded into `rax` stands for an object, and its tag is set right behind. -/
inductive Tagged : List Instr → Prop where
  | nil : Tagged []
  | plain {i c} (hi : i.isPlain = true) (h : Tagged c) : Tagged (i :: c)
  | load {l tag c} (htag : l.tag? = some tag) (h : Tagged c) :
      Tagged (.mov .rax (.label l) :: .or .rax tag.bits.toInt :: c)

namespace Tagged

theorem append (h : Tagged c) (h' : Tagged c') : Tagged (c ++ c') := by
  induction h with
  | nil => exact h'
  | plain hi _ ih => exact .plain hi ih
  | load htag _ ih => exact .load htag ih

theorem of_plain (h : c.all Instr.isPlain = true) : Tagged c := by
  induction c with
  | nil => exact .nil
  | cons i c ih =>
    obtain ⟨hi, hc⟩ := Bool.and_eq_true_iff.mp (List.all_cons ▸ h)
    exact .plain hi (ih hc)

/-- What stands behind the load of a label. -/
theorem behind {before after : List Instr} {l : Label}
    (h : Tagged (before ++ .mov .rax (.label l) :: after)) :
    ∃ tag rest, l.tag? = some tag ∧ after = .or .rax tag.bits.toInt :: rest := by
  generalize hc : before ++ .mov .rax (.label l) :: after = c at h
  induction h generalizing before with
  | nil => simp at hc
  | @plain i c hi h ih =>
    cases before with
    | nil =>
      cases hc
      cases hi
    | cons b before => exact ih (List.cons.inj hc).2
  | @load l' tag c htag h ih =>
    cases before with
    | nil =>
      cases hc
      exact ⟨tag, c, htag, rfl⟩
    | cons b before =>
      obtain ⟨-, htail⟩ := List.cons.inj hc
      cases before with
      | nil => cases htail
      | cons b before => exact ih (List.cons.inj htail).2

/-- No label of an object stands in code. -/
theorem labels (h : Tagged c) : ∀ l ∈ Machine.labels c, l.tag? = none := by
  induction h with
  | nil => exact List.forall_mem_nil _
  | @plain i c hi h ih =>
    cases i with
    | label l => exact List.forall_mem_cons.mpr ⟨Option.isNone_iff_eq_none.mp hi, ih⟩
    | _ => exact ih
  | load htag h ih => exact ih

end Tagged

/-! ## Texts -/

/-- The text that an instruction loads. -/
def Instr.text? : Instr → Option Label
  | .mov .rax (.label (.text id)) => some (.text id)
  | _ => none

/-- The texts that are loaded, in the order of the code. -/
def loadedTexts (c : List Instr) : List Label := c.filterMap Instr.text?

/-- The label and the text of a string. -/
def Datum.text? : Datum → Option (Label × String)
  | text l s => some (l, s)
  | closure _ _ => none

/-- The texts in data, with their labels. -/
def texts (ds : List Datum) : List (Label × String) := ds.filterMap Datum.text?

theorem loadedTexts_append (c c' : List Instr) :
    loadedTexts (c ++ c') = loadedTexts c ++ loadedTexts c' := List.filterMap_append

theorem texts_append (ds ds' : List Datum) : texts (ds ++ ds') = texts ds ++ texts ds' :=
  List.filterMap_append

theorem loadedTexts_eq_nil (h : c.all Instr.isPlain = true) : loadedTexts c = [] := by
  rw [loadedTexts, List.filterMap_eq_nil_iff]
  intro i hi
  have hplain := List.all_eq_true.mp h i hi
  unfold Instr.text?
  split
  · cases hplain
  · rfl

/-- A label stands for what kind of data it says, and a closure for the function of its name and
number. -/
def Datum.IsRegular : Datum → Prop
  | text l _ => ∃ id, l = .text id
  | closure l code => ∃ name id, l = .closure name id ∧ code = .code name id

/-- A label at which a variable lives stands for a closure. -/
def Place.IsTagged (p : Place) : Prop := ∀ l, p.label? = some l → l.tag? = some .closure

/-! ## Translators -/

/-- What was written so far fits together: code tags what it loads, the texts in the data are those
that it loads, and what they say are the strings `ss`, all in one order. -/
structure Translator.Stocked (t : Translator) (ss : List String) : Prop where
  places : t.scopes.All Place.IsTagged
  tagged : Tagged t.code.toList
  data : ∀ d ∈ t.data.toList, d.IsRegular
  labels : (texts t.data.toList).map Prod.fst = loadedTexts t.code.toList
  strings : (texts t.data.toList).map Prod.snd = ss

namespace Translator.Stocked

/-- Other places are visible. -/
theorem sees (h : t.Stocked ss) {s : Scopes Place} (hs : s.All Place.IsTagged) (a : Activation) :
    Stocked { t with activation := a, scopes := s } ss :=
  ⟨hs, h.tagged, h.data, h.labels, h.strings⟩

theorem emitted (h : t.Stocked ss) (hc : Tagged c) (hload : loadedTexts c = []) (d : Nat) :
    (t.emitted c d).Stocked ss where
  places := h.places
  tagged := by
    rw [Translator.emitted, Array.toList_append]
    exact h.tagged.append hc
  data := h.data
  labels := by
    rw [Translator.emitted, Array.toList_append, loadedTexts_append, hload, List.append_nil]
    exact h.labels
  strings := h.strings

/-- A closure is written. -/
theorem closure (h : t.Stocked ss) (name : Option String) (id : Nat) :
    Stocked { t with data := t.data.push (.closure (.closure name id) (.code name id)) } ss where
  places := h.places
  tagged := h.tagged
  data := by
    rw [Array.toList_push]
    exact List.forall_mem_append.mpr ⟨h.data, List.forall_mem_singleton.mpr ⟨name, id, rfl, rfl⟩⟩
  labels := by
    rw [Array.toList_push, texts_append, List.map_append, h.labels]
    exact List.append_nil _
  strings := by
    rw [Array.toList_push, texts_append, List.map_append, h.strings]
    exact List.append_nil _

/-- A string is written and loaded. -/
theorem text (h : t.Stocked ss) (id : Nat) (s : String) (d : Nat) :
    Stocked ({ t with data := t.data.push (.text (.text id) s) }.emitted
      [.mov .rax (.label (.text id)), .or .rax Tag.string.bits.toInt] d) (ss ++ [s]) where
  places := h.places
  tagged := by
    rw [Translator.emitted, Array.toList_append]
    exact h.tagged.append (.load rfl .nil)
  data := by
    rw [Translator.emitted, Array.toList_push]
    exact List.forall_mem_append.mpr ⟨h.data, List.forall_mem_singleton.mpr ⟨id, rfl⟩⟩
  labels := by
    rw [Translator.emitted, Array.toList_push, Array.toList_append, texts_append, List.map_append,
      h.labels, loadedTexts_append]
    rfl
  strings := by
    rw [Translator.emitted, Array.toList_push, texts_append, List.map_append, h.strings]
    rfl

end Translator.Stocked

/-! ## Steps -/

/-- Whenever a step succeeds, what is written still fits together, with the strings `ss` at the end.
-/
def Stocks {α : Type} (p : Translate α) (ss : List String) : Prop :=
  ∀ ⦃t t' a ss₀⦄, p.outcome t = (.ok a, t') → t.Stocked ss₀ → t'.Stocked (ss₀ ++ ss)

namespace Stocks

variable {α β : Type} {p : Translate α} {f : α → Translate β}

theorem bind (hp : Stocks p ss) (hf : ∀ a, Stocks (f a) ss') : Stocks (p >>= f) (ss ++ ss') := by
  intro t t' b ss₀ h ht
  obtain ⟨a, t₁, h₁, h₂⟩ := Pass.outcome_bind_ok.mp h
  rw [← List.append_assoc]
  exact hf a h₂ (hp h₁ ht)

/-- What follows adds no strings. -/
theorem bind_nil (hp : Stocks p ss) (hf : ∀ a, Stocks (f a) []) : Stocks (p >>= f) ss := by
  have := hp.bind hf
  rwa [List.append_nil] at this

/-- A step that writes nothing and binds no name. -/
theorem still (h : ∀ t, (p.outcome t).2.code = t.code ∧ (p.outcome t).2.data = t.data ∧
    (p.outcome t).2.scopes = t.scopes) : Stocks p [] := by
  intro t t' a ss₀ hp ht
  obtain ⟨hcode, hdata, hscopes⟩ := h t
  rw [hp] at hcode hdata hscopes
  rw [List.append_nil]
  exact ⟨hscopes ▸ ht.places, hcode ▸ ht.tagged, hdata ▸ ht.data, hcode ▸ hdata ▸ ht.labels,
    hdata ▸ ht.strings⟩

theorem pure (a : α) : Stocks (Pure.pure a : Translate α) [] := .still fun _ ↦ ⟨rfl, rfl, rfl⟩

theorem draw : Stocks Translate.draw [] := .still fun _ ↦ ⟨rfl, rfl, rfl⟩

theorem depth : Stocks Translate.depth [] := .still fun _ ↦ ⟨rfl, rfl, rfl⟩

theorem get : Stocks (MonadState.get : Translate Translator) [] := .still fun _ ↦ ⟨rfl, rfl, rfl⟩

/-- Code that loads no label. -/
theorem emitted {p : Translate Unit} (hp : ∀ t, ∃ d, p.outcome t = (.ok (), t.emitted c d))
    (hc : c.all Instr.isPlain = true) : Stocks p [] := by
  intro t t' a ss₀ h ht
  obtain ⟨d, hd⟩ := hp t
  rw [hd] at h
  obtain ⟨-, rfl⟩ := Prod.mk.inj h
  rw [List.append_nil]
  exact ht.emitted (.of_plain hc) (loadedTexts_eq_nil hc) d

theorem emit {i : Instr} (hi : i.isPlain = true) : Stocks (Translate.emit i) [] :=
  emitted (fun t ↦ ⟨_, outcome_emit t i⟩) (by rw [List.all_cons, hi]; rfl)

theorem emitAll (hc : c.all Instr.isPlain = true) : Stocks (Translate.emitAll c) [] :=
  emitted (fun t ↦ ⟨_, outcome_emitAll t c⟩) hc

theorem push (r : Reg) : Stocks (Translate.push r) [] :=
  emitted (fun t ↦ ⟨_, outcome_push t r⟩) rfl

theorem pop (r : Reg) : Stocks (Translate.pop r) [] :=
  emitted (fun t ↦ ⟨_, outcome_pop t r⟩) rfl

theorem pushAll (rs : List Reg) : Stocks (Translate.pushAll rs) [] :=
  emitted (fun t ↦ ⟨_, outcome_pushAll t rs⟩) (by simp [Instr.isPlain])

theorem popAll (rs : List Reg) : Stocks (Translate.popAll rs) [] :=
  emitted (fun t ↦ ⟨_, outcome_popAll t rs⟩) (by simp [Instr.isPlain])

theorem reserve (n : Nat) : Stocks (Translate.reserve n) [] :=
  emitted (fun t ↦ ⟨_, outcome_reserve t n⟩) (by rw [reserveCode]; split <;> rfl)

theorem release (n : Nat) : Stocks (Translate.release n) [] :=
  emitted (fun t ↦ ⟨_, outcome_release t n⟩) (by rw [releaseCode]; split <;> rfl)

/-- A closure is tagged when it is loaded. -/
theorem load {p : Place} (hp : p.IsTagged) : Stocks (Translate.emitAll p.load) [] := by
  cases p with
  | slot | captured | current => exact .emitAll rfl
  | param i =>
    rw [Place.load]
    split <;> exact .emitAll rfl
  | static l =>
    have htag : l.tag? = some .closure := hp l rfl
    intro t t' a ss₀ h ht
    rw [outcome_emitAll] at h
    cases h
    rw [List.append_nil]
    refine ht.emitted (.load htag .nil) ?_ _
    cases l <;> first | rfl | cases htag

/-- A name is bound. -/
theorem define {p : Place} (hp : p.IsTagged) (scope : Translator → ScopeId) (x : String) :
    Stocks (modify fun t ↦ { t with scopes := t.scopes.defineIn (scope t) x p } : Translate Unit)
      [] := by
  intro t t' a ss₀ h ht
  cases h
  rw [List.append_nil]
  exact ht.sees (ht.places.defineIn _ x hp) t.activation

/-- What comes before adds no strings. -/
theorem nil_bind (hp : Stocks p []) (hf : ∀ a, Stocks (f a) ss) : Stocks (p >>= f) ss := hp.bind hf

theorem resolve_bind {x : String} {line : Nat} {f : Place → Translate β}
    (hf : ∀ p : Place, p.IsTagged → Stocks (f p) ss) : Stocks (resolve x line >>= f) ss := by
  intro t t' b ss₀ h ht
  obtain ⟨p, _, hp, h⟩ := Pass.outcome_bind_ok.mp h
  obtain ⟨hlookup, rfl⟩ := (outcome_resolve t).mp hp
  exact hf p (ht.places.of_lookup hlookup) h ht

theorem places_bind {xs : List String} {line : Nat} {f : List Place → Translate β}
    (hf : ∀ ps : List Place, (∀ p ∈ ps, p.IsTagged) → Stocks (f ps) ss) :
    Stocks (places line xs >>= f) ss := by
  intro t t' b ss₀ h ht
  obtain ⟨ps, _, hps, h⟩ := Pass.outcome_bind_ok.mp h
  obtain ⟨hlookup, rfl⟩ := (outcome_places t).mp hps
  refine hf ps (fun p hp ↦ ?_) h ht
  obtain ⟨x, hx⟩ := Scopes.exists_of_mem_mapM hlookup hp
  exact ht.places.of_lookup hx

theorem nested {p : Translate Unit} (hp : Stocks p ss) : Stocks (Translate.nested p) ss := by
  intro t t' a ss₀ h ht
  obtain ⟨t₁, h₁, rfl⟩ := Pass.outcome_between_ok.mp h
  have hbody := hp h₁ (ht.sees ht.places.enter t.activation)
  exact hbody.sees (hbody.places.exit _) t₁.activation

/-- What a body sees under the name of its function is the closure of the function. -/
theorem isolated {p : Translate Unit} (hp : Stocks p ss) (h : FnHead) (captures : Captures)
    (id : Nat) : Stocks (Translate.isolated h captures id p) ss := by
  intro t t' a ss₀ hisolated ht
  obtain ⟨t₁, h₁, rfl⟩ := Pass.outcome_between_ok.mp hisolated
  have hplaces : ((t.scopes.enterFrom ScopeId.global).defineAll (bodyPlaces h captures id)).All
      Place.IsTagged := by
    refine (ht.places.enterFrom _).defineAll fun b hb l hl ↦ ?_
    obtain ⟨x, place⟩ := b
    obtain rfl := Place.eq_static hl
    obtain ⟨-, rfl⟩ := static_of_mem_bodyPlaces hb
    rfl
  have hbody := hp h₁ (ht.sees hplaces ⟨true, h.allParams.length, 0⟩)
  exact hbody.sees (hbody.places.exit _) t.activation

end Stocks

/-! ## Constructs -/

/-- Wherever it is translated with success, the expression adds its strings. -/
def Stocking (e : Expr) : Prop := Stocks e.translate e.strings

theorem stocking_literal (v : Literal) (n : Note) : Stocking (.literal v n) := by
  cases v with
  | nil | boolean | number => exact .emit rfl
  | string s =>
    intro t t' a ss₀ h ht
    simp only [Expr.translate, literal, Pass.outcome_bind_ok, outcome_draw, outcome_emitAll,
      emitData, Pass.outcome_modify, Prod.mk.injEq, Except.ok.injEq] at h
    obtain ⟨_, _, ⟨rfl, rfl⟩, _, _, ⟨-, rfl⟩, -, rfl⟩ := h
    exact Translator.Stocked.text (t := t.drawn)
      ⟨ht.places, ht.tagged, ht.data, ht.labels, ht.strings⟩ t.next s _

theorem stocks_fill {es : List Expr} (hes : ∀ e ∈ es, Stocking e) (slot : Nat) :
    Stocks (fill slot (translateEach es)) (Expr.stringsAll es) := by
  induction es generalizing slot with
  | nil => exact .pure ()
  | cons e es ih =>
    obtain ⟨he, hes⟩ := List.forall_mem_cons.mp hes
    exact he.bind fun _ ↦ .nil_bind (.emit rfl) fun _ ↦ ih hes _

theorem stocking_group {es : List Expr} (hes : ∀ e ∈ es, Stocking e) (shape : Shape) (n : Note) :
    Stocking (.group shape es n) := by
  rw [Stocking, Expr.translate, Translate.sequence]
  split
  · next hempty =>
    obtain rfl : es = [] := by simpa [translateEach_eq_map] using hempty
    exact .emit rfl
  · refine .nil_bind (.reserve _) fun _ ↦ .nil_bind .depth fun _ ↦ ?_
    refine (stocks_fill hes _).bind_nil fun _ ↦ .nil_bind .get fun _ ↦ ?_
    exact .nil_bind (.pushAll _) fun _ ↦ .nil_bind (.emitAll rfl) fun _ ↦
      .nil_bind (.popAll _) fun _ ↦ .release _

theorem stocking_cond {test yes no : Expr} (htest : Stocking test) (hyes : Stocking yes)
    (hno : Stocking no) (n : Note) : Stocking (.cond test yes no n) :=
  .nil_bind .draw fun _ ↦ htest.bind fun _ ↦ .nil_bind (.emitAll rfl) fun _ ↦
    hno.bind fun _ ↦ .nil_bind (.emitAll rfl) fun _ ↦ hyes.bind_nil fun _ ↦ .emit rfl

theorem stocks_translateAll {es : List Expr} (hes : ∀ e ∈ es, Stocking e) :
    Stocks (translateAll es) (Expr.stringsAll es) := by
  induction es with
  | nil => exact .pure ()
  | cons e es ih =>
    obtain ⟨he, hes⟩ := List.forall_mem_cons.mp hes
    exact he.bind fun _ ↦ ih hes

theorem stocking_seq {steps : List Expr} (hsteps : ∀ e ∈ steps, Stocking e) (n : Note) :
    Stocking (.seq steps n) := by
  rw [Stocking, Expr.translate]
  split
  · next hempty =>
    obtain rfl := List.isEmpty_iff.mp hempty
    exact stocking_literal .nil n
  · exact stocks_translateAll hsteps

theorem stocks_bindings {bs : List (String × Expr)} (hbs : ∀ b ∈ bs, Stocking b.2) :
    Stocks (translateBindings bs) (Expr.stringsOf bs) := by
  induction bs with
  | nil => exact .pure ()
  | cons b bs ih =>
    obtain ⟨hb, hbs⟩ := List.forall_mem_cons.mp hbs
    have hslot : Stocks (bindSlot b.1) [] := .nil_bind (.push .rax) fun _ ↦
      .nil_bind .depth fun _ ↦ .define (fun _ hl ↦ by cases hl) (·.scopes.current) b.1
    exact hb.bind fun _ ↦ .nil_bind hslot fun _ ↦ ih hbs

theorem stocking_letIn {bs : List (String × Expr)} {body : Expr} (hbs : ∀ b ∈ bs, Stocking b.2)
    (hbody : Stocking body) (n : Note) : Stocking (.letIn bs body n) :=
  .nested ((stocks_bindings hbs).bind fun _ ↦ hbody.bind_nil fun _ ↦ .release _)

theorem stocks_passArgs {es : List Expr} (hes : ∀ e ∈ es, Stocking e) (base i : Nat) :
    Stocks (passArgs base i (translateEach es)) (Expr.stringsAll es) := by
  induction es generalizing i with
  | nil => exact .pure ()
  | cons e es ih =>
    obtain ⟨he, hes⟩ := List.forall_mem_cons.mp hes
    refine he.bind fun _ ↦ ?_
    split
    · exact .nil_bind (.push _) fun _ ↦ ih hes _
    · exact .nil_bind (.emit rfl) fun _ ↦ ih hes _

theorem stocking_call {callee : Expr} {args : List Expr} (hcallee : Stocking callee)
    (hargs : ∀ e ∈ args, Stocking e) (spread : Option Nat) (n : Note) :
    Stocking (.call callee args spread n) := by
  have hpassed : ∀ e ∈ passedExprs spread args, Stocking e :=
    forall_passedExprs hargs (fun _ hlist ↦ stocking_group hlist _ _) spread
  rw [Stocking, Expr.translate, call, passed_translateEach, Expr.strings,
    ← Expr.stringsAll_passedExprs spread args]
  refine .nil_bind .get fun _ ↦ .nil_bind (.pushAll _) fun _ ↦ .nil_bind (.reserve _) fun _ ↦ ?_
  refine .nil_bind .depth fun _ ↦ (stocks_passArgs hpassed _ _).bind fun _ ↦ ?_
  refine hcallee.bind_nil fun _ ↦ .nil_bind (.emitAll rfl) fun _ ↦ .nil_bind (.popAll _) fun _ ↦ ?_
  exact .nil_bind (.emitAll rfl) fun _ ↦ .nil_bind (.release _) fun _ ↦ .popAll _

theorem stocks_allocate {sources : List Place} (hsources : ∀ p ∈ sources, p.IsTagged)
    (code : Label) : Stocks (allocate code sources) [] := by
  have hcapture (offset : Nat) (ps : List Place) (hps : ∀ p ∈ ps, p.IsTagged) :
      Stocks (capture offset ps) [] := by
    induction ps generalizing offset with
    | nil => exact .pure ()
    | cons p ps ih =>
      obtain ⟨hp, hps⟩ := List.forall_mem_cons.mp hps
      exact .nil_bind (.load hp) fun _ ↦ .nil_bind (.emitAll rfl) fun _ ↦ ih _ hps
  refine .nil_bind .get fun _ ↦ .nil_bind (.pushAll _) fun _ ↦ .nil_bind (.emitAll rfl) fun _ ↦ ?_
  refine .nil_bind (.popAll _) fun _ ↦ .nil_bind (.emitAll rfl) fun _ ↦ ?_
  exact .nil_bind (.push _) fun _ ↦ .nil_bind (hcapture _ _ hsources) fun _ ↦
    .nil_bind (.pop _) fun _ ↦ .emit rfl

/-- The closure of a function without captures is written behind the body, with what the body had to
write. -/
theorem stocking_fn {body : Expr} (hbody : Stocking body) (head : FnHead) (n : Note) :
    Stocking (.fn head body n) := by
  refine .nil_bind .draw fun id ↦ .places_bind fun sources hsources ↦ ?_
  refine .nil_bind (.emitAll rfl) fun _ ↦ (hbody.isolated _ _ _).bind_nil fun _ ↦ ?_
  refine .nil_bind (.emitAll rfl) fun _ ↦ ?_
  have hown : (Place.static (.closure head.name id)).IsTagged := fun l hl ↦ by
    cases hl
    rfl
  have hclosure : Stocks (emitData (.closure (.closure head.name id) (.code head.name id))) [] := by
    intro t t' a ss₀ h ht
    cases h
    rw [List.append_nil]
    exact ht.closure head.name id
  split
  · refine .nil_bind hclosure fun _ ↦ .nil_bind (.load hown) fun _ ↦ ?_
    split
    · exact .define hown (fun _ ↦ ScopeId.global) _
    · exact .pure ()
  · exact stocks_allocate hsources _

theorem stocking (e : Expr) : Stocking e := by
  induction e using Expr.memberInduction with
  | literal v n => exact stocking_literal v n
  | symbol name n => exact .resolve_bind fun _ hp ↦ .load hp
  | group shape elems n helems => exact stocking_group helems shape n
  | cond test yes no n htest hyes hno => exact stocking_cond htest hyes hno n
  | letIn bindings body n hbindings hbody => exact stocking_letIn hbindings hbody n
  | fn head body n hbody => exact stocking_fn hbody head n
  | seq steps n hsteps => exact stocking_seq hsteps n
  | call callee args spread n hcallee hargs => exact stocking_call hcallee hargs spread n

/-! ## Programs -/

theorem stocked_start (next : Nat) : (Translator.start next).Stocked [] where
  places := (start_places next).mono fun p hp l hl ↦ by
    obtain ⟨b, -, rfl⟩ := hp
    cases hl
    rfl
  tagged := .nil
  data := List.forall_mem_nil _
  labels := rfl
  strings := rfl

/-- What the runtime provides are routines and closures of builtin functions. -/
theorem externs_cases {l : Label} (h : l ∈ externs) :
    (∃ r, l = .routine r) ∨ ∃ symbol, l = .builtin symbol := by
  rcases List.mem_append.mp h with h | h
  · obtain ⟨r, -, rfl⟩ := List.mem_map.mp h
    exact Or.inl ⟨r, rfl⟩
  · obtain ⟨b, -, rfl⟩ := List.mem_map.mp h
    exact Or.inr ⟨_, rfl⟩

namespace Program

/-- The label is one from which code can make a value with the tag: that of a text, that of a
closure, which leads to the code of the same function, or that of a closure which the runtime
provides. -/
inductive Serves (p : Program) (strings : List String) : Label → Tag → Prop where
  | text {id s} (hs : s ∈ strings) (h : p.Holds (.text id) (textBytes s)) :
      Serves p strings (.text id) .string
  | closure {name id} (h : p.Holds (.closure name id) (addressBytes (.code name id)))
      (hcode : .code name id ∈ labels p.instrs) : Serves p strings (.closure name id) .closure
  | builtin {symbol} (h : .builtin symbol ∈ externs)
      (hsymbols : ∀ o, (.builtin symbol, o) ∉ p.symbols) :
      Serves p strings (.builtin symbol) .closure

end Program

namespace Translator

theorem Stocked.tagged_instrs (h : t.Stocked ss) : Tagged t.program.instrs :=
  ((Tagged.of_plain rfl).append h.tagged).append (.of_plain rfl)

theorem loadedTexts_instrs (t : Translator) :
    loadedTexts t.program.instrs = loadedTexts t.code.toList := by
  rw [Program.instrs, loadedTexts_append, loadedTexts_append,
    loadedTexts_eq_nil (c := epilogue) rfl, List.append_nil]
  rfl

/-- Objects are defined in the data. -/
theorem Stocked.exists_datum (h : t.Stocked ss) {l : Label} {tag : Tag} (htag : l.tag? = some tag)
    (hl : l ∈ t.defines) : ∃ d ∈ t.data.toList, d.label = l := by
  rcases List.mem_append.mp hl with hl | hl
  · rw [h.tagged.labels l hl] at htag
    cases htag
  · exact List.mem_map.mp hl

/-- What is no object is defined in the code. -/
theorem Stocked.mem_labels (h : t.Stocked ss) {l : Label} (htag : l.tag? = none)
    (hl : l ∈ t.defines) : l ∈ Machine.labels t.code.toList := by
  refine (List.mem_append.mp hl).resolve_right fun hl ↦ ?_
  obtain ⟨d, hd, rfl⟩ := List.mem_map.mp hl
  cases d with
  | text l s =>
    obtain ⟨id, rfl⟩ := h.data _ hd
    cases htag
  | closure l code =>
    obtain ⟨name, id, rfl, -⟩ := h.data _ hd
    cases htag

/-- A text in the data is one of the strings. -/
theorem Stocked.mem_strings (h : t.Stocked ss) {l : Label} {s : String}
    (hd : .text l s ∈ t.data.toList) : s ∈ ss := by
  rw [← h.strings]
  exact List.mem_map_of_mem (f := Prod.snd)
    (List.mem_filterMap.mpr (⟨_, hd, rfl⟩ : ∃ d ∈ t.data.toList, d.text? = some (l, s)))

end Translator

/-- A label that is found serves for its tag when all labels are found. -/
theorem Translator.Stocked.serves (h : t.Stocked ss) (hnodup : t.defines.Nodup)
    (hknown : ∀ l ∈ t.mentions, l ∈ externs ∨ l ∈ t.defines) {l : Label} {tag : Tag}
    (htag : l.tag? = some tag) (hl : l ∈ externs ∨ l ∈ t.defines) :
    t.program.Serves ss l tag := by
  have hdata : (t.program.data.map Datum.label).Nodup := (List.nodup_append.mp hnodup).2.1
  rcases em (l ∈ t.defines) with hdefines | hdefines
  · obtain ⟨d, hd, rfl⟩ := h.exists_datum htag hdefines
    have hholds := Program.holds_of_mem hdata hd
    cases d with
    | text l s =>
      obtain ⟨id, rfl⟩ := h.data _ hd
      cases htag
      exact .text (h.mem_strings hd) hholds
    | closure l code =>
      obtain ⟨name, id, rfl, rfl⟩ := h.data _ hd
      cases htag
      refine .closure hholds ?_
      have hcode : .code name id ∈ t.mentions := List.mem_append_right _
        (List.mem_flatMap.mpr ⟨_, hd, List.mem_singleton_self _⟩)
      have hdefined : .code name id ∈ t.defines := by
        refine (hknown _ hcode).resolve_left fun hextern ↦ ?_
        rcases externs_cases hextern with ⟨_, h⟩ | ⟨_, h⟩ <;> cases h
      rw [Program.instrs, labels_append, labels_append]
      exact List.mem_append_left _ (List.mem_append_right _ (h.mem_labels rfl hdefined))
  · have hextern := hl.resolve_right hdefines
    rcases externs_cases hextern with ⟨r, rfl⟩ | ⟨symbol, rfl⟩ <;> cases htag
    refine .builtin hextern fun o ho ↦ hdefines ?_
    have hlabel := List.mem_map_of_mem (f := Prod.fst) ho
    rw [Program.map_fst_symbols] at hlabel
    exact List.mem_append_right _ hlabel

/-- All labels of a program are found, and each is defined once. -/
theorem known_translateAll {es : List Expr} {next : Nat}
    (h : (translateAll es).outcome (.start next) = (.ok (), t)) :
    t.defines.Nodup ∧ ∀ l ∈ t.mentions, l ∈ externs ∨ l ∈ t.defines := by
  obtain ⟨ls, hlinked, howned⟩ := links_translateAll (fun e _ ↦ links_translate e) h
  have hdefines : t.defines.Perm ls := hlinked.defines
  refine ⟨hdefines.nodup_iff.mpr howned.nodup, fun l hl ↦ ?_⟩
  have hknown := (hlinked.sound _ (sound_start next) (List.forall_mem_nil _)).mentions l hl
  exact hknown.imp_right fun hl ↦ hl.resolve_right id

/-- **The layout of the data section.** Whenever a program is translated, each label that its code
loads into `rax` is tagged right behind. The label of a text or of a closure then stands in the data
section once, at a multiple of eight bytes, and behind it the length of the text in eight bytes and
its bytes, or the address of the code of the function that the closure is for. Any other label is
that of the closure of a builtin function, which is not in the section. The texts that are loaded
are the strings of the program, in the order of translation. Wherever the section is put, as long as
that is a multiple of eight, setting a tag in the address of a label changes no other bits. -/
theorem data_layout {es : List Expr} {next : Nat} {t : Translator}
    (h : (translateAll es).outcome (.start next) = (.ok (), t)) :
    (∀ before l after, t.program.instrs = before ++ .mov .rax (.label l) :: after →
      ∃ tag rest, after = .or .rax tag.bits.toInt :: rest ∧
        t.program.Serves (Expr.stringsAll es) l tag) ∧
    List.Forall₂ (fun l s ↦ t.program.Holds l (textBytes s)) (loadedTexts t.program.instrs)
      (Expr.stringsAll es) ∧
    ∀ l o, (l, o) ∈ t.program.symbols → 8 ∣ o ∧
      ∀ (base : Word) (tag : Tag), 8 ∣ base.toNat →
        (Word.tagged (base + BitVec.ofNat 64 o) tag).hasTag tag = true ∧
        (Word.tagged (base + BitVec.ofNat 64 o) tag).untagged = base + BitVec.ofNat 64 o := by
  have hstocked : t.Stocked (Expr.stringsAll es) :=
    stocks_translateAll (fun e _ ↦ stocking e) h (stocked_start next)
  obtain ⟨hnodup, hknown⟩ := known_translateAll h
  have hdata : (t.program.data.map Datum.label).Nodup := (List.nodup_append.mp hnodup).2.1
  refine ⟨fun before l after hinstrs ↦ ?_, ?_, fun l o ho ↦ ?_⟩
  · obtain ⟨tag, rest, htag, hafter⟩ := (hinstrs ▸ hstocked.tagged_instrs).behind
    refine ⟨tag, rest, hafter, hstocked.serves hnodup hknown htag ?_⟩
    have hmentioned : l ∈ t.program.mentions := by
      rw [Program.mentions, hinstrs]
      exact List.mem_append_left _ (List.mem_flatMap.mpr
        ⟨_, List.mem_append_right _ List.mem_cons_self, List.mem_singleton_self l⟩)
    exact (Program.mem_mentions_program hmentioned).elim Or.inl (hknown l)
  · rw [Translator.loadedTexts_instrs, ← hstocked.labels, ← hstocked.strings,
      List.forall₂_map_left_iff, List.forall₂_map_right_iff, List.forall₂_same]
    rintro ⟨l, s⟩ hmem
    obtain ⟨d, hd, htext⟩ := List.mem_filterMap.mp hmem
    cases d with
    | text l' s' =>
      cases htext
      exact Program.holds_of_mem hdata hd
    | closure => cases htext
  · have hlabel := List.mem_map_of_mem (f := Prod.fst) ho
    rw [Program.map_fst_symbols] at hlabel
    obtain ⟨d, hd, rfl⟩ := List.mem_map.mp hlabel
    obtain ⟨o', hiff, hdvd, -⟩ := Program.holds_of_mem hdata hd
    obtain rfl := (hiff o).mp ho
    refine ⟨hdvd, fun base tag hbase ↦ ?_⟩
    have haligned : (base + BitVec.ofNat 64 o).toNat % 8 = 0 := by
      rw [BitVec.toNat_add, BitVec.toNat_ofNat]
      omega
    exact ⟨hasTag_tagged haligned tag, untagged_tagged haligned tag⟩

/-- The expressions `(defn f [x] (if x "λ" (f "")))` and `f`. -/
def messageExprs : List Expr :=
  [ .fn ⟨some "f", ["x"], none, true⟩ (.cond (.symbol "x" default)
      (.literal (.string "λ") default)
      (.call (.symbol "f" default) [.literal (.string "") default] none default) default) default,
    .symbol "f" default ]

/-- The closure stands behind both texts, and the bytes of the second one are filled up. -/
theorem messageExprs_layout : ∃ t, (translateAll messageExprs).outcome (.start 0) = (.ok (), t) ∧
    t.program.symbols = [(.text 2, 0), (.text 3, 8), (.closure (some "f") 0, 24)] ∧
    t.program.bytes = [0, 0, 0, 0, 0, 0, 0, 0, 2, 0, 0, 0, 0, 0, 0, 0, 206, 187].map .value
      ++ List.replicate 6 .filler ++ addressBytes (.code (some "f") 0) ∧
    (∀ before l after, t.program.instrs = before ++ .mov .rax (.label l) :: after →
      ∃ tag rest, after = .or .rax tag.bits.toInt :: rest ∧
        t.program.Serves (Expr.stringsAll messageExprs) l tag) ∧
    t.program.Holds (.text 2) (textBytes "") ∧ t.program.Holds (.text 3) (textBytes "λ") := by
  have h : (translateAll messageExprs).outcome (.start 0)
      = (.ok (), ((translateAll messageExprs).outcome (.start 0)).2) := rfl
  obtain ⟨htagged, htexts, -⟩ := data_layout h
  have hloaded : loadedTexts ((translateAll messageExprs).outcome (.start 0)).2.program.instrs
      = [.text 2, .text 3] := by decide +kernel
  rw [hloaded] at htexts
  obtain ⟨hempty, hlambda, -⟩ := List.forall₂_cons.mp htexts |>.imp id List.forall₂_cons.mp
  exact ⟨_, h, by decide +kernel, by decide +kernel, htagged, hempty, hlambda⟩

/-- The code of the program `+` loads and tags a closure that is not in the data. -/
theorem plus_not_in_data : ∃ t,
    (translateAll [.symbol "+" default]).outcome (.start 0) = (.ok (), t) ∧
    t.program.code = [.mov .rax (.label (.builtin "plus")), .or .rax Tag.closure.bits.toInt] ∧
    ¬∃ o, (.builtin "plus", o) ∈ t.program.symbols := by
  refine ⟨_, rfl, by decide +kernel, ?_⟩
  rintro ⟨o, ho⟩
  cases ho

end Machine

end TaggedLisp
