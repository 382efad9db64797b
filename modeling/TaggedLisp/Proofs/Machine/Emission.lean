import TaggedLisp.Proofs.Label
import TaggedLisp.Proofs.Machine.Execution
import TaggedLisp.Proofs.Pass
import TaggedLisp.Proofs.Scopes

/-!
# What a translation writes

The translation of an expression only adds to what was there before: code behind the code, global
names to the global frame. `Emits` says what is added. The numbers of its labels lie between the
next unused numbers before and after, which is all that is needed to see that the labels of two
pieces of code differ.
-/

namespace TaggedLisp

/-! ## Global names -/

open Machine

/-- Names get the words of closures in the data section. -/
def closureWords (address : Label → Word) (globals : String → Option Word)
    (ds : List (String × Label)) : String → Option Word :=
  ds.foldl (fun G (name, l) x ↦ if x = name then some (closureWord address l) else G x) globals

namespace Machine

open Translate

theorem Linkable.of_numbered {lo hi : Nat} {c : List Instr} (h : Numbered lo hi (labels c)) :
    Linkable c where
  nodup := h.nodup
  error hmem := by
    obtain ⟨id, hid, -⟩ := h.number _ hmem
    cases hid

/-! ## Emitted code -/

/-- The translator that has written some more code and come to some depth. -/
def Translator.emitted (t : Translator) (c : List Instr) (depth : Nat) : Translator :=
  { t with code := t.code ++ c.toArray, activation := { t.activation with depth := depth } }

/-- The translator that has drawn a number. -/
def Translator.drawn (t : Translator) : Translator := { t with next := t.next + 1 }

@[simp] theorem Translator.emitted_emitted (t : Translator) (c c' : List Instr) (d d' : Nat) :
    (t.emitted c d).emitted c' d' = t.emitted (c ++ c') d' := by
  simp [Translator.emitted]

@[simp] theorem Translator.activation_emitted (t : Translator) (c : List Instr) (d : Nat) :
    (t.emitted c d).activation = { t.activation with depth := d } := rfl

@[simp] theorem Translator.next_emitted (t : Translator) (c : List Instr) (d : Nat) :
    (t.emitted c d).next = t.next := rfl

@[simp] theorem Translator.scopes_emitted (t : Translator) (c : List Instr) (d : Nat) :
    (t.emitted c d).scopes = t.scopes := rfl

/-- What is added between two translators: the code `c`, and to the global names what `f` says. -/
structure Adds (address : Label → Word) (t t' : Translator) (depth : Nat)
    (f : Statics → Statics) (c : List Instr) : Prop where
  code : t'.code.toList = t.code.toList ++ c
  activation : t'.activation = { t.activation with depth := depth }
  scopes : ∃ ds, t'.scopes = t.scopes.defineGlobals .static ds ∧
    ∀ G, f ⟨t.next, G⟩ = ⟨t'.next, closureWords address G ds⟩

/-- A translation from `t` to `t'` adds the code `c`, whose labels have numbers that are drawn on
the way. -/
structure Emits (address : Label → Word) (t t' : Translator) (depth : Nat)
    (f : Statics → Statics) (c : List Instr) : Prop extends Adds address t t' depth f c where
  numbered : Numbered t.next t'.next (labels c)

section

variable {address : Label → Word} {t t' t'' : Translator} {d d' : Nat} {f g : Statics → Statics}
  {c c' : List Instr}

namespace Adds

theorem emitted : Adds address t (t.emitted c d) d id c where
  code := by simp [Translator.emitted]
  activation := rfl
  scopes := ⟨[], rfl, fun _ ↦ rfl⟩

theorem trans (h : Adds address t t' d f c) (h' : Adds address t' t'' d' g c') :
    Adds address t t'' d' (g ∘ f) (c ++ c') where
  code := by rw [h'.code, h.code, List.append_assoc]
  activation := by rw [h'.activation, h.activation]
  scopes := by
    obtain ⟨ds, hds, hf⟩ := h.scopes
    obtain ⟨ds', hds', hg⟩ := h'.scopes
    refine ⟨ds ++ ds', ?_, fun G ↦ ?_⟩
    · rw [hds', hds, Scopes.defineGlobals_append]
    · rw [Function.comp_apply, hf, hg, closureWords, closureWords, closureWords, List.foldl_append]

theorem congr (h : Adds address t t' d f c) (hd : d = d')
    (hf : ∀ G, f ⟨t.next, G⟩ = g ⟨t.next, G⟩) (hc : c = c') : Adds address t t' d' g c' where
  code := hc ▸ h.code
  activation := hd ▸ h.activation
  scopes := by
    obtain ⟨ds, hds, hG⟩ := h.scopes
    exact ⟨ds, hds, fun G ↦ by rw [← hf, hG]⟩

theorem wellFormed (h : Adds address t t' d f c) (hs : t.scopes.WellFormed) :
    t'.scopes.WellFormed := by
  obtain ⟨ds, hds, -⟩ := h.scopes
  rw [hds]
  exact hs.defineGlobals _ ds

theorem current (h : Adds address t t' d f c) : t'.scopes.current = t.scopes.current := by
  obtain ⟨ds, hds, -⟩ := h.scopes
  rw [hds, Scopes.current_defineGlobals]

/-- What is added is added as well when a frame is left before and after. -/
theorem exit (h : Adds address t t' d f c) (saved : ScopeId) :
    Adds address { t with scopes := t.scopes.exit saved }
      { t' with scopes := t'.scopes.exit saved } d f c where
  code := h.code
  activation := h.activation
  scopes := by
    obtain ⟨ds, hds, hf⟩ := h.scopes
    exact ⟨ds, by rw [hds, Scopes.exit_defineGlobals], hf⟩

/-- A number is drawn. -/
theorem draw : Adds address t t.drawn t.activation.depth .draw [] where
  code := (List.append_nil _).symm
  activation := rfl
  scopes := ⟨[], rfl, fun _ ↦ rfl⟩

/-- A piece of data is written. -/
theorem datum (x : Datum) :
    Adds address t { t with data := t.data.push x } t.activation.depth id [] where
  code := (List.append_nil _).symm
  activation := rfl
  scopes := ⟨[], rfl, fun _ ↦ rfl⟩

/-- A global function gets its name. -/
theorem defineGlobal (x : String) (l : Label) :
    Adds address t { t with scopes := t.scopes.defineGlobal x (.static l) } t.activation.depth
      (fun s ↦ s.define x (closureWord address l)) [] where
  code := (List.append_nil _).symm
  activation := rfl
  scopes := ⟨[(x, l)], rfl, fun _ ↦ rfl⟩

end Adds

namespace Emits

theorem emitted (hc : labels c = []) : Emits address t (t.emitted c d) d id c where
  toAdds := .emitted
  numbered := by rw [hc]; exact .nil (Nat.le_refl _)

theorem refl : Emits address t t t.activation.depth id [] where
  code := (List.append_nil _).symm
  activation := rfl
  scopes := ⟨[], rfl, fun _ ↦ rfl⟩
  numbered := .nil (Nat.le_refl _)

theorem trans (h : Emits address t t' d f c) (h' : Emits address t' t'' d' g c') :
    Emits address t t'' d' (g ∘ f) (c ++ c') where
  toAdds := h.toAdds.trans h'.toAdds
  numbered := by rw [labels_append]; exact h.numbered.append h'.numbered

theorem congr (h : Emits address t t' d f c) (hd : d = d')
    (hf : ∀ G, f ⟨t.next, G⟩ = g ⟨t.next, G⟩) (hc : c = c') : Emits address t t' d' g c' where
  toAdds := h.toAdds.congr hd hf hc
  numbered := hc ▸ h.numbered

/-- What is added is added as well when a frame is left before and after. -/
theorem exit (h : Emits address t t' d f c) (saved : ScopeId) :
    Emits address { t with scopes := t.scopes.exit saved }
      { t' with scopes := t'.scopes.exit saved } d f c where
  toAdds := h.toAdds.exit saved
  numbered := h.numbered

end Emits

end

/-! ## Steps that always succeed -/

namespace Translate

variable (t : Translator)

@[simp] theorem outcome_draw :
    draw.outcome t = (.ok t.next, t.drawn) := rfl

@[simp] theorem outcome_depth : depth.outcome t = (.ok t.activation.depth, t) := rfl

theorem outcome_emit (i : Instr) :
    (emit i).outcome t = (.ok (), t.emitted [i] t.activation.depth) := by
  simp [emit, Translator.emitted]

@[simp] theorem outcome_emitAll (is : List Instr) :
    (emitAll is).outcome t = (.ok (), t.emitted is t.activation.depth) := by
  induction is generalizing t with
  | nil => simp [emitAll, Translator.emitted]
  | cons i is ih =>
    rw [emitAll, Pass.outcome_bind, outcome_emit]
    simp [ih]

@[simp] theorem outcome_push (r : Reg) :
    (push r).outcome t = (.ok (), t.emitted [.push r] (t.activation.depth + 1)) := by
  rw [push, Pass.outcome_bind, outcome_emit]
  rfl

@[simp] theorem outcome_pop (r : Reg) :
    (pop r).outcome t = (.ok (), t.emitted [.pop r] (t.activation.depth - 1)) := by
  rw [pop, Pass.outcome_bind, outcome_emit]
  rfl

@[simp] theorem outcome_pushAll (rs : List Reg) :
    (pushAll rs).outcome t
      = (.ok (), t.emitted (rs.map .push) (t.activation.depth + rs.length)) := by
  induction rs generalizing t with
  | nil => simp [pushAll, Translator.emitted]
  | cons r rs ih =>
    rw [pushAll, Pass.outcome_bind, outcome_push]
    simp [ih, Nat.add_assoc, Nat.add_comm 1]

@[simp] theorem outcome_popAll (rs : List Reg) :
    (popAll rs).outcome t
      = (.ok (), t.emitted (rs.map .pop) (t.activation.depth - rs.length)) := by
  induction rs generalizing t with
  | nil => simp [popAll, Translator.emitted]
  | cons r rs ih =>
    rw [popAll, Pass.outcome_bind, outcome_pop]
    simp [ih, Nat.sub_sub, Nat.add_comm 1]

/-- The code that makes room on the stack. -/
def reserveCode (words : Nat) : List Instr :=
  if words = 0 then [] else [.sub .rsp (8 * words)]

/-- The code that gives up room on the stack. -/
def releaseCode (words : Nat) : List Instr :=
  if words = 0 then [] else [.add .rsp (8 * words)]

@[simp] theorem outcome_reserve (n : Nat) :
    (reserve n).outcome t = (.ok (), t.emitted (reserveCode n) (t.activation.depth + n)) := by
  by_cases hn : n = 0
  · simp [reserve, reserveCode, hn, Translator.emitted]
  · simp [reserve, reserveCode, hn, Pass.outcome_bind, outcome_emit, setDepth, Translator.emitted]

@[simp] theorem outcome_release (n : Nat) :
    (release n).outcome t = (.ok (), t.emitted (releaseCode n) (t.activation.depth - n)) := by
  by_cases hn : n = 0
  · simp [release, releaseCode, hn, Translator.emitted]
  · simp [release, releaseCode, hn, Pass.outcome_bind, outcome_emit, setDepth, Translator.emitted]

theorem labels_reserveCode (n : Nat) : labels (reserveCode n) = [] := by
  rw [reserveCode]
  split <;> rfl

theorem labels_releaseCode (n : Nat) : labels (releaseCode n) = [] := by
  rw [releaseCode]
  split <;> rfl

theorem labels_pushes (rs : List Reg) : labels (rs.map .push) = [] := by
  simp [labels]

theorem labels_pops (rs : List Reg) : labels (rs.map .pop) = [] := by
  simp [labels]

/-- A name that is resolved is visible. -/
theorem outcome_resolve {name : String} {line : Nat} {p : Place} {t' : Translator} :
    (resolve name line).outcome t = (.ok p, t') ↔ t.scopes.lookup name = some p ∧ t = t' := by
  rw [resolve, Pass.outcome_bind, Pass.outcome_get]
  cases h : t.scopes.lookup name <;> simp [h]

/-- The names of captured variables are visible, and looking them up changes nothing. -/
theorem outcome_places {names : List String} {line : Nat} {ps : List Place} {t' : Translator} :
    (places line names).outcome t = (.ok ps, t') ↔
      names.mapM t.scopes.lookup = some ps ∧ t = t' := by
  induction names generalizing ps t' with
  | nil => simp [places]
  | cons name names ih =>
    rw [places, Pass.outcome_bind_ok, List.mapM_cons]
    constructor
    · rintro ⟨p, _, hp, hrest⟩
      obtain ⟨hlook, rfl⟩ := (outcome_resolve t).mp hp
      obtain ⟨ps', _, hps, hdone⟩ := Pass.outcome_bind_ok.mp hrest
      obtain ⟨hmap, rfl⟩ := ih.mp hps
      obtain ⟨rfl, rfl⟩ := by simpa using hdone
      simp [hlook, hmap]
    · rintro ⟨hmap, rfl⟩
      obtain ⟨p, hp, hmap⟩ := Option.bind_eq_some_iff.mp hmap
      obtain ⟨ps', hps, hmap⟩ := Option.bind_eq_some_iff.mp hmap
      obtain rfl := by simpa using hmap
      exact ⟨p, t, (outcome_resolve t).mpr ⟨hp, rfl⟩,
        Pass.outcome_bind_ok.mpr ⟨ps', t, ih.mpr ⟨hps, rfl⟩, rfl⟩⟩

end Translate

end Machine

end TaggedLisp
