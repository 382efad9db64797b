import TaggedLisp.Form.Reader
import TaggedLisp.Proofs.Form.Lexing

/-!
# The grammar of forms

`Spells` is the grammar: which tokens spell which forms, said without a reader. The reader accepts
exactly the texts that are used up by their tokens and whose tokens spell something, and it gives
what they spell. It also loses nothing: the tokens of a text can be had back from the forms, since
every form keeps its token and the closing bracket of a sequence follows from its shape
(`read_iff_spells`).

Soundness comes from an invariant of reading token by token, `Reading.Stands`: what is finished and
what is still open spell, one after the other, the tokens read so far. Completeness is by induction
over the grammar, from any state of the reader.
-/

namespace TaggedLisp

/-! ## Forms without tokens -/

/-- What a form says, without the tokens and lines it was read from. -/
inductive Content where
  | atom (atom : Atom)
  | group (shape : Shape) (elems : List Content)
  deriving Repr, Inhabited

namespace Form

mutual

/-- What the form says. -/
def content : Form → Content
  | atom a _ => .atom a
  | group shape elems _ => .group shape (contents elems)

/-- What the forms say, one after the other. -/
def contents : List Form → List Content
  | [] => []
  | f :: fs => f.content :: contents fs

end

theorem contents_eq_map (fs : List Form) : contents fs = fs.map content := by
  induction fs with
  | nil => rfl
  | cons f fs ih => rw [contents, ih, List.map_cons]

theorem contents_append (fs gs : List Form) : contents (fs ++ gs) = contents fs ++ contents gs := by
  simp only [contents_eq_map, List.map_append]

theorem contents_eq_singleton_iff {fs : List Form} {d : Content} :
    contents fs = [d] ↔ ∃ f, fs = [f] ∧ f.content = d := by
  rw [contents_eq_map, List.map_eq_singleton_iff]

/-! ## Forms as tokens -/

mutual

/-- The tokens that the form was read from. The first element of a quoted form stands for the quote
mark and has no token of its own. -/
def spellings : Form → List Spelling
  | atom _ t => [t.spelling]
  | group shape elems t =>
    if t.kind = .quote then t.spelling :: (spellingsEach elems).tail.flatten
    else t.spelling :: ((spellingsEach elems).flatten ++ [shape.closing])

/-- The tokens of each of the forms. -/
def spellingsEach : List Form → List (List Spelling)
  | [] => []
  | f :: fs => f.spellings :: spellingsEach fs

end

theorem spellingsEach_eq_map (fs : List Form) : spellingsEach fs = fs.map spellings := by
  induction fs with
  | nil => rfl
  | cons f fs ih => rw [spellingsEach, ih, List.map_cons]

end Form

/-! ## The grammar -/

/-- The atom that a token spells. A numeral that is not a signed word of 64 bits spells none. -/
def atom? : Spelling → Option Atom
  | (.symbol, name) => some (.symbol name)
  | (.string, text) => some (.string text)
  | (.number, numeral) => (numeralWord? numeral.toList).map .number
  | (.boolean b, _) => some (.boolean b)
  | (.nil, _) => some .nil
  | _ => none

/-- What a quote mark before a form stands for. -/
def Content.quote (d : Content) : Content := .group .list [.atom (.symbol "quote"), d]

/-- The tokens spell the data, one after the other. A datum is an atom, a quote mark and a datum, or
data between matching brackets. -/
inductive Spells : List Spelling → List Content → Prop where
  | nil : Spells [] []
  | atom {w : Spelling} {ws : List Spelling} {a : Atom} {ds : List Content} (h : atom? w = some a)
      (rest : Spells ws ds) : Spells (w :: ws) (.atom a :: ds)
  | quote {us ws : List Spelling} {d : Content} {ds : List Content} (quoted : Spells us [d])
      (rest : Spells ws ds) : Spells (quoteMark :: (us ++ ws)) (d.quote :: ds)
  | group {us ws : List Spelling} {es ds : List Content} (shape : Shape) (inner : Spells us es)
      (rest : Spells ws ds) :
      Spells (shape.opening :: (us ++ shape.closing :: ws)) (.group shape es :: ds)

theorem Spells.append {us ws : List Spelling} {ds es : List Content} (h : Spells us ds)
    (h' : Spells ws es) : Spells (us ++ ws) (ds ++ es) := by
  induction h with
  | nil => exact h'
  | atom ha _ ih => exact .atom ha ih
  | quote hquoted _ _ ih =>
    rw [List.cons_append, List.append_assoc]
    exact .quote hquoted ih
  | group shape hinner _ _ ih =>
    rw [List.cons_append, List.append_assoc, List.cons_append]
    exact .group shape hinner ih

/-! ## Nothing is lost -/

/-- The tokens spell the forms and can be had back from them. -/
def Form.Keeps (ws : List Spelling) (fs : List Form) : Prop :=
  Spells ws (contents fs) ∧ fs.flatMap spellings = ws

namespace Form.Keeps

variable {ws us : List Spelling} {f : Form} {fs gs : List Form} {t : Token}

theorem nil : Keeps [] [] := ⟨.nil, rfl⟩

theorem append (h : Keeps us fs) (h' : Keeps ws gs) : Keeps (us ++ ws) (fs ++ gs) := by
  refine ⟨?_, ?_⟩
  · rw [contents_append]
    exact h.1.append h'.1
  · rw [List.flatMap_append, h.2, h'.2]

theorem atom {a : Atom} (h : atom? t.spelling = some a) : Keeps [t.spelling] [.atom a t] :=
  ⟨.atom h .nil, rfl⟩

theorem quote (ht : t.spelling = quoteMark) (h : Keeps ws [f]) :
    Keeps (quoteMark :: ws) [.quote t f] := by
  have hkind : t.kind = .quote := congrArg Prod.fst ht
  refine ⟨?_, ?_⟩
  · have := Spells.quote h.1 .nil
    rwa [List.append_nil] at this
  · have hws := h.2
    simp only [List.flatMap_cons, List.flatMap_nil, List.append_nil] at hws
    simp [Form.quote, spellings, spellingsEach, hkind, ht, hws]

theorem group {shape : Shape} (ht : t.spelling = shape.opening) (h : Keeps ws fs) :
    Keeps (shape.opening :: (ws ++ [shape.closing])) [.group shape fs t] := by
  have hkind : t.kind ≠ .quote := by
    rw [show t.kind = .opening shape from congrArg Prod.fst ht]
    nofun
  refine ⟨.group shape h.1 .nil, ?_⟩
  simp only [List.flatMap_cons, List.flatMap_nil, List.append_nil, spellings, if_neg hkind, ht,
    spellingsEach_eq_map, ← List.flatMap_def, h.2]

end Form.Keeps

/-- The open constructs, innermost first, are what the tokens leave open. -/
inductive Unclosed.Stand : List Unclosed → List Spelling → Prop where
  | nil : Stand [] []
  | group {pending : List Unclosed} {us ws : List Spelling} {shape : Shape} {t : Token}
      {elems : List Form} (outer : Stand pending us) (ht : t.spelling = shape.opening)
      (inner : Form.Keeps ws elems.reverse) :
      Stand (.group shape t elems :: pending) (us ++ shape.opening :: ws)
  | quote {pending : List Unclosed} {us : List Spelling} {mark : Token} (outer : Stand pending us)
      (ht : mark.spelling = quoteMark) : Stand (.quote mark :: pending) (us ++ [quoteMark])

namespace Reading

/-- What is finished and what is still open is what the tokens spell. -/
def Stands (r : Reading) (ws : List Spelling) : Prop :=
  ∃ us vs, Form.Keeps us r.forms.reverse ∧ Unclosed.Stand r.pending vs ∧ ws = us ++ vs

/-- A completed form is taken in with its tokens. -/
theorem stands_deliver {f : Form} {forms : List Form} {pending : List Unclosed}
    {us vs ws : List Spelling} (hforms : Form.Keeps us forms.reverse)
    (hpending : Unclosed.Stand pending vs) (hf : Form.Keeps ws [f]) :
    (deliver f forms pending).Stands (us ++ vs ++ ws) := by
  induction hpending generalizing f ws with
  | nil =>
    refine ⟨us ++ ws, [], ?_, .nil, by simp⟩
    rw [deliver, List.reverse_cons]
    exact hforms.append hf
  | @group pending vs ws' shape t elems houter ht hinner _ =>
    refine ⟨us, vs ++ shape.opening :: (ws' ++ ws), hforms, .group houter ht ?_, by simp⟩
    rw [List.reverse_cons]
    exact hinner.append hf
  | quote houter ht ih =>
    -- the form completes the quote, which is delivered in its turn
    have := ih (hf.quote ht)
    rw [deliver]
    simpa using this

theorem Stands.add {r : Reading} {ws us : List Spelling} {f : Form} (h : r.Stands ws)
    (hf : Form.Keeps us [f]) : (r.add f).Stands (ws ++ us) := by
  obtain ⟨_, _, hforms, hpending, rfl⟩ := h
  exact stands_deliver hforms hpending hf

theorem Stands.close {r r' : Reading} {ws : List Spelling} {shape : Shape} {t : Token}
    (h : r.Stands ws) (hr : r.close shape t = .ok r') : r'.Stands (ws ++ [shape.closing]) := by
  obtain ⟨pending, forms⟩ := r
  obtain ⟨us, vs, hforms, hpending, rfl⟩ := h
  cases hpending with
  | nil | quote => cases hr
  | @group pending vs ws shape' start elems houter ht hinner =>
    simp only [Reading.close] at hr
    split at hr
    · next hs =>
      subst hs
      cases hr
      have := stands_deliver hforms houter (hinner.group ht)
      simpa using this
    · cases hr

/-- Reading a token takes in this token. -/
theorem Stands.step {r r' : Reading} {ws : List Spelling} {t : Token} (h : r.Stands ws)
    (ht : t.Genuine) (hr : r.step t = .ok r') : r'.Stands (ws ++ [t.spelling]) := by
  rcases t with ⟨kind, lexeme, line⟩
  cases kind with
  | opening shape =>
    cases hr
    obtain ⟨us, vs, hforms, hpending, rfl⟩ := h
    rw [List.append_assoc, show Token.spelling _ = shape.opening from ht]
    exact ⟨us, _, hforms, .group hpending ht .nil, rfl⟩
  | closing shape =>
    rw [show Token.spelling _ = shape.closing from ht]
    exact h.close hr
  | quote =>
    cases hr
    obtain ⟨us, vs, hforms, hpending, rfl⟩ := h
    rw [List.append_assoc, show Token.spelling _ = quoteMark from ht]
    exact ⟨us, _, hforms, .quote hpending ht, rfl⟩
  | symbol | string | boolean | nil =>
    cases hr
    exact h.add (.atom rfl)
  | number =>
    simp only [Reading.step] at hr
    split at hr
    · next n hn =>
      cases hr
      exact h.add (.atom (by simp [Token.spelling, atom?, hn]))
    · cases hr

theorem Stands.steps {r r' : Reading} {ws : List Spelling} {ts : List Token} (h : r.Stands ws)
    (hts : ∀ t ∈ ts, t.Genuine) (hr : r.steps ts = .ok r') :
    r'.Stands (ws ++ ts.map Token.spelling) := by
  induction ts generalizing r ws with
  | nil =>
    cases hr
    simpa using h
  | cons t ts ih =>
    obtain ⟨ht, hts⟩ := List.forall_mem_cons.mp hts
    rw [Reading.steps] at hr
    split at hr
    · cases hr
    · next r₁ hstep =>
      have := ih (h.step ht hstep) hts hr
      rwa [List.append_assoc] at this

end Reading

/-- The forms of a text keep its tokens. -/
theorem keeps_of_read {source : String} {fs : List Form} (h : read source = .ok fs) :
    ∃ ts, Cursor.Lexes ⟨1, source.toList⟩ ts ∧ Form.Keeps (ts.map Token.spelling) fs := by
  rw [read, Lexed.forms] at h
  split at h
  · cases h
  · next r hsteps =>
    cases hstop : (lex source).stop with
    | fault f => rw [hstop] at h; cases h
    | endOfText line =>
      have hlexes : Cursor.Lexes ⟨1, source.toList⟩ (lex source).tokens :=
        Cursor.lexes_iff.mpr ⟨line, by rw [← hstop]; rfl⟩
      refine ⟨_, hlexes, ?_⟩
      have hstart : Reading.start.Stands [] := ⟨[], [], .nil, .nil, rfl⟩
      obtain ⟨us, vs, hforms, hpending, hws⟩ := hstart.steps hlexes.genuine hsteps
      rw [hstop, Reading.finish] at h
      split at h
      · next hempty =>
        cases h
        rw [List.isEmpty_iff.mp hempty] at hpending
        cases hpending
        rw [List.nil_append, List.append_nil] at hws
        rwa [hws]
      · cases h

/-! ## Everything is accepted -/

namespace Reading

theorem step_of_atom? {r : Reading} {t : Token} {a : Atom} (h : atom? t.spelling = some a) :
    r.step t = .ok (r.add (.atom a t)) := by
  rcases t with ⟨kind, lexeme, line⟩
  cases kind with
  | opening | closing | quote => cases h
  | symbol | string | boolean | nil => cases h; rfl
  | number =>
    simp only [Token.spelling, atom?, Option.map_eq_some_iff] at h
    obtain ⟨n, hn, rfl⟩ := h
    simp only [Reading.step, hn]

theorem step_of_opening {r : Reading} {t : Token} {shape : Shape}
    (h : t.spelling = shape.opening) :
    r.step t = .ok ⟨.group shape t [] :: r.pending, r.forms⟩ := by
  have hkind : t.kind = .opening shape := congrArg Prod.fst h
  simp only [Reading.step, hkind]

theorem step_of_closing {r : Reading} {t : Token} {shape : Shape}
    (h : t.spelling = shape.closing) : r.step t = r.close shape t := by
  have hkind : t.kind = .closing shape := congrArg Prod.fst h
  simp only [Reading.step, hkind]

theorem step_of_quoteMark {r : Reading} {t : Token} (h : t.spelling = quoteMark) :
    r.step t = .ok ⟨.quote t :: r.pending, r.forms⟩ := by
  have hkind : t.kind = .quote := congrArg Prod.fst h
  simp only [Reading.step, hkind]

theorem foldl_add_group {shape : Shape} {t : Token} {elems forms : List Form}
    {pending : List Unclosed} (fs : List Form) :
    fs.foldl add ⟨.group shape t elems :: pending, forms⟩ =
      ⟨.group shape t (fs.reverse ++ elems) :: pending, forms⟩ := by
  induction fs generalizing elems with
  | nil => rfl
  | cons f fs ih => simp [add, deliver, ih]

theorem foldl_add_start {forms : List Form} (fs : List Form) :
    fs.foldl add ⟨[], forms⟩ = ⟨[], fs.reverse ++ forms⟩ := by
  induction fs generalizing forms with
  | nil => rfl
  | cons f fs ih => simp [add, deliver, ih]

/-- From any state the reader gets through tokens that spell something, and takes in what they
spell. -/
theorem steps_of_spells {ws : List Spelling} {ds : List Content} (h : Spells ws ds)
    {ts : List Token} (hts : ts.map Token.spelling = ws) (r : Reading) :
    ∃ fs, Form.contents fs = ds ∧ r.steps ts = .ok (fs.foldl add r) := by
  induction h generalizing ts r with
  | nil =>
    rw [List.map_eq_nil_iff] at hts
    subst hts
    exact ⟨[], rfl, rfl⟩
  | @atom w ws a ds ha _ ih =>
    obtain ⟨t, ts, rfl, rfl, hrest⟩ := List.map_eq_cons_iff.mp hts
    obtain ⟨fs, rfl, hfs⟩ := ih hrest (r.add (.atom a t))
    refine ⟨.atom a t :: fs, rfl, ?_⟩
    rw [Reading.steps, step_of_atom? ha, List.foldl_cons]
    exact hfs
  | @quote us ws d ds _ _ ihquoted ih =>
    obtain ⟨t, ts, rfl, ht, hts⟩ := List.map_eq_cons_iff.mp hts
    obtain ⟨ts₁, ts₂, rfl, hts₁, hts₂⟩ := List.map_eq_append_iff.mp hts
    obtain ⟨fs₁, hfs₁, hsteps₁⟩ := ihquoted hts₁ ⟨.quote t :: r.pending, r.forms⟩
    obtain ⟨f, rfl, rfl⟩ := Form.contents_eq_singleton_iff.mp hfs₁
    obtain ⟨fs, rfl, hfs⟩ := ih hts₂ (r.add (.quote t f))
    refine ⟨.quote t f :: fs, rfl, ?_⟩
    rw [Reading.steps, step_of_quoteMark ht]
    simp only [steps_append, hsteps₁]
    exact hfs
  | @group us ws es ds shape _ _ ihinner ih =>
    obtain ⟨t, ts, rfl, ht, hts⟩ := List.map_eq_cons_iff.mp hts
    obtain ⟨ts₁, ts₂, rfl, hts₁, hts₂⟩ := List.map_eq_append_iff.mp hts
    obtain ⟨u, ts₂, rfl, hu, hts₂⟩ := List.map_eq_cons_iff.mp hts₂
    obtain ⟨fs₁, rfl, hsteps₁⟩ := ihinner hts₁ ⟨.group shape t [] :: r.pending, r.forms⟩
    obtain ⟨fs, rfl, hfs⟩ := ih hts₂ (r.add (.group shape fs₁ t))
    refine ⟨.group shape fs₁ t :: fs, rfl, ?_⟩
    rw [Reading.steps, step_of_opening ht]
    simp only [steps_append, hsteps₁, foldl_add_group, Reading.steps, step_of_closing hu, close,
      if_true, List.append_nil, List.reverse_reverse]
    exact hfs

end Reading

/-- A text whose tokens spell data is read, as these data. -/
theorem read_of_spells {source : String} {ts : List Token} {ds : List Content}
    (hlexes : Cursor.Lexes ⟨1, source.toList⟩ ts) (h : Spells (ts.map Token.spelling) ds) :
    ∃ fs, read source = .ok fs ∧ Form.contents fs = ds := by
  obtain ⟨line, hlex⟩ := Cursor.lexes_iff.mp hlexes
  obtain ⟨fs, hfs, hsteps⟩ := Reading.steps_of_spells h rfl Reading.start
  refine ⟨fs, ?_, hfs⟩
  rw [read, lex, hlex]
  simp only [Lexed.forms, hsteps]
  rw [Reading.start, Reading.foldl_add_start]
  simp [Reading.finish]

/-- The reader accepts exactly the texts that are used up by their tokens and whose tokens are a
sequence of data, and the forms that it gives flatten to these tokens. -/
theorem read_iff_spells (source : String) :
    ((∃ fs, read source = .ok fs) ↔
      ∃ ts, Cursor.Lexes ⟨1, source.toList⟩ ts ∧ ∃ ds, Spells (ts.map Token.spelling) ds) ∧
    ∀ fs, read source = .ok fs → ∃ ts, Cursor.Lexes ⟨1, source.toList⟩ ts ∧
      Spells (ts.map Token.spelling) (Form.contents fs) ∧
        fs.flatMap Form.spellings = ts.map Token.spelling := by
  refine ⟨⟨?_, ?_⟩, ?_⟩
  · rintro ⟨fs, h⟩
    obtain ⟨ts, hlexes, hkeeps⟩ := keeps_of_read h
    exact ⟨ts, hlexes, _, hkeeps.1⟩
  · rintro ⟨ts, hlexes, ds, h⟩
    obtain ⟨fs, hread, -⟩ := read_of_spells hlexes h
    exact ⟨fs, hread⟩
  · intro fs h
    exact keeps_of_read h

end TaggedLisp
