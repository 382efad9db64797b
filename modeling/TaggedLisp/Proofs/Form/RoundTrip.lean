import TaggedLisp.Form.Printer
import TaggedLisp.Proofs.Form.Scanning

/-!
# Written forms are read back

A form that was read and is written again is read back as one form that says the same, exactly when
all characters of its strings are plain; otherwise reading it back ends with a fault
(`read_render_iff`). Only the strings can be at fault: symbols of a form that was read are words,
numbers are written as numerals that stand for them, and wherever the layout ends a line, words are
kept apart.

`Reads` says both halves at once of a piece of text and the data that it was written from, so that
they go through the layout of a form together.
-/

namespace TaggedLisp

/-! ## Induction over forms -/

/-- What holds of a form whenever it holds of its elements holds of every form. -/
@[elab_as_elim]
theorem Form.memberInduction {motive : Form → Prop} (atom : ∀ a t, motive (.atom a t))
    (group : ∀ shape elems t, (∀ f ∈ elems, motive f) → motive (.group shape elems t)) (f : Form) :
    motive f :=
  @Form.rec motive (fun fs ↦ ∀ f ∈ fs, motive f) atom group (List.forall_mem_nil _)
    (fun _ _ hf hfs ↦ List.forall_mem_cons.mpr ⟨hf, hfs⟩) f

/-! ## What is written -/

/-- The token that an atom is written as. -/
def Atom.word : Atom → Spelling
  | nil => (.nil, "nil")
  | boolean b => (.boolean b, toString b)
  | number n => (.number, toString n.toInt)
  | string s => (.string, s)
  | symbol name => (.symbol, name)

/-- The atom is written with plain characters only, if it is a string. -/
def Atom.Plain : Atom → Prop
  | string s => ∀ c ∈ s.toList, Text.Plain c
  | _ => True

/-- The name of the atom is one that a symbol can have in a text, if it is a symbol. -/
def Atom.Legible : Atom → Prop
  | symbol name => IsWord .symbol name.toList
  | _ => True

namespace Content

mutual

/-- The atoms of a datum, from left to right. -/
def atoms : Content → List Atom
  | atom a => [a]
  | group _ elems => atomsEach elems

/-- The atoms of data, from left to right. -/
def atomsEach : List Content → List Atom
  | [] => []
  | d :: ds => d.atoms ++ atomsEach ds

end

mutual

/-- The tokens that a datum is written as. -/
def words : Content → List Spelling
  | atom a => [a.word]
  | group shape elems => shape.opening :: (wordsEach elems ++ [shape.closing])

/-- The tokens that data are written as. -/
def wordsEach : List Content → List Spelling
  | [] => []
  | d :: ds => d.words ++ wordsEach ds

end

theorem atomsEach_append (ds es : List Content) :
    atomsEach (ds ++ es) = atomsEach ds ++ atomsEach es := by
  induction ds with
  | nil => rfl
  | cons d ds ih => rw [List.cons_append, atomsEach, ih, atomsEach, List.append_assoc]

theorem wordsEach_append (ds es : List Content) :
    wordsEach (ds ++ es) = wordsEach ds ++ wordsEach es := by
  induction ds with
  | nil => rfl
  | cons d ds ih => rw [List.cons_append, wordsEach, ih, wordsEach, List.append_assoc]

theorem atomsEach_singleton (d : Content) : atomsEach [d] = d.atoms := by
  rw [atomsEach, atomsEach, List.append_nil]

theorem wordsEach_singleton (d : Content) : wordsEach [d] = d.words := by
  rw [wordsEach, wordsEach, List.append_nil]

theorem mem_atomsEach {a : Atom} {ds : List Content} :
    a ∈ atomsEach ds ↔ ∃ d ∈ ds, a ∈ d.atoms := by
  induction ds with
  | nil => simp [atomsEach]
  | cons d ds ih => simp [atomsEach, ih]

theorem atom?_word (a : Atom) : atom? a.word = some a := by
  cases a with
  | number n => exact atom?_numeral n
  | nil | boolean | string | symbol => rfl

mutual

theorem spells_words : (d : Content) → Spells d.words [d]
  | atom a => .atom (atom?_word a) .nil
  | group shape elems => .group shape (spells_wordsEach elems) .nil

/-- The tokens that data are written as spell them. -/
theorem spells_wordsEach : (ds : List Content) → Spells (wordsEach ds) ds
  | [] => .nil
  | d :: ds => (spells_words d).append (spells_wordsEach ds)

end

end Content

/-- Symbols that were read have the names of words. -/
theorem Spells.legible {ws : List Spelling} {ds : List Content} (h : Spells ws ds)
    (hws : ∀ w ∈ ws, w.1 = .symbol → IsWord .symbol w.2.toList) :
    ∀ a ∈ Content.atomsEach ds, a.Legible := by
  induction h with
  | nil => simp [Content.atomsEach]
  | @atom w ws a ds ha _ ih =>
    obtain ⟨hw, hws⟩ := List.forall_mem_cons.mp hws
    refine List.forall_mem_cons.mpr ⟨?_, ih hws⟩
    obtain ⟨kind, lexeme⟩ := w
    cases kind with
    | opening | closing | quote => cases ha
    | string | boolean | nil => cases ha; trivial
    | number =>
      obtain ⟨n, -, rfl⟩ := Option.map_eq_some_iff.mp ha
      trivial
    | symbol => cases ha; exact hw rfl
  | quote _ _ ihquoted ih =>
    obtain ⟨-, hws⟩ := List.forall_mem_cons.mp hws
    obtain ⟨hus, hws⟩ := List.forall_mem_append.mp hws
    exact List.forall_mem_append.mpr
      ⟨List.forall_mem_cons.mpr ⟨isWord_quote, ihquoted hus⟩, ih hws⟩
  | group shape _ _ ihinner ih =>
    obtain ⟨-, hws⟩ := List.forall_mem_cons.mp hws
    obtain ⟨hus, hws⟩ := List.forall_mem_append.mp hws
    exact List.forall_mem_append.mpr ⟨ihinner hus, ih (List.forall_mem_cons.mp hws).2⟩

/-! ## Reading back -/

/-- The text that data were written as stands for them when all of their atoms are plain; otherwise
reading it ends with a fault. -/
def Reads (cs : List Char) (ds : List Content) (rest : List Char) : Prop :=
  ((∀ a ∈ Content.atomsEach ds, a.Plain) → Spelt cs (Content.wordsEach ds) rest) ∧
    ((∃ a ∈ Content.atomsEach ds, ¬a.Plain) → Spoils cs rest)

namespace Reads

variable {cs bs rest : List Char} {ds es : List Content}

theorem of_gap (h : Doc.Sets .line cs) : Reads cs [] rest :=
  ⟨fun _ ↦ spelt_gap h, by simp [Content.atomsEach]⟩

theorem nil : Reads [] [] rest := ⟨fun _ ↦ .nil, by simp [Content.atomsEach]⟩

theorem append (h : Reads cs ds (bs ++ rest)) (h' : Reads bs es rest) :
    Reads (cs ++ bs) (ds ++ es) rest := by
  rw [Reads, Content.atomsEach_append, Content.wordsEach_append]
  constructor
  · intro hplain
    obtain ⟨hds, hes⟩ := List.forall_mem_append.mp hplain
    exact (h.1 hds).append (h'.1 hes)
  · rintro ⟨a, ha, hplain⟩
    by_cases hds : ∀ a ∈ Content.atomsEach ds, a.Plain
    -- a fault of the second part shows only when the reader gets through the first one
    · have ha : a ∈ Content.atomsEach es :=
        (List.mem_append.mp ha).resolve_left fun hmem ↦ hplain (hds a hmem)
      exact (h.1 hds).spoils (h'.2 ⟨a, ha, hplain⟩)
    · push Not at hds
      exact (h.2 hds).append

theorem group (s : Shape) (h : Reads cs ds (s.closer :: rest)) :
    Reads (s.opener :: (cs ++ [s.closer])) [.group s ds] rest := by
  rw [Reads, Content.atomsEach_singleton, Content.wordsEach_singleton]
  have hopener := spelt_opener s (cs ++ [s.closer] ++ rest)
  constructor
  · intro hplain
    exact hopener.append ((h.1 hplain).append (spelt_closer s rest))
  · intro hspoiled
    exact hopener.spoils (h.2 hspoiled).append

theorem atom {a : Atom} (ha : a.Legible) (h : a.doc.Sets cs) (hrest : Ends rest) :
    Reads cs [.atom a] rest := by
  rw [Reads, Content.atomsEach_singleton, Content.wordsEach_singleton, Content.atoms,
    List.forall_mem_singleton]
  cases a with
  | string s =>
    cases h
    exact ⟨fun hplain ↦ spelt_quote hplain rest, fun hspoiled ↦ spoils_quote
      (by simpa [Atom.Plain] using hspoiled) rest⟩
  | nil =>
    cases h
    exact ⟨fun _ ↦ spelt_word isWord_nil hrest, by simp [Atom.Plain]⟩
  | boolean b =>
    cases h
    exact ⟨fun _ ↦ spelt_word (isWord_boolean b) hrest, by simp [Atom.Plain]⟩
  | number n =>
    cases h
    exact ⟨fun _ ↦ spelt_word (isWord_numeral n.toInt) hrest, by simp [Atom.Plain]⟩
  | symbol name =>
    cases h
    exact ⟨fun _ ↦ spelt_word ha hrest, by simp [Atom.Plain]⟩

end Reads

/-- Text between the elements of a sequence, and brackets around them, end a word. -/
theorem ends_of_setsTail {ds : List Doc} {bs rest : List Char} (h : Doc.SetsTail ds bs)
    (hrest : Ends rest) : Ends (bs ++ rest) := by
  cases h with
  | nil => exact hrest
  | cons hgap =>
    cases hgap with
    | space => exact ends_cons.mpr (by decide)
    | newline => exact ends_cons.mpr (by decide)

theorem ends_closer (s : Shape) (rest : List Char) : Ends (s.closer :: rest) := by
  rw [ends_cons]
  cases s <;> decide

/-- Brackets stand directly around the document. -/
theorem Shape.sets_enclose {s : Shape} {d : Doc} {cs : List Char}
    (h : (s.enclose (.group d)).Sets cs) :
    ∃ bs, d.Sets bs ∧ cs = s.opener :: (bs ++ [s.closer]) := by
  obtain ⟨l, r, hl, hr, henclose⟩ : ∃ l r : String, l.toList = [s.opener] ∧ r.toList = [s.closer] ∧
      s.enclose (.group d) = .word l ++ .group d ++ .word r := by
    cases s with
    | list => exact ⟨"(", ")", rfl, rfl, rfl⟩
    | vector => exact ⟨"[", "]", rfl, rfl, rfl⟩
  rw [henclose] at h
  obtain ⟨_, _, rfl, h, hright⟩ := h.cat
  obtain ⟨_, bs, rfl, hleft, hbody⟩ := h.cat
  cases hleft
  cases hright
  cases hbody with
  | group hbody => exact ⟨bs, hbody, by rw [hl, hr]; rfl⟩

namespace Form

/-- Elements of which each can be read back can be read back behind line ends. -/
theorem reads_tail {elems : List Form} {bs rest : List Char}
    (h : ∀ f ∈ elems, ∀ cs rest, f.doc.Sets cs → Ends rest → Reads cs [f.content] rest)
    (hbs : Doc.SetsTail (docs elems) bs) (hrest : Ends rest) : Reads bs (contents elems) rest := by
  induction elems generalizing bs with
  | nil =>
    cases hbs
    exact .nil
  | cons f elems ih =>
    obtain ⟨hf, helems⟩ := List.forall_mem_cons.mp h
    cases hbs with
    | cons hgap hhead htail =>
      have hfirst := hf _ _ hhead (ends_of_setsTail htail hrest)
      exact (Reads.of_gap hgap).append (hfirst.append (ih helems htail))

theorem mem_atoms_contents {a : Atom} {f : Form} {fs : List Form} (hf : f ∈ fs)
    (ha : a ∈ f.content.atoms) : a ∈ Content.atomsEach (contents fs) := by
  rw [Content.mem_atomsEach, contents_eq_map]
  exact ⟨f.content, List.mem_map_of_mem hf, ha⟩

/-- However a form is laid out, it is read back up to strings that are not plain. -/
theorem reads (f : Form) (hlegible : ∀ a ∈ f.content.atoms, a.Legible) {cs rest : List Char}
    (h : f.doc.Sets cs) (hrest : Ends rest) : Reads cs [f.content] rest := by
  induction f using memberInduction generalizing cs rest with
  | atom a t => exact .atom (hlegible a List.mem_cons_self) h hrest
  | group shape elems t ih =>
    cases h with
    | align h =>
      obtain ⟨bs, hnest, rfl⟩ := Shape.sets_enclose h
      refine .group shape ?_
      cases hnest with
      | nest hbody =>
        have hall : ∀ f ∈ elems, ∀ cs rest, f.doc.Sets cs → Ends rest →
            Reads cs [f.content] rest := by
          intro f hf cs rest hcs hrest
          refine ih f hf (fun a ha ↦ hlegible a ?_) hcs hrest
          exact mem_atoms_contents hf ha
        cases elems with
        | nil =>
          cases hbody
          exact .nil
        | cons f elems =>
          obtain ⟨hf, helems⟩ := List.forall_mem_cons.mp hall
          obtain ⟨as, bs, rfl, hhead, htail⟩ := hbody.joined
          have hcloser := ends_closer shape rest
          exact (hf _ _ hhead (ends_of_setsTail htail hcloser)).append
            (reads_tail helems htail hcloser)

end Form

/-- A text of which the tokens bring up a fault is not read. -/
theorem read_of_fault {source : String} {f : Fault} (h : (lex source).stop = .fault f) :
    ∃ fault, read source = .error fault := by
  rw [read, Lexed.forms]
  cases Reading.start.steps (lex source).tokens with
  | error fault => exact ⟨fault, rfl⟩
  | ok r => exact ⟨f, by rw [h]; rfl⟩

/-- Symbols of a form that was read are words. -/
theorem legible_of_read {source : String} {fs : List Form} {f : Form} (h : read source = .ok fs)
    (hf : f ∈ fs) : ∀ a ∈ f.content.atoms, a.Legible := by
  obtain ⟨ts, hlexes, hspells, -⟩ := keeps_of_read h
  intro a ha
  refine hspells.legible ?_ a (Form.mem_atoms_contents hf ha)
  intro w hw hkind
  obtain ⟨⟨kind, lexeme, line⟩, ht, rfl⟩ := List.mem_map.mp hw
  cases hkind
  exact hlexes.genuine _ ht

/-- All strings of the form are written with plain characters only. -/
def Form.Plain (f : Form) : Prop :=
  ∀ s, Atom.string s ∈ f.content.atoms → ∀ c ∈ s.toList, Text.Plain c

/-- A form that was read and is written is read back as one form that says the same exactly when its
strings are written with plain characters only, and otherwise reading it back ends with a fault.
This holds however the lines of the written form are broken. -/
theorem read_render_iff {source : String} {fs : List Form} {f : Form} (h : read source = .ok fs)
    (hf : f ∈ fs) :
    f.doc.Sets (f.render false).toList ∧ ∀ text : String, f.doc.Sets text.toList →
      ((∃ g, read text = .ok [g] ∧ g.content = f.content) ↔ f.Plain) ∧
      (¬f.Plain → ∃ fault, read text = .error fault) := by
  refine ⟨f.doc.sets_render Form.pageWidth, fun text htext ↦ ?_⟩
  obtain ⟨hspelt, hspoils⟩ := f.reads (legible_of_read h hf) htext ends_nil
  rw [Content.atomsEach_singleton, Content.wordsEach_singleton] at hspelt
  rw [Content.atomsEach_singleton] at hspoils
  have hback (hplain : f.Plain) : ∃ g, read text = .ok [g] ∧ g.content = f.content := by
    have hatoms : ∀ a ∈ f.content.atoms, a.Plain := by
      intro a ha
      cases a with
      | string s => exact hplain s ha
      | nil | boolean | number | symbol => trivial
    obtain ⟨line, ts, hts, hlex⟩ := hspelt hatoms 1
    have hend : Cursor.lex ⟨line, []⟩ = ⟨[], .endOfText line⟩ := Cursor.lex_of_finished rfl
    rw [List.append_nil, hend, List.append_nil] at hlex
    have hspells : Spells (ts.map Token.spelling) [f.content] := hts ▸ f.content.spells_words
    obtain ⟨gs, hread, hgs⟩ := read_of_spells (Cursor.lexes_iff.mpr ⟨line, hlex⟩) hspells
    obtain ⟨g, rfl, hg⟩ := Form.contents_eq_singleton_iff.mp hgs
    exact ⟨g, hread, hg⟩
  have hfault (hspoiled : ¬f.Plain) : ∃ fault, read text = .error fault := by
    rw [Form.Plain] at hspoiled
    push Not at hspoiled
    obtain ⟨s, hs, c, hc, hplain⟩ := hspoiled
    obtain ⟨fault, hstop⟩ := hspoils ⟨.string s, hs, fun hall ↦ hplain (hall c hc)⟩ 1
    rw [List.append_nil] at hstop
    exact read_of_fault hstop
  refine ⟨⟨?_, hback⟩, hfault⟩
  rintro ⟨g, hread, -⟩
  by_contra hplain
  obtain ⟨fault, herror⟩ := hfault hplain
  rw [hread] at herror
  cases herror

/-- A string that is written with an escape is read back. -/
theorem read_render_escaped :
    ∃ f, read "[\"a\\n\"]" = .ok [f] ∧ ∃ g, read (f.render false) = .ok [g] ∧
      g.content = f.content := by
  have h : read "[\"a\\n\"]" = .ok [.group .vector [.atom (.string "a\n") ⟨.string, "a\n", 1⟩]
      ⟨.opening .vector, "[", 1⟩] := by
    cbv
  obtain ⟨hset, hback⟩ := read_render_iff h List.mem_cons_self
  refine ⟨_, h, (hback _ hset).1.mpr ?_⟩
  intro s hs
  obtain rfl : s = "a\n" := by
    simpa [Form.content, Form.contents, Content.atoms, Content.atomsEach] using hs
  have hchars : "a\n".toList = ['a', '\n'] := by decide
  rw [hchars]
  exact List.forall_mem_cons.mpr ⟨by decide, List.forall_mem_singleton.mpr (by decide)⟩

end TaggedLisp
