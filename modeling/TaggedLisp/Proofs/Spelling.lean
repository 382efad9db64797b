import Mathlib.Data.List.TakeWhile
import TaggedLisp.Machine.Text
import TaggedLisp.Proofs.Label

/-!
# How labels are spelled

A label is spelled with letters, digits and underscores of ASCII, whatever the names in the program
are. Many names have one spelling, and the spelling of a closure could be that of the code of
another function. Different labels are spelled differently all the same when the functions that are
numbered alike are called alike (`Label.render_injective`): the number of a label can be read off
from its spelling, and with it the name of the function.
-/

namespace TaggedLisp

/-! ## Characters -/

/-- Letters, digits and underscores, of which a digit is not the first. -/
structure IsIdentifier (s : String) : Prop where
  ne_nil : s.toList ≠ []
  chars : ∀ c ∈ s.toList, c.isAlphanum = true ∨ c = '_'
  head : ∀ c, s.toList.head? = some c → c.isDigit = false

namespace IsIdentifier

variable {s s' : String}

theorem iff_all : IsIdentifier s ↔ s.toList ≠ [] ∧
    s.toList.all (fun c ↦ c.isAlphanum || c == '_') = true ∧
      s.toList.head?.all (fun c ↦ !c.isDigit) = true := by
  simp only [List.all_eq_true, Option.all_eq_true, Bool.or_eq_true, beq_iff_eq, Bool.not_eq_true']
  refine ⟨fun h ↦ ⟨h.ne_nil, h.chars, h.head⟩, ?_⟩
  rintro ⟨hne, hchars, hhead⟩
  exact ⟨hne, hchars, hhead⟩

instance (s : String) : Decidable (IsIdentifier s) := decidable_of_iff' _ iff_all

/-- More letters, digits and underscores may follow. -/
theorem append (h : IsIdentifier s) (h' : ∀ c ∈ s'.toList, c.isAlphanum = true ∨ c = '_') :
    IsIdentifier (s ++ s') where
  ne_nil := by simp [h.ne_nil]
  chars c hc := by
    rcases List.mem_append.mp (String.toList_append ▸ hc) with hc | hc
    · exact h.chars c hc
    · exact h' c hc
  head c hc := by
    rw [String.toList_append, List.head?_append_of_ne_nil _ h.ne_nil] at hc
    exact h.head c hc

end IsIdentifier

theorem chars_toString (n : Nat) : ∀ c ∈ (toString n).toList, c.isDigit = true := by
  intro c hc
  rw [Nat.toString_eq_ofList_toDigits, String.toList_ofList] at hc
  exact Nat.isDigit_of_mem_toDigits (by decide) (by decide) hc

theorem chars_mangle (s : String) : ∀ c ∈ (mangle s).toList, c.isAlphanum = true ∨ c = '_' := by
  intro c hc
  rw [mangle, String.toList_ofList] at hc
  obtain ⟨d, -, rfl⟩ := List.mem_map.mp hc
  split
  · next hd => simpa using hd
  · exact Or.inr rfl

private theorem isAlphanum_of_isDigit {c : Char} (h : c.isDigit = true) :
    c.isAlphanum = true ∨ c = '_' := Or.inl (by simp [Char.isAlphanum, h])

theorem isIdentifier_functionLabel (name : Option String) (id : Nat) :
    IsIdentifier (functionLabel name id) := by
  have hid := fun c hc ↦ isAlphanum_of_isDigit (chars_toString id c hc)
  cases name with
  | none => exact .append (s := "anon_") (by decide) hid
  | some name =>
    have hfn : IsIdentifier "fn" := by decide
    have hseparator : IsIdentifier "_" := by decide
    exact ((hfn.append hid).append hseparator.chars).append (chars_mangle name)

/-- Labels that a program makes or takes from the runtime are identifiers. -/
theorem Label.isIdentifier_render {l : Label} (h : l ∈ Machine.externs ∨ l = .start ∨
    l.number.isSome) : IsIdentifier l.render := by
  rcases h with h | rfl | h
  · have hall : ∀ l ∈ Machine.externs, IsIdentifier l.render := by decide
    exact hall l h
  · decide
  · have hdigits (id : Nat) := fun c hc ↦ isAlphanum_of_isDigit (chars_toString id c hc)
    cases l with
    | start | routine | builtin => cases h
    | yes id => exact .append (s := "true_") (by decide) (hdigits id)
    | no id => exact .append (s := "false_") (by decide) (hdigits id)
    | after id => exact .append (s := "after_") (by decide) (hdigits id)
    | text id => exact .append (s := "string_") (by decide) (hdigits id)
    | code name id => exact isIdentifier_functionLabel name id
    | closure name id =>
      have hsuffix : IsIdentifier "_closure" := by decide
      exact (isIdentifier_functionLabel name id).append hsuffix.chars

/-! ## Reading spellings -/

namespace Label

/-- What stands before and behind the number in the spelling of a label. -/
def around : Label → String × String
  | start | routine _ | builtin _ => ("", "")
  | yes _ => ("true_", "")
  | no _ => ("false_", "")
  | after _ => ("after_", "")
  | code (some name) _ => ("fn", "_" ++ mangle name)
  | code none _ => ("anon_", "")
  | closure (some name) _ => ("fn", "_" ++ mangle name ++ "_closure")
  | closure none _ => ("anon_", "_closure")
  | text _ => ("string_", "")

/-- The name of the function that a label is made for. -/
def function? : Label → Option (Option String)
  | code name _ | closure name _ => some name
  | start | routine _ | builtin _ | yes _ | no _ | after _ | text _ => none

theorem render_eq {l : Label} {id : Nat} (h : l.number = some id) :
    l.render.toList = l.around.1.toList ++ ((toString id).toList ++ l.around.2.toList) := by
  cases l with
  | start | routine | builtin => cases h
  | yes | no | after | text =>
    cases h
    simp [render, around]
  | code name id | closure name id =>
    cases h
    cases name <;> simp [render, around, functionLabel]

theorem around_fst (l : Label) : ∀ c ∈ l.around.1.toList, c.isDigit = false := by
  have hall : ∀ s ∈ ["", "true_", "false_", "after_", "fn", "anon_", "string_"],
      s.toList.all (fun c ↦ !c.isDigit) = true := by decide
  have hfst : l.around.1 ∈ ["", "true_", "false_", "after_", "fn", "anon_", "string_"] := by
    cases l with
    | start | routine | builtin | yes | no | after | text => simp [around]
    | code name | closure name => cases name <;> simp [around]
  simpa using List.all_eq_true.mp (hall _ hfst)

theorem around_snd (l : Label) : ∀ c, l.around.2.toList.head? = some c → c.isDigit = false := by
  have hempty : l.around.2 = "" ∨ ∃ s, l.around.2 = "_" ++ s := by
    cases l with
    | start | routine | builtin | yes | no | after | text => exact Or.inl rfl
    | code name =>
      cases name with
      | none => exact Or.inl rfl
      | some name => exact Or.inr ⟨_, rfl⟩
    | closure name =>
      cases name with
      | none => exact Or.inr ⟨"closure", rfl⟩
      | some name => exact Or.inr ⟨_, String.append_assoc ..⟩
  intro c hc
  rcases hempty with h | ⟨s, h⟩
  · simp [h] at hc
  · rw [h, String.toList_append] at hc
    obtain rfl : '_' = c := by simpa using hc
    rfl

/-- Digits between other characters can be told from those. -/
theorem split_unique {before before' digits digits' behind behind' : List Char}
    (hbefore : ∀ c ∈ before, c.isDigit = false) (hbefore' : ∀ c ∈ before', c.isDigit = false)
    (hne : digits ≠ []) (hne' : digits' ≠ [])
    (hdigits : ∀ c ∈ digits, c.isDigit = true) (hdigits' : ∀ c ∈ digits', c.isDigit = true)
    (hbehind : ∀ c, behind.head? = some c → c.isDigit = false)
    (hbehind' : ∀ c, behind'.head? = some c → c.isDigit = false)
    (h : before ++ (digits ++ behind) = before' ++ (digits' ++ behind')) :
    before = before' ∧ digits = digits' ∧ behind = behind' := by
  have htake : ∀ (p : Char → Bool) (as bs : List Char), (∀ c ∈ as, p c = true) →
      (∀ c, bs.head? = some c → p c = false) → (as ++ bs).takeWhile p = as := by
    intro p as bs has hbs
    rw [List.takeWhile_append_of_pos has]
    cases bs with
    | nil => simp
    | cons b bs => simp [hbs b rfl]
  have hhead : ∀ {digits behind : List Char}, digits ≠ [] → (∀ c ∈ digits, c.isDigit = true) →
      ∀ c, (digits ++ behind).head? = some c → (!c.isDigit) = false := by
    intro digits behind hne hdigits c hc
    rw [List.head?_append_of_ne_nil _ hne] at hc
    simp [hdigits c (List.mem_of_head? hc)]
  have hfront : before = before' := by
    have htake₁ := htake (!·.isDigit) before (digits ++ behind)
      (fun c hc ↦ by simp [hbefore c hc]) (hhead hne hdigits)
    have htake₂ := htake (!·.isDigit) before' (digits' ++ behind')
      (fun c hc ↦ by simp [hbefore' c hc]) (hhead hne' hdigits')
    rw [← htake₁, h, htake₂]
  subst hfront
  have hrest := List.append_cancel_left h
  have hmiddle : digits = digits' := by
    rw [← htake _ _ _ hdigits hbehind, hrest, htake _ _ _ hdigits' hbehind']
  subst hmiddle
  exact ⟨rfl, rfl, List.append_cancel_left hrest⟩

/-- The number of a label and what stands around it can be read off from the spelling. -/
theorem around_of_render {l l' : Label} {id id' : Nat} (hl : l.number = some id)
    (hl' : l'.number = some id') (h : l.render = l'.render) : id = id' ∧ l.around = l'.around := by
  have hne : ∀ n : Nat, (toString n).toList ≠ [] := fun n ↦ by
    rw [Nat.toString_eq_ofList_toDigits, String.toList_ofList]
    exact Nat.toDigits_ne_nil
  have hchars := congrArg String.toList h
  rw [render_eq hl, render_eq hl'] at hchars
  obtain ⟨hfst, hid, hsnd⟩ := split_unique (around_fst l) (around_fst l') (hne id) (hne id')
    (chars_toString id) (chars_toString id') (around_snd l) (around_snd l') hchars
  exact ⟨toString_injective (String.toList_injective hid),
    Prod.ext (String.toList_injective hfst) (String.toList_injective hsnd)⟩

theorem around_code_ne (name : Option String) (id id' : Nat) :
    (code name id).around ≠ (closure name id').around := by
  intro h
  have hlength := congrArg (fun a : String × String ↦ a.2.length) h
  cases name with
  | none => exact absurd (show "".length = "_closure".length from hlength) (by decide)
  | some name =>
    simp only [around] at hlength
    rw [String.length_append ("_" ++ mangle name)] at hlength
    exact absurd hlength (Nat.ne_of_lt (Nat.lt_add_of_pos_right (by decide)))

/-- Labels with numbers are spelled differently when they differ, unless functions with one number
have different names. -/
theorem render_injective {l l' : Label} (hl : l.number.isSome) (hl' : l'.number.isSome)
    (hname : l.number = l'.number →
      ∀ f f', l.function? = some f → l'.function? = some f' → f = f')
    (h : l.render = l'.render) : l = l' := by
  obtain ⟨id, hid⟩ := Option.isSome_iff_exists.mp hl
  obtain ⟨id', hid'⟩ := Option.isSome_iff_exists.mp hl'
  obtain ⟨rfl, haround⟩ := around_of_render hid hid' h
  have hname := hname (hid.trans hid'.symm)
  have hfst := congrArg Prod.fst haround
  cases l with
  | start | routine | builtin => cases hid
  | yes | no | after | text =>
    cases hid
    cases l' with
    | start | routine | builtin => cases hid'
    | yes | no | after | text =>
      cases hid'
      simp [around] at hfst ⊢
    | code name | closure name => cases name <;> simp [around] at hfst
  | code name =>
    cases hid
    cases l' with
    | start | routine | builtin => cases hid'
    | yes | no | after | text => cases name <;> simp [around] at hfst
    | code name' =>
      cases hid'
      rw [hname name name' rfl rfl]
    | closure name' =>
      obtain rfl := hname name name' rfl rfl
      exact absurd haround (around_code_ne _ _ _)
  | closure name =>
    cases hid
    cases l' with
    | start | routine | builtin => cases hid'
    | yes | no | after | text => cases name <;> simp [around] at hfst
    | code name' =>
      obtain rfl := hname name name' rfl rfl
      exact absurd haround.symm (around_code_ne _ _ _)
    | closure name' =>
      cases hid'
      rw [hname name name' rfl rfl]

/-- Labels with numbers start with a letter. -/
theorem head_render {l : Label} (hl : l.number.isSome) : l.render.toList.head? ≠ some '_' := by
  cases l with
  | start | routine | builtin => cases hl
  | yes | no | after | text => simp [render]
  | code name | closure name => cases name <;> simp [render, functionLabel]

end Label

/-! ## Labels of a program -/

/-- Labels with numbers from `lo` on and below `hi`. Those of functions with one number are labels
of one function. -/
structure Owned (lo hi : Nat) (ls : List Label) : Prop extends Numbered lo hi ls where
  owner : ∀ l ∈ ls, ∀ l' ∈ ls, l.number = l'.number →
    ∀ f f', l.function? = some f → l'.function? = some f' → f = f'

namespace Owned

variable {lo mid hi : Nat} {ls ls' : List Label}

theorem nil (h : lo ≤ hi) : Owned lo hi [] := ⟨.nil h, by simp⟩

theorem append (h : Owned lo mid ls) (h' : Owned mid hi ls') : Owned lo hi (ls ++ ls') where
  toNumbered := h.toNumbered.append h'.toNumbered
  owner := by
    -- labels of different ranges have different numbers
    have hne : ∀ l ∈ ls, ∀ l' ∈ ls', l.number ≠ l'.number := by
      intro l hl l' hl' heq
      obtain ⟨id, hid, -, hlt⟩ := h.number l hl
      obtain ⟨id', hid', hle, -⟩ := h'.number l' hl'
      obtain rfl : id = id' := Option.some.inj (hid.symm.trans (heq.trans hid'))
      exact Nat.not_le.mpr hlt hle
    intro l hl l' hl' heq
    rcases List.mem_append.mp hl with hl | hl <;> rcases List.mem_append.mp hl' with hl' | hl'
    · exact h.owner l hl l' hl' heq
    · exact absurd heq (hne l hl l' hl')
    · exact absurd heq.symm (hne l' hl' l hl)
    · exact h'.owner l hl l' hl' heq

theorem perm (h : Owned lo hi ls) (hls : ls.Perm ls') : Owned lo hi ls' where
  toNumbered := h.toNumbered.perm hls
  owner l hl l' hl' := h.owner l (hls.mem_iff.mpr hl) l' (hls.mem_iff.mpr hl')

/-- Different labels that one construct makes of its number. -/
theorem single {id : Nat} (name : Option String) (hnodup : ls.Nodup)
    (hls : ∀ l ∈ ls, l.number = some id ∧ ∀ f, l.function? = some f → f = name) :
    Owned id (id + 1) ls where
  le := Nat.le_succ id
  nodup := hnodup
  number l hl := ⟨id, (hls l hl).1, Nat.le_refl id, Nat.lt_succ_self id⟩
  owner l hl l' hl' _ f f' hf hf' := by rw [(hls l hl).2 f hf, (hls l' hl').2 f' hf']

/-- Together with the start of a program and what it takes from the runtime, such labels are spelled
differently. -/
theorem nodup_render (h : Owned lo hi ls) :
    ((Label.start :: ls ++ Machine.externs).map Label.render).Nodup := by
  have hnumber : ∀ l ∈ ls, l.number.isSome := fun l hl ↦ by
    obtain ⟨id, hid, -⟩ := h.number l hl
    rw [hid, Option.isSome_some]
  have hfixed : ((Label.start :: Machine.externs).map Label.render).Nodup := by decide
  have hhead : ∀ l ∈ Label.start :: Machine.externs, l.render.toList.head? = some '_' := by decide
  have hls : (ls.map Label.render).Nodup := List.Nodup.map_on
    (fun l hl l' hl' ↦ Label.render_injective (hnumber l hl) (hnumber l' hl')
      (h.owner l hl l' hl')) h.nodup
  have happend : ((ls ++ Label.start :: Machine.externs).map Label.render).Nodup := by
    rw [List.map_append]
    refine List.nodup_append.mpr ⟨hls, hfixed, ?_⟩
    rintro _ hl _ hl' rfl
    obtain ⟨l, hl, hrender⟩ := List.mem_map.mp hl
    obtain ⟨l', hl', hrender'⟩ := List.mem_map.mp hl'
    exact Label.head_render (hnumber l hl) (hrender.trans hrender'.symm ▸ hhead l' hl')
  have hperm : (ls ++ Label.start :: Machine.externs).Perm (Label.start :: ls ++ Machine.externs) :=
    List.perm_middle
  exact (hperm.map _).nodup_iff.mp happend

end Owned

end TaggedLisp
