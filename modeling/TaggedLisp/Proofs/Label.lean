import Mathlib.Data.List.Nodup
import Mathlib.Data.List.Perm.Basic
import TaggedLisp.Builtin
import TaggedLisp.Label

/-!
# Numbers of labels

A construct makes its labels of the numbers that it draws, so labels of different constructs differ.
`Numbered` says of labels that they are different and made of the numbers of a range; ranges that
follow each other give labels that differ. Trees and blocks know labels by their spelling only, and
`Spelled` says the same of the spellings of those labels that are jumped to.
-/

namespace TaggedLisp

/-- The number that a label is made of. -/
def Label.number : Label → Option Nat
  | yes id | no id | after id | code _ id | closure _ id | text id => some id
  | start | routine _ | builtin _ => none

/-- The closures of the builtin functions. -/
def builtinClosures : List (String × Label) := builtins.map fun b ↦ (b.name, .builtin b.symbol)

/-! ## Numbers of labels -/

/-- Different labels with numbers from `lo` on and below `hi`. -/
structure Numbered (lo hi : Nat) (ls : List Label) : Prop where
  le : lo ≤ hi
  nodup : ls.Nodup
  number : ∀ l ∈ ls, ∃ id, l.number = some id ∧ lo ≤ id ∧ id < hi

namespace Numbered

variable {lo mid hi : Nat} {ls ls' : List Label}

theorem nil (h : lo ≤ hi) : Numbered lo hi [] := ⟨h, List.nodup_nil, by simp⟩

theorem append (h : Numbered lo mid ls) (h' : Numbered mid hi ls') :
    Numbered lo hi (ls ++ ls') where
  le := Nat.le_trans h.le h'.le
  nodup := by
    refine List.nodup_append.mpr ⟨h.nodup, h'.nodup, ?_⟩
    rintro l hl _ hl' rfl
    obtain ⟨id, hid, -, hlt⟩ := h.number l hl
    obtain ⟨id', hid', hle, -⟩ := h'.number l hl'
    obtain rfl : id = id' := Option.some.inj (hid.symm.trans hid')
    exact Nat.not_le.mpr hlt hle
  number := by
    intro l hl
    rcases List.mem_append.mp hl with hl | hl
    · obtain ⟨id, hid, hle, hlt⟩ := h.number l hl
      exact ⟨id, hid, hle, Nat.lt_of_lt_of_le hlt h'.le⟩
    · obtain ⟨id, hid, hle, hlt⟩ := h'.number l hl
      exact ⟨id, hid, Nat.le_trans h.le hle, hlt⟩

theorem perm (h : Numbered lo hi ls) (hls : ls.Perm ls') : Numbered lo hi ls' where
  le := h.le
  nodup := hls.nodup_iff.mp h.nodup
  number l hl := h.number l (hls.mem_iff.mpr hl)

/-- Two labels that are made of one number. -/
theorem pair {id : Nat} {l l' : Label} (hl : l.number = some id) (hl' : l'.number = some id)
    (hne : l ≠ l') : Numbered id (id + 1) [l, l'] where
  le := Nat.le_succ id
  nodup := by simp [hne]
  number := by
    intro k hk
    have hk : k.number = some id := by
      rcases List.mem_pair.mp hk with rfl | rfl <;> assumption
    exact ⟨id, hk, Nat.le_refl id, Nat.lt_succ_self id⟩

end Numbered

/-! ## Spelling -/

/-- Whether a label is made for the jumps of a conditional. -/
def Label.IsJump : Label → Prop
  | yes _ | no _ | after _ => True
  | start | routine _ | builtin _ | code _ _ | closure _ _ | text _ => False

theorem toString_injective {m n : Nat} (h : toString m = toString n) : m = n := by
  have hdigits := congrArg (fun s : String ↦ Nat.ofDigitChars 10 s.toList 0) h
  simpa [Nat.toString_eq_repr] using hdigits

/-- The spelling of a jump label tells what the label is. -/
theorem Label.IsJump.eq_of_render {l l' : Label} (hl : l.IsJump) (hl' : l'.IsJump)
    (h : l.render = l'.render) : l = l' := by
  have hchars := congrArg String.toList h
  cases l <;> cases l' <;> simp only [Label.IsJump] at hl hl'
  case yes.yes => rw [toString_injective ((String.append_right_inj _).mp h)]
  case no.no => rw [toString_injective ((String.append_right_inj _).mp h)]
  case after.after => rw [toString_injective ((String.append_right_inj _).mp h)]
  all_goals simp [Label.render] at hchars

theorem Label.render_ne {l l' : Label} (hl : l.IsJump) (hl' : l'.IsJump) (h : l ≠ l') :
    l.render ≠ l'.render := fun hrender ↦ h (hl.eq_of_render hl' hrender)

/-- The spellings of different jump labels with numbers from `lo` on and below `hi`. -/
def Spelled (lo hi : Nat) (names : List String) : Prop :=
  ∃ ls : List Label, names = ls.map Label.render ∧ (∀ l ∈ ls, l.IsJump) ∧ Numbered lo hi ls

namespace Spelled

variable {lo mid hi id : Nat} {names names' : List String} {l : Label}

theorem le (h : Spelled lo hi names) : lo ≤ hi := by
  obtain ⟨_, _, _, h⟩ := h
  exact h.le

theorem nil (h : lo ≤ hi) : Spelled lo hi [] := ⟨[], rfl, by simp, .nil h⟩

theorem append (h : Spelled lo mid names) (h' : Spelled mid hi names') :
    Spelled lo hi (names ++ names') := by
  obtain ⟨ls, rfl, hjump, h⟩ := h
  obtain ⟨ls', rfl, hjump', h'⟩ := h'
  exact ⟨ls ++ ls', List.map_append.symm,
    fun l hl ↦ (List.mem_append.mp hl).elim (hjump l) (hjump' l), h.append h'⟩

/-- Numbers may be left unused. -/
theorem widen (h : Spelled lo mid names) (hhi : mid ≤ hi) : Spelled lo hi names :=
  List.append_nil names ▸ h.append (.nil hhi)

theorem perm (h : Spelled lo hi names) (hnames : names.Perm names') : Spelled lo hi names' := by
  obtain ⟨ls, rfl, hjump, h⟩ := h
  have hcomp := congrFun (congrFun (List.eq_map_comp_perm Label.render) names') ls
  obtain ⟨ls', rfl, hls⟩ := hcomp.mpr hnames.symm
  exact ⟨ls', rfl, fun l hl ↦ hjump l (hls.mem_iff.mp hl), h.perm hls.symm⟩

theorem nodup (h : Spelled lo hi names) : names.Nodup := by
  obtain ⟨ls, rfl, hjump, h⟩ := h
  exact List.Nodup.map_on (fun l hl l' hl' ↦ (hjump l hl).eq_of_render (hjump l' hl')) h.nodup

/-- A label with a number outside the range is not among them. -/
theorem notMem (h : Spelled lo hi names) (hl : l.IsJump) (hid : l.number = some id)
    (hout : id < lo ∨ hi ≤ id) : l.render ∉ names := by
  obtain ⟨ls, rfl, hjump, h⟩ := h
  intro hmem
  obtain ⟨l', hl', hrender⟩ := List.mem_map.mp hmem
  obtain rfl := (hjump l' hl').eq_of_render hl hrender
  obtain ⟨id', hid', hle, hlt⟩ := h.number l' hl'
  obtain rfl : id = id' := Option.some.inj (hid.symm.trans hid')
  omega

end Spelled

end TaggedLisp
