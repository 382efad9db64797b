import Mathlib.Data.List.Forall2
import TaggedLisp.Layout.Page

/-!
# What a page shows of a document

However wide the page is, setting a document writes its words in order and, at each place where a
line may end, a space or a line end with an indent. `Doc.Sets` says just this of a document and a
text, and `Doc.sets_render` that it holds of what is rendered. Whoever reads the text afterwards can
take the layout to be any that `Sets` allows.
-/

namespace TaggedLisp

namespace Doc

/-- The text is the document with each of its possible line ends set as a space or as a line end and
an indent. -/
inductive Sets : Doc → List Char → Prop where
  | nil : Sets nil []
  | text (word : String) (ink : Option Ink) : Sets (text word ink) word.toList
  | space : Sets line [' ']
  | newline (indent : Nat) : Sets line ('\n' :: List.replicate indent ' ')
  | append {l r : Doc} {as bs : List Char} (left : Sets l as) (right : Sets r bs) :
      Sets (append l r) (as ++ bs)
  | nest {columns : Nat} {d : Doc} {cs : List Char} (body : Sets d cs) : Sets (nest columns d) cs
  | align {d : Doc} {cs : List Char} (body : Sets d cs) : Sets (align d) cs
  | group {d : Doc} {cs : List Char} (body : Sets d cs) : Sets (group d) cs

/-! ## Pages set their documents -/

/-- The texts of pieces of a page without colour, one after the other. -/
def shown (ps : List Piece) : List Char := ps.flatMap fun p ↦ (p.render false).toList

/-- What is shown of waiting documents is each of them set, one after the other. -/
theorem Pending.sets_pieces (width pos : Nat) (ps : List Pending) :
    ∃ css, List.Forall₂ (fun p cs ↦ Sets p.doc cs) ps css ∧
      shown (pieces width pos ps) = css.flatten := by
  fun_induction pieces width pos ps with
  | case1 => exact ⟨[], .nil, rfl⟩
  | case2 pos indent flat rest ih =>
    obtain ⟨css, hcss, hshown⟩ := ih
    exact ⟨[] :: css, .cons .nil hcss, hshown⟩
  | case3 pos indent flat rest word ink ih =>
    obtain ⟨css, hcss, hshown⟩ := ih
    refine ⟨word.toList :: css, .cons (.text word ink) hcss, ?_⟩
    rw [List.flatten_cons, ← hshown]
    cases ink <;> rfl
  | case4 pos indent rest ih =>
    obtain ⟨css, hcss, hshown⟩ := ih
    refine ⟨[' '] :: css, .cons .space hcss, ?_⟩
    rw [List.flatten_cons, ← hshown]
    rfl
  | case5 pos indent flat rest hflat next ih =>
    obtain ⟨css, hcss, hshown⟩ := ih
    refine ⟨('\n' :: List.replicate next ' ') :: css, .cons (.newline next) hcss, ?_⟩
    rw [List.flatten_cons, ← hshown]
    simp [shown, Piece.render]
  | case6 pos indent flat rest l r ih =>
    obtain ⟨_, _ | ⟨hl, _ | ⟨hr, hcss⟩⟩, hshown⟩ := ih
    exact ⟨_, .cons (.append hl hr) hcss, by simpa using hshown⟩
  | case7 pos indent flat rest columns body ih =>
    obtain ⟨_, _ | ⟨hbody, hcss⟩, hshown⟩ := ih
    exact ⟨_, .cons (.nest hbody) hcss, hshown⟩
  | case8 pos indent flat rest body ih =>
    obtain ⟨_, _ | ⟨hbody, hcss⟩, hshown⟩ := ih
    exact ⟨_, .cons (.align hbody) hcss, hshown⟩
  | case9 pos indent flat rest body ih =>
    obtain ⟨_, _ | ⟨hbody, hcss⟩, hshown⟩ := ih
    exact ⟨_, .cons (.group hbody) hcss, hshown⟩

/-- What is rendered without colour is the document, set in one of the ways it can be. -/
theorem sets_render (width : Nat) (d : Doc) : Sets d (d.render width false).toList := by
  obtain ⟨_, hcss, hshown⟩ := Pending.sets_pieces width 0 [⟨0, false, d⟩]
  cases hcss with
  | cons hd hrest =>
    cases hrest
    rw [List.flatten_cons, List.flatten_nil, List.append_nil] at hshown
    rw [render, String.toList_join, List.flatMap_map]
    change Sets d (shown (Pending.pieces width 0 [⟨0, false, d⟩]))
    rwa [hshown]

/-! ## Documents put together -/

variable {d l r : Doc} {ds : List Doc} {cs : List Char}

theorem Sets.cat (h : Sets (l ++ r) cs) : ∃ as bs, cs = as ++ bs ∧ Sets l as ∧ Sets r bs := by
  change Sets (Doc.cat l r) cs at h
  unfold Doc.cat at h
  split at h
  · exact ⟨[], cs, rfl, .nil, h⟩
  · exact ⟨cs, [], (List.append_nil _).symm, h, .nil⟩
  · cases h with
    | append hl hr => exact ⟨_, _, rfl, hl, hr⟩

/-- The documents are set one after the other, each behind a possible line end. -/
inductive SetsTail : List Doc → List Char → Prop where
  | nil : SetsTail [] []
  | cons {d : Doc} {ds : List Doc} {cs as bs : List Char} (gap : Sets line cs) (head : Sets d as)
      (tail : SetsTail ds bs) : SetsTail (d :: ds) (cs ++ (as ++ bs))

theorem Sets.joined (h : Sets (Doc.joined line (d :: ds)) cs) :
    ∃ as bs, cs = as ++ bs ∧ Sets d as ∧ SetsTail ds bs := by
  rw [Doc.joined] at h
  induction ds generalizing d with
  | nil => exact ⟨cs, [], (List.append_nil _).symm, h, .nil⟩
  | cons e es ih =>
    obtain ⟨_, ds', rfl, hfirst, htail⟩ := ih h
    obtain ⟨_, bs, rfl, hfirst, he⟩ := hfirst.cat
    obtain ⟨as, gap, rfl, hd, hgap⟩ := hfirst.cat
    exact ⟨as, _, by simp only [List.append_assoc], hd, .cons hgap he htail⟩

end Doc

end TaggedLisp
