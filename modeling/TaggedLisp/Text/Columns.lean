import TaggedLisp.Text.Ligature

/-!
# Columns that a text takes on a terminal

Text that is ASCII throughout takes a column for each character. Any other text is measured from its
end towards its start, because what a character takes depends on what stands behind it: a selector
turns the character before it into a picture, a skin tone or a joiner makes one picture of several
characters, and a letter may share its column with the letter before it. `Suffix` holds the columns
of the text behind a character together with what that text offers to the character, and
`Suffix.before` puts one character in front.
-/

namespace TaggedLisp.Text

/-- The tag of a flag, from its end up to some character. A tag names a region by letters behind at
most three digits. -/
inductive FlagTag where
  | letters (count : Nat)
  | digits (count : Nat)
  deriving DecidableEq, Repr

/-- The tag with `c` in front, if `c` continues it. -/
def FlagTag.before? : FlagTag → Char → Option FlagTag
  | .letters n, c =>
    if n < 6 && isTagLetter c then some (.letters (n + 1))
    else if n ≤ 4 && isTagDigit c then some (.digits 1)
    else none
  | .digits n, c => if n < 3 && isTagDigit c then some (.digits (n + 1)) else none

/-- Whether the tag can stand behind its flag. -/
def FlagTag.isComplete : FlagTag → Bool
  | .letters n => 3 ≤ n
  | .digits n => n = 3

/-- What a text starts with, as far as the character in front of it can tell. Behind a joiner stands
an emoji, and the names with `joined` say what stands in front of that joiner. The two vowels are
the Kirat Rai signs E and Ai, of which the second is twice the first. -/
inductive Lead where
  | plain
  | lineEnd
  | skinTone
  | emoji
  | flagLetter
  | flagLetters
  | joinedEmoji
  | joinedKeycap
  | joinedFlagLetter
  | joinedFlags
  | joinedFlagsAndLetter
  | joinedTag (tag : FlagTag)
  | vowelE
  | vowelAi
  | ligand (part : Ligand)
  deriving DecidableEq, Repr

namespace Lead

/-- What the character `c` beyond ASCII offers, whatever stands behind it. -/
def ofChar (c : Char) : Lead :=
  if isFlagLetter c then .flagLetter
  else if isSkinTone c then .skinTone
  else if isEmoji c then .emoji
  else if c.toNat = 0x16D67 then .vowelE
  else if c.toNat = 0x16D68 then .vowelAi
  else match Ligand.ofChar? c with
    | some part => .ligand part
    | none => .plain

/-- What is still offered in front of a selector. -/
def behind : Lead → Selector → Lead
  | .ligand part, _ => .ligand part
  | .joinedEmoji, .picture => .joinedEmoji
  | .joinedKeycap, .picture => .joinedKeycap
  | _, _ => .plain

/-- What is still offered in front of a character that the selector does not suit. -/
def released : Lead → Lead
  | .ligand part => .ligand part
  | _ => .plain

/-- Whether a picture in front becomes part of the picture behind it. -/
def joinsPicture : Lead → Bool
  | .joinedEmoji | .joinedKeycap => true
  | _ => false

/-- How far the columns change when `c` combines with what stands behind it, and what is then
offered; nothing if they do not combine. The flag nearest to a joiner is part of the picture behind
it and takes no column, while each flag before it takes two. Whether a letter opens or closes a flag
shows only in front of it, so the columns go up and down from letter to letter. -/
def combine (l : Lead) (c : Char) : Option (Int × Lead) :=
  match l with
  | .plain | .lineEnd => none
  | .skinTone =>
    if isSkinToneBase c then some (0, .emoji)
    else if c = joiner then some (0, .joinedEmoji)
    else none
  | .emoji => if c = joiner then some (0, .joinedEmoji) else none
  | .flagLetter => if isFlagLetter c then some (1, .flagLetters) else none
  | .flagLetters =>
    if isFlagLetter c then some (1, .flagLetters)
    else if c = joiner then some (0, .joinedEmoji)
    else none
  | .joinedEmoji =>
    if c = keycap then some (0, .joinedKeycap)
    else if isFlagLetter c then some (1, .joinedFlagLetter)
    else if isSkinTone c then some (0, .skinTone)
    else if c = tagEnd then some (0, .joinedTag (.letters 0))
    else if isEmoji c then some (0, .emoji)
    else none
  | .joinedKeycap => none
  | .joinedFlagLetter => if isFlagLetter c then some (-1, .joinedFlags) else none
  | .joinedFlags =>
    if isFlagLetter c then some (3, .joinedFlagsAndLetter)
    else if c = joiner then some (0, .joinedEmoji)
    else none
  | .joinedFlagsAndLetter =>
    if isFlagLetter c then some (-1, .joinedFlags)
    else if c = joiner then some (0, .joinedEmoji)
    else none
  | .joinedTag tag =>
    if tag.isComplete && c = taggedFlag then some (0, .emoji)
    else (tag.before? c).map fun longer ↦ (0, .joinedTag longer)
  | .vowelE =>
    if c.toNat = 0x16D63 || c.toNat = 0x16D69 then some (0, .plain)
    else if c.toNat = 0x16D67 then some (0, .vowelAi)
    else if c.toNat = 0x16D68 then some (1, .vowelE)
    else none
  | .vowelAi => if c.toNat = 0x16D63 then some (0, .plain) else none
  | .ligand part =>
    (part.before c).map fun (change, rest) ↦
      (change, match rest with
        | some part => .ligand part
        | none => .plain)

end Lead

/-- A text as the character in front of it sees it. -/
structure Suffix where
  /-- The columns that the text takes. -/
  columns : Nat
  /-- What the text starts with, behind its selector. -/
  lead : Lead
  /-- The selector in front of the text, whose character has not been met. -/
  selector : Option Selector
  deriving DecidableEq, Repr

namespace Suffix

/-- The empty text. -/
def empty : Suffix := ⟨0, .plain, none⟩

/-- The text with `change` more columns, now offering `lead`. -/
def grow (s : Suffix) (change : Int) (lead : Lead) : Suffix :=
  ⟨(s.columns + change).toNat, lead, none⟩

/-- The text behind `c` with `c` in front, where no selector asks anything of `c`. A control
character takes a column, and a carriage return shares that of the line end behind it. -/
def beforeUnselected (s : Suffix) (c : Char) : Suffix :=
  if c.toNat ≤ 0xA0 then
    if c = '\n' then s.grow 1 .lineEnd
    else if c = '\r' && s.lead = .lineEnd then s.grow 0 .plain
    else s.grow 1 .plain
  else match Selector.ofChar? c with
    | some selector => ⟨s.columns, s.lead.behind selector, some selector⟩
    | none =>
      match s.lead.combine c with
      | some (change, lead) => s.grow change lead
      | none => s.grow (charColumns c) (.ofChar c)

/-- The text behind `c` with `c` in front. -/
def before (s : Suffix) (c : Char) : Suffix :=
  match s.selector with
  | none => s.beforeUnselected c
  | some selector =>
    if selector.suits c then
      match selector with
      | .picture => s.grow (if s.lead.joinsPicture then 0 else 2) .emoji
      | .text => s.grow 1 .plain
      | .wideQuote => s.grow 2 .plain
    else { s with lead := s.lead.released, selector := none }.beforeUnselected c

/-- The text `cs`, measured from its end. -/
def ofList (cs : List Char) : Suffix := cs.foldr (fun c s ↦ s.before c) empty

@[simp] theorem ofList_nil : ofList [] = empty := rfl

@[simp] theorem ofList_cons (c : Char) (cs : List Char) : ofList (c :: cs) = (ofList cs).before c :=
  rfl

end Suffix

/-- Columns that `s` takes. -/
def columns (s : String) : Nat :=
  if s.toList.all (·.toNat < 128) then s.length else (Suffix.ofList s.toList).columns

/-- A text of ASCII characters takes a column for each. -/
theorem columns_of_ascii {s : String} (h : ∀ c ∈ s.toList, c.toNat < 128) :
    columns s = s.length := by
  have h : s.toList.all (·.toNat < 128) = true := by simpa using h
  rw [columns, if_pos h]

end TaggedLisp.Text
