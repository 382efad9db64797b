import TaggedLisp.Text.CharColumns
import TaggedLisp.Text.Emoji

/-!
# Letters that share a column

Some scripts write several letters as one sign. Text is measured from its end, so the part of such a
sign that comes last is met first; it then waits for the letters before it. `Ligand` is what waits,
and `Ligand.before` says which character completes it, which continues it, and which passes between.
-/

namespace TaggedLisp.Text

/-- The forms of the Arabic letter Lam. -/
def lamRanges : Ranges := #[
  (0x644, 0x644), (0x6B5, 0x6B8), (0x76A, 0x76A), (0x8A6, 0x8A6), (0x8C7, 0x8C7)]

/-- The forms of the Arabic letter Alef. -/
def alefRanges : Ranges := #[
  (0x622, 0x623), (0x625, 0x625), (0x627, 0x627), (0x671, 0x673), (0x675, 0x675), (0x773, 0x774),
  (0x870, 0x882)]

/-- Characters without a column that part an Alef from a Lam before it. -/
def arabicBarrierRanges : Ranges := #[
  (0x605, 0x605), (0x890, 0x891), (0x8E2, 0x8E2), (0x9BE, 0x9BE), (0x9D7, 0x9D7), (0xB3E, 0xB3E),
  (0xB57, 0xB57), (0xBBE, 0xBBE), (0xBD7, 0xBD7), (0xCC0, 0xCC0), (0xCC2, 0xCC2), (0xCC7, 0xCC8),
  (0xCCA, 0xCCB), (0xCD5, 0xCD6), (0xD3E, 0xD3E), (0xD4E, 0xD4E), (0xD57, 0xD57), (0xDCF, 0xDCF),
  (0xDDF, 0xDDF), (0x1160, 0x11FF), (0x1715, 0x1715), (0x1734, 0x1734), (0x180E, 0x180E),
  (0x1B35, 0x1B35), (0x1B3B, 0x1B3B), (0x1B3D, 0x1B3D), (0x1B43, 0x1B44), (0x1BAA, 0x1BAA),
  (0x1BF2, 0x1BF3), (0x200C, 0x200D), (0x2065, 0x2069), (0x302E, 0x302F), (0x3164, 0x3164),
  (0xA8FA, 0xA8FA), (0xA953, 0xA953), (0xA9C0, 0xA9C0), (0xD7B0, 0xD7C6), (0xD7CB, 0xD7FB),
  (0xFFA0, 0xFFA0), (0xFFF0, 0xFFF8), (0x111C0, 0x111C0), (0x111C2, 0x111C3), (0x11235, 0x11235),
  (0x1133E, 0x1133E), (0x1134D, 0x1134D), (0x11357, 0x11357), (0x113B8, 0x113B8),
  (0x113C2, 0x113C2), (0x113C5, 0x113C5), (0x113C7, 0x113C9), (0x113CF, 0x113CF),
  (0x113D1, 0x113D1), (0x114B0, 0x114B0), (0x114BD, 0x114BD), (0x115AF, 0x115AF),
  (0x116B6, 0x116B6), (0x11930, 0x11930), (0x1193D, 0x1193D), (0x1193F, 0x1193F),
  (0x11941, 0x11941), (0x11A84, 0x11A89), (0x11D46, 0x11D46), (0x11F02, 0x11F02),
  (0x11F41, 0x11F41), (0x16FF0, 0x16FF1), (0x1D165, 0x1D166), (0x1D16D, 0x1D172),
  (0xE0000, 0xE0000), (0xE0002, 0xE001F), (0xE0080, 0xE00FF), (0xE01F0, 0xE0FFF)]

/-- Ignorable marks; they leave every ligature whole. -/
def ignorableMarkRanges : Ranges := #[
  (0x34F, 0x34F), (0x17B4, 0x17B5), (0x180B, 0x180D), (0x180F, 0x180F), (0xFE00, 0xFE0F),
  (0xE0100, 0xE01EF)]

/-- The Khmer letters that a coeng sign can push below the letter before. -/
def coengLetterRanges : Ranges := #[
  (0x1780, 0x1782), (0x1784, 0x1787), (0x1789, 0x178C), (0x178E, 0x1793), (0x1795, 0x1798),
  (0x179B, 0x179D), (0x17A0, 0x17A0), (0x17A2, 0x17A2), (0x17A7, 0x17A7), (0x17AB, 0x17AC),
  (0x17AF, 0x17AF)]

/-- The sign that pushes a Khmer letter below the letter before. -/
def coeng : Char := '\u17D2'

/-- Whether `c` is one of the Tifinagh consonants that can be joined in pairs. -/
def isTifinaghConsonant (c : Char) : Bool :=
  (0x2D31 ≤ c.toNat && c.toNat ≤ 0x2D65) || c.toNat = 0x2D6F

/-- The sign that joins two Tifinagh consonants. -/
def tifinaghJoiner : Char := '\u2D7F'

/-- The last part of a sign made of several letters. Where a flag `joined` stands, the sign needs a
joiner in front of that part, and the flag says whether it has been met. -/
inductive Ligand where
  | alef
  | lamed (joined : Bool)
  | ya (joined : Bool)
  | vowelYa
  | consonant (joined : Bool)
  | joinedConsonant
  | lowTone
  | orkhonI (joined : Bool)
  | coengLetter
  deriving DecidableEq, Repr

namespace Ligand

/-- What `c` waits for as the last letter of a sign: an Arabic Alef for a Lam, a Hebrew Lamed for an
Alef, a Buginese Ya for its vowel, a Tifinagh consonant for another, a Lisu tone letter for another,
an Old Turkic I for its consonant, a Khmer letter for the coeng sign. -/
def ofChar? (c : Char) : Option Ligand :=
  if alefRanges.has c then some .alef
  else if c = '\u05DC' then some (.lamed false)
  else if c = '\u1A10' then some (.ya false)
  else if isTifinaghConsonant c then some (.consonant false)
  else if c = '\uA4FC' || c = '\uA4FD' then some .lowTone
  else if c.toNat = 0x10C03 then some (.orkhonI false)
  else if coengLetterRanges.has c then some .coengLetter
  else none

/-- The same part with a joiner in front of it. -/
def join : Ligand → Ligand
  | .lamed _ => .lamed true
  | .ya _ => .ya true
  | .consonant _ => .consonant true
  | .orkhonI _ => .orkhonI true
  | l => l

/-- Whether `c` stands between the letters of the sign without parting them. -/
def passes (l : Ligand) (c : Char) : Bool :=
  match l with
  | .alef => charColumns c = 0 && !arabicBarrierRanges.has c
  | _ => ignorableMarkRanges.has c

/-- How far the columns change when `c` joins the sign in front of the part `l`, and what then still
waits; nothing if `c` does not join. -/
def complete (l : Ligand) (c : Char) : Option (Int × Option Ligand) :=
  match l with
  | .alef => if lamRanges.has c then some (0, none) else none
  | .lamed joined => if joined && c = '\u05D0' then some (0, none) else none
  | .ya joined => if joined && c = '\u1A17' then some (0, some .vowelYa) else none
  | .vowelYa => if c = '\u1A15' then some (0, none) else none
  | .consonant joined =>
    if c = tifinaghJoiner then some (1, some .joinedConsonant)
    else if joined && isTifinaghConsonant c then some (0, none)
    else none
  | .joinedConsonant => if isTifinaghConsonant c then some (-1, none) else none
  | .lowTone => if 0xA4F8 ≤ c.toNat && c.toNat ≤ 0xA4FB then some (0, none) else none
  | .orkhonI joined => if joined && c.toNat = 0x10C32 then some (0, none) else none
  | .coengLetter => if c = coeng then some (-1, none) else none

/-- The effect of `c` in front of the part `l`, as in `complete`, with the characters that pass
between. A joiner parts Arabic letters and no others. -/
def before (l : Ligand) (c : Char) : Option (Int × Option Ligand) :=
  if l ≠ .alef ∧ c = joiner then some (0, some l.join)
  else if l.passes c then some (0, some l)
  else l.complete c

end Ligand

end TaggedLisp.Text
