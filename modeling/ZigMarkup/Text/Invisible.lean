import ZigMarkup.Text.Blank
import ZigMarkup.Text.Mark
import ZigMarkup.Text.Unassigned

/-!
Characters that show nothing of their own on a page: controls, blanks other than the space,
format characters, fillers, marks that combine with the character before them, and code points
that are private or have no character at all.
-/
namespace ZigMarkup

def isControl (c : Char) : Bool := c.toNat < 0x20 || (0x7F ≤ c.toNat && c.toNat < 0xA0)

/-- The Unicode category `Cf`. -/
def formatRanges : Ranges :=
  [(0xAD, 0xAD), (0x600, 0x605), (0x61C, 0x61C), (0x6DD, 0x6DD), (0x70F, 0x70F), (0x890, 0x891),
    (0x8E2, 0x8E2), (0x180E, 0x180E), (0x200B, 0x200F), (0x202A, 0x202E), (0x2060, 0x2064),
    (0x2066, 0x206F), (0xFEFF, 0xFEFF), (0xFFF9, 0xFFFB), (0x110BD, 0x110BD), (0x110CD, 0x110CD),
    (0x13430, 0x1343F), (0x1BCA0, 0x1BCA3), (0x1D173, 0x1D17A), (0xE0001, 0xE0001),
    (0xE0020, 0xE007F)]

def isFormat (c : Char) : Bool := formatRanges.holds c.toNat

/-- The fillers of Hangul: letters that hold a place and are not drawn. -/
def isFiller (c : Char) : Bool :=
  c = '\u115F' || c = '\u1160' || c = '\u3164' || c = '\uFFA0'

/-- The Unicode category `Co`. -/
def privateRanges : Ranges :=
  [(0xE000, 0xF8FF), (0xF0000, 0xFFFFD), (0x100000, 0x10FFFD)]

def isPrivate (c : Char) : Bool := privateRanges.holds c.toNat

def isInvisible (c : Char) : Bool :=
  isControl c || (isBlank c && c != ' ') || isFormat c || isFiller c || isMark c || isPrivate c ||
    isUnassigned c

end ZigMarkup
