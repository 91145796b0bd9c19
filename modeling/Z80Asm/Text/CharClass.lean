import Z80Asm.Text.LetterRanges
import Z80Asm.Text.DigitRanges
import Z80Asm.Text.LowerCase
import Z80Asm.Text.PrintableRanges

/-! Classes of characters. Each class decides ASCII directly and looks the rest up in a table. -/

namespace Z80Asm.Text

/-- Some closed interval of `ranges` holds the code point of `c`. -/
def inRanges (ranges : List (Nat × Nat)) (c : Char) : Bool :=
  ranges.any fun r => r.1 ≤ c.toNat && c.toNat ≤ r.2

def isAscii (c : Char) : Bool := c.toNat < 0x80

def isLetter (c : Char) : Bool :=
  if isAscii c then c.isAlpha else inRanges letterRanges c

def isDigit (c : Char) : Bool :=
  if isAscii c then c.isDigit else inRanges digitRanges c

/-- White space beyond ASCII. -/
def wideSpaces : List (Nat × Nat) :=
  [(0x85, 0x85), (0xA0, 0xA0), (0x1680, 0x1680), (0x2000, 0x200A), (0x2028, 0x2029),
   (0x202F, 0x202F), (0x205F, 0x205F), (0x3000, 0x3000)]

def isSpace (c : Char) : Bool :=
  if isAscii c then c.toNat = 0x20 || 0x09 ≤ c.toNat && c.toNat ≤ 0x0D
  else inRanges wideSpaces c

/-- Characters that a quoted text shows as they are. The only space among them is the ASCII one. -/
def isPrintable (c : Char) : Bool :=
  if isAscii c then 0x20 ≤ c.toNat && c.toNat < 0x7F else inRanges printableRanges c

/-- The lower case of a character, or itself if it has none. -/
def toLower (c : Char) : Char :=
  if isAscii c then c.toLower
  else ((caseRuns.findSome? (·.map? c.toNat)).map Char.ofNat).getD c

def lower (s : String) : String := s.map toLower

end Z80Asm.Text
