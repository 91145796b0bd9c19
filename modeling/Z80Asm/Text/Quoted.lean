import Z80Asm.Text.CharClass

/-! Quoted texts as messages show them: between delimiters, with an escape for every character that
would end the quotation or could not be seen. -/

namespace Z80Asm.Text

def hexDigit (n : Nat) : Char := if n < 10 then Char.ofNat (48 + n) else Char.ofNat (87 + n)

/-- The last `width` hexadecimal digits of `n`, in lower case. -/
def hexFixed : Nat → Nat → List Char
  | 0, _ => []
  | width + 1, n => hexFixed width (n / 16) ++ [hexDigit (n % 16)]

/-- The letter that stands for `c` after a backslash. -/
def escapeLetter? (c : Char) : Option Char :=
  match c.toNat with
  | 7 => some 'a'
  | 8 => some 'b'
  | 9 => some 't'
  | 10 => some 'n'
  | 11 => some 'v'
  | 12 => some 'f'
  | 13 => some 'r'
  | _ => none

/-- The spelling of `c` in a quotation closed by `delimiter`. -/
def escapeChar (delimiter c : Char) : List Char :=
  if c = delimiter || c = '\\' then ['\\', c]
  else if isPrintable c then [c]
  else match escapeLetter? c with
    | some l => ['\\', l]
    | none =>
      if isAscii c then '\\' :: 'x' :: hexFixed 2 c.toNat
      else if c.toNat < 0x10000 then '\\' :: 'u' :: hexFixed 4 c.toNat
      else '\\' :: 'U' :: hexFixed 8 c.toNat

def quoteWith (delimiter : Char) (cs : List Char) : String :=
  String.ofList (delimiter :: cs.flatMap (escapeChar delimiter) ++ [delimiter])

/-- A text in double quotes. -/
def quote (s : String) : String := quoteWith '"' s.toList

/-- A character in apostrophes. -/
def quoteChar (c : Char) : String := quoteWith '\'' [c]

end Z80Asm.Text
