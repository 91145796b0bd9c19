import Z80Asm.Text.Quoted
import Z80Asm.Word

/-! What an expression evaluates to: a number or a text. -/

namespace Z80Asm

inductive Datum where
  | number (n : Int64)
  | text (s : String)
deriving DecidableEq, Repr, Inhabited

namespace Datum

def render : Datum → String
  | number n => Word.decimal n
  | text s => Text.quote s

/-- The form in which results are shown: a number also has its low 16 bits in hexadecimal. -/
def display : Datum → String
  | number n => Word.decimal n ++ " (0x" ++ Word.hex16 n ++ ")"
  | text s => Text.quote s

def ofBool (b : Bool) : Datum := number (if b then 1 else 0)

end Datum

/-- The bytes of a text in UTF-8. -/
def Text.bytes (s : String) : List UInt8 := s.toUTF8.data.toList

/-- A text of one byte counts as that byte, one of two bytes as a word, low byte first. -/
def Datum.number? : Datum → Option Int64
  | number n => some n
  | text s =>
    match Text.bytes s with
    | [a] => some (Int64.ofNat a.toNat)
    | [a, b] => some (Int64.ofNat (a.toNat + 256 * b.toNat))
    | _ => none

end Z80Asm
