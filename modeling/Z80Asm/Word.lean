/-! Machine words: the 64-bit numbers that programs compute with, and how they are shown. -/

namespace Z80Asm.Word

/-- Shift left by any count that is not negative; all bits are gone from 64 on. -/
def shiftLeft (n count : Int64) : Int64 := if count < 64 then n <<< count else 0

/-- Shift right by any count that is not negative, keeping the sign. -/
def shiftRight (n count : Int64) : Int64 :=
  if count < 64 then n >>> count else if n < 0 then -1 else 0

def lowByte (n : Int64) : UInt8 := n.toUInt64.toUInt8

def highByte (n : Int64) : UInt8 := lowByte (n >>> 8)

def decimal (n : Int64) : String := toString n.toInt

/-- Capital hexadecimal digits of `n`, with zeros in front up to `width`. -/
def hexNat (width n : Nat) : String :=
  let digits := (Nat.toDigits 16 n).map Char.toUpper
  String.ofList (List.replicate (width - digits.length) '0' ++ digits)

/-- A negative number is a minus sign, which counts in the width, and the magnitude. -/
def hex (width : Nat) (n : Int64) : String :=
  if n < 0 then "-" ++ hexNat (width - 1) n.toInt.natAbs else hexNat width n.toInt.natAbs

/-- The low 16 bits, as four digits. -/
def hex16 (n : Int64) : String := hex 4 (n &&& 0xFFFF)

end Z80Asm.Word
