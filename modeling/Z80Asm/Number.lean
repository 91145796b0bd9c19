import Z80Asm.Text.Quoted

/-! Numeric literals. A literal is decimal, or names its radix by a mark in front (`0x2A`) or a
letter behind (`2Ah`). -/

namespace Z80Asm

inductive NumberError where
  | empty
  | invalid (literal : String)
deriving DecidableEq, Repr

def NumberError.message : NumberError → String
  | .empty => "empty numeric literal"
  | .invalid literal => "invalid numeric literal " ++ Text.quote literal

namespace Number

/-- The value of a digit in some radix up to 36; letters are in lower case. -/
def digit? (c : Char) : Option Nat :=
  if '0' ≤ c ∧ c ≤ '9' then some (c.toNat - 48)
  else if 'a' ≤ c ∧ c ≤ 'z' then some (c.toNat - 87)
  else none

def digitIn? (radix : Nat) (c : Char) : Option Nat :=
  (digit? c).filter (· < radix)

/-- The number that digits write, most significant first. -/
def ofDigits (radix : Nat) (digits : List Nat) : Nat :=
  digits.foldl (fun n d => n * radix + d) 0

/-- Reads one or more digits. -/
def natural? (radix : Nat) (cs : List Char) : Option Nat :=
  if cs.isEmpty then none else (cs.mapM (digitIn? radix)).map (ofDigits radix)

/-- One past the largest number of 64 bits. -/
def wordLimit : Nat := 0x10000000000000000

/-- One past the largest number of 64 bits with a sign. -/
def signedLimit : Nat := 0x8000000000000000

/-- Reads digits of a number of 64 bits; the upper half stands for the negative numbers. -/
def unsigned? (radix : Nat) (cs : List Char) : Option Int64 :=
  (natural? radix cs).bind fun n => if n < wordLimit then some (Int64.ofNat n) else none

/-- Reads digits after an optional sign, if the number fits 64 bits with its sign. -/
def signed? (radix : Nat) (cs : List Char) : Option Int64 :=
  match cs with
  | '-' :: ds =>
    (natural? radix ds).bind fun n => if n ≤ signedLimit then some (-Int64.ofNat n) else none
  | '+' :: ds | ds =>
    (natural? radix ds).bind fun n => if n < signedLimit then some (Int64.ofNat n) else none

/-- The marks in front of the digits and their radices, in the order in which they are tried. -/
def marks : List (List Char × Nat) :=
  [(['0', 'x'], 16), (['0', 'o'], 8), (['0', 'b'], 2), (['&', 'h'], 16), (['$'], 16), (['#'], 16),
   (['&'], 8), (['0'], 8), (['%'], 2)]

/-- Splits off the first mark that fits; without one the digits are decimal. -/
def splitMark (cs : List Char) : Nat × List Char :=
  match marks.findSome? fun m => (m.1.isPrefixOf? cs).map (m.2, ·) with
  | some found => found
  | none => (10, cs)

def isBinary (cs : List Char) : Bool := !cs.isEmpty && cs.all fun c => c = '0' || c = '1'

/-- Splits off a radix letter at the end. A `b` is one only after binary digits, and a literal
marked `0x` or `0o` has none. -/
def splitSuffix? (cs : List Char) : Option (Nat × List Char) :=
  if ['0', 'x'].isPrefixOf cs || ['0', 'o'].isPrefixOf cs then none
  else match cs.getLast? with
    | some 'h' => some (16, cs.dropLast)
    | some 'b' => if isBinary cs.dropLast then some (2, cs.dropLast) else none
    | some 'o' | some 'q' => some (8, cs.dropLast)
    | _ => none

/-- The value of a literal in lower case. Zeros in front of a decimal literal do not count. -/
def value? (cs : List Char) : Option Int64 :=
  match splitSuffix? cs with
  | some (radix, digits) => signed? radix digits
  | none =>
    if cs.all Char.isDigit then
      match cs.dropWhile (· = '0') with
      | [] => some 0
      | digits => unsigned? 10 digits
    else
      let (radix, digits) := splitMark cs
      unsigned? radix digits

def parse (literal : String) : Except NumberError Int64 :=
  if literal.isEmpty then .error .empty
  else match value? (Text.lower literal).toList with
    | some n => .ok n
    | none => .error (.invalid literal)

end Number
end Z80Asm
