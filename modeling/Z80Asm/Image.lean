import Z80Asm.Problem
import Z80Asm.Program

/-! The output of an assembly: its bytes, where they start, and the source line of every address. -/

namespace Z80Asm

/-- The bytes of a program. -/
structure Image where
  bytes : List UInt8 := []
  diagnostics : List Diagnostic := []
  /-- A template ends past the last offset that 64 bits can count; nothing after it is written. -/
  overrun : Bool := false

namespace Image

/-- `bytes` with zeros behind, if it is shorter than `length`. -/
def grow (bytes : List UInt8) (length : Nat) : List UInt8 :=
  bytes ++ List.replicate (length - bytes.length) 0

/-- `bytes` with `data` in place of what stands at offset `off`. -/
def overwrite (bytes : List UInt8) (off : Nat) (data : List UInt8) : List UInt8 :=
  bytes.take off ++ (data.take (bytes.length - off) ++ bytes.drop (off + data.length))

/-- Writes one template into an image that starts at `base`. The image cannot grow at its front. -/
def write (base : Int64) (image : Image) (placed : Location × Template) : Image :=
  let (loc, t) := placed
  let off := t.out - base
  let stop := off + Int64.ofNat t.slots.length
  if image.overrun then image
  else if off < 0 then
    { image with diagnostics := image.diagnostics ++ [⟨.rewind t.out base, loc⟩] }
  else
    let grown := grow image.bytes stop.toInt.toNat
    if off.toInt.toNat ≤ grown.length then
      { image with bytes := overwrite grown off.toInt.toNat t.data }
    else { image with overrun := true }

/-- The output offset of the first byte. -/
def origin (es : List Element) : Int64 :=
  match Program.templates es with
  | [] => 0
  | (_, t) :: _ => t.out

/-- The bytes of all templates at their offsets from the first one; later ones overwrite earlier
ones. -/
def assemble (es : List Element) : Image :=
  (Program.templates es).foldl (write (origin es)) {}

/-- The line that produced the first template at each address, by address. -/
def sourceMap (es : List Element) : List (Int64 × Location) :=
  let entries := (Program.templates es).foldl
    (fun (m : List (Int64 × Location)) placed =>
      if m.any (·.1 = placed.2.address) then m else m ++ [(placed.2.address, placed.1)])
    []
  entries.mergeSort fun a b => a.1 ≤ b.1

/-- The source map as text, a line per address. -/
def listing (es : List Element) : String :=
  String.join ((sourceMap es).map fun (address, loc) =>
    Word.hex16 address ++ "  " ++ loc.render ++ "\n")

end Image
end Z80Asm
