import Z80Asm.Proofs.LastWriter
import Z80Asm.Proofs.Operands

/-! Copies into the image stay within it as long as offsets do not wrap around: the image grows to
the end of a template before the template is copied, but an end past the last offset that 64 bits
can count is taken for one before the start. -/

namespace Z80Asm
set_option autoImplicit true

namespace Image

/-- What has been written of the image before a template is copied: all before it, and room up to
the end that is reckoned for it. -/
def roomFor (base : Int64) (bytes : List UInt8) (t : Template) : List UInt8 :=
  grow bytes (t.out - base + Int64.ofNat t.slots.length).toInt.toNat

structure InBounds (base : Int64) (bytes : List UInt8) (t : Template) : Prop where
  nonneg : 0 ≤ (t.out - base).toInt
  start_le : (t.out - base).toInt ≤ (roomFor base bytes t).length
  stop_le : (t.out - base).toInt + t.slots.length ≤ (roomFor base bytes t).length

/-- Every template that is copied lies within the image as it is by then. Those whose offset is
negative are not copied. -/
def CopiesInBounds (es : List Element) : Prop :=
  ∀ pre loc t post, Program.templates es = pre ++ (loc, t) :: post → ¬ t.out - origin es < 0 →
    InBounds (origin es) (pre.foldl (write (origin es)) {}).bytes t

section
variable {base : Int64} {image : Image} {t : Template}

/-- What writing a template does: nothing once the image is overrun, else a report if the offset is
negative, a copy if the image has come as far as the offset, and an overrun if it has not. -/
theorem write_eq (base : Int64) (image : Image) (loc : Location) (t : Template) :
    write base image (loc, t) =
      if image.overrun then image
      else if t.out - base < 0 then
        { image with diagnostics := image.diagnostics ++ [⟨.rewind t.out base, loc⟩] }
      else if (t.out - base).toInt.toNat ≤ (roomFor base image.bytes t).length then
        { image with
          bytes := overwrite (roomFor base image.bytes t) (t.out - base).toInt.toNat t.data }
      else { image with overrun := true } := rfl

theorem length_roomFor_lt {bytes : List UInt8} (h : bytes.length < 2 ^ 63) (base : Int64)
    (t : Template) : (roomFor base bytes t).length < 2 ^ 63 := by
  have hstop := Int64.toInt_lt (t.out - base + Int64.ofNat t.slots.length)
  rw [roomFor, length_grow]
  omega

theorem length_write_lt (h : image.bytes.length < 2 ^ 63) (loc : Location) :
    (write base image (loc, t)).bytes.length < 2 ^ 63 := by
  rw [write_eq]
  split
  · exact h
  · split
    · exact h
    · split
      · rename_i hroom
        dsimp only
        rw [length_overwrite hroom]
        exact length_roomFor_lt h base t
      · exact h

theorem length_foldl_write_lt (base : Int64) (placed : List (Location × Template)) :
    (placed.foldl (write base) {}).bytes.length < 2 ^ 63 := by
  induction placed using List.reverseRecOn with
  | nil => exact Nat.two_pow_pos 63
  | append_singleton placed p ih =>
    rw [List.foldl_append]
    exact length_write_lt ih p.1

/-- The image has room for a template exactly if the end of the template does not wrap around. -/
theorem inBounds_iff {bytes : List UInt8} (hlength : bytes.length < 2 ^ 63)
    (hoff : ¬ t.out - base < 0) :
    InBounds base bytes t ↔ (t.out - base).toInt + t.slots.length < 2 ^ 63 := by
  have hnonneg : 0 ≤ (t.out - base).toInt := by
    rw [Int64.lt_iff_toInt_lt, Int.not_lt] at hoff
    exact hoff
  constructor
  · intro h
    have hroom := length_roomFor_lt hlength base t
    have hstop := h.stop_le
    omega
  · intro h
    have hsize : (Int64.ofNat t.slots.length).toInt = t.slots.length :=
      Int64.toInt_ofNat_of_lt (by omega)
    have hstop : (t.out - base + Int64.ofNat t.slots.length).toInt =
        (t.out - base).toInt + t.slots.length := by
      rw [Int64.toInt_add, hsize]
      exact Int.bmod_eq_of_le (by omega) (by omega)
    have hroom : (t.out - base).toInt + t.slots.length ≤ (roomFor base bytes t).length := by
      rw [roomFor, length_grow, hstop]
      omega
    exact ⟨hnonneg, by omega, hroom⟩

theorem overrun_write (ho : image.overrun = false)
    (h : ¬ t.out - base < 0 → InBounds base image.bytes t) (loc : Location) :
    (write base image (loc, t)).overrun = false := by
  rw [write_eq, if_neg (by rw [ho]; exact Bool.false_ne_true)]
  split
  · exact ho
  · rename_i hoff
    have hstart := (h hoff).start_le
    rw [if_pos (by omega)]
    exact ho

end

theorem copiesInBounds_iff (es : List Element) :
    CopiesInBounds es ↔ ∀ p ∈ Program.templates es, ¬ p.2.out - origin es < 0 →
      (p.2.out - origin es).toInt + p.2.slots.length < 2 ^ 63 := by
  constructor
  · intro h p hp hoff
    obtain ⟨pre, post, hpos⟩ := List.append_of_mem hp
    exact (inBounds_iff (length_foldl_write_lt _ pre) hoff).1 (h pre p.1 p.2 post hpos hoff)
  · intro h pre loc t post hpos hoff
    have ht := h (loc, t) (hpos ▸ List.mem_append_right pre List.mem_cons_self) hoff
    exact (inBounds_iff (length_foldl_write_lt _ pre) hoff).2 ht

theorem CopiesInBounds.overrun (h : CopiesInBounds es) : (assemble es).overrun = false := by
  have hprefix : ∀ pre post, Program.templates es = pre ++ post →
      (pre.foldl (write (origin es)) {}).overrun = false := by
    intro pre
    induction pre using List.reverseRecOn with
    | nil => exact fun _ _ => rfl
    | append_singleton pre p ih =>
      intro post hpos
      rw [List.append_assoc] at hpos
      rw [List.foldl_append]
      exact overrun_write (ih _ hpos) (h pre p.1 p.2 post hpos) p.1
  exact hprefix _ [] (List.append_nil _).symm

end Image

namespace Assembly

/-- Every copy into the image of a program stays within the image, exactly if no template that is
copied ends at an offset past those that 64 bits can count; and then the image is never overrun. -/
theorem copies_inBounds_iff (es : List Element) (passes : Int) :
    let a := assemble es passes
    (Image.CopiesInBounds a.program ↔
      ∀ p ∈ Program.templates a.program, ¬ p.2.out - a.origin < 0 →
        (p.2.out - a.origin).toInt + p.2.slots.length < 2 ^ 63) ∧
      (Image.CopiesInBounds a.program → a.image.overrun = false) := by
  intro a
  constructor
  · rw [origin_eq]
    exact Image.copiesInBounds_iff a.program
  · intro h
    rw [image_eq]
    exact h.overrun

/-- A byte at the start, and one at the highest offset that 64 bits can count. -/
def farOrigin : List String := [" defb 1", " org ~(1<<63)", " defb 2"]

def farProgram : List Element :=
  [⟨⟨"f", 1⟩, .bytes ⟨[.byte 1], 0, 0, false⟩⟩, ⟨⟨"f", 2⟩, .org (.number 9223372036854775807)⟩,
    ⟨⟨"f", 3⟩, .bytes ⟨[.byte 2], 0, 0, false⟩⟩]

set_option maxRecDepth 10000 in
theorem elementsOfLines_farOrigin :
    Source.elementsOfLines "f" farOrigin = (farProgram, []) := by cbv

set_option maxRecDepth 10000 in
theorem overrun_farProgram : (assemble farProgram 0).image.overrun = true := by cbv

/-- The second byte is copied to a place far behind the end of the image, which is overrun. -/
theorem farOrigin_overrun :
    let es := (Source.elementsOfLines "f" farOrigin).1
    (Source.elementsOfLines "f" farOrigin).2 = [] ∧
      (assemble es 0).image.overrun = true ∧ ¬ Image.CopiesInBounds (assemble es 0).program := by
  rw [elementsOfLines_farOrigin]
  have hoverrun := overrun_farProgram
  refine ⟨rfl, hoverrun, fun h => ?_⟩
  rw [image_eq, h.overrun] at hoverrun
  cases hoverrun

end Assembly
end Z80Asm
