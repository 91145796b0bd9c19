import Mathlib
import Z80Asm.Image

/-! The image of a program byte by byte. Templates are written in the order of the program, and so
the last one at an offset is the one that stays there. -/

namespace Z80Asm.Image
set_option autoImplicit true

theorem length_grow (bytes : List UInt8) (length : Nat) :
    (grow bytes length).length = max bytes.length length := by
  rw [grow, List.length_append, List.length_replicate]
  omega

theorem getD_grow (bytes : List UInt8) (length k : Nat) :
    (grow bytes length).getD k 0 = bytes.getD k 0 := by
  rw [grow, List.getD_eq_getElem?_getD, List.getD_eq_getElem?_getD, List.getElem?_append]
  split
  · rfl
  · rename_i hk
    rw [List.getElem?_eq_none (Nat.le_of_not_lt hk), List.getElem?_replicate]
    split
    · rfl
    · rfl

section
variable {bytes data : List UInt8}

theorem length_overwrite (h : off ≤ bytes.length) :
    (overwrite bytes off data).length = bytes.length := by
  simp only [overwrite, List.length_append, List.length_take, List.length_drop]
  omega

theorem getD_overwrite (h : off + data.length ≤ bytes.length) (k : Nat) :
    (overwrite bytes off data).getD k 0 =
      if off ≤ k ∧ k < off + data.length then data.getD (k - off) 0 else bytes.getD k 0 := by
  have htake : (bytes.take off).length = off := by
    rw [List.length_take]
    omega
  have hdata : data.take (bytes.length - off) = data := List.take_of_length_le (by omega)
  rw [overwrite, hdata]
  simp only [List.getD_eq_getElem?_getD]
  by_cases hlow : k < off
  · rw [List.getElem?_append_left (by omega), List.getElem?_take_of_lt hlow, if_neg (by omega)]
  · rw [List.getElem?_append_right (by omega), htake]
    by_cases hhigh : k < off + data.length
    · rw [List.getElem?_append_left (by omega), if_pos (by omega)]
    · rw [List.getElem?_append_right (by omega), List.getElem?_drop, if_neg (by omega)]
      congr 2
      omega

end

def start (base : Int64) (t : Template) : Int := t.out.toInt - base.toInt

def stop (base : Int64) (t : Template) : Int := start base t + t.slots.length

def Fits (base : Int64) (t : Template) : Prop := -2 ^ 63 ≤ start base t ∧ stop base t < 2 ^ 63

instance (base : Int64) (t : Template) : Decidable (Fits base t) :=
  inferInstanceAs (Decidable (_ ∧ _))

theorem length_data (t : Template) : t.data.length = t.slots.length := List.length_map _

theorem Fits.toInt_start (h : Fits base t) : (t.out - base).toInt = start base t := by
  obtain ⟨hlow, hhigh⟩ := h
  unfold stop at hhigh
  rw [Int64.toInt_sub]
  exact Int.bmod_eq_of_le (by unfold start at *; omega) (by unfold start at *; omega)

theorem Fits.neg_iff (h : Fits base t) : t.out - base < 0 ↔ t.out < base := by
  rw [Int64.lt_iff_toInt_lt, Int64.lt_iff_toInt_lt, h.toInt_start]
  exact Int.sub_lt_iff.trans (by rw [Int64.toInt_zero, Int.zero_add])

theorem Fits.toInt_stop (h : Fits base t) (hstart : base ≤ t.out) :
    (t.out - base + Int64.ofNat t.slots.length).toInt = stop base t := by
  have hoff := h.toInt_start
  obtain ⟨hlow, hhigh⟩ := h
  rw [Int64.le_iff_toInt_le] at hstart
  have hsize : (Int64.ofNat t.slots.length).toInt = t.slots.length :=
    Int64.toInt_ofNat_of_lt (by unfold stop start at hhigh; omega)
  rw [Int64.toInt_add, hoff, hsize]
  exact Int.bmod_eq_of_le (by unfold start; omega) (by unfold stop at hhigh; omega)

section
variable {base : Int64} {image : Image} {t : Template}

theorem write_of_lt (ho : image.overrun = false) (hfit : Fits base t) (h : t.out < base)
    (loc : Location) :
    write base image (loc, t) =
      { image with diagnostics := image.diagnostics ++ [⟨.rewind t.out base, loc⟩] } := by
  have hneg := hfit.neg_iff.2 h
  simp only [write, ho, Bool.false_eq_true, ↓reduceIte, hneg]

theorem write_of_le (ho : image.overrun = false) (hfit : Fits base t) (h : base ≤ t.out)
    (loc : Location) :
    write base image (loc, t) =
      { image with
        bytes :=
          overwrite (grow image.bytes (stop base t).toNat) (start base t).toNat t.data } := by
  have hnonneg : ¬ t.out - base < 0 := fun hneg => Int64.not_lt.2 h (hfit.neg_iff.1 hneg)
  have hroom : (start base t).toNat ≤ (grow image.bytes (stop base t).toNat).length := by
    rw [length_grow]
    unfold stop
    omega
  simp only [write, ho, Bool.false_eq_true, ↓reduceIte, hnonneg, hfit.toInt_start,
    hfit.toInt_stop h, hroom]

end

/-- The templates that are not before the start of the image. -/
def kept (base : Int64) (placed : List (Location × Template)) : List Template :=
  (placed.map Prod.snd).filter fun t => base ≤ t.out

/-- The last of them that has a byte at offset `k`. -/
def lastAt? (base : Int64) (placed : List (Location × Template)) (k : Nat) : Option Template :=
  ((kept base placed).filter fun t => start base t ≤ k ∧ k < stop base t).getLast?

/-- The byte at offset `k`: that of the last template there, and zero where there is none. -/
def lastByte (base : Int64) (placed : List (Location × Template)) (k : Nat) : UInt8 :=
  match lastAt? base placed k with
  | some t => t.data.getD (k - start base t).toNat 0
  | none => 0

/-- The end of the one that reaches furthest, or zero if there is none. -/
def reach (base : Int64) (placed : List (Location × Template)) : Nat :=
  ((kept base placed).map fun t => (stop base t).toNat).foldl max 0

/-- A report for every template before the start of the image. -/
def rewinds (base : Int64) (placed : List (Location × Template)) : List Diagnostic :=
  (placed.filter fun p => p.2.out < base).map fun p => ⟨.rewind p.2.out base, p.1⟩

section
variable {base : Int64} {placed : List (Location × Template)} {loc : Location} {t : Template}

theorem kept_of_lt (h : t.out < base) : kept base (placed ++ [(loc, t)]) = kept base placed := by
  have hnot : ¬ base ≤ t.out := Int64.not_le.2 h
  simp only [kept, List.map_append, List.map_cons, List.map_nil, List.filter_append,
    List.filter_cons, hnot, decide_false, Bool.false_eq_true, ↓reduceIte, List.filter_nil,
    List.append_nil]

theorem kept_of_le (h : base ≤ t.out) :
    kept base (placed ++ [(loc, t)]) = kept base placed ++ [t] := by
  simp only [kept, List.map_append, List.map_cons, List.map_nil, List.filter_append,
    List.filter_cons, h, decide_true, ↓reduceIte, List.filter_nil]

theorem lastByte_of_lt (h : t.out < base) (k : Nat) :
    lastByte base (placed ++ [(loc, t)]) k = lastByte base placed k := by
  simp only [lastByte, lastAt?, kept_of_lt h]

/-- A template takes the offsets that it covers from all before it. -/
theorem lastAt?_of_le (h : base ≤ t.out) (k : Nat) :
    lastAt? base (placed ++ [(loc, t)]) k =
      if start base t ≤ k ∧ k < stop base t then some t else lastAt? base placed k := by
  rw [lastAt?, kept_of_le h, List.filter_append]
  by_cases hk : start base t ≤ k ∧ k < stop base t
  · rw [List.filter_singleton, decide_eq_true hk, if_pos hk]
    exact List.getLast?_concat
  · rw [List.filter_singleton, decide_eq_false hk, if_neg hk]
    exact congrArg List.getLast? (List.append_nil _)

theorem lastByte_of_le (h : base ≤ t.out) (k : Nat) :
    lastByte base (placed ++ [(loc, t)]) k =
      if start base t ≤ k ∧ k < stop base t then t.data.getD (k - start base t).toNat 0
      else lastByte base placed k := by
  rw [lastByte, lastAt?_of_le h]
  by_cases hk : start base t ≤ k ∧ k < stop base t
  · rw [if_pos hk, if_pos hk]
  · rw [if_neg hk, if_neg hk]
    rfl

theorem reach_of_lt (h : t.out < base) :
    reach base (placed ++ [(loc, t)]) = reach base placed := by
  rw [reach, kept_of_lt h, reach]

theorem reach_of_le (h : base ≤ t.out) :
    reach base (placed ++ [(loc, t)]) = max (reach base placed) (stop base t).toNat := by
  rw [reach, kept_of_le h, List.map_append, List.foldl_append]
  rfl

theorem rewinds_of_lt (h : t.out < base) :
    rewinds base (placed ++ [(loc, t)]) =
      rewinds base placed ++ [⟨.rewind t.out base, loc⟩] := by
  simp only [rewinds, List.filter_append, List.filter_cons, h, decide_true, ↓reduceIte,
    List.filter_nil, List.map_append, List.map_cons, List.map_nil]

theorem rewinds_of_le (h : base ≤ t.out) :
    rewinds base (placed ++ [(loc, t)]) = rewinds base placed := by
  have hnot : ¬ t.out < base := Int64.not_lt.2 h
  simp only [rewinds, List.filter_append, List.filter_cons, hnot, decide_false, Bool.false_eq_true,
    ↓reduceIte, List.filter_nil, List.append_nil]

/-- The image has the bytes and the reports that the templates ask for. -/
structure Shows (base : Int64) (placed : List (Location × Template)) (image : Image) : Prop where
  overrun : image.overrun = false
  length : image.bytes.length = reach base placed
  byte : ∀ k, image.bytes.getD k 0 = lastByte base placed k
  diagnostics : image.diagnostics = rewinds base placed

theorem Shows.write {image : Image} (h : Shows base placed image) (hfit : Fits base t)
    (loc : Location) : Shows base (placed ++ [(loc, t)]) (image.write base (loc, t)) := by
  by_cases hbefore : t.out < base
  · rw [write_of_lt h.overrun hfit hbefore]
    constructor
    · exact h.overrun
    · exact h.length.trans (reach_of_lt hbefore).symm
    · intro k
      exact (h.byte k).trans (lastByte_of_lt hbefore k).symm
    · rw [rewinds_of_lt hbefore, h.diagnostics]
  · have hle : base ≤ t.out := Int64.not_lt.1 hbefore
    have hstart : 0 ≤ start base t := by
      rw [Int64.le_iff_toInt_le] at hle
      exact Int.sub_nonneg.2 hle
    have hroom : (start base t).toNat + t.data.length ≤
        (grow image.bytes (stop base t).toNat).length := by
      rw [length_grow, length_data]
      unfold stop
      omega
    rw [write_of_le h.overrun hfit hle]
    constructor
    · exact h.overrun
    · dsimp only
      rw [length_overwrite (by omega), length_grow, h.length, reach_of_le hle]
    · intro k
      have hcover : ((start base t).toNat ≤ k ∧ k < (start base t).toNat + t.data.length) ↔
          (start base t ≤ k ∧ k < stop base t) := by
        rw [length_data]
        unfold stop
        omega
      have hindex : (k - start base t).toNat = k - (start base t).toNat := by omega
      dsimp only
      rw [getD_overwrite hroom, getD_grow, h.byte, lastByte_of_le hle, hindex]
      simp only [hcover]
    · rw [rewinds_of_le hle]
      exact h.diagnostics

theorem shows_foldl (hfit : ∀ p ∈ placed, Fits base p.2) :
    Shows base placed (placed.foldl (Image.write base) {}) := by
  induction placed using List.reverseRecOn with
  | nil => exact ⟨rfl, rfl, fun _ => rfl, rfl⟩
  | append_singleton placed p ih =>
    rw [List.foldl_append]
    have hp : Fits base p.2 := hfit p (List.mem_append_right placed (List.mem_singleton_self p))
    exact (ih fun q hq => hfit q (List.mem_append_left [p] hq)).write hp p.1

end

/-- The image starts at the offset of the first template. It ends with the template that reaches
furthest, has at every offset the byte of the last template there, or zero if there is none, and
each template before the start is reported and leaves no byte. -/
theorem assemble_last_wins (es : List Element)
    (hfit : ∀ p ∈ Program.templates es, Fits (origin es) p.2) :
    let placed := Program.templates es
    let base := origin es
    let image := assemble es
    (∀ p, placed.head? = some p → base = p.2.out) ∧
      image.overrun = false ∧
      image.bytes.length = reach base placed ∧
      (∀ k < image.bytes.length, image.bytes[k]? = some (lastByte base placed k)) ∧
      image.diagnostics = rewinds base placed ∧
      ∀ d ∈ image.diagnostics, d.category = .encoding := by
  intro placed base image
  have hshows : Shows base placed image := shows_foldl hfit
  refine ⟨fun p hp => ?_, hshows.overrun, hshows.length, fun k hk => ?_, hshows.diagnostics, ?_⟩
  · obtain ⟨rest, hrest⟩ := List.head?_eq_some_iff.1 hp
    simp only [base, origin, placed] at hrest ⊢
    rw [hrest]
  · rw [← hshows.byte k, List.getD_eq_getElem?_getD, List.getElem?_eq_getElem hk]
    rfl
  · intro d hd
    rw [hshows.diagnostics] at hd
    obtain ⟨p, -, rfl⟩ := List.mem_map.1 hd
    rfl

def overlapping : List Element :=
  [⟨⟨"f", 1⟩, .bytes ⟨[.byte 1, .byte 2, .byte 3], 0, 0x100, true⟩⟩,
    ⟨⟨"f", 2⟩, .bytes ⟨[.byte 4], 0, 0x107, true⟩⟩,
    ⟨⟨"f", 3⟩, .bytes ⟨[.byte 5, .byte 6], 0, 0xFF, true⟩⟩,
    ⟨⟨"f", 4⟩, .bytes ⟨[.byte 7, .byte 8, .byte 9], 0, 0x102, true⟩⟩]

theorem assemble_last_wins_overlapping :
    (∀ p ∈ Program.templates overlapping, Fits (origin overlapping) p.2) ∧
      (assemble overlapping).bytes.length = 8 ∧
      (assemble overlapping).bytes[2]? = some 7 ∧ (assemble overlapping).bytes[5]? = some 0 ∧
      (assemble overlapping).diagnostics = [⟨.rewind 0xFF 0x100, ⟨"f", 3⟩⟩] := by
  have hfit : ∀ p ∈ Program.templates overlapping, Fits (origin overlapping) p.2 := by decide
  obtain ⟨-, -, hlength, hbyte, hdiagnostics, -⟩ := assemble_last_wins overlapping hfit
  have hreach : reach (origin overlapping) (Program.templates overlapping) = 8 := by decide
  rw [hreach] at hlength
  refine ⟨hfit, hlength, ?_, ?_, hdiagnostics.trans (by decide)⟩
  · exact (hbyte 2 (by rw [hlength]; decide)).trans (by decide)
  · exact (hbyte 5 (by rw [hlength]; decide)).trans (by decide)

end Z80Asm.Image
