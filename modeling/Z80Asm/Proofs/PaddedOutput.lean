import Z80Asm.Proofs.LastWriter
import Z80Asm.Proofs.OutputOffsets

/-! Elements that follow one another in the output, each with padding before it. Written in this
order, an image is never overwritten: every template is appended to it. -/

namespace Z80Asm
set_option autoImplicit true

def Element.data (e : Element) : List UInt8 :=
  match e.stmt with
  | .bytes t => t.data
  | _ => []

theorem Element.size_cases (e : Element) :
    e.size = 0 ∧ e.template? = none ∨
      ∃ t, e.size ≠ 0 ∧ e.stmt = .bytes t ∧ e.size = t.slots.length ∧ e.data = t.data ∧
        e.template? = some (e.loc, t) := by
  obtain ⟨loc, stmt⟩ := e
  cases stmt with
  | bytes t =>
    obtain ⟨slots, address, out, placed⟩ := t
    cases slots with
    | nil => exact .inl ⟨rfl, rfl⟩
    | cons slot rest => exact .inr ⟨_, Nat.succ_ne_zero _, rfl, rfl, rfl, rfl⟩
  | _ => exact .inl ⟨rfl, rfl⟩

theorem Element.size_of_template? {e : Element} (h : e.template? = none) : e.size = 0 := by
  rcases e.size_cases with ⟨hsize, -⟩ | ⟨t, -, -, -, -, hsome⟩
  · exact hsize
  · rw [h] at hsome
    cases hsome

theorem Element.bytes_of_template? {e : Element} (h : e.template? = some p) :
    e.size ≠ 0 ∧ e.stmt = .bytes p.2 := by
  rcases e.size_cases with ⟨-, hnone⟩ | ⟨t, hsize, hstmt, -, -, hsome⟩
  · rw [h] at hnone
    cases hnone
  · rw [h] at hsome
    cases hsome
    exact ⟨hsize, hstmt⟩

def Before (p q : Location × Template) : Prop :=
  p.2.out.toInt + p.2.slots.length ≤ q.2.out.toInt

/-- Elements with the padding that each of them inserts. -/
abbrev Padded := List (Element × Nat)

namespace Padded

def total (l : Padded) : Nat := (l.map fun p => p.1.size + p.2).sum

def silent (p : Element × Nat) : Bool := p.1.size == 0

def bytes (p : Element × Nat) : List UInt8 := List.replicate p.2 0 ++ p.1.data

/-- The bytes of the templates in order, with zeros for the padding between them. What stands before
the first template that emits anything or behind the last one is left out. -/
def joined (l : Padded) : List UInt8 := ((l.dropWhile silent).rdropWhile silent).flatMap bytes

/-- The elements follow one another in the output from offset `out` on, and templates insert no
padding. -/
def Contiguous : Int → Padded → Prop
  | _, [] => True
  | out, p :: l =>
    (∀ t, p.1.stmt = .bytes t → t.out.toInt = out ∧ p.2 = 0) ∧
      Contiguous (out + (p.1.size + p.2 : Nat)) l

/-- What the elements add to an image that ends `gap` bytes before they begin. -/
def fill (gap : Nat) (l : Padded) : List UInt8 :=
  if l.all silent then [] else List.replicate gap 0 ++ (l.rdropWhile silent).flatMap bytes

theorem rdropWhile_of_all (h : l.all silent = true) (p : Element × Nat) :
    (p :: l).rdropWhile silent = if silent p then [] else [p] := by
  have hnil : l.reverse.dropWhile silent = [] := by
    rw [List.dropWhile_eq_nil_iff]
    intro q hq
    exact List.all_eq_true.1 h q (List.mem_reverse.1 hq)
  rw [List.rdropWhile, List.reverse_cons, List.dropWhile_append, hnil, List.isEmpty_nil, if_pos rfl,
    List.dropWhile_cons]
  split
  · rfl
  · rfl

theorem rdropWhile_of_not_all (h : l.all silent = false) (p : Element × Nat) :
    (p :: l).rdropWhile silent = p :: l.rdropWhile silent := by
  have hne : (l.reverse.dropWhile silent).isEmpty = false := by
    rw [List.isEmpty_eq_false_iff, ne_eq, List.dropWhile_eq_nil_iff]
    intro hall
    rw [List.all_eq_true.2 fun q hq => hall q (List.mem_reverse.2 hq)] at h
    cases h
  rw [List.rdropWhile, List.reverse_cons, List.dropWhile_append, hne, if_neg Bool.false_ne_true,
    List.reverse_append]
  rfl

theorem data_of_silent (h : silent p = true) : p.1.data = [] := by
  obtain ⟨⟨loc, stmt⟩, pad⟩ := p
  cases stmt with
  | bytes t =>
    have hsize : t.slots.length = 0 := by simpa only [silent, Element.size, beq_iff_eq] using h
    rw [Element.data]
    exact List.map_eq_nil_iff.2 (List.length_eq_zero_iff.1 hsize)
  | _ => rfl

theorem fill_silent (h : silent p = true) (gap : Nat) (l : Padded) :
    fill gap (p :: l) = fill (gap + p.2) l := by
  unfold fill
  rw [List.all_cons, h, Bool.true_and]
  cases hall : l.all silent with
  | true => rfl
  | false =>
    rw [if_neg Bool.false_ne_true, if_neg Bool.false_ne_true, rdropWhile_of_not_all hall,
      List.flatMap_cons, bytes, data_of_silent h, List.append_nil, ← List.append_assoc,
      List.replicate_append_replicate]

theorem fill_template (h : silent p = false) (gap : Nat) (l : Padded) :
    fill gap (p :: l) = List.replicate gap 0 ++ (bytes p ++ fill 0 l) := by
  unfold fill
  rw [List.all_cons, h, Bool.false_and, if_neg Bool.false_ne_true]
  cases hall : l.all silent with
  | true =>
    rw [rdropWhile_of_all hall, h, if_neg Bool.false_ne_true, if_pos rfl, List.flatMap_singleton,
      List.append_nil]
  | false =>
    rw [rdropWhile_of_not_all hall, if_neg Bool.false_ne_true, List.flatMap_cons]
    rfl

theorem filterMap_dropWhile (l : Padded) :
    ((l.dropWhile silent).map Prod.fst).filterMap Element.template? =
      (l.map Prod.fst).filterMap Element.template? := by
  induction l with
  | nil => rfl
  | cons p l ih =>
    rw [List.dropWhile_cons]
    split
    · rename_i hp
      rw [ih, List.map_cons]
      rcases p.1.size_cases with ⟨-, hnone⟩ | ⟨t, hsize, -⟩
      · rw [List.filterMap_cons_none hnone]
      · exact (hsize (by simpa only [silent, beq_iff_eq] using hp)).elim
    · rfl

theorem dropWhile_of_loud {p : Element × Nat} (pre post : Padded) (h : p.1.size ≠ 0) :
    ∃ pre', (pre ++ p :: post).dropWhile silent = pre' ++ p :: post := by
  have hloud : ¬ silent p = true := fun hp => h (beq_iff_eq.1 hp)
  rw [List.dropWhile_append]
  split
  · exact ⟨[], List.dropWhile_cons_of_neg hloud⟩
  · exact ⟨_, rfl⟩

/-- The templates of elements that follow one another are in order and do not overlap. -/
theorem Contiguous.ordered (h : Contiguous out l) :
    (∀ q ∈ (l.map Prod.fst).filterMap Element.template?, out ≤ q.2.out.toInt) ∧
      ((l.map Prod.fst).filterMap Element.template?).Pairwise Before := by
  induction l generalizing out with
  | nil => exact ⟨nofun, .nil⟩
  | cons p l ih =>
    obtain ⟨hp, hl⟩ := h
    obtain ⟨hafter, hpairs⟩ := ih hl
    rw [List.map_cons]
    rcases p.1.size_cases with ⟨hsize, hnone⟩ | ⟨t, -, hstmt, hsize, -, hsome⟩
    · rw [List.filterMap_cons_none hnone]
      refine ⟨fun q hq => ?_, hpairs⟩
      have hle := hafter q hq
      omega
    · rw [List.filterMap_cons_some hsome]
      obtain ⟨hout, -⟩ := hp t hstmt
      constructor
      · intro q hq
        rcases List.mem_cons.1 hq with rfl | hq
        · dsimp only
          omega
        · have hle := hafter q hq
          omega
      · refine .cons (fun q hq => ?_) hpairs
        have hle := hafter q hq
        change t.out.toInt + t.slots.length ≤ q.2.out.toInt
        omega

end Padded

namespace Image

theorem overwrite_grow {bytes : List UInt8} (h : bytes.length ≤ off) (data : List UInt8) :
    overwrite (grow bytes (off + data.length)) off data =
      bytes ++ (List.replicate (off - bytes.length) 0 ++ data) := by
  have hlength : (grow bytes (off + data.length)).length = off + data.length := by
    rw [length_grow]
    omega
  have htake : (grow bytes (off + data.length)).take off =
      bytes ++ List.replicate (off - bytes.length) 0 := by
    rw [grow, List.take_append, List.take_of_length_le h, List.take_replicate]
    congr 2
    omega
  rw [overwrite, htake, hlength, Nat.add_sub_cancel_left, List.take_length,
    List.drop_eq_nil_of_le (by omega), List.append_nil, List.append_assoc]

theorem origin_of_head? (h : p ∈ (Program.templates es).head?) : origin es = p.2.out := by
  obtain ⟨rest, hrest⟩ := List.head?_eq_some_iff.1 h
  rw [origin, hrest]

theorem write_behind {image : Image} {t : Template} (ho : image.overrun = false)
    (hfit : Fits base t) (h : image.bytes.length ≤ start base t) (loc : Location) :
    write base image (loc, t) =
      { image with
        bytes := image.bytes ++
          (List.replicate ((start base t).toNat - image.bytes.length) 0 ++ t.data) } := by
  have hle : base ≤ t.out := by
    rw [Int64.le_iff_toInt_le]
    unfold start at h
    omega
  have hstop : (stop base t).toNat = (start base t).toNat + t.data.length := by
    rw [length_data]
    unfold stop
    omega
  rw [write_of_le ho hfit hle, hstop, overwrite_grow (by omega)]

end Image

namespace Padded

/-- Elements that follow one another are appended to the image. -/
theorem Contiguous.foldl_write {out : Int} {base : Int64} {image : Image} {gap : Nat}
    (h : Contiguous out l) (ho : image.overrun = false) (hbase : 0 ≤ base.toInt)
    (hgap : base.toInt + image.bytes.length + gap = out) (ht : out + total l < 2 ^ 63) :
    ((l.map Prod.fst).filterMap Element.template?).foldl (Image.write base) image =
      { image with bytes := image.bytes ++ fill gap l } := by
  induction l generalizing out image gap with
  | nil =>
    rw [fill, List.all_nil, if_pos rfl, List.append_nil]
    rfl
  | cons p l ih =>
    obtain ⟨hp, hl⟩ := h
    have htotal : total (p :: l) = p.1.size + p.2 + total l := List.sum_cons
    rw [List.map_cons]
    rcases p.1.size_cases with ⟨hsize, hnone⟩ | ⟨t, hne, hstmt, hsize, hdata, hsome⟩
    · have hsilent : silent p = true := beq_iff_eq.2 hsize
      rw [List.filterMap_cons_none hnone, fill_silent hsilent]
      exact ih hl ho (by omega) (by omega)
    · have hloud : silent p = false := beq_eq_false_iff_ne.2 hne
      obtain ⟨hout, hpad⟩ := hp t hstmt
      have hstart : Image.start base t = image.bytes.length + gap := by
        unfold Image.start
        omega
      have hfit : Image.Fits base t := by
        unfold Image.Fits Image.stop
        omega
      have hzeros : (Image.start base t).toNat - image.bytes.length = gap := by omega
      rw [List.filterMap_cons_some hsome, List.foldl_cons,
        Image.write_behind ho hfit (by omega), hzeros]
      refine Eq.trans (@ih _ _ 0 hl (by exact ho) ?_ (by omega)) ?_
      · simp only [List.length_append, List.length_replicate, Image.length_data]
        omega
      · rw [fill_template hloud, bytes, hpad, hdata]
        simp only [List.append_assoc, List.replicate_zero, List.nil_append]

/-- The image of elements that follow one another from the first one that emits anything on. -/
theorem Contiguous.foldl_write_joined {out : Int} {l : Padded}
    (h : Contiguous out (l.dropWhile silent)) (hout : 0 ≤ out)
    (ht : out + total (l.dropWhile silent) < 2 ^ 63) (base : Int64)
    (hbase : ∀ q ∈ ((l.map Prod.fst).filterMap Element.template?).head?, base = q.2.out) :
    ((l.map Prod.fst).filterMap Element.template?).foldl (Image.write base) {} =
      { bytes := joined l } := by
  have hhead := List.head?_dropWhile_not silent l
  rw [← filterMap_dropWhile] at hbase ⊢
  unfold joined
  generalize l.dropWhile silent = d at *
  cases d with
  | nil => rfl
  | cons p d =>
    have hloud : silent p = false := by simpa using hhead
    rcases p.1.size_cases with ⟨hsize, -⟩ | ⟨t, -, hstmt, -, -, hsome⟩
    · rw [silent, hsize] at hloud
      cases hloud
    · have hstart : base.toInt = out := by
        rw [← (h.1 t hstmt).1, hbase (p.1.loc, t)]
        rw [List.map_cons, List.filterMap_cons_some hsome]
        rfl
      have hgap : base.toInt + ([] : List UInt8).length + (0 : Nat) = out := by
        rw [hstart]
        simp only [List.length_nil, Nat.cast_zero, Int.add_zero]
      refine (h.foldl_write rfl (hstart ▸ hout) hgap ht).trans ?_
      rw [fill, List.all_cons, hloud, Bool.false_and, if_neg Bool.false_ne_true]
      rfl

/-- The elements take the same room and have the same padding. -/
def Alike (p q : Element × Nat) : Prop := p.1.extent? = q.1.extent? ∧ p.2 = q.2

theorem alike_zip {es es' : List Element} (h : es.map Element.extent? = es'.map Element.extent?)
    (paddings : List Nat) : List.Forall₂ Alike (es.zip paddings) (es'.zip paddings) := by
  induction es generalizing es' paddings with
  | nil =>
    obtain rfl : es' = [] := List.map_eq_nil_iff.1 h.symm
    exact .nil
  | cons e es ih =>
    cases es' with
    | nil => cases h
    | cons e' es' =>
      obtain ⟨he, hes⟩ := List.cons.inj h
      cases paddings with
      | nil => exact .nil
      | cons n paddings => exact .cons ⟨he, rfl⟩ (ih hes paddings)

theorem Alike.template {p q : Element × Nat} (h : Alike p q) (hq : q.1.stmt = .bytes t) :
    ∃ t', p.1.stmt = .bytes t' ∧ t'.extent = t.extent := by
  obtain ⟨⟨loc, stmt⟩, n⟩ := p
  obtain ⟨he, -⟩ := h
  unfold Element.extent? at he
  rw [hq] at he
  cases stmt with
  | bytes t' => exact ⟨t', rfl, congrArg Prod.snd (Option.some.inj he)⟩
  | _ => cases he

theorem Alike.size {p q : Element × Nat} (h : Alike p q) : p.1.size = q.1.size := by
  have hsize (e : Element) : e.size = (e.extent?.map fun p => p.2.size).getD 0 := by
    obtain ⟨loc, stmt⟩ := e
    cases stmt with
    | bytes => rfl
    | _ => rfl
  rw [hsize, hsize, h.1]

section
variable {l l' : Padded}

theorem alike_dropWhile (h : List.Forall₂ Alike l l') :
    List.Forall₂ Alike (l.dropWhile silent) (l'.dropWhile silent) := by
  induction h with
  | nil => exact .nil
  | cons hp hl ih =>
    rw [List.dropWhile_cons, List.dropWhile_cons, silent, silent, hp.size]
    split
    · exact ih
    · exact .cons hp hl

theorem total_congr (h : List.Forall₂ Alike l l') : total l = total l' := by
  induction h with
  | nil => rfl
  | cons hp hl ih =>
    simp only [total, List.map_cons, List.sum_cons, hp.size, hp.2] at ih ⊢
    rw [ih]

theorem Contiguous.congr (hc : Contiguous out l) (h : List.Forall₂ Alike l l') :
    Contiguous out l' := by
  induction h generalizing out with
  | nil => exact hc
  | cons hp hl ih =>
    obtain ⟨hout, hrest⟩ := hc
    constructor
    · intro t ht
      obtain ⟨t', ht', hextent⟩ := hp.template ht
      have hplace : t'.out = t.out := congrArg Extent.out hextent
      rw [← hp.2, ← hplace]
      exact hout t' ht'
    · rw [← hp.size, ← hp.2]
      exact ih hrest

theorem Contiguous.skip {mid l : Padded} (h : Contiguous out (mid ++ l))
    (hmid : ∀ m ∈ mid, m.1.size + m.2 = 0) : Contiguous out l := by
  induction mid with
  | nil => exact h
  | cons m mid ih =>
    obtain ⟨-, hrest⟩ := h
    rw [hmid m List.mem_cons_self, Nat.cast_zero, Int.add_zero] at hrest
    exact ih hrest fun a ha => hmid a (List.mem_cons_of_mem m ha)

theorem Contiguous.adjacent {pre mid post : Padded} {p q : Element × Nat}
    (h : Contiguous out (pre ++ p :: (mid ++ q :: post))) (hp : p.1.stmt = .bytes a)
    (hq : q.1.stmt = .bytes b) (hmid : ∀ m ∈ mid, m.1.size + m.2 = 0) :
    a.out.toInt + a.slots.length = b.out.toInt := by
  induction pre generalizing out with
  | nil =>
    obtain ⟨hout, hrest⟩ := h
    obtain ⟨ha, hpadding⟩ := hout a hp
    obtain ⟨hb, -⟩ := (hrest.skip hmid).1 b hq
    have hsize : p.1.size = a.slots.length := by rw [Element.size, hp]
    omega
  | cons m pre ih => exact ih h.2

end
end Padded

end Z80Asm
