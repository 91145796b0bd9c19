import Z80Asm.Proofs.OutputOrder

/-! The output of labels and templates alone, behind an origin or from address 0 on. Nothing stands
between the templates, and the image has their bytes and no other ones. -/

namespace Z80Asm
set_option autoImplicit true

def Element.Flat (e : Element) : Prop := (∃ l, e.stmt = .label l) ∨ ∃ t, e.stmt = .bytes t

theorem Element.Flat.ne {e : Element} {stmt : Statement} (h : e.Flat)
    (hlabel : ∀ l, stmt ≠ .label l) (hbytes : ∀ t, stmt ≠ .bytes t) : e.stmt ≠ stmt := by
  intro hstmt
  rcases h with ⟨l, hl⟩ | ⟨t, ht⟩
  · exact hlabel l (hstmt.symm.trans hl)
  · exact hbytes t (hstmt.symm.trans ht)

theorem Element.size_of_not_bytes {e : Element} (h : ∀ t, e.stmt ≠ .bytes t) : e.size = 0 := by
  rcases e.size_cases with ⟨hsize, -⟩ | ⟨t, -, ht, -⟩
  · exact hsize
  · exact absurd ht (h t)

namespace Padded

theorem total_cons (p : Element × Nat) (l : Padded) : total (p :: l) = p.1.size + p.2 + total l :=
  List.sum_cons

def Unpadded (l : Padded) : Prop := ∀ p ∈ l, p.2 = 0

theorem fill_unpadded (h : Unpadded l) : fill 0 l = (l.map Prod.fst).flatMap Element.data := by
  induction l with
  | nil => rfl
  | cons p l ih =>
    obtain ⟨hpad, hl⟩ := List.forall_mem_cons.1 h
    rw [List.map_cons, List.flatMap_cons, ← ih hl]
    cases hp : silent p with
    | true => rw [fill_silent hp, hpad, data_of_silent hp, List.nil_append]
    | false =>
      rw [fill_template hp, bytes, hpad, List.replicate_zero, List.nil_append, List.nil_append]

theorem zip_zeros {es : List Element} {ns : List Nat} (h : ∀ n ∈ ns, n = 0)
    (hlength : ns.length = es.length) :
    es.zip ns = es.map (·, 0) := by
  rw [List.eq_replicate_of_mem h, hlength]
  clear hlength
  induction es with
  | nil => rfl
  | cons e es ih => exact congrArg _ ih

theorem Contiguous.out_head? (h : Contiguous out l) (hpad : Unpadded l) :
    ∀ q ∈ ((l.map Prod.fst).filterMap Element.template?).head?, q.2.out.toInt = out := by
  induction l with
  | nil => exact nofun
  | cons p l ih =>
    obtain ⟨hp, hl⟩ := h
    obtain ⟨hzero, hrest⟩ := List.forall_mem_cons.1 hpad
    rw [List.map_cons]
    rcases p.1.size_cases with ⟨hsize, hnone⟩ | ⟨t, -, hstmt, -, -, hsome⟩
    · rw [hsize, hzero, Nat.add_zero, Nat.cast_zero, Int.add_zero] at hl
      rw [List.filterMap_cons_none hnone]
      exact ih hl hrest
    · rw [List.filterMap_cons_some hsome]
      intro q hq
      cases hq
      exact (hp t hstmt).1

theorem Contiguous.foldl_write_unpadded (h : Contiguous out l) (hpad : Unpadded l) (hout : 0 ≤ out)
    (ht : out + total l < 2 ^ 63) (base : Int64)
    (hbase : ∀ q ∈ ((l.map Prod.fst).filterMap Element.template?).head?, base = q.2.out) :
    ((l.map Prod.fst).filterMap Element.template?).foldl (Image.write base) {} =
      { bytes := (l.map Prod.fst).flatMap Element.data } := by
  have hhead := h.out_head? hpad
  cases hts : (l.map Prod.fst).filterMap Element.template? with
  | nil =>
    have hdata : (l.map Prod.fst).flatMap Element.data = [] := by
      rw [List.flatMap_eq_nil_iff]
      intro e he
      have hsize := Element.size_of_template? (List.filterMap_eq_nil_iff.1 hts e he)
      exact data_of_silent (p := (e, 0)) (beq_iff_eq.2 hsize)
    rw [hdata]
    rfl
  | cons q ts =>
    have hq : base.toInt = out := by
      rw [hts] at hhead hbase
      rw [hbase q rfl, hhead q rfl]
    have hgap : base.toInt + ([] : List UInt8).length + (0 : Nat) = out := by
      rw [hq, List.length_nil, Nat.cast_zero, Int.add_zero, Int.add_zero]
    have himage : ((l.map Prod.fst).filterMap Element.template?).foldl (Image.write base) {} =
        { bytes := [] ++ fill 0 l } := h.foldl_write rfl (hq ▸ hout) hgap ht
    rw [← hts, himage, fill_unpadded hpad]
    rfl

end Padded

namespace Layout

namespace State
variable {s : State} {es : List Element}

theorem paddings_zero (h : ∀ e ∈ es, ∀ v, e.stmt ≠ .align v) : ∀ n ∈ s.paddings es, n = 0 := by
  induction es generalizing s with
  | nil => exact nofun
  | cons e es ih =>
    obtain ⟨he, hes⟩ := List.forall_mem_cons.1 h
    rw [paddings, s.padding_of_not_align he]
    exact List.forall_mem_cons.2 ⟨rfl, ih hes⟩

theorem total_le (ho : s.overflowed = false) (hs : InRange s.address) (hes : ∀ e ∈ es, e.Flat)
    (hsizes : ∀ e ∈ (Program.thread step s es).1, e.size < 2 ^ 63)
    (hq : (Program.thread step s es).2.diagnostics = []) :
    s.address.toInt + Padded.total (s.laid es) ≤ 0x10000 := by
  induction es generalizing s with
  | nil =>
    have hle : s.address.toInt ≤ 0x10000 := Int64.le_iff_toInt_le.1 hs.2
    have hnone : Padded.total (s.laid []) = 0 := rfl
    omega
  | cons e es ih =>
    have hquiet : (s.step e).2.diagnostics = [] := ((s.step e).2.thread_reports es).quiet hq
    obtain ⟨he, hrest⟩ := List.forall_mem_cons.1 hes
    obtain ⟨hsize, hothers⟩ := List.forall_mem_cons.1 hsizes
    have hsize : (s.place e).size < 2 ^ 63 := hsize
    obtain ⟨hf, hmoves⟩ := step_moves ho hquiet
    have hpad : (s.padding e).toInt.toNat = 0 := by
      rw [s.padding_of_not_align fun _ => he.ne nofun nofun]
      rfl
    rw [total_laid_cons, advance, hpad]
    rcases he with ⟨l, hl⟩ | ⟨t, ht⟩
    · have hsame : (s.step e).2.address = s.address := by
        simp only [Moves, hl] at hmoves
        exact hmoves.1
      have hbytes : ∀ t, e.stmt ≠ .bytes t := by
        intro t ht
        cases hl.symm.trans ht
      have hzero := s.size_place hbytes
      have hbound := ih hf (hsame ▸ hs) hrest hothers hq
      rw [hsame] at hbound
      omega
    · obtain ⟨hrange, haddress, -⟩ : InRange (s.step e).2.address ∧
          (s.step e).2.address = s.address + Int64.ofNat (s.place e).size ∧ _ := by
        simpa only [Moves, ht] using hmoves
      have hbound := ih hf hrange hrest hothers hq
      have hfits := toInt_add_le hs (haddress ▸ hrange) hsize
      have hnonneg : 0 ≤ s.address.toInt := hs.nonneg
      rw [haddress, toInt_add_ofNat hnonneg (by omega)] at hbound
      omega

end State

/-- Labels and templates, behind an origin or from address 0 on. -/
inductive Unbroken : Int64 → List Element → Prop where
  | flat : (∀ e ∈ es, e.Flat) → Unbroken 0 es
  | org : (∀ e ∈ es, e.Flat) → Unbroken n (⟨loc, .org (.number n)⟩ :: es)

theorem Unbroken.mem (h : Unbroken origin es) (he : e ∈ es) : e.Flat ∨ ∃ v, e.stmt = .org v := by
  cases h with
  | flat hes => exact .inl (hes e he)
  | org hes =>
    rcases List.mem_cons.1 he with rfl | he
    · exact .inr ⟨_, rfl⟩
    · exact .inl (hes e he)

theorem Unbroken.ne {stmt : Statement} (h : Unbroken origin es) (hlabel : ∀ l, stmt ≠ .label l)
    (hbytes : ∀ t, stmt ≠ .bytes t) (horg : ∀ v, stmt ≠ .org v) : ∀ e ∈ es, e.stmt ≠ stmt := by
  intro e he
  rcases h.mem he with hflat | ⟨v, hv⟩
  · exact hflat.ne hlabel hbytes
  · exact fun hstmt => horg v (hstmt.symm.trans hv)

namespace State

theorem step_org {s : State} (ho : s.overflowed = false) (loc : Location) (n : Int64)
    (hq : (s.step ⟨loc, .org (.number n)⟩).2.diagnostics = []) :
    (s.step ⟨loc, .org (.number n)⟩).2.overflowed = false ∧
      (s.step ⟨loc, .org (.number n)⟩).2.address = n ∧
      (s.step ⟨loc, .org (.number n)⟩).2.out = n ∧ InRange n := by
  obtain ⟨n', table, hn, hs⟩ := step_of_directive rfl hq
  obtain rfl : n = n' := Option.some.inj hn
  rw [hs] at hq ⊢
  obtain ⟨hf, hrange, haddress, hout⟩ :=
    checkRange_of_quiet { s with table, address := n, out := n } loc ho hq
  rw [haddress] at hrange
  exact ⟨hf, haddress, hout, hrange⟩

/-- Labels and templates that report nothing follow one another from where they begin. -/
theorem contiguous_of_flat {s : State} (ho : s.overflowed = false) (hs : InRange s.address)
    (htogether : s.address = s.out) (hes : ∀ e ∈ es, e.Flat)
    (hsizes : ∀ e ∈ (Program.thread step s es).1, e.size < 2 ^ 63)
    (hq : (Program.thread step s es).2.diagnostics = []) :
    Padded.Contiguous s.address.toInt (s.laid es) := by
  have hbound := total_le ho hs hes hsizes hq
  rw [htogether] at hbound ⊢
  have hsteady : s.Steady := ⟨ho, hs.nonneg, htogether ▸ hs.nonneg⟩
  exact hsteady.contiguous hq (fun e he _ => (hes e he).ne nofun nofun) (by omega)

end State

/-- A program of labels and templates that is laid out without problems stands in the address space
as it is written. -/
theorem Unbroken.contiguous {t : SymbolTable} (h : Unbroken origin (Program.outside es))
    (hq : (assign es t).diagnostics = [])
    (hsizes : ∀ e ∈ Program.outside (assign es t).program, e.size < 2 ^ 63) :
    0 ≤ origin.toInt ∧ origin.toInt + (laid es t).total ≤ 0x10000 ∧
      Padded.Contiguous origin.toInt (laid es t) := by
  rw [outside_assign] at hsizes
  rw [assign_diagnostics] at hq
  unfold laid
  generalize Program.outside es = elements at h hsizes hq
  cases h with
  | flat hes =>
    let s : State := { table := t }
    have hzero : InRange 0 := by decide
    have hs : InRange s.address := hzero
    have hbound : s.address.toInt + (s.laid elements).total ≤ 0x10000 :=
      State.total_le rfl hs hes hsizes hq
    have hcontiguous : Padded.Contiguous s.address.toInt (s.laid elements) :=
      State.contiguous_of_flat rfl hs rfl hes hsizes hq
    exact ⟨hzero.nonneg, hbound, hcontiguous⟩
  | @org body _ loc hes =>
    let s : State := (State.step { table := t } ⟨loc, .org (.number origin)⟩).2
    have hquiet : s.diagnostics = [] := (s.thread_reports body).quiet hq
    obtain ⟨ho, haddress, hout, hrange⟩ := State.step_org rfl loc origin hquiet
    have hsizes : ∀ e ∈ (Program.thread State.step s body).1, e.size < 2 ^ 63 :=
      (List.forall_mem_cons.1 hsizes).2
    have hs : InRange s.address := haddress ▸ hrange
    have htogether : s.address = s.out := haddress.trans hout.symm
    have hbound := State.total_le ho hs hes hsizes hq
    have hcontiguous := State.contiguous_of_flat ho hs htogether hes hsizes hq
    rw [haddress] at hbound hcontiguous
    -- the origin itself emits nothing
    have hadvance : State.advance { table := t } ⟨loc, .org (.number origin)⟩ = 0 := rfl
    refine ⟨hrange.nonneg, ?_, nofun, ?_⟩
    · rw [State.total_laid_cons, hadvance, Nat.zero_add]
      exact hbound
    · exact (Int.add_zero _).symm ▸ hcontiguous

theorem Unbroken.together {t : SymbolTable} (h : Unbroken origin (Program.outside es))
    (hq : (assign es t).diagnostics = []) (he : e ∈ Program.outside (assign es t).program)
    (htm : e.stmt = .bytes tm) : tm.address = tm.out := by
  rw [outside_assign] at he
  obtain ⟨pre, a, post, hpos, rfl⟩ := Program.mem_thread_split he
  obtain ⟨t₀, -, rfl⟩ := State.bytes_of_step htm
  have hstart : (State.through t []).address = (State.through t []).out := rfl
  have hall : Program.outside es = [] ++ pre ++ a :: post := hpos
  have hphase (v : Value) : ∀ b ∈ Program.outside es, b.stmt ≠ .phase v := h.ne nofun nofun nofun
  refine together_through hq hall hstart fun b hb v => ?_
  exact hphase v b (hpos ▸ List.mem_append_left _ hb)

/-- What becomes of a program of labels and templates: its templates stand one behind the other from
the origin on, and so do their bytes in the image. -/
structure Seated (origin : Int64) (final : List Element) : Prop where
  nonneg : 0 ≤ origin.toInt
  image : Image.assemble final = { bytes := (Program.outside final).flatMap Element.data }
  together : ∀ e ∈ Program.outside final, ∀ t, e.stmt = .bytes t → t.address = t.out
  contiguous : Padded.Contiguous origin.toInt ((Program.outside final).map (·, 0))
  bound : origin.toInt + Padded.total ((Program.outside final).map (·, 0)) ≤ 0x10000

theorem alike_laid {t : SymbolTable} (halign : ∀ e ∈ Program.outside es, ∀ v, e.stmt ≠ .align v)
    (hextents : (Program.outside final).map Element.extent? =
      (Program.outside (assign es t).program).map Element.extent?) :
    List.Forall₂ Padded.Alike (laid es t) ((Program.outside final).map (·, 0)) := by
  have hlength : (State.paddings { table := t } (Program.outside es)).length =
      (Program.outside final).length := by
    have hextents := congrArg List.length hextents
    rw [List.length_map, List.length_map, outside_assign, Program.length_thread] at hextents
    rw [State.length_paddings, hextents]
  rw [laid, State.laid, ← outside_assign, ← Padded.zip_zeros (State.paddings_zero halign) hlength]
  exact Padded.alike_zip hextents.symm _

theorem Unbroken.seated {t : SymbolTable} (h : Unbroken origin (Program.outside es))
    (hq : (assign es t).diagnostics = [])
    (hextents : (Program.outside final).map Element.extent? =
      (Program.outside (assign es t).program).map Element.extent?)
    (hsizes : ∀ e ∈ Program.outside final, e.size < 2 ^ 63) : Seated origin final := by
  have halign (v : Value) : ∀ e ∈ Program.outside es, e.stmt ≠ .align v := h.ne nofun nofun nofun
  have halike := alike_laid (fun e he v => halign v e he) hextents
  have hplaced : ∀ e ∈ Program.outside final, ∃ f ∈ Program.outside (assign es t).program,
      Padded.Alike (f, 0) (e, 0) := by
    intro e he
    obtain ⟨f, hf, hextent⟩ := List.mem_map.1 (hextents ▸ List.mem_map_of_mem he)
    exact ⟨f, hf, hextent, rfl⟩
  have hroom : ∀ f ∈ Program.outside (assign es t).program, f.size < 2 ^ 63 := by
    intro f hf
    obtain ⟨e, he, hextent⟩ := List.mem_map.1 (hextents ▸ List.mem_map_of_mem hf)
    have hsize := Padded.Alike.size (p := (e, 0)) (q := (f, 0)) ⟨hextent, rfl⟩
    exact hsize ▸ hsizes e he
  have hfst : ((Program.outside final).map (·, 0)).map Prod.fst = Program.outside final := by
    rw [List.map_map]
    exact List.map_id _
  have hpad : Padded.Unpadded ((Program.outside final).map (·, 0)) := by
    intro p hp
    obtain ⟨e, -, rfl⟩ := List.mem_map.1 hp
    rfl
  obtain ⟨hnonneg, hbound, hcontiguous⟩ := h.contiguous hq hroom
  have hcontiguous := hcontiguous.congr halike
  rw [Padded.total_congr halike] at hbound
  have himage := hcontiguous.foldl_write_unpadded hpad hnonneg (by omega) (Image.origin final)
  rw [hfst] at himage
  refine ⟨hnonneg, himage fun q hq => Image.origin_of_head? hq, ?_, hcontiguous, hbound⟩
  intro e he tm htm
  obtain ⟨f, hf, hfe⟩ := hplaced e he
  obtain ⟨tm', htm', hsame⟩ := hfe.template htm
  have htogether := h.together hq hf htm'
  have haddress : tm'.address = tm.address := congrArg Extent.address hsame
  have hout : tm'.out = tm.out := congrArg Extent.out hsame
  exact haddress.symm.trans (htogether.trans hout)

end Layout
end Z80Asm
