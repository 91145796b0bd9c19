import Z80Asm.Proofs.PaddedOutput

/-! The output of a program that sets no origin behind its first byte. Its templates follow one
another, with nothing but the padding of alignments between them, and so does the image. -/

namespace Z80Asm
set_option autoImplicit true

namespace Layout.State

def paddings (s : State) : List Element → List Nat
  | [] => []
  | e :: es => (s.padding e).toInt.toNat :: paddings (s.step e).2 es

def laid (s : State) (es : List Element) : Padded :=
  (Program.thread step s es).1.zip (s.paddings es)

theorem length_paddings (s : State) (es : List Element) : (s.paddings es).length = es.length := by
  induction es generalizing s with
  | nil => rfl
  | cons e es ih => exact congrArg (· + 1) (ih _)

theorem laid_cons (s : State) (e : Element) (es : List Element) :
    s.laid (e :: es) = (s.place e, (s.padding e).toInt.toNat) :: (s.step e).2.laid es := rfl

theorem map_fst_laid (s : State) (es : List Element) :
    (s.laid es).map Prod.fst = (Program.thread step s es).1 := by
  apply List.map_fst_zip
  rw [Program.length_thread, length_paddings]

theorem total_laid_cons (s : State) (e : Element) (es : List Element) :
    Padded.total (s.laid (e :: es)) = s.advance e + Padded.total ((s.step e).2.laid es) :=
  List.sum_cons

section
variable {s : State} {es : List Element}

theorem mem_laid_of_org (h : e ∈ es) (he : e.stmt = .org v) : ∃ n, (e, n) ∈ s.laid es := by
  induction es generalizing s with
  | nil => cases h
  | cons a es ih =>
    rw [laid_cons]
    rcases List.mem_cons.1 h with rfl | h
    · have hplace : s.place e = e := s.place_eq (by rw [he]; nofun) (by rw [he]; nofun)
      rw [hplace]
      exact ⟨_, List.mem_cons_self⟩
    · obtain ⟨n, hn⟩ := ih h
      exact ⟨n, List.mem_cons_of_mem _ hn⟩

theorem padding_of_mem_laid (h : p ∈ s.laid es) (hp : ∀ v, p.1.stmt ≠ .align v) : p.2 = 0 := by
  induction es generalizing s with
  | nil => cases h
  | cons e es ih =>
    rw [laid_cons] at h
    rcases List.mem_cons.1 h with rfl | h
    · have halign : ∀ v, e.stmt ≠ .align v := by
        intro v hv
        have hplace : s.place e = e := s.place_eq (by rw [hv]; nofun) (by rw [hv]; nofun)
        rw [hplace] at hp
        exact hp v hv
      dsimp only
      rw [s.padding_of_not_align halign]
      rfl
    · exact ih h

theorem Steady.contiguous (h : s.Steady) (hq : (Program.thread State.step s es).2.diagnostics = [])
    (horg : ∀ e ∈ es, ∀ v, e.stmt ≠ .org v)
    (ht : s.out.toInt + Padded.total (s.laid es) < 2 ^ 63) :
    Padded.Contiguous s.out.toInt (s.laid es) := by
  induction es generalizing s with
  | nil => exact trivial
  | cons e es ih =>
    have hquiet : (s.step e).2.diagnostics = [] := ((s.step e).2.thread_reports es).quiet hq
    rw [total_laid_cons] at ht
    obtain ⟨hsteady, ⟨⟨v, hv⟩, -⟩ | ⟨-, hout⟩⟩ := h.step hquiet (by omega)
    · exact (horg e List.mem_cons_self v hv).elim
    · constructor
      · intro tm htm
        obtain ⟨t, hbytes, rfl⟩ := bytes_of_step htm
        have hpadding : s.padding e = 0 := by
          apply s.padding_of_not_align
          intro v hv
          rw [hbytes] at hv
          cases hv
        refine ⟨rfl, ?_⟩
        dsimp only
        rw [hpadding]
        rfl
      · have hrest := ih hsteady hq (fun a ha => horg a (List.mem_cons_of_mem e ha)) (by omega)
        rw [hout] at hrest
        exact hrest

theorem Steady.contiguous_dropWhile (h : s.Steady)
    (hq : (Program.thread State.step s es).2.diagnostics = [])
    (horg : ∀ p ∈ (s.laid es).dropWhile Padded.silent, ∀ v, p.1.stmt ≠ .org v)
    (ht : Padded.total (s.laid es) < 2 ^ 62)
    (hout : s.out.toInt + Padded.total (s.laid es) ≤ 2 ^ 62 + 0x10000) :
    ∃ out : Int, 0 ≤ out ∧ out + Padded.total ((s.laid es).dropWhile Padded.silent) < 2 ^ 63 ∧
      Padded.Contiguous out ((s.laid es).dropWhile Padded.silent) := by
  induction es generalizing s with
  | nil => exact ⟨0, Int.le_refl 0, (by decide : (0 : Int) + 0 < 2 ^ 63), trivial⟩
  | cons e es ih =>
    have hquiet : (s.step e).2.diagnostics = [] := ((s.step e).2.thread_reports es).quiet hq
    by_cases hsilent : Padded.silent (s.place e, (s.padding e).toInt.toNat) = true
    · rw [laid_cons, List.dropWhile_cons_of_pos hsilent] at horg ⊢
      rw [total_laid_cons] at ht hout
      obtain ⟨hsteady, hmove⟩ := h.step hquiet (by omega)
      apply ih hsteady hq horg (by omega)
      rcases hmove with ⟨-, hlow⟩ | ⟨-, hmove⟩
      · omega
      · omega
    · rw [laid_cons, List.dropWhile_cons_of_neg hsilent, ← laid_cons] at horg ⊢
      refine ⟨s.out.toInt, h.out, by omega, h.contiguous hq ?_ (by omega)⟩
      intro a ha v hv
      obtain ⟨n, hn⟩ := s.mem_laid_of_org ha hv
      exact horg (a, n) hn v hv

end

end Layout.State

namespace Layout

def laid (es : List Element) (t : SymbolTable) : Padded :=
  State.laid { table := t } (Program.outside es)

structure InOrder (es : List Element) (t : SymbolTable) : Prop where
  /-- Templates do not overlap, and stand in the output as they do in the program. -/
  ordered : (Program.templates (assign es t).program).Pairwise Before
  /-- Without an alignment between them they are adjacent. -/
  adjacent : ∀ (pre mid post : List Element) (a b : Element) (p q : Location × Template),
    Program.outside (assign es t).program = pre ++ a :: (mid ++ b :: post) →
    a.template? = some p → b.template? = some q →
    (∀ e ∈ mid, e.template? = none ∧ ∀ v, e.stmt ≠ .align v) →
    p.2.out.toInt + p.2.slots.length = q.2.out.toInt
  /-- The image joins their bytes, also when operands have been patched. -/
  image : ∀ final, final = (assign es t).program ∨
      (∃ table, final = (Patch.patch (assign es t).program table).program) →
    Image.assemble final =
      { bytes := Padded.joined
          ((Program.outside final).zip (State.paddings { table := t } (Program.outside es)))
        diagnostics := []
        overrun := false }

/-- How far the address of an element is from its output offset. -/
structure Phased (es : List Element) (t : SymbolTable) : Prop where
  /-- Templates are placed where layout stands. -/
  placed : ∀ pre e post, Program.outside es = pre ++ e :: post →
    (Program.outside (assign es t).program)[pre.length]? = some ((State.through t pre).place e) ∧
      ∀ tm, ((State.through t pre).place e).stmt = .bytes tm →
        tm.address = (State.through t pre).address ∧ tm.out = (State.through t pre).out
  /-- No phase since the start or since an element that rejoins the two. -/
  unphased : ∀ pre mid post, Program.outside es = pre ++ mid ++ post →
    (∀ e ∈ pre.getLast?, Rejoins e) → (∀ e ∈ mid, ∀ v, e.stmt ≠ .phase v) →
    (State.through t (pre ++ mid)).address - (State.through t (pre ++ mid)).out = 0
  /-- A phase, and nothing since that begins or ends one. -/
  phased : ∀ pre e v mid post, Program.outside es = pre ++ [e] ++ mid ++ post →
    e.stmt = .phase v → (∀ a ∈ mid, ¬ Rejoins a ∧ ∀ v, a.stmt ≠ .phase v) →
    (State.through t (pre ++ [e] ++ mid)).address - (State.through t (pre ++ [e] ++ mid)).out =
      (State.through t (pre ++ [e])).address - (State.through t (pre ++ [e])).out

section
variable {es : List Element} {t : SymbolTable}

theorem map_fst_laid (es : List Element) (t : SymbolTable) :
    (laid es t).map Prod.fst = Program.outside (assign es t).program := by
  rw [outside_assign]
  exact State.map_fst_laid _ _

theorem phased (hq : (assign es t).diagnostics = []) : Phased es t := by
  constructor
  · intro pre e post hpos
    constructor
    · rw [outside_assign, hpos, Program.thread_middle, List.getElem?_append_right,
        Program.length_thread, Nat.sub_self]
      · rfl
      · rw [Program.length_thread]
    · intro tm htm
      obtain ⟨t₀, -, rfl⟩ := State.bytes_of_step htm
      exact ⟨rfl, rfl⟩
  · intro pre mid post hpos hlast hmid
    have hstart := rejoined_through hq (List.append_assoc pre mid post ▸ hpos) hlast
    rw [together_through hq hpos hstart hmid, Int64.sub_self]
  · intro pre e v mid post hpos _ hmid
    exact sub_through hq hpos hmid

/-- From the first element that emits anything on, a program without a later origin is laid out
without a gap. -/
theorem contiguous_laid (hq : (assign es t).diagnostics = [])
    (horg : ∀ e ∈ (Program.outside (assign es t).program).dropWhile (·.size == 0),
      ∀ v, e.stmt ≠ .org v)
    (ht : (laid es t).total < 2 ^ 62) :
    ∃ out : Int, 0 ≤ out ∧ out + Padded.total ((laid es t).dropWhile Padded.silent) < 2 ^ 63 ∧
      Padded.Contiguous out ((laid es t).dropWhile Padded.silent) := by
  have hsteady : State.Steady { table := t } := ⟨rfl, Int.le_refl 0, Int.le_refl 0⟩
  have hbound : (0 : Int64).toInt + (laid es t).total ≤ 2 ^ 62 + 0x10000 := by
    rw [Int64.toInt_zero]
    omega
  rw [assign_diagnostics] at hq
  refine hsteady.contiguous_dropWhile hq ?_ ht hbound
  intro p hp
  apply horg
  rw [← map_fst_laid, List.dropWhile_map]
  exact List.mem_map_of_mem hp

theorem adjacent_of_contiguous {out : Int} {pre mid post : List Element} {a b : Element}
    {p q : Location × Template}
    (hc : Padded.Contiguous out ((laid es t).dropWhile Padded.silent))
    (hpos : Program.outside (assign es t).program = pre ++ a :: (mid ++ b :: post))
    (ha : a.template? = some p) (hb : b.template? = some q)
    (hmid : ∀ e ∈ mid, e.template? = none ∧ ∀ v, e.stmt ≠ .align v) :
    p.2.out.toInt + p.2.slots.length = q.2.out.toInt := by
  obtain ⟨hloud, ha⟩ := Element.bytes_of_template? ha
  obtain ⟨-, hb⟩ := Element.bytes_of_template? hb
  rw [← map_fst_laid] at hpos
  obtain ⟨lpre, rest, hlaid, rfl, hrest⟩ := List.map_eq_append_iff.1 hpos
  obtain ⟨x, rest', rfl, rfl, hrest'⟩ := List.map_eq_cons_iff.1 hrest
  obtain ⟨lmid, rest'', rfl, rfl, hrest''⟩ := List.map_eq_append_iff.1 hrest'
  obtain ⟨y, lpost, rfl, rfl, rfl⟩ := List.map_eq_cons_iff.1 hrest''
  have hskip : ∀ m ∈ lmid, m.1.size + m.2 = 0 := by
    intro m hm
    obtain ⟨hnone, halign⟩ := hmid m.1 (List.mem_map_of_mem hm)
    have hmem : m ∈ laid es t := by
      rw [hlaid]
      exact List.mem_append_right _ (List.mem_cons_of_mem _ (List.mem_append_left _ hm))
    rw [Element.size_of_template? hnone, State.padding_of_mem_laid hmem halign]
  obtain ⟨lpre', hdrop⟩ := Padded.dropWhile_of_loud lpre (lmid ++ y :: lpost) hloud
  rw [hlaid, hdrop] at hc
  exact hc.adjacent ha hb hskip

theorem image_of_contiguous {out : Int} {final : List Element} (hout : 0 ≤ out)
    (hbound : out + Padded.total ((laid es t).dropWhile Padded.silent) < 2 ^ 63)
    (hc : Padded.Contiguous out ((laid es t).dropWhile Padded.silent))
    (hextents : (Program.outside final).map Element.extent? =
      (Program.outside (assign es t).program).map Element.extent?) :
    Image.assemble final =
      { bytes := Padded.joined
          ((Program.outside final).zip (State.paddings { table := t } (Program.outside es))) } := by
  have hlength : (Program.outside final).length = (Program.outside es).length := by
    have hlength := congrArg List.length hextents
    rw [List.length_map, List.length_map, outside_assign, Program.length_thread] at hlength
    exact hlength
  have hfst : ((Program.outside final).zip
      (State.paddings { table := t } (Program.outside es))).map Prod.fst =
        Program.outside final := by
    apply List.map_fst_zip
    rw [State.length_paddings, hlength]
  have halike : List.Forall₂ Padded.Alike ((laid es t).dropWhile Padded.silent)
      (((Program.outside final).zip
        (State.paddings { table := t } (Program.outside es))).dropWhile Padded.silent) := by
    apply Padded.alike_dropWhile
    apply Padded.alike_zip
    rw [hextents, outside_assign]
  rw [Padded.total_congr halike] at hbound
  have himage := (hc.congr halike).foldl_write_joined hout hbound (Image.origin final)
  rw [hfst] at himage
  apply himage
  intro q hq
  exact Image.origin_of_head? hq

/-- A program that sets no origin behind the first template that emits anything loses nothing of its
output. Whether a template emits anything is known once it is placed. -/
theorem output_in_order (es : List Element) (t : SymbolTable)
    (hq : (assign es t).diagnostics = [])
    (horg : ∀ e ∈ (Program.outside (assign es t).program).dropWhile (·.size == 0),
      ∀ v, e.stmt ≠ .org v)
    (ht : (laid es t).total < 2 ^ 62) : InOrder es t ∧ Phased es t := by
  obtain ⟨out, hout, hbound, hc⟩ := contiguous_laid hq horg ht
  refine ⟨⟨?_, ?_, ?_⟩, phased hq⟩
  · have hordered := hc.ordered.2
    rw [Padded.filterMap_dropWhile, map_fst_laid] at hordered
    exact hordered
  · intro pre mid post a b p q
    exact adjacent_of_contiguous hc
  · intro final hfinal
    apply image_of_contiguous hout hbound hc
    rcases hfinal with rfl | ⟨table, rfl⟩
    · rfl
    · exact Patch.extents_patch (fun e he => placed_assign t he) table

end

/-- Bytes with a phase and an alignment between them, and an origin in a macro definition. -/
def phasedRun : List Element :=
  [⟨⟨"f", 1⟩, .org (.number 0x100)⟩, ⟨⟨"f", 2⟩, .bytes ⟨[.byte 1, .byte 2, .byte 3], 0, 0, false⟩⟩,
    ⟨⟨"f", 3⟩, .phase (.number 0x8000)⟩, ⟨⟨"f", 4⟩, .bytes ⟨[.byte 4], 0, 0, false⟩⟩,
    ⟨⟨"f", 5⟩, .align (.number 4)⟩, ⟨⟨"f", 6⟩, .bytes ⟨[.byte 5], 0, 0, false⟩⟩,
    ⟨⟨"f", 7⟩, .endPhase⟩, ⟨⟨"f", 8⟩, .macroDef "m" []⟩, ⟨⟨"f", 9⟩, .org (.number 0)⟩,
    ⟨⟨"f", 10⟩, .endMacro⟩, ⟨⟨"f", 11⟩, .bytes ⟨[.byte 6], 0, 0, false⟩⟩]

theorem output_in_order_phasedRun :
    (assign phasedRun .empty).diagnostics = [] ∧ (laid phasedRun .empty).total = 9 ∧
      InOrder phasedRun .empty ∧ Phased phasedRun .empty ∧
      (Image.assemble (assign phasedRun .empty).program).bytes = [1, 2, 3, 4, 0, 0, 0, 5, 6] := by
  have hq : (assign phasedRun .empty).diagnostics = [] := by cbv
  have htotal : (laid phasedRun .empty).total = 9 := by cbv
  have horg : ∀ e ∈ (Program.outside (assign phasedRun .empty).program).dropWhile (·.size == 0),
      ∀ v, e.stmt ≠ .org v := by
    have hkinds : (((Program.outside (assign phasedRun .empty).program).dropWhile
        (·.size == 0)).all fun e => e.stmt.kindName != "org") = true := by cbv
    intro e he v hv
    have hkind := List.all_eq_true.1 hkinds e he
    rw [hv] at hkind
    cases hkind
  obtain ⟨horder, hphased⟩ := output_in_order phasedRun .empty hq horg (by rw [htotal]; decide)
  refine ⟨hq, htotal, horder, hphased, ?_⟩
  rw [horder.image _ (.inl rfl)]
  cbv

end Layout
end Z80Asm
