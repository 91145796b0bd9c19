import Z80Asm.Proofs.InstructionLines

/-! Assembled instructions can be decoded. Lists of instructions with numbers as their arguments
that are assembled from the same origin to the same bytes are the same, up to the encoding of the
arguments. -/

namespace Z80Asm
set_option autoImplicit true

theorem Program.bytes_of_thread {f : σ → Element → Statement × σ}
    (hf : ∀ s e t, (f s e).1 = .bytes t → ∃ t, e.stmt = .bytes t)
    {es : List Element} {n : Nat} {e' : Element} (he : (thread f s es).1[n]? = some e')
    (ht : e'.stmt = .bytes t) : ∃ e t, es[n]? = some e ∧ e.stmt = .bytes t := by
  rw [getElem?_thread] at he
  obtain ⟨e, hes, rfl⟩ := Option.map_eq_some_iff.1 he
  obtain ⟨t₀, ht₀⟩ := hf _ e t ht
  exact ⟨e, t₀, hes, ht₀⟩

theorem Patch.State.bytes_of_step {s : State} {e : Element} (h : (s.step e).1 = .bytes t) :
    ∃ t, e.stmt = .bytes t := by
  by_contra hnone
  rw [s.step_of_not_bytes fun t ht => hnone ⟨t, ht⟩] at h
  exact hnone ⟨t, h⟩

/-- What becomes of an element: a template is encoded, and nothing else becomes one. -/
structure Element.Compiled (table : SymbolTable) (e e' : Element) : Prop where
  template : ∀ t, e.stmt = .bytes t →
    ∃ t' scopes, e'.stmt = .bytes t' ∧ t'.EncodesSlots table scopes t.slots
  other : (∀ t, e.stmt ≠ .bytes t) → ∀ t, e'.stmt ≠ .bytes t

namespace Assembly
variable {es : List Element} {passes : Int}

abbrev expanded (es : List Element) (passes : Int) : List Element :=
  Program.outside (Macro.expandAll (Macro.extract es).1 (passLimit passes) es).1

theorem bytes_of_final {n : Nat}
    (he : (Program.outside (assemble es passes).program)[n]? = some e') (ht : e'.stmt = .bytes t) :
    ∃ e t, (expanded es passes)[n]? = some e ∧ e.stmt = .bytes t := by
  rw [assemble_program, Patch.outside_patch] at he
  obtain ⟨e₁, t₁, he₁, ht₁⟩ :=
    Program.bytes_of_thread (fun _ _ _ h => Patch.State.bytes_of_step h) he ht
  rw [layout, Layout.outside_assign] at he₁
  obtain ⟨e₂, t₂, he₂, ht₂⟩ := Program.bytes_of_thread
    (fun _ _ _ h => (Layout.State.bytes_of_step h).imp fun _ h => h.1) he₁ ht₁
  rw [Declarations.outside_collect] at he₂
  exact Program.bytes_of_thread
    (fun _ _ t h => ⟨t, Declarations.State.bytes_of_step h⟩) he₂ ht₂

theorem length_final (es : List Element) (passes : Int) :
    (Program.outside (assemble es passes).program).length = (expanded es passes).length := by
  rw [assemble_program, Patch.outside_patch, Program.length_thread, layout, Layout.outside_assign,
    Program.length_thread, Declarations.outside_collect, Program.length_thread]

theorem forall₂_compiled (hq : (assemble es passes).diagnostics = [])
    (hpaired : ∀ e ∈ expanded es passes, ∀ t, e.stmt = .bytes t → Paired t.slots) :
    List.Forall₂ (Element.Compiled (assemble es passes).table) (expanded es passes)
      (Program.outside (assemble es passes).program) := by
  obtain ⟨-, -, hcollect, -, hevaluate, hpatch, -⟩ := (quiet_iff _ _).1 hq
  have hlayout : layout es passes = Layout.assign _ _ := rfl
  refine List.forall₂_of_length_eq_of_get (length_final es passes).symm fun i hi hi' => ?_
  have hget' : (Program.outside (assemble es passes).program)[i]? =
      some ((Program.outside (assemble es passes).program).get ⟨i, hi'⟩) :=
    List.getElem?_eq_getElem hi'
  have hget : (expanded es passes)[i]? = some ((expanded es passes).get ⟨i, hi⟩) :=
    List.getElem?_eq_getElem hi
  have hmem : (expanded es passes).get ⟨i, hi⟩ ∈ expanded es passes := List.get_mem _ _
  generalize (expanded es passes).get ⟨i, hi⟩ = e at hget hmem
  generalize (Program.outside (assemble es passes).program).get ⟨i, hi'⟩ = e' at hget'
  constructor
  · intro t ht
    obtain ⟨loc, stmt⟩ := e
    cases ht
    have hpos : expanded es passes =
        (expanded es passes).take i ++ ⟨loc, .bytes t⟩ :: (expanded es passes).drop (i + 1) := by
      obtain ⟨hlt, helement⟩ := List.getElem?_eq_some_iff.1 hget
      rw [← helement, ← List.drop_eq_getElem_cons hlt, List.take_append_drop]
    obtain ⟨pre, t', post, hpos', hlength, hencodes⟩ :=
      Layout.template_encoded hlayout hcollect hevaluate hpatch hpos (hpaired _ hmem t rfl)
    rw [← assemble_program] at hpos'
    rw [← assemble_table] at hencodes
    rw [List.length_take_of_le hi.le] at hlength
    rw [hpos', ← hlength, List.getElem?_append_right (Nat.le_refl _), Nat.sub_self] at hget'
    cases hget'
    exact ⟨t', _, rfl, hencodes⟩
  · intro he t ht
    obtain ⟨a, t₀, ha, ht₀⟩ := bytes_of_final hget' ht
    cases hget.symm.trans ha
    exact he t₀ ht₀

end Assembly

theorem Carries.mem (h : Carries R as es) (he : e ∈ es) (ht : e.stmt = .bytes t) :
    ∃ a, R a t := by
  induction h with
  | nil => cases he
  | other hother _ ih =>
    rcases List.mem_cons.1 he with rfl | he
    · exact absurd ht (hother t)
    · exact ih he
  | template ht' hR _ ih =>
    rcases List.mem_cons.1 he with rfl | he
    · cases ht'.symm.trans ht
      exact ⟨_, hR⟩
    · exact ih he

namespace Instruction

theorem coded_of_encodes {value : Value → Except EvalError Datum} (hlit : Literal value)
    (h : e.Admits n) (hcode : Encodes value (address + Int64.ofNat bs.length) (e.slots n) bs) :
    Coded address (e, n) bs := by
  obtain ⟨tail, hbs, htail⟩ := hcode.of_map_byte
  refine ⟨h, tail, hbs, ?_⟩
  unfold Argument.Follows
  cases ha : e.argument with
  | byte =>
    simp only [ha] at htail
    cases htail with
    | byte hnil =>
      cases hnil
      rfl
  | word =>
    simp only [ha] at htail
    cases htail with
    | byte hhigh =>
      cases hhigh with
      | byte hnil =>
        cases hnil
        rfl
  | relative =>
    simp only [ha] at htail
    cases htail with
    | relative hd hn hb hnil =>
      cases hnil
      cases (hlit _ _ rfl).symm.trans hd
      cases hn
      exact ⟨_, rfl, hb⟩
  | _ =>
    simp only [ha] at htail
    cases htail
    rfl

def Placed (p : Entry × Int64) (t : Template) : Prop := Coded t.address p t.data

theorem Code.of_contiguous {address : Int64} (hnonneg : 0 ≤ address.toInt)
    (hc : Padded.Contiguous address.toInt (final.map (·, 0)))
    (hbound : address.toInt + Padded.total (final.map (·, 0)) ≤ 0x10000)
    (htogether : ∀ e ∈ final, ∀ t, e.stmt = .bytes t → t.address = t.out)
    (h : Carries Placed ps final) : Code address ps (final.flatMap Element.data) := by
  induction h generalizing address with
  | nil => exact .nil
  | @other ps es e he _ ih =>
    obtain ⟨-, hrest⟩ := hc
    obtain ⟨-, hes⟩ := List.forall_mem_cons.1 htogether
    have hsize : e.size = 0 := Element.size_of_not_bytes he
    rw [List.map_cons, Padded.total_cons] at hbound
    dsimp only at hrest hbound
    rw [hsize, Nat.add_zero, Nat.cast_zero, Int.add_zero] at hrest
    rw [List.flatMap_cons, Padded.data_of_silent (p := (e, 0)) (beq_iff_eq.2 hsize)]
    exact ih hnonneg hrest (by omega) hes
  | @template p t ps es e ht hcoded _ ih =>
    obtain ⟨hhere, hrest⟩ := hc
    obtain ⟨htogether, hes⟩ := List.forall_mem_cons.1 htogether
    have haddress : t.address = address := by
      rw [htogether t ht, ← Int64.toInt_inj]
      exact (hhere t ht).1
    have hsize : e.size = t.data.length := by
      rw [Element.size, ht, Image.length_data]
    have hdata : e.data = t.data := by rw [Element.data, ht]
    rw [List.map_cons, Padded.total_cons] at hbound
    dsimp only at hrest hbound
    rw [hsize, Nat.add_zero] at hrest hbound
    have hnext : (address + Int64.ofNat t.data.length).toInt = address.toInt + t.data.length :=
      Layout.State.toInt_add_ofNat hnonneg (by omega)
    rw [← hnext] at hrest
    rw [List.flatMap_cons, hdata]
    exact .cons (haddress ▸ hcoded) (ih (by omega) hrest (by omega) hes)

end Instruction

theorem Element.Flat.collect {e : Element} (h : e.Flat) (s : Declarations.State) :
    Element.Flat { e with stmt := (s.step e).1 } := by
  obtain ⟨loc, stmt⟩ := e
  rcases h with ⟨l, hl⟩ | ⟨t, ht⟩
  · cases hl
    exact .inl ⟨_, rfl⟩
  · cases ht
    exact .inr ⟨_, rfl⟩

theorem Layout.Unbroken.collect (h : Unbroken origin es) (s : Declarations.State) :
    Unbroken origin (Program.thread Declarations.State.step s es).1 := by
  have hthread (s : Declarations.State) {es : List Element} (hes : ∀ e ∈ es, e.Flat) :
      ∀ e ∈ (Program.thread Declarations.State.step s es).1, e.Flat := by
    intro e he
    obtain ⟨s', a, ha, rfl⟩ := Program.mem_thread he
    exact (hes a ha).collect s'
  cases h with
  | flat hes => exact .flat (hthread s hes)
  | org hes => exact .org (hthread _ hes)

theorem Layout.Unbroken.expanded_eq (h : Unbroken origin es) (passes : Int) :
    Assembly.expanded es passes = es := by
  have hcalls (c : MacroCall) : ∀ e ∈ es, e.stmt ≠ .call c := h.ne nofun nofun nofun
  have hstill : Macro.Still es := fun e he c hc => absurd hc (hcalls c e he)
  have hunmarked : ∀ e ∈ es, Program.isMark e.stmt = false := by
    intro e he
    rcases h.mem he with (⟨l, hl⟩ | ⟨t, ht⟩) | ⟨v, hv⟩
    · rw [hl]
      rfl
    · rw [ht]
      rfl
    · rw [hv]
      rfl
  exact (hstill.expansion_eq hunmarked (Macro.plain_extract es) (Assembly.passLimit passes)).1

namespace Assembly
variable {es : List Element} {passes : Int}

section
variable {origin : Int64} {ps : List (Instruction.Entry × Int64)}

theorem placed_of_slotted (hq : (assemble es passes).diagnostics = [])
    (h : Layout.Unbroken origin es) (hcarries : Carries Instruction.Slotted ps es) :
    Carries Instruction.Placed ps (Program.outside (assemble es passes).program) := by
  have hexpanded := h.expanded_eq passes
  have hpaired : ∀ e ∈ expanded es passes, ∀ t, e.stmt = .bytes t → Paired t.slots := by
    rw [hexpanded]
    intro e he t ht
    obtain ⟨p, hslots, -⟩ := hcarries.mem he ht
    exact hslots ▸ p.1.slots_paired p.2
  have hcompiled := forall₂_compiled hq hpaired
  rw [hexpanded] at hcompiled
  refine hcarries.forall₂ (fun e e' hcompiled => hcompiled.other) ?_ hcompiled
  rintro e e' p t hcompiled ht ⟨hslots, hadmits⟩
  obtain ⟨t', scopes, ht', hencodes⟩ := hcompiled.template t ht
  refine ⟨t', ht', ?_⟩
  unfold Template.EncodesSlots at hencodes
  rw [hslots] at hencodes
  exact Instruction.coded_of_encodes (SymbolTable.literal_valueOf _ _ _) hadmits hencodes

theorem seated_of_placed (hq : (assemble es passes).diagnostics = [])
    (h : Layout.Unbroken origin es)
    (hplaced : Carries Instruction.Placed ps (Program.outside (assemble es passes).program)) :
    Layout.Seated origin (assemble es passes).program := by
  have hdeclared : Layout.Unbroken origin (Program.outside (Declarations.collect
      (Macro.expandAll (Macro.extract es).1 (passLimit passes) es).1).program) := by
    rw [Declarations.outside_collect, show Program.outside _ = es from h.expanded_eq passes]
    exact h.collect {}
  obtain ⟨-, -, -, hlayout, -⟩ := (quiet_iff _ _).1 hq
  refine hdeclared.seated hlayout ?_ ?_
  · rw [assemble_program]
    exact Patch.extents_patch (fun e he => Layout.placed_assign _ he) _
  · intro e he
    rcases e.size_cases with ⟨hsize, -⟩ | ⟨t, -, ht, hsize, -⟩
    · omega
    · obtain ⟨p, hcoded⟩ := hplaced.mem he ht
      have hlength : t.data.length ≤ 4 := hcoded.length_le
      rw [Image.length_data] at hlength
      omega

/-- The image of a program of instructions is their code. -/
theorem code_of_slotted (hq : (assemble es passes).diagnostics = [])
    (h : Layout.Unbroken origin es) (hcarries : Carries Instruction.Slotted ps es) :
    Instruction.Code origin ps (assemble es passes).bytes := by
  have hplaced := placed_of_slotted hq h hcarries
  have hseated := seated_of_placed hq h hplaced
  rw [bytes, image_eq]
  generalize (assemble es passes).program = final at hplaced hseated
  rw [hseated.image]
  exact Instruction.Code.of_contiguous hseated.nonneg hseated.contiguous hseated.bound
    hseated.together hplaced

end

/-- The lines are assembled without problems, from the origin on, to the bytes. -/
def AssembledFrom (origin : Int64) (lines : List String) (bytes : List UInt8) : Prop :=
  ∃ (file : String) (start : List String) (passes : Int), Source.Starts start origin ∧
    (Source.elementsOfLines file (start ++ lines)).2 = [] ∧
    let a := assemble (Source.elementsOfLines file (start ++ lines)).1 passes
    a.diagnostics = [] ∧ a.bytes = bytes

theorem AssembledFrom.code {origin : Int64} {bytes : List UInt8}
    (h : AssembledFrom origin lines bytes) (hlines : List.Forall₂ Source.Says lines ps) :
    Instruction.Code origin ps bytes := by
  obtain ⟨file, start, passes, hstart, hread, hq, rfl⟩ := h
  obtain ⟨hunbroken, hcarries⟩ := Source.unbroken_of_starts hstart hlines hread
  exact code_of_slotted hq hunbroken hcarries

/-- Lines of instructions with numbers as their arguments that are assembled to the same bytes are
of the same instructions, line by line, and have the same arguments up to their encoding. -/
theorem instructions_decodable {origin : Int64} {bytes : List UInt8}
    (h : List.Forall₂ Source.Says lines ps) (h' : List.Forall₂ Source.Says lines' ps')
    (ha : AssembledFrom origin lines bytes) (ha' : AssembledFrom origin lines' bytes) :
    List.Forall₂ Instruction.Alike ps ps' :=
  (ha.code h).unique (ha'.code h')

def compareByte : Instruction.Entry := ⟨"cp", [.value], [0xFE], .byte⟩

def jumpBack : Instruction.Entry := ⟨"jr", [.value], [0x18], .relative⟩

def compareLoop : List Element :=
  [⟨⟨"f", 1⟩, .org (.number 8)⟩, ⟨⟨"f", 2⟩, .bytes { slots := [.byte 0xFE, .byte 0xFF] }⟩,
    ⟨⟨"f", 3⟩, .bytes { slots := [.byte 0x18, .relative (.number 8)] }⟩]

theorem assembledFrom_compareLoop
    (h : Source.elementsOfLines "f" (" org 8" :: lines) = (compareLoop, [])) :
    AssembledFrom 8 lines [0xFE, 0xFF, 0x18, 0xFC] := by
  have hquiet : (assemble compareLoop 0).diagnostics = [] := by cbv
  have hbytes : (assemble compareLoop 0).bytes = [0xFE, 0xFF, 0x18, 0xFC] := by cbv
  refine ⟨"f", [" org 8"], 0, .org (by cbv), congrArg Prod.snd h, ?_⟩
  rw [List.singleton_append, h]
  exact ⟨hquiet, hbytes⟩

set_option maxRecDepth 10000 in
theorem instructionOn?_signed : Source.instructionOn? " cp -1" = some (compareByte, "-1") := by
  decide +kernel

set_option maxRecDepth 10000 in
theorem instructionOn?_unsigned : Source.instructionOn? " cp 255" = some (compareByte, "255") := by
  decide +kernel

set_option maxRecDepth 10000 in
theorem instructionOn?_jump : Source.instructionOn? " jr 8" = some (jumpBack, "8") := by
  decide +kernel

theorem says_signed : Source.Says " cp -1" (compareByte, -1) :=
  ⟨"-1", instructionOn?_signed, fun _ => ⟨.unary .minus (.num 1), by cbv, rfl, rfl⟩⟩

theorem says_unsigned : Source.Says " cp 255" (compareByte, 255) :=
  ⟨"255", instructionOn?_unsigned, fun _ => ⟨.num 255, by cbv, rfl, rfl⟩⟩

theorem says_jump : Source.Says " jr 8" (jumpBack, 8) :=
  ⟨"8", instructionOn?_jump, fun _ => ⟨.num 8, by cbv, rfl, rfl⟩⟩

set_option maxRecDepth 10000 in
theorem elementsOfLines_compareLoop {raw text : String}
    (h : Source.instructionOn? raw = some (compareByte, text))
    (hlabels : (Source.readLine raw).labels = [])
    (hencode : Source.encode compareByte text = pure [.byte 0xFE, .byte 0xFF]) :
    Source.elementsOfLines "f" [" org 8", raw, " jr 8"] = (compareLoop, []) := by
  have horg : Source.elementsOfLine ⟨"f", 1⟩ " org 8" = ([⟨⟨"f", 1⟩, .org (.number 8)⟩], []) := by
    cbv
  have hcompare := Source.elementsOfLine_of_encode h hlabels hencode (List.cons_ne_nil _ _) ⟨"f", 2⟩
  have hback : Source.encode jumpBack "8" = pure [.byte 0x18, .relative (.number 8)] := by cbv
  have hjump := Source.elementsOfLine_of_encode instructionOn?_jump (by decide +kernel) hback
    (List.cons_ne_nil _ _) ⟨"f", 3⟩
  exact Source.elementsOfLines_of_forall₂ "f" [" org 8", raw, " jr 8"]
    (.cons horg (.cons hcompare (.cons hjump .nil)))

theorem read_signed :
    Source.elementsOfLines "f" [" org 8", " cp -1", " jr 8"] = (compareLoop, []) :=
  elementsOfLines_compareLoop instructionOn?_signed (by decide +kernel) (by cbv)

theorem read_unsigned :
    Source.elementsOfLines "f" [" org 8", " cp 255", " jr 8"] = (compareLoop, []) :=
  elementsOfLines_compareLoop instructionOn?_unsigned (by decide +kernel) (by cbv)

/-- The same byte written as a number below zero and as one above it. -/
theorem instructions_decodable_compareLoop :
    AssembledFrom 8 [" cp -1", " jr 8"] [0xFE, 0xFF, 0x18, 0xFC] ∧
      AssembledFrom 8 [" cp 255", " jr 8"] [0xFE, 0xFF, 0x18, 0xFC] ∧
      List.Forall₂ Instruction.Alike [(compareByte, -1), (jumpBack, 8)]
        [(compareByte, 255), (jumpBack, 8)] := by
  have ha := assembledFrom_compareLoop read_signed
  have ha' := assembledFrom_compareLoop read_unsigned
  exact ⟨ha, ha', instructions_decodable (.cons says_signed (.cons says_jump .nil))
    (.cons says_unsigned (.cons says_jump .nil)) ha ha'⟩

end Assembly
end Z80Asm
