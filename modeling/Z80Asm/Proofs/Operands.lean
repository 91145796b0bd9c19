import Z80Asm.Assembly
import Z80Asm.Proofs.Expansion
import Z80Asm.Proofs.OpenScopes
import Z80Asm.Proofs.Templates

/-! The bytes of a program that is assembled without problems: every template is encoded by the
values of its operands in the final symbol table. -/

namespace Z80Asm
set_option autoImplicit true

section
variable {es pre post : List Element} {loc : Location} {tm : Template}

theorem Patch.template_patched (hq : (patch es t).diagnostics = [])
    (hpos : Program.outside es = pre ++ ⟨loc, .bytes tm⟩ :: post) (hslots : Paired tm.slots)
    (hplaced : tm.placed = true) :
    ∃ pre' bs post', Program.outside (patch es t).program =
        pre' ++ ⟨loc, .bytes { tm with slots := bs.map .byte }⟩ :: post' ∧
      pre'.length = pre.length ∧ ScopeStack.behind pre' = .behind pre ∧
      bs.length = tm.slots.length ∧
      Encodes (fun v => t.operand v ((ScopeStack.behind pre).scopeOf v) tm.address)
        (tm.address + Int64.ofNat tm.slots.length) tm.slots bs := by
  have hquiet := quiet_step hq hpos
  rw [State.step_bytes] at hquiet
  have hsize : (#[] : Array Slot).size + tm.slots.length = tm.slots.length := Nat.zero_add _
  obtain ⟨bs, hs, hl, he⟩ := State.patchSlots_quiet hslots (State.memo_through t pre) hplaced
    hsize hquiet
  rw [State.scopes_through] at he
  have hprogram := outside_patch es t
  rw [hpos, Program.thread_middle] at hprogram
  have hstep := congrArg Prod.fst ((State.through t pre).step_bytes loc tm)
  dsimp only at hstep
  rw [hs] at hstep
  change _ = _ ++ (⟨loc, ((State.through t pre).step ⟨loc, .bytes tm⟩).1⟩ : Element) :: _
    at hprogram
  rw [hstep] at hprogram
  exact ⟨_, bs, _, hprogram, Program.length_thread _ _ _,
    ScopeStack.behind_thread State.step_alike _ _, hl, he⟩

theorem Layout.template_placed (t : SymbolTable)
    (hpos : Program.outside es = pre ++ ⟨loc, .bytes tm⟩ :: post) :
    ∃ pre' post', Program.outside (assign es t).program =
        pre' ++ ⟨loc, .bytes ((State.through t pre).placeTemplate tm loc).1⟩ :: post' ∧
      pre'.length = pre.length ∧ ScopeStack.behind pre' = .behind pre := by
  have hprogram := outside_assign es t
  rw [hpos, Program.thread_middle] at hprogram
  exact ⟨_, _, hprogram, Program.length_thread _ _ _,
    ScopeStack.behind_thread State.step_alike _ _⟩

theorem Declarations.template_collected
    (hpos : Program.outside es = pre ++ ⟨loc, .bytes tm⟩ :: post) :
    ∃ pre' post' : List Element,
      Program.outside (collect es).program = pre' ++ ⟨loc, .bytes tm⟩ :: post' ∧
        pre'.length = pre.length := by
  have hprogram := outside_collect es
  rw [hpos, Program.thread_middle] at hprogram
  exact ⟨_, _, hprogram, Program.length_thread _ _ _⟩

theorem Layout.valueIn_final (hc : (Declarations.collect es).diagnostics = [])
    (hpos : Program.outside (Declarations.collect es).program = pre ++ ⟨loc, .bytes tm⟩ :: post)
    (hv : valueIn (State.through (Declarations.collect es).table pre).table scopes here v =
      some d) :
    (finalTable (Declarations.collect es)).operand v (scopes.scopeOf v) here = .ok d :=
  operand_final hc hpos (State.evaluates_of_bytes rfl) (Except.eq_ok_of_toOption hv)

/-- The bytes of the template are what `slots` stand for, with operands evaluated in the given
scopes by what the table holds. -/
def Template.EncodesSlots (t : Template) (table : SymbolTable) (scopes : ScopeStack)
    (slots : List Slot) : Prop :=
  Encodes (fun v => table.valueOf v (scopes.scopeOf v) t.address)
    (t.address + Int64.ofNat t.data.length) slots t.data

theorem Template.data_map_byte (t : Template) (bs : List UInt8) :
    { t with slots := bs.map .byte }.data = bs := by
  rw [data, List.map_map]
  exact List.map_id bs

/-- A template that passes layout, evaluation and patching without problems is encoded. -/
theorem Layout.template_encoded {placed : Layout.Result}
    (hplaced : placed =
      assign (Declarations.collect es).program (Declarations.collect es).table)
    (hc : (Declarations.collect es).diagnostics = []) (he : placed.table.evaluate.2 = [])
    (hp : (Patch.patch placed.program placed.table.evaluate.1).diagnostics = [])
    (hpos : Program.outside es = pre ++ ⟨loc, .bytes tm⟩ :: post) (hslots : Paired tm.slots) :
    ∃ (pre' : List Element) (tm' : Template) (post' : List Element),
      Program.outside (Patch.patch placed.program placed.table.evaluate.1).program =
          pre' ++ ⟨loc, .bytes tm'⟩ :: post' ∧
        pre'.length = pre.length ∧
        tm'.EncodesSlots (Patch.patch placed.program placed.table.evaluate.1).table (.behind pre')
          tm.slots := by
  have hresolved := SymbolTable.resolved_of_quiet he
  have hfinal : placed.table.evaluate.1 = finalTable (Declarations.collect es) := by
    rw [hplaced]
    rfl
  obtain ⟨pre₁, post₁, hcollected, hlen₁⟩ := Declarations.template_collected hpos
  obtain ⟨pre₂, post₂, hassigned, hlen₂, hscopes₂⟩ :=
    template_placed (Declarations.collect es).table hcollected
  rw [← hplaced] at hassigned
  have hreserved := State.slots_placeTemplate
    (State.through (Declarations.collect es).table pre₁) tm loc
  obtain ⟨pre₃, bs, post₃, hpatched, hlen₃, hscopes₃, hlength, hbytes⟩ :=
    Patch.template_patched hp hassigned (hreserved ▸ hslots.reserved _) rfl
  rw [hreserved] at hlength hbytes
  refine ⟨pre₃, _, post₃, hpatched, hlen₃.trans (hlen₂.trans hlen₁), ?_⟩
  rw [Patch.patch_table_of_resolved hresolved]
  unfold Template.EncodesSlots
  rw [Template.data_map_byte, hlength, hscopes₃]
  refine Encodes.mono (fun v d => hresolved.valueOf_eq_ok) ?_
  refine Encodes.of_reserved hslots (fun v d hv => ?_) hbytes
  rw [hscopes₂, ← State.scopes_through (Declarations.collect es).table, hfinal]
  exact valueIn_final hc hcollected hv

end

theorem Macro.mem_of_mem_expandAll {e : Element}
    (he : e ∈ Program.outside (expandAll (extract es).1 limit es).1) :
    ∀ t, e.stmt = .bytes t → e ∈ es :=
  expandAll_forall (plain_extract es) (P := fun e => ∀ t, e.stmt = .bytes t → e ∈ es)
    (fun _ he _ _ => Program.mem_of_mem_outside he)
    (fun _ hm _ he _ _ => (mem_of_mem_body hm he).1) (fun _ _ _ _ _ => nofun)
    (fun _ _ _ _ => nofun) limit e he

theorem Macro.paired_expandAll (hes : Encodable (es.map Element.stmt)) (limit : Nat)
    (he : e ∈ Program.outside (expandAll (extract es).1 limit es).1) :
    ∀ t, e.stmt = .bytes t → Paired t.slots := by
  intro t ht
  exact hes e.stmt (List.mem_map_of_mem (mem_of_mem_expandAll he t ht)) t ht

namespace Assembly

def layout (es : List Element) (passes : Int) : Layout.Result :=
  let declared :=
    Declarations.collect (Macro.expandAll (Macro.extract es).1 (passLimit passes) es).1
  Layout.assign declared.program declared.table

theorem assemble_program (es : List Element) (passes : Int) :
    (assemble es passes).program =
      (Patch.patch (layout es passes).program (layout es passes).table.evaluate.1).program := by
  simp only [assemble, layout]

theorem assemble_table (es : List Element) (passes : Int) :
    (assemble es passes).table =
      (Patch.patch (layout es passes).program (layout es passes).table.evaluate.1).table := by
  simp only [assemble, layout]

theorem image_eq (es : List Element) (passes : Int) :
    (assemble es passes).image = Image.assemble (assemble es passes).program := by
  simp only [assemble]

theorem origin_eq (es : List Element) (passes : Int) :
    (assemble es passes).origin = Image.origin (assemble es passes).program := by
  simp only [assemble]

theorem image_congr {es es' : List Element} (h : Program.templates es' = Program.templates es) :
    Image.assemble es' = Image.assemble es ∧ Image.origin es' = Image.origin es := by
  have horigin : Image.origin es' = Image.origin es := by
    unfold Image.origin
    rw [h]
  refine ⟨?_, horigin⟩
  unfold Image.assemble
  rw [h, horigin]

/-- A program is assembled without problems if no pass reports one. -/
theorem quiet_iff (es : List Element) (passes : Int) :
    (assemble es passes).diagnostics = [] ↔
      (Macro.extract es).2 = [] ∧
        (Macro.expandAll (Macro.extract es).1 (passLimit passes) es).2 = [] ∧
        (Declarations.collect
          (Macro.expandAll (Macro.extract es).1 (passLimit passes) es).1).diagnostics = [] ∧
        (layout es passes).diagnostics = [] ∧ (layout es passes).table.evaluate.2 = [] ∧
        (Patch.patch (layout es passes).program
          (layout es passes).table.evaluate.1).diagnostics = [] ∧
        (Image.assemble (Patch.patch (layout es passes).program
          (layout es passes).table.evaluate.1).program).diagnostics = [] := by
  simp only [assemble, layout, List.append_eq_nil_iff, and_assoc]

/-- Every template of a program that is assembled without problems ends up as the bytes that its
slots stand for: operands have their values by the final table, in the scopes around the template
and at its address. -/
theorem data_eq_encoding (file : String) (lines : List String) (passes : Int)
    (hq : (assemble (Source.elementsOfLines file lines).1 passes).diagnostics = []) :
    let es := (Source.elementsOfLines file lines).1
    let a := assemble es passes
    ∀ pre loc t post,
      Program.outside (Macro.expandAll a.macros (passLimit passes) es).1 =
        pre ++ ⟨loc, .bytes t⟩ :: post →
      ∃ pre' t' post', Program.outside a.program = pre' ++ ⟨loc, .bytes t'⟩ :: post' ∧
        pre'.length = pre.length ∧
        ∀ bs, Encodes (fun v => a.table.valueOf v ((ScopeStack.behind pre').scopeOf v) t'.address)
          (t'.address + Int64.ofNat t'.data.length) t.slots bs ↔ bs = t'.data := by
  intro es a pre loc t post hpos
  obtain ⟨-, -, hcollect, -, hevaluate, hpatch, -⟩ := (quiet_iff _ _).1 hq
  have hslots : Paired t.slots :=
    Macro.paired_expandAll (Source.elementsOfLines_encodable file lines) (passLimit passes)
      (hpos ▸ List.mem_append_right pre List.mem_cons_self) t rfl
  have hlayout : layout es passes = Layout.assign _ _ := rfl
  obtain ⟨pre', t', post', hpos', hlength, hencodes⟩ :=
    Layout.template_encoded hlayout hcollect hevaluate hpatch hpos hslots
  rw [← assemble_program] at hpos'
  rw [← assemble_table] at hencodes
  refine ⟨pre', t', post', hpos', hlength, fun bs => ⟨fun h => h.unique hencodes, ?_⟩⟩
  intro hbs
  rw [hbs]
  exact hencodes

def splicedText : List String := ["n equ \"ab\"", "loop: defb n,$", " jr loop"]

def splicedProgram : List Element :=
  [⟨⟨"", 1⟩, .label { name := "n" }⟩, ⟨⟨"", 1⟩, .equ (.text "ab")⟩,
    ⟨⟨"", 2⟩, .label { name := "loop" }⟩,
    ⟨⟨"", 2⟩, .bytes ⟨[.expr (.deferred "n" ["n"]), .expr (.deferred "$" ["$"])], 0, 0, false⟩⟩,
    ⟨⟨"", 3⟩, .bytes ⟨[.byte 0x18, .relative (.deferred "loop" ["loop"])], 0, 0, false⟩⟩]

set_option maxRecDepth 10000 in
theorem elementsOfLines_splicedText :
    (Source.elementsOfLines "" splicedText).1 = splicedProgram := by cbv

set_option maxRecDepth 10000 in
theorem assemble_splicedProgram :
    let a := assemble splicedProgram 0
    a.diagnostics = [] ∧
      Program.outside (Macro.expandAll a.macros (passLimit 0) splicedProgram).1 =
        splicedProgram := by cbv

theorem data_eq_encoding_splicedText :
    let a := assemble (Source.elementsOfLines "" splicedText).1 0
    a.diagnostics = [] ∧
      ∃ pre t post, Program.outside a.program = pre ++ ⟨⟨"", 2⟩, .bytes t⟩ :: post ∧
        pre.length = 3 ∧
        ∀ bs, Encodes (fun v => a.table.valueOf v ((ScopeStack.behind pre).scopeOf v) t.address)
          (t.address + Int64.ofNat t.data.length)
          [.expr (.deferred "n" ["n"]), .expr (.deferred "$" ["$"])] bs ↔ bs = t.data := by
  obtain ⟨hquiet, hexpanded⟩ := assemble_splicedProgram
  have hq : (assemble (Source.elementsOfLines "" splicedText).1 0).diagnostics = [] := by
    rw [elementsOfLines_splicedText]
    exact hquiet
  refine ⟨hq, data_eq_encoding "" splicedText 0 hq
    [⟨⟨"", 1⟩, .label { name := "n" }⟩, ⟨⟨"", 1⟩, .equ (.text "ab")⟩,
      ⟨⟨"", 2⟩, .label { name := "loop" }⟩] ⟨"", 2⟩
    ⟨[.expr (.deferred "n" ["n"]), .expr (.deferred "$" ["$"])], 0, 0, false⟩
    [⟨⟨"", 3⟩, .bytes ⟨[.byte 0x18, .relative (.deferred "loop" ["loop"])], 0, 0, false⟩⟩] ?_⟩
  rw [elementsOfLines_splicedText]
  exact hexpanded

end Assembly
end Z80Asm
