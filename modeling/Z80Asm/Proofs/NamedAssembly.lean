import Z80Asm.Proofs.ImageBounds
import Z80Asm.Proofs.NamedPrograms

/-! Constants may be named: with a name in place of a constant, and its definition in front, a
program is assembled to the same image. -/

namespace Z80Asm
set_option autoImplicit true

def Statement.output? : Statement → Option (Int64 × List UInt8)
  | .bytes t => some (t.out, t.data)
  | _ => none

/-- The elements emit the same bytes to the same place. -/
def Element.Outputs (e e' : Element) : Prop := e'.stmt.output? = e.stmt.output?

theorem Patch.State.Beside.step {x : String} {d : Datum} {s s' : Patch.State}
    (hparse : Expr.parse x = .ok (.ident x)) (hhere : x ≠ "$") (h : s.Beside x d s')
    {e e' : Element} (he : e.Named x d false e') :
    Element.Outputs { e with stmt := (s.step e).1 } { e' with stmt := (s'.step e').1 } ∧
      (s.step e).2.Beside x d (s'.step e').2 := by
  unfold Element.Outputs
  dsimp only
  obtain ⟨loc, stmt⟩ := e
  obtain ⟨loc', stmt'⟩ := e'
  obtain ⟨hstmt, hdeclared⟩ := he
  cases hstmt with
  | @bytes t slots hslots =>
    have hdone : (#[] : Array Slot).toList.map Slot.toByte =
        (#[] : Array Slot).toList.map Slot.toByte := rfl
    obtain ⟨hdata, hnext⟩ :=
      Patch.State.Beside.patchSlots hparse hhere hslots h hdone loc loc' t.address t.placed
    rw [Patch.State.step_bytes, Patch.State.step_bytes]
    exact ⟨congrArg (fun bs => some (t.out, bs)) hdata, hnext⟩
  | same hbytes havoids =>
    have hother : ∀ t, (⟨loc', stmt⟩ : Element).stmt ≠ .bytes t := hbytes
    rw [Patch.State.step_of_not_bytes s hbytes, Patch.State.step_of_not_bytes s' hother]
    refine ⟨rfl, h.memo, ?_, h.quiet, ScopeStack.isPath_after h.paths hdeclared⟩
    dsimp only
    rw [h.scopes]

namespace Image

/-- The images differ in where problems were found at most. -/
structure Same (image image' : Image) : Prop where
  bytes : image'.bytes = image.bytes
  overrun : image'.overrun = image.overrun
  quiet : image'.diagnostics = [] ↔ image.diagnostics = []

theorem Same.eq_of_quiet (h : Same image image') (hq : image.diagnostics = []) :
    image' = image := by
  obtain ⟨bytes, ds, overrun⟩ := image
  obtain ⟨bytes', ds', overrun'⟩ := image'
  cases h.bytes
  cases h.overrun
  cases hq
  cases h.quiet.2 rfl
  rfl

def SamePlaced (p p' : Location × Template) : Prop := p'.2.out = p.2.out ∧ p'.2.data = p.2.data

theorem Same.write (base : Int64) (h : Same image image') (hp : SamePlaced p p') :
    Same (write base image p) (write base image' p') := by
  obtain ⟨loc, t⟩ := p
  obtain ⟨loc', t'⟩ := p'
  obtain ⟨bytes, ds, overrun⟩ := image
  obtain ⟨bytes', ds', overrun'⟩ := image'
  obtain ⟨hbytes, hoverrun, hquiet⟩ := h
  obtain ⟨hout, hdata⟩ := hp
  dsimp only at hbytes hoverrun hquiet hout hdata
  subst hbytes hoverrun
  have hroom : roomFor base bytes' t' = roomFor base bytes' t := by
    unfold roomFor
    rw [hout, ← length_data, ← length_data, hdata]
  rw [write_eq, write_eq]
  dsimp only
  rw [hroom, hout, hdata]
  split
  · exact ⟨rfl, rfl, hquiet⟩
  · split
    · refine ⟨rfl, rfl, ?_⟩
      simp only [List.append_eq_nil_iff, List.cons_ne_nil, and_false]
    · split
      · exact ⟨rfl, rfl, hquiet⟩
      · exact ⟨rfl, rfl, hquiet⟩

theorem Same.foldl_write (base : Int64) (h : Same image image')
    (hps : List.Forall₂ SamePlaced ps ps') :
    Same (ps.foldl (Image.write base) image) (ps'.foldl (Image.write base) image') := by
  induction hps generalizing image image' with
  | nil => exact h
  | cons hp _ ih => exact ih (h.write base hp)

theorem origin_eq_head? (es : List Element) :
    origin es = ((Program.templates es).head?.map (·.2.out)).getD 0 := by
  unfold origin
  cases Program.templates es with
  | nil => rfl
  | cons p ps => rfl

theorem same_assemble (h : List.Forall₂ SamePlaced (Program.templates es) (Program.templates es')) :
    Same (assemble es) (assemble es') ∧ origin es' = origin es := by
  have horigin : origin es' = origin es := by
    rw [origin_eq_head?, origin_eq_head?]
    generalize Program.templates es = ps at h
    generalize Program.templates es' = ps' at h
    cases h with
    | nil => rfl
    | cons hp _ => exact hp.1
  have hempty : Same {} {} := ⟨rfl, rfl, Iff.rfl⟩
  refine ⟨?_, horigin⟩
  unfold assemble
  rw [horigin]
  exact hempty.foldl_write (origin es) h

theorem samePlaced_template? {e e' : Element} (h : e.Outputs e') :
    Option.Rel SamePlaced e.template? e'.template? := by
  obtain ⟨loc, stmt⟩ := e
  obtain ⟨loc', stmt'⟩ := e'
  have hnone (loc : Location) {stmt : Statement} (hs : stmt.output? = none) :
      Element.template? ⟨loc, stmt⟩ = none := by
    cases stmt with
    | bytes t => cases hs
    | _ => rfl
  change stmt'.output? = stmt.output? at h
  cases hout : stmt.output? with
  | none =>
    rw [hnone loc hout, hnone loc' (h.trans hout)]
    exact .none
  | some p =>
    cases stmt with
    | bytes t =>
      cases stmt' with
      | bytes t' =>
        obtain ⟨hplace, hdata⟩ := Prod.mk.inj (Option.some.inj h)
        have hempty : t'.slots.isEmpty = t.slots.isEmpty := by
          have hlength := congrArg List.isEmpty hdata
          unfold Template.data at hlength
          rwa [List.isEmpty_map, List.isEmpty_map] at hlength
        unfold Element.template?
        dsimp only
        rw [hempty]
        split
        · exact .none
        · exact .some ⟨hplace, hdata⟩
      | _ => cases h
    | _ => cases hout

end Image

variable {x : String} {d : Datum} {es es' back : List Element} {loc loc' : Location}

namespace Declarations

theorem State.beside_constant (x : String) (loc : Location) (v : Value) (loc' : Location) :
    ∃ s, Program.thread step {} [⟨loc, .label { name := x }⟩, ⟨loc', .equ v⟩] =
        (constant { name := x } loc v loc', s) ∧ Beside x {} s := by
  have hfresh : x ∉ ({} : State).table.names := List.not_mem_nil
  obtain ⟨t, hdeclare, houtline, hget⟩ := declare_of_not_mem hfresh .unresolved loc
    (.duplicateSymbol x (({} : State).table.loc x))
  have htable : SymbolTable.Beside x .unresolved .empty t := by
    refine ⟨names_of_outline houtline, (hget x).trans (if_pos rfl),
      fun q hq => (hget q).trans (if_neg hq), fun q hq => ?_, fun q v hv => ?_⟩
    · cases hq
    · cases hv
  refine ⟨{ table := t }, ?_, htable, rfl, .nil, trivial, Iff.rfl⟩
  rw [Program.thread, step_label rfl, hdeclare]
  rfl

theorem collect_named (hx : Scope.Unsegmented x)
    (hes' : Program.outside es' = [⟨loc, .label { name := x }⟩, ⟨loc', .equ v⟩] ++ back)
    (hes : List.Forall₂ (Element.Renders x d) (Program.outside es) back) :
    ((collect es').diagnostics = [] ↔ (collect es).diagnostics = []) ∧
      (collect es).table.Beside x .unresolved (collect es').table ∧
      ∃ back', Program.outside (collect es').program =
          constant { name := x } loc v loc' ++ back' ∧
        List.Forall₂ (Element.Named x d true) (Program.outside (collect es).program) back' := by
  obtain ⟨s, hfirst, hstart⟩ := State.beside_constant x loc v loc'
  obtain ⟨hout, hend⟩ := Program.thread_forall₂
    (fun s s' e e' h he => State.Beside.step h hx he) hstart hes
  have hrun : Program.thread State.step {} (Program.outside es') = _ :=
    hes' ▸ Program.thread_append_eq hfirst (Prod.mk.eta (p := Program.thread _ s back)).symm
  rw [collect_diagnostics, collect_diagnostics, collect_table, collect_table, outside_collect,
    outside_collect, hrun]
  exact ⟨hend.finish, hend.table, _, rfl, hout⟩

end Declarations

namespace Layout

theorem State.beside_constant {t t' : SymbolTable} (ht : t.Beside x .unresolved t') (d : Datum)
    (loc loc' : Location) :
    ∃ s, Program.thread step { table := t' }
        (Declarations.constant { name := x } loc (.ofDatum d) loc') =
          (Declarations.constant { name := x } loc (.ofDatum d) loc', s) ∧
      Beside x (.ofDatum d) { table := t } s := by
  have hlabel : ({ table := t' } : State).placeLabel { name := x, symbol := x } =
      ({ name := x, symbol := x },
        { table := t'.set x (.number 0), pending := [x] }) := by
    unfold placeLabel
    simp only [ite_self, ht.self]
    rfl
  have hbound : boundValue [] 0 (.ofDatum d) = .ofDatum d := by
    cases d <;> rfl
  refine ⟨{ table := (t'.set x (.number 0)).set x (.ofDatum d) }, ?_, rfl,
    (ht.set_self _).set_self _, Iff.rfl, fun q hq => ?_, fun scope hscope => ?_⟩
  · change ([(⟨loc, .label (({ table := t' } : State).placeLabel { name := x, symbol := x }).1⟩ :
        Element), ⟨loc', .equ (.ofDatum d)⟩],
      ({ (({ table := t' } : State).placeLabel { name := x, symbol := x }).2.bind
        (.ofDatum d) loc' with pending := [] } : State)) = _
    rw [hlabel]
    change (_, ({ table := (t'.set x (.number 0)).set x (boundValue [] 0 (.ofDatum d)) } :
      State)) = _
    rw [hbound]
    rfl
  · cases hq
  · cases hscope

theorem assign_named (hparse : Expr.parse x = .ok (.ident x)) (hhere : x ≠ "$")
    {t t' : SymbolTable} (ht : t.Beside x .unresolved t')
    (hes' : Program.outside es' =
      Declarations.constant { name := x } loc (.ofDatum d) loc' ++ back)
    (hes : List.Forall₂ (Element.Named x d true) (Program.outside es) back) :
    ((assign es' t').diagnostics = [] ↔ (assign es t).diagnostics = []) ∧
      (assign es t).table.Beside x (.ofDatum d) (assign es' t').table ∧
      ∃ back', Program.outside (assign es' t').program =
          Declarations.constant { name := x } loc (.ofDatum d) loc' ++ back' ∧
        List.Forall₂ (Element.Named x d false) (Program.outside (assign es t).program) back' := by
  obtain ⟨s, hfirst, hstart⟩ := State.beside_constant ht d loc loc'
  have hstep (s s' : State) (e e' : Element) (h : s.Beside x (.ofDatum d) s')
      (he : e.Named x d true e') := h.step hparse hhere he
  obtain ⟨hout, hend⟩ := Program.thread_forall₂ hstep hstart hes
  have hrun : Program.thread State.step { table := t' } (Program.outside es') = _ :=
    hes' ▸ Program.thread_append_eq hfirst (Prod.mk.eta (p := Program.thread _ s back)).symm
  rw [assign_diagnostics, assign_diagnostics, assign_table, assign_table, outside_assign,
    outside_assign, State.through, State.through, hrun]
  exact ⟨hend.quiet, hend.table, _, rfl, hout⟩

end Layout

theorem Patch.patch_named (hparse : Expr.parse x = .ok (.ident x)) (hhere : x ≠ "$")
    {t t' : SymbolTable} (ht : t.Beside x (.ofDatum d) t')
    (hes' : Program.outside es' =
      Declarations.constant { name := x } loc (.ofDatum d) loc' ++ back)
    (hes : List.Forall₂ (Element.Named x d false) (Program.outside es) back) :
    ((patch es' t').diagnostics = [] ↔ (patch es t).diagnostics = []) ∧
      (patch es t).table.Beside x (.ofDatum d) (patch es' t').table ∧
      List.Forall₂ Image.SamePlaced (Program.templates (patch es t).program)
        (Program.templates (patch es' t').program) := by
  have hstart : State.Beside x d { memo := ⟨t, []⟩ } { memo := ⟨t', []⟩ } := by
    refine ⟨⟨ht, rfl⟩, rfl, Iff.rfl, fun scope hscope => ?_⟩
    cases hscope
  have hstep (s s' : State) (e e' : Element) (h : s.Beside x d s')
      (he : e.Named x d false e') := h.step hparse hhere he
  obtain ⟨hout, hend⟩ := Program.thread_forall₂ hstep hstart hes
  have hrun : Program.thread State.step { memo := ⟨t', []⟩ } (Program.outside es') = _ :=
    hes' ▸ Program.thread_append _ _ _ back
  rw [patch_diagnostics, patch_diagnostics, patch_table, patch_table, Program.templates_eq,
    Program.templates_eq, outside_patch, outside_patch, State.through, State.through, hrun]
  have hemits : Relator.LiftFun Element.Outputs (Option.Rel Image.SamePlaced) Element.template?
      Element.template? := fun _ _ h => Image.samePlaced_template? h
  have htemplates := List.rel_filterMap hemits hout
  exact ⟨hend.quiet, hend.memo.table, htemplates⟩

namespace Assembly

/-- The passes after expansion on a program with a constant and on one with its name. -/
theorem passes_named (hparse : Expr.parse x = .ok (.ident x)) (hhere : x ≠ "$")
    (hes' : Program.outside es' =
      [⟨loc, .label { name := x }⟩, ⟨loc', .equ (.ofDatum d)⟩] ++ back)
    (hes : List.Forall₂ (Element.Renders x d) (Program.outside es) back) :
    let declared := Declarations.collect es
    let declared' := Declarations.collect es'
    let placed := Layout.assign declared.program declared.table
    let placed' := Layout.assign declared'.program declared'.table
    let patched := Patch.patch placed.program placed.table.evaluate.1
    let patched' := Patch.patch placed'.program placed'.table.evaluate.1
    (declared'.diagnostics = [] ↔ declared.diagnostics = []) ∧
      (placed'.diagnostics = [] ↔ placed.diagnostics = []) ∧
      (placed'.table.evaluate.2 = [] ↔ placed.table.evaluate.2 = []) ∧
      (patched'.diagnostics = [] ↔ patched.diagnostics = []) ∧
      patched.table.Beside x (.ofDatum d) patched'.table ∧
      List.Forall₂ Image.SamePlaced (Program.templates patched.program)
        (Program.templates patched'.program) := by
  have hx : Scope.Unsegmented x := Expr.parse_clean hparse x (List.mem_singleton_self x)
  obtain ⟨hdeclared, htable₁, back₁, hback₁, hnamed₁⟩ := Declarations.collect_named hx hes' hes
  obtain ⟨hplaced, htable₂, back₂, hback₂, hnamed₂⟩ :=
    Layout.assign_named hparse hhere htable₁ hback₁ hnamed₁
  obtain ⟨htable₃, hevaluated⟩ := SymbolTable.evaluate_beside hx htable₂
  obtain ⟨hpatched, htable, htemplates⟩ :=
    Patch.patch_named hparse hhere htable₃ hback₂ hnamed₂
  exact ⟨hdeclared, hplaced, hevaluated, hpatched, htable, htemplates⟩

/-- A constant may be named. -/
theorem assemble_named (hparse : Expr.parse x = .ok (.ident x)) (hhere : x ≠ "$")
    (hes : List.Forall₂ (Element.Renders x d) es es') {passes : Int}
    (hq : (assemble es passes).diagnostics = []) (loc loc' : Location) :
    let a := assemble es passes
    let a' := assemble ([⟨loc, .label { name := x }⟩, ⟨loc', .equ (.ofDatum d)⟩] ++ es') passes
    a'.diagnostics = [] ∧ a'.image = a.image ∧ a'.origin = a.origin ∧
      a.table.Beside x (.ofDatum d) a'.table := by
  intro a a'
  let front : List Element := [⟨loc, .label { name := x }⟩, ⟨loc', .equ (.ofDatum d)⟩]
  have hfront : ∀ e ∈ front, Program.isMark e.stmt = false :=
    List.forall_mem_cons.2 ⟨rfl, List.forall_mem_singleton.2 rfl⟩
  have hstill : Macro.Still front := by
    intro e he c hc
    rcases List.mem_cons.1 he with rfl | he
    · cases hc
    · rw [List.mem_singleton.1 he] at hc
      cases hc
  have hstart : Program.depthBehind 0 ([] : List Element) = 0 := rfl
  have hextract : Macro.extract (front ++ es') = Macro.extract es' :=
    Macro.extract_middle hstart hfront es'
  obtain ⟨hmacros, hextracted⟩ := Macro.extract_renders hes
  have ht := Macro.plain_extract es
  have ht' := Macro.plain_extract es'
  obtain ⟨halone, hnone⟩ := hstill.expansion_eq hfront ht' (passLimit passes)
  have hbehind : Program.depthBehind 0 front = 0 := rfl
  obtain ⟨hexpansion', hreports⟩ :=
    Macro.expansion_append ht' (passLimit passes) hbehind es'
  rw [halone] at hexpansion'
  obtain ⟨hexpansion, hexpanded⟩ := Macro.expansion_renders hmacros ht ht' (passLimit passes) hes
  rw [quiet_iff] at hq
  obtain ⟨hq₁, hq₂, hq₃, hq₄, hq₅, hq₆, hq₇⟩ := hq
  obtain ⟨hdeclared, hplaced, hevaluated, hpatched, htable, htemplates⟩ :=
    passes_named hparse hhere hexpansion' hexpansion
  rw [layout_of_macros rfl] at hplaced hevaluated hpatched htable htemplates
  have hlayout := layout_of_macros (congrArg Prod.fst hextract) passes
  rw [hlayout] at hplaced hevaluated hpatched htable htemplates
  obtain ⟨himage, horigin⟩ := Image.same_assemble htemplates
  refine ⟨?_, ?_, ?_, ?_⟩
  · rw [quiet_iff, hextract]
    exact ⟨hextracted.2 hq₁, hreports.2 ⟨hnone, hexpanded.2 hq₂⟩, hdeclared.2 hq₃, hplaced.2 hq₄,
      hevaluated.2 hq₅, hpatched.2 hq₆, himage.quiet.2 hq₇⟩
  · rw [image_eq, image_eq, assemble_program, assemble_program]
    exact himage.eq_of_quiet hq₇
  · rw [origin_eq, origin_eq, assemble_program, assemble_program]
    exact horigin
  · rw [assemble_table, assemble_table]
    exact htable

end Assembly

end Z80Asm
