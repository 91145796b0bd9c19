import Z80Asm.Proofs.LineLabels
import Z80Asm.Proofs.Naming
import Z80Asm.Proofs.Templates

/-! The names in statements as lines give them: none looks like a qualified name, and no value has a
scope of its own. -/

namespace Z80Asm
set_option autoImplicit true

def Statement.names (stmt : Statement) : List String :=
  stmt.binders ++ stmt.values.flatMap Value.mentions

/-- A statement as a line gives it, in what it names. -/
structure Statement.Written (stmt : Statement) : Prop where
  binders : ∀ n ∈ stmt.binders, Scope.Unsegmented n
  values : ∀ v ∈ stmt.values, v.scope? = none

theorem Statement.Written.avoids (h : Statement.Written stmt) (hx : x ∉ stmt.names) :
    stmt.Avoids x := by
  have hnot : x ∉ stmt.binders ∧ ∀ v ∈ stmt.values, x ∉ v.mentions := by
    simpa only [names, List.mem_append, List.mem_flatMap, not_or, not_exists, not_and] using hx
  refine ⟨fun n hn => ⟨h.binders n hn, ?_⟩, fun v hv => ⟨hnot.2 v hv, h.values v hv⟩⟩
  rintro rfl
  exact hnot.1 hn

def Written (stmts : List Statement) : Prop := ∀ stmt ∈ stmts, stmt.Written

def Unscoped (slots : List Slot) : Prop := ∀ v ∈ slots.filterMap Slot.operand?, v.scope? = none

namespace Unscoped

theorem append (h : Unscoped slots) (h' : Unscoped slots') : Unscoped (slots ++ slots') := by
  intro v hv
  rw [List.filterMap_append] at hv
  rcases List.mem_append.1 hv with hv | hv
  · exact h v hv
  · exact h' v hv

theorem bytes (bs : List UInt8) : Unscoped (bs.map .byte) := by
  induction bs with
  | nil => exact List.forall_mem_nil _
  | cons b bs ih => exact ih

theorem operand (hv : v.scope? = none) (h : slot.operand? = some v) : Unscoped [slot] := by
  intro w hw
  rw [List.filterMap_cons_some h] at hw
  rw [List.mem_singleton.1 hw]
  exact hv

end Unscoped

namespace Source

theorem unsegmented_of_isName (h : isName cs = true) : Scope.Unsegmented (String.ofList cs) := by
  have hparse := parse_of_isName (x := String.ofList cs) (by rwa [String.toList_ofList])
  exact Expr.parse_clean hparse _ (List.mem_singleton_self _)

theorem readValue?_scope (h : (readValue? text).value = some v) : v.scope? = none := by
  unfold readValue? at h
  split at h
  · cases h
  · split at h
    · split at h
      · cases h
        rfl
      · cases h
    · cases h
      rfl

theorem readValue_scope (text : String) : (readValue text).value.scope? = none := by
  unfold readValue
  rw [Checked.value_bind, Checked.value_pure]
  cases hv : (readValue? text).value with
  | none => rfl
  | some v => exact readValue?_scope hv

theorem slotsClosed_unscoped : SlotsClosed (fun v => v.scope? = none) Unscoped where
  value := readValue_scope
  bytes := .bytes
  append _ _ h h' := h.append h'
  expr _ hv := .operand hv rfl
  word v hv := by
    have hlow : Unscoped [.expr v] := .operand hv rfl
    exact hlow
  relative _ hv := .operand hv rfl

theorem readMacroDef_written (text : List Char) : Written (readMacroDef text).value := by
  unfold readMacroDef
  dsimp only
  split
  · exact List.forall_mem_nil _
  · split
    · exact List.forall_mem_nil _
    · rename_i hparams
      refine List.forall_mem_singleton.2 ⟨fun n hn => ?_, List.forall_mem_nil _⟩
      obtain ⟨param, hmem, rfl⟩ := List.mem_map.1 hn
      have hparam : isParameter param = true := by
        have hnot := List.find?_eq_none.1 hparams param hmem
        rwa [Bool.not_eq_true, Bool.not_eq_false'] at hnot
      rcases Bool.or_eq_true_iff.1 hparam with hempty | hname
      · rw [List.isEmpty_iff.1 hempty]
        decide
      · exact unsegmented_of_isName hname

theorem statementsClosed_written : StatementsClosed Statement.Written where
  bytes := ⟨_, _, slotsClosed_unscoped, fun _ h => ⟨List.forall_mem_nil _, h⟩⟩
  value text v hv := by
    have hscope : ∀ w ∈ [v], w.scope? = none := List.forall_mem_singleton.2 (readValue?_scope hv)
    exact ⟨⟨List.forall_mem_nil _, hscope⟩, ⟨List.forall_mem_nil _, hscope⟩,
      ⟨List.forall_mem_nil _, hscope⟩, ⟨List.forall_mem_nil _, hscope⟩⟩
  bare := by
    have hbare {stmt : Statement} (hbinders : stmt.binders = []) (hvalues : stmt.values = []) :
        stmt.Written :=
      ⟨hbinders ▸ List.forall_mem_nil _, hvalues ▸ List.forall_mem_nil _⟩
    exact ⟨hbare rfl rfl, hbare rfl rfl, hbare rfl rfl, hbare rfl rfl⟩
  definition := readMacroDef_written
  includeFile _ := ⟨List.forall_mem_nil _, List.forall_mem_nil _⟩
  call _ _ := ⟨List.forall_mem_nil _, List.forall_mem_map.2 fun text _ => readValue_scope text⟩

theorem isName_of_readLabels (cs : List Char) :
    ∀ l ∈ (readLabels cs).1, isName l.name = true := by
  fun_induction readLabels cs with
  | case1 => exact fun l hl => (List.not_mem_nil hl).elim
  | case2 cs name rest hne hsplit labels more hmore ih =>
    rw [hmore] at ih
    exact List.forall_mem_cons.2 ⟨(of_splitName hsplit hne).2.1, ih⟩
  | case3 cs name rest hne _ hsplit labels more hmore ih =>
    rw [hmore] at ih
    exact List.forall_mem_cons.2 ⟨(of_splitName hsplit hne).2.1, ih⟩
  | case4 cs name rest hne _ _ hsplit =>
    exact List.forall_mem_singleton.2 (of_splitName hsplit hne).2.1
  | case5 => exact fun l hl => (List.not_mem_nil hl).elim

theorem readLine_written (raw : String) : Written (readLineText (readLine raw)).value := by
  apply statementsClosed_written.readLineText
  intro l hl
  have hname := isName_of_readLabels (Text.trim (stripComment raw.toList)) l hl
  exact ⟨List.forall_mem_singleton.2 (unsegmented_of_isName hname), List.forall_mem_nil _⟩

end Source

theorem Names.refl (h : Paired slots) (hv : ∀ v ∈ slots.filterMap Slot.operand?, v.Avoids x)
    (d : Datum) (reserves : Bool) : Names x d reserves slots slots := by
  induction h with
  | nil => exact .nil
  | byte _ ih => exact (ih hv).byte
  | expr _ ih =>
    obtain ⟨hhere, hrest⟩ := List.forall_mem_cons.1 hv
    exact (ih hrest).expr hhere
  | word _ ih =>
    obtain ⟨hhere, hrest⟩ := List.forall_mem_cons.1 hv
    exact (ih hrest).word hhere
  | relative _ ih =>
    obtain ⟨hhere, hrest⟩ := List.forall_mem_cons.1 hv
    exact (ih hrest).relative hhere

/-- A statement that does not name `x` is the same under the name. -/
theorem Statement.Written.named (h : Statement.Written stmt) (hlegible : stmt.Legible)
    (hx : x ∉ stmt.names) (d : Datum) : Statement.Named x d true stmt stmt := by
  have havoids := h.avoids hx
  cases stmt with
  | bytes t => exact .bytes (.refl hlegible havoids.values d true)
  | _ => exact .same (fun t ht => by cases ht) havoids

end Z80Asm
