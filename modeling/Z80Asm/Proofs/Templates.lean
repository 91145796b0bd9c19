import Z80Asm.Proofs.Encoding
import Z80Asm.Proofs.LineStatements

/-! The templates that source lines are read as: every high byte stands behind its low byte. -/

namespace Z80Asm
set_option autoImplicit true

def Encodable (stmts : List Statement) : Prop :=
  ∀ stmt ∈ stmts, ∀ t, stmt = .bytes t → Paired t.slots

/-- A statement as a line gives it: templates have high bytes only where they belong, and the values
that are bound to labels and parameters are known or deferred. -/
def Statement.Legible : Statement → Prop
  | .bytes t => Paired t.slots
  | .equ v => v.content ≠ .unresolved
  | .call c => ∀ v ∈ c.args, v.content ≠ .unresolved
  | _ => True

def Legible (stmts : List Statement) : Prop := ∀ stmt ∈ stmts, stmt.Legible

theorem Legible.encodable (h : Legible stmts) : Encodable stmts := by
  intro stmt hs t ht
  have hl := h stmt hs
  rw [ht] at hl
  exact hl

namespace Source

theorem readValue?_content (h : (readValue? text).value = some v) : v.content ≠ .unresolved := by
  unfold readValue? at h
  split at h
  · cases h
  · split at h
    · split at h
      · rename_i d hd
        cases h
        cases d <;> exact nofun
      · cases h
    · cases h
      exact nofun

theorem readValue_content (text : String) : (readValue text).value.content ≠ .unresolved := by
  unfold readValue
  rw [Checked.value_bind, Checked.value_pure]
  cases hv : (readValue? text).value with
  | none => exact nofun
  | some v => exact readValue?_content hv

theorem slotsClosed_paired : SlotsClosed (fun _ => True) Paired where
  value _ := trivial
  bytes := .map_byte
  append _ _ h h' := h.append h'
  expr _ _ := .expr .nil
  word _ _ := .word .nil
  relative _ _ := .relative .nil

theorem statementsClosed_legible : StatementsClosed Statement.Legible where
  bytes := ⟨_, _, slotsClosed_paired, fun _ h => h⟩
  value _ _ hv := ⟨readValue?_content hv, trivial, trivial, trivial⟩
  bare := ⟨trivial, trivial, trivial, trivial⟩
  definition text := by
    unfold readMacroDef
    dsimp only
    split
    · exact List.forall_mem_nil _
    · split
      · exact List.forall_mem_nil _
      · exact List.forall_mem_singleton.2 trivial
  includeFile _ := trivial
  call _ _ := List.forall_mem_map.2 fun text _ => readValue_content text

theorem readLineText_legible (line : LineText) : Legible (readLineText line).value :=
  statementsClosed_legible.readLineText line fun _ _ => trivial

theorem elementsOfLines_legible (file : String) (lines : List String) :
    Legible ((elementsOfLines file lines).1.map Element.stmt) := by
  intro stmt hs
  obtain ⟨e, he, rfl⟩ := List.mem_map.1 hs
  obtain ⟨raw, -, hstmt⟩ := exists_line_of_mem he
  exact readLineText_legible _ _ hstmt

theorem elementsOfLines_encodable (file : String) (lines : List String) :
    Encodable ((elementsOfLines file lines).1.map Element.stmt) :=
  (elementsOfLines_legible file lines).encodable

end Source
end Z80Asm
