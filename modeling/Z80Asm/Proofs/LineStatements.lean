import Z80Asm.Source.Statement

/-! What a line can be read as. A property of slots that holds for single operands, and carries over
to slots side by side, holds for every template that is read. With the other kinds of statements it
holds for every line. -/

namespace Z80Asm
set_option autoImplicit true

theorem Checked.value_mapM (f : α → Checked β) (as : List α) :
    (as.mapM f).value = as.map fun a => (f a).value := by
  have hloop (bs : List β) : (List.mapM.loop f as bs).value =
      bs.reverse ++ as.map fun a => (f a).value := by
    induction as generalizing bs with
    | nil => exact (List.append_nil _).symm
    | cons a as ih =>
      rw [List.mapM.loop, value_bind, ih, List.reverse_cons, List.append_assoc]
      rfl
  exact hloop []

namespace Source

/-- A property of slots that holds for the operands of values as they are read, and carries over to
slots side by side. -/
structure SlotsClosed (V : Value → Prop) (Q : List Slot → Prop) : Prop where
  value : ∀ text, V (readValue text).value
  bytes : ∀ bs : List UInt8, Q (bs.map .byte)
  append : ∀ slots slots', Q slots → Q slots' → Q (slots ++ slots')
  expr : ∀ v, V v → Q [.expr v]
  word : ∀ v, V v → Q [.expr v, .high]
  relative : ∀ v, V v → Q [.relative v]

namespace SlotsClosed

variable {V : Value → Prop} {Q : List Slot → Prop}

theorem byteSlot (h : SlotsClosed V Q) (hv : V v) : Q [(byteSlot v).value] := by
  unfold Source.byteSlot
  split
  · split
    · exact h.bytes [_]
    · exact h.bytes [_]
  · dsimp only
    split
    · exact h.bytes [_]
    · exact h.bytes [_]
  · exact h.expr v hv

theorem wordSlots (h : SlotsClosed V Q) (hv : V v) : Q (wordSlots v).value := by
  unfold Source.wordSlots
  split
  · split
    · exact h.bytes [_, _]
    · exact h.bytes [_, _]
  · split
    · exact h.bytes [_, _]
    · exact h.bytes [_, _]
  · exact h.word v hv

theorem dataBytes (h : SlotsClosed V Q) (text : String) : Q (dataBytes text).value := by
  unfold Source.dataBytes
  rw [Checked.value_bind]
  split
  · exact h.bytes _
  · exact h.byteSlot (h.value text)

theorem dataWords (h : SlotsClosed V Q) (text : String) : Q (dataWords text).value :=
  h.wordSlots (h.value text)

theorem flatten (h : SlotsClosed V Q) {slots : List (List Slot)} (hs : ∀ ss ∈ slots, Q ss) :
    Q slots.flatten := by
  induction slots with
  | nil => exact h.bytes []
  | cons ss slots ih =>
    rw [List.flatten_cons]
    obtain ⟨hss, hrest⟩ := List.forall_mem_cons.1 hs
    exact h.append _ _ hss (ih hrest)

theorem flatten_mapM (h : SlotsClosed V Q) {f : String → Checked (List Slot)}
    (hf : ∀ text, Q (f text).value) (operands : List String) :
    Q (operands.mapM f).value.flatten := by
  rw [Checked.value_mapM]
  exact h.flatten (List.forall_mem_map.2 fun text _ => hf text)

theorem replicate (h : SlotsClosed V Q) (hs : Q [slot]) (n : Nat) :
    Q (List.replicate n slot) := by
  induction n with
  | zero => exact h.bytes []
  | succ n ih => exact h.append _ _ hs ih

theorem codeWith (h : SlotsClosed V Q) (code : List UInt8) (n? : Option Int64)
    (valid : Int64 → Bool) (problem : Int64 → Problem) (bits : Int64 → UInt8) :
    Q (codeWith code n? valid problem bits).value := by
  unfold Source.codeWith
  split
  · exact h.bytes _
  · dsimp only
    split
    · exact h.bytes _
    · exact h.bytes _

theorem modeSlot (h : SlotsClosed V Q) (n? : Option Int64) : Q [(modeSlot n?).value] := by
  unfold Source.modeSlot
  split
  · exact h.bytes [_]
  · split
    · exact h.bytes [_]
    · exact h.bytes [_]

theorem encode (h : SlotsClosed V Q) (e : Instruction.Entry) (text : String) :
    Q (encode e text).value := by
  have hcode := h.bytes e.code
  have hv := h.value text
  unfold Source.encode
  dsimp only
  split
  · exact hcode
  · exact h.append _ _ hcode (h.byteSlot hv)
  · exact h.append _ _ hcode (h.wordSlots hv)
  · exact h.append _ _ hcode (h.relative _ hv)
  · exact h.codeWith _ _ _ _ _
  · exact h.codeWith _ _ _ _ _
  · exact h.append _ _ hcode (h.modeSlot _)

theorem all : SlotsClosed (fun _ => True) fun _ => True := by
  constructor <;> intros <;> trivial

end SlotsClosed

/-- A property of statements that holds for all as which the text behind a mnemonic is read. -/
structure StatementsClosed (P : Statement → Prop) : Prop where
  bytes : ∃ V Q, SlotsClosed V Q ∧ ∀ slots, Q slots → P (.bytes { slots })
  value : ∀ text v, (readValue? text).value = some v →
    P (.equ v) ∧ P (.org v) ∧ P (.phase v) ∧ P (.align v)
  bare : P .endPhase ∧ P (.block "") ∧ P (.endBlock "") ∧ P .endMacro
  definition : ∀ text, ∀ stmt ∈ (readMacroDef text).value, P stmt
  includeFile : ∀ path, P (.includeFile path)
  call : ∀ (name : String) (operands : List String),
    P (.call { name, args := operands.map fun text => (readValue text).value })

namespace StatementsClosed

variable {P : Statement → Prop} {Q : List Slot → Prop}

theorem bytesStatement {slots : List Slot} (hP : ∀ slots, Q slots → P (.bytes { slots }))
    (hs : Q slots) : ∀ stmt ∈ bytesStatement slots, P stmt := by
  unfold Source.bytesStatement
  split
  · exact List.forall_mem_nil _
  · exact List.forall_mem_singleton.2 (hP slots hs)

theorem readBytes (h : StatementsClosed P) (operands : List String) :
    ∀ stmt ∈ (readBytes operands).value, P stmt := by
  obtain ⟨V, Q, hQ, hP⟩ := h.bytes
  unfold Source.readBytes
  split
  · exact List.forall_mem_nil _
  · exact bytesStatement hP (hQ.flatten_mapM hQ.dataBytes operands)

theorem readWords (h : StatementsClosed P) (operands : List String) :
    ∀ stmt ∈ (readWords operands).value, P stmt := by
  obtain ⟨V, Q, hQ, hP⟩ := h.bytes
  unfold Source.readWords
  split
  · exact List.forall_mem_nil _
  · exact bytesStatement hP (hQ.flatten_mapM hQ.dataWords operands)

theorem reserveSpace (h : StatementsClosed P) (size : String) (fill? : Option String) :
    ∀ stmt ∈ (reserveSpace size fill?).value, P stmt := by
  obtain ⟨V, Q, hQ, hP⟩ := h.bytes
  unfold Source.reserveSpace
  rw [Checked.value_bind]
  split
  · exact List.forall_mem_nil _
  · split
    · exact List.forall_mem_nil _
    · cases fill? with
      | none => exact bytesStatement hP (hQ.replicate (hQ.bytes [0]) _)
      | some text => exact bytesStatement hP (hQ.replicate (hQ.byteSlot (hQ.value text)) _)

theorem readSpace (h : StatementsClosed P) (operands : List String) :
    ∀ stmt ∈ (readSpace operands).value, P stmt := by
  unfold Source.readSpace
  split
  · exact h.reserveSpace _ _
  · exact h.reserveSpace _ _
  · exact List.forall_mem_nil _

theorem readInstruction (h : StatementsClosed P) (mnemonic : String) (operands : List String) :
    ∀ stmt ∈ (readInstruction mnemonic operands).value, P stmt := by
  obtain ⟨V, Q, hQ, hP⟩ := h.bytes
  unfold Source.readInstruction
  split
  · exact List.forall_mem_nil _
  · exact bytesStatement hP (hQ.encode _ _)

theorem readSingle (directive : String) (operands : List String) {make : Value → Statement}
    (hmake : ∀ text v, (readValue? text).value = some v → P (make v)) :
    ∀ stmt ∈ (readSingle directive operands make).value, P stmt := by
  unfold Source.readSingle
  split
  · intro stmt hstmt
    rw [Checked.value_bind, Checked.value_pure] at hstmt
    obtain ⟨v, hv, rfl⟩ := List.mem_map.1 hstmt
    exact hmake _ v (Option.mem_toList.1 hv)
  · exact List.forall_mem_nil _

theorem readBare (directive : String) (operands : List String) (hstmt : P stmt) :
    ∀ stmt' ∈ (readBare directive operands stmt).value, P stmt' := by
  unfold Source.readBare
  split
  · exact List.forall_mem_singleton.2 hstmt
  · exact List.forall_mem_nil _

theorem readInclude (h : StatementsClosed P) (operands : List String) :
    ∀ stmt ∈ (readInclude operands).value, P stmt := by
  unfold Source.readInclude
  split
  · rw [Checked.value_bind]
    split
    · exact List.forall_mem_nil _
    · split
      · split
        · exact List.forall_mem_nil _
        · exact List.forall_mem_singleton.2 (h.includeFile _)
      · exact List.forall_mem_nil _
  · exact List.forall_mem_nil _

theorem readCall (h : StatementsClosed P) (name : String) (operands : List String) :
    ∀ stmt ∈ (readCall name operands).value, P stmt := by
  unfold Source.readCall
  rw [Checked.value_bind, Checked.value_pure, Checked.value_mapM]
  exact List.forall_mem_singleton.2 (h.call name operands)

theorem readStatement (h : StatementsClosed P) (mnemonic : String) (text : List Char) :
    ∀ stmt ∈ (readStatement mnemonic text).value, P stmt := by
  unfold Source.readStatement
  dsimp only
  split
  · exact readSingle _ _ fun text v hv => (h.value text v hv).1
  · exact readSingle _ _ fun text v hv => (h.value text v hv).2.1
  · exact readSingle _ _ fun text v hv => (h.value text v hv).2.2.1
  · exact readBare _ _ h.bare.1
  · exact readSingle _ _ fun text v hv => (h.value text v hv).2.2.2
  · exact readBare _ _ h.bare.2.1
  · exact readBare _ _ h.bare.2.2.1
  · exact h.definition _
  · exact readBare _ _ h.bare.2.2.2
  · exact h.readInclude _
  · exact h.readBytes _
  · exact h.readBytes _
  · exact h.readBytes _
  · exact h.readBytes _
  · exact h.readWords _
  · exact h.readWords _
  · exact h.readSpace _
  · exact h.readSpace _
  · split
    · exact h.readInstruction _ _
    · exact h.readCall _ _

theorem readLineText (h : StatementsClosed P) (line : LineText)
    (hlabels : ∀ l ∈ line.labels,
      P (.label { name := String.ofList l.name, isPublic := l.isPublic })) :
    ∀ stmt ∈ (readLineText line).value, P stmt := by
  have hall := List.forall_mem_map.2 hlabels
  unfold Source.readLineText
  dsimp only
  split
  · exact hall
  · split
    · exact List.forall_mem_append.2 ⟨hall, h.readStatement _ _⟩
    · exact hall

end StatementsClosed

theorem exists_line_of_mem (he : e ∈ (elementsOfLines file lines).1) :
    ∃ raw ∈ lines, e.stmt ∈ (readLineText (readLine raw)).value := by
  obtain ⟨here, hhere, he⟩ := List.mem_flatten.1 he
  obtain ⟨read, hread, rfl⟩ := List.mem_map.1 hhere
  obtain ⟨⟨raw, i⟩, hraw, rfl⟩ := List.mem_map.1 hread
  obtain ⟨stmt, hstmt, rfl⟩ := List.mem_map.1 he
  exact ⟨raw, (List.mem_zipIdx hraw).2.2 ▸ List.getElem_mem _, hstmt⟩

end Source
end Z80Asm
