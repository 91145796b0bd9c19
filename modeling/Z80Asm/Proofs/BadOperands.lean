import Z80Asm.Proofs.NamedConstants

/-! Bad operands. Whatever stands for the expression of an instruction, the line gives one template
of the size that the instruction set fixes, and what is wrong is reported at the line. -/

namespace Z80Asm
set_option autoImplicit true

/-- The bits of the last code byte that the argument goes into. -/
def Instruction.Argument.mask : Argument → UInt8
  | .bit | .restart => 0x38
  | _ => 0

namespace Source

/-- The slots of an instruction: its code, in which at most bits of the argument have been set, and
behind it the slots of the argument, where a high byte directly follows its expression. -/
structure Sized (e : Instruction.Entry) (slots : List Slot) : Prop where
  length : slots.length = e.code.length + e.argument.width
  code : ∃ bits, bits &&& e.argument.mask = bits ∧
    slots.take e.code.length = (setBits e.code bits).map .byte
  pairs : ∀ i, slots[i]? = some .high → ∃ j v, i = j + 1 ∧ slots[j]? = some (.expr v)

def Syntactic (x : Checked α) : Prop := ∀ p ∈ x.problems, p.category = .syntactic

namespace Syntactic

theorem pure (a : α) : Syntactic (pure a : Checked α) := fun _ hp => nomatch hp

theorem spoilt (hp : p.category = .syntactic) (a : α) : Syntactic (.spoilt p a : Checked α) := by
  intro q hq
  rw [List.mem_singleton.1 hq]
  exact hp

theorem bind {x : Checked α} {f : α → Checked β} (hx : Syntactic x)
    (hf : Syntactic (f x.value)) : Syntactic (x >>= f) := by
  intro p hp
  rw [Checked.problems_bind] at hp
  rcases List.mem_append.1 hp with hp | hp
  · exact hx p hp
  · exact hf p hp

end Syntactic

theorem readValue?_syntactic (text : String) : Syntactic (readValue? text) := by
  unfold readValue?
  split
  · exact .spoilt rfl _
  · split
    · split
      · exact .pure _
      · exact .spoilt rfl _
    · exact .pure _

theorem readValue_syntactic (text : String) : Syntactic (readValue text) :=
  (readValue?_syntactic text).bind (.pure _)

theorem readConstant?_syntactic (text what : String) : Syntactic (readConstant? text what) := by
  apply (readValue?_syntactic text).bind
  split
  · exact .pure _
  · split
    · exact .pure _
    · split
      · exact .pure _
      · exact .spoilt rfl _
    · exact .spoilt rfl _

theorem byteSlot_syntactic (v : Value) : Syntactic (byteSlot v) := by
  unfold byteSlot
  split
  · split
    · exact .pure _
    · exact .spoilt rfl _
  · dsimp only
    split
    · exact .spoilt rfl _
    · exact .pure _
  · exact .pure _

theorem wordSlots_syntactic (v : Value) : Syntactic (wordSlots v) := by
  unfold wordSlots
  split
  · split
    · exact .pure _
    · exact .spoilt rfl _
  · split
    · exact .spoilt rfl _
    · exact .pure _
  · exact .pure _

theorem codeWith_syntactic {problem : Int64 → Problem} (hp : ∀ n, (problem n).category = .syntactic)
    (code : List UInt8) (n? : Option Int64) (valid : Int64 → Bool) (bits : Int64 → UInt8) :
    Syntactic (codeWith code n? valid problem bits) := by
  unfold codeWith
  split
  · exact .pure _
  · dsimp only
    split
    · exact .pure _
    · exact .spoilt (hp _) _

theorem modeSlot_syntactic (n? : Option Int64) : Syntactic (modeSlot n?) := by
  unfold modeSlot
  split
  · exact .pure _
  · split
    · exact .spoilt rfl _
    · exact .pure _

theorem encode_syntactic (e : Instruction.Entry) (text : String) : Syntactic (encode e text) := by
  unfold encode
  dsimp only
  split
  · exact .pure _
  · exact (readValue_syntactic text).bind ((byteSlot_syntactic _).bind (.pure _))
  · exact (readValue_syntactic text).bind ((wordSlots_syntactic _).bind (.pure _))
  · exact (readValue_syntactic text).bind (.pure _)
  · exact (readConstant?_syntactic text _).bind (codeWith_syntactic (fun _ => rfl) _ _ _ _)
  · exact (readConstant?_syntactic text _).bind (codeWith_syntactic (fun _ => rfl) _ _ _ _)
  · exact (readConstant?_syntactic text _).bind ((modeSlot_syntactic _).bind (.pure _))

end Source

theorem Paired.before_high {i : Nat} (h : Paired slots) (hi : slots[i]? = some .high) :
    ∃ (j : Nat) (v : Value), i = j + 1 ∧ slots[j]? = some (.expr v) := by
  induction h generalizing i with
  | nil => cases hi
  | word h ih =>
    cases i with
    | zero => cases hi
    | succ i =>
      cases i with
      | zero => exact ⟨0, _, rfl, rfl⟩
      | succ i =>
        obtain ⟨j, v, rfl, hj⟩ := ih hi
        exact ⟨j + 2, v, rfl, hj⟩
  | byte h ih | expr h ih | relative h ih =>
    cases i with
    | zero => cases hi
    | succ i =>
      obtain ⟨j, v, rfl, hj⟩ := ih hi
      exact ⟨j + 1, v, rfl, hj⟩

namespace Source

theorem setBits_zero (code : List UInt8) : setBits code 0 = code := by
  unfold setBits
  split
  · rfl
  · rename_i last hlast
    rw [UInt8.or_zero]
    exact List.dropLast_append_getLast? last hlast

theorem length_wordSlots (v : Value) : (wordSlots v).value.length = 2 := by
  unfold wordSlots
  split
  · split
    · rfl
    · rfl
  · split
    · rfl
    · rfl
  · rfl

theorem lowByte_and (n m : Int64) : Word.lowByte (n &&& m) = Word.lowByte n &&& Word.lowByte m := by
  rw [Word.lowByte, Int64.toUInt64_and, UInt64.toUInt8_and]
  rfl

theorem bitNumber_masked (n : Int64) :
    Word.lowByte (n &&& 7) <<< (3 : UInt8) &&& 0x38 = Word.lowByte (n &&& 7) <<< (3 : UInt8) := by
  rw [lowByte_and, UInt8.shiftLeft_and, UInt8.and_assoc]
  rfl

theorem restartAddress_masked (n : Int64) :
    Word.lowByte (n &&& 0x38) &&& 0x38 = Word.lowByte (n &&& 0x38) := by
  rw [lowByte_and, UInt8.and_assoc]
  rfl

theorem Sized.of_code (hbits : bits &&& e.argument.mask = bits)
    (hslots : slots = (setBits e.code bits).map .byte ++ rest) (hrest : Paired rest)
    (hlength : rest.length = e.argument.width) : Sized e slots := by
  have hcode : ((setBits e.code bits).map Slot.byte).length = e.code.length := by
    rw [List.length_map, length_setBits]
  have hpaired : Paired slots := hslots ▸ (Paired.map_byte _).append hrest
  refine ⟨?_, ⟨bits, hbits, ?_⟩, fun i hi => hpaired.before_high hi⟩
  · rw [hslots, List.length_append, hcode, hlength]
  · rw [hslots, ← hcode, List.take_left]

theorem Sized.of_unset (hslots : slots = e.code.map .byte ++ rest) (hrest : Paired rest)
    (hlength : rest.length = e.argument.width) : Sized e slots := by
  rw [← setBits_zero e.code] at hslots
  exact .of_code UInt8.zero_and hslots hrest hlength

theorem codeWith_sized {bits : Int64 → UInt8} (hbits : ∀ n, bits n &&& e.argument.mask = bits n)
    (hwidth : e.argument.width = 0) (n? : Option Int64) (valid : Int64 → Bool)
    (problem : Int64 → Problem) : Sized e (codeWith e.code n? valid problem bits).value := by
  unfold codeWith
  split
  · exact .of_unset (List.append_nil _).symm .nil hwidth.symm
  · rename_i n
    dsimp only
    split
    · exact .of_code (hbits n) (List.append_nil _).symm .nil hwidth.symm
    · exact .of_code (hbits n) (List.append_nil _).symm .nil hwidth.symm

theorem encode_sized (e : Instruction.Entry) (text : String) : Sized e (encode e text).value := by
  unfold encode
  cases ha : e.argument with
  | none => exact .of_unset (List.append_nil _).symm .nil (ha ▸ rfl)
  | byte => exact .of_unset rfl (slotsClosed_paired.byteSlot trivial) (ha ▸ rfl)
  | word => exact .of_unset rfl (slotsClosed_paired.wordSlots trivial) (ha ▸ length_wordSlots _)
  | relative => exact .of_unset rfl (.relative .nil) (ha ▸ rfl)
  | bit => exact codeWith_sized (fun n => ha ▸ bitNumber_masked n) (ha ▸ rfl) _ _ _
  | restart => exact codeWith_sized (fun n => ha ▸ restartAddress_masked n) (ha ▸ rfl) _ _ _
  | mode => exact .of_unset rfl (slotsClosed_paired.modeSlot _) (ha ▸ rfl)

theorem mem_table_of_instruction (h : instructionOn? raw = some (entry, text)) :
    entry ∈ Instruction.table := by
  obtain ⟨mnemonic, operands, h⟩ : ∃ mnemonic operands,
      readShape? mnemonic operands = some (entry, text) := by
    unfold instructionOn? at h
    split at h
    · cases h
    · dsimp only at h
      split at h
      · exact ⟨_, _, h⟩
      · cases h
  exact (of_readShape? h).1

def labelsOn (raw : String) : List Statement :=
  (readLine raw).labels.map fun l =>
    .label { name := String.ofList l.name, isPublic := l.isPublic }

/-- The statements on the line of an instruction: its labels, and one template. -/
theorem readLineText_of_instruction {entry : Instruction.Entry} {text : String}
    (h : instructionOn? raw = some (entry, text)) :
    (readLineText (readLine raw)).value =
        labelsOn raw ++ [Statement.bytes { slots := (encode entry text).value }] ∧
      (readLineText (readLine raw)).problems = (encode entry text).problems := by
  have hcode : ∀ e ∈ Instruction.table, e.code ≠ [] := by decide +kernel
  have hslots : (encode entry text).value ≠ [] := by
    intro hnil
    have hlength := (encode_sized entry text).length
    rw [hnil] at hlength
    have hpos := List.length_pos_iff.2 (hcode entry (mem_table_of_instruction h))
    rw [List.length_nil] at hlength
    omega
  exact readLineText_of_encode h hslots

theorem elementsOfLine_of_instruction (loc : Location)
    (h : instructionOn? raw = some (entry, text)) :
    elementsOfLine loc raw =
      ((labelsOn raw).map (⟨loc, ·⟩) ++ [⟨loc, .bytes { slots := (encode entry text).value }⟩],
        (encode entry text).problems.map (⟨·, loc⟩)) := by
  obtain ⟨hvalue, hproblems⟩ := readLineText_of_instruction h
  unfold elementsOfLine
  dsimp only
  rw [hvalue, hproblems, List.map_append]
  rfl

theorem elementsFrom_append (file : String) (k : Nat) (lines lines' : List String) :
    elementsFrom file k (lines ++ lines') =
      elementsFrom file k lines ++ elementsFrom file (k + lines.length) lines' := by
  rw [elementsFrom, List.zipIdx_append, List.map_append]
  rfl

/-- Whatever the text of its expression, an instruction gives one template of its size, behind the
labels on its line. All that is reported are problems of the syntax at this line. -/
theorem instruction_keeps_size (file : String) (before after : List String)
    (h : instructionOn? raw = some (entry, text)) :
    let loc : Location := ⟨file, before.length + 1⟩
    ∃ (slots : List Slot) (problems : List Problem), Sized entry slots ∧
      (∀ p ∈ problems, p.category = .syntactic) ∧
      elementsOfLines file (before ++ raw :: after) =
        ((elementsOfLines file before).1 ++ ((labelsOn raw).map (⟨loc, ·⟩) ++
            [⟨loc, .bytes { slots }⟩]) ++
          ((elementsFrom file (before.length + 1) after).map Prod.fst).flatten,
        (elementsOfLines file before).2 ++ problems.map (⟨·, loc⟩) ++
          ((elementsFrom file (before.length + 1) after).map Prod.snd).flatten) := by
  intro loc
  refine ⟨_, _, encode_sized entry text, encode_syntactic entry text, ?_⟩
  have hloc : (⟨file, Int.ofNat (before.length + 1)⟩ : Location) = loc := rfl
  simp only [elementsOfLines_eq]
  rw [elementsFrom_append, elementsFrom_cons, Nat.zero_add, hloc,
    elementsOfLine_of_instruction loc h]
  simp only [List.map_append, List.map_cons, List.flatten_append, List.flatten_cons,
    List.append_assoc]

set_option maxRecDepth 10000 in
theorem instruction_keeps_size_brokenBit :
    let entry : Instruction.Entry := ⟨"set", [.value, .word "(hl)"], [0xCB, 0xC6], .bit⟩
    instructionOn? "l: set 1+,(hl)" = some (entry, "1+") ∧
      ∃ (slots : List Slot) (problems : List Problem), Sized entry slots ∧
        (∀ p ∈ problems, p.category = .syntactic) ∧
        elementsOfLines "f" ["l: set 1+,(hl)"] =
          ([⟨⟨"f", 1⟩, .label { name := "l" }⟩, ⟨⟨"f", 1⟩, .bytes { slots }⟩],
            problems.map (⟨·, ⟨"f", 1⟩⟩)) := by
  intro entry
  have h : instructionOn? "l: set 1+,(hl)" = some (entry, "1+") := by decide +kernel
  obtain ⟨slots, problems, hsized, hproblems, heq⟩ := instruction_keeps_size "f" [] [] h
  have hlabels : labelsOn "l: set 1+,(hl)" = [.label { name := "l" }] := by cbv
  refine ⟨h, slots, problems, hsized, hproblems, ?_⟩
  rw [hlabels] at heq
  refine heq.trans (congrArg₂ Prod.mk rfl ?_)
  exact List.append_nil _

end Source
end Z80Asm
