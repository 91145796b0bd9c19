import Z80Asm.Proofs.Inclusion
import Z80Asm.Proofs.Operands
import Z80Asm.Source.Include

/-! The sizes of instructions and of reserved space. The instruction set fixes how many bytes a line
takes, except that an operand of one byte which names a text takes as many as the text has. -/

namespace Z80Asm
set_option autoImplicit true

namespace Source

theorem elementsOfLines_of_forall₂ (file : String) (lines : List String)
    {read : List (List Element × List Diagnostic)}
    (h : List.Forall₂ (fun p r => elementsOfLine ⟨file, Int.ofNat (p.2 + 1)⟩ p.1 = r)
      lines.zipIdx read) :
    elementsOfLines file lines = ((read.map Prod.fst).flatten, (read.map Prod.snd).flatten) := by
  have hread : lines.zipIdx.map (fun p => elementsOfLine ⟨file, Int.ofNat (p.2 + 1)⟩ p.1) =
      read := by
    rw [← List.forall₂_eq_eq_eq, List.forall₂_map_left_iff]
    exact h
  rw [← hread]
  rfl

def mnemonicOn? (raw : String) : Option (String × List Char) :=
  match (readLine raw).statement with
  | [] => none
  | c :: cs =>
    if isIdentStart c then
      some (String.ofList (splitWord (c :: cs)).1, (splitWord (c :: cs)).2)
    else none

def instructionOn? (raw : String) : Option (Instruction.Entry × String) :=
  match mnemonicOn? raw with
  | none => none
  | some (mnemonic, text) =>
    let key := Text.lower mnemonic
    if Instruction.isMnemonic key then readShape? key ((splitOperands text).map String.ofList)
    else none

/-- The texts of the size and of the fill on a line that reserves space. -/
def spaceOn? (raw : String) : Option (String × Option String) :=
  match mnemonicOn? raw with
  | none => none
  | some (mnemonic, text) =>
    if dropDot (Text.lower mnemonic) ∈ ["defs", "ds"] then
      match (splitOperands text).map String.ofList with
      | [size] => some (size, none)
      | [size, fill] => some (size, some fill)
      | _ => none
    else none

def lineAt? (load? : String → Option (List String)) (loc : Location) : Option String :=
  (load? loc.file).bind fun lines => lines[(loc.line - 1).toNat]?

/-- The elements of a source program that is read without problems: those of a text, or of a file
and of all files that it includes. -/
inductive Reads : (String → Option (List String)) → List Element → Prop where
  | text (file : String) (lines : List String) : (elementsOfLines file lines).2 = [] →
      Reads (fun f => if f = file then some lines else none) (elementsOfLines file lines).1
  | file (lib : Library) (path : String) : (elementsOfFile lib path).2 = [] →
      Reads lib.load? (elementsOfFile lib path).1

/-- The element is one of those on the line at its location, which is read without problems. -/
def Stands (load? : String → Option (List String)) (e : Element) : Prop :=
  ∃ raw, lineAt? load? e.loc = some raw ∧ e.stmt ∈ (readLineText (readLine raw)).value ∧
    (readLineText (readLine raw)).problems = []

theorem stands_elementsOfLines (hload : load? file = some lines)
    (hq : (elementsOfLines file lines).2 = []) (he : e ∈ (elementsOfLines file lines).1) :
    Stands load? e := by
  obtain ⟨here, hh, he⟩ := List.mem_flatten.1 he
  obtain ⟨read, hr, rfl⟩ := List.mem_map.1 hh
  have hquiet : read.2 = [] := List.flatten_eq_nil_iff.1 hq _ (List.mem_map_of_mem hr)
  obtain ⟨⟨raw, i⟩, hraw, rfl⟩ := List.mem_map.1 hr
  obtain ⟨stmt, hstmt, rfl⟩ := List.mem_map.1 he
  have hline : lines[i]? = some raw := List.mem_zipIdx_iff_getElem?.1 hraw
  refine ⟨raw, ?_, hstmt, List.map_eq_nil_iff.1 hquiet⟩
  have hindex : (Int.ofNat (i + 1) - 1).toNat = i := by simp
  rw [lineAt?, hload, Option.bind_some, hindex, hline]

theorem stands_follow {lib : Library} (hq : (follow lib fresh source es).2 = [])
    (hes : ∀ e ∈ es, Stands lib.load? e) :
    ∀ e ∈ (follow lib fresh source es).1, Stands lib.load? e := by
  fun_induction follow lib fresh source es with
  | case1 => exact hes
  | case2 fresh source e es rest ds hrest path hpath tried htried ih => cases hq
  | case3 fresh source e es rest ds hrest path hpath found lines hfound key hkey inner ds₁ hinner
      inner' ds₂ hinner' ih ihInner =>
    obtain ⟨hq', hds⟩ := List.append_eq_nil_iff.1 hq
    obtain ⟨hds₁, hds₂⟩ := List.append_eq_nil_iff.1 hq'
    have hlines : ∀ a ∈ inner, Stands lib.load? a := by
      intro a ha
      apply stands_elementsOfLines (Library.load?_of_locate hfound)
      · rw [hinner, hds₁]
      · rw [hinner]
        exact ha
    intro a ha
    rw [List.cons_append] at ha
    rcases List.mem_cons.1 ha with rfl | ha
    · exact hes a List.mem_cons_self
    · rcases List.mem_append.1 ha with ha | ha
      · rw [hinner'] at ihInner
        exact ihInner hds₂ hlines a ha
      · rw [hrest] at ih
        exact ih hds (fun b hb => hes b (List.mem_cons_of_mem e hb)) a ha
  | case4 fresh source e es rest ds hrest path hpath found lines hfound key hkey ih => cases hq
  | case5 fresh source e es rest ds hrest hpath ih =>
    intro a ha
    rw [hrest] at ih
    rcases List.mem_cons.1 ha with rfl | ha
    · exact hes a List.mem_cons_self
    · exact ih hq (fun b hb => hes b (List.mem_cons_of_mem e hb)) a ha

theorem Reads.stands (h : Reads load? es) (he : e ∈ es) : Stands load? e := by
  cases h with
  | text file lines hq => exact stands_elementsOfLines (if_pos rfl) hq he
  | file lib path hq =>
    cases hload : lib.load? path with
    | none =>
      simp only [elementsOfFile, hload] at hq
      cases hq
    | some lines =>
      simp only [elementsOfFile, hload] at hq he
      obtain ⟨hlines, hfollow⟩ := List.append_eq_nil_iff.1 hq
      exact stands_follow hfollow (fun e he => stands_elementsOfLines hload hlines he) e he

theorem readLineText_of_mnemonic (h : mnemonicOn? raw = some (mnemonic, text)) :
    (readLineText (readLine raw)).value =
        ((readLine raw).labels.map fun l =>
          Statement.label { name := String.ofList l.name, isPublic := l.isPublic }) ++
            (readStatement mnemonic text).value ∧
      (readLineText (readLine raw)).problems = (readStatement mnemonic text).problems := by
  unfold mnemonicOn? at h
  unfold readLineText
  split at h
  · cases h
  · rename_i c cs hstatement
    split at h
    · rename_i hc
      cases h
      rw [hstatement]
      simp only [hc, if_true, Checked.value_bind, Checked.problems_bind, Checked.value_pure,
        Checked.problems_pure, List.append_nil, and_self]
    · cases h

theorem bytes_of_mnemonic (h : mnemonicOn? raw = some (mnemonic, text))
    (ht : .bytes t ∈ (readLineText (readLine raw)).value)
    (hq : (readLineText (readLine raw)).problems = []) :
    .bytes t ∈ (readStatement mnemonic text).value ∧
      (readStatement mnemonic text).problems = [] := by
  obtain ⟨hvalue, hproblems⟩ := readLineText_of_mnemonic h
  rw [hvalue] at ht
  rw [hproblems] at hq
  rcases List.mem_append.1 ht with ht | ht
  · obtain ⟨l, -, hl⟩ := List.mem_map.1 ht
    cases hl
  · exact ⟨ht, hq⟩

def directives : List String :=
  ["equ", "org", "phase", "dephase", "align", "block", "endblock", "macro", "endm", "include",
    "defb", "db", "defm", "dm", "defw", "dw", "defs", "ds"]

theorem not_directive_of_isMnemonic (h : Instruction.isMnemonic key = true) :
    dropDot key ∉ directives := by
  have htable : ∀ e ∈ Instruction.table, dropDot e.mnemonic ∉ directives := by decide +kernel
  obtain ⟨e, he, hkey⟩ := List.any_eq_true.1 h
  rw [← of_decide_eq_true hkey]
  exact htable e he

theorem readStatement_of_isMnemonic (h : Instruction.isMnemonic (Text.lower mnemonic) = true)
    (text : List Char) :
    readStatement mnemonic text =
      readInstruction (Text.lower mnemonic) ((splitOperands text).map String.ofList) := by
  have hkey := not_directive_of_isMnemonic h
  unfold readStatement
  dsimp only
  generalize dropDot (Text.lower mnemonic) = key at hkey
  split
  case h_19 => rw [if_pos h]
  all_goals exact (hkey (by decide)).elim

theorem slots_of_bytesStatement (h : .bytes t ∈ bytesStatement slots) :
    t.slots = slots ∧ slots ≠ [] := by
  unfold bytesStatement at h
  split at h
  · cases h
  · rename_i hs
    cases List.mem_singleton.1 h
    refine ⟨rfl, fun hnil => hs ?_⟩
    rw [hnil]
    rfl

theorem readLineText_of_encode {entry : Instruction.Entry} {text : String}
    (h : instructionOn? raw = some (entry, text)) (hslots : (encode entry text).value ≠ []) :
    (readLineText (readLine raw)).value =
        ((readLine raw).labels.map fun l =>
          Statement.label { name := String.ofList l.name, isPublic := l.isPublic }) ++
            [Statement.bytes { slots := (encode entry text).value }] ∧
      (readLineText (readLine raw)).problems = (encode entry text).problems := by
  unfold instructionOn? at h
  split at h
  · cases h
  · rename_i mnemonic rest hm
    obtain ⟨hvalue, hproblems⟩ := readLineText_of_mnemonic hm
    dsimp only at h
    split at h
    · rename_i hmnemonic
      rw [readStatement_of_isMnemonic hmnemonic, readInstruction, h] at hvalue hproblems
      rw [hvalue, hproblems, Checked.value_bind, Checked.problems_bind, Checked.value_pure,
        Checked.problems_pure, List.append_nil, bytesStatement,
        if_neg fun hempty => hslots (List.isEmpty_iff.1 hempty)]
      exact ⟨rfl, rfl⟩
    · cases h

theorem elementsOfLine_of_encode {entry : Instruction.Entry} {text : String} {slots : List Slot}
    (h : instructionOn? raw = some (entry, text)) (hlabels : (readLine raw).labels = [])
    (hencode : encode entry text = pure slots) (hslots : slots ≠ []) (loc : Location) :
    elementsOfLine loc raw = ([⟨loc, .bytes { slots }⟩], []) := by
  obtain ⟨hvalue, hproblems⟩ := readLineText_of_encode h (hencode ▸ hslots)
  rw [hlabels, hencode] at hvalue
  rw [hencode] at hproblems
  unfold elementsOfLine
  dsimp only
  rw [hvalue, hproblems]
  rfl

theorem slots_of_instruction (h : instructionOn? raw = some (entry, text))
    (ht : .bytes t ∈ (readLineText (readLine raw)).value)
    (hq : (readLineText (readLine raw)).problems = []) :
    t.slots = (encode entry text).value ∧ (encode entry text).problems = [] := by
  unfold instructionOn? at h
  split at h
  · cases h
  · rename_i mnemonic rest hm
    dsimp only at h
    split at h
    · rename_i hmnemonic
      obtain ⟨ht', hq'⟩ := bytes_of_mnemonic hm ht hq
      rw [readStatement_of_isMnemonic hmnemonic, readInstruction, h] at ht' hq'
      dsimp only at ht' hq'
      rw [Checked.problems_bind, Checked.problems_pure, List.append_nil] at hq'
      exact ⟨(slots_of_bytesStatement ht').1, hq'⟩
    · cases h

def fillSlot (fill? : Option String) : Checked Slot :=
  match fill? with
  | none => pure (.byte 0)
  | some text => byteSlot (readValue text).value

theorem slots_of_reserveSpace (ht : .bytes t ∈ (reserveSpace size fill?).value)
    (hq : (reserveSpace size fill?).problems = []) :
    ∃ n, (readConstant? size "DEFS size").value = some n ∧ n.toInt.toNat ≠ 0 ∧
      t.slots = List.replicate n.toInt.toNat (fillSlot fill?).value ∧
      (fillSlot fill?).problems = [] := by
  unfold reserveSpace at ht hq
  rw [Checked.value_bind] at ht
  rw [Checked.problems_bind] at hq
  obtain ⟨-, hq⟩ := List.append_eq_nil_iff.1 hq
  split at ht
  · cases ht
  · rename_i n hn
    rw [hn] at hq
    dsimp only at hq
    split at ht
    · cases ht
    · rename_i hrange
      rw [if_neg hrange] at hq
      have hslots : t.slots = List.replicate n.toInt.toNat (fillSlot fill?).value ∧
          List.replicate n.toInt.toNat (fillSlot fill?).value ≠ [] := by
        cases fill? with
        | none => exact slots_of_bytesStatement ht
        | some text => exact slots_of_bytesStatement ht
      have hfill : (fillSlot fill?).problems = [] := by
        cases fill? with
        | none => rfl
        | some text =>
          rw [Checked.problems_bind, Checked.problems_bind] at hq
          exact (List.append_eq_nil_iff.1 (List.append_eq_nil_iff.1 hq).2).1
      refine ⟨n, hn, ?_, hslots.1, hfill⟩
      intro hzero
      apply hslots.2
      rw [hzero]
      rfl

theorem readStatement_of_space (h : dropDot (Text.lower mnemonic) ∈ ["defs", "ds"])
    (text : List Char) :
    readStatement mnemonic text = readSpace ((splitOperands text).map String.ofList) := by
  unfold readStatement
  dsimp only
  rcases List.mem_cons.1 h with h | h
  · rw [h]
    simp only
  · rw [List.mem_singleton.1 h]
    simp only

theorem slots_of_space (h : spaceOn? raw = some (size, fill?))
    (ht : .bytes t ∈ (readLineText (readLine raw)).value)
    (hq : (readLineText (readLine raw)).problems = []) :
    ∃ n, (readConstant? size "DEFS size").value = some n ∧ n.toInt.toNat ≠ 0 ∧
      t.slots = List.replicate n.toInt.toNat (fillSlot fill?).value ∧
      (fillSlot fill?).problems = [] := by
  unfold spaceOn? at h
  split at h
  · cases h
  · rename_i mnemonic text hm
    split at h
    · rename_i hmnemonic
      obtain ⟨ht', hq'⟩ := bytes_of_mnemonic hm ht hq
      rw [readStatement_of_space hmnemonic] at ht' hq'
      split at h
      · rename_i hoperands
        cases h
        rw [hoperands] at ht' hq'
        exact slots_of_reserveSpace ht' hq'
      · rename_i hoperands
        cases h
        rw [hoperands] at ht' hq'
        exact slots_of_reserveSpace ht' hq'
      · cases h
    · cases h

end Source

def FitsByte (value : Except EvalError Datum) : Prop :=
  ∀ s, value = .ok (.text s) → (Text.bytes s).length = 1

theorem Encodes.of_cons (h : Encodes value stop (slot :: rest) bs)
    (hrest : rest.head?.any Slot.isHigh = false) :
    ∃ bs₁ bs₂, bs = bs₁ ++ bs₂ ∧ Encodes value stop [slot] bs₁ ∧ Encodes value stop rest bs₂ := by
  cases h with
  | byte h => exact ⟨[_], _, rfl, .byte .nil, h⟩
  | word => cases hrest
  | number hn h => exact ⟨[_], _, rfl, .number hn .nil, h⟩
  | text ht h =>
    refine ⟨Text.bytes _, _, rfl, ?_, h⟩
    rw [← List.append_nil (Text.bytes _)]
    exact .text ht .nil
  | relative hd hn hb h => exact ⟨[_], _, rfl, .relative hd hn hb .nil, h⟩

theorem Encodes.length_replicate (h : Encodes value stop (List.replicate n slot) bs)
    (hslot : Encodes value stop [slot] bs₁) : bs.length = n * bs₁.length := by
  induction n generalizing bs with
  | zero =>
    cases h
    rw [Nat.zero_mul]
    rfl
  | succ n ih =>
    have hrest : (List.replicate n slot).head?.any Slot.isHigh = false := by
      cases n with
      | zero => rfl
      | succ n =>
        cases slot with
        | high => exact (hslot.not_high _ rfl).elim
        | _ => rfl
    obtain ⟨bs', bs₂, rfl, h₁, h₂⟩ := h.of_cons hrest
    rw [List.length_append, ih h₂, h₁.unique hslot, Nat.succ_mul, Nat.add_comm]

section
variable {value : Value → Except EvalError Datum} {stop : Int64}

/-- What is known when it is read is evaluated to itself. -/
def Literal (value : Value → Except EvalError Datum) : Prop :=
  ∀ v d, v.content.datum? = some d → value v = .ok d

theorem length_byteSlot (hlit : Literal value) (hq : (Source.byteSlot v).problems = [])
    (h : Encodes value stop [(Source.byteSlot v).value] bs) :
    bs.length = 1 ↔ FitsByte (value v) := by
  unfold Source.byteSlot at h hq
  split at h
  · rename_i s hs
    have hv := hlit v _ (congrArg Content.datum? hs)
    rw [hs] at hq
    dsimp only at hq
    split at h
    · rename_i b hb
      cases h with
      | byte h =>
        cases h
        refine ⟨fun _ s' hs' => ?_, fun _ => rfl⟩
        cases hv.symm.trans hs'
        rw [hb]
        rfl
    · rename_i hb
      split at hq
      · exact (hb _ ‹_›).elim
      · cases hq
  · rename_i n hn
    have hv := hlit v _ (congrArg Content.datum? hn)
    have hbyte : Encodes value stop [.byte (Word.lowByte n)] bs := by
      dsimp only at h
      split at h
      · exact h
      · exact h
    cases hbyte with
    | byte hnil =>
      cases hnil
      refine ⟨fun _ s hs => ?_, fun _ => rfl⟩
      cases hv.symm.trans hs
  · cases h with
    | number hn h =>
      cases h
      refine ⟨fun _ s hs => ?_, fun _ => rfl⟩
      cases hn.symm.trans hs
    | text hs h =>
      cases h
      rw [List.append_nil]
      refine ⟨fun hlen s' hs' => ?_, fun hfits => hfits _ hs⟩
      cases hs.symm.trans hs'
      exact hlen

theorem length_wordSlots (h : Encodes value stop (Source.wordSlots v).value bs) :
    bs.length = 2 := by
  have hbytes {n : Int64} {bs : List UInt8} (h : Encodes value stop (Source.wordBytes n) bs) :
      bs.length = 2 := by
    cases h with
    | byte h =>
      cases h with
      | byte h =>
        cases h
        rfl
  unfold Source.wordSlots at h
  split at h
  · split at h
    · exact hbytes h
    · exact hbytes h
  · split at h
    · exact hbytes h
    · exact hbytes h
  · cases h with
    | word _ _ h =>
      cases h
      rfl
    | number _ h => exact (h.not_high _ rfl).elim
    | text _ h => exact (h.not_high _ rfl).elim

theorem length_setBits (code : List UInt8) (bits : UInt8) :
    (Source.setBits code bits).length = code.length := by
  unfold Source.setBits
  split
  · rfl
  · rename_i last hlast
    have hpos : code ≠ [] := by
      intro hnil
      rw [hnil] at hlast
      cases hlast
    have := List.length_pos_iff.2 hpos
    rw [List.length_append, List.length_dropLast, List.length_singleton]
    omega

theorem length_codeWith
    (h : Encodes value stop (Source.codeWith code n? valid problem bits).value bs) :
    bs.length = code.length := by
  have hmap {code : List UInt8} (h : Encodes value stop (code.map .byte) bs) :
      bs.length = code.length := by
    rw [← List.append_nil (code.map _)] at h
    obtain ⟨bs', rfl, h'⟩ := h.of_map_byte
    cases h'
    rw [List.append_nil]
  unfold Source.codeWith at h
  split at h
  · exact hmap h
  · dsimp only at h
    split at h
    · rw [hmap h, length_setBits]
    · rw [hmap h, length_setBits]

theorem length_modeSlot (h : Encodes value stop [(Source.modeSlot n?).value] bs) :
    bs.length = 1 := by
  have hbyte : ∃ b, (Source.modeSlot n?).value = .byte b := by
    unfold Source.modeSlot
    split
    · exact ⟨_, rfl⟩
    · split
      · exact ⟨_, rfl⟩
      · exact ⟨_, rfl⟩
  obtain ⟨b, hb⟩ := hbyte
  rw [hb] at h
  cases h with
  | byte h =>
    cases h
    rfl

/-- The size of an instruction is that of its code and its argument, exactly if an argument of one
byte fits. -/
theorem length_encode (hlit : Literal value) {e : Instruction.Entry} {text : String}
    (hq : (Source.encode e text).problems = [])
    (h : Encodes value stop (Source.encode e text).value bs) :
    bs.length = e.code.length + e.argument.width ↔
      (e.argument = .byte → FitsByte (value (Source.readValue text).value)) := by
  have hcode {slots : List Slot} (h : Encodes value stop (e.code.map .byte ++ slots) bs) :
      ∃ bs', bs.length = e.code.length + bs'.length ∧ Encodes value stop slots bs' := by
    obtain ⟨bs', rfl, h'⟩ := h.of_map_byte
    exact ⟨bs', List.length_append, h'⟩
  unfold Source.encode at h hq
  cases ha : e.argument with
  | byte =>
    simp only [ha, Checked.value_bind, Checked.problems_bind, Checked.value_pure,
      Checked.problems_pure, List.append_nil] at h hq
    obtain ⟨bs', hlength, h'⟩ := hcode h
    have hbyte := length_byteSlot hlit (List.append_eq_nil_iff.1 hq).2 h'
    rw [hlength, Instruction.Argument.width, Nat.add_left_cancel_iff, hbyte]
    exact ⟨fun hfits _ => hfits, fun hfits => hfits rfl⟩
  | none =>
    rw [ha] at h
    rw [← List.append_nil (Checked.value _)] at h
    obtain ⟨bs', hlength, h'⟩ := hcode h
    cases h'
    exact ⟨fun _ => nofun, fun _ => hlength⟩
  | word =>
    rw [ha] at h
    obtain ⟨bs', hlength, h'⟩ := hcode h
    have hword := length_wordSlots h'
    exact ⟨fun _ => nofun, fun _ => by rw [hlength, hword]; rfl⟩
  | relative =>
    rw [ha] at h
    obtain ⟨bs', hlength, h'⟩ := hcode h
    cases h' with
    | relative _ _ _ h' =>
      cases h'
      exact ⟨fun _ => nofun, fun _ => hlength⟩
  | bit =>
    rw [ha] at h
    exact ⟨fun _ => nofun, fun _ => length_codeWith h⟩
  | restart =>
    rw [ha] at h
    exact ⟨fun _ => nofun, fun _ => length_codeWith h⟩
  | mode =>
    rw [ha] at h
    obtain ⟨bs', hlength, h'⟩ := hcode h
    have hmode := length_modeSlot h'
    exact ⟨fun _ => nofun, fun _ => by rw [hlength, hmode]; rfl⟩

theorem length_replicate_fillSlot (hlit : Literal value) {fill? : Option String} {n : Nat}
    (hn : n ≠ 0) (hq : (Source.fillSlot fill?).problems = [])
    (h : Encodes value stop (List.replicate n (Source.fillSlot fill?).value) bs) :
    bs.length = n ↔ ∀ text, fill? = some text → FitsByte (value (Source.readValue text).value) := by
  obtain ⟨k, rfl⟩ := Nat.exists_eq_succ_of_ne_zero hn
  have hpaired : Paired [(Source.fillSlot fill?).value] := by
    cases fill? with
    | none => exact .byte .nil
    | some text => exact Source.slotsClosed_paired.byteSlot trivial
  obtain ⟨bs₁, bs₂, -, h₁, -⟩ :=
    h.of_cons (Source.slotsClosed_paired.replicate hpaired k).not_high
  have hone : bs₁.length = 1 ↔
      ∀ text, fill? = some text → FitsByte (value (Source.readValue text).value) := by
    cases fill? with
    | none =>
      cases h₁ with
      | byte hnil =>
        cases hnil
        exact ⟨fun _ => nofun, fun _ => rfl⟩
    | some text =>
      rw [length_byteSlot hlit hq h₁]
      refine ⟨fun hfits text' htext => ?_, fun hfits => hfits text rfl⟩
      cases htext
      exact hfits
  rw [h.length_replicate h₁, ← hone]
  exact Nat.mul_eq_left hn

end

theorem SymbolTable.literal_valueOf (t : SymbolTable) (scopes : ScopeStack) (here : Int64) :
    Literal fun v => t.valueOf v (scopes.scopeOf v) here := by
  rintro ⟨content, scope?, here?⟩ d hd
  cases content with
  | number n =>
    cases hd
    rfl
  | text s =>
    cases hd
    rfl
  | unresolved => cases hd
  | deferred => cases hd

namespace Assembly

/-- The expression with the given text, in the given scopes and at the given address, goes into one
byte by the values of the final table. -/
def FitsByte (a : Assembly) (scopes : ScopeStack) (address : Int64) (text : String) : Prop :=
  let v := (Source.readValue text).value
  Z80Asm.FitsByte (a.table.valueOf v (scopes.scopeOf v) address)

/-- Every instruction and all reserved space of a source program that is assembled without problems
has the size that its line says, exactly if its operand of one byte fits into one byte. -/
theorem size_iff_fits (hread : Source.Reads load? es)
    (hq : (assemble es passes).diagnostics = []) :
    let a := assemble es passes
    ∀ pre loc t post,
      Program.outside (Macro.expandAll a.macros (passLimit passes) es).1 =
        pre ++ ⟨loc, .bytes t⟩ :: post →
      ∃ raw pre' t' post', Source.lineAt? load? loc = some raw ∧
        Program.outside a.program = pre' ++ ⟨loc, .bytes t'⟩ :: post' ∧ pre'.length = pre.length ∧
        (∀ entry text, Source.instructionOn? raw = some (entry, text) →
          (t'.data.length = entry.code.length + entry.argument.width ↔
            (entry.argument = .byte → a.FitsByte (.behind pre') t'.address text))) ∧
        (∀ size fill?, Source.spaceOn? raw = some (size, fill?) →
          ∃ n, (Source.readConstant? size "DEFS size").value = some n ∧
            (t'.data.length = n.toInt.toNat ↔
              ∀ text, fill? = some text → a.FitsByte (.behind pre') t'.address text)) := by
  intro a pre loc t post hpos
  obtain ⟨-, -, hcollect, -, hevaluate, hpatch, -⟩ := (quiet_iff _ _).1 hq
  have hmem : ⟨loc, .bytes t⟩ ∈ es :=
    Macro.mem_of_mem_expandAll (hpos ▸ List.mem_append_right pre List.mem_cons_self) t rfl
  obtain ⟨raw, hraw, hline, hquiet⟩ := hread.stands hmem
  have hslots : Paired t.slots := Source.readLineText_legible _ _ hline
  have hlayout : layout es passes = Layout.assign _ _ := rfl
  obtain ⟨pre', t', post', hpos', hlength, hencodes⟩ :=
    Layout.template_encoded hlayout hcollect hevaluate hpatch hpos hslots
  rw [← assemble_program] at hpos'
  rw [← assemble_table] at hencodes
  have hlit := a.table.literal_valueOf (.behind pre') t'.address
  refine ⟨raw, pre', t', post', hraw, hpos', hlength, ?_, ?_⟩
  · intro entry text hentry
    obtain ⟨hencode, hproblems⟩ := Source.slots_of_instruction hentry hline hquiet
    exact length_encode hlit hproblems (hencode ▸ hencodes)
  · intro size fill? hspace
    obtain ⟨n, hn, hpositive, hfill, hproblems⟩ := Source.slots_of_space hspace hline hquiet
    exact ⟨n, hn, length_replicate_fillSlot hlit hpositive hproblems (hfill ▸ hencodes)⟩

def namedText (text : String) : List String := ["s equ \"" ++ text ++ "\"", " ld b,s", " defs 2,s"]

def textProgram (text : String) : List Element :=
  [⟨⟨"f", 1⟩, .label { name := "s" }⟩, ⟨⟨"f", 1⟩, .equ (.text text)⟩,
    ⟨⟨"f", 2⟩, .bytes ⟨[.byte 0x06, .expr (.deferred "s" ["s"])], 0, 0, false⟩⟩,
    ⟨⟨"f", 3⟩, .bytes ⟨[.expr (.deferred "s" ["s"]), .expr (.deferred "s" ["s"])], 0, 0, false⟩⟩]

set_option maxRecDepth 10000 in
theorem instructionOn?_load : Source.instructionOn? " ld b,s" =
    some (⟨"ld", [.word "b", .value], [0x06], .byte⟩, "s") := by decide +kernel

set_option maxRecDepth 10000 in
theorem elementsOfLines_namedText (text : String)
    (h : Source.elementsOfLine ⟨"f", 1⟩ ("s equ \"" ++ text ++ "\"") =
      ([⟨⟨"f", 1⟩, .label { name := "s" }⟩, ⟨⟨"f", 1⟩, .equ (.text text)⟩], [])) :
    Source.elementsOfLines "f" (namedText text) = (textProgram text, []) := by
  have hencode : Source.encode ⟨"ld", [.word "b", .value], [0x06], .byte⟩ "s" =
      pure [.byte 0x06, .expr (.deferred "s" ["s"])] := by cbv
  have hload := Source.elementsOfLine_of_encode instructionOn?_load (by decide +kernel) hencode
    (List.cons_ne_nil _ _) ⟨"f", 2⟩
  have hspace : Source.elementsOfLine ⟨"f", 3⟩ " defs 2,s" =
      ([⟨⟨"f", 3⟩, .bytes ⟨[.expr (.deferred "s" ["s"]), .expr (.deferred "s" ["s"])], 0, 0,
        false⟩⟩], []) := by
    cbv
  exact Source.elementsOfLines_of_forall₂ "f" (namedText text)
    (.cons h (.cons hload (.cons hspace .nil)))

set_option maxRecDepth 10000 in
theorem assemble_textProgram_letter :
    let a := assemble (textProgram "a") 0
    a.diagnostics = [] ∧ a.table.valueOf (.deferred "s" ["s"]) "" 0 = .ok (.text "a") ∧
      Program.outside a.program =
        [⟨⟨"f", 1⟩, .label ⟨"s", false, "s"⟩⟩, ⟨⟨"f", 1⟩, .equ (.text "a")⟩] ++
          ⟨⟨"f", 2⟩, .bytes ⟨[.byte 0x06, .byte 0x61], 0, 0, true⟩⟩ ::
          [⟨⟨"f", 3⟩, .bytes ⟨[.byte 0x61, .byte 0x61], 2, 2, true⟩⟩] := by cbv

theorem size_namedText_letter :
    let es := (Source.elementsOfLines "f" (namedText "a")).1
    Source.Reads (fun f => if f = "f" then some (namedText "a") else none) es ∧
      (assemble es 0).diagnostics = [] ∧
      ∃ pre t post, Program.outside (assemble es 0).program =
        pre ++ ⟨⟨"f", 2⟩, .bytes t⟩ :: post ∧ t.data.length = 2 := by
  have hes := elementsOfLines_namedText "a" (by cbv)
  have hread := Source.Reads.text "f" (namedText "a") (congrArg Prod.snd hes)
  rw [hes] at hread ⊢
  obtain ⟨hq, hvalue, hprogram⟩ := assemble_textProgram_letter
  refine ⟨hread, hq, ?_⟩
  obtain ⟨raw, pre, t, post, hraw, hpos, hlength, hinstruction, -⟩ :=
    size_iff_fits hread hq [⟨⟨"f", 1⟩, .label { name := "s" }⟩, ⟨⟨"f", 1⟩, .equ (.text "a")⟩]
      ⟨"f", 2⟩ ⟨[.byte 0x06, .expr (.deferred "s" ["s"])], 0, 0, false⟩
      [⟨⟨"f", 3⟩, .bytes ⟨[.expr (.deferred "s" ["s"]), .expr (.deferred "s" ["s"])], 0, 0, false⟩⟩]
      (by cbv)
  cases hraw
  refine ⟨pre, t, post, hpos, (hinstruction _ _ instructionOn?_load).2 fun _ => ?_⟩
  obtain ⟨rfl, hrest⟩ := List.append_inj (hpos.symm.trans hprogram) hlength
  cases hrest
  intro s hs
  have hoperand : (Source.readValue "s").value = .deferred "s" ["s"] := by cbv
  rw [hoperand] at hs
  cases hvalue.symm.trans hs
  rfl

set_option maxRecDepth 10000 in
theorem assemble_textProgram_oversized :
    let a := assemble (textProgram "abc") 0
    a.diagnostics = [] ∧ Program.outside a.program =
      [⟨⟨"f", 1⟩, .label ⟨"s", false, "s"⟩⟩, ⟨⟨"f", 1⟩, .equ (.text "abc")⟩] ++
        [⟨⟨"f", 2⟩, .bytes ⟨[.byte 0x06, .byte 0x61, .byte 0x62, .byte 0x63], 0, 0, true⟩⟩,
          ⟨⟨"f", 3⟩, .bytes ⟨[.byte 0x61, .byte 0x62, .byte 0x63, .byte 0x61, .byte 0x62,
            .byte 0x63], 4, 4, true⟩⟩] := by cbv

/-- A text of three bytes makes the instruction and the reserved space longer than their lines say,
and nothing is reported. -/
theorem namedText_oversized :
    let es := (Source.elementsOfLines "f" (namedText "abc")).1
    Source.Reads (fun f => if f = "f" then some (namedText "abc") else none) es ∧
      (assemble es 0).diagnostics = [] ∧
      Source.instructionOn? " ld b,s" =
        some (⟨"ld", [.word "b", .value], [0x06], .byte⟩, "s") ∧
      Source.spaceOn? " defs 2,s" = some ("2", some "s") ∧
      ∃ pre t t', Program.outside (assemble es 0).program =
          pre ++ [⟨⟨"f", 2⟩, .bytes t⟩, ⟨⟨"f", 3⟩, .bytes t'⟩] ∧
        t.data.length = 4 ∧ t'.data.length = 6 := by
  have hes := elementsOfLines_namedText "abc" (by cbv)
  have hread := Source.Reads.text "f" (namedText "abc") (congrArg Prod.snd hes)
  rw [hes] at hread ⊢
  have hspace : Source.spaceOn? " defs 2,s" = some ("2", some "s") := by decide +kernel
  obtain ⟨hq, hprogram⟩ := assemble_textProgram_oversized
  exact ⟨hread, hq, instructionOn?_load, hspace, _, _, _, hprogram, rfl, rfl⟩

end Assembly
end Z80Asm
