import Z80Asm.Proofs.OperandSites
import Z80Asm.Proofs.WrittenNames

/-! Operands that are a constant or its name. Both are read without problems, into templates of
which one has the bytes of the constant where the other has the name. -/

namespace Z80Asm
set_option autoImplicit true

namespace Source

/-- The text is an expression without names, of value `d`. -/
def Folds (src : String) (d : Datum) : Prop :=
  ∃ e, Expr.parse src = .ok e ∧ e.freeVars = [] ∧ e.eval Expr.noNames = .ok d

theorem Folds.readValue?_eq (h : Folds src d) : readValue? src = pure (some (.ofDatum d)) := by
  obtain ⟨e, hparse, hfree, heval⟩ := h
  rw [readValue?, hparse]
  dsimp only
  rw [hfree]
  dsimp only
  rw [heval]

theorem Folds.readValue_eq (h : Folds src d) : readValue src = pure (.ofDatum d) := by
  rw [readValue, h.readValue?_eq]
  rfl

theorem readValue_name (hx : isName x.toList = true) : readValue x = pure (.name x) := by
  have hread : readValue? x = pure (some (.name x)) := by
    rw [readValue?, parse_of_isName hx]
    rfl
  rw [readValue, hread]
  rfl

/-- Two readings of templates: without problems in the first there are none in the second, and it
has the name `x` for the value `d`. -/
def Alike (x : String) (d : Datum) (r r' : Checked (List Slot)) : Prop :=
  r.problems = [] → r'.problems = [] ∧ Names x d true r.value r'.value

theorem byteSlot_ofDatum (hq : (byteSlot (.ofDatum d)).problems = []) :
    ∃ b, d.byte? = some b ∧ byteSlot (.ofDatum d) = pure (.byte b) := by
  cases d with
  | number n =>
    refine ⟨Word.lowByte n, rfl, ?_⟩
    unfold byteSlot at hq ⊢
    dsimp only [Value.ofDatum, Content.ofDatum] at hq ⊢
    split at hq
    · cases hq
    · rename_i hrange
      rw [if_neg hrange]
  | text s =>
    unfold byteSlot at hq ⊢
    dsimp only [Value.ofDatum, Content.ofDatum] at hq ⊢
    split at hq
    · rename_i b hb
      refine ⟨b, ?_, rfl⟩
      rw [Datum.byte?, hb]
      rfl
    · cases hq

theorem wordSlots_ofDatum (hq : (wordSlots (.ofDatum d)).problems = []) :
    ∃ n, d.number? = some n ∧ wordSlots (.ofDatum d) = pure (wordBytes n) := by
  cases d with
  | number n =>
    refine ⟨n, rfl, ?_⟩
    unfold wordSlots at hq ⊢
    dsimp only [Value.ofDatum, Content.ofDatum] at hq ⊢
    split at hq
    · cases hq
    · rename_i hrange
      rw [if_neg hrange]
  | text s =>
    unfold wordSlots at hq ⊢
    dsimp only [Value.ofDatum, Content.ofDatum] at hq ⊢
    split at hq
    · rename_i n hn
      exact ⟨n, hn, rfl⟩
    · cases hq

section
variable {x src : String} {d : Datum} (hsrc : Folds src d) (hx : isName x.toList = true)
include hsrc hx

theorem dataBytes_alike : Alike x d (dataBytes src) (dataBytes x) := by
  intro hq
  have hname : dataBytes x = pure [.expr (.name x)] := by
    rw [dataBytes, readValue_name hx]
    rfl
  rw [hname]
  refine ⟨rfl, ?_⟩
  rw [dataBytes, hsrc.readValue_eq] at hq ⊢
  cases d with
  | number n =>
    have hbyte : (byteSlot (.ofDatum (.number n))).problems = [] := by
      change [] ++ ((byteSlot (.ofDatum (.number n))).problems ++ []) = [] at hq
      rwa [List.nil_append, List.append_nil] at hq
    obtain ⟨b, hb, heq⟩ := byteSlot_ofDatum hbyte
    change Names x _ true [(byteSlot (.ofDatum (.number n))).value] _
    rw [heq]
    exact .namedByte hb .nil
  | text s =>
    change Names x _ true (Slot.ofText s) _
    by_cases hlength : (Text.bytes s).length = 1
    · obtain ⟨b, hb⟩ := List.length_eq_one_iff.1 hlength
      rw [Slot.ofText, hb]
      refine .namedByte ?_ .nil
      rw [Datum.byte?, hb]
      rfl
    · have hnames : Names x (.text s) true (Slot.ofText s ++ []) [.expr (.name x)] :=
        .namedText rfl rfl hlength .nil
      rwa [List.append_nil] at hnames

theorem dataWords_alike : Alike x d (dataWords src) (dataWords x) := by
  intro hq
  have hname : dataWords x = pure [.expr (.name x), .high] := by
    rw [dataWords, readValue_name hx]
    rfl
  rw [hname]
  refine ⟨rfl, ?_⟩
  rw [dataWords, hsrc.readValue_eq] at hq ⊢
  obtain ⟨n, hn, heq⟩ := wordSlots_ofDatum (d := d) hq
  change Names x d true (wordSlots (.ofDatum d)).value _
  rw [heq]
  exact .namedWord hn .nil

end

end Source

theorem Checked.problems_mapM (f : α → Checked β) (as : List α) :
    (as.mapM f).problems = as.flatMap fun a => (f a).problems := by
  have hloop (bs : List β) : (List.mapM.loop f as bs).problems =
      as.flatMap fun a => (f a).problems := by
    induction as generalizing bs with
    | nil => rfl
    | cons a as ih => rw [List.mapM.loop, problems_bind, ih, List.flatMap_cons]
  exact hloop []

namespace Source

def Untouched (x : String) (slots : List Slot) : Prop :=
  ∀ v ∈ slots.filterMap Slot.operand?, x ∉ v.mentions

theorem untouched_append {slots slots' : List Slot} :
    Untouched x (slots ++ slots') ↔ Untouched x slots ∧ Untouched x slots' := by
  unfold Untouched
  rw [List.filterMap_append, List.forall_mem_append]

theorem Untouched.names {slots : List Slot} (h : Untouched x slots) (hpaired : Paired slots)
    (hunscoped : Unscoped slots) (d : Datum) : Names x d true slots slots :=
  .refl hpaired (fun v hv => ⟨h v hv, hunscoped v hv⟩) d true

theorem mapM_alike {f : String → Checked (List Slot)} {before after : List String}
    (hpaired : ∀ text, Paired (f text).value) (hunscoped : ∀ text, Unscoped (f text).value)
    (hhere : Alike x d (f src) (f x))
    (huntouched : Untouched x ((before ++ src :: after).mapM f).value.flatten)
    (hq : ((before ++ src :: after).mapM f).problems = []) :
    ((before ++ x :: after).mapM f).problems = [] ∧
      Names x d true ((before ++ src :: after).mapM f).value.flatten
        ((before ++ x :: after).mapM f).value.flatten := by
  rw [Checked.problems_mapM, List.flatMap_append, List.flatMap_cons, List.append_eq_nil_iff,
    List.append_eq_nil_iff] at hq
  obtain ⟨hbefore, hsrc, hafter⟩ := hq
  obtain ⟨hx, hnames⟩ := hhere hsrc
  have hslots (text : String) : ((before ++ text :: after).mapM f).value.flatten =
      (before.map fun a => (f a).value).flatten ++
        ((f text).value ++ (after.map fun a => (f a).value).flatten) := by
    rw [Checked.value_mapM, List.map_append, List.flatten_append, List.map_cons, List.flatten_cons]
  have hothers {texts : List String}
      (h : Untouched x (texts.map fun a => (f a).value).flatten) :
      Names x d true (texts.map fun a => (f a).value).flatten
        (texts.map fun a => (f a).value).flatten :=
    h.names (slotsClosed_paired.flatten (List.forall_mem_map.2 fun a _ => hpaired a))
      (slotsClosed_unscoped.flatten (List.forall_mem_map.2 fun a _ => hunscoped a)) d
  rw [hslots, untouched_append, untouched_append] at huntouched
  constructor
  · rw [Checked.problems_mapM, List.flatMap_append, List.flatMap_cons, hbefore, hx, hafter]
    rfl
  · rw [hslots, hslots]
    exact (hothers huntouched.1).append (hnames.append (hothers huntouched.2.2))

/-- Two readings of statements: without problems in the first there are none in the second, and it
has the name `x` for the value `d`. -/
def Matching (x : String) (d : Datum) (r r' : Checked (List Statement)) : Prop :=
  r.problems = [] → r'.problems = [] ∧
    List.Forall₂ (Statement.Named x d true) r.value r'.value

theorem forall₂_bytesStatement {slots slots' : List Slot} (h : Names x d true slots slots')
    (hne : slots ≠ []) :
    List.Forall₂ (Statement.Named x d true) (bytesStatement slots) (bytesStatement slots') := by
  have hsome (slots : List Slot) (hne : slots ≠ []) :
      bytesStatement slots = [.bytes { slots }] := by
    rw [bytesStatement, if_neg (fun hempty => hne (List.isEmpty_iff.1 hempty))]
  have hne' : slots' ≠ [] := by
    cases h with
    | nil => exact hne
    | _ => exact List.cons_ne_nil _ _
  rw [hsome slots hne, hsome slots' hne']
  exact .cons (.bytes h) .nil

theorem untouched_of_bytesStatement {slots : List Slot}
    (h : ∀ stmt ∈ bytesStatement slots, x ∉ stmt.names) : Untouched x slots := by
  intro v hv hx
  have hne : slots.isEmpty = false := by
    cases slots with
    | nil => cases hv
    | cons => rfl
  refine h (.bytes { slots }) ?_ ?_
  · rw [bytesStatement, hne]
    exact List.mem_singleton_self _
  · exact List.mem_append_right _ (List.mem_flatMap.2 ⟨v, hv, hx⟩)

theorem data_matching {f : String → Checked (List Slot)} {before after : List String}
    (hpaired : ∀ text, Paired (f text).value) (hunscoped : ∀ text, Unscoped (f text).value)
    (hhere : Alike x d (f src) (f x)) (hne : (f src).problems = [] → (f src).value ≠ [])
    (hnew : ∀ stmt ∈ bytesStatement ((before ++ src :: after).mapM f).value.flatten,
      x ∉ stmt.names) :
    Matching x d (do pure (bytesStatement (← (before ++ src :: after).mapM f).flatten))
      (do pure (bytesStatement (← (before ++ x :: after).mapM f).flatten)) := by
  intro hq
  rw [Checked.problems_bind, Checked.problems_pure, List.append_nil] at hq
  obtain ⟨hq', hnames⟩ :=
    mapM_alike hpaired hunscoped hhere (untouched_of_bytesStatement hnew) hq
  rw [Checked.problems_bind, Checked.problems_pure, List.append_nil]
  refine ⟨hq', forall₂_bytesStatement hnames ?_⟩
  rw [Checked.problems_mapM, List.flatMap_eq_nil_iff] at hq
  have hmem : src ∈ before ++ src :: after := List.mem_append_right _ List.mem_cons_self
  rw [Checked.value_mapM, ne_eq, List.flatten_eq_nil_iff]
  exact fun hall => hne (hq src hmem) (hall _ (List.mem_map_of_mem hmem))

theorem names_replicate {b : UInt8} (hb : d.byte? = some b) (n : Nat) :
    Names x d true (List.replicate n (.byte b)) (List.replicate n (.expr (.name x))) := by
  induction n with
  | zero => exact .nil
  | succ n ih => exact .namedByte hb ih

section
variable {x src : String} {d : Datum} (hsrc : Folds src d) (hx : isName x.toList = true)
include hsrc hx

theorem readBytes_matching (hd : d ≠ .text "") {before after : List String}
    (hnew : ∀ stmt ∈ (readBytes (before ++ src :: after)).value, x ∉ stmt.names) :
    Matching x d (readBytes (before ++ src :: after)) (readBytes (before ++ x :: after)) := by
  have hsome (text : String) : (before ++ text :: after).isEmpty = false := by
    cases before with
    | nil => rfl
    | cons => rfl
  unfold readBytes at hnew ⊢
  rw [hsome, hsome, if_neg Bool.false_ne_true, if_neg Bool.false_ne_true]
  rw [hsome, if_neg Bool.false_ne_true] at hnew
  refine data_matching slotsClosed_paired.dataBytes slotsClosed_unscoped.dataBytes
    (dataBytes_alike hsrc hx) ?_ hnew
  intro _
  rw [dataBytes, hsrc.readValue_eq]
  cases d with
  | number n => exact List.cons_ne_nil _ _
  | text s =>
    change Slot.ofText s ≠ []
    rw [Slot.ofText, ne_eq, List.map_eq_nil_iff, ← List.length_eq_zero_iff, Text.length_bytes,
      String.utf8ByteSize_eq_zero_iff]
    rintro rfl
    exact hd rfl

theorem readWords_matching {before after : List String}
    (hnew : ∀ stmt ∈ (readWords (before ++ src :: after)).value, x ∉ stmt.names) :
    Matching x d (readWords (before ++ src :: after)) (readWords (before ++ x :: after)) := by
  have hsome (text : String) : (before ++ text :: after).isEmpty = false := by
    cases before with
    | nil => rfl
    | cons => rfl
  unfold readWords at hnew ⊢
  rw [hsome, hsome, if_neg Bool.false_ne_true, if_neg Bool.false_ne_true]
  rw [hsome, if_neg Bool.false_ne_true] at hnew
  refine data_matching slotsClosed_paired.dataWords slotsClosed_unscoped.dataWords
    (dataWords_alike hsrc hx) ?_ hnew
  intro hq
  rw [dataWords, hsrc.readValue_eq] at hq ⊢
  obtain ⟨n, -, heq⟩ := wordSlots_ofDatum (d := d) hq
  change (wordSlots (.ofDatum d)).value ≠ []
  rw [heq]
  exact List.cons_ne_nil _ _

theorem reserveSpace_matching (size : String) :
    Matching x d (reserveSpace size (some src)) (reserveSpace size (some x)) := by
  unfold reserveSpace
  dsimp only
  rw [hsrc.readValue_eq, readValue_name hx]
  intro hq
  rw [Checked.problems_bind] at hq
  rw [Checked.problems_bind, Checked.value_bind, Checked.value_bind]
  obtain ⟨hsize, hq⟩ := List.append_eq_nil_iff.1 hq
  rw [hsize]
  generalize (readConstant? size "DEFS size").value = n? at hq ⊢
  cases n? with
  | none => exact ⟨rfl, .nil⟩
  | some n =>
    dsimp only at hq ⊢
    split at hq
    · cases hq
    · rename_i hrange
      rw [if_neg hrange, if_neg hrange]
      change [] ++ ((byteSlot (.ofDatum d)).problems ++ []) = [] at hq
      rw [List.nil_append, List.append_nil] at hq
      obtain ⟨b, hb, heq⟩ := byteSlot_ofDatum hq
      refine ⟨rfl, ?_⟩
      change List.Forall₂ _
        (bytesStatement (List.replicate n.toInt.toNat (byteSlot (.ofDatum d)).value))
        (bytesStatement (List.replicate n.toInt.toNat (.expr (.name x))))
      rw [heq]
      cases n.toInt.toNat with
      | zero => exact .nil
      | succ k => exact forall₂_bytesStatement (names_replicate hb (k + 1)) (List.cons_ne_nil _ _)

theorem encode_alike {entry : Instruction.Entry}
    (hargument : entry.argument ∈ [.byte, .word, .relative])
    (hq : (encode entry src).problems = []) :
    (encode entry x).problems = [] ∧
      Names x d true (encode entry src).value (encode entry x).value ∧
      (encode entry src).value ≠ [] := by
  have hcode {slots slots' : List Slot} (h : Names x d true slots slots') :
      Names x d true (entry.code.map .byte ++ slots) (entry.code.map .byte ++ slots') :=
    h.bytes entry.code
  unfold encode at hq ⊢
  rw [hsrc.readValue_eq] at hq ⊢
  rw [readValue_name hx]
  dsimp only at hq ⊢
  cases hkind : entry.argument with
  | byte =>
    rw [hkind] at hq
    change [] ++ ((byteSlot (.ofDatum d)).problems ++ []) = [] at hq
    rw [List.nil_append, List.append_nil] at hq
    obtain ⟨b, hb, heq⟩ := byteSlot_ofDatum hq
    refine ⟨rfl, ?_, List.concat_ne_nil _ _⟩
    change Names x d true (_ ++ [(byteSlot (.ofDatum d)).value]) _
    rw [heq]
    exact hcode (.namedByte hb .nil)
  | word =>
    rw [hkind] at hq
    change [] ++ ((wordSlots (.ofDatum d)).problems ++ []) = [] at hq
    rw [List.nil_append, List.append_nil] at hq
    obtain ⟨n, hn, heq⟩ := wordSlots_ofDatum hq
    change [] = [] ∧ Names x d true (_ ++ (wordSlots (.ofDatum d)).value) _ ∧
      _ ++ (wordSlots (.ofDatum d)).value ≠ []
    rw [heq]
    exact ⟨rfl, hcode (.namedWord hn .nil),
      List.append_ne_nil_of_right_ne_nil _ (List.cons_ne_nil _ _)⟩
  | relative => exact ⟨rfl, hcode (.namedRelative .nil), List.concat_ne_nil _ _⟩
  | _ => exact absurd hargument (by rw [hkind]; decide)

/-- An instruction whose operand is the constant or its name. -/
theorem readInstruction_matching {key : String} {operands operands' : List String}
    {entry : Instruction.Entry} (hread : readShape? key operands = some (entry, src))
    (hread' : readShape? key operands' = some (entry, x))
    (hargument : entry.argument ∈ [.byte, .word, .relative]) :
    Matching x d (readInstruction key operands) (readInstruction key operands') := by
  unfold readInstruction
  rw [hread, hread']
  dsimp only
  intro hq
  rw [Checked.problems_bind, Checked.problems_pure, List.append_nil] at hq ⊢
  obtain ⟨hq', hnames, hne⟩ := encode_alike hsrc hx hargument hq
  exact ⟨hq', forall₂_bytesStatement hnames hne⟩

end

/-- The shape of an instruction does not show which expression is in its operand. -/
theorem readShape?_name {before after : List String} {a b : String}
    (ha : readOperand a = (form, some src)) (hb : readOperand b = (form, some x))
    (h : readShape? key (before ++ a :: after) = some (entry, text)) :
    text = src ∧ readShape? key (before ++ b :: after) = some (entry, x) := by
  have hforms : ((before ++ b :: after).map readOperand).map Prod.fst =
      ((before ++ a :: after).map readOperand).map Prod.fst := by
    simp only [List.map_append, List.map_cons, ha, hb]
  have hexprs (c : String) (text : String) (hc : readOperand c = (form, some text)) :
      ((before ++ c :: after).map readOperand).filterMap Prod.snd =
        (before.map readOperand).filterMap Prod.snd ++
          text :: (after.map readOperand).filterMap Prod.snd := by
    rw [List.map_append, List.filterMap_append, List.map_cons, hc]
    rfl
  unfold readShape? at h ⊢
  dsimp only at h ⊢
  rw [hexprs a src ha] at h
  rw [hexprs b x hb, hforms]
  split at h
  · rename_i hnil
    exact (List.cons_ne_nil _ _ (List.append_eq_nil_iff.1 hnil).2).elim
  · rename_i one hone
    obtain ⟨hbefore, hrest⟩ : (before.map readOperand).filterMap Prod.snd = [] ∧
        src :: (after.map readOperand).filterMap Prod.snd = [one] := by
      rcases List.append_eq_singleton_iff.1 hone with ⟨hnil, hsingle⟩ | ⟨-, hnil⟩
      · exact ⟨hnil, hsingle⟩
      · cases hnil
    obtain ⟨rfl, hafter⟩ := List.cons.inj hrest
    rw [hbefore, hafter]
    obtain ⟨found, hfound, heq⟩ := Option.map_eq_some_iff.1 h
    cases heq
    refine ⟨rfl, ?_⟩
    rw [List.nil_append]
    dsimp only
    rw [hfound]
    rfl
  · cases h

end Source
end Z80Asm
