import Z80Asm.Proofs.Placement

/-! The bytes that a template stands for. -/

namespace Z80Asm
set_option autoImplicit true

/-- The bytes of slots, where `value` gives the operands and `stop` is the address behind the
template. A lone high byte has none. -/
inductive Encodes (value : Value → Except EvalError Datum) (stop : Int64) :
    List Slot → List UInt8 → Prop where
  | nil : Encodes value stop [] []
  | byte : Encodes value stop rest bs → Encodes value stop (.byte b :: rest) (b :: bs)
  | word : value v = .ok d → d.number? = some n → Encodes value stop rest bs →
      Encodes value stop (.expr v :: .high :: rest) (Word.lowByte n :: Word.highByte n :: bs)
  | number : value v = .ok (.number n) → Encodes value stop rest bs →
      Encodes value stop (.expr v :: rest) (Word.lowByte n :: bs)
  | text : value v = .ok (.text s) → Encodes value stop rest bs →
      Encodes value stop (.expr v :: rest) (Text.bytes s ++ bs)
  | relative : value v = .ok d → d.number? = some target →
      b.toInt8.toInt64 + stop = target → Encodes value stop rest bs →
      Encodes value stop (.relative v :: rest) (b :: bs)

theorem Encodes.not_high (h : Encodes value stop slots bs) : ∀ rest, slots ≠ .high :: rest := by
  cases h <;> exact nofun

theorem Encodes.mono (hv : ∀ v d, value v = .ok d → value' v = .ok d)
    (h : Encodes value stop slots bs) : Encodes value' stop slots bs := by
  induction h with
  | nil => exact .nil
  | byte _ ih => exact ih.byte
  | word hd hn _ ih => exact .word (hv _ _ hd) hn ih
  | number hd _ ih => exact .number (hv _ _ hd) ih
  | text hd _ ih => exact .text (hv _ _ hd) ih
  | relative hd hn hb _ ih => exact .relative (hv _ _ hd) hn hb ih

theorem signExtend_inj {b b' : UInt8} (h : b.toInt8.toInt64 = b'.toInt8.toInt64) : b = b' := by
  have h' := congrArg (fun n => n.toInt8.toUInt8) h
  simpa only [Int8.toInt8_toInt64, UInt8.toUInt8_toInt8] using h'

theorem Encodes.unique (h : Encodes value stop slots bs) (h' : Encodes value stop slots bs') :
    bs = bs' := by
  induction h generalizing bs' with
  | nil =>
    cases h'
    rfl
  | byte _ ih =>
    cases h' with
    | byte h' => rw [ih h']
  | word hv hn _ ih =>
    cases h' with
    | word hv' hn' h' =>
      cases hv.symm.trans hv'
      cases hn.symm.trans hn'
      rw [ih h']
    | number _ h' => exact (h'.not_high _ rfl).elim
    | text _ h' => exact (h'.not_high _ rfl).elim
  | number hv h ih =>
    cases h' with
    | word => exact (h.not_high _ rfl).elim
    | number hv' h' =>
      cases hv.symm.trans hv'
      rw [ih h']
    | text hv' => cases hv.symm.trans hv'
  | text hv h ih =>
    cases h' with
    | word => exact (h.not_high _ rfl).elim
    | number hv' => cases hv.symm.trans hv'
    | text hv' h' =>
      cases hv.symm.trans hv'
      rw [ih h']
  | relative hv hn hb _ ih =>
    cases h' with
    | relative hv' hn' hb' h' =>
      cases hv.symm.trans hv'
      cases hn.symm.trans hn'
      rw [ih h', signExtend_inj ((Int64.add_left_inj _).1 (hb.trans hb'.symm))]

theorem Word.signExtend_lowByte {n : Int64} (h : ¬ (n < -128 || n > 127) = true) :
    (Word.lowByte n).toInt8.toInt64 = n := by
  rw [Bool.or_eq_true, not_or, decide_eq_true_eq, decide_eq_true_eq, Int64.lt_iff_toInt_lt,
    gt_iff_lt, Int64.lt_iff_toInt_lt] at h
  have hlow : (Word.lowByte n).toInt8 = n.toInt8 := by
    apply Int8.toBitVec_inj.1
    rw [UInt8.toBitVec_toInt8, Int64.toBitVec_toInt8,
    BitVec.signExtend_eq_setWidth_of_le _ (by decide)]
    rfl
  apply Int64.toInt_inj.1
  rw [hlow, Int8.toInt_toInt64, Int64.toInt_toInt8]
  obtain ⟨h₁, h₂⟩ := h
  change ¬ n.toInt < -128 at h₁
  change ¬ 127 < n.toInt at h₂
  rw [Int.bmod_eq_of_le] <;> omega

/-- High bytes stand only behind the low bytes of their operands. -/
inductive Paired : List Slot → Prop where
  | nil : Paired []
  | byte : Paired rest → Paired (.byte b :: rest)
  | expr : Paired rest → Paired (.expr v :: rest)
  | word : Paired rest → Paired (.expr v :: .high :: rest)
  | relative : Paired rest → Paired (.relative v :: rest)

theorem Paired.not_high (h : Paired slots) : slots.head?.any Slot.isHigh = false := by
  cases h <;> rfl

theorem Paired.append (h : Paired slots) (h' : Paired slots') : Paired (slots ++ slots') := by
  induction h with
  | nil => exact h'
  | byte _ ih => exact ih.byte
  | expr _ ih => exact ih.expr
  | word _ ih => exact ih.word
  | relative _ ih => exact ih.relative

theorem Paired.map_byte (bs : List UInt8) : Paired (bs.map .byte) := by
  induction bs with
  | nil => exact .nil
  | cons b bs ih => exact ih.byte

theorem Encodes.of_map_byte (h : Encodes value stop (bs₀.map .byte ++ slots) bs) :
    ∃ bs', bs = bs₀ ++ bs' ∧ Encodes value stop slots bs' := by
  induction bs₀ generalizing bs with
  | nil => exact ⟨bs, rfl, h⟩
  | cons b bs₀ ih =>
    cases h with
    | byte h =>
      obtain ⟨bs', rfl, h'⟩ := ih h
      exact ⟨bs', rfl, h'⟩

namespace Layout

theorem reserved_expr (h : rest.head?.any Slot.isHigh = false) (early : Value → Option Datum)
    (v : Value) :
    reserved early (.expr v :: rest) = .expr v :: reserved early rest ∨
      ∃ s, early v = some (.text s) ∧
        reserved early (.expr v :: rest) = Slot.ofText s ++ reserved early rest := by
  rw [reserved, h]
  simp only [Bool.false_eq_true, ↓reduceIte]
  split
  · rename_i s hs
    split
    · exact .inl rfl
    · exact .inr ⟨s, hs, rfl⟩
  · exact .inl rfl

theorem reserved_word (early : Value → Option Datum) (v : Value) (rest : List Slot) :
    reserved early (.expr v :: .high :: rest) = .expr v :: .high :: reserved early rest := by
  rw [reserved, reserved]
  · rfl
  all_goals simp

end Layout

theorem Paired.reserved (h : Paired slots) (early : Value → Option Datum) :
    Paired (Layout.reserved early slots) := by
  induction h with
  | nil => exact .nil
  | byte _ ih => exact ih.byte
  | expr h ih =>
    rcases Layout.reserved_expr h.not_high early _ with he | ⟨s, -, he⟩
    · rw [he]
      exact ih.expr
    · rw [he]
      exact (Paired.map_byte _).append ih
  | word _ ih =>
    rw [Layout.reserved_word]
    exact ih.word
  | relative _ ih => exact ih.relative

/-- Texts that were reserved encode as their operands do, if their values have not changed. -/
theorem Encodes.of_reserved (hp : Paired slots)
    (hv : ∀ v d, early v = some d → value v = .ok d)
    (h : Encodes value stop (Layout.reserved early slots) bs) : Encodes value stop slots bs := by
  induction hp generalizing bs with
  | nil => exact h
  | byte _ ih =>
    cases h with
    | byte h => exact (ih h).byte
  | expr hp ih =>
    rcases Layout.reserved_expr hp.not_high early _ with he | ⟨s, hs, he⟩
    · rw [he] at h
      have hp' := hp.reserved early
      generalize hr : Layout.reserved early _ = slots at h hp' ih
      cases h with
      | word => cases hp'
      | number hn h => exact .number hn (ih (hr ▸ h))
      | text ht h => exact .text ht (ih (hr ▸ h))
    · rw [he] at h
      obtain ⟨bs', rfl, h'⟩ := h.of_map_byte
      exact .text (hv _ _ hs) (ih h')
  | word _ ih =>
    rw [Layout.reserved_word] at h
    cases h with
    | word hd hn h => exact .word hd hn (ih h)
    | number _ h => exact (h.not_high _ rfl).elim
    | text _ h => exact (h.not_high _ rfl).elim
  | relative _ ih =>
    cases h with
    | relative hd hn hb h => exact .relative hd hn hb (ih h)

end Z80Asm
