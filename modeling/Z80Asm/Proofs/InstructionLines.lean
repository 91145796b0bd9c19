import Z80Asm.Proofs.Opcodes
import Z80Asm.Proofs.UnbrokenOutput

/-! Lines of instructions with numbers as their arguments. They are read as labels and templates,
whose slots are the opcodes and what follows of the arguments. -/

namespace Z80Asm
set_option autoImplicit true

def Instruction.Entry.slots (e : Instruction.Entry) (n : Int64) : List Slot :=
  (e.opcode n).map .byte ++
    match e.argument with
    | .byte => [.byte (Word.lowByte n)]
    | .word => Source.wordBytes n
    | .relative => [.relative (.number n)]
    | _ => []

namespace Source

/-- The line is that of an instruction with a number as its argument. -/
def Says (raw : String) (p : Instruction.Entry × Int64) : Prop :=
  ∃ text, instructionOn? raw = some (p.1, text) ∧
    (p.1.argument ≠ .none → Folds text (.number p.2))

theorem Folds.readConstant?_eq (h : Folds text (.number n)) (what : String) :
    readConstant? text what = pure (some n) := by
  rw [readConstant?, h.readValue?_eq]
  rfl

theorem codeWith_quiet {valid : Int64 → Bool} {problem : Int64 → Problem} {bits : Int64 → UInt8}
    (hq : (codeWith code (some n) valid problem bits).problems = []) :
    (codeWith code (some n) valid problem bits).value = (setBits code (bits n)).map .byte ∧
      valid n = true := by
  unfold codeWith at hq ⊢
  dsimp only at hq ⊢
  split at hq
  · rename_i hvalid
    rw [if_pos hvalid]
    exact ⟨rfl, hvalid⟩
  · cases hq

theorem byteSlot_number (n : Int64) :
    (byteSlot (.number n)).value = .byte (Word.lowByte n) := by
  unfold byteSlot
  dsimp only [Value.number]
  split
  · rfl
  · rfl

theorem wordSlots_number (n : Int64) : (wordSlots (.number n)).value = wordBytes n := by
  unfold wordSlots
  dsimp only [Value.number]
  split
  · rfl
  · rfl

theorem modeSlot_quiet (hq : (modeSlot (some n)).problems = []) :
    (modeSlot (some n)).value = .byte (Instruction.modeByte n.toInt.toNat) ∧
      ¬ (n < 0 || n > 2) = true := by
  unfold modeSlot at hq ⊢
  dsimp only at hq ⊢
  split at hq
  · cases hq
  · rename_i hvalid
    rw [if_neg hvalid]
    exact ⟨rfl, hvalid⟩

theorem mem_of_toInt {ns : List Int64} (h : n.toInt ∈ ns.map Int64.toInt) : n ∈ ns := by
  obtain ⟨m, hm, heq⟩ := List.mem_map.1 h
  rwa [← Int64.toInt_inj.1 heq]

theorem mem_values_bit (h : (decide (0 ≤ n) && decide (n ≤ 7)) = true) :
    n ∈ Instruction.Argument.values .bit := by
  have hvalues : (Instruction.Argument.values .bit).map Int64.toInt =
      [0, 1, 2, 3, 4, 5, 6, 7] := rfl
  simp only [Bool.and_eq_true, decide_eq_true_eq, Int64.le_iff_toInt_le] at h
  obtain ⟨hlow, hhigh⟩ : 0 ≤ n.toInt ∧ n.toInt ≤ 7 := h
  apply mem_of_toInt
  rw [hvalues]
  simp only [List.mem_cons, List.not_mem_nil, or_false]
  omega

theorem mem_values_restart
    (h : (decide (0 ≤ n) && decide (n ≤ 0x38) && decide (n % 8 = 0)) = true) :
    n ∈ Instruction.Argument.values .restart := by
  have hvalues : (Instruction.Argument.values .restart).map Int64.toInt =
      [0, 8, 16, 24, 32, 40, 48, 56] := rfl
  simp only [Bool.and_eq_true, decide_eq_true_eq, Int64.le_iff_toInt_le] at h
  obtain ⟨⟨hlow, hhigh⟩, hmod⟩ := h
  have hlow : 0 ≤ n.toInt := hlow
  have hhigh : n.toInt ≤ 56 := hhigh
  have hmod : n.toInt.tmod 8 = 0 := by
    rw [← Int64.toInt_inj, Int64.toInt_mod] at hmod
    exact hmod
  rw [Int.tmod_eq_emod_of_nonneg hlow] at hmod
  apply mem_of_toInt
  rw [hvalues]
  simp only [List.mem_cons, List.not_mem_nil, or_false]
  omega

theorem mem_values_mode (h : ¬ (decide (n < 0) || decide (n > 2)) = true) :
    n ∈ Instruction.Argument.values .mode := by
  have hvalues : (Instruction.Argument.values .mode).map Int64.toInt = [0, 1, 2] := rfl
  simp only [Bool.or_eq_true, decide_eq_true_eq, not_or, gt_iff_lt, Int64.not_lt,
    Int64.le_iff_toInt_le] at h
  obtain ⟨hlow, hhigh⟩ : 0 ≤ n.toInt ∧ n.toInt ≤ 2 := h
  apply mem_of_toInt
  rw [hvalues]
  simp only [List.mem_cons, List.not_mem_nil, or_false]
  omega

theorem encode_of_folds {e : Instruction.Entry} (he : e ∈ Instruction.table)
    (h : e.argument ≠ .none → Folds text (.number n)) (hq : (encode e text).problems = []) :
    (encode e text).value = e.slots n ∧ e.Admits n := by
  unfold Instruction.Entry.slots Instruction.Entry.opcode Instruction.Entry.Admits
  unfold encode at hq ⊢
  cases ha : e.argument with
  | none =>
    exact ⟨(List.append_nil _).symm, he, List.mem_singleton_self _⟩
  | byte =>
    have hread := (h (ha ▸ nofun)).readValue_eq
    simp only [ha, hread] at hq ⊢
    refine ⟨?_, he, List.mem_singleton_self _⟩
    exact congrArg (fun slot => e.code.map .byte ++ [slot]) (byteSlot_number n)
  | word =>
    have hread := (h (ha ▸ nofun)).readValue_eq
    simp only [ha, hread] at hq ⊢
    refine ⟨?_, he, List.mem_singleton_self _⟩
    exact congrArg (e.code.map .byte ++ ·) (wordSlots_number n)
  | relative =>
    have hread := (h (ha ▸ nofun)).readValue_eq
    simp only [hread]
    exact ⟨rfl, he, List.mem_singleton_self _⟩
  | bit =>
    have hread := (h (ha ▸ nofun)).readConstant?_eq "bit number"
    simp only [ha, hread] at hq ⊢
    obtain ⟨hvalue, hvalid⟩ := codeWith_quiet hq
    exact ⟨hvalue.trans (List.append_nil _).symm, he, mem_values_bit hvalid⟩
  | restart =>
    have hread := (h (ha ▸ nofun)).readConstant?_eq "RST address"
    simp only [ha, hread] at hq ⊢
    obtain ⟨hvalue, hvalid⟩ := codeWith_quiet hq
    exact ⟨hvalue.trans (List.append_nil _).symm, he, mem_values_restart hvalid⟩
  | mode =>
    have hread := (h (ha ▸ nofun)).readConstant?_eq "interrupt mode"
    simp only [ha, hread] at hq ⊢
    have hslot : (modeSlot (some n)).problems ++ [] = [] := hq
    obtain ⟨hvalue, hvalid⟩ := modeSlot_quiet (List.append_eq_nil_iff.1 hslot).1
    refine ⟨?_, he, mem_values_mode hvalid⟩
    have hbytes : (e.code ++ [Instruction.modeByte n.toInt.toNat]).map Slot.byte =
        e.code.map .byte ++ [.byte (Instruction.modeByte n.toInt.toNat)] := List.map_append
    rw [List.append_nil, hbytes, ← hvalue]
    rfl

end Source

inductive Carries (R : α → Template → Prop) : List α → List Element → Prop where
  | nil : Carries R [] []
  | other : (∀ t, e.stmt ≠ .bytes t) → Carries R as es → Carries R as (e :: es)
  | template : e.stmt = .bytes t → R a t → Carries R as es → Carries R (a :: as) (e :: es)

theorem Carries.others (h : ∀ e ∈ front, ∀ t, e.stmt ≠ .bytes t) (hes : Carries R as es) :
    Carries R as (front ++ es) := by
  induction front with
  | nil => exact hes
  | cons e front ih =>
    obtain ⟨he, hfront⟩ := List.forall_mem_cons.1 h
    exact .other he (ih hfront)

theorem Carries.forall₂ {R R' : α → Template → Prop} {S : Element → Element → Prop}
    (hother : ∀ e e', S e e' → (∀ t, e.stmt ≠ .bytes t) → ∀ t, e'.stmt ≠ .bytes t)
    (htemplate : ∀ e e' a t, S e e' → e.stmt = .bytes t → R a t →
      ∃ t', e'.stmt = .bytes t' ∧ R' a t')
    (h : Carries R as es) (hes : List.Forall₂ S es es') : Carries R' as es' := by
  induction h generalizing es' with
  | nil =>
    cases hes
    exact .nil
  | other he _ ih =>
    cases hes with
    | cons hS hes => exact .other (hother _ _ hS he) (ih hes)
  | template he hR _ ih =>
    cases hes with
    | cons hS hes =>
      obtain ⟨t', he', hR'⟩ := htemplate _ _ _ _ hS he hR
      exact .template he' hR' (ih hes)

namespace Instruction

def Slotted (p : Entry × Int64) (t : Template) : Prop :=
  t.slots = p.1.slots p.2 ∧ p.1.Admits p.2

theorem Entry.slots_paired (e : Entry) (n : Int64) : Paired (e.slots n) := by
  refine (Paired.map_byte _).append ?_
  cases e.argument with
  | byte => exact .byte .nil
  | word => exact .byte (.byte .nil)
  | relative => exact .relative .nil
  | _ => exact .nil

end Instruction

namespace Source

/-- The line of an instruction is read as its labels and the template of the instruction. -/
theorem elementsOfLine_of_says (h : Says raw p) (loc : Location)
    (hq : (elementsOfLine loc raw).2 = []) :
    ∃ (front : List Element) (t : Template),
      (elementsOfLine loc raw).1 = front ++ [⟨loc, .bytes t⟩] ∧
      (∀ e ∈ front, ∃ l, e.stmt = .label l) ∧ Instruction.Slotted p t := by
  obtain ⟨text, hinstruction, hfolds⟩ := h
  rw [elementsOfLine_of_instruction loc hinstruction] at hq ⊢
  refine ⟨_, _, rfl, ?_, ?_⟩
  · intro e he
    obtain ⟨stmt, hstmt, rfl⟩ := List.mem_map.1 he
    obtain ⟨l, -, rfl⟩ := List.mem_map.1 hstmt
    exact ⟨_, rfl⟩
  · exact encode_of_folds (mem_table_of_instruction hinstruction) hfolds (List.map_eq_nil_iff.1 hq)

theorem elementsFrom_of_says (h : List.Forall₂ Says lines ps) (file : String) (k : Nat)
    (hq : ((elementsFrom file k lines).map Prod.snd).flatten = []) :
    Carries Instruction.Slotted ps ((elementsFrom file k lines).map Prod.fst).flatten ∧
      ∀ e ∈ ((elementsFrom file k lines).map Prod.fst).flatten, e.Flat := by
  induction h generalizing k with
  | nil => exact ⟨.nil, List.forall_mem_nil _⟩
  | cons hline _ ih =>
    rw [elementsFrom_cons, List.map_cons, List.flatten_cons] at hq ⊢
    obtain ⟨hhere, hrest⟩ := List.append_eq_nil_iff.1 hq
    obtain ⟨front, t, hfront, hlabels, hslots⟩ := elementsOfLine_of_says hline _ hhere
    obtain ⟨hcarries, hflat⟩ := ih (k + 1) hrest
    rw [hfront, List.append_assoc]
    constructor
    · apply Carries.others
      · intro e he t ht
        obtain ⟨l, hl⟩ := hlabels e he
        cases hl.symm.trans ht
      · exact .template rfl hslots hcarries
    · intro e he
      rcases List.mem_append.1 he with he | he
      · exact .inl (hlabels e he)
      · rcases List.mem_cons.1 he with rfl | he
        · exact .inr ⟨t, rfl⟩
        · exact hflat e he

/-- The lines are read as an origin, or there are none and the origin is 0. -/
inductive Starts : List String → Int64 → Prop where
  | none : Starts [] 0
  | org : readLineText (readLine raw) = pure [.org (.number origin)] → Starts [raw] origin

theorem unbroken_of_starts (hs : Starts start origin) (h : List.Forall₂ Says lines ps)
    (hq : (elementsOfLines file (start ++ lines)).2 = []) :
    Layout.Unbroken origin (elementsOfLines file (start ++ lines)).1 ∧
      Carries Instruction.Slotted ps (elementsOfLines file (start ++ lines)).1 := by
  rw [elementsOfLines_eq] at hq ⊢
  dsimp only at hq ⊢
  cases hs with
  | none =>
    obtain ⟨hcarries, hflat⟩ := elementsFrom_of_says h file 0 hq
    exact ⟨.flat hflat, hcarries⟩
  | @org raw _ hread =>
    have hline (loc : Location) :
        elementsOfLine loc raw = ([⟨loc, .org (.number origin)⟩], []) := by
      unfold elementsOfLine
      rw [hread]
      rfl
    rw [List.singleton_append, elementsFrom_cons, hline] at hq ⊢
    obtain ⟨hcarries, hflat⟩ := elementsFrom_of_says h file 1 hq
    exact ⟨.org hflat, .other nofun hcarries⟩

end Source

end Z80Asm
