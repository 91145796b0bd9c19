import Z80Asm.Proofs.Patching

/-! Relative jumps: a target is accepted exactly when its distance from the end of the instruction
is that of a signed byte. Distances are counted in words, which wrap around. -/

namespace Z80Asm
set_option autoImplicit true

theorem Word.toInt_add_ofNat {a : Int64} {n : Nat} (h₀ : 0 ≤ a.toInt + n)
    (h₁ : a.toInt + n ≤ 2 ^ 32) : (a + Int64.ofNat n).toInt = a.toInt + n := by
  have hn : (Int64.ofNat n).toInt = (n : Int).bmod (2 ^ 64) := Int64.toInt_ofNat'
  rw [Int64.toInt_add, hn, Int.add_bmod_bmod, Int.bmod_eq_of_le]
  · omega
  · omega

/-- A difference of words is that of integers, or it has wrapped around and lies far above. -/
theorem Word.toInt_sub_of_base {n base : Int64} (h₀ : 0 ≤ base.toInt) (h₁ : base.toInt ≤ 2 ^ 32) :
    (n - base).toInt = n.toInt - base.toInt ∨
      n.toInt - base.toInt < -2 ^ 62 ∧ 2 ^ 62 < (n - base).toInt := by
  have hlow := n.le_toInt
  have hhigh := n.toInt_lt
  rw [Int64.toInt_sub]
  by_cases h : -2 ^ 63 ≤ n.toInt - base.toInt
  · apply Or.inl
    rw [Int.bmod_eq_of_le] <;> omega
  · apply Or.inr
    have hwrap : (n.toInt - base.toInt).bmod (2 ^ 64) = n.toInt - base.toInt + 2 ^ 64 := by
      rw [← Int.add_bmod_right, Int.bmod_eq_of_le] <;> omega
    rw [hwrap]
    omega

theorem Word.refused_iff {n base : Int64} (h₀ : 0 ≤ base.toInt) (h₁ : base.toInt ≤ 2 ^ 32) :
    (n - base < -128 || n - base > 127) = true ↔
      ¬ (base.toInt - 128 ≤ n.toInt ∧ n.toInt ≤ base.toInt + 127) := by
  rw [Bool.or_eq_true, decide_eq_true_eq, decide_eq_true_eq, Int64.lt_iff_toInt_lt, gt_iff_lt,
    Int64.lt_iff_toInt_lt]
  change (n - base).toInt < -128 ∨ 127 < (n - base).toInt ↔ _
  obtain heq | hfar := Word.toInt_sub_of_base (n := n) h₀ h₁
  · omega
  · omega

namespace Patch.State

theorem patchRelative_of_value {s : State} (hd : (s.operand site v).1 = .ok d)
    (hn : d.number? = some target) :
    s.patchRelative site length v =
      let displacement := target - (site.address + Int64.ofNat length)
      if displacement < -128 || displacement > 127 then
        (.relative v, (s.operand site v).2.report (.jumpRange displacement) site.loc)
      else (.byte (Word.lowByte displacement), (s.operand site v).2) := by
  have hbind : (s.operand site v).1 >>= Datum.asNumber none = .ok target := by
    rw [hd]
    exact Datum.asNumber_eq_ok.2 hn
  unfold patchRelative
  dsimp only
  rw [hbind]

/-- What becomes of the slot of a jump whose instruction ends at `stop`, and of the state. -/
inductive Jump (s : State) (site : Site) (v : Value) (stop target : Int) : Slot → State → Prop where
  | accepted (hlow : stop - 128 ≤ target) (hhigh : target ≤ stop + 127)
      (hb : b.toInt8.toInt + stop = target) : Jump s site v stop target (.byte b) s
  | refused (hfar : ¬ (stop - 128 ≤ target ∧ target ≤ stop + 127)) (hp : p.category = .encoding) :
      Jump s site v stop target (.relative v) (s.report p site.loc)

theorem patchRelative_jump {s : State} {length : Nat} {stop : Int}
    (hstop : stop = site.address.toInt + length) (h₀ : 0 ≤ stop) (h₁ : stop ≤ 2 ^ 32)
    (hd : (s.operand site v).1 = .ok d) (hn : d.number? = some target) :
    Jump (s.operand site v).2 site v stop target.toInt (s.patchRelative site length v).1
      (s.patchRelative site length v).2 := by
  rw [patchRelative_of_value hd hn]
  generalize hbase : site.address + Int64.ofNat length = base
  have hbase' : base.toInt = stop := by
    rw [hstop] at h₀ h₁ ⊢
    rw [← hbase]
    exact Word.toInt_add_ofNat h₀ h₁
  subst hbase'
  have hiff := Word.refused_iff (n := target) h₀ h₁
  dsimp only
  split
  · rename_i hfar
    exact .refused (hiff.1 hfar) rfl
  · rename_i hnear
    obtain ⟨hlow, hhigh⟩ := not_not.1 fun hfar => hnear (hiff.2 hfar)
    refine .accepted hlow hhigh ?_
    have hdistance := congrArg Int64.toInt (Word.signExtend_lowByte hnear)
    rw [Int8.toInt_toInt64] at hdistance
    rw [hdistance]
    obtain heq | hfar := Word.toInt_sub_of_base (n := target) h₀ h₁
    · rw [heq]
      exact Int.sub_add_cancel _ _
    · omega

/-- A jump whose instruction ends at `stop` is accepted exactly when its target is in reach. Then
its byte leads to the target; otherwise its slot stays as it is and the target is reported. -/
theorem jump_accepted_iff (s : State) (site : Site) (done : Array Slot) (v : Value)
    (rest : List Slot) {stop : Int}
    (hstop : stop = site.address.toInt + (done.size + rest.length + 1 : Nat))
    (h₀ : 0 ≤ stop) (h₁ : stop ≤ 2 ^ 32) (hd : (s.operand site v).1 = .ok d)
    (hn : d.number? = some target) :
    ∃ slot after,
      s.patchSlots site done (.relative v :: rest) = after.patchSlots site (done.push slot) rest ∧
      ((∃ b, slot = .byte b) ↔ stop - 128 ≤ target.toInt ∧ target.toInt ≤ stop + 127) ∧
      (∀ b, slot = .byte b →
        b.toInt8.toInt + stop = target.toInt ∧ after = (s.operand site v).2) ∧
      ((¬ ∃ b, slot = .byte b) → slot = .relative v ∧ ∃ p : Problem, p.category = .encoding ∧
        after = (s.operand site v).2.report p site.loc) := by
  rw [patchSlots_relative]
  have hjump := patchRelative_jump hstop h₀ h₁ hd hn
  generalize s.patchRelative site (done.size + rest.length + 1) v = r at hjump
  obtain ⟨slot, after⟩ := r
  refine ⟨slot, after, rfl, ?_⟩
  cases hjump with
  | accepted hlow hhigh hb =>
    refine ⟨⟨fun _ => ⟨hlow, hhigh⟩, fun _ => ⟨_, rfl⟩⟩, ?_, fun hno => (hno ⟨_, rfl⟩).elim⟩
    intro b' heq
    cases heq
    exact ⟨hb, rfl⟩
  | refused hfar hp =>
    have hno : ¬ ∃ b, Slot.relative v = .byte b := fun ⟨_, heq⟩ => nomatch heq
    refine ⟨⟨fun hb => (hno hb).elim, fun hin => (hfar hin).elim⟩, ?_, fun _ => ⟨rfl, _, hp, rfl⟩⟩
    intro b heq
    cases heq

set_option maxRecDepth 10000 in
/-- The farthest jump back of an instruction at the beginning. -/
theorem jump_accepted_farthest :
    let s : State := { memo := ⟨.empty, []⟩ }
    let site : Site := ⟨⟨"f", 1⟩, 0, true⟩
    let v := Value.deferred "$-126" ["$"]
    (s.operand site v).1 = .ok (.number (-126)) ∧
      ∃ (slot : Slot) (after : State), s.patchSlots site #[.byte 0x10] [.relative v] =
          after.patchSlots site #[.byte 0x10, slot] [] ∧
        ∃ b, slot = .byte b ∧ b.toInt8.toInt + 2 = -126 := by
  intro s site v
  have hd : (s.operand site v).1 = .ok (.number (-126)) := by cbv
  have hstop : (2 : Int) = site.address.toInt +
      (#[Slot.byte 0x10].size + ([] : List Slot).length + 1 : Nat) := rfl
  obtain ⟨slot, after, hpatch, hiff, hbyte, -⟩ :=
    jump_accepted_iff s site #[.byte 0x10] v [] hstop (by decide) (by decide) hd rfl
  obtain ⟨b, hb⟩ := hiff.2 (by decide)
  exact ⟨hd, slot, after, hpatch, b, hb, (hbyte b hb).1⟩

end Patch.State
end Z80Asm
