import Z80Asm.Proofs.BadOperands

/-! The code of an instruction tells what it is. No opcode begins another one, for any operands, so
that the bytes of a sequence of instructions are those of no other one from the same address. -/

namespace Z80Asm
set_option autoImplicit true

namespace Word

theorem toNat_lowByte (n : Int64) : ((lowByte n).toNat : Int) = n.toInt % 256 := by
  have hlow : ((lowByte n).toNat : Int) = (n.toUInt64.toNat : Int) % 256 := by
    rw [lowByte, UInt64.toNat_toUInt8]
    rfl
  have hint : n.toInt = (n.toUInt64.toNat : Int).bmod (2 ^ 64) := BitVec.toInt_eq_toNat_bmod _
  have hbmod := Int.bmod_def (n.toUInt64.toNat : Int) (2 ^ 64)
  rw [hlow, hint]
  omega

theorem toInt_shiftRight (n : Int64) : (n >>> 8).toInt = n.toInt / 256 := by
  have hbits : (n >>> 8).toBitVec = n.toBitVec.sshiftRight 8 := by
    rw [Int64.toBitVec_shiftRight]
    rfl
  rw [← Int64.toInt_toBitVec, hbits, BitVec.toInt_sshiftRight, Int64.toInt_toBitVec,
    Int.shiftRight_eq_div_pow]
  rfl

theorem emod_eq_of_lowByte (h : lowByte n = lowByte n') : n.toInt % 256 = n'.toInt % 256 := by
  rw [← toNat_lowByte, ← toNat_lowByte, h]

theorem emod_eq_of_bytes (hlow : lowByte n = lowByte n') (hhigh : highByte n = highByte n') :
    n.toInt % 0x10000 = n'.toInt % 0x10000 := by
  have hlow := emod_eq_of_lowByte hlow
  have hhigh : (n >>> 8).toInt % 256 = (n' >>> 8).toInt % 256 := emod_eq_of_lowByte hhigh
  rw [toInt_shiftRight, toInt_shiftRight] at hhigh
  omega

end Word

/-- No number occurs twice or is a bit of `seen`. -/
def distinctFrom (seen : Nat) : List Nat → Bool
  | [] => true
  | n :: ns => !seen.testBit n && distinctFrom (seen ||| 1 <<< n) ns

theorem nodup_of_distinctFrom (h : distinctFrom seen ns = true) :
    ns.Nodup ∧ ∀ n ∈ ns, seen.testBit n = false := by
  induction ns generalizing seen with
  | nil => exact ⟨List.nodup_nil, fun _ hn => nomatch hn⟩
  | cons n ns ih =>
    rw [distinctFrom, Bool.and_eq_true, Bool.not_eq_true'] at h
    obtain ⟨hnodup, hseen⟩ := ih h.2
    have hboth (m : Nat) (hm : m ∈ ns) : seen.testBit m = false ∧ (1 <<< n).testBit m = false := by
      have hbit := hseen m hm
      rwa [Nat.testBit_or, Bool.or_eq_false_iff] at hbit
    refine ⟨List.nodup_cons.2 ⟨fun hn => ?_, hnodup⟩, List.forall_mem_cons.2 ⟨h.1, ?_⟩⟩
    · have hbit := (hboth n hn).2
      rw [Nat.one_shiftLeft, Nat.testBit_two_pow_self] at hbit
      cases hbit
    · exact fun m hm => (hboth m hm).1

namespace Instruction

/-- The values that an argument can have if it goes into the opcode; for others, one that stands for
all of them. -/
def Argument.values : Argument → List Int64
  | .bit => [0, 1, 2, 3, 4, 5, 6, 7]
  | .restart => [0, 8, 0x10, 0x18, 0x20, 0x28, 0x30, 0x38]
  | .mode => [0, 1, 2]
  | _ => [0]

def Argument.key (a : Argument) (n : Int64) : Int64 :=
  match a with
  | .bit | .restart | .mode => n
  | _ => 0

def Entry.opcode (e : Entry) (n : Int64) : List UInt8 :=
  match e.argument with
  | .bit => Source.setBits e.code (Word.lowByte (n &&& 7) <<< 3)
  | .restart => Source.setBits e.code (Word.lowByte (n &&& 0x38))
  | .mode => e.code ++ [modeByte n.toInt.toNat]
  | _ => e.code

theorem Entry.opcode_key (e : Entry) (n : Int64) : e.opcode (e.argument.key n) = e.opcode n := by
  unfold opcode Argument.key
  cases e.argument <;> rfl

/-- All instructions, with all values that make a difference to their opcodes. -/
def variants : List (Entry × Int64) := table.flatMap fun e => e.argument.values.map (e, ·)

def Entry.Admits (e : Entry) (n : Int64) : Prop := e ∈ table ∧ e.argument.key n ∈ e.argument.values

theorem Entry.Admits.mem (h : Entry.Admits e n) : (e, e.argument.key n) ∈ variants :=
  List.mem_flatMap.2 ⟨e, h.1, List.mem_map_of_mem h.2⟩

def opcodeLength (b : UInt8) : Nat := if b = 0xCB || b = 0xED then 2 else 1

def number (code : List UInt8) : Nat := code.foldl (fun n b => 256 * n + b.toNat) 0

theorem opcode_inj (hp : p ∈ variants) (hq : q ∈ variants)
    (h : p.1.opcode p.2 = q.1.opcode q.2) : p = q := by
  have hall : distinctFrom 0 (variants.map fun p => number (p.1.opcode p.2)) = true := by
    decide +kernel
  exact List.inj_on_of_nodup_map (nodup_of_distinctFrom hall).1 hp hq (congrArg number h)

/-- The first byte of an opcode tells its length. -/
theorem length_opcode (h : p ∈ variants) :
    ∃ b rest, p.1.opcode p.2 = b :: rest ∧ (p.1.opcode p.2).length = opcodeLength b := by
  have hall : variants.all (fun p => match p.1.opcode p.2 with
      | [] => false
      | b :: rest => (b :: rest).length == opcodeLength b) = true := by decide +kernel
  have hp := List.all_eq_true.1 hall p h
  cases hcode : p.1.opcode p.2 with
  | nil =>
    rw [hcode] at hp
    cases hp
  | cons b rest =>
    rw [hcode] at hp
    exact ⟨b, rest, rfl, beq_iff_eq.1 hp⟩

/-- The bytes of an argument of value `n` behind its opcode. They end at the address `stop`. -/
def Argument.Follows (a : Argument) (stop n : Int64) (tail : List UInt8) : Prop :=
  match a with
  | .byte => tail = [Word.lowByte n]
  | .word => tail = [Word.lowByte n, Word.highByte n]
  | .relative => ∃ b, tail = [b] ∧ b.toInt8.toInt64 + stop = n
  | _ => tail = []

/-- The values of an argument are the same up to its encoding. -/
def Argument.Same (a : Argument) (n n' : Int64) : Prop :=
  match a with
  | .none => True
  | .byte => n.toInt % 256 = n'.toInt % 256
  | .word => n.toInt % 0x10000 = n'.toInt % 0x10000
  | _ => n = n'

theorem Argument.Follows.length_eq {a : Argument} (h : a.Follows stop n tail)
    (h' : a.Follows stop' n' tail') : tail.length = tail'.length := by
  cases a with
  | relative =>
    obtain ⟨b, rfl, -⟩ := h
    obtain ⟨b', rfl, -⟩ := h'
    rfl
  | _ =>
    obtain rfl : tail = _ := h
    obtain rfl : tail' = _ := h'
    rfl

theorem Argument.Follows.same {a : Argument} (hkey : a.key n = a.key n')
    (h : a.Follows stop n tail) (h' : a.Follows stop n' tail) : a.Same n n' := by
  cases a with
  | none => trivial
  | byte =>
    have hbytes : [Word.lowByte n] = [Word.lowByte n'] := h.symm.trans h'
    exact Word.emod_eq_of_lowByte (List.cons.inj hbytes).1
  | word =>
    have hbytes : [Word.lowByte n, Word.highByte n] = [Word.lowByte n', Word.highByte n'] :=
      h.symm.trans h'
    obtain ⟨hlow, hrest⟩ := List.cons.inj hbytes
    exact Word.emod_eq_of_bytes hlow (List.cons.inj hrest).1
  | relative =>
    obtain ⟨b, rfl, hb⟩ := h
    obtain ⟨b', heq, hb'⟩ := h'
    cases heq
    exact hb.symm.trans hb'
  | bit => exact hkey
  | restart => exact hkey
  | mode => exact hkey

/-- The same instructions, up to the encoding of their arguments. -/
def Alike (p p' : Entry × Int64) : Prop := p.1 = p'.1 ∧ p.1.argument.Same p.2 p'.2

/-- The bytes of an instruction at an address: its opcode, and what follows of its argument. -/
structure Coded (address : Int64) (p : Entry × Int64) (bs : List UInt8) : Prop where
  admits : p.1.Admits p.2
  parts : ∃ tail, bs = p.1.opcode p.2 ++ tail ∧
    p.1.argument.Follows (address + Int64.ofNat bs.length) p.2 tail

theorem Coded.ne_nil (h : Coded address p bs) : bs ≠ [] := by
  obtain ⟨tail, rfl, -⟩ := h.parts
  obtain ⟨b, rest, hcode, -⟩ := length_opcode h.admits.mem
  rw [Entry.opcode_key] at hcode
  rw [hcode]
  exact List.cons_ne_nil _ _

theorem Argument.Follows.length_le {a : Argument} (h : a.Follows stop n tail) :
    tail.length ≤ 2 := by
  cases a with
  | relative =>
    obtain ⟨b, rfl, -⟩ := h
    exact Nat.le_succ 1
  | word =>
    obtain rfl : tail = _ := h
    exact Nat.le_refl 2
  | byte =>
    obtain rfl : tail = _ := h
    exact Nat.le_succ 1
  | _ =>
    obtain rfl : tail = _ := h
    exact Nat.zero_le 2

theorem Coded.length_le (h : Coded address p bs) : bs.length ≤ 4 := by
  obtain ⟨tail, hbs, hfollows⟩ := h.parts
  obtain ⟨b, code, -, hlength⟩ := length_opcode h.admits.mem
  rw [Entry.opcode_key] at hlength
  have hcode : opcodeLength b ≤ 2 := by
    unfold opcodeLength
    split
    · exact Nat.le_refl 2
    · exact Nat.le_succ 1
  have htail := hfollows.length_le
  rw [hbs, List.length_append, hlength]
  omega

/-- What an instruction is can be read off its bytes, whatever stands behind them. -/
theorem Coded.unique (h : Coded address p bs) (h' : Coded address p' bs')
    (heq : bs ++ rest = bs' ++ rest') :
    Alike p p' ∧ bs = bs' ∧ rest = rest' := by
  obtain ⟨e, n⟩ := p
  obtain ⟨e', n'⟩ := p'
  obtain ⟨tail, hbytes, hfollows⟩ := h.parts
  obtain ⟨tail', hbytes', hfollows'⟩ := h'.parts
  obtain ⟨b, code, hcode, hlength⟩ := length_opcode h.admits.mem
  obtain ⟨b', code', hcode', hlength'⟩ := length_opcode h'.admits.mem
  dsimp only at *
  rw [Entry.opcode_key] at hcode hcode' hlength hlength'
  have hall : e.opcode n ++ (tail ++ rest) = e'.opcode n' ++ (tail' ++ rest') := by
    rw [← List.append_assoc, ← hbytes, heq, hbytes', List.append_assoc]
  -- the first byte tells how long the opcode is
  have hfirst : b = b' := by
    rw [hcode, hcode'] at hall
    exact (List.cons.inj hall).1
  obtain ⟨hopcode, htails⟩ := List.append_inj hall (hlength.trans (hfirst ▸ hlength'.symm))
  have hvariant : (e, e.argument.key n) = (e', e'.argument.key n') := by
    apply opcode_inj h.admits.mem h'.admits.mem
    dsimp only
    rw [Entry.opcode_key, Entry.opcode_key, hopcode]
  obtain ⟨rfl, hkey⟩ := Prod.mk.inj hvariant
  obtain ⟨htail, hrest⟩ := List.append_inj htails (hfollows.length_eq hfollows')
  have hsame : bs = bs' := by rw [hbytes, hbytes', hopcode, htail]
  rw [← hsame, ← htail] at hfollows'
  exact ⟨⟨rfl, hfollows.same hkey hfollows'⟩, hsame, hrest⟩

inductive Code : Int64 → List (Entry × Int64) → List UInt8 → Prop where
  | nil : Code address [] []
  | cons : Coded address p bs → Code (address + Int64.ofNat bs.length) ps rest →
      Code address (p :: ps) (bs ++ rest)

theorem Code.unique (h : Code address ps bs) (h' : Code address ps' bs) :
    List.Forall₂ Alike ps ps' := by
  induction h generalizing ps' with
  | nil =>
    generalize hnil : ([] : List UInt8) = bs at h'
    cases h' with
    | nil => exact .nil
    | cons hp _ => exact absurd (List.append_eq_nil_iff.1 hnil.symm).1 hp.ne_nil
  | @cons _ _ bs _ rest hp _ ih =>
    generalize hbytes : bs ++ rest = all at h'
    cases h' with
    | nil => exact absurd (List.append_eq_nil_iff.1 hbytes).1 hp.ne_nil
    | cons hp' hps' =>
      obtain ⟨halike, rfl, rfl⟩ := hp.unique hp' hbytes
      exact .cons halike (ih hps')

end Instruction
end Z80Asm
