import Z80Asm.Proofs.AddressRange
import Z80Asm.Proofs.Extents

/-! How the elements of a program move the address and the output offset. The two move together,
except that an origin sets both, a phase only the address, and the end of a phase takes the address
back to the output offset. -/

namespace Z80Asm
set_option autoImplicit true

def Element.size (e : Element) : Nat :=
  match e.stmt with
  | .bytes t => t.slots.length
  | _ => 0

namespace Layout

theorem InRange.nonneg {n : Int64} (h : InRange n) : 0 ≤ n.toInt := Int64.le_iff_toInt_le.1 h.1

namespace State

/-- How far an alignment moves the address. -/
def padding (s : State) (e : Element) : Int64 :=
  match e.stmt with
  | .align v =>
    match (s.directive "ALIGN" v e.loc).1 with
    | some n => (n - s.address % n) % n
    | none => 0
  | _ => 0

def place (s : State) (e : Element) : Element := { e with stmt := (s.step e).1 }

/-- What an element that reports nothing makes of the address and of the output offset. -/
def Moves (s : State) (e : Element) (s' : State) : Prop :=
  match e.stmt with
  | .org _ => InRange s'.address ∧ s'.out = s'.address
  | .phase _ => InRange s'.address ∧ s'.out = s.out
  | .endPhase => s'.address = s.out ∧ s'.out = s.out
  | .align _ => (∃ n > 0, s.padding e = (n - s.address % n) % n) ∧ InRange s'.address ∧
      s'.address = s.address + s.padding e ∧ s'.out = s.out + s.padding e
  | .bytes _ => InRange s'.address ∧ s'.address = s.address + Int64.ofNat (s.place e).size ∧
      s'.out = s.out + Int64.ofNat (s.place e).size
  | _ => s'.address = s.address ∧ s'.out = s.out

theorem checkRange_of_quiet (s : State) (loc : Location) (ho : s.overflowed = false)
    (hq : (s.checkRange loc).diagnostics = []) :
    (s.checkRange loc).overflowed = false ∧ InRange (s.checkRange loc).address ∧
      (s.checkRange loc).address = s.address ∧ (s.checkRange loc).out = s.out := by
  by_cases hout : s.address < 0 ∨ s.address > addressLimit
  · have hreport : s.checkRange loc =
        { s with overflowed := true }.report (.addressRange s.address) loc := by
      apply if_pos
      simpa only [ho, Bool.not_false, Bool.true_and, Bool.or_eq_true, decide_eq_true_eq] using hout
    rw [hreport] at hq
    exact (List.cons_ne_nil _ _ (List.append_eq_nil_iff.1 hq).2).elim
  · have hsame : s.checkRange loc = s := by
      apply if_neg
      simpa only [ho, Bool.not_false, Bool.true_and, Bool.or_eq_true, decide_eq_true_eq] using hout
    rw [not_or, Int64.not_lt, gt_iff_lt, Int64.not_lt] at hout
    rw [hsame]
    exact ⟨ho, hout, rfl, rfl⟩

theorem step_of_directive {s : State} (h : directive? e.stmt = some (name, v))
    (hq : (s.step e).2.diagnostics = []) :
    ∃ n table, (s.directive name v e.loc).1 = some n ∧
      (s.step e).2 = { { s with table }.move e.stmt n e.loc with pending := [] } := by
  obtain ⟨-, n, -, -, hn⟩ := s.directive_of_quiet h hq
  have hs : ∃ table, (s.directive name v e.loc).2 = { s with table } := by
    revert hn
    unfold directive
    generalize (Resolve.value v s.scopes.current s.address).run.run ⟨s.table, []⟩ = r
    obtain ⟨r, memo⟩ := r
    dsimp only
    split
    · exact fun _ => ⟨memo.table, rfl⟩
    · exact nofun
  obtain ⟨table, htable⟩ := hs
  refine ⟨n, table, hn, ?_⟩
  rw [step_of_not_label s (evaluates_of_directive h).1, s.placeOther_of_directive h, hn, htable]
  rfl

theorem padding_of_not_align {e : Element} (s : State) (h : ∀ v, e.stmt ≠ .align v) :
    s.padding e = 0 := by
  unfold padding
  split
  · rename_i v hv
    exact (h v hv).elim
  · rfl

theorem step_template (s : State) (loc : Location) (t : Template) :
    ∃ table, (s.step ⟨loc, .bytes t⟩).2 =
      { { s with
          table
          address := s.address + Int64.ofNat (s.place ⟨loc, .bytes t⟩).size
          out := s.out + Int64.ofNat (s.place ⟨loc, .bytes t⟩).size }.checkRange loc with
        pending := [] } :=
  ⟨_, rfl⟩

theorem out_bind (s : State) (v : Value) (loc : Location) : (s.bind v loc).out = s.out := by
  unfold bind
  split
  · rfl
  · rfl

theorem align_moves {s : State} {loc : Location} {v : Value} (ho : s.overflowed = false)
    (hq : (s.step ⟨loc, .align v⟩).2.diagnostics = []) :
    (s.step ⟨loc, .align v⟩).2.overflowed = false ∧
      s.Moves ⟨loc, .align v⟩ (s.step ⟨loc, .align v⟩).2 := by
  obtain ⟨n, table, hn, hs⟩ := step_of_directive rfl hq
  have hpadding : s.padding ⟨loc, .align v⟩ = (n - s.address % n) % n := by
    simp only [padding, hn]
  by_cases hpos : n ≤ 0
  · have hmove : { s with table }.move (.align v) n loc =
        { s with table }.report (.alignRange n) loc := if_pos hpos
    rw [hs, hmove] at hq
    exact (List.cons_ne_nil _ _ (List.append_eq_nil_iff.1 hq).2).elim
  · have hmove : { s with table }.move (.align v) n loc =
        { s with
          table
          address := s.address + (n - s.address % n) % n
          out := s.out + (n - s.address % n) % n }.checkRange loc := if_neg hpos
    rw [hs, hmove] at hq ⊢
    rw [← hpadding] at hq ⊢
    obtain ⟨hf, hrange, haddress, hout⟩ := checkRange_of_quiet
      { s with
        table
        address := s.address + s.padding ⟨loc, .align v⟩
        out := s.out + s.padding ⟨loc, .align v⟩ } loc ho hq
    exact ⟨hf, ⟨n, Int64.not_le.1 hpos, hpadding⟩, hrange, haddress, hout⟩

/-- An element that reports nothing has moved the address to one in range, and moved it as its kind
says. -/
theorem step_moves {s : State} (ho : s.overflowed = false)
    (hq : (s.step e).2.diagnostics = []) :
    (s.step e).2.overflowed = false ∧ s.Moves e (s.step e).2 := by
  obtain ⟨loc, stmt⟩ := e
  cases stmt with
  | org v =>
    obtain ⟨n, table, -, hs⟩ := step_of_directive rfl hq
    rw [hs] at hq ⊢
    obtain ⟨hf, hrange, haddress, hout⟩ :=
      checkRange_of_quiet { s with table, address := n, out := n } loc ho hq
    exact ⟨hf, hrange, hout.trans haddress.symm⟩
  | phase v =>
    obtain ⟨n, table, -, hs⟩ := step_of_directive rfl hq
    rw [hs] at hq ⊢
    obtain ⟨hf, hrange, -, hout⟩ := checkRange_of_quiet { s with table, address := n } loc ho hq
    exact ⟨hf, hrange, hout⟩
  | align v => exact align_moves ho hq
  | endPhase => exact ⟨ho, rfl, rfl⟩
  | bytes t =>
    obtain ⟨table, hs⟩ := s.step_template loc t
    rw [hs] at hq ⊢
    obtain ⟨hf, hrange, haddress, hout⟩ := checkRange_of_quiet
      { s with
        table
        address := s.address + Int64.ofNat (s.place ⟨loc, .bytes t⟩).size
        out := s.out + Int64.ofNat (s.place ⟨loc, .bytes t⟩).size } loc ho hq
    exact ⟨hf, hrange, haddress, hout⟩
  | equ v =>
    obtain ⟨hf, haddress⟩ := s.bind_still v loc
    exact ⟨hf.trans ho, haddress, s.out_bind v loc⟩
  | _ => exact ⟨ho, rfl, rfl⟩

/-- What an element adds to the output: its bytes and its padding. -/
def advance (s : State) (e : Element) : Nat := (s.place e).size + (s.padding e).toInt.toNat

/-- No address outside the address space has been reported, and neither the address nor the output
offset is negative. -/
structure Steady (s : State) : Prop where
  overflowed : s.overflowed = false
  address : 0 ≤ s.address.toInt
  out : 0 ≤ s.out.toInt

theorem size_place (s : State) (h : ∀ t, e.stmt ≠ .bytes t) : (s.place e).size = 0 := by
  have hne : ∀ t, (s.step e).1 ≠ .bytes t := by
    intro t ht
    obtain ⟨t', ht', -⟩ := bytes_of_step ht
    exact h t' ht'
  unfold Element.size place
  split
  · rename_i t ht
    exact (hne t ht).elim
  · rfl

theorem place_eq (s : State) (hl : ∀ l, e.stmt ≠ .label l) (hb : ∀ t, e.stmt ≠ .bytes t) :
    s.place e = e := by
  have halike := s.step_alike e
  obtain ⟨loc, stmt⟩ := e
  unfold place
  generalize (s.step ⟨loc, stmt⟩).1 = stmt' at halike
  cases halike with
  | refl => rfl
  | label l => exact (hl l rfl).elim
  | bytes t => exact (hb t rfl).elim

theorem nonneg_padding {a n : Int64} (ha : 0 ≤ a.toInt) (hn : 0 < n) :
    0 ≤ ((n - a % n) % n).toInt := by
  rw [Int64.lt_iff_toInt_lt, Int64.toInt_zero] at hn
  have hlow := Int.tmod_nonneg n.toInt ha
  have hhigh := Int.tmod_lt_of_pos a.toInt hn
  have hmax := Int64.toInt_lt n
  have hsub : (n - a % n).toInt = n.toInt - a.toInt.tmod n.toInt := by
    rw [Int64.toInt_sub, Int64.toInt_mod]
    exact Int.bmod_eq_of_le (by omega) (by omega)
  rw [Int64.toInt_mod, hsub]
  exact Int.tmod_nonneg n.toInt (by omega)

theorem toInt_add_ofNat {n : Int64} {size : Nat} (hn : 0 ≤ n.toInt)
    (h : n.toInt + size < 2 ^ 63) : (n + Int64.ofNat size).toInt = n.toInt + size := by
  have hsize : (Int64.ofNat size).toInt = size := Int64.toInt_ofNat_of_lt (by omega)
  rw [Int64.toInt_add, hsize]
  exact Int.bmod_eq_of_le (by omega) (by omega)

theorem ofNat_toNat {n : Int64} (h : 0 ≤ n.toInt) : Int64.ofNat n.toInt.toNat = n := by
  have hmax := Int64.toInt_lt n
  rw [← Int64.toInt_inj, Int64.toInt_ofNat_of_lt (by omega)]
  exact Int.toNat_of_nonneg h

/-- Whatever is no origin adds to the output its bytes and its padding. -/
theorem Moves.out {s s' : State} (h : s.Moves e s') (ha : 0 ≤ s.address.toInt)
    (horg : ∀ v, e.stmt ≠ .org v) : s'.out = s.out + Int64.ofNat (s.advance e) := by
  have hstill (hbytes : ∀ t, e.stmt ≠ .bytes t) (halign : ∀ v, e.stmt ≠ .align v) :
      s.out + Int64.ofNat (s.advance e) = s.out := by
    rw [advance, s.size_place hbytes, s.padding_of_not_align halign]
    exact Int64.add_zero s.out
  obtain ⟨loc, stmt⟩ := e
  cases stmt with
  | org v => exact (horg v rfl).elim
  | align v =>
    obtain ⟨⟨n, hn, hpadding⟩, -, -, hout⟩ := h
    have hnonneg : 0 ≤ (s.padding ⟨loc, .align v⟩).toInt := hpadding ▸ nonneg_padding ha hn
    have hbytes : ∀ t, Statement.align v ≠ .bytes t := nofun
    rw [hout, advance, s.size_place hbytes, Nat.zero_add, ofNat_toNat hnonneg]
  | bytes t =>
    have halign : ∀ v, Statement.bytes t ≠ .align v := nofun
    rw [h.2.2, advance, s.padding_of_not_align halign]
    rfl
  | _ => exact h.2.trans (hstill nofun nofun).symm

theorem Moves.address_nonneg {s s' : State} (h : s.Moves e s') (ha : 0 ≤ s.address.toInt)
    (ho : 0 ≤ s.out.toInt) : 0 ≤ s'.address.toInt := by
  obtain ⟨loc, stmt⟩ := e
  cases stmt with
  | org => exact h.1.nonneg
  | phase => exact h.1.nonneg
  | align => exact h.2.1.nonneg
  | bytes => exact h.1.nonneg
  | endPhase =>
    rw [h.1]
    exact ho
  | _ =>
    rw [h.1]
    exact ha

/-- An element that reports nothing adds to the output just what it says, unless it is an origin,
which sets the output offset to an address. -/
theorem Steady.step {s : State} (h : s.Steady) (hq : (s.step e).2.diagnostics = [])
    (hb : s.out.toInt + s.advance e < 2 ^ 63) :
    (s.step e).2.Steady ∧
      ((∃ v, e.stmt = .org v) ∧ (s.step e).2.out.toInt ≤ 0x10000 ∨
        (∀ v, e.stmt ≠ .org v) ∧ (s.step e).2.out.toInt = s.out.toInt + s.advance e) := by
  obtain ⟨hf, hmoves⟩ := step_moves h.overflowed hq
  have haddress := hmoves.address_nonneg h.address h.out
  by_cases horg : ∃ v, e.stmt = .org v
  · obtain ⟨v, hv⟩ := horg
    obtain ⟨hrange, hout⟩ :
        InRange (s.step e).2.address ∧ (s.step e).2.out = (s.step e).2.address := by
      simpa only [Moves, hv] using hmoves
    refine ⟨⟨hf, haddress, hout ▸ haddress⟩, .inl ⟨⟨v, hv⟩, ?_⟩⟩
    rw [hout]
    exact Int64.le_iff_toInt_le.1 hrange.2
  · have hnot : ∀ v, e.stmt ≠ .org v := fun v hv => horg ⟨v, hv⟩
    have hout : (s.step e).2.out.toInt = s.out.toInt + s.advance e := by
      rw [hmoves.out h.address hnot]
      exact toInt_add_ofNat h.out hb
    have hnonneg := h.out
    exact ⟨⟨hf, haddress, by omega⟩, .inr ⟨hnot, hout⟩⟩

end State

def Rejoins (e : Element) : Prop := (∃ v, e.stmt = .org v) ∨ e.stmt = .endPhase

section
variable {s s' : State}

theorem State.Moves.rejoin (h : s.Moves e s') (he : Rejoins e) : s'.address = s'.out := by
  obtain ⟨loc, stmt⟩ := e
  rcases he with ⟨v, hv⟩ | he
  · cases hv
    exact h.2.symm
  · cases he
    exact h.1.trans h.2.symm

theorem State.Moves.sub_eq (h : s.Moves e s') (hphase : ∀ v, e.stmt ≠ .phase v)
    (he : ¬ Rejoins e) : s'.address - s'.out = s.address - s.out := by
  have hboth (n : Int64) : s.address + n - (s.out + n) = s.address - s.out := by
    rw [Int64.sub_eq_iff_eq_add, ← Int64.add_assoc, Int64.sub_add_cancel]
  obtain ⟨loc, stmt⟩ := e
  cases stmt with
  | org v => exact (he (.inl ⟨v, rfl⟩)).elim
  | phase v => exact (hphase v rfl).elim
  | endPhase => exact (he (.inr rfl)).elim
  | align =>
    rw [h.2.2.1, h.2.2.2]
    exact hboth _
  | bytes =>
    rw [h.2.1, h.2.2]
    exact hboth _
  | _ => rw [h.1, h.2]

theorem State.Moves.together (h : s.Moves e s') (hphase : ∀ v, e.stmt ≠ .phase v)
    (hs : s.address = s.out) : s'.address = s'.out := by
  by_cases he : Rejoins e
  · exact h.rejoin he
  · have hsub := h.sub_eq hphase he
    rw [hs, Int64.sub_self] at hsub
    rw [Int64.sub_eq_iff_eq_add, Int64.zero_add] at hsub
    exact hsub

end

section
variable {es pre mid post : List Element} {t : SymbolTable}

theorem quiet_through (hq : (assign es t).diagnostics = [])
    (hpos : Program.outside es = pre ++ post) : (State.through t pre).diagnostics = [] := by
  rw [assign_diagnostics, hpos, State.through_append] at hq
  exact ((State.through t pre).thread_reports post).quiet hq

theorem overflowed_through (hq : (assign es t).diagnostics = [])
    (hpos : Program.outside es = pre ++ post) : (State.through t pre).overflowed = false := by
  induction pre using List.reverseRecOn generalizing post with
  | nil => rfl
  | append_singleton pre e ih =>
    have hquiet := quiet_through hq hpos
    rw [List.append_assoc] at hpos
    rw [State.through_concat] at hquiet ⊢
    exact (State.step_moves (ih hpos) hquiet).1

theorem moves_through (hq : (assign es t).diagnostics = [])
    (hpos : Program.outside es = pre ++ e :: post) :
    (State.through t pre).Moves e (State.through t (pre ++ [e])) := by
  have hquiet := quiet_through hq (List.append_cons pre e post ▸ hpos)
  rw [State.through_concat] at hquiet ⊢
  exact (State.step_moves (overflowed_through hq hpos) hquiet).2

/-- Where the two are the same they stay so up to the next phase. -/
theorem together_through (hq : (assign es t).diagnostics = [])
    (hpos : Program.outside es = pre ++ mid ++ post)
    (hs : (State.through t pre).address = (State.through t pre).out)
    (hmid : ∀ e ∈ mid, ∀ v, e.stmt ≠ .phase v) :
    (State.through t (pre ++ mid)).address = (State.through t (pre ++ mid)).out := by
  induction mid using List.reverseRecOn generalizing post with
  | nil =>
    rw [List.append_nil]
    exact hs
  | append_singleton mid e ih =>
    rw [← List.append_assoc, List.append_assoc] at hpos
    have hbefore := ih hpos fun a ha => hmid a (List.mem_append_left [e] ha)
    rw [← List.append_assoc]
    exact (moves_through hq hpos).together
      (hmid e (List.mem_append_right mid (List.mem_singleton_self e))) hbefore

/-- Between a phase and what ends it, address and output offset keep their distance. -/
theorem sub_through (hq : (assign es t).diagnostics = [])
    (hpos : Program.outside es = pre ++ mid ++ post)
    (hmid : ∀ e ∈ mid, ¬ Rejoins e ∧ ∀ v, e.stmt ≠ .phase v) :
    (State.through t (pre ++ mid)).address - (State.through t (pre ++ mid)).out =
      (State.through t pre).address - (State.through t pre).out := by
  induction mid using List.reverseRecOn generalizing post with
  | nil => rw [List.append_nil]
  | append_singleton mid e ih =>
    rw [← List.append_assoc, List.append_assoc] at hpos
    have hbefore := ih hpos fun a ha => hmid a (List.mem_append_left [e] ha)
    obtain ⟨he, hphase⟩ := hmid e (List.mem_append_right mid (List.mem_singleton_self e))
    rw [← List.append_assoc, ← hbefore]
    exact (moves_through hq hpos).sub_eq hphase he

theorem rejoined_through (hq : (assign es t).diagnostics = [])
    (hpos : Program.outside es = pre ++ post) (hlast : ∀ e ∈ pre.getLast?, Rejoins e) :
    (State.through t pre).address = (State.through t pre).out := by
  rcases List.eq_nil_or_concat pre with rfl | ⟨init, e, rfl⟩
  · rfl
  · rw [List.concat_eq_append] at *
    rw [List.append_assoc] at hpos
    apply (moves_through hq hpos).rejoin
    apply hlast
    rw [List.getLast?_concat]
    rfl

end

end Layout
end Z80Asm
