import Z80Asm.Proofs.EarlyValues

/-! The check that addresses stay in the address space. Every element that moves the address checks
it, but for the end of a phase: the check is complete exactly if no phase ends at an output offset
outside the address space. -/

namespace Z80Asm.Layout
set_option autoImplicit true

/-- An address of the address space, or the one behind it. -/
def InRange (n : Int64) : Prop := 0 ≤ n ∧ n ≤ addressLimit

instance (n : Int64) : Decidable (InRange n) := inferInstanceAs (Decidable (_ ∧ _))

def RangeReported (ds : List Diagnostic) : Prop := ∃ d ∈ ds, ∃ n, d.problem = .addressRange n

theorem RangeReported.adds (h : RangeReported ds) (ha : Adds ds ds') : RangeReported ds' := by
  obtain ⟨d, hd, hn⟩ := h
  obtain ⟨new, rfl, -⟩ := ha
  exact ⟨d, List.mem_append_left new hd, hn⟩

namespace State

/-- The address is in range unless one that is not has been reported, which the flag remembers. -/
structure Guarded (s : State) : Prop where
  flag : s.overflowed = true → RangeReported s.diagnostics
  address : InRange s.address ∨ RangeReported s.diagnostics

theorem Guarded.still {s s' : State} (h : Guarded s) (hf : s'.overflowed = s.overflowed)
    (ha : s'.address = s.address) (hd : Adds s.diagnostics s'.diagnostics) : Guarded s' := by
  constructor
  · intro hs
    exact (h.flag (hf ▸ hs)).adds hd
  · rw [ha]
    rcases h.address with hr | hr
    · exact .inl hr
    · exact .inr (hr.adds hd)

theorem guarded_checkRange {s : State} (h : s.overflowed = true → RangeReported s.diagnostics)
    (loc : Location) : Guarded (s.checkRange loc) := by
  by_cases hout : (!s.overflowed && (s.address < 0 || s.address > addressLimit)) = true
  · have hcheck : s.checkRange loc =
        { s with overflowed := true }.report (.addressRange s.address) loc := if_pos hout
    have hnew : RangeReported (s.checkRange loc).diagnostics := by
      rw [hcheck]
      exact ⟨_, List.mem_append_right _ (List.mem_singleton_self _), _, rfl⟩
    exact ⟨fun _ => hnew, .inr hnew⟩
  · have hcheck : s.checkRange loc = s := if_neg hout
    rw [hcheck]
    refine ⟨h, ?_⟩
    cases hf : s.overflowed with
    | true => exact .inr (h hf)
    | false =>
      left
      rw [hf] at hout
      simp only [Bool.not_false, Bool.true_and, Bool.or_eq_true, decide_eq_true_eq, not_or,
        gt_iff_lt, Int64.not_lt] at hout
      exact hout

theorem Guarded.check {s : State} (h : Guarded s) (table : SymbolTable) (address out : Int64)
    (loc : Location) : Guarded ({ s with table, address, out }.checkRange loc) := by
  apply guarded_checkRange
  exact h.flag

theorem overflowed_directive (s : State) (name : String) (v : Value) (loc : Location) :
    (s.directive name v loc).2.overflowed = s.overflowed ∧
      (s.directive name v loc).2.address = s.address := by
  unfold directive
  generalize (Resolve.value v s.scopes.current s.address).run.run ⟨s.table, []⟩ = r
  obtain ⟨r, memo⟩ := r
  dsimp only
  split
  · exact ⟨rfl, rfl⟩
  · exact ⟨rfl, rfl⟩

theorem Guarded.directive {s : State} (h : Guarded s) (name : String) (v : Value)
    (loc : Location) : Guarded (s.directive name v loc).2 := by
  obtain ⟨hf, ha⟩ := s.overflowed_directive name v loc
  exact h.still hf ha (s.directive_reports name v loc)

theorem Guarded.move {s : State} (h : Guarded s) (stmt : Statement) (n : Int64)
    (loc : Location) : Guarded (s.move stmt n loc) := by
  cases stmt with
  | org => exact h.check s.table n n loc
  | phase => exact h.check s.table n s.out loc
  | align v =>
    by_cases hn : n ≤ 0
    · have hreport : s.move (.align v) n loc = s.report (.alignRange n) loc := if_pos hn
      rw [hreport]
      exact h.still rfl rfl (.report _ rfl _)
    · have hpad : s.move (.align v) n loc =
          { s with
            address := s.address + (n - s.address % n) % n
            out := s.out + (n - s.address % n) % n }.checkRange loc := if_neg hn
      rw [hpad]
      exact h.check s.table _ _ loc
  | _ => exact h

theorem bind_still (s : State) (v : Value) (loc : Location) :
    (s.bind v loc).overflowed = s.overflowed ∧ (s.bind v loc).address = s.address := by
  unfold bind
  split
  · exact ⟨rfl, rfl⟩
  · exact ⟨rfl, rfl⟩

/-- What every element keeps, a phase that ends outside the address space apart. -/
theorem Guarded.step {s : State} (h : Guarded s) (e : Element)
    (hend : e.stmt = .endPhase → InRange s.out) : Guarded (s.step e).2 := by
  cases hdir : directive? e.stmt with
  | some p =>
    have hd := h.directive p.1 p.2 e.loc
    rw [step_of_not_label s (evaluates_of_directive hdir).1]
    rcases s.placeOther_directive hdir with hr | ⟨n, hr⟩
    · rw [hr]
      exact hd.still rfl rfl (.refl _)
    · rw [hr]
      exact (hd.move e.stmt n e.loc).still rfl rfl (.refl _)
  | none =>
    obtain ⟨loc, stmt⟩ := e
    cases stmt with
    | org => cases hdir
    | phase => cases hdir
    | align => cases hdir
    | label l => exact h.still rfl rfl (.refl _)
    | equ v =>
      obtain ⟨hf, ha⟩ := bind_still { s with scopes := s.scopes.after (.equ v) } v loc
      exact h.still hf ha (bind_reports { s with scopes := s.scopes.after (.equ v) } v loc)
    | bytes t =>
      have hscopes : Guarded { s with scopes := s.scopes.after (.bytes t) } :=
        h.still rfl rfl (.refl _)
      exact (hscopes.check _ _ _ loc).still rfl rfl (.refl _)
    | endPhase => exact ⟨h.flag, .inl (hend rfl)⟩
    | _ => exact h.still rfl rfl (.refl _)

theorem through_concat (t : SymbolTable) (es : List Element) (e : Element) :
    through t (es ++ [e]) = ((through t es).step e).2 := by
  rw [through_append]
  rfl

theorem guarded_through (t : SymbolTable) (es : List Element)
    (hend : ∀ (pre : List Element) (e : Element) (post : List Element),
      es = pre ++ e :: post → e.stmt = .endPhase → InRange (through t pre).out) :
    Guarded (through t es) := by
  induction es using List.reverseRecOn with
  | nil =>
    have hzero : InRange 0 := by decide
    exact ⟨nofun, .inl hzero⟩
  | append_singleton es e ih =>
    have hes : Guarded (through t es) := by
      apply ih
      intro pre a post hpos
      exact hend pre a (post ++ [e]) (by rw [hpos, List.append_assoc]; rfl)
    rw [through_concat]
    exact hes.step e (hend es e [] rfl)

theorem out_of_endPhase (s : State) (h : e.stmt = .endPhase) : (s.step e).2.address = s.out := by
  obtain ⟨loc, stmt⟩ := e
  cases h
  rfl

theorem stored_by_label {s : State} {e : Element} {l : Label} (h : e.stmt = .label l)
    (hv : (s.step e).2.table.get? q = some v) (hne : s.table.get? q ≠ some v) :
    v = .number s.address := by
  obtain ⟨loc, stmt⟩ := e
  cases h
  have htable : (s.step ⟨loc, .label l⟩).2.table = s.table ∨
      ∃ symbol, (s.step ⟨loc, .label l⟩).2.table = s.table.set symbol (.number s.address) := by
    change (s.placeLabel l).2.table = _ ∨ ∃ symbol, (s.placeLabel l).2.table = _
    unfold placeLabel
    dsimp only
    split
    · exact .inr ⟨_, rfl⟩
    · exact .inr ⟨_, rfl⟩
    · exact .inl rfl
  rcases htable with ht | ⟨symbol, ht⟩
  · rw [ht] at hv
    exact (hne hv).elim
  · rw [ht, SymbolTable.get?_set] at hv
    split at hv
    · exact (Option.some.inj hv).symm
    · exact (hne hv).elim

end State

/-- All that layout makes of addresses stays in the address space: the address behind every element,
the addresses that labels get, and the room of every template. -/
structure AddressesInRange (es : List Element) (t : SymbolTable) : Prop where
  behind : ∀ pre post, Program.outside es = pre ++ post → InRange (State.through t pre).address
  labels : ∀ pre e post l q v, Program.outside es = pre ++ e :: post → e.stmt = .label l →
    ((State.through t pre).step e).2.table.get? q = some v →
    (State.through t pre).table.get? q ≠ some v → ∃ n, v = .number n ∧ InRange n
  templates : ∀ e ∈ Program.outside (assign es t).program, ∀ tm, e.stmt = .bytes tm →
    InRange tm.address ∧ InRange (tm.address + Int64.ofNat tm.slots.length) ∧
      (tm.slots.length < 2 ^ 63 → tm.address.toInt + tm.slots.length ≤ 0x10000)

theorem State.address_checkRange (s : State) (loc : Location) :
    (s.checkRange loc).address = s.address := by
  unfold checkRange
  split
  · rfl
  · rfl

theorem State.address_step_bytes {s : State} {e : Element} (h : (s.step e).1 = .bytes tm) :
    tm.address = s.address ∧
      (s.step e).2.address = tm.address + Int64.ofNat tm.slots.length := by
  obtain ⟨t, ht, rfl⟩ := bytes_of_step h
  obtain ⟨loc, stmt⟩ := e
  cases ht
  refine ⟨rfl, ?_⟩
  rw [step_bytes]
  exact address_checkRange _ loc

/-- Addresses in range are not so by wrapping around. -/
theorem toInt_add_le {n : Int64} {size : Nat} (h : InRange n)
    (hs : InRange (n + Int64.ofNat size)) (hsize : size < 2 ^ 63) :
    n.toInt + size ≤ 0x10000 := by
  obtain ⟨hlow, hhigh⟩ := h
  obtain ⟨hlow', hhigh'⟩ := hs
  rw [Int64.le_iff_toInt_le] at hlow hhigh hlow' hhigh'
  have hofNat : (Int64.ofNat size).toInt = size := Int64.toInt_ofNat_of_lt hsize
  rw [Int64.toInt_add, hofNat] at hlow' hhigh'
  have hzero : (0 : Int64).toInt = 0 := rfl
  have hlimit : addressLimit.toInt = 0x10000 := rfl
  rw [hzero] at hlow hlow'
  rw [hlimit] at hhigh hhigh'
  have hbmod := Int.bmod_def (n.toInt + size) (2 ^ 64)
  omega

/-- If no address outside the address space is reported, then all addresses are in it, exactly if
every phase ends at an output offset in it. -/
theorem addressesInRange_iff (es : List Element) (t : SymbolTable)
    (hq : ∀ d ∈ (assign es t).diagnostics, ∀ n, d.problem ≠ .addressRange n) :
    AddressesInRange es t ↔
      ∀ pre e post, Program.outside es = pre ++ e :: post → e.stmt = .endPhase →
        InRange (State.through t pre).out := by
  constructor
  · intro h pre e post hpos hend
    rw [List.append_cons] at hpos
    have hbehind := h.behind (pre ++ [e]) post hpos
    rw [State.through_concat, State.out_of_endPhase _ hend] at hbehind
    exact hbehind
  · intro hend
    have hbehind : ∀ pre post, Program.outside es = pre ++ post →
        InRange (State.through t pre).address := by
      intro pre post hpos
      have hguarded : (State.through t pre).Guarded := by
        apply State.guarded_through
        intro pre' e post' hpre
        exact hend pre' e (post' ++ post) (by rw [hpos, hpre, List.append_assoc]; rfl)
      rcases hguarded.address with hr | hr
      · exact hr
      · have hadds := State.thread_reports (State.through t pre) post
        rw [← State.through_append, ← hpos, ← assign_diagnostics] at hadds
        obtain ⟨d, hd, n, hn⟩ := hr.adds hadds
        exact (hq d hd n hn).elim
    refine ⟨hbehind, ?_, ?_⟩
    · intro pre e post l q v hpos hl hv hne
      exact ⟨_, State.stored_by_label hl hv hne, hbehind pre _ hpos⟩
    · intro e he tm htm
      rw [outside_assign] at he
      obtain ⟨pre, a, post, hpos, rfl⟩ := Program.mem_thread_split he
      change ((State.through t pre).step a).1 = .bytes tm at htm
      obtain ⟨haddress, hstop⟩ := State.address_step_bytes htm
      have hstart := hbehind pre _ hpos
      have hbehind' := hbehind (pre ++ [a]) post (by rw [hpos, List.append_assoc]; rfl)
      rw [State.through_concat, hstop] at hbehind'
      rw [haddress] at hbehind' ⊢
      exact ⟨hstart, hbehind', toInt_add_le hstart hbehind'⟩

/-- Two bytes at an offset `n` that run at address 0, and a label behind them. -/
def phasedPair (n : Int64) : List Element :=
  [⟨⟨"f", 1⟩, .org (.number n)⟩, ⟨⟨"f", 2⟩, .phase (.number 0)⟩,
    ⟨⟨"f", 3⟩, .bytes ⟨[.byte 1, .byte 2], 0, 0, false⟩⟩, ⟨⟨"f", 4⟩, .endPhase⟩,
    ⟨⟨"f", 5⟩, .label { name := "end" }⟩]

theorem addressesInRange_phasedPair :
    (assign (phasedPair 256) .empty).diagnostics = [] ∧
      AddressesInRange (phasedPair 256) .empty := by
  have hq : (assign (phasedPair 256) .empty).diagnostics = [] := by cbv
  refine ⟨hq, (addressesInRange_iff (phasedPair 256) .empty ?_).2 ?_⟩
  · intro d hd
    rw [hq] at hd
    cases hd
  · intro pre e post hpos hend
    have hout : Program.outside (phasedPair 256) = phasedPair 256 := by cbv
    rw [hout] at hpos
    -- the phase ends behind three elements, and only there
    rcases pre with _ | ⟨_, _ | ⟨_, _ | ⟨_, _ | ⟨_, _ | ⟨_, pre⟩⟩⟩⟩⟩
    · cases hpos
      cases hend
    · cases hpos
      cases hend
    · cases hpos
      cases hend
    · cases hpos
      cbv
    · cases hpos
      cases hend
    · simp [phasedPair] at hpos

/-- At the end of the address space, the label gets an address outside it and nothing is
reported. -/
theorem phasedPair_outside :
    (assign (phasedPair 65535) .empty).diagnostics = [] ∧
      (assign (phasedPair 65535) .empty).table.get? "end" = some (.number 65537) ∧
      ¬ AddressesInRange (phasedPair 65535) .empty := by
  refine ⟨by cbv, by cbv, fun h => ?_⟩
  have hbehind := h.behind (phasedPair 65535) [] (by cbv)
  have haddress : (State.through .empty (phasedPair 65535)).address = 65537 := by cbv
  rw [haddress] at hbehind
  exact absurd hbehind (by decide)

end Z80Asm.Layout
