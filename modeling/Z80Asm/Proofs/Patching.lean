import Z80Asm.Patch
import Z80Asm.Proofs.Encoding

/-! Patching without problems encodes every template by the values that its operands have in the
table. -/

namespace Z80Asm
set_option autoImplicit true

theorem Datum.asNumber_eq_ok {d : Datum} : d.asNumber none = .ok n ↔ d.number? = some n := by
  cases d with
  | number k =>
    simp only [asNumber, number?, Except.ok.injEq, Option.some.injEq]
  | text s =>
    rw [asNumber]
    cases (Datum.text s).number? with
    | none =>
      constructor
      · intro h
        cases h
      · intro h
        cases h
    | some k => simp only [Except.ok.injEq, Option.some.injEq]

namespace Patch

/-- From `s` to `s'` only what is known of the table has changed, and problems were reported. -/
structure Advances (s s' : State) : Prop where
  memo : ∀ t, Memo.Sound t s.memo → Memo.Sound t s'.memo
  scopes : s'.scopes = s.scopes
  reports : Adds s.diagnostics.toList s'.diagnostics.toList

theorem Advances.refl (s : State) : Advances s s := ⟨fun _ h => h, rfl, .refl _⟩

theorem Advances.trans (h : Advances s s') (h' : Advances s' s'') : Advances s s'' :=
  ⟨fun t ht => h'.memo t (h.memo t ht), h'.scopes.trans h.scopes, h.reports.trans h'.reports⟩

theorem Advances.quiet (h : Advances s s') (hq : s'.diagnostics.toList = []) :
    s.diagnostics.toList = [] :=
  h.reports.quiet hq

namespace State

theorem diagnostics_report (s : State) (p : Problem) (loc : Location) :
    (s.report p loc).diagnostics.toList = s.diagnostics.toList ++ [⟨p, loc⟩] := by
  rw [report, Array.toList_push]

theorem report_advances (h : Advances s s') (hp : p.aboutCall = false) (loc : Location) :
    Advances s (s'.report p loc) := by
  refine h.trans ⟨fun _ h => h, rfl, ?_⟩
  rw [diagnostics_report]
  exact .report _ hp loc

theorem not_quiet_report {s : State} (h : (s.report p loc).diagnostics.toList = []) : False := by
  rw [diagnostics_report] at h
  exact List.cons_ne_nil _ _ (List.append_eq_nil_iff.1 h).2

theorem operand_advances (s : State) (site : Site) (v : Value) :
    Advances s (s.operand site v).2 :=
  ⟨fun _ h => (SymbolTable.operand_of_sound h v _ _).2, rfl, .refl _⟩

theorem operand_eq_ok {s : State} (hm : Memo.Sound t s.memo) (h : s.operand site v = (.ok d, s')) :
    t.operand v (s.scopes.scopeOf v) site.address = .ok d := by
  have hv := (SymbolTable.operand_of_sound hm v (s.scopes.scopeOf v) site.address).1
  have hr : (s.operand site v).1 =
      ((Resolve.value v (s.scopes.scopeOf v) site.address).run.run s.memo).1 := rfl
  rw [← hr, h] at hv
  exact Except.eq_ok_of_toOption hv.symm

theorem patchByte_advances (s : State) (site : Site) (v : Value) :
    Advances s (s.patchByte site v).2 := by
  have h := s.operand_advances site v
  unfold patchByte
  split
  · rename_i hr
    rw [hr] at h
    exact report_advances h rfl _
  · rename_i hr
    rw [hr] at h
    exact h
  · rename_i hr
    rw [hr] at h
    split
    · exact h
    · split
      · exact report_advances h rfl _
      · exact h

theorem patchWord_advances (s : State) (site : Site) (v : Value) :
    Advances s (s.patchWord site v).2 := by
  have h := s.operand_advances site v
  unfold patchWord
  split
  · rename_i hr
    rw [hr] at h
    exact report_advances h rfl _
  · rename_i hr
    rw [hr] at h
    split
    · exact h
    · exact report_advances h rfl _

theorem patchRelative_advances (s : State) (site : Site) (length : Nat) (v : Value) :
    Advances s (s.patchRelative site length v).2 := by
  have h := s.operand_advances site v
  unfold patchRelative
  dsimp only
  split
  · exact report_advances h rfl _
  · split
    · exact report_advances h rfl _
    · exact h

theorem patchSlots_advances (s : State) (site : Site) (done : Array Slot) (slots : List Slot) :
    Advances s (s.patchSlots site done slots).2 := by
  fun_induction patchSlots s site done slots with
  | case1 s done => exact .refl s
  | case2 s done v rest slots s' hr ih =>
    have h := s.patchWord_advances site v
    rw [hr] at h
    exact h.trans ih
  | case3 s done v rest hh slots s' hr ih =>
    have h := s.patchByte_advances site v
    rw [hr] at h
    exact h.trans ih
  | case4 s done v rest slot s' hr ih =>
    have h := s.patchRelative_advances site (done.size + rest.length + 1) v
    rw [hr] at h
    exact h.trans ih
  | case5 s done slot rest _ _ _ ih => exact ih

theorem patchByte_quiet {s : State} (hm : Memo.Sound t s.memo) (hplaced : site.placed = true)
    (hq : (s.patchByte site v).2.diagnostics.toList = []) :
    ∃ b, (s.patchByte site v).1 = [.byte b] ∧
      ((∃ n, t.operand v (s.scopes.scopeOf v) site.address = .ok (.number n) ∧
          b = Word.lowByte n) ∨
        ∃ w, t.operand v (s.scopes.scopeOf v) site.address = .ok (.text w) ∧
          Text.bytes w = [b]) := by
  unfold patchByte at hq ⊢
  cases hr : s.operand site v with
  | mk r s' =>
    simp only [hr] at hq ⊢
    cases r with
    | error e => exact (not_quiet_report hq).elim
    | ok d =>
      have hd := operand_eq_ok hm hr
      cases d with
      | number n => exact ⟨_, rfl, .inl ⟨n, hd, rfl⟩⟩
      | text w =>
        dsimp only at hq ⊢
        split at hq
        · rename_i b hb
          exact ⟨b, rfl, .inr ⟨w, hd, hb⟩⟩
        · rw [if_pos hplaced] at hq
          exact (not_quiet_report hq).elim

theorem patchWord_quiet {s : State} (hm : Memo.Sound t s.memo)
    (hq : (s.patchWord site v).2.diagnostics.toList = []) :
    ∃ d n, t.operand v (s.scopes.scopeOf v) site.address = .ok d ∧ d.number? = some n ∧
      (s.patchWord site v).1 = [.byte (Word.lowByte n), .byte (Word.highByte n)] := by
  unfold patchWord at hq ⊢
  cases hr : s.operand site v with
  | mk r s' =>
    simp only [hr] at hq ⊢
    cases r with
    | error e => exact (not_quiet_report hq).elim
    | ok d =>
      cases hn : d.asNumber none with
      | error e =>
        simp only [hn] at hq
        exact (not_quiet_report hq).elim
      | ok n =>
        simp only [hn]
        exact ⟨d, n, operand_eq_ok hm hr, Datum.asNumber_eq_ok.1 hn, rfl⟩

theorem patchRelative_quiet {s : State} (hm : Memo.Sound t s.memo)
    (hq : (s.patchRelative site length v).2.diagnostics.toList = []) :
    ∃ d target b, t.operand v (s.scopes.scopeOf v) site.address = .ok d ∧
      d.number? = some target ∧ (s.patchRelative site length v).1 = .byte b ∧
      b.toInt8.toInt64 + (site.address + Int64.ofNat length) = target := by
  unfold patchRelative at hq ⊢
  cases hr : s.operand site v with
  | mk r s' =>
    simp only [hr] at hq ⊢
    cases hn : r >>= Datum.asNumber none with
    | error e =>
      simp only [hn] at hq
      exact (not_quiet_report hq).elim
    | ok target =>
      obtain ⟨d, rfl, hd⟩ := Except.bind_eq_ok.1 hn
      simp only [hn] at hq ⊢
      split at hq
      · exact (not_quiet_report hq).elim
      · rename_i hrange
        refine ⟨d, target, _, operand_eq_ok hm hr, Datum.asNumber_eq_ok.1 hd, by rw [if_neg hrange],
          ?_⟩
        rw [Word.signExtend_lowByte hrange, Int64.sub_add_cancel]

theorem patchSlots_expr (s : State) (site : Site) (done : Array Slot) (v : Value)
    (h : rest.head?.any Slot.isHigh = false) :
    s.patchSlots site done (.expr v :: rest) =
      (s.patchByte site v).2.patchSlots site (done ++ (s.patchByte site v).1.toArray) rest := by
  cases rest with
  | nil => rfl
  | cons slot rest =>
    cases slot with
    | high => cases h
    | _ => rfl

theorem patchSlots_byte (s : State) (site : Site) (done : Array Slot) (b : UInt8)
    (rest : List Slot) :
    s.patchSlots site done (.byte b :: rest) = s.patchSlots site (done.push (.byte b)) rest := rfl

theorem patchSlots_word (s : State) (site : Site) (done : Array Slot) (v : Value)
    (rest : List Slot) :
    s.patchSlots site done (.expr v :: .high :: rest) =
      (s.patchWord site v).2.patchSlots site (done ++ (s.patchWord site v).1.toArray) rest := rfl

theorem patchSlots_relative (s : State) (site : Site) (done : Array Slot) (v : Value)
    (rest : List Slot) :
    s.patchSlots site done (.relative v :: rest) =
      (s.patchRelative site (done.size + rest.length + 1) v).2.patchSlots site
        (done.push (s.patchRelative site (done.size + rest.length + 1) v).1) rest := rfl

/-- The output continues what is done by an encoding of the slots, in a template of `size` bytes. -/
def Filled (t : SymbolTable) (scopes : ScopeStack) (site : Site) (size : Nat)
    (slots done out : List Slot) : Prop :=
  ∃ bs : List UInt8, out = done ++ bs.map .byte ∧ bs.length = slots.length ∧
    Encodes (fun v => t.operand v (scopes.scopeOf v) site.address)
      (site.address + Int64.ofNat size) slots bs

theorem Filled.prepend {scopes : ScopeStack} (cs : List UInt8)
    (h : Filled t scopes site size rest done' out)
    (hdone : done' = done ++ cs.map .byte) (hlength : slots.length = rest.length + cs.length)
    (henc : ∀ bs, Encodes (fun v => t.operand v (scopes.scopeOf v) site.address)
        (site.address + Int64.ofNat size) rest bs →
      Encodes (fun v => t.operand v (scopes.scopeOf v) site.address)
        (site.address + Int64.ofNat size) slots (cs ++ bs)) :
    Filled t scopes site size slots done out := by
  obtain ⟨bs, hs, hl, he⟩ := h
  refine ⟨cs ++ bs, ?_, ?_, henc bs he⟩
  · rw [hs, hdone, List.map_append, List.append_assoc]
  · rw [List.length_append, hl, hlength, Nat.add_comm]

/-- Without problems, patching encodes the slots of a placed template. -/
theorem patchSlots_quiet {s : State} (hp : Paired slots) (hm : Memo.Sound t s.memo)
    (hplaced : site.placed = true) (hsize : done.size + slots.length = size)
    (hq : (s.patchSlots site done slots).2.diagnostics.toList = []) :
    Filled t s.scopes site size slots done.toList (s.patchSlots site done slots).1 := by
  induction hp generalizing s done with
  | nil => exact ⟨[], (List.append_nil _).symm, rfl, .nil⟩
  | byte _ ih =>
    rename_i rest b _
    rw [patchSlots_byte] at hq ⊢
    refine (ih hm ?_ hq).prepend [b] Array.toList_push rfl fun bs he => he.byte
    rw [Array.size_push, ← hsize, List.length_cons]
    exact Nat.add_right_comm _ 1 _
  | expr hp ih =>
    rename_i rest v
    rw [patchSlots_expr s site done v hp.not_high] at hq ⊢
    have hadv := s.patchByte_advances site v
    obtain ⟨b, hb, hval⟩ := patchByte_quiet hm hplaced ((patchSlots_advances _ _ _ _).quiet hq)
    rw [hb] at hq ⊢
    rw [← hadv.scopes]
    refine (ih (hadv.memo t hm) ?_ hq).prepend [b] Array.toList_append rfl fun bs he => ?_
    · rw [Array.size_append, ← hsize, List.length_cons]
      exact Nat.add_right_comm _ 1 _
    · rw [hadv.scopes] at he ⊢
      rcases hval with ⟨n, hn, rfl⟩ | ⟨w, hw, hbytes⟩
      · exact .number hn he
      · rw [← hbytes]
        exact .text hw he
  | word _ ih =>
    rename_i rest v _
    rw [patchSlots_word] at hq ⊢
    have hadv := s.patchWord_advances site v
    obtain ⟨d, n, hd, hn, hw⟩ := patchWord_quiet hm ((patchSlots_advances _ _ _ _).quiet hq)
    rw [hw] at hq ⊢
    rw [← hadv.scopes] at hd ⊢
    refine (ih (hadv.memo t hm) ?_ hq).prepend [Word.lowByte n, Word.highByte n]
      Array.toList_append rfl fun bs he => .word hd hn he
    rw [Array.size_append, ← hsize, List.length_cons]
    exact Nat.add_right_comm _ 2 _
  | relative _ ih =>
    rename_i rest v _
    have hlength : done.size + rest.length + 1 = size := hsize
    rw [patchSlots_relative, hlength] at hq ⊢
    have hadv := s.patchRelative_advances site size v
    obtain ⟨d, target, b, hd, hn, hb, htarget⟩ := patchRelative_quiet hm
      ((patchSlots_advances _ _ _ _).quiet hq)
    rw [hb] at hq ⊢
    rw [← hadv.scopes] at hd ⊢
    refine (ih (hadv.memo t hm) ?_ hq).prepend [b] Array.toList_push rfl
      fun bs he => .relative hd hn htarget he
    rw [Array.size_push, ← hlength]
    exact Nat.add_right_comm _ 1 _

theorem patchSlots_of_no_operand (s : State) (site : Site) (done : Array Slot)
    (h : slots.any Slot.isOperand = false) :
    s.patchSlots site done slots = (done.toList ++ slots, s) := by
  induction slots generalizing done with
  | nil => rw [List.append_nil]; rfl
  | cons slot rest ih =>
    rw [List.any_cons, Bool.or_eq_false_iff] at h
    cases slot with
    | expr => cases h.1
    | relative => cases h.1
    | _ =>
      rw [patchSlots]
      · rw [ih _ h.2, Array.toList_push, List.append_assoc]
        rfl
      all_goals simp

theorem step_bytes (s : State) (loc : Location) (t : Template) :
    s.step ⟨loc, .bytes t⟩ =
      (.bytes { t with slots := (s.patchSlots ⟨loc, t.address, t.placed⟩ #[] t.slots).1 },
        (s.patchSlots ⟨loc, t.address, t.placed⟩ #[] t.slots).2) := by
  unfold step
  dsimp only [ScopeStack.after]
  split
  · rfl
  · rename_i h
    rw [patchSlots_of_no_operand s _ _ (Bool.not_eq_true _ ▸ h)]
    rfl

theorem step_of_not_bytes (s : State) (h : ∀ t, e.stmt ≠ .bytes t) :
    s.step e = (e.stmt, { s with scopes := s.scopes.after e.stmt }) := by
  unfold step
  dsimp only
  split
  · rename_i t ht
    exact (h t ht).elim
  · rfl

theorem step_advances (s : State) (e : Element) :
    Advances { s with scopes := s.scopes.after e.stmt } (s.step e).2 := by
  by_cases h : ∃ t, e.stmt = .bytes t
  · obtain ⟨t, ht⟩ := h
    obtain ⟨loc, stmt⟩ := e
    cases ht
    rw [step_bytes]
    exact patchSlots_advances s _ _ _
  · rw [step_of_not_bytes s fun t ht => h ⟨t, ht⟩]
    exact .refl _

theorem scopes_step (s : State) (e : Element) : (s.step e).2.scopes = s.scopes.after e.stmt :=
  (s.step_advances e).scopes

theorem step_alike (s : State) (e : Element) : Program.Alike e.stmt (s.step e).1 := by
  obtain ⟨loc, stmt⟩ := e
  cases stmt with
  | bytes t =>
    rw [step_bytes]
    exact .bytes t _
  | _ => exact .refl _

theorem step_inert : Program.Inert step := Program.inert_of_alike step_alike

end State

def State.through (t : SymbolTable) (es : List Element) : State :=
  (Program.thread State.step { memo := ⟨t, []⟩ } es).2

theorem State.memo_through (t : SymbolTable) (es : List Element) :
    Memo.Sound t (through t es).memo :=
  Program.thread_induction (P := fun s : State => Memo.Sound t s.memo)
    (fun s e h => (s.step_advances e).memo t h) (.initial t) es

theorem State.thread_reports (s : State) (es : List Element) :
    Adds s.diagnostics.toList (Program.thread step s es).2.diagnostics.toList :=
  Program.thread_induction
    (P := fun s' : State => Adds s.diagnostics.toList s'.diagnostics.toList)
    (fun s' e h => h.trans (s'.step_advances e).reports) (.refl _) es

theorem outside_patch (es : List Element) (t : SymbolTable) :
    Program.outside (patch es t).program =
      (Program.thread State.step { memo := ⟨t, []⟩ } (Program.outside es)).1 :=
  Program.outside_update State.step_inert { memo := ⟨t, []⟩ } es

theorem patch_table (es : List Element) (t : SymbolTable) :
    (patch es t).table = (State.through t (Program.outside es)).memo.table :=
  congrArg (fun s => s.memo.table)
    (Program.update_snd State.step_inert { memo := ⟨t, []⟩ } es)

theorem patch_diagnostics (es : List Element) (t : SymbolTable) :
    (patch es t).diagnostics = (State.through t (Program.outside es)).diagnostics.toList :=
  congrArg (fun s => s.diagnostics.toList)
    (Program.update_snd State.step_inert { memo := ⟨t, []⟩ } es)

/-- Patching does not change a table in which everything is resolved. -/
theorem patch_table_of_resolved (h : t.Resolved) (es : List Element) : (patch es t).table = t := by
  rw [patch_table]
  exact (State.memo_through t _).settles.eq_of_resolved h

theorem quiet_step (hq : (patch es t).diagnostics = [])
    (hpos : Program.outside es = pre ++ e :: post) :
    ((State.through t pre).step e).2.diagnostics.toList = [] := by
  rw [patch_diagnostics, hpos, State.through, Program.thread_append] at hq
  exact (State.thread_reports ((State.through t pre).step e).2 post).quiet hq

/-- Patching leaves an evaluated table as it is, at every element and every slot, though it stores
what it evaluates. So the values that operands get are those that the table in the end holds. -/
theorem patch_evaluated (es : List Element) (t : SymbolTable) :
    (patch es t.evaluate.1).table = t.evaluate.1 ∧
      ∀ (before : List Element) (site : Site) (done : Array Slot) (slots : List Slot) (v : Value),
        let s := ((State.through t.evaluate.1 before).patchSlots site done slots).2
        s.memo.table = t.evaluate.1 ∧ (s.operand site v).2.memo.table = t.evaluate.1 ∧
          (s.operand site v).1.toOption =
            (t.evaluate.1.valueOf v (s.scopes.scopeOf v) site.address).toOption := by
  have hdone := t.done_evaluate
  have hunchanged {s : State} (h : Memo.Sound t.evaluate.1 s.memo) : s.memo.table = t.evaluate.1 :=
    h.settles.eq_of_done hdone
  refine ⟨?_, fun before site done slots v => ?_⟩
  · rw [patch_table]
    exact hunchanged (State.memo_through _ _)
  · intro s
    have hsound : Memo.Sound t.evaluate.1 s.memo :=
      (State.patchSlots_advances _ site done slots).memo _ (State.memo_through _ before)
    have hvalue := (SymbolTable.operand_of_sound hsound v (s.scopes.scopeOf v) site.address).1
    rw [SymbolTable.operand_toOption, SymbolTable.meaning_eq_known hdone] at hvalue
    exact ⟨hunchanged hsound, hunchanged ((s.operand_advances site v).memo _ hsound), hvalue⟩

end Patch
end Z80Asm
