import Z80Asm.Proofs.Lockstep
import Z80Asm.Proofs.Patching
import Z80Asm.Proofs.Underlay

/-! Layout with a table that knows more. What is known sooner has the value that it has in the end,
so it changes nothing in a program that is assembled without problems: directives move the address
as before, and a text that is now known in time would have been reported as late. -/

namespace Z80Asm
set_option autoImplicit true

namespace Layout

def byteOperands : List Slot → List Value
  | [] => []
  | .expr v :: rest =>
    if rest.head?.any Slot.isHigh then byteOperands rest else v :: byteOperands rest
  | _ :: rest => byteOperands rest

def spliced? : Option Datum → Option String
  | some (.text s) => if s.utf8ByteSize = 1 then none else some s
  | _ => none

theorem reserved_byte (h : rest.head?.any Slot.isHigh = false) (early : Value → Option Datum)
    (v : Value) :
    reserved early (.expr v :: rest) =
      ((spliced? (early v)).elim [.expr v] Slot.ofText) ++ reserved early rest := by
  rw [reserved, h]
  simp only [Bool.false_eq_true, ↓reduceIte]
  unfold spliced?
  cases early v with
  | none => rfl
  | some d =>
    cases d with
    | number n => rfl
    | text s =>
      dsimp only
      split <;> rfl

theorem reserved_congr {early early' : Value → Option Datum}
    (h : ∀ v ∈ byteOperands slots, spliced? (early' v) = spliced? (early v)) :
    reserved early' slots = reserved early slots := by
  induction slots with
  | nil => rfl
  | cons slot rest ih =>
    cases slot with
    | expr v =>
      rw [byteOperands] at h
      cases hh : rest.head?.any Slot.isHigh with
      | true =>
        rw [hh, if_pos rfl] at h
        rw [reserved, reserved, hh, if_pos rfl, if_pos rfl, ih h]
      | false =>
        rw [hh, if_neg Bool.false_ne_true] at h
        rw [reserved_byte hh, reserved_byte hh, h v List.mem_cons_self,
          ih fun w hw => h w (List.mem_cons_of_mem v hw)]
    | byte b => exact congrArg (_ :: ·) (ih h)
    | high => exact congrArg (_ :: ·) (ih h)
    | relative w => exact congrArg (_ :: ·) (ih h)

theorem reserved_not_high (h : slots.head?.any Slot.isHigh = false)
    (early : Value → Option Datum) : (reserved early slots).head?.any Slot.isHigh = false := by
  induction slots with
  | nil => rfl
  | cons slot rest ih =>
    cases slot with
    | expr v =>
      cases hh : rest.head?.any Slot.isHigh with
      | true =>
        rw [reserved, hh]
        rfl
      | false =>
        rw [reserved_byte hh]
        cases spliced? (early v) with
        | none => rfl
        | some s =>
          dsimp only [Option.elim]
          unfold Slot.ofText
          cases Text.bytes s with
          | nil => exact ih hh
          | cons b bs => rfl
    | byte b => rfl
    | high => cases h
    | relative w => rfl

end Layout

theorem Slot.exists_of_head_high {slots : List Slot} (h : slots.head?.any isHigh = true) :
    ∃ rest, slots = .high :: rest := by
  cases slots with
  | nil => cases h
  | cons slot rest =>
    cases slot with
    | high => exact ⟨rest, rfl⟩
    | byte | expr | relative => cases h

theorem Text.utf8ByteSize_of_bytes {w : String} (h : bytes w = [b]) : w.utf8ByteSize = 1 := by
  have hl := congrArg List.length h
  rwa [bytes, Array.length_toList] at hl

namespace Patch.State

theorem patchSlots_map_byte (s : State) (site : Site) (done : Array Slot) (bs : List UInt8)
    (rest : List Slot) :
    s.patchSlots site done (bs.map .byte ++ rest) =
      s.patchSlots site (done ++ (bs.map Slot.byte).toArray) rest := by
  induction bs generalizing done with
  | nil => rw [List.map_nil, List.nil_append, Array.append_empty]
  | cons b bs ih =>
    rw [List.map_cons, List.cons_append, patchSlots_byte, ih]
    congr 1
    rw [← Array.toList_inj]
    simp

theorem patchByte_single {s : State} (hm : Memo.Sound t s.memo) (hplaced : site.placed = true)
    (hq : (s.patchByte site v).2.diagnostics.toList = []) (w : String)
    (hw : t.operand v (s.scopes.scopeOf v) site.address = .ok (.text w)) :
    w.utf8ByteSize = 1 := by
  obtain ⟨b, -, ⟨n, hn, -⟩ | ⟨w', hw', hbytes⟩⟩ := patchByte_quiet hm hplaced hq
  · rw [hn] at hw
    cases hw
  · rw [hw'] at hw
    cases hw
    exact Text.utf8ByteSize_of_bytes hbytes

/-- Where patching finds no problem, no text turns up that should have been reserved. -/
theorem spliced_of_quiet {early : Value → Option Datum} (slots : List Slot) {s : State}
    (hm : Memo.Sound t s.memo) (hplaced : site.placed = true)
    (hq : (s.patchSlots site done (Layout.reserved early slots)).2.diagnostics.toList = []) :
    ∀ v ∈ Layout.byteOperands slots, (Layout.spliced? (early v)).isSome = true ∨
      ∀ w, t.operand v (s.scopes.scopeOf v) site.address = .ok (.text w) →
        w.utf8ByteSize = 1 := by
  cases slots with
  | nil =>
    intro v hv
    cases hv
  | cons slot rest => cases slot with
  | byte b =>
    change (s.patchSlots site (done.push (.byte b)) _).2.diagnostics.toList = [] at hq
    exact spliced_of_quiet rest hm hplaced hq
  | high =>
    change (s.patchSlots site (done.push .high) _).2.diagnostics.toList = [] at hq
    exact spliced_of_quiet rest hm hplaced hq
  | relative v =>
    rw [Layout.reserved, patchSlots_relative] at hq
    · have hadv := s.patchRelative_advances site
        (done.size + (Layout.reserved early rest).length + 1) v
      have hrest := spliced_of_quiet rest (hadv.memo t hm) hplaced hq
      rw [hadv.scopes] at hrest
      exact hrest
    · intro w hw
      cases hw
  | expr v =>
    cases hh : rest.head?.any Slot.isHigh with
    | true =>
      obtain ⟨rest, rfl⟩ := Slot.exists_of_head_high hh
      rw [Layout.reserved_word, patchSlots_word] at hq
      have hadv := s.patchWord_advances site v
      have hrest := spliced_of_quiet rest (hadv.memo t hm) hplaced hq
      rw [hadv.scopes] at hrest
      exact hrest
    | false =>
      rw [Layout.byteOperands, hh, if_neg Bool.false_ne_true]
      rw [Layout.reserved_byte hh] at hq
      cases hs : Layout.spliced? (early v) with
      | some text =>
        rw [hs, Option.elim, Slot.ofText, patchSlots_map_byte] at hq
        have hspliced : (Layout.spliced? (early v)).isSome = true := by
          rw [hs]
          rfl
        have hrest := spliced_of_quiet rest hm hplaced hq
        exact List.forall_mem_cons.2 ⟨.inl hspliced, hrest⟩
      | none =>
        have hnot := Layout.reserved_not_high hh early
        rw [hs, Option.elim, List.singleton_append, patchSlots_expr s site done v hnot] at hq
        have hadv := s.patchByte_advances site v
        have hsingle := patchByte_single hm hplaced ((patchSlots_advances _ _ _ _).quiet hq)
        have hrest := spliced_of_quiet rest (hadv.memo t hm) hplaced hq
        rw [hadv.scopes] at hrest
        exact List.forall_mem_cons.2 ⟨.inr hsingle, hrest⟩
termination_by slots.length

end Patch.State

namespace Layout

theorem reserved_eq_of_between {early mid : Value → Option Datum}
    (hearly : ∀ v d, early v = some d → mid v = some d)
    (hmid : ∀ v ∈ byteOperands slots, (spliced? (early v)).isSome = true ∨
      ∀ w, mid v = some (.text w) → w.utf8ByteSize = 1) :
    reserved mid slots = reserved early slots := by
  apply reserved_congr
  intro v hv
  cases he : early v with
  | some d => rw [hearly v d he]
  | none =>
    rcases hmid v hv with hs | hone
    · rw [he] at hs
      cases hs
    · cases hm : mid v with
      | none => rfl
      | some d =>
        cases d with
        | number n => rfl
        | text w => exact if_pos (hone w hm)

namespace State

theorem get?_settled_eq (s : State) (q : String) :
    s.settled.get? q = if q ∈ s.pending then some .unresolved else s.table.get? q :=
  SymbolTable.get?_foldl_set _ _ _ _

theorem settled_withTable {s : State} (hp : s.pending = []) (t : SymbolTable) :
    (s.withTable t).settled = t :=
  settled_of_not_pending hp

/-- The table `t` knows no less than that of the state `s`, and nothing that is not so in the end,
in the table `final`. -/
structure Ahead (final : SymbolTable) (s : State) (t : SymbolTable) : Prop where
  table : s.table.Underlies t
  settled : s.settled.Underlies (s.withTable t).settled
  pending : ∀ q ∈ s.pending, t.get? q = s.table.get? q
  final : (s.withTable t).settled.Underlies final

section
variable {final t : SymbolTable} {s : State}

/-- Where the labels directly before are done with, all that is known is so in the end. -/
theorem Ahead.table_final (h : Ahead final s t) (hready : Ready (s.withTable t) symbols)
    (hleads : s.table.Leads final) : t.Underlies final := by
  refine ⟨fun q => ?_, fun q v hv => ?_⟩
  · rw [← h.final.names, ← (settled_grows hready).names]
    rfl
  · by_cases hp : q ∈ s.pending
    · rw [h.pending q hp] at hv
      exact hleads.bears_of_get? hv
    · have hsettled : (s.withTable t).settled.get? q = t.get? q := get?_settled hp
      exact h.final.bears q v (hsettled.trans hv)

theorem directive_of_ok {s : State} (hd : s.table.operand v s.scopes.current s.address = .ok d)
    (hn : d.asNumber none = .ok n) (name : String) (loc : Location) :
    s.directive name v loc = (some n, s.withTable (s.early s.scopes.current v).2.table) := by
  have hr : (s.early s.scopes.current v).1 = .ok d := hd
  unfold directive
  unfold early at hr ⊢
  generalize (Resolve.value v s.scopes.current s.address).run.run ⟨s.table, []⟩ = r at hr ⊢
  obtain ⟨r, memo⟩ := r
  cases hr
  dsimp only
  rw [Except.bind_eq_ok.2 ⟨d, rfl, hn⟩]
  rfl

def passed (s : State) (n : Nat) (loc : Location) : State :=
  { s with address := s.address + Int64.ofNat n, out := s.out + Int64.ofNat n }.checkRange loc

theorem passed_withTable (s : State) (t : SymbolTable) (n : Nat) (loc : Location) :
    (s.withTable t).passed n loc = (s.passed n loc).withTable t :=
  checkRange_withTable { s with address := _, out := _ } t loc

theorem placeTemplate_eq (s : State) (tm : Template) (loc : Location) :
    let slots := reserved (valueIn s.table s.scopes s.address) tm.slots
    ∃ t₁, s.placeTemplate tm loc =
      (⟨slots, s.address, s.out, true⟩, (s.passed slots.length loc).withTable t₁) := by
  rw [← slots_placeTemplate s tm loc]
  refine ⟨(s.placeTemplate tm loc).2.table, ?_⟩
  unfold passed
  rw [← checkRange_withTable]
  unfold placeTemplate
  simp only [table_checkRange]
  rfl

theorem placeTemplate_withTable {tm : Template}
    (h : reserved (valueIn t s.scopes s.address) tm.slots =
      reserved (valueIn s.table s.scopes s.address) tm.slots) (loc : Location) :
    ∃ t₁, (s.withTable t).placeTemplate tm loc =
      ((s.placeTemplate tm loc).1, (s.placeTemplate tm loc).2.withTable t₁) := by
  obtain ⟨t₁, h₁⟩ := s.placeTemplate_eq tm loc
  obtain ⟨t₂, h₂⟩ := (s.withTable t).placeTemplate_eq tm loc
  refine ⟨t₂, ?_⟩
  rw [h₁, h₂]
  change (Template.mk (reserved (valueIn t s.scopes s.address) tm.slots) s.address s.out true,
    ((s.withTable t).passed (reserved (valueIn t s.scopes s.address) tm.slots).length
      loc).withTable t₂) = _
  rw [h, passed_withTable]
  rfl

/-- An operand of a template that turns out to be a text of several bytes, or of none, is known to
be one when the template is placed. -/
def InTime (final : SymbolTable) (s : State) (e : Element) : Prop :=
  ∀ tm, e.stmt = .bytes tm → ∀ v ∈ byteOperands tm.slots,
    (spliced? (valueIn s.table s.scopes s.address v)).isSome = true ∨
      ∀ w, final.operand v (s.scopes.scopeOf v) s.address = .ok (.text w) → w.utf8ByteSize = 1

theorem step_withTable (hest : s.table.Underlies t) (hfinal : t.Underlies final)
    (he : Evaluates e) (hq : (s.step e).2.diagnostics = []) (htexts : InTime final s e) :
    ∃ t₁, (s.withTable t).step e = ((s.step e).1, (s.step e).2.withTable t₁) := by
  rw [step_of_not_label _ he.1, step_of_not_label _ he.1]
  cases hdir : directive? e.stmt with
  | some p =>
    obtain ⟨d, n, hd, hn, -⟩ := s.directive_of_quiet hdir hq
    have hd' : (s.withTable t).table.operand p.2 (s.withTable t).scopes.current
      (s.withTable t).address = .ok d := hest.operand hd
    refine ⟨((s.withTable t).early s.scopes.current p.2).2.table, ?_⟩
    rw [placeOther_of_directive _ hdir, placeOther_of_directive _ hdir, directive_of_ok hd hn,
      directive_of_ok hd' hn]
    dsimp only [Option.elim]
    simp only [move_withTable]
    rfl
  | none =>
    obtain ⟨loc, stmt⟩ := e
    cases stmt with
    | label l => exact (he.1 l rfl).elim
    | equ v => exact (he.2 v rfl).elim
    | org | phase | align => cases hdir
    | bytes tm =>
      have hslots : reserved (valueIn t s.scopes s.address) tm.slots =
          reserved (valueIn s.table s.scopes s.address) tm.slots := by
        apply reserved_eq_of_between
        · intro v d hv
          rw [valueIn, hest.operand (Except.eq_ok_of_toOption hv)]
          rfl
        · intro v hv
          rcases htexts tm rfl v hv with hs | hone
          · exact .inl hs
          · exact .inr fun w hw => hone w (hfinal.operand (Except.eq_ok_of_toOption hw))
      obtain ⟨t₁, h₁⟩ := placeTemplate_withTable hslots loc
      refine ⟨t₁, ?_⟩
      change (Statement.bytes ((s.withTable t).placeTemplate tm loc).1,
        ({ ((s.withTable t).placeTemplate tm loc).2 with pending := [] } : State)) = _
      rw [h₁]
      rfl
    | _ => exact ⟨t, rfl⟩

theorem get?_settled_placeLabel (h : Ready s (l.symbol :: symbols))
    (hl : (if l.symbol.isEmpty then l.name else l.symbol) = l.symbol) (q : String) :
    (s.placeLabel l).2.settled.get? q = s.settled.get? q := by
  rw [get?_settled_eq, get?_settled_eq, pending_placeLabel hl, table_placeLabel h hl,
    SymbolTable.get?_set]
  simp only [List.mem_append, List.mem_singleton]
  by_cases hp : q ∈ s.pending
  · rw [if_pos (.inl hp), if_pos hp]
  · rw [if_neg hp]
    by_cases hq : q = l.symbol
    · rw [if_pos (.inr hq), hq, h.bare.unresolved l.symbol List.mem_cons_self]
    · rw [if_neg (not_or.2 ⟨hp, hq⟩), if_neg hq]

theorem Ahead.placeLabel (h : Ahead final s t) (hr : Ready s (l.symbol :: symbols))
    (hr' : Ready (s.withTable t) (l.symbol :: symbols'))
    (hl : (if l.symbol.isEmpty then l.name else l.symbol) = l.symbol) :
    ∃ t₁, (s.withTable t).placeLabel l = ((s.placeLabel l).1, (s.placeLabel l).2.withTable t₁) ∧
      Ahead final (s.placeLabel l).2 t₁ := by
  have hu : s.table.get? l.symbol = some .unresolved := hr.bare.unresolved _ List.mem_cons_self
  have hu' : t.get? l.symbol = some .unresolved := hr'.bare.unresolved _ List.mem_cons_self
  have hsame : (s.withTable t).placeLabel l =
      ((s.placeLabel l).1, (s.placeLabel l).2.withTable (t.set l.symbol (.number s.address))) := by
    have hget : (s.withTable t).table.get? l.symbol = some .unresolved := hu'
    unfold State.placeLabel
    simp only [hl]
    rw [hget, hu]
    rfl
  have hstate : ((s.withTable t).placeLabel l).2 =
      (s.placeLabel l).2.withTable (t.set l.symbol (.number s.address)) := by
    rw [hsame]
  refine ⟨_, hsame, ?_, ?_, fun q hq => ?_, ?_⟩
  · rw [table_placeLabel hr hl]
    refine h.table.update (SymbolTable.leads_set hu' _)
      (SymbolTable.names_congr (SymbolTable.outline_set (SymbolTable.mem_names_of_get? hu) _))
      fun q => ?_
    rw [SymbolTable.get?_set, SymbolTable.get?_set]
    by_cases hq : q = l.symbol
    · rw [if_pos hq, if_pos hq]
      exact .inr rfl
    · rw [if_neg hq]
      exact .inl rfl
  · rw [← hstate]
    exact h.settled.update (placeLabel_grows hr' hl).leads (placeLabel_grows hr hl).names
      fun q => .inl (get?_settled_placeLabel hr hl q)
  · rw [pending_placeLabel hl, List.mem_append, List.mem_singleton] at hq
    rw [table_placeLabel hr hl, SymbolTable.get?_set, SymbolTable.get?_set]
    by_cases hq' : q = l.symbol
    · rw [if_pos hq', if_pos hq']
    · rw [if_neg hq', if_neg hq']
      exact h.pending q (hq.resolve_right hq')
  · rw [← hstate]
    exact h.final.congr (get?_settled_placeLabel hr' hl)

theorem get?_bind (hp : s.pending ≠ []) (v : Value) (loc : Location) (q : String) :
    (s.bind v loc).table.get? q =
      if q ∈ s.pending then some (boundValue s.scopes s.address v) else s.table.get? q := by
  have he : s.pending.isEmpty = false := by
    rw [List.isEmpty_eq_false_iff]
    exact hp
  unfold bind
  rw [he, if_neg Bool.false_ne_true]
  exact SymbolTable.get?_foldl_set _ _ _ _

theorem Ahead.bind (h : Ahead final s t) (hr : Ready s symbols)
    (hr' : Ready (s.withTable t) symbols') (hp : s.pending ≠ [])
    (hleads : (s.bind v loc).table.Leads final) :
    ∃ t₁, (s.withTable t).bind v loc = (s.bind v loc).withTable t₁ ∧
      Ahead final { s.bind v loc with pending := [] } t₁ := by
  have hget := get?_bind hp v loc
  have hget' (q : String) : ((s.withTable t).bind v loc).table.get? q =
      if q ∈ s.pending then some (boundValue s.scopes s.address v) else t.get? q :=
    get?_bind (s := s.withTable t) hp v loc q
  have hsame : (s.withTable t).bind v loc =
      (s.bind v loc).withTable ((s.withTable t).bind v loc).table := by
    unfold State.bind withTable
    dsimp only
    split <;> rfl
  have hunder : (s.bind v loc).table.Underlies ((s.withTable t).bind v loc).table := by
    refine h.settled.update (bind_ready hr' v loc).2.leads (bind_ready hr v loc).2.names
      fun q => ?_
    rw [hget, hget', get?_settled_eq]
    by_cases hq : q ∈ s.pending
    · rw [if_pos hq]
      exact .inr (if_pos hq).symm
    · rw [if_neg hq, if_neg hq]
      exact .inl rfl
  refine ⟨_, hsame, hunder, hunder, fun q hq => (List.not_mem_nil hq).elim, ?_⟩
  refine ⟨fun q => ?_, fun q w hw => ?_⟩
  · change q ∈ ((s.withTable t).bind v loc).table.names ↔ _
    rw [(bind_ready hr' v loc).2.names]
    exact h.final.names q
  · change ((s.withTable t).bind v loc).table.get? q = some w at hw
    rw [hget'] at hw
    by_cases hq : q ∈ s.pending
    · apply hleads.bears_of_get?
      rw [hget, if_pos hq]
      rw [if_pos hq] at hw
      exact hw
    · rw [if_neg hq] at hw
      have hsettled : (s.withTable t).settled.get? q = t.get? q := get?_settled hq
      exact h.final.bears q w (hsettled.trans hw)

/-- A step goes alike by a table that knows more, and leaves one that does. -/
theorem Ahead.step (h : Ahead final s t) (hr : Ready s (Declarations.labelSymbols (e :: es)))
    (hr' : Ready (s.withTable t) (Declarations.labelSymbols (e :: es')))
    (hn : Declarations.Named e) (hq : (s.step e).2.diagnostics = [])
    (hleads : (s.step e).2.settled.Leads final) (htexts : InTime final s e) :
    ∃ t₁, (s.withTable t).step e = ((s.step e).1, (s.step e).2.withTable t₁) ∧
      Ahead final (s.step e).2 t₁ := by
  by_cases hl : ∃ l, e.stmt = .label l
  · obtain ⟨l, hl⟩ := hl
    rw [Declarations.labelSymbols_cons, Declarations.labelSymbols_label hl] at hr hr'
    obtain ⟨loc, stmt⟩ := e
    cases hl
    obtain ⟨t₁, h₁, hahead⟩ := h.placeLabel hr hr' (hn l rfl)
    refine ⟨t₁, ?_, hahead⟩
    change (Statement.label ((s.withTable t).placeLabel l).1, ((s.withTable t).placeLabel l).2) = _
    rw [h₁]
    rfl
  · have hl' : ∀ l, e.stmt ≠ .label l := fun l hl' => hl ⟨l, hl'⟩
    by_cases hv : ∃ v, e.stmt = .equ v
    · obtain ⟨v, hv⟩ := hv
      obtain ⟨loc, stmt⟩ := e
      cases hv
      have hp : s.pending ≠ [] := by
        intro hp
        have hreport : (s.bind v loc).diagnostics = [] := hq
        unfold State.bind at hreport
        rw [hp] at hreport
        exact List.cons_ne_nil _ _ (List.append_eq_nil_iff.1 hreport).2
      obtain ⟨t₁, h₁, hahead⟩ := h.bind hr hr' hp hleads
      refine ⟨t₁, ?_, hahead⟩
      change (Statement.equ v, ({ (s.withTable t).bind v loc with pending := [] } : State)) = _
      rw [h₁]
      rfl
    · have he : Evaluates e := ⟨hl', fun v hv' => hv ⟨v, hv'⟩⟩
      have hfinal := h.table_final hr' ((s.step_settles he).grows.leads.trans hleads)
      obtain ⟨t₁, h₁⟩ := step_withTable h.table hfinal he hq htexts
      have hsettles := s.step_settles he
      have hsettles' : t.Settles t₁ := by
        have hs := (s.withTable t).step_settles he
        rw [settled_step _ he, h₁] at hs
        exact hs
      rw [settled_step _ he] at hsettles
      have hunder := (h.table.leads hsettles'.grows.leads).settles hsettles
      have hpending : (s.step e).2.pending = [] := by
        rw [step_of_not_label s hl']
      refine ⟨t₁, h₁, hunder, ?_, fun q hq => ?_, ?_⟩
      · rw [settled_of_not_pending hpending, settled_withTable hpending]
        exact hunder
      · rw [hpending] at hq
        cases hq
      · rw [settled_withTable hpending]
        exact hfinal.settles hsettles'

theorem Ahead.thread (h : Ahead final s t)
    (hr : Ready s (Declarations.labelSymbols (es ++ rest)))
    (hr' : Ready (s.withTable t) (Declarations.labelSymbols (es ++ rest')))
    (hn : ∀ e ∈ es, Declarations.Named e)
    (hsteps : ∀ pre e post, es = pre ++ e :: post →
      ((Program.thread State.step s pre).2.step e).2.diagnostics = [] ∧
        ((Program.thread State.step s pre).2.step e).2.settled.Leads final ∧
        InTime final (Program.thread State.step s pre).2 e) :
    ∃ t₁, Program.thread State.step (s.withTable t) es =
        ((Program.thread State.step s es).1, (Program.thread State.step s es).2.withTable t₁) ∧
      Ahead final (Program.thread State.step s es).2 t₁ := by
  induction es generalizing s t with
  | nil => exact ⟨t, rfl, h⟩
  | cons e es ih =>
    obtain ⟨hq, hleads, htexts⟩ := hsteps [] e es rfl
    have he := hn e List.mem_cons_self
    obtain ⟨t₁, h₁, hahead⟩ := h.step hr hr' he hq hleads htexts
    have hready := (step_leads hr' he).1
    rw [h₁] at hready
    obtain ⟨t₂, h₂, hend⟩ := ih hahead (step_leads hr he).1 hready
      (fun a ha => hn a (List.mem_cons_of_mem e ha))
      fun pre a post hes => hsteps (e :: pre) a post (congrArg (e :: ·) hes)
    refine ⟨t₂, ?_, hend⟩
    rw [Program.thread, h₁, h₂]
    rfl

end
end State
end Layout
end Z80Asm
