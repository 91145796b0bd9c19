import Z80Asm.Layout
import Z80Asm.Proofs.Declared
import Z80Asm.Proofs.Evaluation

/-! What layout evaluates on the way is final: labels and symbols only gain values, so an operand
that has a value when its element is placed has the same value in the end. -/

namespace Z80Asm.Layout
set_option autoImplicit true

/-- The slots of a template in which every operand of one byte that is a text of another length is
replaced by its bytes. -/
def reserved (value : Value → Option Datum) : List Slot → List Slot
  | [] => []
  | .expr v :: rest =>
    if rest.head?.any Slot.isHigh then .expr v :: reserved value rest
    else
      match value v with
      | some (.text s) =>
        if s.utf8ByteSize = 1 then .expr v :: reserved value rest
        else Slot.ofText s ++ reserved value rest
      | _ => .expr v :: reserved value rest
  | slot :: rest => slot :: reserved value rest

def valueIn (t : SymbolTable) (scopes : ScopeStack) (address : Int64) (v : Value) :
    Option Datum :=
  (t.operand v (scopes.scopeOf v) address).toOption

/-- Reservation goes by the table it starts from, whatever it stores on the way. -/
theorem reserve_eq (hs : Memo.Sound t memo) (scopes : ScopeStack) (address : Int64)
    (done : Array Slot) (slots : List Slot) :
    (reserve scopes address memo done slots).1 =
        done.toList ++ reserved (valueIn t scopes address) slots ∧
      Memo.Sound t (reserve scopes address memo done slots).2 := by
  induction slots generalizing memo done with
  | nil => exact ⟨(List.append_nil _).symm, hs⟩
  | cons slot rest ih =>
    cases slot with
    | expr v =>
      rw [reserve, reserved]
      split
      · simpa using ih hs (done.push (.expr v))
      · obtain ⟨hv, hs'⟩ := SymbolTable.operand_of_sound hs v (scopes.scopeOf v) address
        change _ = valueIn t scopes address v at hv
        rw [← hv]
        generalize (Resolve.value v (scopes.scopeOf v) address).run.run memo = r at hs' ⊢
        obtain ⟨r, memo'⟩ := r
        cases r with
        | error e => simpa [Except.toOption] using ih hs' (done.push (.expr v))
        | ok d =>
          cases d with
          | number n => simpa [Except.toOption] using ih hs' (done.push (.expr v))
          | text w =>
            simp only [Except.toOption]
            split
            · simpa using ih hs' (done.push (.expr v))
            · simpa using ih hs' (done ++ (Slot.ofText w).toArray)
    | _ =>
      rw [reserve, reserved]
      · simpa using ih hs (done.push _)
      all_goals simp

theorem reserved_of_no_operand {slots : List Slot} (h : slots.any Slot.isOperand = false)
    (value : Value → Option Datum) : reserved value slots = slots := by
  induction slots with
  | nil => rfl
  | cons slot rest ih =>
    rw [List.any_cons, Bool.or_eq_false_iff] at h
    cases slot with
    | expr => cases h.1
    | relative => cases h.1
    | _ =>
      rw [reserved, ih h.2]
      simp

namespace State

theorem table_checkRange (s : State) (loc : Location) :
    (s.checkRange loc).table = s.table := by
  unfold checkRange
  split <;> rfl

theorem table_alignTo (s : State) (n : Int64) (loc : Location) :
    (s.alignTo n loc).table = s.table := by
  unfold alignTo
  split
  · rfl
  · simp only [table_checkRange]

def early (s : State) (scope : String) (v : Value) : Except EvalError Datum × Memo :=
  (Resolve.value v scope s.address).run.run ⟨s.table, []⟩

theorem early_settles (s : State) (scope : String) (v : Value) :
    s.table.Settles (s.early scope v).2.table :=
  (SymbolTable.operand_of_sound (.initial s.table) v scope s.address).2.settles

theorem table_directive (s : State) (name : String) (v : Value) (loc : Location) :
    (s.directive name v loc).2.table = (s.early s.scopes.current v).2.table := by
  unfold directive early
  generalize (Resolve.value v s.scopes.current s.address).run.run ⟨s.table, []⟩ = r
  obtain ⟨r, memo⟩ := r
  dsimp only
  split <;> rfl

theorem slots_placeTemplate (s : State) (t : Template) (loc : Location) :
    (s.placeTemplate t loc).1.slots = reserved (valueIn s.table s.scopes s.address) t.slots := by
  unfold placeTemplate
  dsimp only
  split
  · exact (reserve_eq (.initial s.table) s.scopes s.address #[] t.slots).1
  · rename_i h
    exact (reserved_of_no_operand (Bool.not_eq_true _ ▸ h) _).symm

theorem placeTemplate_settles (s : State) (t : Template) (loc : Location) :
    s.table.Settles (s.placeTemplate t loc).2.table := by
  unfold placeTemplate
  simp only [table_checkRange]
  split
  · exact (reserve_eq (.initial s.table) s.scopes s.address #[] t.slots).2.settles
  · exact .refl _

end State

def directive? : Statement → Option (String × Value)
  | .org v => some ("ORG", v)
  | .phase v => some ("PHASE", v)
  | .align v => some ("ALIGN", v)
  | _ => none

namespace State

def move (s : State) (stmt : Statement) (n : Int64) (loc : Location) : State :=
  match stmt with
  | .org _ => { s with address := n, out := n }.checkRange loc
  | .phase _ => { s with address := n }.checkRange loc
  | .align _ => s.alignTo n loc
  | _ => s

theorem placeOther_of_directive (s : State) (h : directive? e.stmt = some (name, v)) :
    s.placeOther e = (e.stmt, (s.directive name v e.loc).1.elim (s.directive name v e.loc).2
      fun n => (s.directive name v e.loc).2.move e.stmt n e.loc) := by
  obtain ⟨loc, stmt⟩ := e
  unfold placeOther
  cases stmt with
  | org | phase | align =>
    cases h
    dsimp only [ScopeStack.after]
    split
    · rename_i n s' hr
      rw [hr]
      rfl
    · rename_i s' hr
      rw [hr]
      rfl
  | _ => cases h

theorem placeOther_directive (s : State) (h : directive? e.stmt = some (name, v)) :
    (s.placeOther e).2 = (s.directive name v e.loc).2 ∨
      ∃ n, (s.placeOther e).2 = (s.directive name v e.loc).2.move e.stmt n e.loc := by
  rw [s.placeOther_of_directive h]
  cases (s.directive name v e.loc).1 with
  | none => exact .inl rfl
  | some n => exact .inr ⟨n, rfl⟩

theorem table_move (s : State) (stmt : Statement) (n : Int64) (loc : Location) :
    (s.move stmt n loc).table = s.table := by
  unfold move
  split
  · exact table_checkRange _ _
  · exact table_checkRange _ _
  · exact table_alignTo _ _ _
  · rfl

theorem placeOther_settles (s : State) (e : Element) (h : ∀ v, e.stmt ≠ .equ v) :
    s.table.Settles (s.placeOther e).2.table := by
  cases hdir : directive? e.stmt with
  | some p =>
    have hs := s.early_settles s.scopes.current p.2
    rw [← table_directive s p.1 p.2 e.loc] at hs
    rcases s.placeOther_directive hdir with hr | ⟨n, hr⟩
    · rw [hr]
      exact hs
    · rw [hr, table_move]
      exact hs
  | none =>
    unfold placeOther
    cases hs : e.stmt with
    | equ v => exact (h v hs).elim
    | org | phase | align =>
      rw [hs] at hdir
      cases hdir
    | bytes t => exact placeTemplate_settles _ t e.loc
    | _ => exact .refl _

theorem scopes_checkRange (s : State) (loc : Location) :
    (s.checkRange loc).scopes = s.scopes := by
  unfold checkRange
  split <;> rfl

theorem scopes_move (s : State) (stmt : Statement) (n : Int64) (loc : Location) :
    (s.move stmt n loc).scopes = s.scopes := by
  unfold move alignTo
  split
  · exact scopes_checkRange _ _
  · exact scopes_checkRange _ _
  · split
    · rfl
    · exact scopes_checkRange _ _
  · rfl

theorem scopes_directive (s : State) (name : String) (v : Value) (loc : Location) :
    (s.directive name v loc).2.scopes = s.scopes := by
  unfold directive
  split
  dsimp only
  split <;> rfl

theorem scopes_placeOther (s : State) (e : Element) :
    (s.placeOther e).2.scopes = s.scopes.after e.stmt := by
  cases hdir : directive? e.stmt with
  | some p =>
    have hafter : s.scopes.after e.stmt = s.scopes := by
      cases hs : e.stmt with
      | org | phase | align => rfl
      | _ =>
        rw [hs] at hdir
        cases hdir
    rw [hafter, ← s.scopes_directive p.1 p.2 e.loc]
    rcases s.placeOther_directive hdir with hr | ⟨n, hr⟩
    · rw [hr]
    · rw [hr, scopes_move]
  | none =>
    unfold placeOther
    cases hs : e.stmt with
    | equ v =>
      dsimp only
      unfold bind
      split <;> rfl
    | org | phase | align =>
      rw [hs] at hdir
      cases hdir
    | bytes t => exact scopes_checkRange _ e.loc
    | _ => rfl

/-- The symbols without the values of labels that a binding may still change. -/
def settled (s : State) : SymbolTable := s.pending.foldl (fun t q => t.set q .unresolved) s.table

/-- The labels to come have distinct symbols without a value, and those directly before are declared
and not among them. -/
structure Ready (s : State) (symbols : List String) : Prop where
  bare : Declarations.Bare s.table symbols
  declared : ∀ q ∈ s.pending, q ∈ s.table.names
  passed : ∀ q ∈ s.pending, q ∉ symbols

theorem settled_grows (h : Ready s symbols) : s.settled.Grows s.table := by
  refine ⟨(SymbolTable.outline_foldl_set h.declared _).symm, fun name v hv => ?_⟩
  unfold settled at hv
  by_cases hp : name ∈ s.pending
  · rw [SymbolTable.get?_foldl_set_of_mem _ _ hp] at hv
    cases hv
    exact .inr (.inl rfl)
  · rw [SymbolTable.get?_foldl_set_of_not_mem _ _ hp] at hv
    exact .inl hv

theorem settled_of_not_pending {s : State} (h : s.pending = []) : s.settled = s.table := by
  rw [settled, h]
  rfl

theorem get?_settled {s : State} (hp : name ∉ s.pending) :
    s.settled.get? name = s.table.get? name :=
  SymbolTable.get?_foldl_set_of_not_mem _ _ hp

section
variable {s : State} {l : Label}

theorem table_placeLabel (h : Ready s (l.symbol :: symbols))
    (hl : (if l.symbol.isEmpty then l.name else l.symbol) = l.symbol) :
    (s.placeLabel l).2.table = s.table.set l.symbol (.number s.address) := by
  unfold placeLabel
  simp only [hl, h.bare.unresolved l.symbol List.mem_cons_self]
  rfl

theorem pending_placeLabel (hl : (if l.symbol.isEmpty then l.name else l.symbol) = l.symbol) :
    (s.placeLabel l).2.pending = s.pending ++ [l.symbol] := by
  unfold placeLabel
  simp only [hl]

theorem mem_names_of_ready (h : Ready s (l.symbol :: symbols)) : l.symbol ∈ s.table.names :=
  SymbolTable.mem_names_of_get? (h.bare.unresolved l.symbol List.mem_cons_self)

theorem placeLabel_ready (h : Ready s (l.symbol :: symbols))
    (hl : (if l.symbol.isEmpty then l.name else l.symbol) = l.symbol) :
    Ready (s.placeLabel l).2 symbols := by
  have hn := mem_names_of_ready h
  have hnodup := List.nodup_cons.1 h.bare.nodup
  constructor
  · refine ⟨hnodup.2, fun q hmem => ?_⟩
    have hne : q ≠ l.symbol := fun he => hnodup.1 (he ▸ hmem)
    rw [table_placeLabel h hl, SymbolTable.get?_set_of_ne hn hne]
    exact h.bare.unresolved q (List.mem_cons_of_mem _ hmem)
  · intro q hmem
    rw [table_placeLabel h hl, SymbolTable.names_congr (SymbolTable.outline_set hn _)]
    rw [pending_placeLabel hl] at hmem
    rcases List.mem_append.1 hmem with hmem | hmem
    · exact h.declared q hmem
    · exact List.mem_singleton.1 hmem ▸ hn
  · intro q hmem
    rw [pending_placeLabel hl] at hmem
    rcases List.mem_append.1 hmem with hmem | hmem
    · exact fun hs => h.passed q hmem (List.mem_cons_of_mem _ hs)
    · exact List.mem_singleton.1 hmem ▸ hnodup.1

theorem placeLabel_grows (h : Ready s (l.symbol :: symbols))
    (hl : (if l.symbol.isEmpty then l.name else l.symbol) = l.symbol) :
    s.settled.Grows (s.placeLabel l).2.settled := by
  have hn := mem_names_of_ready h
  have hready := placeLabel_ready h hl
  refine ⟨?_, fun name v hv => ?_⟩
  · rw [settled, SymbolTable.outline_foldl_set hready.declared, table_placeLabel h hl,
      SymbolTable.outline_set hn, settled, SymbolTable.outline_foldl_set h.declared]
  · by_cases hp : name ∈ s.pending
    · rw [settled, SymbolTable.get?_foldl_set_of_mem _ _ hp] at hv
      cases hv
      exact .inr (.inl rfl)
    · rw [get?_settled hp] at hv
      by_cases he : name = l.symbol
      -- the label has no value yet, so it may take its address
      · rw [he, h.bare.unresolved l.symbol List.mem_cons_self] at hv
        cases hv
        exact .inr (.inl rfl)
      · left
        have hp' : name ∉ (s.placeLabel l).2.pending := by
          rw [pending_placeLabel hl, List.mem_append, List.mem_singleton]
          exact not_or.2 ⟨hp, he⟩
        rw [get?_settled hp', table_placeLabel h hl, SymbolTable.get?_set_of_ne hn he]
        exact hv

end

theorem bind_ready {s : State} (h : Ready s symbols) (v : Value) (loc : Location) :
    Declarations.Bare (s.bind v loc).table symbols ∧ s.settled.Grows (s.bind v loc).table := by
  unfold bind
  split
  · rename_i he
    rw [settled_of_not_pending (List.isEmpty_iff.1 he)]
    exact ⟨h.bare, .refl _⟩
  · dsimp only
    generalize (if (v.withScope s.scopes.current).uses "$" = true then
      { v.withScope s.scopes.current with here? := some s.address }
      else v.withScope s.scopes.current) = v
    constructor
    · apply h.bare.congr
      intro q hq
      exact SymbolTable.get?_foldl_set_of_not_mem _ v fun hp => h.passed q hp hq
    · refine ⟨?_, fun name w hw => ?_⟩
      · rw [settled, SymbolTable.outline_foldl_set h.declared,
          SymbolTable.outline_foldl_set h.declared]
      · by_cases hp : name ∈ s.pending
        · rw [settled, SymbolTable.get?_foldl_set_of_mem _ _ hp] at hw
          cases hw
          exact .inr (.inl rfl)
        · rw [get?_settled hp] at hw
          exact .inl ((SymbolTable.get?_foldl_set_of_not_mem _ v hp).trans hw)

def Evaluates (e : Element) : Prop := (∀ l, e.stmt ≠ .label l) ∧ ∀ v, e.stmt ≠ .equ v

theorem step_of_not_label (s : State) (h : ∀ l, e.stmt ≠ .label l) :
    s.step e = ((s.placeOther e).1, { (s.placeOther e).2 with pending := [] }) := by
  unfold step
  split
  · rename_i l hl
    exact (h l hl).elim
  · rfl

theorem scopes_step (s : State) (e : Element) : (s.step e).2.scopes = s.scopes.after e.stmt := by
  by_cases hl : ∃ l, e.stmt = .label l
  · obtain ⟨l, hl⟩ := hl
    obtain ⟨loc, stmt⟩ := e
    cases hl
    rfl
  · rw [step_of_not_label s fun l h => hl ⟨l, h⟩]
    exact s.scopes_placeOther e

theorem step_settles (s : State) (h : Evaluates e) : s.table.Settles (s.step e).2.settled := by
  rw [step_of_not_label s h.1]
  exact s.placeOther_settles e h.2

theorem Ready.of_not_pending {s : State} (h : s.pending = [])
    (hb : Declarations.Bare s.table symbols) : Ready s symbols := by
  have hn (q : String) : q ∉ s.pending := by
    rw [h]
    exact List.not_mem_nil
  exact ⟨hb, fun q hq => (hn q hq).elim, fun q hq => (hn q hq).elim⟩

theorem step_leads_of_evaluates {s : State} (h : Ready s symbols) (he : Evaluates e) :
    Ready (s.step e).2 symbols ∧ s.settled.Leads (s.step e).2.settled := by
  have hset := s.step_settles he
  have hpending : (s.step e).2.pending = [] := by
    rw [step_of_not_label s he.1]
  refine ⟨.of_not_pending hpending ?_, (settled_grows h).leads.trans hset.grows.leads⟩
  rw [settled_of_not_pending hpending] at hset
  refine ⟨h.bare.nodup, fun q hq => ?_⟩
  rcases hset.value q _ (h.bare.unresolved q hq) with hq' | ⟨hd, -⟩
  · exact hq'
  · cases hd

/-- Every step leaves the labels to come without values, and keeps what is settled. -/
theorem step_leads {s : State} (h : Ready s (Declarations.labelSymbols (e :: es)))
    (he : Declarations.Named e) :
    Ready (s.step e).2 (Declarations.labelSymbols es) ∧
      s.settled.Leads (s.step e).2.settled := by
  rw [Declarations.labelSymbols_cons] at h
  by_cases hl : ∃ l, e.stmt = .label l
  · obtain ⟨l, hl⟩ := hl
    have hs : s.step e = (.label (s.placeLabel l).1, (s.placeLabel l).2) := by
      obtain ⟨loc, stmt⟩ := e
      cases hl
      rfl
    rw [Declarations.labelSymbols_label hl] at h
    rw [hs]
    exact ⟨placeLabel_ready h (he l hl), (placeLabel_grows h (he l hl)).leads⟩
  · have hl' : ∀ l, e.stmt ≠ .label l := fun l hl' => hl ⟨l, hl'⟩
    rw [Declarations.labelSymbols_of_not_label hl', List.nil_append] at h
    by_cases hv : ∃ v, e.stmt = .equ v
    · obtain ⟨v, hv⟩ := hv
      let s' : State := { s with scopes := s.scopes.after e.stmt }
      have hs : s.step e = (.equ v, { s'.bind v e.loc with pending := [] }) := by
        obtain ⟨loc, stmt⟩ := e
        cases hv
        rfl
      have hr : Ready s' (Declarations.labelSymbols es) := ⟨h.bare, h.declared, h.passed⟩
      obtain ⟨hb, hg⟩ := bind_ready hr v e.loc
      rw [hs]
      exact ⟨.of_not_pending rfl hb, hg.leads⟩
    · exact step_leads_of_evaluates h ⟨hl', fun v hv' => hv ⟨v, hv'⟩⟩

theorem thread_leads {s : State} (h : Ready s (Declarations.labelSymbols (es ++ es')))
    (he : ∀ e ∈ es, Declarations.Named e) :
    Ready (Program.thread step s es).2 (Declarations.labelSymbols es') ∧
      s.settled.Leads (Program.thread step s es).2.settled := by
  induction es generalizing s with
  | nil => exact ⟨h, (SymbolTable.Grows.refl _).leads⟩
  | cons e es ih =>
    obtain ⟨hr, hl⟩ := step_leads h (he e List.mem_cons_self)
    obtain ⟨hr', hl'⟩ := ih hr fun a ha => he a (List.mem_cons_of_mem e ha)
    exact ⟨hr', hl.trans hl'⟩

end State
end Z80Asm.Layout
