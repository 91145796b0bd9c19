import Z80Asm.Proofs.EarlyValues
import Z80Asm.Proofs.Parallel

/-! Layout by two tables side by side. All is placed alike if the tables hold tied values for the
names that can be reached from what is placed. -/

namespace Z80Asm
set_option autoImplicit true

def Value.Leads (U : String → Prop) (t : SymbolTable) (scope : String) (v : Value) : Prop :=
  ∀ x ∈ v.mentions, x ≠ "$" → ∀ r, t.resolve? scope x = some r → U r

theorem Value.Tied.refl {v : Value} (h : v.Leads U t (v.scope?.getD (Scope.ofName q))) :
    Tied U t q v v :=
  ⟨rfl, fun _ => rfl, fun _ => rfl, fun x hx hne => ⟨rfl, h x hx hne⟩⟩

theorem Memo.Parallel.restart (h : Parallel U b b' s s') :
    Parallel U b b' ⟨s.table, []⟩ ⟨s'.table, []⟩ :=
  ⟨h.outline, h.outline', rfl, h.value, h.rest⟩

namespace Layout

/-- What is evaluated when a statement is placed leads to symbols of `U` only. -/
def Confined (U : String → Prop) (t : SymbolTable) (scopes : ScopeStack) : Statement → Prop
  | .label l =>
    U (if l.symbol.isEmpty then l.name else l.symbol) ∧
      (if l.symbol.isEmpty then l.name else l.symbol) ∈ t.names
  | .equ v => v.Leads U t (scopes.scopeOf v)
  | .org v | .phase v | .align v => v.Leads U t scopes.current
  | .bytes tm => ∀ v, .expr v ∈ tm.slots → v.Leads U t (scopes.scopeOf v)
  | _ => True

section
variable {U : String → Prop} {b b' : SymbolTable}

theorem reserve_together {memo memo' : Memo} (h : Memo.Parallel U b b' memo memo')
    {scopes : ScopeStack} {slots : List Slot}
    (hslots : ∀ v, .expr v ∈ slots → v.Leads U b (scopes.scopeOf v)) (address : Int64)
    (done : Array Slot) :
    (reserve scopes address memo' done slots).1 = (reserve scopes address memo done slots).1 ∧
      Memo.Parallel U b b' (reserve scopes address memo done slots).2
        (reserve scopes address memo' done slots).2 := by
  induction slots generalizing memo memo' done with
  | nil => exact ⟨rfl, h⟩
  | cons slot rest ih =>
    have hrest : ∀ v, .expr v ∈ rest → v.Leads U b (scopes.scopeOf v) :=
      fun v hv => hslots v (List.mem_cons_of_mem slot hv)
    cases slot with
    | expr v =>
      rw [reserve, reserve]
      split
      · exact ih h hrest _
      · obtain ⟨hr, hR⟩ := Resolve.value_together v (scopes.scopeOf v) address
          (hslots v List.mem_cons_self) memo memo' h
        generalize (Resolve.value v (scopes.scopeOf v) address).run.run memo = r at hr hR ⊢
        generalize (Resolve.value v (scopes.scopeOf v) address).run.run memo' = r' at hr hR ⊢
        obtain ⟨r, m⟩ := r
        obtain ⟨r', m'⟩ := r'
        cases hr
        cases r with
        | error e => exact ih hR hrest _
        | ok d =>
          cases d with
          | number n => exact ih hR hrest _
          | text w =>
            dsimp only
            split
            · exact ih hR hrest _
            · exact ih hR hrest _
    | _ => exact ih h hrest _

end

namespace State

def withTable (s : State) (t : SymbolTable) : State := { s with table := t }

/-- The table of a state and another one hold tied values, and the labels directly before are among
the symbols of `U`. -/
structure Abreast (U : String → Prop) (b b' : SymbolTable) (s : State) (t : SymbolTable) :
    Prop where
  tables : Memo.Parallel U b b' ⟨s.table, []⟩ ⟨t, []⟩
  pending : ∀ q ∈ s.pending, U q ∧ q ∈ b.names

section
variable {U : String → Prop} {b b' t : SymbolTable} {s : State}

theorem checkRange_withTable (s : State) (t : SymbolTable) (loc : Location) :
    (s.withTable t).checkRange loc = (s.checkRange loc).withTable t := by
  unfold checkRange withTable
  dsimp only
  split
  · rfl
  · rfl

theorem alignTo_withTable (s : State) (t : SymbolTable) (n : Int64) (loc : Location) :
    (s.withTable t).alignTo n loc = (s.alignTo n loc).withTable t := by
  unfold alignTo
  split
  · rfl
  · exact checkRange_withTable { s with address := _, out := _ } t loc

theorem move_withTable (s : State) (t : SymbolTable) (stmt : Statement) (n : Int64)
    (loc : Location) : (s.withTable t).move stmt n loc = (s.move stmt n loc).withTable t := by
  cases stmt with
  | org => exact checkRange_withTable { s with address := n, out := n } t loc
  | phase => exact checkRange_withTable { s with address := n } t loc
  | align => exact alignTo_withTable s t n loc
  | _ => rfl

theorem directive_together (h : Memo.Parallel U b b' ⟨s.table, []⟩ ⟨t, []⟩)
    (hv : v.Leads U b s.scopes.current) (name : String) (loc : Location) :
    ∃ t₁, (s.withTable t).directive name v loc =
        ((s.directive name v loc).1, (s.directive name v loc).2.withTable t₁) ∧
      Memo.Parallel U b b' ⟨(s.directive name v loc).2.table, []⟩ ⟨t₁, []⟩ := by
  obtain ⟨hr, hR⟩ := Resolve.value_together v s.scopes.current s.address hv _ _ h
  unfold directive withTable
  generalize (Resolve.value v s.scopes.current s.address).run.run ⟨s.table, []⟩ = r at hr hR ⊢
  generalize (Resolve.value v s.scopes.current s.address).run.run ⟨t, []⟩ = r' at hr hR ⊢
  obtain ⟨r, m⟩ := r
  obtain ⟨r', m'⟩ := r'
  cases hr
  refine ⟨m'.table, ?_⟩
  dsimp only
  cases r >>= Datum.asNumber none with
  | error e => exact ⟨rfl, hR.restart⟩
  | ok n => exact ⟨rfl, hR.restart⟩

theorem placeTemplate_together (h : Memo.Parallel U b b' ⟨s.table, []⟩ ⟨t, []⟩)
    (hslots : ∀ v, .expr v ∈ tm.slots → v.Leads U b (s.scopes.scopeOf v)) (loc : Location) :
    ∃ t₁, (s.withTable t).placeTemplate tm loc =
        ((s.placeTemplate tm loc).1, (s.placeTemplate tm loc).2.withTable t₁) ∧
      Memo.Parallel U b b' ⟨(s.placeTemplate tm loc).2.table, []⟩ ⟨t₁, []⟩ := by
  by_cases hop : tm.hasOperand = true
  · obtain ⟨hr, hR⟩ := reserve_together h hslots s.address #[]
    refine ⟨(reserve s.scopes s.address ⟨t, []⟩ #[] tm.slots).2.table, ?_⟩
    unfold placeTemplate
    simp only [hop, ↓reduceIte, table_checkRange]
    refine ⟨?_, hR.restart⟩
    rw [← checkRange_withTable]
    unfold withTable
    dsimp only
    rw [hr]
  · refine ⟨t, ?_⟩
    unfold placeTemplate
    simp only [hop, Bool.false_eq_true, ↓reduceIte, table_checkRange]
    refine ⟨?_, h⟩
    rw [← checkRange_withTable]
    rfl

theorem foldl_set_together {qs : List String} (h : Memo.Parallel U b b' ⟨t, []⟩ ⟨t', []⟩)
    (hqs : ∀ q ∈ qs, U q ∧ q ∈ b.names) (hv : ∀ q, Value.Tied U b q v v) :
    Memo.Parallel U b b' ⟨qs.foldl (fun t q => t.set q v) t, []⟩
      ⟨qs.foldl (fun t q => t.set q v) t', []⟩ := by
  induction qs generalizing t t' with
  | nil => exact h
  | cons q qs ih =>
    obtain ⟨hU, hn⟩ := hqs q List.mem_cons_self
    exact ih (h.set hn hU (hv q)) fun p hp => hqs p (List.mem_cons_of_mem q hp)

def boundValue (scopes : ScopeStack) (address : Int64) (v : Value) : Value :=
  let v := v.withScope scopes.current
  if v.uses "$" then { v with here? := some address } else v

theorem content_boundValue (scopes : ScopeStack) (address : Int64) (v : Value) :
    (boundValue scopes address v).content = v.content := by
  have hwith : (v.withScope scopes.current).content = v.content := by
    unfold Value.withScope
    split
    · rfl
    · rfl
  unfold boundValue
  dsimp only
  split
  · exact hwith
  · exact hwith

theorem scope?_boundValue (scopes : ScopeStack) (address : Int64) {v : Value}
    (hd : v.isDeferred = true) :
    (boundValue scopes address v).scope? = some (scopes.scopeOf v) := by
  have hwith : (v.withScope scopes.current).scope? = some (scopes.scopeOf v) := by
    unfold Value.withScope ScopeStack.scopeOf
    rw [hd]
    cases hs : v.scope? with
    | none => rfl
    | some scope => exact hs
  unfold boundValue
  dsimp only
  split
  · exact hwith
  · exact hwith

theorem tied_boundValue {scopes : ScopeStack} (h : v.Leads U b (scopes.scopeOf v))
    (address : Int64) (q : String) :
    Value.Tied U b q (boundValue scopes address v) (boundValue scopes address v) := by
  have hmentions : (boundValue scopes address v).mentions = v.mentions := by
    unfold Value.mentions
    rw [content_boundValue]
  apply Value.Tied.refl
  intro x hx hne r hr
  rw [hmentions] at hx
  have hd : v.isDeferred = true := by
    by_contra hd
    rw [v.mentions_of_not_deferred (Bool.eq_false_of_not_eq_true hd)] at hx
    cases hx
  rw [scope?_boundValue scopes address hd, Option.getD_some] at hr
  exact h x hx hne r hr

theorem bind_together (h : Abreast U b b' s t) (hv : v.Leads U b (s.scopes.scopeOf v))
    (loc : Location) :
    ∃ t₁, (s.withTable t).bind v loc = (s.bind v loc).withTable t₁ ∧
      Memo.Parallel U b b' ⟨(s.bind v loc).table, []⟩ ⟨t₁, []⟩ := by
  cases hp : s.pending.isEmpty with
  | true =>
    refine ⟨t, ?_⟩
    unfold bind withTable
    simp only [hp, ↓reduceIte]
    exact ⟨rfl, h.tables⟩
  | false =>
    have hset := foldl_set_together h.tables h.pending (tied_boundValue hv s.address)
    refine ⟨s.pending.foldl (fun t q => t.set q (boundValue s.scopes s.address v)) t, ?_⟩
    unfold bind withTable
    simp only [hp, Bool.false_eq_true, ↓reduceIte]
    exact ⟨rfl, hset⟩

theorem placeLabel_together {scopes : ScopeStack} (h : Abreast U b b' s t)
    (hl : Confined U b scopes (.label l)) :
    ∃ t₁, (s.withTable t).placeLabel l = ((s.placeLabel l).1, (s.placeLabel l).2.withTable t₁) ∧
      Abreast U b b' (s.placeLabel l).2 t₁ := by
  obtain ⟨hU, hn⟩ := hl
  unfold placeLabel withTable
  generalize (if l.symbol.isEmpty = true then l.name else l.symbol) = symbol at hU hn ⊢
  dsimp only
  have hpending : ∀ q ∈ s.pending ++ [symbol], U q ∧ q ∈ b.names := by
    intro q hq
    rcases List.mem_append.1 hq with hq | hq
    · exact h.pending q hq
    · rw [List.mem_singleton.1 hq]
      exact ⟨hU, hn⟩
  have hnumber : Value.Tied U b symbol (.number s.address) (.number s.address) :=
    .of_not_deferred rfl
  have hset := h.tables.set hn hU hnumber
  obtain ⟨v, hv⟩ := SymbolTable.exists_get? (h.tables.names ▸ hn)
  obtain ⟨v', hv', htied⟩ := h.tables.value symbol hU v hv
  dsimp only at hv hv'
  rw [hv, hv']
  obtain ⟨content, scope?, here?⟩ := v
  obtain ⟨content', scope?', here?'⟩ := v'
  cases htied.content
  cases content with
  | unresolved => exact ⟨t.set symbol (.number s.address), rfl, hset, hpending⟩
  | _ => exact ⟨t, rfl, h.tables, hpending⟩

theorem placeOther_together (h : Abreast U b b' s t)
    (he : Confined U b (s.scopes.after e.stmt) e.stmt) :
    ∃ t₁, (s.withTable t).placeOther e =
        ((s.placeOther e).1, (s.placeOther e).2.withTable t₁) ∧
      Memo.Parallel U b b' ⟨(s.placeOther e).2.table, []⟩ ⟨t₁, []⟩ := by
  cases hdir : directive? e.stmt with
  | some p =>
    obtain ⟨name, v⟩ := p
    have hv : v.Leads U b s.scopes.current := by
      cases hs : e.stmt with
      | org | phase | align =>
        rw [hs] at hdir he
        cases hdir
        exact he
      | _ =>
        rw [hs] at hdir
        cases hdir
    obtain ⟨t₁, hr, hR⟩ := directive_together h.tables hv name e.loc
    refine ⟨t₁, ?_⟩
    rw [placeOther_of_directive _ hdir, placeOther_of_directive _ hdir, hr]
    dsimp only
    cases (s.directive name v e.loc).1 with
    | none => exact ⟨rfl, hR⟩
    | some n =>
      dsimp only [Option.elim]
      rw [move_withTable, table_move]
      exact ⟨rfl, hR⟩
  | none =>
    obtain ⟨loc, stmt⟩ := e
    cases stmt with
    | equ v =>
      obtain ⟨t₁, hr, hR⟩ := bind_together h he loc
      refine ⟨t₁, ?_, hR⟩
      change (_, (s.withTable t).bind v loc) = _
      rw [hr]
      rfl
    | bytes tm =>
      obtain ⟨t₁, hr, hR⟩ := placeTemplate_together h.tables he loc
      refine ⟨t₁, ?_, hR⟩
      change (Statement.bytes ((s.withTable t).placeTemplate tm loc).1,
        ((s.withTable t).placeTemplate tm loc).2) = _
      rw [hr]
      rfl
    | org | phase | align => cases hdir
    | _ => exact ⟨t, rfl, h.tables⟩

theorem Abreast.step (h : Abreast U b b' s t)
    (he : Confined U b (s.scopes.after e.stmt) e.stmt) :
    ∃ t₁, (s.withTable t).step e = ((s.step e).1, (s.step e).2.withTable t₁) ∧
      Abreast U b b' (s.step e).2 t₁ := by
  by_cases hl : ∃ l, e.stmt = .label l
  · obtain ⟨l, hl⟩ := hl
    obtain ⟨loc, stmt⟩ := e
    cases hl
    obtain ⟨t₁, hr, hR⟩ := placeLabel_together h he
    refine ⟨t₁, ?_, hR⟩
    change (Statement.label ((s.withTable t).placeLabel l).1, ((s.withTable t).placeLabel l).2) = _
    rw [hr]
    rfl
  · have hnot : ∀ l, e.stmt ≠ .label l := fun l h => hl ⟨l, h⟩
    obtain ⟨t₁, hr, hR⟩ := placeOther_together h he
    refine ⟨t₁, ?_⟩
    rw [step_of_not_label _ hnot, step_of_not_label _ hnot, hr]
    exact ⟨rfl, hR, fun q hq => nomatch hq⟩

/-- Elements are placed alike if each of them is, in any scopes `C` that those before it lead to. -/
theorem Abreast.thread {C : ScopeStack → Prop} (h : Abreast U b b' s t) (hs : C s.scopes)
    (hes : ∀ e ∈ es, ∀ scopes, C scopes →
      C (scopes.after e.stmt) ∧ Confined U b (scopes.after e.stmt) e.stmt) :
    ∃ t₁, Program.thread State.step (s.withTable t) es =
        ((Program.thread State.step s es).1, (Program.thread State.step s es).2.withTable t₁) ∧
      Abreast U b b' (Program.thread State.step s es).2 t₁ := by
  induction es generalizing s t with
  | nil => exact ⟨t, rfl, h⟩
  | cons e es ih =>
    obtain ⟨hC, he⟩ := hes e List.mem_cons_self s.scopes hs
    obtain ⟨t₁, hstep, h₁⟩ := h.step he
    rw [← scopes_step] at hC
    obtain ⟨t₂, hrest, h₂⟩ := ih h₁ hC fun a ha => hes a (List.mem_cons_of_mem e ha)
    refine ⟨t₂, ?_, h₂⟩
    rw [Program.thread, hstep, hrest]
    rfl

end
end State
end Layout
end Z80Asm
