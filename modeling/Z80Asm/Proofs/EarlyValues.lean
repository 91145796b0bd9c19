import Z80Asm.Proofs.Placement

/-! The values that layout uses while it places elements are those that the same operands have in
the end. -/

namespace Z80Asm.Layout
set_option autoImplicit true

namespace State

theorem step_alike (s : State) (e : Element) : Program.Alike e.stmt (s.step e).1 := by
  obtain ⟨loc, stmt⟩ := e
  cases stmt with
  | label l => exact .label l _
  | bytes t => exact .bytes t _
  | org | phase | align =>
    unfold step placeOther
    dsimp only
    split <;> exact .refl _
  | _ => exact .refl _

theorem step_inert : Program.Inert step := Program.inert_of_alike step_alike

theorem step_bytes (s : State) (loc : Location) (t : Template) :
    s.step ⟨loc, .bytes t⟩ =
      (.bytes (s.placeTemplate t loc).1, { (s.placeTemplate t loc).2 with pending := [] }) := rfl

theorem bytes_of_step {s : State} {e : Element} (h : (s.step e).1 = .bytes tm) :
    ∃ t, e.stmt = .bytes t ∧ tm = (s.placeTemplate t e.loc).1 := by
  have halike := s.step_alike e
  obtain ⟨loc, stmt⟩ := e
  cases stmt with
  | bytes t =>
    rw [step_bytes] at h
    exact ⟨t, rfl, (Statement.bytes.inj h).symm⟩
  | _ =>
    rw [h] at halike
    cases halike

/-- The state after the given elements, which lie in no macro definition. -/
def through (t : SymbolTable) (es : List Element) : State :=
  (Program.thread step { table := t } es).2

theorem through_append (t : SymbolTable) (es es' : List Element) :
    through t (es ++ es') = (Program.thread step (through t es) es').2 := by
  unfold through
  rw [Program.thread_append]

theorem checkRange_reports (s : State) (table : SymbolTable) (address out : Int64)
    (loc : Location) :
    Adds s.diagnostics ({ s with table, address, out }.checkRange loc).diagnostics := by
  unfold checkRange
  split
  · exact .report _ rfl _
  · exact .refl _

theorem alignTo_reports (s : State) (n : Int64) (loc : Location) :
    Adds s.diagnostics (s.alignTo n loc).diagnostics := by
  unfold alignTo
  split
  · exact .report _ rfl _
  · exact s.checkRange_reports _ _ _ loc

theorem bind_reports (s : State) (v : Value) (loc : Location) :
    Adds s.diagnostics (s.bind v loc).diagnostics := by
  unfold bind
  split
  · exact .report _ rfl _
  · exact .refl _

theorem directive_cases (s : State) (name : String) (v : Value) (loc : Location) :
    (∃ d n, s.table.operand v s.scopes.current s.address = .ok d ∧ d.asNumber none = .ok n ∧
        (s.directive name v loc).1 = some n ∧
        (s.directive name v loc).2.diagnostics = s.diagnostics) ∨
      ∃ e, (s.directive name v loc).1 = none ∧
        (s.directive name v loc).2.diagnostics =
          s.diagnostics ++ [⟨.unresolvable name e, loc⟩] := by
  have hr : s.table.operand v s.scopes.current s.address = (s.early s.scopes.current v).1 := rfl
  rw [hr]
  unfold directive early
  generalize (Resolve.value v s.scopes.current s.address).run.run ⟨s.table, []⟩ = r
  obtain ⟨r, memo⟩ := r
  dsimp only
  cases h : r >>= Datum.asNumber none with
  | error e => exact .inr ⟨e, rfl, rfl⟩
  | ok n =>
    obtain ⟨d, hd, hn⟩ := Except.bind_eq_ok.1 h
    exact .inl ⟨d, n, hd, hn, rfl, rfl⟩

theorem directive_reports (s : State) (name : String) (v : Value) (loc : Location) :
    Adds s.diagnostics (s.directive name v loc).2.diagnostics := by
  rcases s.directive_cases name v loc with ⟨_, _, -, -, -, h⟩ | ⟨e, -, h⟩
  · rw [h]
    exact .refl _
  · rw [h]
    exact .report _ rfl _

theorem move_reports (s : State) (stmt : Statement) (n : Int64) (loc : Location) :
    Adds s.diagnostics (s.move stmt n loc).diagnostics := by
  unfold move
  split
  · exact s.checkRange_reports _ _ _ loc
  · exact s.checkRange_reports _ _ _ loc
  · exact s.alignTo_reports n loc
  · exact .refl _

theorem placeTemplate_reports (s : State) (t : Template) (loc : Location) :
    Adds s.diagnostics (s.placeTemplate t loc).2.diagnostics := by
  unfold placeTemplate
  exact s.checkRange_reports _ _ _ loc

theorem evaluates_of_directive (h : directive? e.stmt = some p) : Evaluates e := by
  constructor
  · intro l hl
    rw [hl] at h
    cases h
  · intro v hv
    rw [hv] at h
    cases h

theorem step_directive_reports (s : State) (h : directive? e.stmt = some (name, v)) :
    Adds (s.directive name v e.loc).2.diagnostics (s.step e).2.diagnostics := by
  rw [step_of_not_label s (evaluates_of_directive h).1]
  dsimp only
  rcases s.placeOther_directive h with hr | ⟨n, hr⟩
  · rw [hr]
    exact .refl _
  · rw [hr]
    exact move_reports _ _ n _

theorem step_reports (s : State) (e : Element) : Adds s.diagnostics (s.step e).2.diagnostics := by
  cases hd : directive? e.stmt with
  | some p => exact (s.directive_reports p.1 p.2 e.loc).trans (s.step_directive_reports hd)
  | none =>
    obtain ⟨loc, stmt⟩ := e
    cases stmt with
    | org | phase | align => cases hd
    | equ v => exact bind_reports { s with scopes := _ } v loc
    | bytes t => exact placeTemplate_reports { s with scopes := _ } t loc
    | _ => exact .refl _

theorem thread_reports (s : State) (es : List Element) :
    Adds s.diagnostics (Program.thread step s es).2.diagnostics :=
  Program.thread_induction (P := fun s' : State => Adds s.diagnostics s'.diagnostics)
    (fun s' e h => h.trans (s'.step_reports e)) (.refl _) es

end State

theorem assign_table (es : List Element) (t : SymbolTable) :
    (assign es t).table = (State.through t (Program.outside es)).table :=
  congrArg State.table (Program.update_snd State.step_inert { table := t } es)

theorem assign_diagnostics (es : List Element) (t : SymbolTable) :
    (assign es t).diagnostics = (State.through t (Program.outside es)).diagnostics :=
  congrArg State.diagnostics (Program.update_snd State.step_inert { table := t } es)

theorem outside_assign (es : List Element) (t : SymbolTable) :
    Program.outside (assign es t).program =
      (Program.thread State.step { table := t } (Program.outside es)).1 :=
  Program.outside_update State.step_inert { table := t } es

/-- The symbols once all elements are placed and all expressions evaluated. -/
def finalTable (declared : Declarations.Result) : SymbolTable :=
  (assign declared.program declared.table).table.evaluate.1

section
variable {es pre post : List Element}

/-- At every place in a program without declaration problems, the labels to come have no values. -/
theorem ready_through (hc : (Declarations.collect es).diagnostics = [])
    (hpos : Program.outside (Declarations.collect es).program = pre ++ post) :
    (State.through (Declarations.collect es).table pre).Ready
      (Declarations.labelSymbols post) := by
  have hb := Declarations.bare_collect hc
  rw [hpos] at hb
  refine (State.thread_leads (.of_not_pending rfl hb) fun e he => ?_).1
  apply Declarations.named_collect
  rw [hpos]
  exact List.mem_append_left post he

theorem settled_leads (hc : (Declarations.collect es).diagnostics = [])
    (hpos : Program.outside (Declarations.collect es).program = pre ++ (mid ++ post)) :
    (State.through (Declarations.collect es).table pre).settled.Leads
      (State.through (Declarations.collect es).table (pre ++ mid)).settled := by
  rw [State.through_append]
  refine (State.thread_leads (ready_through hc hpos) fun e he => ?_).2
  apply Declarations.named_collect
  rw [hpos]
  exact List.mem_append_right pre (List.mem_append_left post he)

theorem settled_leads_final (hc : (Declarations.collect es).diagnostics = [])
    (hpos : Program.outside (Declarations.collect es).program = pre ++ post) :
    (State.through (Declarations.collect es).table pre).settled.Leads
      (finalTable (Declarations.collect es)) := by
  rw [← List.append_nil post] at hpos
  have hend := ready_through hc ((List.append_assoc pre post []).symm ▸ hpos)
  have hassign : (assign (Declarations.collect es).program (Declarations.collect es).table).table =
      (State.through (Declarations.collect es).table (pre ++ post)).table := by
    rw [assign_table, hpos, List.append_nil]
  unfold finalTable
  rw [hassign]
  exact ((settled_leads hc hpos).trans (State.settled_grows hend).leads).trans
    (SymbolTable.settles_evaluate _).grows.leads

theorem ready_declared (hc : (Declarations.collect es).diagnostics = []) :
    State.Ready { table := (Declarations.collect es).table }
      (Declarations.labelSymbols (Program.outside (Declarations.collect es).program)) :=
  ready_through hc (List.nil_append _).symm

theorem declared_leads_final (hc : (Declarations.collect es).diagnostics = []) :
    (Declarations.collect es).table.Leads (finalTable (Declarations.collect es)) :=
  settled_leads_final hc (List.nil_append _).symm

/-- An operand that has a value when an element is placed has that value in the end. -/
theorem operand_final (hc : (Declarations.collect es).diagnostics = [])
    (hpos : Program.outside (Declarations.collect es).program = pre ++ e :: post)
    (he : State.Evaluates e)
    (hd : (State.through (Declarations.collect es).table pre).table.operand v scope here = .ok d) :
    (finalTable (Declarations.collect es)).operand v scope here = .ok d := by
  rw [List.append_cons] at hpos
  have hstep := (State.through (Declarations.collect es).table pre).step_settles he
  have hfinal := settled_leads_final hc hpos
  rw [State.through_append] at hfinal
  exact (hstep.grows.leads.trans hfinal).operand hd

theorem State.settled_step (s : State) (he : Evaluates e) :
    (s.step e).2.settled = (s.step e).2.table :=
  settled_of_not_pending (by rw [step_of_not_label s he.1])

/-- What placing an element writes back is a value that the symbol denotes. -/
theorem State.written_back (s : State) (he : Evaluates e)
    (hv : (s.step e).2.table.get? name = some v) (hne : s.table.get? name ≠ some v) :
    ∃ d, v = .ofDatum d := by
  have hs := s.step_settles he
  rw [s.settled_step he] at hs
  rcases hs.get?_cases hv with hv₀ | ⟨d, -, hd⟩
  · exact (hne hv₀).elim
  · exact ⟨d, hd⟩

theorem written_back_final (hc : (Declarations.collect es).diagnostics = [])
    (hpos : Program.outside (Declarations.collect es).program = pre ++ e :: post)
    (he : State.Evaluates e)
    (hv : ((State.through (Declarations.collect es).table pre).step e).2.table.get? name = some v)
    (hne : (State.through (Declarations.collect es).table pre).table.get? name ≠ some v) :
    (finalTable (Declarations.collect es)).get? name = some v ∧
      ∀ later, later <+: post →
        (State.through (Declarations.collect es).table (pre ++ e :: later)).table.get? name =
          some v := by
  obtain ⟨d, rfl⟩ := State.written_back _ he hv hne
  have hd := Value.datum?_ofDatum d
  rw [← State.settled_step _ he] at hv
  rw [List.append_cons] at hpos
  have hstep : (State.through (Declarations.collect es).table (pre ++ [e])).settled.get? name =
      some (.ofDatum d) := by
    rw [State.through_append]
    exact hv
  constructor
  · exact (settled_leads_final hc hpos).keeps name _ d hstep hd
  · rintro later ⟨rest, rfl⟩
    have hready := ready_through hc ((List.append_assoc (pre ++ [e]) later rest).symm ▸ hpos)
    rw [List.append_cons]
    exact (State.settled_grows hready).get?_of_known
      ((settled_leads hc hpos).keeps name _ d hstep hd) hd

theorem quiet_step (ha : (assign es t).diagnostics = [])
    (hpos : Program.outside es = pre ++ e :: post) :
    ((State.through t pre).step e).2.diagnostics = [] := by
  rw [assign_diagnostics, hpos, State.through_append] at ha
  exact (State.thread_reports ((State.through t pre).step e).2 post).quiet ha

theorem State.directive_of_quiet (s : State) (h : directive? e.stmt = some (name, v))
    (hq : (s.step e).2.diagnostics = []) :
    ∃ d n, s.table.operand v s.scopes.current s.address = .ok d ∧ d.asNumber none = .ok n ∧
      (s.directive name v e.loc).1 = some n := by
  rcases s.directive_cases name v e.loc with ⟨d, n, hd, hn, hr, -⟩ | ⟨err, -, hds⟩
  · exact ⟨d, n, hd, hn, hr⟩
  · have hp := (s.step_directive_reports h).quiet hq
    rw [hds] at hp
    exact (List.cons_ne_nil _ _ (List.append_eq_nil_iff.1 hp).2).elim

theorem State.evaluates_of_bytes (h : e.stmt = .bytes t) : Evaluates e := by
  constructor
  · intro l hl
    rw [hl] at h
    cases h
  · intro v hv
    rw [hv] at h
    cases h

/-- In a program without problems, the operands of directives and the texts that layout splices have
the values that they have in the end, and the symbols written back for them are final. -/
theorem early_eq_final (hc : (Declarations.collect es).diagnostics = [])
    (ha : (assign (Declarations.collect es).program (Declarations.collect es).table).diagnostics =
      [])
    (hpos : Program.outside (Declarations.collect es).program = pre ++ e :: post) :
    let s := State.through (Declarations.collect es).table pre
    let final := finalTable (Declarations.collect es)
    (∀ name v, directive? e.stmt = some (name, v) →
      ∃ d n, s.table.operand v s.scopes.current s.address = .ok d ∧
        final.operand v s.scopes.current s.address = .ok d ∧
        d.asNumber none = .ok n ∧ (s.directive name v e.loc).1 = some n) ∧
    (∀ t, e.stmt = .bytes t →
      (∃ t', (s.step e).1 = .bytes t' ∧
        t'.slots = reserved (valueIn s.table s.scopes s.address) t.slots) ∧
      ∀ v d, s.table.operand v (s.scopes.scopeOf v) s.address = .ok d →
        final.operand v (s.scopes.scopeOf v) s.address = .ok d) ∧
    (State.Evaluates e → ∀ name v, (s.step e).2.table.get? name = some v →
      s.table.get? name ≠ some v →
      final.get? name = some v ∧
        ∀ later, later <+: post →
          (State.through (Declarations.collect es).table (pre ++ e :: later)).table.get? name =
            some v) := by
  refine ⟨fun name v hdir => ?_, fun t ht => ⟨?_, fun v d hd => ?_⟩, fun he name v => ?_⟩
  · obtain ⟨d, n, hd, hn, hr⟩ := State.directive_of_quiet _ hdir (quiet_step ha hpos)
    exact ⟨d, n, hd, operand_final hc hpos (State.evaluates_of_directive hdir) hd, hn, hr⟩
  · obtain ⟨loc, stmt⟩ := e
    cases ht
    exact ⟨_, rfl, State.slots_placeTemplate _ t loc⟩
  · exact operand_final hc hpos (State.evaluates_of_bytes ht) hd
  · exact written_back_final hc hpos he

def laterBase : List Element :=
  [⟨{}, .label { name := "start" }⟩, ⟨{}, .equ (.deferred "base+2" ["base"])⟩,
    ⟨{}, .label { name := "base" }⟩, ⟨{}, .equ (.number 256)⟩,
    ⟨{}, .org (.deferred "start" ["start"])⟩, ⟨{}, .label { name := "text" }⟩,
    ⟨{}, .equ (.text "abc")⟩, ⟨{}, .bytes ⟨[.expr (.deferred "text" ["text"])], 0, 0, false⟩⟩]

theorem assign_laterBase :
    let c := Declarations.collect laterBase
    c.diagnostics = [] ∧ (assign c.program c.table).diagnostics = [] ∧
      Program.outside c.program =
        [⟨{}, .label ⟨"start", false, "start"⟩⟩, ⟨{}, .equ (.deferred "base+2" ["base"])⟩,
          ⟨{}, .label ⟨"base", false, "base"⟩⟩, ⟨{}, .equ (.number 256)⟩] ++
        ⟨{}, .org (.deferred "start" ["start"])⟩ ::
        [⟨{}, .label ⟨"text", false, "text"⟩⟩, ⟨{}, .equ (.text "abc")⟩,
          ⟨{}, .bytes ⟨[.expr (.deferred "text" ["text"])], 0, 0, false⟩⟩] := by cbv

theorem start_laterBase :
    let s := State.through (Declarations.collect laterBase).table
      [⟨{}, .label ⟨"start", false, "start"⟩⟩, ⟨{}, .equ (.deferred "base+2" ["base"])⟩,
        ⟨{}, .label ⟨"base", false, "base"⟩⟩, ⟨{}, .equ (.number 256)⟩]
    s.table.get? "start" = some { content := .deferred "base+2" ["base"], scope? := some "" } ∧
      (s.step ⟨{}, .org (.deferred "start" ["start"])⟩).2.table.get? "start" =
        some (.number 258) ∧
      s.table.operand (.deferred "start" ["start"]) s.scopes.current s.address =
        .ok (.number 258) := by
  cbv
  exact ⟨rfl, rfl⟩

theorem early_eq_final_laterBase :
    (Declarations.collect laterBase).diagnostics = [] ∧
      (assign (Declarations.collect laterBase).program
        (Declarations.collect laterBase).table).diagnostics = [] ∧
      (finalTable (Declarations.collect laterBase)).get? "start" = some (.number 258) ∧
      (finalTable (Declarations.collect laterBase)).operand (.deferred "start" ["start"]) "" 0 =
        .ok (.number 258) := by
  obtain ⟨hc, ha, hpos⟩ := assign_laterBase
  obtain ⟨hbefore, hafter, hearly⟩ := start_laterBase
  obtain ⟨horg, -, hback⟩ := early_eq_final hc ha hpos
  have hevaluates : State.Evaluates ⟨{}, .org (.deferred "start" ["start"])⟩ := by
    constructor
    · intro l h
      cases h
    · intro v h
      cases h
  refine ⟨hc, ha, (hback hevaluates "start" _ hafter fun hsame => ?_).1, ?_⟩
  · cases hbefore.symm.trans hsame
  · obtain ⟨d, n, hd, hfinal, -⟩ := horg "ORG" _ rfl
    exact hfinal.trans (hd.symm.trans hearly)

end

end Z80Asm.Layout
