import Z80Asm.Declarations
import Z80Asm.Proofs.Reports
import Z80Asm.Proofs.Symbols
import Z80Asm.Proofs.Traversal

/-! What a program without declaration problems declares: every label has a symbol of its own, and
the symbol has no value yet. -/

namespace Z80Asm.Declarations
set_option autoImplicit true

/-- From `s` to `s'` names have only been added and problems only reported. -/
structure Progress (s s' : State) : Prop where
  keeps : ∀ q v, s.table.get? q = some v → s'.table.get? q = some v
  reports : Adds s.diagnostics s'.diagnostics

theorem Progress.of_same {s s' : State} (ht : s'.table = s.table)
    (hd : s'.diagnostics = s.diagnostics) : Progress s s' :=
  ⟨fun _ _ h => ht ▸ h, hd ▸ .refl _⟩

theorem Progress.trans (h : Progress s s') (h' : Progress s' s'') : Progress s s'' :=
  ⟨fun q v hq => h'.keeps q v (h.keeps q v hq), h.reports.trans h'.reports⟩

namespace State

theorem report_progress (s : State) (hp : p.aboutCall = false) (loc : Location) :
    Progress s (s.report p loc) :=
  ⟨fun _ _ h => h, .report _ hp loc⟩

theorem declare_progress (s : State) (name : String) (v : Value) (loc : Location)
    (ht : taken.aboutCall = false) : Progress s (s.declare name v loc taken) := by
  unfold declare
  cases h : s.table.declare? name v loc with
  | none => exact s.report_progress ht loc
  | some t => exact ⟨fun _ _ => SymbolTable.get?_declare? h, .refl _⟩

theorem bind_progress (s : State) (c : MacroCall) (caller scope : String) (loc : Location)
    (params : List String) (args : List Value) :
    Progress s (s.bind c caller scope loc params args) := by
  induction params generalizing s args with
  | nil => exact .of_same rfl rfl
  | cons param params ih =>
    unfold bind
    exact (s.declare_progress _ _ _ rfl).trans (ih _ _)

theorem enterCall_progress (s : State) (c : MacroCall) (loc : Location) :
    Progress s (s.enterCall c loc).2 := by
  have henter : Progress s (s.enter true loc).2 := .of_same rfl rfl
  have hbind := henter.trans
    (bind_progress _ c s.scope (s.enter true loc).1 loc c.params c.args)
  unfold enterCall
  dsimp only
  split
  · exact hbind.trans (report_progress _ rfl _)
  · exact hbind

theorem leave_progress (s : State) (isCall : Bool) (loc : Location) :
    Progress s (s.leave isCall loc).2 := by
  unfold leave
  split
  · exact s.report_progress (by cases isCall <;> rfl) loc
  · rename_i frame outer hstack
    have houter : Progress s { s with stack := outer } := .of_same rfl rfl
    dsimp only
    split
    · exact houter
    · exact houter.trans (report_progress _ rfl _)

theorem step_progress (s : State) (e : Element) : Progress s (s.step e).2 := by
  unfold step
  cases e.stmt with
  | block => exact .of_same rfl rfl
  | call c =>
    dsimp only
    split
    · exact s.enterCall_progress c e.loc
    · exact .of_same rfl rfl
  | endBlock => exact s.leave_progress false e.loc
  | endCall => exact s.leave_progress true e.loc
  | label l => exact s.declare_progress _ _ _ rfl
  | _ => exact .of_same rfl rfl

theorem finish_reports (s : State) : Adds s.diagnostics s.finish.diagnostics := by
  unfold finish
  generalize s.stack = frames
  induction frames generalizing s with
  | nil => exact .refl _
  | cons frame frames ih =>
    have hframe : (if frame.isCall then Problem.unclosedCall else .unclosedBlock).aboutCall =
        false := by
      cases frame.isCall <;> rfl
    exact (report_progress s hframe frame.loc).reports.trans (ih _)

theorem step_inert : Program.Inert step := by
  intro s e he
  unfold step
  cases hs : e.stmt with
  | call c =>
    dsimp only
    split <;> rfl
  | macroDef =>
    rw [hs] at he
    cases he
  | endMacro =>
    rw [hs] at he
    cases he
  | _ => rfl

end State

def labelSymbols (es : List Element) : List String :=
  es.filterMap fun e =>
    match e.stmt with
    | .label l => some l.symbol
    | _ => none

theorem labelSymbols_cons (e : Element) (es : List Element) :
    labelSymbols (e :: es) = labelSymbols [e] ++ labelSymbols es := by
  rw [labelSymbols, labelSymbols, labelSymbols, ← List.filterMap_append]
  rfl

theorem labelSymbols_label (h : e.stmt = .label l) : labelSymbols [e] = [l.symbol] := by
  rw [labelSymbols, List.filterMap_cons_some (by rw [h])]
  rfl

theorem labelSymbols_of_not_label (h : ∀ l, e.stmt ≠ .label l) : labelSymbols [e] = [] := by
  rw [labelSymbols, List.filterMap_cons_none]
  · rfl
  · split
    · rename_i l hl
      exact (h l hl).elim
    · rfl

/-- The symbols are distinct and declared without a value. -/
structure Bare (t : SymbolTable) (symbols : List String) : Prop where
  nodup : symbols.Nodup
  unresolved : ∀ q ∈ symbols, t.get? q = some .unresolved

theorem Bare.progress (h : Bare s.table symbols) (hp : Progress s s') : Bare s'.table symbols :=
  ⟨h.nodup, fun q hq => hp.keeps q _ (h.unresolved q hq)⟩

theorem Bare.congr (h : Bare t symbols) (ht : ∀ q ∈ symbols, t'.get? q = t.get? q) :
    Bare t' symbols :=
  ⟨h.nodup, fun q hq => (ht q hq).trans (h.unresolved q hq)⟩

theorem Bare.declareLabel {s : State} (h : Bare s.table symbols) (l : Label) (loc : Location)
    (hd : (s.declareLabel l loc).2.diagnostics = []) :
    Bare (s.declareLabel l loc).2.table (symbols ++ [(s.declareLabel l loc).1.symbol]) := by
  have htaken : (Problem.duplicateSymbol l.name
      (s.table.loc (s.declareLabel l loc).1.symbol)).aboutCall = false := rfl
  have hp := h.progress (s.declare_progress (s.declareLabel l loc).1.symbol .unresolved loc htaken)
  unfold State.declareLabel at hd hp ⊢
  dsimp only at hd hp ⊢
  generalize (if l.isPublic = true then l.name else s.scope ++ l.name) = symbol at hd hp ⊢
  unfold State.declare at hd hp ⊢
  cases ht : s.table.declare? symbol .unresolved loc with
  | none =>
    simp only [ht, State.report] at hd
    exact (List.cons_ne_nil _ _ (List.append_eq_nil_iff.1 hd).2).elim
  | some t =>
    simp only [ht] at hp ⊢
    have hn := (SymbolTable.declare?_eq_some ht).1
    constructor
    · rw [List.nodup_append]
      refine ⟨h.nodup, List.pairwise_singleton _ _, fun q hq q' hq' he => ?_⟩
      rw [he, List.mem_singleton.1 hq'] at hq
      exact hn (SymbolTable.mem_names_of_get? (h.unresolved symbol hq))
    · intro q hq
      rcases List.mem_append.1 hq with hq | hq
      · exact hp.unresolved q hq
      · rw [List.mem_singleton.1 hq]
        exact SymbolTable.get?_declare?_self ht

theorem State.step_not_label (s : State) (h : ∀ l, e.stmt ≠ .label l) (l : Label) :
    (s.step e).1 ≠ .label l := by
  unfold step
  cases hs : e.stmt with
  | label l => exact (h l hs).elim
  | call c =>
    dsimp only
    split <;> exact nofun
  | _ => exact nofun

theorem Bare.step {s : State} (h : Bare s.table symbols) (e : Element)
    (hd : (s.step e).2.diagnostics = []) :
    Bare (s.step e).2.table (symbols ++ labelSymbols [{ e with stmt := (s.step e).1 }]) := by
  by_cases hl : ∃ l, e.stmt = .label l
  · obtain ⟨l, hl⟩ := hl
    unfold State.step at hd ⊢
    rw [hl] at hd ⊢
    exact h.declareLabel l e.loc hd
  · have hl' := s.step_not_label fun l hl' => hl ⟨l, hl'⟩
    rw [labelSymbols_of_not_label hl', List.append_nil]
    exact h.progress (s.step_progress e)

theorem thread_progress (s : State) (es : List Element) :
    Progress s (Program.thread State.step s es).2 :=
  Program.thread_induction (P := Progress s) (fun s' e h => h.trans (s'.step_progress e))
    (.of_same rfl rfl) es

theorem Bare.thread {s : State} (h : Bare s.table symbols) (es : List Element)
    (hd : (Program.thread State.step s es).2.diagnostics = []) :
    Bare (Program.thread State.step s es).2.table
      (symbols ++ labelSymbols (Program.thread State.step s es).1) := by
  induction es generalizing s symbols with
  | nil => simpa only [Program.thread, labelSymbols, List.filterMap_nil, List.append_nil] using h
  | cons e es ih =>
    have hd' : (s.step e).2.diagnostics = [] :=
      (thread_progress (s.step e).2 es).reports.quiet hd
    have hrest := ih (h.step e hd') hd
    rw [List.append_assoc] at hrest
    rw [Program.thread, labelSymbols_cons]
    exact hrest

theorem outside_collect (es : List Element) :
    Program.outside (collect es).program =
      (Program.thread State.step {} (Program.outside es)).1 :=
  Program.outside_update State.step_inert {} es

theorem collect_table (es : List Element) :
    (collect es).table = (Program.thread State.step {} (Program.outside es)).2.table :=
  congrArg State.table (Program.update_snd State.step_inert {} es)

theorem collect_diagnostics (es : List Element) :
    (collect es).diagnostics =
      (Program.thread State.step {} (Program.outside es)).2.finish.diagnostics :=
  congrArg (fun s => s.finish.diagnostics) (Program.update_snd State.step_inert {} es)

/-- Without problems the labels of a program have distinct symbols, declared without a value. -/
theorem bare_collect {es : List Element} (h : (collect es).diagnostics = []) :
    Bare (collect es).table (labelSymbols (Program.outside (collect es).program)) := by
  have hd : (Program.thread State.step {} (Program.outside es)).2.diagnostics = [] := by
    rw [collect_diagnostics] at h
    exact (Program.thread State.step {} (Program.outside es)).2.finish_reports.quiet h
  rw [outside_collect, collect_table]
  have hb : Bare (State.table {}) [] := ⟨List.nodup_nil, fun _ h => nomatch h⟩
  exact hb.thread _ hd

/-- The label that an element is, if it is one, is known by its symbol. -/
def Named (e : Element) : Prop :=
  ∀ l, e.stmt = .label l → (if l.symbol.isEmpty then l.name else l.symbol) = l.symbol

theorem State.declareLabel_named (s : State) (l : Label) (loc : Location) :
    Named ⟨loc, .label (s.declareLabel l loc).1⟩ := by
  intro l' hl'
  cases hl'
  unfold declareLabel
  dsimp only
  by_cases hp : l.isPublic = true
  · simp only [hp, ↓reduceIte, ite_self]
  · simp only [hp, Bool.false_eq_true, ↓reduceIte]
    split
    · rename_i he
      obtain ⟨hs, hn⟩ := String.append_eq_empty_iff.1 (String.isEmpty_iff.1 he)
      rw [hs, hn]
      rfl
    · rfl

theorem named_thread (h : e ∈ (Program.thread State.step s es).1) : Named e := by
  obtain ⟨s, a, -, rfl⟩ := Program.mem_thread h
  by_cases hl : ∃ l, a.stmt = .label l
  · obtain ⟨l, hl⟩ := hl
    obtain ⟨loc, stmt⟩ := a
    cases hl
    exact s.declareLabel_named l loc
  · intro l hl'
    exact (s.step_not_label (fun l h => hl ⟨l, h⟩) l hl').elim

theorem named_collect {es : List Element} (h : e ∈ Program.outside (collect es).program) :
    Named e := by
  rw [outside_collect] at h
  exact named_thread h

end Z80Asm.Declarations
