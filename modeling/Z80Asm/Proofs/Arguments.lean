import Z80Asm.Proofs.LexicalScope

/-! The arguments of macro calls. A parameter has the value that its argument has in the scope
around the call, whatever names the macro uses and however far the argument is passed on. -/

namespace Z80Asm
set_option autoImplicit true

theorem SymbolTable.evalIn_here {t : SymbolTable} {v : Value} {text : String}
    (hc : v.content = .deferred text free) (hv : "$" ∉ v.mentions) (here? here?' : Option Int64) :
    t.evalIn value here? scope text = t.evalIn value here?' scope text := by
  unfold evalIn
  cases hp : Expr.parse text with
  | error e => rfl
  | ok e =>
    rw [Value.mentions_of_parse hc hp] at hv
    apply e.eval_congr
    intro x hx
    have hne : x ≠ "$" := fun h => hv (h ▸ hx)
    unfold lookupIn
    rw [if_neg hne, if_neg hne]

namespace Declarations
open Program

variable {i : Nat} {p : String} {a : Value}

namespace State

theorem get?_declare_of_quiet {s : State} (h : (s.declare name v loc taken).diagnostics = []) :
    (s.declare name v loc taken).table.get? name = some v := by
  unfold declare at h ⊢
  cases hd : s.table.declare? name v loc with
  | none =>
    simp only [hd, report] at h
    cases (List.append_eq_nil_iff.1 h).2
  | some t => exact SymbolTable.get?_declare?_self hd

/-- Without problems every parameter is bound to its argument, to be looked up by the caller. -/
theorem get?_bind_of_quiet {s : State} {caller scope : String} {params : List String}
    {args : List Value}
    (h : (s.bind c caller scope loc params args).diagnostics = []) (hp : params[i]? = some p)
    (ha : args[i]? = some a) :
    (s.bind c caller scope loc params args).table.get? (scope ++ p) =
      some (a.withScope caller) := by
  induction params generalizing s args i with
  | nil => cases hp
  | cons param params ih =>
    unfold bind at h ⊢
    cases i with
    | zero =>
      cases hp
      cases args with
      | nil => cases ha
      | cons b args =>
        cases ha
        have hrest := bind_progress
          (s.declare (scope ++ p) (a.withScope caller) loc (.duplicateParameter p c.name))
          c caller scope loc params args
        exact hrest.keeps _ _ (get?_declare_of_quiet (hrest.reports.quiet h))
    | succ i => exact ih h hp (List.getElem?_tail ▸ ha)

theorem get?_enterCall_of_quiet {s : State} {c : MacroCall}
    (h : (s.enterCall c loc).2.diagnostics = []) (hp : c.params[i]? = some p)
    (ha : c.args[i]? = some a) :
    (s.enterCall c loc).2.table.get? ((s.enter true loc).1 ++ p) =
      some (a.withScope s.scope) := by
  rw [enterCall_snd] at h ⊢
  dsimp only at h ⊢
  split at h
  · cases (List.append_eq_nil_iff.1 h).2
  · rename_i hmany
    rw [if_neg hmany]
    exact get?_bind_of_quiet h hp ha

theorem progress_through (es : List Element) (n : Nat) :
    Progress (through es n) (thread State.step {} es).2 := by
  have hes : (thread State.step {} es).2 = (thread State.step (through es n) (es.drop n)).2 := by
    rw [through, ← congrArg Prod.snd (thread_append State.step {} (es.take n) (es.drop n)),
      List.take_append_drop]
  rw [hes]
  exact thread_progress _ _

end State

theorem get?_argument {c : MacroCall} (hc : (collect es).diagnostics = [])
    (hpos : outside (collect es).program = pre ++ ⟨loc, .call c⟩ :: post)
    (hexpanded : c.expanded = true) (hp : c.params[i]? = some p) (ha : c.args[i]? = some a) :
    (collect es).table.get? (c.scope ++ p) =
      some (a.withScope (ScopeStack.behind pre).current) := by
  rw [outside_collect] at hpos
  change declared (outside es) = _ at hpos
  have hcall : (declared (outside es))[pre.length]? = some ⟨loc, .call c⟩ := by
    rw [hpos, List.getElem?_append_right (Nat.le_refl _), Nat.sub_self]
    rfl
  have hscopes : ScopeStack.behind pre = (State.through (outside es) pre.length).scopes := by
    rw [← behind_declared, hpos, List.take_left]
  obtain ⟨c₀, hc₀, hexpanded₀, rfl⟩ := declared_call hcall hexpanded
  have hstep : State.through (outside es) (pre.length + 1) =
      ((State.through (outside es) pre.length).enterCall c₀ loc).2 := by
    rw [State.through_succ hc₀, State.step]
    exact congrArg Prod.snd (if_pos hexpanded₀)
  have hprogress := State.progress_through (outside es) (pre.length + 1)
  rw [collect_diagnostics] at hc
  have hquiet := hprogress.reports.quiet ((State.finish_reports _).quiet hc)
  rw [hstep] at hprogress hquiet
  rw [collect_table, hscopes, State.current_scopes]
  exact hprogress.keeps _ _ (State.get?_enterCall_of_quiet hquiet hp ha)

end Declarations

namespace Layout

theorem meaning_finalTable (declared : Declarations.Result) :
    (finalTable declared).meaning = (finalTable declared).known :=
  SymbolTable.meaning_eq_known (SymbolTable.done_evaluate _)

/-- Macro arguments are hygienic: once everything is placed and evaluated, a parameter has the value
that its argument has in the scope around the call, and none if that has none. -/
theorem parameter_eq_argument {es pre post : List Element} {loc : Location} {c : MacroCall}
    {i : Nat} {p : String} {a : Value} (hc : (Declarations.collect es).diagnostics = [])
    (hpos : Program.outside (Declarations.collect es).program = pre ++ ⟨loc, .call c⟩ :: post)
    (hexpanded : c.expanded = true) (hp : c.params[i]? = some p) (ha : c.args[i]? = some a)
    (hdeferred : a.isDeferred = true) (hscope : a.scope? = none) (hhere : "$" ∉ a.mentions)
    (here : Int64) :
    let final := finalTable (Declarations.collect es)
    final.known (c.scope ++ p) =
      (final.valueOf a (ScopeStack.behind pre).current here).toOption := by
  intro final
  have hdeclared := Declarations.get?_argument hc hpos hexpanded hp ha
  obtain ⟨text, free, htext⟩ := Value.isDeferred_iff.1 hdeferred
  have hargument : a.withScope (ScopeStack.behind pre).current =
      { a with scope? := some (ScopeStack.behind pre).current } := by
    unfold Value.withScope
    rw [hdeferred, hscope]
    rfl
  rw [hargument] at hdeclared
  have hmeaning := (declared_leads_final hc).meaning_of_deferred hdeclared htext
  have hvalue : final.valueOf a (ScopeStack.behind pre).current here =
      final.evalIn final.known (some here) (ScopeStack.behind pre).current text := by
    unfold SymbolTable.valueOf SymbolTable.operandIn
    rw [htext]
  rw [meaning_finalTable] at hmeaning
  rw [hvalue, hmeaning, SymbolTable.evalIn_here htext hhere a.here? (some here)]
  rfl

/-- A name is passed on through two calls whose parameters have that name as well. -/
def passedOn : List Element :=
  [⟨{}, .label { name := "x" }⟩, ⟨{}, .equ (.number 5)⟩,
    ⟨{}, .call ⟨"outer", [.deferred "x" ["x"]], true, ["x"], "", false⟩⟩,
    ⟨{}, .call ⟨"inner", [.deferred "x+1" ["x"]], true, ["x"], "", false⟩⟩,
    ⟨{}, .endCall "inner" ""⟩, ⟨{}, .endCall "outer" ""⟩]

theorem collect_passedOn :
    let c := Declarations.collect passedOn
    c.diagnostics = [] ∧
      Program.outside c.program =
        [⟨{}, .label ⟨"x", false, "x"⟩⟩, ⟨{}, .equ (.number 5)⟩,
          ⟨{}, .call ⟨"outer", [.deferred "x" ["x"]], true, ["x"], "%0_", false⟩⟩] ++
        ⟨{}, .call ⟨"inner", [.deferred "x+1" ["x"]], true, ["x"], "%1_%0_", false⟩⟩ ::
        [⟨{}, .endCall "inner" "%1_%0_"⟩, ⟨{}, .endCall "outer" "%0_"⟩] ∧
      (finalTable c).known "%1_%0_x" = some (.number 6) := by
  cbv
  exact ⟨rfl, rfl⟩

theorem parameter_eq_argument_passedOn :
    (Declarations.collect passedOn).diagnostics = [] ∧
      (finalTable (Declarations.collect passedOn)).known "%1_%0_x" = some (.number 6) ∧
      ((finalTable (Declarations.collect passedOn)).valueOf (.deferred "x+1" ["x"]) "%0_"
        0).toOption = some (.number 6) := by
  obtain ⟨hc, hpos, hsix⟩ := collect_passedOn
  have hhere : "$" ∉ (Value.deferred "x+1" ["x"]).mentions := by
    have hmentions : (Value.deferred "x+1" ["x"]).mentions = ["x"] := by cbv
    rw [hmentions]
    decide
  have heq := parameter_eq_argument (i := 0) hc hpos rfl rfl rfl rfl rfl hhere 0
  exact ⟨hc, hsix, heq.symm.trans hsix⟩

end Layout
end Z80Asm
