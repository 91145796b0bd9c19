import Z80Asm.Proofs.Arguments
import Z80Asm.Proofs.Foreknowledge
import Z80Asm.Proofs.OutputOffsets

/-! What labels mean. A label that an expression is bound to has the value of the expression where
it is bound; any other has the address at which it stands. Whoever asks for the label, from wherever
and at whichever time, gets this value. -/

namespace Z80Asm
set_option autoImplicit true

/-- A value as a line gives it: known, or an expression that is still to be evaluated where it
stands. -/
def Value.AsWritten (v : Value) : Prop := v.isResolved = true ∨ ∃ text, Value.ofExpr text = .ok v

theorem Value.AsWritten.cases {v : Value} (h : v.AsWritten) :
    (∃ d, v.content.datum? = some d) ∨
      ∃ text e, Expr.parse text = .ok e ∧ v = .deferred text e.freeVars := by
  rcases h with h | ⟨text, h⟩
  · exact .inl (Option.isSome_iff_exists.1 h)
  · unfold ofExpr at h
    cases hp : Expr.parse text with
    | error e =>
      rw [hp] at h
      cases h
    | ok e =>
      rw [hp] at h
      exact .inr ⟨text, e, hp, (Except.ok.inj h).symm⟩

/-- Whoever asks for the symbol `q` by the table `t`, by an expression of another symbol or by an
operand that stands anywhere, gets the value `d`, if any. -/
structure SymbolTable.Fixes (t : SymbolTable) (q : String) (d : Datum) : Prop where
  symbol : ∀ w, t.Denotes q w → w = d
  operand : ∀ text free x scope scope? here? here w, Expr.parse text = .ok (.ident x) → x ≠ "$" →
    t.resolve? scope x = some q →
    t.operand ⟨.deferred text free, scope?, here?⟩ scope here = .ok w → w = d

theorem SymbolTable.Fixes.of_denotes (h : ∀ w, SymbolTable.Denotes t q w → w = d) :
    Fixes t q d := by
  refine ⟨h, fun text free x scope scope? here? here w hx hne hr hw => h w ?_⟩
  rw [operand_eq_ok] at hw
  change t.evalIn t.meaning (some here) scope text = .ok w at hw
  rw [evalIn_ident hx hne hr, orNoValue_eq_ok] at hw
  exact meaning_eq_some_iff.1 hw

namespace Declarations

theorem equ_of_step {s : State} {e : Element} (h : (s.step e).1 = .equ v) : e.stmt = .equ v := by
  obtain ⟨loc, stmt⟩ := e
  cases stmt with
  | equ => exact h
  | call c =>
    unfold State.step at h
    dsimp only at h
    split at h <;> cases h
  | _ => cases h

theorem equ_of_collect (h : ⟨loc, .equ v⟩ ∈ Program.outside (collect es).program) :
    ∃ e ∈ Program.outside es, e.stmt = .equ v := by
  rw [outside_collect] at h
  obtain ⟨s, e, he, heq⟩ := Program.mem_thread h
  exact ⟨e, he, equ_of_step (congrArg Element.stmt heq).symm⟩

end Declarations

namespace Layout

def movesAddress : Statement → Bool
  | .org _ | .phase _ | .endPhase | .align _ | .bytes _ => true
  | _ => false

namespace State

theorem address_step_of_still (s : State) (h : movesAddress e.stmt = false) :
    (s.step e).2.address = s.address := by
  obtain ⟨loc, stmt⟩ := e
  cases stmt with
  | org | phase | endPhase | align | bytes => cases h
  | equ v => exact (s.bind_still v loc).2
  | _ => rfl

theorem address_thread_of_still (s : State) {es : List Element}
    (h : ∀ e ∈ es, movesAddress e.stmt = false) :
    (Program.thread step s es).2.address = s.address := by
  induction es generalizing s with
  | nil => rfl
  | cons e es ih =>
    rw [Program.thread, ih _ fun a ha => h a (List.mem_cons_of_mem e ha)]
    exact s.address_step_of_still (h e List.mem_cons_self)

/-- A run of labels is waiting for what comes behind it, and changes no other symbol. -/
theorem thread_labels {s : State} {labels rest : List Element}
    (hr : Ready s (Declarations.labelSymbols (labels ++ rest)))
    (hn : ∀ a ∈ labels, Declarations.Named a) (hl : ∀ a ∈ labels, ∃ l, a.stmt = .label l) :
    (Program.thread step s labels).2.pending = s.pending ++ Declarations.labelSymbols labels ∧
      ∀ q, q ∉ Declarations.labelSymbols labels →
        (Program.thread step s labels).2.table.get? q = s.table.get? q := by
  induction labels generalizing s with
  | nil => exact ⟨(List.append_nil _).symm, fun _ _ => rfl⟩
  | cons e labels ih =>
    obtain ⟨hr', -⟩ := step_leads hr (hn e List.mem_cons_self)
    obtain ⟨hp, hget⟩ := ih hr' (fun a ha => hn a (List.mem_cons_of_mem e ha))
      fun a ha => hl a (List.mem_cons_of_mem e ha)
    obtain ⟨l, hlabel⟩ := hl e List.mem_cons_self
    have hnamed := hn e List.mem_cons_self l hlabel
    have hs : s.step e = (.label (s.placeLabel l).1, (s.placeLabel l).2) := by
      obtain ⟨loc, stmt⟩ := e
      cases hlabel
      rfl
    rw [List.cons_append, Declarations.labelSymbols_cons,
      Declarations.labelSymbols_label hlabel] at hr
    rw [Declarations.labelSymbols_cons, Declarations.labelSymbols_label hlabel, Program.thread]
    dsimp only
    rw [hs] at hp hget ⊢
    refine ⟨?_, fun q hq => ?_⟩
    · rw [hp, pending_placeLabel hnamed, List.append_assoc]
    · rw [List.mem_append, not_or] at hq
      have hne : q ≠ l.symbol := fun he => hq.1 (he ▸ List.mem_singleton_self _)
      rw [hget q hq.2, table_placeLabel hr hnamed,
        SymbolTable.get?_set_of_ne (mem_names_of_ready hr) hne]

theorem here?_boundValue (scopes : ScopeStack) (address : Int64) (text : String)
    (names : List String) :
    (boundValue scopes address (.deferred text names)).here? =
      if "$" ∈ names then some address else none := by
  have hwith : (Value.deferred text names).withScope scopes.current =
      ⟨.deferred text names, some scopes.current, none⟩ := rfl
  unfold boundValue
  rw [hwith]
  simp only [Value.uses, List.contains_iff_mem]
  split
  · rfl
  · rfl

end State

section
variable {es pre post : List Element} {q : String} {v : Value} {d : Datum}

theorem table_leads_final (hc : (Declarations.collect es).diagnostics = [])
    (hpos : Program.outside (Declarations.collect es).program = pre ++ post)
    (hpost : ∀ e ∈ post.head?, State.Evaluates e) :
    (State.through (Declarations.collect es).table pre).table.Leads
      (finalTable (Declarations.collect es)) := by
  cases post with
  | nil =>
    rw [List.append_nil] at hpos
    unfold finalTable
    rw [assign_table, hpos]
    exact (SymbolTable.settles_evaluate _).grows.leads
  | cons e post =>
    rw [List.append_cons] at hpos
    have hstep := (State.through (Declarations.collect es).table pre).step_settles
      (hpost e rfl)
    have hfinal := settled_leads_final hc hpos
    rw [State.through_append] at hfinal
    exact hstep.grows.leads.trans hfinal

/-- A symbol that has a value in the end has it whenever an element is placed, if any. -/
theorem fixes_through (hc : (Declarations.collect es).diagnostics = [])
    (hpos : Program.outside (Declarations.collect es).program = pre ++ post)
    (hpost : ∀ e ∈ post.head?, State.Evaluates e)
    (hd : (finalTable (Declarations.collect es)).known q = some d) :
    (State.through (Declarations.collect es).table pre).table.Fixes q d := by
  apply SymbolTable.Fixes.of_denotes
  intro w hw
  have hfinal := (table_leads_final hc hpos hpost).gives q w (SymbolTable.meaning_eq_some_iff.2 hw)
  rw [meaning_finalTable, hd] at hfinal
  exact (Option.some.inj hfinal).symm

theorem known_of_get? {t : SymbolTable} (hv : t.get? q = some v) (hd : v.content.datum? = some d) :
    t.known q = some d := by
  rw [SymbolTable.known, hv]
  exact hd

/-- What is bound to a label is evaluated in the scope and at the address where it is bound. -/
theorem known_of_bound (hc : (Declarations.collect es).diagnostics = [])
    (hresolved : (finalTable (Declarations.collect es)).Resolved)
    (hpos : Program.outside (Declarations.collect es).program = pre ++ ⟨loc, .equ v⟩ :: post)
    (hv : v.AsWritten) (hq : q ∈ (State.through (Declarations.collect es).table pre).pending) :
    let s := State.through (Declarations.collect es).table pre
    let final := finalTable (Declarations.collect es)
    ∃ d, final.known q = some d ∧ final.valueOf v s.scopes.current s.address = .ok d := by
  intro s final
  have hbound : (s.step ⟨loc, .equ v⟩).2.settled.get? q =
      some (State.boundValue s.scopes s.address v) := by
    change (s.bind v loc).table.get? q = _
    rw [State.get?_bind (List.ne_nil_of_mem hq), if_pos hq]
  rw [List.append_cons] at hpos
  have hleads := settled_leads_final hc hpos
  rw [State.through_append] at hleads
  rcases hv.cases with ⟨d, hd⟩ | ⟨text, e, hp, rfl⟩
  · refine ⟨d, known_of_get? (hleads.keeps q _ d hbound ?_) ?_, ?_⟩
    · rw [State.content_boundValue]
      exact hd
    · rw [State.content_boundValue]
      exact hd
    · unfold SymbolTable.valueOf SymbolTable.operandIn
      cases hcontent : v.content with
      | number n =>
        rw [hcontent] at hd
        cases hd
        rfl
      | text w =>
        rw [hcontent] at hd
        cases hd
        rfl
      | _ =>
        rw [hcontent] at hd
        cases hd
  · have hcontent : (State.boundValue s.scopes s.address (.deferred text e.freeVars)).content =
        .deferred text e.freeVars := State.content_boundValue _ _ _
    rcases hleads.evaluates q _ text e.freeVars hbound hcontent with hget | ⟨d, hget, hd⟩
    · have hnot := hresolved q _ hget
      rw [Value.isDeferred_iff.2 ⟨text, e.freeVars, hcontent⟩] at hnot
      cases hnot
    · refine ⟨d, known_of_get? hget (Value.datum?_ofDatum d), ?_⟩
      rw [State.scope?_boundValue _ _ rfl, State.here?_boundValue, meaning_finalTable] at hd
      change final.evalIn final.known (some s.address) s.scopes.current text = .ok d
      by_cases hhere : "$" ∈ e.freeVars
      · rw [if_pos hhere] at hd
        exact hd
      · have hmentions : "$" ∉ (Value.deferred text e.freeVars).mentions := by
          rw [Value.mentions_of_parse rfl hp]
          exact fun h => hhere (List.mem_eraseDups.2 h)
        rw [if_neg hhere, SymbolTable.evalIn_here rfl hmentions none (some s.address)] at hd
        exact hd

theorem label_waits {labels rest : List Element} {loc : Location} {l : Label}
    (hc : (Declarations.collect es).diagnostics = [])
    (hpos : Program.outside (Declarations.collect es).program =
      pre ++ ⟨loc, .label l⟩ :: (labels ++ rest))
    (hlabels : ∀ a ∈ labels, ∃ l, a.stmt = .label l) :
    let s := State.through (Declarations.collect es).table pre
    let s' := State.through (Declarations.collect es).table (pre ++ ⟨loc, .label l⟩ :: labels)
    l.symbol ∈ s'.pending ∧ s'.table.get? l.symbol = some (.number s.address) := by
  intro s s'
  have hnamed {a : Element} (h : a ∈ ⟨loc, .label l⟩ :: labels) : Declarations.Named a := by
    apply Declarations.named_collect
    rw [hpos, ← List.cons_append]
    exact List.mem_append_right pre (List.mem_append_left rest h)
  have hl := hnamed List.mem_cons_self l rfl
  have hready := ready_through hc hpos
  have hafter := (State.step_leads hready (hnamed List.mem_cons_self)).1
  have hsymbols := Declarations.labelSymbols_cons ⟨loc, .label l⟩ (labels ++ rest)
  rw [Declarations.labelSymbols_label rfl, List.singleton_append] at hsymbols
  rw [hsymbols] at hready
  obtain ⟨hpending, hget⟩ := State.thread_labels hafter
    (fun a ha => hnamed (List.mem_cons_of_mem _ ha)) hlabels
  have hs' : s' = (Program.thread State.step (s.placeLabel l).2 labels).2 :=
    State.through_append _ pre _
  rw [hs']
  constructor
  · change (Program.thread State.step (s.placeLabel l).2 labels).2.pending =
      (s.placeLabel l).2.pending ++ _ at hpending
    rw [hpending, State.pending_placeLabel hl]
    exact List.mem_append_left _ (List.mem_append_right _ (List.mem_singleton_self _))
  · have hnot : l.symbol ∉ Declarations.labelSymbols labels := by
      intro hmem
      apply (List.nodup_cons.1 hready.bare.nodup).1
      rw [Declarations.labelSymbols, List.filterMap_append]
      exact List.mem_append_left _ hmem
    refine (hget _ hnot).trans ?_
    change (s.placeLabel l).2.table.get? l.symbol = _
    rw [State.table_placeLabel hready hl, SymbolTable.get?_set_self]

theorem template_at_address {between : List Element} {loc : Location} {t : Template}
    (declared : Declarations.Result)
    (hpos : Program.outside declared.program = pre ++ (between ++ ⟨loc, .bytes t⟩ :: post))
    (hbetween : ∀ e ∈ between, movesAddress e.stmt = false) :
    ∃ t', (Program.outside (assign declared.program declared.table).program)[
        pre.length + between.length]? = some ⟨loc, .bytes t'⟩ ∧
      t'.address = (State.through declared.table pre).address := by
  rw [← List.append_assoc] at hpos
  refine ⟨((State.through declared.table (pre ++ between)).placeTemplate t loc).1, ?_, ?_⟩
  · rw [outside_assign, Program.getElem?_thread, hpos, ← List.length_append, List.take_left,
      List.getElem?_append_right (Nat.le_refl _), Nat.sub_self]
    rfl
  · change (State.through declared.table (pre ++ between)).address = _
    rw [State.through_append]
    exact State.address_thread_of_still _ hbetween

theorem fixed_of_known (hc : (Declarations.collect es).diagnostics = [])
    (hd : (finalTable (Declarations.collect es)).known x = some d) :
    (finalTable (Declarations.collect es)).Fixes x d ∧
      ∀ before e after,
        Program.outside (Declarations.collect es).program = before ++ e :: after →
        State.Evaluates e →
        (State.through (Declarations.collect es).table before).table.Fixes x d := by
  refine ⟨.of_denotes fun w hw => ?_, fun before e after h he => ?_⟩
  · have hm := SymbolTable.meaning_eq_some_iff.2 hw
    rw [meaning_finalTable, hd] at hm
    exact (Option.some.inj hm).symm
  · exact fixes_through hc h (fun a ha => Option.some.inj ha ▸ he) hd

theorem known_of_unbound {labels rest : List Element} {loc : Location} {l : Label}
    (hc : (Declarations.collect es).diagnostics = [])
    (hpos : Program.outside (Declarations.collect es).program =
      pre ++ ⟨loc, .label l⟩ :: (labels ++ rest))
    (hlabels : ∀ a ∈ labels, ∃ l, a.stmt = .label l)
    (hrest : ∀ e ∈ rest.head?, (∀ l, e.stmt ≠ .label l) ∧ ∀ v, e.stmt ≠ .equ v) :
    (finalTable (Declarations.collect es)).known l.symbol =
      some (.number (State.through (Declarations.collect es).table pre).address) := by
  have htentative := (label_waits hc hpos hlabels).2
  rw [← List.cons_append, ← List.append_assoc] at hpos
  have hleads := table_leads_final hc hpos hrest
  exact known_of_get? (hleads.keeps _ _ _ htentative rfl) rfl

/-- What a label means. If the first element behind it that is no label binds an expression, the
label has the value of the expression in the scope and at the address there. Otherwise it has the
address at which it stands, and so has the next template, unless a directive moves the address
between them. Whenever the label is asked for, from wherever, this is its value. -/
theorem label_means {labels rest : List Element} {loc : Location} {l : Label}
    (hwritten : ∀ e ∈ Program.outside es, ∀ v, e.stmt = .equ v → v.AsWritten)
    (hc : (Declarations.collect es).diagnostics = [])
    (hq : (assign (Declarations.collect es).program
      (Declarations.collect es).table).table.evaluate.2 = [])
    (hpos : Program.outside (Declarations.collect es).program =
      pre ++ ⟨loc, .label l⟩ :: (labels ++ rest))
    (hlabels : ∀ a ∈ labels, ∃ l, a.stmt = .label l)
    (hrest : ∀ e ∈ rest.head?, ∀ l, e.stmt ≠ .label l) :
    let declared := Declarations.collect es
    let placed := Program.outside (assign declared.program declared.table).program
    let final := finalTable declared
    let here := State.through declared.table pre
    let there := State.through declared.table (pre ++ ⟨loc, .label l⟩ :: labels)
    ∃ d, final.known l.symbol = some d ∧ final.Fixes l.symbol d ∧
      (∀ before e after, Program.outside declared.program = before ++ e :: after →
        State.Evaluates e → (State.through declared.table before).table.Fixes l.symbol d) ∧
      (∀ e ∈ rest.head?, ∀ v, e.stmt = .equ v →
        final.valueOf v there.scopes.current there.address = .ok d) ∧
      ((∀ e ∈ rest.head?, ∀ v, e.stmt ≠ .equ v) → d = .number here.address ∧
        ∀ between loc' t after, labels ++ rest = between ++ ⟨loc', .bytes t⟩ :: after →
          (∀ e ∈ between, movesAddress e.stmt = false) →
          ∃ t', placed[pre.length + 1 + between.length]? = some ⟨loc', .bytes t'⟩ ∧
            t'.address = here.address) := by
  intro declared placed final here there
  have hwaits := (label_waits hc hpos hlabels).1
  have hpos' : Program.outside declared.program = (pre ++ ⟨loc, .label l⟩ :: labels) ++ rest := by
    rw [hpos, List.append_assoc]
    rfl
  by_cases hequ : ∃ e ∈ rest.head?, ∃ v, e.stmt = .equ v
  · obtain ⟨⟨loc', stmt⟩, he, v, rfl⟩ := hequ
    obtain ⟨after, rfl⟩ := List.head?_eq_some_iff.1 he
    have hmem : ⟨loc', .equ v⟩ ∈ Program.outside declared.program := by
      rw [hpos']
      exact List.mem_append_right _ List.mem_cons_self
    have hv : v.AsWritten := by
      obtain ⟨e, he, hev⟩ := Declarations.equ_of_collect hmem
      exact hwritten e he v hev
    obtain ⟨d, hd, hvalue⟩ := known_of_bound hc (SymbolTable.resolved_of_quiet hq) hpos' hv hwaits
    obtain ⟨hfinal, hthrough⟩ := fixed_of_known hc hd
    refine ⟨d, hd, hfinal, hthrough, fun e he w hw => ?_, fun hnot => ?_⟩
    · cases he
      cases hw
      exact hvalue
    · exact (hnot _ he v rfl).elim
  · have hnot : ∀ e ∈ rest.head?, ∀ v, e.stmt ≠ .equ v := fun e he v hv => hequ ⟨e, he, v, hv⟩
    have hd : final.known l.symbol = some (.number here.address) :=
      known_of_unbound hc hpos hlabels fun e he => ⟨hrest e he, hnot e he⟩
    obtain ⟨hfinal, hthrough⟩ := fixed_of_known hc hd
    refine ⟨_, hd, hfinal, hthrough, fun e he v hv => (hnot e he v hv).elim,
      fun _ => ⟨rfl, fun between loc' t after hsplit hbetween => ?_⟩⟩
    rw [hsplit] at hpos
    obtain ⟨t', ht', haddress⟩ :=
      template_at_address declared hpos (List.forall_mem_cons.2 ⟨rfl, hbetween⟩)
    rw [List.length_cons, Nat.add_comm _ 1, ← Nat.add_assoc] at ht'
    exact ⟨t', ht', haddress⟩

/-- Two labels for an expression that mentions the address and a label that stands behind it. -/
def captured : List Element :=
  [⟨{}, .bytes ⟨[.byte 1, .byte 2], 0, 0, false⟩⟩, ⟨{}, .label { name := "a" }⟩,
    ⟨{}, .label { name := "b" }⟩, ⟨{}, .equ (.deferred "$+c" ["$", "c"])⟩,
    ⟨{}, .bytes ⟨[.byte 3], 0, 0, false⟩⟩, ⟨{}, .label { name := "c" }⟩,
    ⟨{}, .block ""⟩, ⟨{}, .bytes ⟨[.byte 4], 0, 0, false⟩⟩, ⟨{}, .endBlock ""⟩]

theorem captured_written :
    ∀ e ∈ Program.outside captured, ∀ v, e.stmt = .equ v → v.AsWritten := by
  have hequ : Value.ofExpr "$+c" = .ok (.deferred "$+c" ["$", "c"]) := by cbv
  intro e he v hv
  fin_cases he
  all_goals cases hv
  exact .inr ⟨"$+c", hequ⟩

theorem assign_captured :
    let c := Declarations.collect captured
    c.diagnostics = [] ∧ (assign c.program c.table).table.evaluate.2 = [] ∧
      Program.outside c.program =
        [⟨{}, .bytes ⟨[.byte 1, .byte 2], 0, 0, false⟩⟩, ⟨{}, .label ⟨"a", false, "a"⟩⟩,
          ⟨{}, .label ⟨"b", false, "b"⟩⟩, ⟨{}, .equ (.deferred "$+c" ["$", "c"])⟩,
          ⟨{}, .bytes ⟨[.byte 3], 0, 0, false⟩⟩, ⟨{}, .label ⟨"c", false, "c"⟩⟩,
          ⟨{}, .block "%0_"⟩, ⟨{}, .bytes ⟨[.byte 4], 0, 0, false⟩⟩, ⟨{}, .endBlock "%0_"⟩] ∧
      (finalTable c).known "a" = some (.number 5) := by
  cbv
  exact ⟨rfl, rfl⟩

theorem label_means_captured :
    (Declarations.collect captured).diagnostics = [] ∧
      (assign (Declarations.collect captured).program
        (Declarations.collect captured).table).table.evaluate.2 = [] ∧
      (finalTable (Declarations.collect captured)).known "a" = some (.number 5) ∧
      (finalTable (Declarations.collect captured)).valueOf (.deferred "$+c" ["$", "c"]) "" 2 =
        .ok (.number 5) ∧
      (finalTable (Declarations.collect captured)).known "c" = some (.number 3) := by
  obtain ⟨hc, hq, hprogram, hfive⟩ := assign_captured
  have hfirst : Program.outside (Declarations.collect captured).program =
      [⟨{}, .bytes ⟨[.byte 1, .byte 2], 0, 0, false⟩⟩] ++ ⟨{}, .label ⟨"a", false, "a"⟩⟩ ::
        ([⟨{}, .label ⟨"b", false, "b"⟩⟩] ++
          [⟨{}, .equ (.deferred "$+c" ["$", "c"])⟩, ⟨{}, .bytes ⟨[.byte 3], 0, 0, false⟩⟩,
            ⟨{}, .label ⟨"c", false, "c"⟩⟩, ⟨{}, .block "%0_"⟩,
            ⟨{}, .bytes ⟨[.byte 4], 0, 0, false⟩⟩, ⟨{}, .endBlock "%0_"⟩]) := hprogram
  have hlast : Program.outside (Declarations.collect captured).program =
      [⟨{}, .bytes ⟨[.byte 1, .byte 2], 0, 0, false⟩⟩, ⟨{}, .label ⟨"a", false, "a"⟩⟩,
        ⟨{}, .label ⟨"b", false, "b"⟩⟩, ⟨{}, .equ (.deferred "$+c" ["$", "c"])⟩,
        ⟨{}, .bytes ⟨[.byte 3], 0, 0, false⟩⟩] ++ ⟨{}, .label ⟨"c", false, "c"⟩⟩ ::
        ([] ++ [⟨{}, .block "%0_"⟩, ⟨{}, .bytes ⟨[.byte 4], 0, 0, false⟩⟩,
          ⟨{}, .endBlock "%0_"⟩]) := hprogram
  obtain ⟨d, hd, -, -, hvalue, -⟩ := label_means captured_written hc hq hfirst
    (fun a ha => ⟨_, congrArg Element.stmt (List.mem_singleton.1 ha)⟩)
    (fun e he _ hl => by cases he; cases hl)
  rw [hfive] at hd
  cases hd
  obtain ⟨d, hd, -, -, -, haddress⟩ := label_means captured_written hc hq hlast
    (fun _ ha => by cases ha) (fun e he _ hl => by cases he; cases hl)
  obtain ⟨rfl, -⟩ := haddress fun e he _ hv => by cases he; cases hv
  exact ⟨hc, hq, hfive, hvalue _ rfl _ rfl, hd⟩

end
end Layout
end Z80Asm
