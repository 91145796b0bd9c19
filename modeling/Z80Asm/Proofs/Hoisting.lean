import Z80Asm.Proofs.CallAsBlock
import Z80Asm.Proofs.Foreknowledge
import Z80Asm.Proofs.Holes

/-! A constant may be defined first. A label with a value, outside of all scopes, can be moved to
the front of a program that is assembled without problems. -/

namespace Z80Asm
set_option autoImplicit true

namespace Declarations

theorem Progress.between {s mid s' : State} (h : Progress s mid) (h' : Progress mid s')
    (hx : s'.table.get? x = s.table.get? x) : mid.table.get? x = s.table.get? x := by
  cases hs : s.table.get? x with
  | some v => exact h.keeps x v hs
  | none =>
    rw [hs] at hx
    cases hm : mid.table.get? x with
    | none => rfl
    | some v =>
      rw [h'.keeps x v hm] at hx
      cases hx

theorem State.bind_cons (s : State) (c : MacroCall) (caller scope : String) (loc : Location)
    (param : String) (params : List String) (args : List Value) :
    s.bind c caller scope loc (param :: params) args =
      (s.declare (scope ++ param) (args.head?.elim .unresolved (·.withScope caller)) loc
        (.duplicateParameter param c.name)).bind c caller scope loc params args.tail := by
  cases args <;> rfl

/-- The table `t` has the symbol `x`, without a value, and else what that of `s` has. -/
structure Foreseen (x : String) (s : State) (t : SymbolTable) : Prop where
  other : ∀ q, q ≠ x → t.get? q = s.table.get? q
  here : t.get? x = some .unresolved
  sofar : s.table.get? x = none ∨ s.table.get? x = some .unresolved

namespace Foreseen

variable {s : State} {t : SymbolTable}

theorem of_table (h : Foreseen x s t) (hs : s'.table = s.table) : Foreseen x s' t :=
  ⟨hs ▸ h.other, h.here, hs ▸ h.sofar⟩

theorem declare (h : Foreseen x s t) (hq : (s.declare name v loc taken).diagnostics = [])
    (hx : (s.declare name v loc taken).table.get? x = s.table.get? x) (taken' : Problem) :
    ∃ t₁, ({ s with table := t } : State).declare name v loc taken' =
        { s.declare name v loc taken with table := t₁ } ∧
      Foreseen x (s.declare name v loc taken) t₁ := by
  have hn : name ∉ s.table.names := by
    intro hn
    rw [State.declare_of_mem hn] at hq
    exact List.cons_ne_nil _ _ (List.append_eq_nil_iff.1 hq).2
  obtain ⟨t₀, hd, -, hget⟩ := State.declare_of_not_mem hn v loc taken
  rw [hd] at hx ⊢
  have hne : name ≠ x := by
    rintro rfl
    have hdeclared : t₀.get? name = s.table.get? name := hx
    rw [hget, if_pos rfl, SymbolTable.get?_eq_none hn] at hdeclared
    cases hdeclared
  have hn' : name ∉ t.names := by
    rw [← SymbolTable.get?_isSome, h.other name hne, SymbolTable.get?_isSome]
    exact hn
  obtain ⟨t₁, hd', -, hget'⟩ :=
    State.declare_of_not_mem (s := { s with table := t }) hn' v loc taken'
  refine ⟨t₁, hd', fun q hqx => ?_, ?_, ?_⟩
  · rw [hget', hget, h.other q hqx]
  · rw [hget', if_neg hne.symm]
    exact h.here
  · rw [hget, if_neg hne.symm]
    exact h.sofar

theorem bind (h : Foreseen x s t) {params : List String} {args : List Value} {scope : String}
    (hq : (s.bind c caller scope loc params args).diagnostics = [])
    (hx : (s.bind c caller scope loc params args).table.get? x = s.table.get? x) :
    ∃ t₁, ({ s with table := t } : State).bind c caller scope loc params args =
        { s.bind c caller scope loc params args with table := t₁ } ∧
      Foreseen x (s.bind c caller scope loc params args) t₁ := by
  induction params generalizing s t args with
  | nil => exact ⟨t, rfl, h⟩
  | cons param params ih =>
    rw [State.bind_cons] at hq hx ⊢
    have hrest := State.bind_progress (s.declare (scope ++ param)
      (args.head?.elim .unresolved (·.withScope caller)) loc (.duplicateParameter param c.name))
      c caller scope loc params args.tail
    have hmid := (s.declare_progress _ _ loc rfl).between hrest hx
    obtain ⟨t₁, hd, h₁⟩ := h.declare (hrest.reports.quiet hq) hmid
      (.duplicateParameter param c.name)
    rw [State.bind_cons, hd]
    exact ih h₁ hq (hx.trans hmid.symm)

theorem enterCall (h : Foreseen x s t) (hq : (s.enterCall c loc).2.diagnostics = [])
    (hx : (s.enterCall c loc).2.table.get? x = s.table.get? x) :
    ∃ t₁, ({ s with table := t } : State).enterCall c loc =
        ((s.enterCall c loc).1, { (s.enterCall c loc).2 with table := t₁ }) ∧
      Foreseen x (s.enterCall c loc).2 t₁ := by
  have hlen : ¬ c.args.length > c.params.length := by
    intro hlen
    rw [State.enterCall_snd] at hq
    dsimp only at hq
    rw [if_pos hlen] at hq
    exact List.cons_ne_nil _ _ (List.append_eq_nil_iff.1 hq).2
  have hsnd (s : State) : (s.enterCall c loc).2 =
      (s.enter true loc).2.bind c s.scope (s.enter true loc).1 loc c.params c.args := by
    rw [State.enterCall_snd]
    dsimp only
    rw [if_neg hlen]
  rw [hsnd] at hq hx
  have henter : Foreseen x (s.enter true loc).2 t := h.of_table rfl
  obtain ⟨t₁, hb, h₁⟩ := henter.bind hq hx
  refine ⟨t₁, ?_, ?_⟩
  · apply Prod.ext
    · rfl
    · dsimp only
      rw [hsnd, hsnd]
      exact hb
  · rw [hsnd]
    exact h₁

theorem step (h : Foreseen x s t) (hq : (s.step e).2.diagnostics = [])
    (hx : (s.step e).2.table.get? x = s.table.get? x) :
    ∃ t₁, ({ s with table := t } : State).step e =
        ((s.step e).1, { (s.step e).2 with table := t₁ }) ∧
      Foreseen x (s.step e).2 t₁ := by
  obtain ⟨loc, stmt⟩ := e
  have hleave (isCall : Bool) : ({ s with table := t } : State).leave isCall loc =
      ((s.leave isCall loc).1, { (s.leave isCall loc).2 with table := t }) := by
    unfold State.leave
    dsimp only
    split
    · rfl
    · dsimp only
      split <;> rfl
  cases stmt with
  | label l =>
    obtain ⟨t₁, hd, h₁⟩ := h.declare hq hx (.duplicateSymbol l.name
      (t.loc (if l.isPublic then l.name else s.scope ++ l.name)))
    refine ⟨t₁, ?_, h₁⟩
    exact congrArg (fun s' => (Statement.label _, s')) hd
  | call c =>
    unfold State.step at hq hx ⊢
    dsimp only at hq hx ⊢
    cases hc : c.expanded with
    | false => exact ⟨t, rfl, h⟩
    | true =>
      simp only [hc, ↓reduceIte] at hq hx ⊢
      obtain ⟨t₁, hd, h₁⟩ := h.enterCall hq hx
      refine ⟨t₁, ?_, h₁⟩
      rw [hd]
  | endBlock scope =>
    refine ⟨t, ?_, h.of_table (s.table_leave false loc)⟩
    exact congrArg (fun r => (Statement.endBlock r.1, r.2)) (hleave false)
  | endCall name scope =>
    refine ⟨t, ?_, h.of_table (s.table_leave true loc)⟩
    exact congrArg (fun r => (Statement.endCall name r.1, r.2)) (hleave true)
  | block scope => exact ⟨t, rfl, h.of_table rfl⟩
  | _ => exact ⟨t, rfl, h⟩

theorem thread (h : Foreseen x s t) (hq : (Program.thread State.step s es).2.diagnostics = [])
    (hx : (Program.thread State.step s es).2.table.get? x = s.table.get? x) :
    ∃ t₁, Program.thread State.step { s with table := t } es =
        ((Program.thread State.step s es).1,
          { (Program.thread State.step s es).2 with table := t₁ }) ∧
      Foreseen x (Program.thread State.step s es).2 t₁ := by
  induction es generalizing s t with
  | nil => exact ⟨t, rfl, h⟩
  | cons e es ih =>
    have hrest := thread_progress (s.step e).2 es
    have hmid := (s.step_progress e).between hrest hx
    obtain ⟨t₁, h₁, hstep⟩ := h.step (hrest.reports.quiet hq) hmid
    obtain ⟨t₂, h₂, hend⟩ := ih hstep hq (hx.trans hmid.symm)
    refine ⟨t₂, ?_, hend⟩
    rw [Program.thread, h₁, h₂]
    rfl

end Foreseen

/-- A label outside of all scopes, as it is declared, and its value. -/
def constant (l : Label) (loc : Location) (v : Value) (loc' : Location) : List Element :=
  [⟨loc, .label { l with symbol := l.name }⟩, ⟨loc', .equ v⟩]

theorem State.step_label {s : State} (hs : s.stack = []) (l : Label) (loc : Location) :
    s.step ⟨loc, .label l⟩ = (.label { l with symbol := l.name },
      s.declare l.name .unresolved loc (.duplicateSymbol l.name (s.table.loc l.name))) := by
  have hscope : (if l.isPublic then l.name else s.scope ++ l.name) = l.name := by
    unfold State.scope
    rw [hs]
    split
    · rfl
    · exact String.empty_append
  unfold State.step State.declareLabel
  dsimp only
  rw [hscope]

theorem State.thread_constant {s : State} (hs : s.stack = [])
    (hn : l.name ∉ s.table.names) (loc : Location) (v : Value) (loc' : Location) :
    ∃ t, Program.thread State.step s [⟨loc, .label l⟩, ⟨loc', .equ v⟩] =
        (constant l loc v loc', { s with table := t }) ∧
      ∀ q, t.get? q = if q = l.name then some .unresolved else s.table.get? q := by
  obtain ⟨t, hd, -, hget⟩ := State.declare_of_not_mem hn .unresolved loc
    (.duplicateSymbol l.name (s.table.loc l.name))
  refine ⟨t, ?_, hget⟩
  rw [Program.thread, State.step_label hs, hd]
  rfl

/-- A constant that is declared first is declared with the same symbols as later. -/
theorem thread_hoisted {front back : List Element} {l : Label} {loc loc' : Location} {v : Value}
    (htop : (Program.thread State.step {} front).2.stack = [])
    (hq : (Program.thread State.step {} (front ++
      ([⟨loc, .label l⟩, ⟨loc', .equ v⟩] ++ back))).2.diagnostics = []) :
    ∃ back' s t,
      Program.thread State.step {} (front ++ ([⟨loc, .label l⟩, ⟨loc', .equ v⟩] ++ back)) =
        ((Program.thread State.step {} front).1 ++ (constant l loc v loc' ++ back'), s) ∧
      Program.thread State.step {} ([⟨loc, .label l⟩, ⟨loc', .equ v⟩] ++ (front ++ back)) =
        (constant l loc v loc' ++ ((Program.thread State.step {} front).1 ++ back'),
          { s with table := t }) ∧
      ∀ q, t.get? q = s.table.get? q := by
  generalize hfront : Program.thread State.step {} front = r at htop
  obtain ⟨front', s₁⟩ := r
  rw [Program.thread_append, hfront, Program.thread_append] at hq
  dsimp only at htop hq
  have hn : l.name ∉ s₁.table.names := by
    intro hn
    have hlabel := (thread_progress _ back).reports.quiet hq
    rw [Program.thread, State.step_label htop, State.declare_of_mem hn] at hlabel
    exact List.cons_ne_nil _ _ (List.append_eq_nil_iff.1 hlabel).2
  obtain ⟨t₂, hpair, hget₂⟩ := State.thread_constant htop hn loc v loc'
  obtain ⟨t₀, hpair', hget₀⟩ :=
    State.thread_constant (s := {}) (l := l) rfl List.not_mem_nil loc v loc'
  rw [hpair] at hq
  -- over the elements before it, the constant is declared in one run and not in the other
  have hfirst : Foreseen l.name {} t₀ := by
    refine ⟨fun q hqx => ?_, ?_, .inl rfl⟩
    · rw [hget₀, if_neg hqx]
    · rw [hget₀, if_pos rfl]
  have hq₁ : (Program.thread State.step {} front).2.diagnostics = [] := by
    rw [hfront]
    exact (thread_progress { s₁ with table := t₂ } back).reports.quiet hq
  have hx₁ : (Program.thread State.step {} front).2.table.get? l.name = none := by
    rw [hfront]
    exact SymbolTable.get?_eq_none hn
  obtain ⟨t₁, hrun₁, h₁⟩ := hfirst.thread hq₁ hx₁
  rw [hfront] at hrun₁ h₁
  dsimp only at h₁ ⊢
  -- behind it, it is declared in both
  have hsecond : Foreseen l.name { s₁ with table := t₂ } t₁ := by
    refine ⟨fun q hqx => ?_, h₁.here, .inr ?_⟩
    · exact (h₁.other q hqx).trans ((hget₂ q).trans (if_neg hqx)).symm
    · exact (hget₂ _).trans (if_pos rfl)
  have hx₂ := (thread_progress { s₁ with table := t₂ } back).keeps l.name .unresolved
    ((hget₂ _).trans (if_pos rfl))
  obtain ⟨t, hrun₂, h₂⟩ := hsecond.thread hq (hx₂.trans ((hget₂ _).trans (if_pos rfl)).symm)
  refine ⟨(Program.thread State.step { s₁ with table := t₂ } back).1,
    (Program.thread State.step { s₁ with table := t₂ } back).2, t, ?_, ?_, fun q => ?_⟩
  · exact Program.thread_append_eq hfront (Program.thread_append_eq hpair rfl)
  · exact Program.thread_append_eq hpair' (Program.thread_append_eq hrun₁ hrun₂)
  · by_cases hqx : q = l.name
    · rw [hqx, h₂.here, hx₂]
    · exact h₂.other q hqx

end Declarations

namespace Layout

theorem State.boundValue_of_not_uses {v : Value} (h : v.uses "$" = false) (scopes : ScopeStack)
    (address : Int64) : State.boundValue scopes address v = v.withScope scopes.current := by
  have huses : (v.withScope scopes.current).uses "$" = v.uses "$" := by
    unfold Value.uses
    rw [Value.content_withScope]
  unfold State.boundValue
  dsimp only
  rw [huses, h, if_neg Bool.false_ne_true]

theorem State.thread_constant {s : State} (hp : s.pending = []) (hs : s.scopes = [])
    (h : Ready s (l.name :: symbols)) (hv : v.uses "$" = false) (loc loc' : Location) :
    ∃ t, Program.thread State.step s (Declarations.constant l loc v loc') =
        (Declarations.constant l loc v loc', s.withTable t) ∧
      t.names = s.table.names ∧
      ∀ q, t.get? q = if q = l.name then some (v.withScope "") else s.table.get? q := by
  have hu := h.bare.unresolved l.name List.mem_cons_self
  have hl : (if l.name.isEmpty then l.name else l.name) = l.name := ite_self _
  have hlabel : s.placeLabel { l with symbol := l.name } = ({ l with symbol := l.name },
      { s with table := s.table.set l.name (.number s.address), pending := [l.name] }) := by
    unfold State.placeLabel
    simp only [hl, hu, hp]
    rfl
  refine ⟨(s.table.set l.name (.number s.address)).set l.name (v.withScope ""), ?_, ?_,
    fun q => ?_⟩
  · have hbound : State.boundValue s.scopes s.address v = v.withScope "" := by
      rw [State.boundValue_of_not_uses hv, hs]
      rfl
    change
      ([(⟨loc, .label (s.placeLabel { l with symbol := l.name }).1⟩ : Element), ⟨loc', .equ v⟩],
      ({ (s.placeLabel { l with symbol := l.name }).2.bind v loc' with pending := [] } : State)) = _
    rw [hlabel]
    change (_, ({ s with
      table := (s.table.set l.name (.number s.address)).set l.name
        (State.boundValue s.scopes s.address v)
      pending := [] } : State)) = _
    rw [hbound, ← hp]
    rfl
  · have hn := SymbolTable.mem_names_of_get? hu
    have houtline := SymbolTable.outline_set hn (.number s.address)
    rw [SymbolTable.names_congr (SymbolTable.outline_set (SymbolTable.names_congr houtline ▸ hn) _),
      SymbolTable.names_congr houtline]
  · rw [SymbolTable.get?_set, SymbolTable.get?_set]
    split <;> rfl

theorem State.ahead_of_value {s : State} (hp : s.pending = [])
    (hn : ∀ q, q ∈ t.names ↔ q ∈ s.table.names)
    (hget : ∀ q, t.get? q = if q = x then some w else s.table.get? q)
    (hx : s.table.get? x = some .unresolved) (hleads : s.table.Leads final)
    (hw : final.Bears x w) : Ahead final s t := by
  have hunder : s.table.Underlies t := by
    refine ⟨fun q => (hn q).symm, fun q v hv => ?_⟩
    by_cases hq : q = x
    · rw [hq, hx] at hv
      cases hv
      exact .of_unresolved rfl
    · exact .of_get? ((hget q).trans ((if_neg hq).trans hv))
  refine ⟨hunder, ?_, fun q hq => ?_, ?_⟩
  · rw [settled_of_not_pending hp, settled_withTable hp]
    exact hunder
  · rw [hp] at hq
    cases hq
  · rw [settled_withTable hp]
    refine ⟨fun q => (hn q).trans (hleads.underlies.names q), fun q v hv => ?_⟩
    rw [hget] at hv
    by_cases hq : q = x
    · rw [if_pos hq] at hv
      cases hv
      rw [hq]
      exact hw
    · rw [if_neg hq] at hv
      exact hleads.bears_of_get? hv

theorem State.Ahead.value {final : SymbolTable} {s : State} (h : Ahead final s t)
    (hp : s.pending = []) (hn : t'.names = s.table.names)
    (hget : ∀ q, t'.get? q = if q = x then some w else s.table.get? q) (hw : t.Bears x w) :
    Ahead final (s.withTable t') t := by
  have hunder : t'.Underlies t := by
    refine ⟨fun q => ?_, fun q v hv => ?_⟩
    · rw [hn]
      exact h.table.names q
    · rw [hget] at hv
      by_cases hq : q = x
      · rw [if_pos hq] at hv
        cases hv
        rw [hq]
        exact hw
      · rw [if_neg hq] at hv
        exact h.table.bears q v hv
  refine ⟨hunder, ?_, fun q hq => ?_, h.final⟩
  · rw [settled_withTable hp, settled_withTable (s := s.withTable t') hp]
    exact hunder
  · have hq' : q ∈ s.pending := hq
    rw [hp] at hq'
    cases hq'

section
variable {es : List Element} {pre mid post post' : List Element}

/-- A stretch of a program without problems is placed alike by a table that is ahead. -/
theorem State.Ahead.stretch {t : SymbolTable}
    (h : Ahead (finalTable (Declarations.collect es))
      (State.through (Declarations.collect es).table pre) t)
    (hc : (Declarations.collect es).diagnostics = [])
    (hq : (assign (Declarations.collect es).program (Declarations.collect es).table).diagnostics =
      [])
    (htexts : ∀ pre e post,
      Program.outside (Declarations.collect es).program = pre ++ e :: post →
      State.InTime (finalTable (Declarations.collect es))
        (State.through (Declarations.collect es).table pre) e)
    (hpos : Program.outside (Declarations.collect es).program = pre ++ (mid ++ post))
    (hr : Ready ((State.through (Declarations.collect es).table pre).withTable t)
      (Declarations.labelSymbols (mid ++ post'))) :
    ∃ t₁, Program.thread State.step
          ((State.through (Declarations.collect es).table pre).withTable t) mid =
        ((Program.thread State.step (State.through (Declarations.collect es).table pre) mid).1,
          (State.through (Declarations.collect es).table (pre ++ mid)).withTable t₁) ∧
      Ahead (finalTable (Declarations.collect es))
        (State.through (Declarations.collect es).table (pre ++ mid)) t₁ := by
  rw [State.through_append]
  refine h.thread (ready_through hc hpos) hr (fun e he => ?_) fun pre' e post' hmid => ?_
  · apply Declarations.named_collect
    rw [hpos]
    exact List.mem_append_right _ (List.mem_append_left _ he)
  · have hpos' : Program.outside (Declarations.collect es).program =
        (pre ++ pre') ++ e :: (post' ++ post) := by
      rw [hpos, hmid]
      simp only [List.append_assoc, List.cons_append]
    have hleads := settled_leads_final hc (hpos'.trans (List.append_cons _ e _))
    have hquiet := quiet_step hq hpos'
    have htext := htexts (pre ++ pre') e (post' ++ post) hpos'
    rw [State.through_append] at hleads
    rw [State.through_append] at hleads hquiet htext
    exact ⟨hquiet, hleads, htext⟩

end

section
variable {es es' front back : List Element} {l : Label} {loc loc' : Location} {v : Value}

theorem labelSymbols_constant (l : Label) (loc : Location) (v : Value) (loc' : Location)
    (es : List Element) :
    Declarations.labelSymbols (Declarations.constant l loc v loc' ++ es) =
      l.name :: Declarations.labelSymbols es :=
  rfl

/-- A constant stands outside of all scopes, and not directly behind another label: there it takes
its value, and so it does in front. -/
theorem constant_placed (hc : (Declarations.collect es).diagnostics = [])
    (hpos : Program.outside (Declarations.collect es).program =
      front ++ (Declarations.constant l loc v loc' ++ back))
    (hpending : (State.through (Declarations.collect es).table front).pending = [])
    (hscopes : ScopeStack.behind front = []) (hv : v.uses "$" = false) :
    ∃ t, Program.thread State.step (State.through (Declarations.collect es).table front)
          (Declarations.constant l loc v loc') =
        (Declarations.constant l loc v loc',
          (State.through (Declarations.collect es).table front).withTable t) ∧
      t.names = (State.through (Declarations.collect es).table front).table.names ∧
      (∀ q, t.get? q = if q = l.name then some (v.withScope "") else
        (State.through (Declarations.collect es).table front).table.get? q) ∧
      (finalTable (Declarations.collect es)).Bears l.name (v.withScope "") := by
  have hready := ready_through hc hpos
  rw [labelSymbols_constant] at hready
  have hfront : (State.through (Declarations.collect es).table front).scopes = [] := by
    rw [State.scopes_through, hscopes]
  obtain ⟨t, hrun, hnames, hget⟩ := State.thread_constant hpending hfront hready hv loc loc'
  refine ⟨t, hrun, hnames, hget, ?_⟩
  have hleads := settled_leads_final hc (hpos.trans (List.append_assoc _ _ _).symm)
  rw [State.through_append, hrun, State.settled_withTable hpending] at hleads
  apply hleads.bears_of_get?
  exact (hget l.name).trans (if_pos rfl)

/-- Two declared programs that differ in the place of a constant: it stands behind `front` in the
one, which is laid out without problems, and before it in the other. -/
structure Hoisted (es es' front back : List Element) (l : Label) (loc : Location) (v : Value)
    (loc' : Location) : Prop where
  declared : (Declarations.collect es).diagnostics = []
  declared' : (Declarations.collect es').diagnostics = []
  program : Program.outside (Declarations.collect es).program =
    front ++ (Declarations.constant l loc v loc' ++ back)
  program' : Program.outside (Declarations.collect es').program =
    Declarations.constant l loc v loc' ++ (front ++ back)
  table : ∀ q, (Declarations.collect es').table.get? q = (Declarations.collect es).table.get? q
  placed :
    (assign (Declarations.collect es).program (Declarations.collect es).table).diagnostics = []
  pending : (State.through (Declarations.collect es).table front).pending = []
  scopes : ScopeStack.behind front = []
  here : v.uses "$" = false
  texts : ∀ pre e post, Program.outside (Declarations.collect es).program = pre ++ e :: post →
    State.InTime (finalTable (Declarations.collect es))
      (State.through (Declarations.collect es).table pre) e

namespace Hoisted

theorem first (h : Hoisted es es' front back l loc v loc') :
    ∃ t, Program.thread State.step { table := (Declarations.collect es').table }
          (Declarations.constant l loc v loc') =
        (Declarations.constant l loc v loc',
          (State.through (Declarations.collect es).table []).withTable t) ∧
      t.get? l.name = some (v.withScope "") ∧
      State.Ahead (finalTable (Declarations.collect es))
        (State.through (Declarations.collect es).table []) t := by
  obtain ⟨-, -, -, -, hvalue⟩ :=
    constant_placed h.declared h.program h.pending h.scopes h.here
  obtain ⟨t, hrun, hnames, hget, -⟩ :=
    constant_placed h.declared' (h.program'.trans (List.nil_append _).symm) rfl rfl h.here
  have hmem : l.name ∈
      Declarations.labelSymbols (Program.outside (Declarations.collect es).program) := by
    rw [h.program, Declarations.labelSymbols, List.filterMap_append]
    exact List.mem_append_right _ List.mem_cons_self
  refine ⟨t, hrun, (hget l.name).trans (if_pos rfl), ?_⟩
  refine State.ahead_of_value rfl (fun q => ?_) (fun q => ?_)
    ((ready_declared h.declared).bare.unresolved _ hmem) (declared_leads_final h.declared) hvalue
  · rw [hnames]
    change q ∈ (Declarations.collect es').table.names ↔ q ∈ (Declarations.collect es).table.names
    rw [← SymbolTable.get?_isSome, h.table, SymbolTable.get?_isSome]
  · rw [hget]
    change (if _ then _ else (Declarations.collect es').table.get? q) = _
    rw [h.table]
    rfl

/-- Over the elements before the constant, the other run stays ahead. Behind the constant it has its
value in both. -/
theorem before (h : Hoisted es es' front back l loc v loc') :
    ∃ t, Program.thread State.step
          (State.through (Declarations.collect es').table (Declarations.constant l loc v loc'))
          front =
        ((Program.thread State.step { table := (Declarations.collect es).table } front).1,
          (State.through (Declarations.collect es).table
            (front ++ Declarations.constant l loc v loc')).withTable t) ∧
      State.Ahead (finalTable (Declarations.collect es))
        (State.through (Declarations.collect es).table
          (front ++ Declarations.constant l loc v loc')) t := by
  obtain ⟨t₀, hfirst, hvalue₀, hahead₀⟩ := h.first
  obtain ⟨t₂, hconstant, hnames, hget, -⟩ :=
    constant_placed h.declared h.program h.pending h.scopes h.here
  have hready := ready_through h.declared' h.program'
  have hleads := settled_leads h.declared' h.program'
  rw [State.through_append] at hleads
  rw [State.through, hfirst] at hready hleads ⊢
  obtain ⟨t₁, hfront, hahead₁⟩ :=
    hahead₀.stretch h.declared h.placed h.texts h.program hready
  rw [hfront, State.settled_withTable rfl] at hleads
  have hleads' : t₀.Leads
      (State.settled ((State.through (Declarations.collect es).table front).withTable t₁)) := hleads
  rw [State.settled_withTable h.pending] at hleads'
  have hbehind : State.through (Declarations.collect es).table
      (front ++ Declarations.constant l loc v loc') =
      (State.through (Declarations.collect es).table front).withTable t₂ := by
    rw [State.through_append, hconstant]
  rw [hbehind]
  exact ⟨t₁, hfront, hahead₁.value h.pending hnames hget (hleads'.bears_of_get? hvalue₀)⟩

/-- The other run ends ahead, and not beyond what is known after evaluation. -/
theorem behind (h : Hoisted es es' front back l loc v loc') :
    ∃ t, Program.thread State.step
          (State.through (Declarations.collect es').table
            (Declarations.constant l loc v loc' ++ front)) back =
        ((Program.thread State.step (State.through (Declarations.collect es).table
            (front ++ Declarations.constant l loc v loc')) back).1,
          (State.through (Declarations.collect es).table
            (front ++ (Declarations.constant l loc v loc' ++ back))).withTable t) ∧
      (State.through (Declarations.collect es).table
        (front ++ (Declarations.constant l loc v loc' ++ back))).table.Underlies t ∧
      t.Underlies (finalTable (Declarations.collect es)) := by
  obtain ⟨t₁, hbefore, hahead₁⟩ := h.before
  have hprogram := h.program'.trans (List.append_assoc _ _ _).symm
  have hready := ready_through h.declared' hprogram
  have hthrough : State.through (Declarations.collect es').table
      (Declarations.constant l loc v loc' ++ front) =
      (State.through (Declarations.collect es).table
        (front ++ Declarations.constant l loc v loc')).withTable t₁ := by
    rw [State.through_append, hbefore]
  rw [hthrough, ← List.append_nil back] at hready
  have hpos : Program.outside (Declarations.collect es).program =
      (front ++ Declarations.constant l loc v loc') ++ (back ++ []) := by
    rw [h.program, List.append_nil, List.append_assoc]
  obtain ⟨t, hback, hahead⟩ := hahead₁.stretch h.declared h.placed h.texts hpos hready
  rw [List.append_assoc] at hback hahead
  rw [← hthrough] at hback
  have hend := ready_through h.declared' (hprogram.trans (List.append_nil _).symm)
  rw [State.through_append, hback] at hend
  refine ⟨t, hback, hahead.table, hahead.table_final hend ?_⟩
  unfold finalTable
  rw [assign_table, h.program]
  exact (SymbolTable.settles_evaluate _).grows.leads

/-- A constant that is defined first leaves all that is placed where it was. -/
theorem thread_eq (h : Hoisted es es' front back l loc v loc') :
    ∃ front' back' s t,
      Program.thread State.step { table := (Declarations.collect es).table }
          (front ++ (Declarations.constant l loc v loc' ++ back)) =
        (front' ++ (Declarations.constant l loc v loc' ++ back'), s) ∧
      Program.thread State.step { table := (Declarations.collect es').table }
          (Declarations.constant l loc v loc' ++ (front ++ back)) =
        (Declarations.constant l loc v loc' ++ (front' ++ back'), s.withTable t) ∧
      s.table.Underlies t ∧ t.Underlies (finalTable (Declarations.collect es)) := by
  obtain ⟨t₂, hconstant, -⟩ := constant_placed h.declared h.program h.pending h.scopes h.here
  obtain ⟨t₀, hfirst, -⟩ := h.first
  obtain ⟨t₁, hbefore, -⟩ := h.before
  obtain ⟨t, hbehind, hunder, hfinal⟩ := h.behind
  have hend := State.through_append (Declarations.collect es).table
    (front ++ Declarations.constant l loc v loc') back
  rw [← List.append_assoc, hend] at hbehind hunder
  rw [State.through_append _ _ front, hbefore] at hbehind
  rw [State.through, hfirst] at hbefore
  rw [State.through_append, hconstant] at hbefore hbehind hunder
  exact ⟨_, _, _, t, Program.thread_append_eq rfl (Program.thread_append_eq hconstant rfl),
    Program.thread_append_eq hfirst (Program.thread_append_eq hbefore hbehind), hunder, hfinal⟩

theorem assign (h : Hoisted es es' front back l loc v loc') :
    let placed := Layout.assign (Declarations.collect es).program (Declarations.collect es).table
    let placed' :=
      Layout.assign (Declarations.collect es').program (Declarations.collect es').table
    ∃ front' back', Program.outside placed.program =
        front' ++ (Declarations.constant l loc v loc' ++ back') ∧
      Program.outside placed'.program =
        Declarations.constant l loc v loc' ++ (front' ++ back') ∧
      placed'.diagnostics = [] ∧ placed.table.Underlies placed'.table ∧
        placed'.table.Underlies placed.table.evaluate.1 := by
  intro placed placed'
  obtain ⟨front', back', s, t, hrun, hrun', hunder, hfinal⟩ := h.thread_eq
  rw [← h.program] at hrun
  rw [← h.program'] at hrun'
  have htable : placed.table = s.table :=
    (assign_table _ _).trans (congrArg (fun r => r.2.table) hrun)
  have htable' : placed'.table = t :=
    (assign_table _ _).trans (congrArg (fun r => r.2.table) hrun')
  refine ⟨front', back', (outside_assign _ _).trans (congrArg Prod.fst hrun),
    (outside_assign _ _).trans (congrArg Prod.fst hrun'), ?_, ?_, ?_⟩
  · have hplaced := h.placed
    rw [assign_diagnostics, State.through, hrun] at hplaced
    rw [assign_diagnostics, State.through, hrun']
    exact hplaced
  · rw [htable, htable']
    exact hunder
  · rw [htable']
    exact hfinal

end Hoisted

end
end Layout

namespace Patch.State

/-- Patching has come equally far by the tables `t` and `t'`, and has found no problem by `t'`. -/
structure Alongside (t t' : SymbolTable) (s s' : State) : Prop where
  memo : Memo.Sound t s.memo
  memo' : Memo.Sound t' s'.memo
  scopes : s'.scopes = s.scopes
  quiet : s'.diagnostics.toList = []

section
variable {t t' : SymbolTable} {s s' : State}

theorem Alongside.advance (h : Alongside t t' s s') (hs : Advances s s₁) (hs' : Advances s' s₁')
    (hq : s₁'.diagnostics = s'.diagnostics) : Alongside t t' s₁ s₁' := by
  refine ⟨hs.memo t h.memo, hs'.memo t' h.memo', ?_, ?_⟩
  · rw [hs.scopes, hs'.scopes, h.scopes]
  · rw [hq]
    exact h.quiet

theorem Alongside.operand (h : Alongside t t' s s')
    (hop : ∀ v scope here d, t.operand v scope here = .ok d → t'.operand v scope here = .ok d)
    (hd : s.operand site v = (.ok d, s₁)) : (s'.operand site v).1 = .ok d := by
  have hd' := hop _ _ _ _ (operand_eq_ok h.memo hd)
  rw [← h.scopes] at hd'
  have hv := (SymbolTable.operand_of_sound h.memo' v (s'.scopes.scopeOf v) site.address).1
  rw [hd'] at hv
  exact Except.eq_ok_of_toOption hv

variable
  (hop : ∀ v scope here d, t.operand v scope here = .ok d → t'.operand v scope here = .ok d)
include hop

/-- Where one state evaluates an operand, so does the other, and neither reports anything. -/
theorem Alongside.operand_eq (h : Alongside t t' s s') (hd : s.operand site v = (.ok d, s₁)) :
    ∃ s₁', s'.operand site v = (.ok d, s₁') ∧ Alongside t t' s₁ s₁' := by
  have hr := h.operand hop hd
  have hadv := s.operand_advances site v
  rw [hd] at hadv
  refine ⟨(s'.operand site v).2, Prod.ext hr rfl, ?_⟩
  exact h.advance hadv (s'.operand_advances site v) rfl

theorem Alongside.patchByte (h : Alongside t t' s s')
    (hq : (s.patchByte site v).2.diagnostics.toList = []) :
    (s'.patchByte site v).1 = (s.patchByte site v).1 ∧
      Alongside t t' (s.patchByte site v).2 (s'.patchByte site v).2 := by
  unfold State.patchByte at hq ⊢
  rcases hr : s.operand site v with ⟨r, s₁⟩
  rw [hr] at hq
  cases r with
  | error e => exact (not_quiet_report hq).elim
  | ok d =>
    obtain ⟨s₁', hr', h₁⟩ := h.operand_eq hop hr
    rw [hr']
    cases d with
    | number n => exact ⟨rfl, h₁⟩
    | text w =>
      dsimp only at hq ⊢
      split
      · exact ⟨rfl, h₁⟩
      · rename_i hb
        split
        · rename_i hplaced
          split at hq
          · rename_i b hbytes
            exact (hb b hbytes).elim
          · rw [if_pos hplaced] at hq
            exact (not_quiet_report hq).elim
        · exact ⟨rfl, h₁⟩

theorem Alongside.patchWord (h : Alongside t t' s s')
    (hq : (s.patchWord site v).2.diagnostics.toList = []) :
    (s'.patchWord site v).1 = (s.patchWord site v).1 ∧
      Alongside t t' (s.patchWord site v).2 (s'.patchWord site v).2 := by
  unfold State.patchWord at hq ⊢
  rcases hr : s.operand site v with ⟨r, s₁⟩
  rw [hr] at hq
  cases r with
  | error e => exact (not_quiet_report hq).elim
  | ok d =>
    obtain ⟨s₁', hr', h₁⟩ := h.operand_eq hop hr
    rw [hr']
    dsimp only at hq ⊢
    cases hn : d.asNumber none with
    | error e =>
      rw [hn] at hq
      exact (not_quiet_report hq).elim
    | ok n => exact ⟨rfl, h₁⟩

theorem Alongside.patchRelative (h : Alongside t t' s s')
    (hq : (s.patchRelative site length v).2.diagnostics.toList = []) :
    (s'.patchRelative site length v).1 = (s.patchRelative site length v).1 ∧
      Alongside t t' (s.patchRelative site length v).2 (s'.patchRelative site length v).2 := by
  unfold State.patchRelative at hq ⊢
  rcases hr : s.operand site v with ⟨r, s₁⟩
  rw [hr] at hq
  dsimp only at hq ⊢
  cases hn : r >>= Datum.asNumber none with
  | error e =>
    rw [hn] at hq
    exact (not_quiet_report hq).elim
  | ok target =>
    obtain ⟨d, rfl, -⟩ := Except.bind_eq_ok.1 hn
    obtain ⟨s₁', hr', h₁⟩ := h.operand_eq hop hr
    rw [hr', hn]
    rw [hn] at hq
    dsimp only at hq ⊢
    split
    · rename_i hrange
      rw [if_pos hrange] at hq
      exact (not_quiet_report hq).elim
    · exact ⟨rfl, h₁⟩

theorem Alongside.patchSlots (h : Alongside t t' s s')
    (hq : (s.patchSlots site done slots).2.diagnostics.toList = []) :
    (s'.patchSlots site done slots).1 = (s.patchSlots site done slots).1 ∧
      Alongside t t' (s.patchSlots site done slots).2 (s'.patchSlots site done slots).2 := by
  fun_induction State.patchSlots s site done slots generalizing s' with
  | case1 s done => exact ⟨rfl, h⟩
  | case2 s done v rest slots s₁ hr ih =>
    have hq₁ : (s.patchWord site v).2.diagnostics.toList = [] := by
      rw [hr]
      exact (patchSlots_advances _ _ _ _).quiet hq
    obtain ⟨hsame, h₁⟩ := h.patchWord hop hq₁
    rw [hr] at hsame h₁
    rw [patchSlots_word, hsame]
    exact ih h₁ hq
  | case3 s done v rest hh slots s₁ hr ih =>
    have hq₁ : (s.patchByte site v).2.diagnostics.toList = [] := by
      rw [hr]
      exact (patchSlots_advances _ _ _ _).quiet hq
    obtain ⟨hsame, h₁⟩ := h.patchByte hop hq₁
    rw [hr] at hsame h₁
    have hnot : rest.head?.any Slot.isHigh = false := by
      cases rest with
      | nil => rfl
      | cons slot rest =>
        cases slot with
        | high => exact (hh rest rfl).elim
        | _ => rfl
    rw [patchSlots_expr s' site done v hnot, hsame]
    exact ih h₁ hq
  | case4 s done v rest slot s₁ hr ih =>
    have hq₁ : (s.patchRelative site (done.size + rest.length + 1) v).2.diagnostics.toList =
        [] := by
      rw [hr]
      exact (patchSlots_advances _ _ _ _).quiet hq
    obtain ⟨hsame, h₁⟩ := h.patchRelative hop hq₁
    rw [hr] at hsame h₁
    rw [patchSlots_relative, hsame]
    exact ih h₁ hq
  | case5 s done slot rest h₁ h₂ h₃ ih =>
    have hstep : s'.patchSlots site done (slot :: rest) =
        s'.patchSlots site (done.push slot) rest := by
      cases slot with
      | byte => rfl
      | high => rfl
      | expr v => exact (h₂ v rfl).elim
      | relative v => exact (h₃ v rfl).elim
    rw [hstep]
    exact ih h hq

theorem Alongside.step (h : Alongside t t' s s') (hq : (s.step e).2.diagnostics.toList = []) :
    (s'.step e).1 = (s.step e).1 ∧ Alongside t t' (s.step e).2 (s'.step e).2 := by
  by_cases he : ∃ tm, e.stmt = .bytes tm
  · obtain ⟨tm, he⟩ := he
    obtain ⟨loc, stmt⟩ := e
    cases he
    rw [step_bytes] at hq ⊢
    rw [step_bytes]
    obtain ⟨hsame, h₁⟩ := h.patchSlots hop hq
    rw [hsame]
    exact ⟨rfl, h₁⟩
  · have he' : ∀ tm, e.stmt ≠ .bytes tm := fun tm h => he ⟨tm, h⟩
    rw [step_of_not_bytes s he', step_of_not_bytes s' he']
    exact ⟨rfl, h.memo, h.memo', congrArg (ScopeStack.after · e.stmt) h.scopes, h.quiet⟩

/-- Patching gives the same by a table that knows what another knows, if that is enough. -/
theorem Alongside.thread (h : Alongside t t' s s')
    (hq : (Program.thread State.step s es).2.diagnostics.toList = []) :
    (Program.thread State.step s' es).1 = (Program.thread State.step s es).1 ∧
      Alongside t t' (Program.thread State.step s es).2 (Program.thread State.step s' es).2 := by
  induction es generalizing s s' with
  | nil => exact ⟨rfl, h⟩
  | cons e es ih =>
    obtain ⟨hsame, h₁⟩ := h.step hop ((thread_reports (s.step e).2 es).quiet hq)
    obtain ⟨hrest, h₂⟩ := ih h₁ hq
    rw [Program.thread, Program.thread, hsame, hrest]
    exact ⟨rfl, h₂⟩

end
end Patch.State

namespace Macro

section
variable {t : MacroTable} {pre mid post : List Element}

theorem expansion_eq (ht : Plain t) (limit : Nat) (es : List Element) :
    expansion t limit es = (inlined t limit (Program.outside es)).map (deepMarked t limit) ∧
      (expandAll t limit es).2 = undefinedWithin t limit (Program.outside es) ++
        (inlined t limit (Program.outside es)).flatMap (tooDeepAt t limit) := by
  obtain ⟨hout, hds⟩ := expandPasses_eq ht limit limit es []
  rw [outside_rounds ht] at hout hds
  rw [reports_eq ht, List.nil_append] at hds
  exact ⟨hout, hds⟩

theorem expansion_append (ht : Plain t) (limit : Nat) (hpre : Program.depthBehind 0 pre = 0)
    (post : List Element) :
    expansion t limit (pre ++ post) = expansion t limit pre ++ expansion t limit post ∧
      ((expandAll t limit (pre ++ post)).2 = [] ↔
        (expandAll t limit pre).2 = [] ∧ (expandAll t limit post).2 = []) := by
  have houtside : Program.outside (pre ++ post) = Program.outside pre ++ Program.outside post := by
    rw [Program.outside, Program.outsideFrom_append_behind, hpre]
    rfl
  simp only [expansion_eq ht, houtside, inlined_append, List.map_append, undefinedWithin_append,
    List.flatMap_append, List.append_eq_nil_iff]
  tauto

end

theorem Still.expansion_eq (h : Still es) (hes : ∀ e ∈ es, Program.isMark e.stmt = false)
    (ht : Plain t) (limit : Nat) :
    expansion t limit es = es ∧ (expandAll t limit es).2 = [] := by
  obtain ⟨hout, hreports⟩ := Macro.expansion_eq ht limit es
  rw [Program.outside_of_unmarked hes] at hout hreports
  rw [hout, hreports, h.inlined_eq, h.deepMarked_eq, h.undefinedWithin_eq, h.tooDeep_eq]
  exact ⟨rfl, rfl⟩

theorem Still.expansion_moved {mid pre : List Element} (h : Still mid)
    (hmid : ∀ e ∈ mid, Program.isMark e.stmt = false) (ht : Plain t) (limit : Nat)
    (hpre : Program.depthBehind 0 pre = 0) (hclosed : Program.depthBehind 0 mid = 0)
    (post : List Element) :
    expansion t limit (pre ++ (mid ++ post)) =
        expansion t limit pre ++ (mid ++ expansion t limit post) ∧
      expansion t limit (mid ++ (pre ++ post)) =
        mid ++ (expansion t limit pre ++ expansion t limit post) ∧
      ((expandAll t limit (mid ++ (pre ++ post))).2 = [] ↔
        (expandAll t limit (pre ++ (mid ++ post))).2 = []) := by
  obtain ⟨hout, hquiet⟩ := h.expansion_eq hmid ht limit
  obtain ⟨hold, hreports⟩ := expansion_append ht limit hpre (mid ++ post)
  obtain ⟨hbehind, hreports₂⟩ := expansion_append ht limit hclosed post
  obtain ⟨hnew, hreports'⟩ := expansion_append ht limit hclosed (pre ++ post)
  obtain ⟨hrest, hreports₃⟩ := expansion_append ht limit hpre post
  rw [hbehind, hout] at hold
  rw [hrest, hout] at hnew
  refine ⟨hold, hnew, ?_⟩
  rw [hreports, hreports', hreports₂, hreports₃]
  exact ⟨fun h => ⟨h.2.1, hquiet, h.2.2⟩, fun h => ⟨hquiet, h.1, h.2.2⟩⟩

theorem inlined_last (t : MacroTable) (n : Nat) (h : ∀ l, e.stmt ≠ .label l) :
    ∃ (es : List Element) (e' : Element),
      inlined t n [e] = es ++ [e'] ∧ ∀ l, e'.stmt ≠ .label l := by
  induction n with
  | zero => exact ⟨[], e, rfl, h⟩
  | succ n ih =>
    obtain ⟨es, e', hes, he'⟩ := ih
    rw [inlined_succ, hes, List.flatMap_append, List.flatMap_singleton]
    rcases not_pending_cases e' with ⟨c, hc⟩ | hn
    · cases hm : t.find? c.name with
      | none =>
        rw [copies, expandElement_undefined hc hm]
        refine ⟨_, _, rfl, fun l hl => ?_⟩
        cases hl
      | some m =>
        rw [copies, expandElement_known hc hm, ← List.cons_append, ← List.append_assoc]
        refine ⟨_, _, rfl, fun l hl => ?_⟩
        cases hl
    · rw [copies, expandElement_still t hn]
      exact ⟨_, _, rfl, he'⟩

theorem expansion_last (ht : Plain t) (limit : Nat)
    (h : ∀ e, (Program.outside es).getLast? = some e → ∀ l, e.stmt ≠ .label l) :
    ∀ e, (expansion t limit es).getLast? = some e → ∀ l, e.stmt ≠ .label l := by
  intro e he l hl
  rw [(expansion_eq ht limit es).1] at he
  rcases List.eq_nil_or_concat (Program.outside es) with hnil | ⟨init, last, hlast⟩
  · have hstill : Still [] := fun _ h => (List.not_mem_nil h).elim
    rw [hnil, hstill.inlined_eq] at he
    cases he
  · rw [List.concat_eq_append] at hlast
    have hnot := h last (by rw [hlast, List.getLast?_concat])
    obtain ⟨es', e', hes', he'⟩ := inlined_last t limit hnot
    rw [hlast, inlined_append, hes', ← List.append_assoc, List.map_append, List.map_singleton,
      List.getLast?_concat] at he
    cases he
    rcases deepMarked_cases t limit e' with hd | ⟨c, -, hd⟩
    · rw [hd] at hl
      exact he' l hl
    · rw [hd] at hl
      cases hl

end Macro

namespace Declarations.State

theorem diagnostics_finish (s : State) (t : SymbolTable) :
    ({ s with table := t } : State).finish.diagnostics = s.finish.diagnostics := by
  have hfold (frames : List Frame) (s : State) :
      (frames.foldl (fun (s : State) (frame : Frame) =>
        s.report (if frame.isCall then .unclosedCall else .unclosedBlock) frame.loc)
        { s with table := t }).diagnostics =
      (frames.foldl (fun (s : State) (frame : Frame) =>
        s.report (if frame.isCall then .unclosedCall else .unclosedBlock) frame.loc)
        s).diagnostics := by
    induction frames generalizing s with
    | nil => rfl
    | cons frame frames ih =>
      exact ih (s.report (if frame.isCall then .unclosedCall else .unclosedBlock) frame.loc)
  exact hfold s.stack s

theorem length_after {scopes scopes' : ScopeStack} (s : State) (e : Element)
    (h : scopes'.length = scopes.length) :
    (scopes'.after (s.step e).1).length = (scopes.after e.stmt).length := by
  obtain ⟨loc, stmt⟩ := e
  cases stmt with
  | call c =>
    unfold step
    dsimp only
    split
    · rename_i hc
      have hc' : (s.enterCall c loc).1.expanded = true := hc
      rw [ScopeStack.after, ScopeStack.after, if_pos hc, if_pos hc']
      exact congrArg Nat.succ h
    · rename_i hc
      rw [ScopeStack.after, ScopeStack.after, if_neg hc, if_neg hc]
      exact h
  | block scope => exact congrArg Nat.succ h
  | endBlock scope =>
    change scopes'.tail.length = scopes.tail.length
    rw [List.length_tail, List.length_tail, h]
  | endCall name scope =>
    change scopes'.tail.length = scopes.tail.length
    rw [List.length_tail, List.length_tail, h]
  | _ => exact h

theorem length_stack_thread (s : State) (es : List Element) (scopes : ScopeStack)
    (h : s.stack.length = scopes.length) :
    (Program.thread step s es).2.stack.length =
      (es.foldl (fun scopes e => scopes.after e.stmt) scopes).length := by
  induction es generalizing s scopes with
  | nil => exact h
  | cons e es ih =>
    rw [Program.thread, List.foldl_cons]
    apply ih
    have hscopes : (s.step e).2.stack.length = (s.step e).2.scopes.length :=
      (List.length_map _).symm
    rw [hscopes, scopes_step]
    exact s.length_after e ((List.length_map _).trans h)

theorem stack_thread_of_behind (h : ScopeStack.behind es = []) :
    (Program.thread step {} es).2.stack = [] := by
  have hlength := length_stack_thread {} es [] rfl
  change _ = (ScopeStack.behind es).length at hlength
  rw [h] at hlength
  exact List.length_eq_zero_iff.1 hlength

end Declarations.State

namespace Declarations

theorem collect_hoisted {front back es es' : List Element} {l : Label} {loc loc' : Location}
    {v : Value}
    (hes : Program.outside es = front ++ ([⟨loc, .label l⟩, ⟨loc', .equ v⟩] ++ back))
    (hes' : Program.outside es' = [⟨loc, .label l⟩, ⟨loc', .equ v⟩] ++ (front ++ back))
    (htop : ScopeStack.behind front = []) (hq : (collect es).diagnostics = []) :
    ∃ back', Program.outside (collect es).program =
        (Program.thread State.step {} front).1 ++ (constant l loc v loc' ++ back') ∧
      Program.outside (collect es').program =
        constant l loc v loc' ++ ((Program.thread State.step {} front).1 ++ back') ∧
      (collect es').diagnostics = [] ∧
      ∀ q, (collect es').table.get? q = (collect es).table.get? q := by
  have hquiet : (Program.thread State.step {} (Program.outside es)).2.diagnostics = [] := by
    have hfinish := hq
    rw [collect_diagnostics] at hfinish
    exact (State.finish_reports _).quiet hfinish
  rw [hes] at hquiet
  obtain ⟨back', s, t, hold, hnew, htable⟩ :=
    thread_hoisted (State.stack_thread_of_behind htop) hquiet
  rw [← hes] at hold
  rw [← hes'] at hnew
  refine ⟨back', (outside_collect es).trans (congrArg Prod.fst hold),
    (outside_collect es').trans (congrArg Prod.fst hnew), ?_, fun q => ?_⟩
  · rw [collect_diagnostics, hold] at hq
    rw [collect_diagnostics, hnew, State.diagnostics_finish]
    exact hq
  · rw [collect_table, collect_table, hold, hnew]
    exact htable q

end Declarations

theorem Program.last_thread {f : σ → Element → Statement × σ}
    (hf : ∀ s e, (∀ l, e.stmt ≠ .label l) → ∀ l, (f s e).1 ≠ .label l) (s : σ)
    (h : ∀ e, es.getLast? = some e → ∀ l, e.stmt ≠ .label l) :
    ∀ e, (thread f s es).1.getLast? = some e → ∀ l, e.stmt ≠ .label l := by
  intro e he
  rcases List.eq_nil_or_concat es with rfl | ⟨init, last, rfl⟩
  · cases he
  · rw [List.concat_eq_append] at he h
    rw [thread_append] at he
    change ((thread f s init).1 ++ [_]).getLast? = some e at he
    rw [List.getLast?_concat] at he
    cases he
    exact hf _ last (h last (List.getLast?_concat))

theorem Layout.State.pending_thread {s : State} (hs : s.pending = [])
    (h : ∀ e, es.getLast? = some e → ∀ l, e.stmt ≠ .label l) :
    (Program.thread step s es).2.pending = [] := by
  rcases List.eq_nil_or_concat es with rfl | ⟨init, last, rfl⟩
  · exact hs
  · rw [List.concat_eq_append] at h ⊢
    rw [Program.thread_append]
    change ((Program.thread step s init).2.step last).2.pending = []
    rw [step_of_not_label _ (h last (List.getLast?_concat))]

/-- Where patching finds no problem, a text of several bytes or of none was known in time. -/
theorem Layout.inTime_of_quiet
    (hq : (Patch.patch (assign es t).program final).diagnostics = [])
    (hpos : Program.outside es = pre ++ e :: post) :
    State.InTime final (State.through t pre) e := by
  intro tm he v hv
  obtain ⟨loc, stmt⟩ := e
  cases he
  obtain ⟨pre', post', hplaced, -, hscopes⟩ := template_placed t hpos
  have hquiet := Patch.quiet_step hq hplaced
  rw [Patch.State.step_bytes, State.slots_placeTemplate] at hquiet
  have hspliced :=
    Patch.State.spliced_of_quiet tm.slots (Patch.State.memo_through final pre') rfl hquiet v hv
  rw [Patch.State.scopes_through, hscopes, ← State.scopes_through t] at hspliced
  exact hspliced

namespace Patch

theorem thread_constant (s : State) (l : Label) (loc : Location) (v : Value) (loc' : Location) :
    Program.thread State.step s (Declarations.constant l loc v loc') =
      (Declarations.constant l loc v loc', s) :=
  rfl

/-- Templates are patched alike wherever the constant stands, by tables that know the same. -/
theorem patch_hoisted {front back es es' : List Element} {t t' : SymbolTable}
    (hes : Program.outside es = front ++ (Declarations.constant l loc v loc' ++ back))
    (hes' : Program.outside es' = Declarations.constant l loc v loc' ++ (front ++ back))
    (hop : ∀ v scope here d, t.operand v scope here = .ok d → t'.operand v scope here = .ok d)
    (hq : (patch es t).diagnostics = []) :
    (patch es' t').diagnostics = [] ∧
      Program.templates (patch es' t').program = Program.templates (patch es t).program := by
  generalize hfront : Program.thread State.step { memo := ⟨t, []⟩ } front = r
  obtain ⟨front', s₁⟩ := r
  generalize hback : Program.thread State.step s₁ back = r
  obtain ⟨back', s₂⟩ := r
  have hrun := Program.thread_append_eq hfront
    (Program.thread_append_eq (thread_constant s₁ l loc v loc') hback)
  rw [← hes] at hrun
  have hrest := Program.thread_append_eq hfront hback
  have hstart : State.Alongside t t' { memo := ⟨t, []⟩ } { memo := ⟨t', []⟩ } :=
    ⟨.initial t, .initial t', rfl, rfl⟩
  have hquiet : (Program.thread State.step { memo := ⟨t, []⟩ }
      (front ++ back)).2.diagnostics.toList = [] := by
    rw [patch_diagnostics, State.through, hrun] at hq
    rw [hrest]
    exact hq
  obtain ⟨hsame, hend⟩ := hstart.thread hop hquiet
  rw [hrest] at hsame
  have hrun' := Program.thread_append_eq (thread_constant { memo := ⟨t', []⟩ } l loc v loc')
    (Prod.mk.eta (p := Program.thread State.step { memo := ⟨t', []⟩ } (front ++ back))).symm
  rw [← hes'] at hrun'
  constructor
  · rw [patch_diagnostics, State.through, hrun']
    exact hend.quiet
  · rw [Program.templates_eq, Program.templates_eq, outside_patch, outside_patch, hrun, hrun',
      hsame]
    simp only [List.filterMap_append]
    rfl

end Patch

namespace Assembly

/-- The passes after expansion on a program with a constant and on one with the constant in
front. -/
theorem passes_hoisted {front back es es' : List Element} {l : Label} {loc loc' : Location}
    {v : Value}
    (hes : Program.outside es = front ++ ([⟨loc, .label l⟩, ⟨loc', .equ v⟩] ++ back))
    (hes' : Program.outside es' = [⟨loc, .label l⟩, ⟨loc', .equ v⟩] ++ (front ++ back))
    (htop : ScopeStack.behind front = [])
    (hlast : ∀ e, front.getLast? = some e → ∀ l', e.stmt ≠ .label l')
    (hv : v.uses "$" = false) :
    let declared := Declarations.collect es
    let declared' := Declarations.collect es'
    let placed := Layout.assign declared.program declared.table
    let placed' := Layout.assign declared'.program declared'.table
    let patched := Patch.patch placed.program placed.table.evaluate.1
    let patched' := Patch.patch placed'.program placed'.table.evaluate.1
    declared.diagnostics = [] → placed.diagnostics = [] → placed.table.evaluate.2 = [] →
      patched.diagnostics = [] →
      declared'.diagnostics = [] ∧ placed'.diagnostics = [] ∧ placed'.table.evaluate.2 = [] ∧
        patched'.diagnostics = [] ∧
        Program.templates patched'.program = Program.templates patched.program ∧
        ∀ q, (patched'.table.get? q).map Value.content =
          (patched.table.get? q).map Value.content := by
  intro declared declared' placed placed' patched patched' hdeclared hplaced hevaluated hpatched
  -- declaration: the same symbols
  obtain ⟨back₁, hprogram, hprogram', hdeclared', htable⟩ :=
    Declarations.collect_hoisted hes hes' htop hdeclared
  -- layout: the same places
  have hpending : (Layout.State.through declared.table
      (Program.thread Declarations.State.step {} front).1).pending = [] := by
    apply Layout.State.pending_thread rfl
    exact Program.last_thread (f := Declarations.State.step)
      (fun s e h => s.step_not_label h) {} hlast
  have hscopes : ScopeStack.behind (Program.thread Declarations.State.step {} front).1 = [] := by
    rw [Declarations.State.behind_thread_step, Declarations.State.scopes,
      Declarations.State.stack_thread_of_behind htop]
    rfl
  have hhoisted : Layout.Hoisted es es' _ back₁ l loc v loc' :=
    ⟨hdeclared, hdeclared', hprogram, hprogram', htable, hplaced, hpending, hscopes, hv,
      fun pre e post hpos => Layout.inTime_of_quiet hpatched hpos⟩
  obtain ⟨front₂, back₂, hout, hout', hplaced', hunder, hfinal⟩ := hhoisted.assign
  -- evaluation: the same values
  obtain ⟨hevaluated', hvalues⟩ := SymbolTable.evaluate_between hunder hfinal hevaluated
  have hbetween : placed.table.evaluate.1.Underlies placed'.table.evaluate.1 :=
    (hunder.leads placed'.table.settles_evaluate.grows.leads).settles placed.table.settles_evaluate
  -- patching: the same bytes
  obtain ⟨hpatched', htemplates⟩ :=
    Patch.patch_hoisted hout hout' (fun v scope here d => hbetween.operand) hpatched
  refine ⟨hdeclared', hplaced', hevaluated', hpatched', htemplates, fun q => ?_⟩
  unfold patched patched'
  rw [Patch.patch_table_of_resolved (SymbolTable.resolved_of_quiet hevaluated),
    Patch.patch_table_of_resolved (SymbolTable.resolved_of_quiet hevaluated')]
  exact hvalues q

theorem unmarked_binding (loc : Location) (l : Label) (loc' : Location) (v : Value) :
    ∀ e ∈ [⟨loc, .label l⟩, (⟨loc', .equ v⟩ : Element)], Program.isMark e.stmt = false := by
  intro e he
  rcases List.mem_cons.1 he with rfl | he
  · rfl
  · rw [List.mem_singleton.1 he]
    rfl

theorem still_binding (loc : Location) (l : Label) (loc' : Location) (v : Value) :
    Macro.Still [⟨loc, .label l⟩, (⟨loc', .equ v⟩ : Element)] := by
  intro e he c hc
  rcases List.mem_cons.1 he with rfl | he
  · cases hc
  · rw [List.mem_singleton.1 he] at hc
    cases hc

/-- A constant may be defined first. In a program that is assembled without problems, a label
outside of all scopes and directly before its value, in which `$` does not occur, can be moved with
it to the front, if no other label waits for the value: the program is still assembled without
problems, to the same image at the same origin, and all symbols have the same values. -/
theorem assemble_hoisted {pre post : List Element} {l : Label} {loc loc' : Location} {v : Value}
    {passes : Int}
    (hq : (assemble (pre ++ ([⟨loc, .label l⟩, ⟨loc', .equ v⟩] ++ post)) passes).diagnostics = [])
    (houtside : Program.depthBehind 0 pre = 0)
    (htop : ScopeStack.behind (Macro.expansion
      (assemble (pre ++ ([⟨loc, .label l⟩, ⟨loc', .equ v⟩] ++ post)) passes).macros
      (passLimit passes) pre) = [])
    (hlast : ∀ e, (Program.outside pre).getLast? = some e → ∀ l', e.stmt ≠ .label l')
    (hv : v.uses "$" = false) :
    let a := assemble (pre ++ ([⟨loc, .label l⟩, ⟨loc', .equ v⟩] ++ post)) passes
    let a' := assemble ([⟨loc, .label l⟩, ⟨loc', .equ v⟩] ++ (pre ++ post)) passes
    a'.diagnostics = [] ∧ a'.image = a.image ∧ a'.origin = a.origin ∧
      ∀ q, (a'.table.get? q).map Value.content = (a.table.get? q).map Value.content := by
  intro a a'
  have hmid := unmarked_binding loc l loc' v
  have hextract := Macro.extract_middle houtside hmid post
  have hnone : Program.depthBehind 0 [] = 0 := rfl
  have hextract' := Macro.extract_middle hnone hmid (pre ++ post)
  rw [List.nil_append, List.nil_append] at hextract'
  have hmacros : a.macros = (Macro.extract (pre ++ post)).1 := congrArg Prod.fst hextract
  have ht := Macro.plain_extract (pre ++ post)
  rw [hmacros] at htop
  obtain ⟨hold, hnew, hreports⟩ := (still_binding loc l loc' v).expansion_moved hmid ht
    (passLimit passes) houtside rfl post
  rw [quiet_iff, hextract, ← layout_of_macros (congrArg Prod.fst hextract)] at hq
  obtain ⟨hq₁, hq₂, hq₃, hq₄, hq₅, hq₆, hq₇⟩ := hq
  obtain ⟨hq₃', hq₄', hq₅', hq₆', htemplates, hvalues⟩ := passes_hoisted hold hnew htop
    (Macro.expansion_last ht (passLimit passes) hlast) hv hq₃ hq₄ hq₅ hq₆
  rw [layout_of_macros (congrArg Prod.fst hextract')] at hq₄' hq₅' hq₆' htemplates hvalues
  rw [layout_of_macros (congrArg Prod.fst hextract)] at hq₇ htemplates hvalues
  obtain ⟨himage, horigin⟩ := image_congr htemplates
  refine ⟨?_, ?_, ?_, ?_⟩
  · rw [quiet_iff, hextract', himage]
    exact ⟨hq₁, hreports.2 hq₂, hq₃', hq₄', hq₅', hq₆', hq₇⟩
  · rw [image_eq, image_eq, assemble_program, assemble_program]
    exact himage
  · rw [origin_eq, origin_eq, assemble_program, assemble_program]
    exact horigin
  · intro q
    rw [assemble_table, assemble_table]
    exact hvalues q

def lateByte : List Element :=
  [⟨⟨"f", 1⟩, .label { name := "start" }⟩,
    ⟨⟨"f", 2⟩, .bytes ⟨[.expr (.deferred "k" ["k"])], 0, 0, false⟩⟩]

theorem assemble_lateByte :
    let a := assemble (lateByte ++ ([⟨⟨"f", 3⟩, .label { name := "k" }⟩,
      ⟨⟨"f", 3⟩, .equ (.deferred "n+1" ["n"])⟩] ++
        [⟨⟨"f", 4⟩, .label { name := "n" }⟩, ⟨⟨"f", 4⟩, .equ (.number 4)⟩])) 1
    a.diagnostics = [] ∧
      ScopeStack.behind (Macro.expansion a.macros (passLimit 1) lateByte) = [] ∧
      a.bytes = [5] := by cbv

theorem assemble_hoisted_lateByte :
    let a := assemble (lateByte ++ ([⟨⟨"f", 3⟩, .label { name := "k" }⟩,
      ⟨⟨"f", 3⟩, .equ (.deferred "n+1" ["n"])⟩] ++
        [⟨⟨"f", 4⟩, .label { name := "n" }⟩, ⟨⟨"f", 4⟩, .equ (.number 4)⟩])) 1
    let a' := assemble ([⟨⟨"f", 3⟩, .label { name := "k" }⟩,
      ⟨⟨"f", 3⟩, .equ (.deferred "n+1" ["n"])⟩] ++ (lateByte ++
        [⟨⟨"f", 4⟩, .label { name := "n" }⟩, ⟨⟨"f", 4⟩, .equ (.number 4)⟩])) 1
    a.bytes = [5] ∧ a'.diagnostics = [] ∧ a'.image = a.image ∧ a'.origin = a.origin ∧
      ∀ q, (a'.table.get? q).map Value.content = (a.table.get? q).map Value.content := by
  obtain ⟨hq, htop, hbytes⟩ := assemble_lateByte
  refine ⟨hbytes, ?_⟩
  apply assemble_hoisted
  · exact hq
  · rfl
  · exact htop
  · intro e he l' hl'
    have hlast : (Program.outside lateByte).getLast? =
        some ⟨⟨"f", 2⟩, .bytes ⟨[.expr (.deferred "k" ["k"])], 0, 0, false⟩⟩ := rfl
    rw [hlast] at he
    cases he
    cases hl'
  · decide

end Assembly

end Z80Asm
