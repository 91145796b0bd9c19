import Z80Asm.Proofs.Evaluation

/-! Tables that give their names the same values, although they differ in what has been evaluated
already. -/

namespace Z80Asm
set_option autoImplicit true

namespace SymbolTable

/-- The table gives the symbol `q` what the value `v` stands for. -/
structure Bears (t : SymbolTable) (q : String) (v : Value) : Prop where
  known : ∀ d, v.content.datum? = some d → t.meaning q = some d
  deferred : ∀ text free, v.content = .deferred text free → t.get? q = some v ∨
    ∃ d, t.meaning q = some d ∧
      t.evalIn t.meaning v.here? (v.scope?.getD (Scope.ofName q)) text = .ok d

theorem Bears.of_get? {t : SymbolTable} (h : t.get? q = some v) : t.Bears q v :=
  ⟨fun _ => meaning_of_known h, fun _ _ _ => .inl h⟩

theorem Bears.of_unresolved {t : SymbolTable} (h : v.content = .unresolved) : t.Bears q v := by
  constructor
  · intro d hd
    rw [h] at hd
    cases hd
  · intro text free hc
    rw [h] at hc
    cases hc

theorem Bears.ofDatum {t : SymbolTable} (h : t.meaning q = some d) : t.Bears q (.ofDatum d) := by
  constructor
  · intro d' hd
    rw [Value.datum?_ofDatum] at hd
    exact Option.some.inj hd ▸ h
  · intro text free hc
    have hd := Value.isDeferred_ofDatum d
    rw [Value.isDeferred, hc] at hd
    cases hd

theorem Leads.bears_of_get? (h : Leads t t') (hv : t.get? q = some v) : t'.Bears q v := by
  constructor
  · exact fun d hd => h.gives q d (meaning_of_known hv hd)
  · intro text free hc
    rcases h.evaluates q v text free hv hc with hv' | ⟨d, hv', he⟩
    · exact .inl hv'
    · exact .inr ⟨d, meaning_of_known hv' (Value.datum?_ofDatum d), he⟩

theorem Bears.leads (h : t.Bears q v) (hl : Leads t t') : t'.Bears q v := by
  constructor
  · exact fun d hd => hl.gives q d (h.known d hd)
  · intro text free hc
    rcases h.deferred text free hc with hv | ⟨d, hm, he⟩
    · exact (hl.bears_of_get? hv).deferred text free hc
    · exact .inr ⟨d, hl.gives q d hm, evalIn_extends hl.outline hl.gives he⟩

/-- `t'` has the names of `t` and gives them what `t` holds, whichever of the two has evaluated it
already. -/
structure Underlies (t t' : SymbolTable) : Prop where
  names : ∀ q, q ∈ t.names ↔ q ∈ t'.names
  bears : ∀ q v, t.get? q = some v → t'.Bears q v

theorem Underlies.evalIn_eq (h : Underlies t t') : t'.evalIn = t.evalIn :=
  evalIn_congr fun q => (h.names q).symm

theorem Underlies.extends (h : Underlies t t') : Extends t.meaning t'.meaning := by
  intro name d hd
  replace hd := meaning_eq_some_iff.1 hd
  induction hd with
  | known hv hd => exact (h.bears _ _ hv).known _ hd
  | deferred value hv hc hvalue he ih =>
    -- the expression has the same value with all that `t'` gives
    have he' := evalIn_mono (fun q _ d => ih q d) he
    rw [← h.evalIn_eq] at he'
    rcases (h.bears _ _ hv).deferred _ _ hc with hv' | ⟨d, hm, hd⟩
    · rw [meaning_of_deferred hv' hc, he']
      rfl
    · rw [hm]
      exact congrArg some (Except.ok.inj (hd.symm.trans he'))

theorem Leads.underlies (h : Leads t t') : Underlies t t' :=
  ⟨fun q => by rw [names_congr h.outline], fun _ _ => h.bears_of_get?⟩

theorem Underlies.leads (h : Underlies t t') (hl : Leads t' t'') : Underlies t t'' :=
  ⟨fun q => (h.names q).trans (hl.underlies.names q), fun q v hv => (h.bears q v hv).leads hl⟩

theorem Underlies.settles (h : Underlies t t') (hs : Settles t t₁) : Underlies t₁ t' := by
  refine ⟨fun q => ?_, fun q v hv => ?_⟩
  · rw [hs.names]
    exact h.names q
  · rcases hs.get?_cases hv with hv | ⟨d, hd, rfl⟩
    · exact h.bears q v hv
    · exact .ofDatum (h.extends q d (meaning_eq_some_iff.2 hd))

theorem Underlies.operand (h : Underlies t t') (hd : t.operand v scope here = .ok d) :
    t'.operand v scope here = .ok d := by
  rw [operand_eq_ok] at hd ⊢
  unfold operandIn at hd ⊢
  cases hc : v.content with
  | deferred text free =>
    simp only [hc] at hd ⊢
    rw [h.evalIn_eq]
    exact evalIn_mono (fun q _ => h.extends q) hd
  | _ =>
    simp only [hc] at hd ⊢
    exact hd

/-- Both tables change, the second so that it keeps what it gives, and the first only to hold what
the second holds. -/
theorem Underlies.update (h : Underlies t u) (hl : Leads u u') (hn : t'.names = t.names)
    (ht : ∀ q, t'.get? q = t.get? q ∨ t'.get? q = u'.get? q) : Underlies t' u' := by
  refine ⟨fun q => ?_, fun q v hv => ?_⟩
  · rw [hn]
    exact (h.leads hl).names q
  · rcases ht q with hq | hq
    · exact (h.bears q v (hq ▸ hv)).leads hl
    · exact .of_get? (hq ▸ hv)

theorem Underlies.congr (h : Underlies t u) (ht : ∀ q, t'.get? q = t.get? q) : Underlies t' u := by
  refine ⟨fun q => ?_, fun q v hv => h.bears q v (ht q ▸ hv)⟩
  rw [← get?_isSome, ht, get?_isSome]
  exact h.names q

theorem leads_set {t : SymbolTable} (h : t.get? q = some .unresolved) (v : Value) :
    t.Leads (t.set q v) := by
  have hn := mem_names_of_get? h
  apply Grows.leads
  refine ⟨outline_set hn v, fun p w hw => ?_⟩
  by_cases hp : p = q
  · rw [hp, h] at hw
    cases hw
    exact .inr (.inl rfl)
  · rw [get?_set_of_ne hn hp]
    exact .inl hw

theorem Extends.antisymm (h : Extends f g) (h' : Extends g f) : f = g := by
  funext q
  exact Option.ext fun d => ⟨h q d, h' q d⟩

theorem evaluateSymbol_of_not_deferred {s : Memo}
    (h : ∀ v, s.table.get? name = some v → v.isDeferred = false) (ds : List Diagnostic) :
    evaluateSymbol (s, ds) name = (s, ds) := by
  unfold evaluateSymbol
  cases hv : s.table.get? name with
  | none => simp only [hv]
  | some v =>
    simp only [hv, h v hv, Bool.false_and, Bool.false_eq_true, ↓reduceIte]

/-- A table in which every expression has a value is evaluated without problems. -/
theorem evaluate_quiet {t : SymbolTable}
    (h : ∀ name v, t.get? name = some v → v.isDeferred = true → ∃ d, t.meaning name = some d) :
    t.evaluate.2 = [] := by
  have hfold (names : List String) (s : Memo) (hs : Memo.Sound t s) :
      (names.foldl evaluateSymbol (s, [])).2 = [] := by
    induction names generalizing s with
    | nil => rfl
    | cons name names ih =>
      have hstep : (evaluateSymbol (s, []) name).2 = [] := by
        by_cases hd : ∃ v, s.table.get? name = some v ∧ v.isDeferred = true
        · obtain ⟨v, hv, hd⟩ := hd
          obtain ⟨d, hm⟩ : ∃ d, t.meaning name = some d := by
            rcases hs.settles.get?_cases hv with hv | ⟨d, hd, -⟩
            · exact h name v hv hd
            · exact ⟨d, meaning_eq_some_iff.2 hd⟩
          have hf := Resolve.symbol_follows s.table s.table.names [] name
            (fun p hp hn => (hn hp).elim) s hs.rebase
          rw [hs.settles.meaning_eq, hm] at hf
          rcases evaluateSymbol_cases s [] name with ⟨d, s', -, he⟩ | ⟨e, s', hr, -⟩ | ⟨-, he⟩
          · rw [he]
          · rw [hr] at hf
            cases hf.1
          · rw [he]
        · rw [evaluateSymbol_of_not_deferred fun v hv =>
            Bool.eq_false_of_not_eq_true fun hv' => hd ⟨v, hv, hv'⟩]
      have hsound := hs.trans (evaluateSymbol_sound hs [] name).1
      rw [List.foldl_cons]
      generalize evaluateSymbol (s, []) name = r at hstep hsound ⊢
      obtain ⟨s', ds⟩ := r
      cases hstep
      exact ih s' hsound
  exact hfold t.names ⟨t, []⟩ (.initial t)

/-- Where nothing is deferred, the names and their meaning decide what a table holds. -/
theorem Resolved.content_congr (h : Resolved t) (h' : Resolved t')
    (hn : ∀ q, q ∈ t.names ↔ q ∈ t'.names) (hm : t.meaning = t'.meaning) (q : String) :
    (t'.get? q).map Value.content = (t.get? q).map Value.content := by
  have hcontent {t : SymbolTable} (h : Resolved t) (hq : q ∈ t.names) :
      (t.get? q).map Value.content =
        some ((t.meaning q).elim .unresolved .ofDatum) := by
    obtain ⟨v, hv⟩ := exists_get? hq
    have hd := h q v hv
    rw [hv, Option.map_some]
    cases hc : v.content with
    | unresolved => rw [meaning_of_unresolved hv hc]; rfl
    | number n => rw [meaning_of_known (d := .number n) hv (hc ▸ rfl)]; rfl
    | text s => rw [meaning_of_known (d := .text s) hv (hc ▸ rfl)]; rfl
    | deferred text free =>
      rw [Value.isDeferred, hc] at hd
      cases hd
  by_cases hq : q ∈ t.names
  · rw [hcontent h hq, hcontent h' ((hn q).1 hq), hm]
  · rw [get?_eq_none hq, get?_eq_none (mt (hn q).2 hq)]

/-- A table that lies between one and its evaluation is evaluated to the same values, and without
problems if that one is. -/
theorem evaluate_between {t u : SymbolTable} (h : t.Underlies u) (h' : u.Underlies t.evaluate.1)
    (hq : t.evaluate.2 = []) :
    u.evaluate.2 = [] ∧
      ∀ q, (u.evaluate.1.get? q).map Value.content = (t.evaluate.1.get? q).map Value.content := by
  have hresolved := resolved_of_quiet hq
  have hmeaning : t.meaning = u.meaning := by
    refine h.extends.antisymm ?_
    rw [← t.settles_evaluate.meaning_eq]
    exact h'.extends
  have hquiet : u.evaluate.2 = [] := by
    apply evaluate_quiet
    intro name v hv hd
    obtain ⟨text, free, hc⟩ := Value.isDeferred_iff.1 hd
    rcases (h'.bears name v hv).deferred text free hc with hv' | ⟨d, hm, -⟩
    · rw [hresolved name v hv'] at hd
      cases hd
    · rw [t.settles_evaluate.meaning_eq, hmeaning] at hm
      exact ⟨d, hm⟩
  refine ⟨hquiet, hresolved.content_congr (resolved_of_quiet hquiet) (fun q => ?_) ?_⟩
  · rw [t.settles_evaluate.names, u.settles_evaluate.names]
    exact h.names q
  · rw [t.settles_evaluate.meaning_eq, u.settles_evaluate.meaning_eq, hmeaning]

end SymbolTable

end Z80Asm
