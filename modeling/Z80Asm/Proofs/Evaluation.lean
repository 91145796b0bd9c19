import Z80Asm.Proofs.Reports
import Z80Asm.Proofs.Resolution

/-! Evaluation of a table computes its meaning: a symbol gets the value that it denotes, and one
that denotes none keeps its expression. -/

namespace Z80Asm
set_option autoImplicit true

theorem Memo.Sound.initial (t : SymbolTable) : Memo.Sound t ⟨t, []⟩ :=
  ⟨.refl t, fun _ h => nomatch h⟩

theorem Memo.Sound.rebase (h : Memo.Sound t s) : Memo.Sound s.table s :=
  ⟨.refl _, fun name hn => h.settles.meaning_eq ▸ h.failed name hn⟩

theorem Memo.Sound.trans (h : Memo.Sound t s) (h' : Memo.Sound s.table s') : Memo.Sound t s' :=
  ⟨h.settles.trans h'.settles, fun name hn => h.settles.meaning_eq ▸ h'.failed name hn⟩

namespace SymbolTable

def operand (t : SymbolTable) (v : Value) (scope : String) (here : Int64) :
    Except EvalError Datum :=
  ((Resolve.value v scope here).run.run ⟨t, []⟩).1

theorem operand_toOption (t : SymbolTable) (v : Value) (scope : String) (here : Int64) :
    (t.operand v scope here).toOption = (t.operandIn t.meaning v scope here).toOption :=
  (Resolve.value_follows t v scope here _ (.initial t)).1

theorem operand_eq_ok {t : SymbolTable} :
    t.operand v scope here = .ok d ↔ t.operandIn t.meaning v scope here = .ok d := by
  have h := t.operand_toOption v scope here
  constructor
  · intro hd
    rw [hd] at h
    exact Except.eq_ok_of_toOption h.symm
  · intro hd
    rw [hd] at h
    exact Except.eq_ok_of_toOption h

/-- What an operand is worth does not depend on what has been stored before. -/
theorem operand_of_sound {t : SymbolTable} (h : Memo.Sound t s) (v : Value) (scope : String)
    (here : Int64) :
    ((Resolve.value v scope here).run.run s).1.toOption = (t.operand v scope here).toOption ∧
      Memo.Sound t ((Resolve.value v scope here).run.run s).2 := by
  rw [operand_toOption]
  exact Resolve.value_follows t v scope here s h

theorem operandIn_mono {t t' : SymbolTable} (h : Leads t t')
    (hd : t.operandIn t.meaning v scope here = .ok d) :
    t'.operandIn t'.meaning v scope here = .ok d := by
  unfold operandIn at hd ⊢
  cases hc : v.content with
  | deferred text free =>
    simp only [hc] at hd ⊢
    exact evalIn_extends h.outline h.gives hd
  | _ =>
    simp only [hc] at hd ⊢
    exact hd

theorem Leads.operand (h : Leads t t') (hd : t.operand v scope here = .ok d) :
    t'.operand v scope here = .ok d :=
  operand_eq_ok.2 (operandIn_mono h (operand_eq_ok.1 hd))

/-- A symbol is done when it is not deferred any more, or denotes nothing. -/
def Done (t : SymbolTable) (name : String) : Prop :=
  ∀ v, t.get? name = some v → v.isDeferred = true → t.meaning name = none

theorem Done.settles (h : Done t name) (hs : Settles t t') : Done t' name := by
  intro v hv hd
  rcases hs.get?_cases hv with hv₀ | ⟨w, -, rfl⟩
  · rw [hs.meaning_eq]
    exact h v hv₀ hd
  · rw [Value.isDeferred_ofDatum] at hd
    cases hd

/-- A step evaluates its symbol, which may fail, unless there is nothing to do or it has failed
before. -/
theorem evaluateSymbol_cases (s : Memo) (ds : List Diagnostic) (name : String) :
    (∃ d s', (Resolve.symbol s.table.names [] name).run.run s = (.ok d, s') ∧
        evaluateSymbol (s, ds) name = (s', ds)) ∨
      (∃ e s', (Resolve.symbol s.table.names [] name).run.run s = (.error e, s') ∧
        evaluateSymbol (s, ds) name =
          (s', ds ++ [⟨.cannotEvaluate (Scope.display name) e, s.table.loc name⟩])) ∨
      (∀ v, s.table.get? name = some v → v.isDeferred = true → name ∈ s.failed) ∧
        evaluateSymbol (s, ds) name = (s, ds) := by
  unfold evaluateSymbol
  cases hv : s.table.get? name with
  | none =>
    simp only [hv]
    exact .inr (.inr ⟨fun v hv' => (nomatch hv'), trivial⟩)
  | some v =>
    simp only [hv]
    by_cases hc : (v.isDeferred && !s.failed.contains name) = true
    · simp only [hc, ↓reduceIte]
      generalize (Resolve.symbol s.table.names [] name).run.run s = r
      obtain ⟨r, s'⟩ := r
      cases r with
      | ok d => exact .inl ⟨d, s', rfl, rfl⟩
      | error e => exact .inr (.inl ⟨e, s', rfl, rfl⟩)
    · rw [if_neg hc]
      refine .inr (.inr ⟨fun v' hv' hd => ?_, rfl⟩)
      cases hv'
      simp only [hd, Bool.true_and, Bool.not_eq_true', Bool.not_eq_false] at hc
      exact List.contains_iff_mem.1 hc

theorem evaluateSymbol_sound (hs : Memo.Sound t s) (ds : List Diagnostic) (name : String) :
    Memo.Sound s.table (evaluateSymbol (s, ds) name).1 ∧
      (evaluateSymbol (s, ds) name).1.table.Done name := by
  have hf := Resolve.symbol_follows s.table s.table.names [] name
    (fun p hp hn => (hn hp).elim) s hs.rebase
  rcases evaluateSymbol_cases s ds name with ⟨d, s', hr, he⟩ | ⟨e, s', hr, he⟩ | ⟨hfail, he⟩
  · obtain ⟨w, hw, hd⟩ := Resolve.symbol_stores hr
    rw [hr] at hf
    rw [he]
    refine ⟨hf.2, fun v hv hdef => ?_⟩
    rw [hw] at hv
    cases hv
    rw [Value.isDeferred_of_datum? hd] at hdef
    cases hdef
  · rw [hr] at hf
    rw [he]
    refine ⟨hf.2, fun v hv hdef => ?_⟩
    rw [hf.2.settles.meaning_eq]
    cases hm : s.table.meaning name with
    | none => rfl
    | some d =>
      rw [hm] at hf
      cases hf.1
  · rw [he]
    exact ⟨hs.rebase, fun v hv hdef => hs.rebase.failed name (hfail v hv hdef)⟩

theorem foldl_evaluateSymbol_sound (names : List String) (s : Memo) (ds : List Diagnostic)
    (hs : Memo.Sound t s) :
    Memo.Sound s.table (names.foldl evaluateSymbol (s, ds)).1 ∧
      ∀ name ∈ names, (names.foldl evaluateSymbol (s, ds)).1.table.Done name := by
  induction names generalizing t s ds with
  | nil => exact ⟨hs.rebase, fun _ h => nomatch h⟩
  | cons name names ih =>
    obtain ⟨h₁, hdone⟩ := evaluateSymbol_sound hs ds name
    obtain ⟨h₂, hrest⟩ := ih (evaluateSymbol (s, ds) name).1 (evaluateSymbol (s, ds) name).2 h₁
    refine ⟨h₁.trans h₂, fun q hq => ?_⟩
    rcases List.mem_cons.1 hq with he | hq
    · subst he
      exact hdone.settles h₂.settles
    · exact hrest q hq

theorem settles_evaluate (t : SymbolTable) : t.Settles t.evaluate.1 :=
  (foldl_evaluateSymbol_sound t.names ⟨t, []⟩ [] (.initial t)).1.settles

theorem done_evaluate (t : SymbolTable) (name : String) : t.evaluate.1.Done name := by
  intro v hv hd
  have hn := t.settles_evaluate.names ▸ mem_names_of_get? hv
  exact (foldl_evaluateSymbol_sound t.names ⟨t, []⟩ [] (.initial t)).2 name hn v hv hd

theorem get?_evaluate_of_denotes {t : SymbolTable} (hv : t.get? name = some v)
    (hd : v.isDeferred = true) (hw : t.Denotes name w) :
    t.evaluate.1.get? name = some (.ofDatum w) := by
  rcases t.settles_evaluate.value name v hv with hv' | ⟨-, w', hw', hv'⟩
  · have hnone := t.done_evaluate name v hv' hd
    rw [t.settles_evaluate.meaning_eq, meaning_eq_some_iff.2 hw] at hnone
    cases hnone
  · rw [hw.unique hw']
    exact hv'

theorem get?_evaluate_of_not_denotes {t : SymbolTable} (hv : t.get? name = some v)
    (hn : ∀ w, ¬ t.Denotes name w) : t.evaluate.1.get? name = some v := by
  rcases t.settles_evaluate.value name v hv with hv' | ⟨-, w, hw, -⟩
  · exact hv'
  · exact (hn w hw).elim

theorem get?_evaluate_of_not_deferred {t : SymbolTable} (hv : t.get? name = some v)
    (hd : v.isDeferred = false) : t.evaluate.1.get? name = some v := by
  rcases t.settles_evaluate.value name v hv with hv' | ⟨hd', -⟩
  · exact hv'
  · rw [hd] at hd'
    cases hd'

theorem not_denotes_of_meaning {t : SymbolTable} (h : t.meaning name = none) (w : Datum) :
    ¬ t.Denotes name w := by
  intro hw
  rw [meaning_eq_some_iff.2 hw] at h
  cases h

theorem Settles.eq_of_done (h : Settles t t') (hd : ∀ name, t.Done name) : t' = t := by
  apply ext_get? h.outline
  intro name
  cases hv : t.get? name with
  | none => exact h.get?_eq_none hv
  | some v =>
    rcases h.value name v hv with hv' | ⟨hdef, d, hden, -⟩
    · exact hv'
    · exact (not_denotes_of_meaning (hd name v hv hdef) d hden).elim

theorem Denotes.congr (h : ∀ name, t'.get? name = t.get? name) (hd : Denotes t name d) :
    Denotes t' name d := by
  have hev : t'.evalIn = t.evalIn := by
    apply evalIn_congr
    intro q
    rw [← get?_isSome, ← get?_isSome, h]
  induction hd with
  | known hv hd => exact .known ((h _).trans hv) hd
  | deferred value hv hc _ he ih => exact .deferred value ((h _).trans hv) hc ih (hev ▸ he)

theorem get?_evaluate_congr {t t' : SymbolTable} (h : ∀ name, t'.get? name = t.get? name)
    (name : String) : t'.evaluate.1.get? name = t.evaluate.1.get? name := by
  cases hv : t.get? name with
  | none =>
    rw [t.settles_evaluate.get?_eq_none hv,
      t'.settles_evaluate.get?_eq_none ((h name).trans hv)]
  | some v =>
    have hv' := (h name).trans hv
    cases hd : v.isDeferred with
    | false => rw [get?_evaluate_of_not_deferred hv hd, get?_evaluate_of_not_deferred hv' hd]
    | true =>
      by_cases hw : ∃ w, t.Denotes name w
      · obtain ⟨w, hw⟩ := hw
        rw [get?_evaluate_of_denotes hv hd hw, get?_evaluate_of_denotes hv' hd (hw.congr h)]
      · have hn (w : Datum) : ¬ t.Denotes name w := fun hd => hw ⟨w, hd⟩
        have hn' (w : Datum) : ¬ t'.Denotes name w :=
          fun hd => hn w (hd.congr fun q => (h q).symm)
        rw [get?_evaluate_of_not_denotes hv hn, get?_evaluate_of_not_denotes hv' hn']

theorem evaluate_evaluate (t : SymbolTable) : t.evaluate.1.evaluate.1 = t.evaluate.1 :=
  t.evaluate.1.settles_evaluate.eq_of_done t.done_evaluate

theorem evaluateSymbol_diagnostics (s : Memo) (ds : List Diagnostic) (name : String) :
    Adds ds (evaluateSymbol (s, ds) name).2 := by
  rcases evaluateSymbol_cases s ds name with ⟨d, s', -, he⟩ | ⟨e, s', -, he⟩ | ⟨-, he⟩
  · rw [he]
    exact .refl ds
  · rw [he]
    exact .report ds rfl _
  · rw [he]
    exact .refl ds

theorem foldl_evaluateSymbol_diagnostics (names : List String) (s : Memo × List Diagnostic) :
    Adds s.2 (names.foldl evaluateSymbol s).2 := by
  induction names generalizing s with
  | nil => exact .refl _
  | cons name names ih => exact (evaluateSymbol_diagnostics s.1 s.2 name).trans (ih _)

theorem evaluateSymbol_quiet (hf : s.failed = []) (hq : (evaluateSymbol (s, []) name).2 = []) :
    ∃ s', evaluateSymbol (s, []) name = (s', []) ∧ s'.failed = [] ∧
      ∀ v, s'.table.get? name = some v → v.isDeferred = false := by
  rcases evaluateSymbol_cases s [] name with ⟨d, s', hr, he⟩ | ⟨e, s', -, he⟩ | ⟨hfail, he⟩
  · refine ⟨s', he, (Resolve.symbol_unfailing _ _ _ s d s' hr).trans hf, fun v hv => ?_⟩
    obtain ⟨w, hw, hd⟩ := Resolve.symbol_stores hr
    rw [hw] at hv
    exact Option.some.inj hv ▸ Value.isDeferred_of_datum? hd
  · rw [he] at hq
    cases hq
  · refine ⟨s, he, hf, fun v hv => ?_⟩
    cases hd : v.isDeferred with
    | false => rfl
    | true =>
      have hm := hfail v hv hd
      rw [hf] at hm
      cases hm

theorem foldl_evaluateSymbol_quiet (names : List String) (s : Memo) (hs : Memo.Sound t s)
    (hf : s.failed = []) (hq : (names.foldl evaluateSymbol (s, [])).2 = []) :
    ∀ name ∈ names, ∀ v, (names.foldl evaluateSymbol (s, [])).1.table.get? name = some v →
      v.isDeferred = false := by
  induction names generalizing t s with
  | nil => exact fun _ h => nomatch h
  | cons name names ih =>
    have hs' := (evaluateSymbol_sound hs [] name).1
    have hstep := (foldl_evaluateSymbol_diagnostics names (evaluateSymbol (s, []) name)).quiet hq
    obtain ⟨s', he, hf', hname⟩ := evaluateSymbol_quiet hf hstep
    rw [List.foldl_cons, he] at hq ⊢
    rw [he] at hs'
    intro q hmem v hv
    rcases List.mem_cons.1 hmem with rfl | hmem
    -- the steps that follow keep what is evaluated
    · have hrest := (foldl_evaluateSymbol_sound names s' [] hs').1.settles
      rcases hrest.get?_cases hv with hv₀ | ⟨w, -, rfl⟩
      · exact hname v hv₀
      · exact Value.isDeferred_ofDatum w
    · exact ih s' hs' hf' hq q hmem v hv

theorem not_deferred_of_quiet {t : SymbolTable} (hq : t.evaluate.2 = [])
    (hv : t.evaluate.1.get? name = some v) : v.isDeferred = false :=
  foldl_evaluateSymbol_quiet t.names ⟨t, []⟩ (.initial t) rfl hq name
    (t.settles_evaluate.names ▸ mem_names_of_get? hv) v hv

/-- No symbol is deferred any more. -/
def Resolved (t : SymbolTable) : Prop := ∀ name v, t.get? name = some v → v.isDeferred = false

theorem resolved_of_quiet {t : SymbolTable} (hq : t.evaluate.2 = []) : t.evaluate.1.Resolved :=
  fun _ _ => not_deferred_of_quiet hq

theorem Resolved.done (h : Resolved t) (name : String) : t.Done name := by
  intro v hv hd
  rw [h name v hv] at hd
  cases hd

theorem Settles.eq_of_resolved (h : Settles t t') (hr : Resolved t) : t' = t := h.eq_of_done hr.done

theorem meaning_eq_known {t : SymbolTable} (h : ∀ name, t.Done name) : t.meaning = t.known := by
  funext name
  cases hv : t.get? name with
  | none => rw [meaning_of_undeclared hv, known, hv, Option.bind_none]
  | some v =>
    rw [known, hv, Option.bind_some]
    cases hc : v.content with
    | unresolved => exact meaning_of_unresolved hv hc
    | number n => exact meaning_of_known hv (congrArg Content.datum? hc)
    | text s => exact meaning_of_known hv (congrArg Content.datum? hc)
    | deferred text free => exact h name v hv (Value.isDeferred_iff.2 ⟨text, free, hc⟩)

theorem Resolved.meaning_eq (h : Resolved t) : t.meaning = t.known := meaning_eq_known h.done

def valueOf (t : SymbolTable) (v : Value) (scope : String) (here : Int64) :
    Except EvalError Datum :=
  t.operandIn t.known v scope here

theorem Resolved.valueOf_eq_ok (h : Resolved t) (hd : t.operand v scope here = .ok d) :
    t.valueOf v scope here = .ok d := by
  rw [operand_eq_ok, h.meaning_eq] at hd
  exact hd

/-- Evaluation gives every deferred symbol the value that it denotes and leaves alone those that
denote none, and all else. So its result depends only on which name has which value, and there is
nothing left for a second evaluation. -/
theorem evaluate_iff_denotes (t : SymbolTable) :
    t.evaluate.1.outline = t.outline ∧
      (∀ name v, t.get? name = some v → v.isDeferred = true →
        (∀ w, t.evaluate.1.get? name = some (.ofDatum w) ↔ t.Denotes name w) ∧
        ((∀ w, ¬ t.Denotes name w) → t.evaluate.1.get? name = some v)) ∧
      (∀ name v, t.get? name = some v → v.isDeferred = false →
        t.evaluate.1.get? name = some v) ∧
      (∀ t' : SymbolTable, (∀ name, t'.get? name = t.get? name) →
        ∀ name, t'.evaluate.1.get? name = t.evaluate.1.get? name) ∧
      t.evaluate.1.evaluate.1 = t.evaluate.1 := by
  refine ⟨t.settles_evaluate.outline, fun name v hv hd => ⟨fun w => ⟨fun hw => ?_, ?_⟩, ?_⟩,
    fun name v => get?_evaluate_of_not_deferred, fun t' => get?_evaluate_congr,
    t.evaluate_evaluate⟩
  · rcases t.settles_evaluate.value name v hv with hv' | ⟨-, w', hw', hv'⟩
    · rw [hv'] at hw
      cases hw
      rw [Value.isDeferred_ofDatum] at hd
      cases hd
    · rw [hv'] at hw
      exact Value.ofDatum_inj (Option.some.inj hw) ▸ hw'
  · exact get?_evaluate_of_denotes hv hd
  · exact get?_evaluate_of_not_denotes hv

end SymbolTable
end Z80Asm
