import Z80Asm.Proofs.EvaluationErrors
import Z80Asm.Proofs.RecursionDepth

/-! Symbols that cannot be evaluated, and which of them are reported. A symbol fails by itself or
because of a symbol that it asks for, so every report stands for a chain of symbols, of which the
reported one comes first. No symbol is on two chains, and a circular dependency is the end of
one. -/

namespace Z80Asm
set_option autoImplicit true

namespace SymbolTable

/-- Evaluating the expression of the symbol `p` ends with an error, where all names have the values
that they denote. -/
def Fails (t : SymbolTable) (p : String) (e : EvalError) : Prop :=
  ∃ v text free, t.get? p = some v ∧ v.content = .deferred text free ∧
    t.evalIn t.meaning v.here? (v.scope?.getD (Scope.ofName p)) text = .error e

def Mentions (t : SymbolTable) (p q : String) : Prop :=
  ∃ v text free e x, t.get? p = some v ∧ v.content = .deferred text free ∧
    Expr.parse text = .ok e ∧ x ∈ e.names ∧ x ≠ "$" ∧
    t.resolve? (v.scope?.getD (Scope.ofName p)) x = some q

/-- Evaluating the symbol `p` comes to a name in its expression that means `q`, and ends there,
since `q` denotes no value. -/
structure StopsAt (t : SymbolTable) (p q : String) : Prop where
  mentions : t.Mentions p q
  fails : t.Fails p (.noValue q)

theorem evalIn_error {t : SymbolTable} (h : t.evalIn value here? scope text = .error err) :
    err.ofOperation = true ∨ (∃ e, err = .malformed e) ∨ err = .noCurrentAddress ∨
      (∃ x, err = .undefinedSymbol x) ∨
      ∃ e x q, err = .noValue q ∧ Expr.parse text = .ok e ∧ x ∈ e.names ∧ x ≠ "$" ∧
        t.resolve? scope x = some q := by
  unfold evalIn at h
  split at h
  · cases h
    exact .inr (.inl ⟨_, rfl⟩)
  · rename_i e hp
    rcases Expr.error_of_eval h with hop | ⟨x, hx, hl⟩
    · exact .inl hop
    · unfold lookupIn at hl
      split at hl
      · cases here? with
        | some n => cases hl
        | none =>
          cases hl
          exact .inr (.inr (.inl rfl))
      · rename_i hne
        cases hr : t.resolve? scope x with
        | none =>
          rw [hr] at hl
          cases hl
          exact .inr (.inr (.inr (.inl ⟨x, rfl⟩)))
        | some q =>
          simp only [hr] at hl
          cases hq : value q with
          | some d =>
            rw [hq] at hl
            cases hl
          | none =>
            rw [hq] at hl
            cases hl
            exact .inr (.inr (.inr (.inr ⟨e, x, q, rfl, hp, hx, hne, hr⟩)))

theorem Fails.stopsAt {t : SymbolTable} (h : t.Fails p (.noValue q)) : t.StopsAt p q := by
  refine ⟨?_, h⟩
  obtain ⟨v, text, free, hv, hc, he⟩ := h
  rcases evalIn_error he with hop | ⟨e, he'⟩ | he' | ⟨x, he'⟩ | ⟨e, x, q', he', hrest⟩
  · cases hop
  · cases he'
  · cases he'
  · cases he'
  · cases he'
    exact ⟨v, text, free, e, x, hv, hc, hrest⟩

theorem Fails.not_circular {t : SymbolTable} (h : t.Fails p e) (names : List String) :
    e ≠ .circular names := by
  rintro rfl
  obtain ⟨v, text, free, hv, hc, he⟩ := h
  rcases evalIn_error he with hop | ⟨e, he'⟩ | he' | ⟨x, he'⟩ | ⟨e, x, q', he', -⟩
  · cases hop
  · cases he'
  · cases he'
  · cases he'
  · cases he'

theorem Fails.isDeferred {t : SymbolTable} (h : t.Fails p e) : t.isDeferred p = true := by
  obtain ⟨v, text, free, hv, hc, -⟩ := h
  exact isDeferred_iff.2 ⟨v, text, free, hv, hc⟩

/-- The evaluation of `name`, with the symbols of `path` under evaluation and those of `failed`
failed before, ends with an error, when the symbols of a chain have gone on the path one by one. -/
inductive Unwinds (t : SymbolTable) (failed : List String) :
    (path : List String) → (name : String) → (chain : List String) → EvalError → Prop where
  | refused : (∀ names, e ≠ .circular names) → Unwinds t failed path name [] e
  | circular : name ∈ path → Unwinds t failed path name [] (Resolve.circle path name)
  | itself : name ∉ path → name ∉ failed → t.Fails name e → Unwinds t failed path name [name] e
  | through : name ∉ path → name ∉ failed → t.StopsAt name q →
      Unwinds t failed (path ++ [name]) q chain e → Unwinds t failed path name (name :: chain) e

theorem isChain_push {R : α → α → Prop} (h : (l ++ [a]).IsChain R) (hab : R a b) :
    (l ++ [a] ++ [b]).IsChain R := by
  rw [List.append_assoc]
  exact List.isChain_append_cons_cons.2 ⟨h, hab, List.isChain_singleton b⟩

namespace Unwinds

variable {t : SymbolTable}

theorem fresh (h : Unwinds t failed path name chain e) :
    chain.Nodup ∧ ∀ q ∈ chain, q ∉ path ∧ q ∉ failed := by
  induction h with
  | refused | circular => exact ⟨List.nodup_nil, List.forall_mem_nil _⟩
  | itself hpath hfailed =>
    refine ⟨List.nodup_singleton _, fun q hq => ?_⟩
    cases List.mem_singleton.1 hq
    exact ⟨hpath, hfailed⟩
  | @through path name q chain e hpath hfailed hstop _ ih =>
    obtain ⟨hnodup, hfresh⟩ := ih
    refine ⟨List.nodup_cons.2 ⟨fun hmem => ?_, hnodup⟩, fun q hq => ?_⟩
    · exact (hfresh name hmem).1 (List.mem_append_right path (List.mem_singleton_self name))
    · rcases List.mem_cons.1 hq with rfl | hq
      · exact ⟨hpath, hfailed⟩
      · exact ⟨fun hp => (hfresh q hq).1 (List.mem_append_left _ hp), (hfresh q hq).2⟩

theorem isDeferred (h : Unwinds t failed path name chain e) :
    ∀ q ∈ chain, t.isDeferred q = true := by
  induction h with
  | refused | circular => exact List.forall_mem_nil _
  | itself _ _ hfails => exact fun q hq => List.mem_singleton.1 hq ▸ hfails.isDeferred
  | through _ _ hstop _ ih => exact List.forall_mem_cons.2 ⟨hstop.fails.isDeferred, ih⟩

theorem eq_cons (h : Unwinds t failed path name chain e) (hne : chain ≠ []) :
    ∃ behind, chain = name :: behind := by
  cases h with
  | refused | circular => exact absurd rfl hne
  | itself => exact ⟨[], rfl⟩
  | through => exact ⟨_, rfl⟩

/-- The evaluation of each symbol on the path stops at the next one. -/
theorem isChain (h : Unwinds t failed path name chain e)
    (hpath : (path ++ [name]).IsChain t.StopsAt) : (path ++ chain).IsChain t.StopsAt := by
  induction h with
  | refused | circular =>
    rw [List.append_nil]
    exact hpath.left_of_append
  | itself => exact hpath
  | through _ _ hstop _ ih =>
    rw [List.append_cons]
    exact ih (isChain_push hpath hstop)

/-- A circular dependency closes the path at a symbol that is on it. -/
theorem closes (h : Unwinds t failed path name chain e) (he : e = .circular shown)
    (hpath : (path ++ [name]).IsChain t.StopsAt) :
    ∃ q ∈ path ++ chain, e = Resolve.circle (path ++ chain) q ∧
      (path ++ chain ++ [q]).IsChain t.StopsAt := by
  induction h with
  | refused hnot => exact absurd he (hnot shown)
  | circular hname =>
    rw [List.append_nil]
    exact ⟨_, hname, rfl, hpath⟩
  | itself _ _ hfails => exact absurd he (hfails.not_circular shown)
  | through _ _ hstop _ ih =>
    rw [List.append_cons]
    exact ih he (isChain_push hpath hstop)

end Unwinds
end SymbolTable

namespace Resolve

/-- How a computation ends that looks names up by `inner`: with the value or error that `y` is, or
with the error of a symbol that is asked for. In the second case `y` is an error too, if that symbol
denotes no value. -/
inductive Outcome (t : SymbolTable) (inner : String → Resolve Datum) (y : Except EvalError α)
    (s : Memo) : Except EvalError α × Memo → Prop where
  | value : t.Settles s'.table → s'.failed = s.failed → y = .ok a → Outcome t inner y s (.ok a, s')
  | itself : t.Settles s'.table → s'.failed = s.failed → y = .error e →
      Outcome t inner y s (.error e, s')
  | blocked : t.Settles s₀.table → s₀.failed = s.failed → (inner q).run.run s₀ = (.error e, s') →
      t.Settles s'.table → (t.meaning q = none → y = .error (.noValue q)) →
      Outcome t inner y s (.error e, s')

def outcomes (t : SymbolTable) (inner : String → Resolve Datum) :
    Expr.Simulation Resolve (Except EvalError) where
  rel x y := ∀ s : Memo, t.Settles s.table → Outcome t inner y s (x.run.run s)
  pure _ _ hs := .value hs rfl rfl
  throw _ _ hs := .itself hs rfl rfl
  bind {α β x y f g} hx hf := by
    intro s hs
    have h := hx s hs
    rw [run_bind]
    generalize x.run.run s = r at h ⊢
    cases h with
    | itself hs' hfailed he => exact .itself hs' hfailed (he ▸ rfl)
    | blocked hs₀ hfailed hrun hs' hy => exact .blocked hs₀ hfailed hrun hs' fun hm => hy hm ▸ rfl
    | value hs' hfailed hy =>
      rename_i a s'
      subst hy
      have h' := hf a s' hs'
      dsimp only
      generalize (f a).run.run s' = r' at h' ⊢
      cases h' with
      | value hs'' hfailed' hy => exact .value hs'' (hfailed'.trans hfailed) hy
      | itself hs'' hfailed' hy => exact .itself hs'' (hfailed'.trans hfailed) hy
      | blocked hs₀ hfailed' hrun hs'' hy =>
        exact .blocked hs₀ (hfailed'.trans hfailed) hrun hs'' hy

/-- From every table that `t` settles to, the computation leads to another one, and it gives nothing
but the value that `q` denotes. -/
def Tells (t : SymbolTable) (q : String) (x : Resolve Datum) : Prop :=
  ∀ s : Memo, t.Settles s.table → t.Settles (x.run.run s).2.table ∧
    ∀ d, (x.run.run s).1 = .ok d → t.meaning q = some d ∧ (x.run.run s).2.failed = s.failed

theorem source_outcome {inner : String → Resolve Datum} (hinner : ∀ q, Tells t q (inner q))
    (here? : Option Int64) (scope text : String) {s : Memo} (hs : t.Settles s.table) :
    Outcome t inner (t.evalIn t.meaning here? scope text) s
      ((source inner here? scope text).run.run s) := by
  unfold source SymbolTable.evalIn
  cases Expr.parse text with
  | error e => exact .itself hs rfl rfl
  | ok e =>
    apply (outcomes t inner).evalM e _ s hs
    intro x _
    unfold SymbolTable.lookupIn
    split
    · cases here? with
      | none => exact fun _ hs => .itself hs rfl rfl
      | some n => exact fun _ hs => .value hs rfl rfl
    · intro s hs
      have hres : s.table.resolve? = t.resolve? :=
        SymbolTable.resolve?_congr fun q => by rw [hs.names]
      rw [run_get_bind, hres]
      cases hr : t.resolve? scope x with
      | none => exact .itself hs rfl rfl
      | some q =>
        obtain ⟨hs', hvalue⟩ := hinner q s hs
        dsimp only
        cases hrun : (inner q).run.run s with
        | mk r s' =>
          rw [hrun] at hs' hvalue
          cases r with
          | error e =>
            exact .blocked hs rfl hrun hs' fun hm => hm ▸ rfl
          | ok d =>
            obtain ⟨hm, hfailed⟩ := hvalue d rfl
            exact .value hs' hfailed (hm ▸ rfl)

theorem reading_not_circular {t : SymbolTable} (h : t.reading name = .error e)
    (names : List String) : e ≠ .circular names := by
  rintro rfl
  unfold SymbolTable.reading at h
  cases hv : t.get? name with
  | none =>
    rw [hv] at h
    cases h
  | some v =>
    rw [hv] at h
    cases hd : v.content.datum? with
    | none =>
      simp only [hd] at h
      cases h
    | some w =>
      simp only [hd] at h
      cases h

theorem symbol_tells (t : SymbolTable) (fresh path : List String) (name : String) :
    Tells t name (symbol fresh path name) := by
  intro s hs
  cases hd : s.table.isDeferred name with
  | false =>
    rw [symbol_of_not_deferred hd]
    refine ⟨hs, fun d h => ⟨?_, rfl⟩⟩
    rw [← SymbolTable.reading_toOption hs hd]
    exact congrArg Except.toOption h
  | true =>
    obtain ⟨v, text, free, hv, hc⟩ := SymbolTable.isDeferred_iff.1 hd
    rw [symbol_of_deferred hv hc]
    split
    · rename_i hname
      split
      · exact ⟨hs, nofun⟩
      · have hinner (q : String) := symbol_tells t (fresh.erase name) (path ++ [name]) q
        have h := source_outcome hinner v.here? (v.scope?.getD (Scope.ofName name)) text hs
        have hdef := Value.isDeferred_iff.2 ⟨text, free, hc⟩
        have hv' := hs.get?_of_deferred hv hdef
        have hm := SymbolTable.meaning_of_deferred hv' hc
        generalize (source _ _ _ _).run.run s = r at h ⊢
        cases h with
        | value hs' hfailed hy =>
          rename_i d s'
          rw [hy] at hm
          refine ⟨hs'.set hv' hdef (SymbolTable.meaning_eq_some_iff.1 hm), fun d' h => ?_⟩
          cases h
          exact ⟨hm, hfailed⟩
        | itself hs' => exact ⟨hs', nofun⟩
        | blocked _ _ _ hs' => exact ⟨hs', nofun⟩
    · exact ⟨hs, nofun⟩
termination_by fresh.length
decreasing_by exact length_erase_lt ‹_›

/-- An evaluation that fails has unwound a chain of symbols, and marked them as failed. -/
theorem symbol_unwinds (t : SymbolTable) (fresh path : List String) (name : String) {s s' : Memo}
    (hs : t.Settles s.table) (hsplits : Splits t.names fresh path)
    (hnone : ∀ p, p ∈ path ∨ p ∈ s'.failed → t.meaning p = none)
    (h : (symbol fresh path name).run.run s = (.error e, s')) :
    t.meaning name = none ∧ ∃ chain, s'.failed = chain ++ s.failed ∧
      t.Unwinds s.failed path name chain e := by
  cases hd : s.table.isDeferred name with
  | false =>
    rw [symbol_of_not_deferred hd] at h
    obtain ⟨he, rfl⟩ := Prod.mk.inj h
    have hm := SymbolTable.reading_toOption hs hd
    rw [he] at hm
    exact ⟨hm.symm, [], rfl, .refused (reading_not_circular he)⟩
  | true =>
    obtain ⟨v, text, free, hv, hc⟩ := SymbolTable.isDeferred_iff.1 hd
    have hv' := hs.get?_of_deferred hv (Value.isDeferred_iff.2 ⟨text, free, hc⟩)
    have hiff := hsplits.mem_iff name (SymbolTable.mem_names_of_get? hv')
    rw [symbol_of_deferred hv hc] at h
    split at h
    · rename_i hname
      split at h
      · rename_i hfailed
        cases h
        exact ⟨hnone name (.inr hfailed), [], rfl, .refused nofun⟩
      · rename_i hfailed
        have hpath := hiff.1 hname
        have hout := source_outcome (fun q => symbol_tells t (fresh.erase name) (path ++ [name]) q)
          v.here? (v.scope?.getD (Scope.ofName name)) text hs
        generalize (source _ _ _ _).run.run s = r at h hout
        cases hout with
        | value => cases h
        | itself hs' hf hy =>
          cases h
          refine ⟨hnone name (.inr List.mem_cons_self), [name], congrArg (name :: ·) hf, ?_⟩
          exact .itself hpath hfailed ⟨v, text, free, hv', hc, hy⟩
        | blocked hs₀ hf hrun hs' hy =>
          cases h
          have hself := hnone name (.inr List.mem_cons_self)
          obtain ⟨hq, chain, hchain, hunwinds⟩ := symbol_unwinds t (fresh.erase name)
            (path ++ [name]) _ hs₀ (hsplits.push name) (by
              rintro p (hp | hp)
              · rcases List.mem_append.1 hp with hp | hp
                · exact hnone p (.inl hp)
                · exact List.mem_singleton.1 hp ▸ hself
              · exact hnone p (.inr (List.mem_cons_of_mem name hp))) hrun
          have hstop := SymbolTable.Fails.stopsAt ⟨v, text, free, hv', hc, hy hq⟩
          rw [hf] at hchain hunwinds
          exact ⟨hself, name :: chain, congrArg (name :: ·) hchain,
            .through hpath hfailed hstop hunwinds⟩
    · rename_i hname
      cases h
      have hpath := not_not.1 (mt hiff.2 hname)
      exact ⟨hnone name (.inl hpath), [], rfl, .circular hpath⟩
termination_by fresh.length
decreasing_by exact length_erase_lt ‹_›

theorem mem_failed_of_error {s s' : Memo} (hd : s.table.isDeferred name = true)
    (hname : name ∈ fresh) (hf : name ∉ s.failed)
    (h : (symbol fresh path name).run.run s = (.error e, s')) : name ∈ s'.failed := by
  obtain ⟨v, text, free, hv, hc⟩ := SymbolTable.isDeferred_iff.1 hd
  rw [symbol_of_deferred hv hc, if_pos hname, if_neg hf] at h
  generalize (source _ _ _ _).run.run s = r at h
  obtain ⟨r, s₁⟩ := r
  cases r with
  | ok d => cases h
  | error e =>
    cases h
    exact List.mem_cons_self

end Resolve

/-- A failure that is reported: the symbol it is reported for, the symbols that went on the path
behind it, and the error. A circular dependency goes through a part of them. -/
structure Failure where
  subject : String
  behind : List String
  error : EvalError
  cycle : List String

namespace Failure

def chain (f : Failure) : List String := f.subject :: f.behind

def diagnostic (t : SymbolTable) (f : Failure) : Diagnostic :=
  ⟨.cannotEvaluate (Scope.display f.subject) f.error, t.loc f.subject⟩

end Failure

namespace SymbolTable

/-- The symbols go round: the evaluation of each stops at the next one, and that of the last at the
first. -/
def IsCycle (t : SymbolTable) (cycle : List String) : Prop :=
  ∃ q rest, cycle = q :: rest ∧ (cycle ++ [q]).IsChain t.StopsAt

end SymbolTable

/-- What a report tells of the table: the symbols of its chain are deferred, the evaluation of each
stops at the next, and a circular dependency is a cycle at the end of the chain. -/
structure Failure.Genuine (t : SymbolTable) (f : Failure) : Prop where
  deferred : ∀ q ∈ f.chain, t.isDeferred q = true
  linked : f.chain.IsChain t.StopsAt
  suffix : f.cycle <:+ f.chain
  circular : ∀ shown, f.error = .circular shown →
    t.IsCycle f.cycle ∧ shown = (f.cycle ++ f.cycle.take 1).map Scope.display

theorem exists_dropWhile_ne {l : List String} (h : q ∈ l) :
    ∃ rest, l.dropWhile (· ≠ q) = q :: rest := by
  induction l with
  | nil => cases h
  | cons a l ih =>
    by_cases he : a = q
    · subst he
      exact ⟨l, List.dropWhile_cons_of_neg (by simp)⟩
    · rw [List.dropWhile_cons_of_pos (by simpa using he)]
      exact ih ((List.mem_cons.1 h).resolve_left (Ne.symm he))

namespace SymbolTable

/-- A chain that is unwound from the start is a failure to report. -/
theorem Unwinds.genuine {t : SymbolTable} (h : t.Unwinds failed [] name chain e)
    (hne : chain ≠ []) : ∃ f : Failure, f.subject = name ∧ f.chain = chain ∧ f.error = e ∧
      f.Genuine t := by
  obtain ⟨behind, rfl⟩ := h.eq_cons hne
  have hstart : ([] ++ [name]).IsChain t.StopsAt := List.isChain_singleton name
  by_cases hcircular : ∃ shown, e = .circular shown
  · obtain ⟨shown, he⟩ := hcircular
    obtain ⟨q, hq, hcircle, hclosed⟩ := h.closes he hstart
    obtain ⟨rest, hrest⟩ := exists_dropWhile_ne hq
    obtain ⟨front, hfront⟩ := List.dropWhile_suffix (l := [] ++ name :: behind) (· ≠ q)
    rw [hrest] at hfront
    refine ⟨⟨name, behind, e, q :: rest⟩, rfl, rfl, rfl, h.isDeferred, h.isChain hstart,
      ⟨front, hfront⟩, fun shown' he' => ⟨⟨q, rest, rfl, ?_⟩, ?_⟩⟩
    · rw [← hfront, List.append_assoc] at hclosed
      exact hclosed.right_of_append
    · rw [Resolve.circle, hrest] at hcircle
      cases he'.symm.trans hcircle
      rfl
  · refine ⟨⟨name, behind, e, []⟩, rfl, rfl, rfl, h.isDeferred, h.isChain hstart,
      List.nil_suffix, fun shown he => ?_⟩
    exact (hcircular ⟨shown, he⟩).elim

/-- What has been evaluated of `t`, and the reports so far. Each failed symbol is on the chain of
one report. -/
structure Reported (t : SymbolTable) (failures : List Failure) (s : Memo) (ds : List Diagnostic) :
    Prop where
  sound : Memo.Sound t s
  diagnostics : ds = failures.map (Failure.diagnostic t)
  failed : ∀ q, q ∈ s.failed ↔ ∃ f ∈ failures, q ∈ f.chain
  nodup : (failures.flatMap Failure.chain).Nodup
  genuine : ∀ f ∈ failures, f.Genuine t

theorem Reported.initial (t : SymbolTable) : Reported t [] ⟨t, []⟩ [] where
  sound := .initial t
  diagnostics := rfl
  failed q := by simp
  nodup := List.nodup_nil
  genuine := List.forall_mem_nil _

theorem Settles.isDeferred {t t' : SymbolTable} (h : Settles t t')
    (hd : t'.isDeferred q = true) : t.isDeferred q = true := by
  obtain ⟨v, text, free, hv, hc⟩ := isDeferred_iff.1 hd
  exact isDeferred_iff.2 ⟨v, text, free,
    h.get?_of_deferred hv (Value.isDeferred_iff.2 ⟨text, free, hc⟩), hc⟩

/-- A step evaluates its symbol, if that is deferred and has not failed before. -/
theorem evaluateSymbol_of_due (hd : s.table.isDeferred name = true) (hf : name ∉ s.failed)
    (ds : List Diagnostic) :
    evaluateSymbol (s, ds) name =
      match (Resolve.symbol s.table.names [] name).run.run s with
      | (.ok _, s') => (s', ds)
      | (.error e, s') =>
        (s', ds ++ [⟨.cannotEvaluate (Scope.display name) e, s.table.loc name⟩]) := by
  obtain ⟨v, text, free, hv, hc⟩ := isDeferred_iff.1 hd
  have hdef : v.isDeferred = true := Value.isDeferred_iff.2 ⟨text, free, hc⟩
  have hdue : (v.isDeferred && !s.failed.contains name) = true := by
    rw [hdef, List.contains_eq_mem, decide_eq_false hf]
    rfl
  rcases h : (Resolve.symbol s.table.names [] name).run.run s with ⟨e | d, s'⟩
  · simp only [evaluateSymbol, hv, hdue, h, ↓reduceIte]
  · simp only [evaluateSymbol, hv, hdue, h, ↓reduceIte]

theorem evaluateSymbol_of_not_due (h : s.table.isDeferred name = true → name ∈ s.failed)
    (ds : List Diagnostic) : evaluateSymbol (s, ds) name = (s, ds) := by
  unfold evaluateSymbol
  cases hv : s.table.get? name with
  | none => simp only [hv]
  | some v =>
    simp only [hv]
    apply if_neg
    rw [Bool.and_eq_true, Bool.not_eq_true', List.contains_eq_mem, decide_eq_false_iff_not]
    rintro ⟨hdef, hnot⟩
    apply hnot
    apply h
    rw [isDeferred, hv]
    exact hdef

/-- What failed in one evaluation is reported once, as one failure. -/
theorem Reported.report {t : SymbolTable} (h : Reported t failures s ds)
    (hs : Memo.Sound t s') (hchain : s'.failed = chain ++ s.failed)
    (hunwinds : t.Unwinds s.failed [] name chain e) (hne : chain ≠ []) :
    ∃ failures', Reported t failures' s'
      (ds ++ [⟨.cannotEvaluate (Scope.display name) e, s.table.loc name⟩]) := by
  obtain ⟨f, rfl, rfl, rfl, hgenuine⟩ := hunwinds.genuine hne
  refine ⟨failures ++ [f], hs, ?_, fun q => ?_, ?_, ?_⟩
  · rw [h.diagnostics, List.map_append, loc_congr h.sound.settles.outline]
    rfl
  · rw [hchain, List.mem_append, h.failed]
    simp [or_comm]
  · rw [List.flatMap_append, List.flatMap_singleton, List.nodup_append]
    refine ⟨h.nodup, hunwinds.fresh.1, fun p hp q hq he => ?_⟩
    subst he
    exact (hunwinds.fresh.2 p hq).2 ((h.failed p).2 (List.mem_flatMap.1 hp))
  · exact List.forall_mem_append.2 ⟨h.genuine, List.forall_mem_singleton.2 hgenuine⟩

theorem Reported.step {t : SymbolTable} (h : Reported t failures s ds) (name : String) :
    ∃ failures', Reported t failures' (evaluateSymbol (s, ds) name).1
        (evaluateSymbol (s, ds) name).2 ∧
      s.failed ⊆ (evaluateSymbol (s, ds) name).1.failed ∧
      ((evaluateSymbol (s, ds) name).1.table.isDeferred name = true →
        name ∈ (evaluateSymbol (s, ds) name).1.failed) := by
  have hs' := h.sound.trans (evaluateSymbol_sound h.sound ds name).1
  by_cases hdue : s.table.isDeferred name = true ∧ name ∉ s.failed
  · obtain ⟨hd, hf⟩ := hdue
    rw [evaluateSymbol_of_due hd hf] at hs' ⊢
    cases hrun : (Resolve.symbol s.table.names [] name).run.run s with
    | mk r s' =>
      rw [hrun] at hs'
      cases r with
      | ok d =>
        obtain ⟨v, hv, hdatum⟩ := Resolve.symbol_stores hrun
        refine ⟨failures, ⟨hs', h.diagnostics, ?_, h.nodup, h.genuine⟩, ?_, fun hdef => ?_⟩
        · intro q
          rw [Resolve.symbol_unfailing _ _ _ s d s' hrun, h.failed]
        · rw [Resolve.symbol_unfailing _ _ _ s d s' hrun]
          exact List.Subset.refl _
        · rw [isDeferred, hv, Option.any_some, Value.isDeferred_of_datum? hdatum] at hdef
          cases hdef
      | error e =>
        have hsplits := Resolve.Splits.initial s.table.nodup
        rw [← names, h.sound.settles.names] at hsplits
        rw [h.sound.settles.names] at hrun
        have hmem := Resolve.mem_failed_of_error hd
          (h.sound.settles.names ▸ mem_names_of_isDeferred hd) hf hrun
        have hnone (p : String) (hp : p ∈ [] ∨ p ∈ s'.failed) : t.meaning p = none :=
          hs'.failed p (hp.resolve_left List.not_mem_nil)
        obtain ⟨-, chain, hchain, hunwinds⟩ :=
          Resolve.symbol_unwinds t t.names [] name h.sound.settles hsplits hnone hrun
        have hne : chain ≠ [] := by
          rintro rfl
          rw [hchain] at hmem
          exact hf hmem
        obtain ⟨failures', h'⟩ := h.report hs' hchain hunwinds hne
        exact ⟨failures', h', hchain ▸ List.subset_append_right chain s.failed, fun _ => hmem⟩
  · rw [evaluateSymbol_of_not_due (fun hd => not_not.1 fun hf => hdue ⟨hd, hf⟩)]
    exact ⟨failures, h, List.Subset.refl _, fun hd => not_not.1 fun hf => hdue ⟨hd, hf⟩⟩

/-- Once all symbols have had their turn, those that are still deferred have failed. -/
theorem Reported.run {t : SymbolTable} (names : List String) (h : Reported t failures s ds) :
    ∃ failures', Reported t failures' (names.foldl evaluateSymbol (s, ds)).1
        (names.foldl evaluateSymbol (s, ds)).2 ∧
      s.failed ⊆ (names.foldl evaluateSymbol (s, ds)).1.failed ∧
      ∀ name ∈ names, (names.foldl evaluateSymbol (s, ds)).1.table.isDeferred name = true →
        name ∈ (names.foldl evaluateSymbol (s, ds)).1.failed := by
  induction names generalizing failures s ds with
  | nil => exact ⟨failures, h, List.Subset.refl _, List.forall_mem_nil _⟩
  | cons name names ih =>
    obtain ⟨failures₁, h₁, hsub₁, hname⟩ := h.step name
    obtain ⟨failures₂, h₂, hsub₂, hnames⟩ := ih h₁
    have hlater := (foldl_evaluateSymbol_sound names _ (evaluateSymbol (s, ds) name).2
      h₁.sound).1.settles
    refine ⟨failures₂, h₂, List.Subset.trans hsub₁ hsub₂, ?_⟩
    refine List.forall_mem_cons.2 ⟨fun hd => ?_, hnames⟩
    exact hsub₂ (hname (hlater.isDeferred hd))

/-- Failures are reported completely and once. Nothing is reported exactly if no symbol is deferred
any more, and the reports are about different symbols. Still deferred are exactly the symbols on the
chains of the reports, each of them on one chain only: the reported one, and behind it one after the
other the symbol that the evaluation has reached and stopped at. Each circular dependency is a cycle
of the table, and no two of them share a symbol. -/
theorem failures_reported (t : SymbolTable) :
    (t.evaluate.2 = [] ↔ ∀ q, t.evaluate.1.isDeferred q = false) ∧
      ∃ failures : List Failure,
        t.evaluate.2 = failures.map (Failure.diagnostic t) ∧
        (failures.map Failure.subject).Nodup ∧
        (∀ f ∈ failures, t.evaluate.1.isDeferred f.subject = true) ∧
        (∀ q, t.evaluate.1.isDeferred q = true ↔ ∃ f ∈ failures, q ∈ f.chain) ∧
        (failures.flatMap Failure.chain).Nodup ∧
        (∀ f ∈ failures, f.chain.IsChain t.StopsAt) ∧
        (∀ f ∈ failures, ∀ shown, f.error = .circular shown →
          t.IsCycle f.cycle ∧ f.cycle <:+ f.chain ∧
            shown = (f.cycle ++ f.cycle.take 1).map Scope.display) ∧
        failures.Pairwise fun f g => f.cycle.Disjoint g.cycle := by
  obtain ⟨failures, h, -, hdone⟩ := (Reported.initial t).run t.names
  have hdeferred (q : String) : t.evaluate.1.isDeferred q = true ↔ ∃ f ∈ failures, q ∈ f.chain := by
    rw [← h.failed]
    refine ⟨fun hd => hdone q (mem_names_of_isDeferred (t.settles_evaluate.isDeferred hd)) hd,
      fun hq => ?_⟩
    obtain ⟨f, hf, hmem⟩ := (h.failed q).1 hq
    obtain ⟨v, text, free, hv, hc⟩ := isDeferred_iff.1 ((h.genuine f hf).deferred q hmem)
    have hnot := not_denotes_of_meaning (h.sound.failed q hq)
    exact isDeferred_iff.2 ⟨v, text, free, get?_evaluate_of_not_denotes hv hnot, hc⟩
  have hsubject : ∀ f ∈ failures, t.evaluate.1.isDeferred f.subject = true :=
    fun f hf => (hdeferred f.subject).2 ⟨f, hf, List.mem_cons_self⟩
  have hds : t.evaluate.2 = failures.map (Failure.diagnostic t) := h.diagnostics
  have hapart := (List.nodup_flatMap.1 h.nodup).2
  refine ⟨⟨fun hq q => ?_, fun hq => ?_⟩, failures, hds, ?_, hsubject, hdeferred, h.nodup,
    fun f hf => (h.genuine f hf).linked, fun f hf shown he => ?_, ?_⟩
  · rw [hds, List.map_eq_nil_iff] at hq
    rw [← Bool.not_eq_true, hdeferred, hq]
    rintro ⟨f, hf, -⟩
    cases hf
  · rw [hds, List.map_eq_nil_iff, List.eq_nil_iff_forall_not_mem]
    intro f hf
    have hd := hsubject f hf
    rw [hq] at hd
    cases hd
  · rw [List.Nodup, List.pairwise_map]
    refine hapart.imp fun {f g} hfg he => hfg (a := f.subject) List.mem_cons_self ?_
    rw [he]
    exact List.mem_cons_self
  · exact ⟨((h.genuine f hf).circular shown he).1, (h.genuine f hf).suffix,
      ((h.genuine f hf).circular shown he).2⟩
  · exact hapart.imp_of_mem fun hf hg hfg q hqf hqg =>
      hfg ((h.genuine _ hf).suffix.subset hqf) ((h.genuine _ hg).suffix.subset hqg)

end SymbolTable
end Z80Asm
