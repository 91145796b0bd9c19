import Z80Asm.Proofs.Evaluation
import Z80Asm.Proofs.Identifiers

/-! Evaluation by two tables side by side. It takes the same course if the tables hold alike values
for all the names that it can reach. -/

namespace Z80Asm
set_option autoImplicit true

/-- Two values of a symbol `q` with the same expression. Every name in it means the same symbol for
both, and one of those in `U`. -/
structure Value.Tied (U : String → Prop) (t : SymbolTable) (q : String) (v v' : Value) : Prop where
  content : v'.content = v.content
  same : v.isDeferred = false → v' = v
  here : "$" ∈ v.mentions → v'.here? = v.here?
  leads : ∀ x ∈ v.mentions, x ≠ "$" →
    t.resolve? (v'.scope?.getD (Scope.ofName q)) x = t.resolve? (v.scope?.getD (Scope.ofName q)) x ∧
      ∀ r, t.resolve? (v.scope?.getD (Scope.ofName q)) x = some r → U r

theorem Value.mentions_of_not_deferred {v : Value} (h : v.isDeferred = false) :
    v.mentions = [] := by
  unfold mentions
  split
  · rename_i hc
    rw [isDeferred, hc] at h
    cases h
  · rfl

theorem Value.Tied.of_not_deferred {v : Value} (h : v.isDeferred = false) : Tied U t q v v := by
  have hnone := v.mentions_of_not_deferred h
  refine ⟨rfl, fun _ => rfl, fun _ => rfl, fun x hx => ?_⟩
  rw [hnone] at hx
  cases hx

theorem Value.Tied.weaken (h : Tied U t q v v') (hU : ∀ r, U r → V r) : Tied V t q v v' := by
  refine ⟨h.content, h.same, h.here, fun x hx hne => ?_⟩
  obtain ⟨hsame, hr⟩ := h.leads x hx hne
  exact ⟨hsame, fun r h => hU r (hr r h)⟩

/-- The tables hold tied values for the names in `U`, and for all others what `b` and `b'` hold. -/
structure Memo.Parallel (U : String → Prop) (b b' : SymbolTable) (s s' : Memo) : Prop where
  outline : s.table.outline = b.outline
  outline' : s'.table.outline = b.outline
  failed : s'.failed = s.failed
  value : ∀ q, U q → ∀ v, s.table.get? q = some v →
    ∃ v', s'.table.get? q = some v' ∧ v.Tied U b q v'
  rest : ∀ q, ¬ U q → s.table.get? q = b.get? q ∧ s'.table.get? q = b'.get? q

namespace Memo.Parallel

variable {U : String → Prop} {b b' : SymbolTable} {s s' : Memo}

theorem names (h : Parallel U b b' s s') : s.table.names = b.names :=
  SymbolTable.names_congr h.outline

theorem names' (h : Parallel U b b' s s') : s'.table.names = b.names :=
  SymbolTable.names_congr h.outline'

theorem resolve?_eq (h : Parallel U b b' s s') : s.table.resolve? = b.resolve? :=
  SymbolTable.resolve?_congr fun q => by rw [h.names]

theorem resolve?_eq' (h : Parallel U b b' s s') : s'.table.resolve? = b.resolve? :=
  SymbolTable.resolve?_congr fun q => by rw [h.names']

theorem undeclared (h : Parallel U b b' s s') (hv : s.table.get? q = none) :
    s'.table.get? q = none := by
  have hn : q ∉ s'.table.names := by
    rw [h.names', ← h.names, ← SymbolTable.get?_isSome, hv]
    exact Bool.false_ne_true
  exact SymbolTable.get?_eq_none hn

theorem tied (h : Parallel U b b' s s') (hU : U q) (hv : s.table.get? q = some v)
    (hv' : s'.table.get? q = some v') : v.Tied U b q v' := by
  obtain ⟨w, hw, htied⟩ := h.value q hU v hv
  rw [hv'] at hw
  cases hw
  exact htied

theorem content (h : Parallel U b b' s s') (hU : U q) :
    (s'.table.get? q).map Value.content = (s.table.get? q).map Value.content := by
  cases hv : s.table.get? q with
  | none => rw [h.undeclared hv]
  | some v =>
    obtain ⟨v', hv', htied⟩ := h.value q hU v hv
    rw [hv', Option.map_some, Option.map_some, htied.content]

theorem set (h : Parallel U b b' s s') (hn : q ∈ b.names) (hU : U q) (hv : v.Tied U b q v') :
    Parallel U b b' { s with table := s.table.set q v } { s' with table := s'.table.set q v' } := by
  refine ⟨?_, ?_, h.failed, fun p hp w hw => ?_, fun p hp => ?_⟩
  · rw [SymbolTable.outline_set (h.names ▸ hn), h.outline]
  · rw [SymbolTable.outline_set (h.names' ▸ hn), h.outline']
  · rw [SymbolTable.get?_set] at hw
    rw [SymbolTable.get?_set]
    split at hw
    · rename_i he
      cases hw
      rw [if_pos he, he]
      exact ⟨v', rfl, hv⟩
    · rename_i he
      rw [if_neg he]
      exact h.value p hp w hw
  · have hne : p ≠ q := fun he => hp (he ▸ hU)
    rw [SymbolTable.get?_set, SymbolTable.get?_set, if_neg hne, if_neg hne]
    exact h.rest p hp

end Memo.Parallel

namespace Resolve

/-- From states in `R` the computations give the same and end in states in `R`. -/
def Together (R : Memo → Memo → Prop) (x y : Resolve α) : Prop :=
  ∀ s s', R s s' → (y.run.run s').1 = (x.run.run s).1 ∧ R (x.run.run s).2 (y.run.run s').2

theorem Together.pure (R : Memo → Memo → Prop) (a : α) :
    Together R (Pure.pure a) (Pure.pure a) :=
  fun _ _ h => ⟨rfl, h⟩

theorem Together.throw (R : Memo → Memo → Prop) (e : EvalError) :
    Together R (MonadExcept.throw e : Resolve α) (MonadExcept.throw e) :=
  fun _ _ h => ⟨rfl, h⟩

theorem Together.bind {x y : Resolve α} {f g : α → Resolve β} (hx : Together R x y)
    (hf : ∀ a, Together R (f a) (g a)) : Together R (x >>= f) (y >>= g) := by
  intro s s' h
  obtain ⟨hv, hR⟩ := hx s s' h
  rw [run_bind, run_bind]
  generalize x.run.run s = r at hv hR
  generalize y.run.run s' = r' at hv hR
  obtain ⟨r, s₁⟩ := r
  obtain ⟨r', s₁'⟩ := r'
  cases hv
  cases r with
  | error e => exact ⟨rfl, hR⟩
  | ok a => exact hf a s₁ s₁' hR

def together (R : Memo → Memo → Prop) : Expr.Simulation Resolve Resolve where
  rel := Together R
  pure := .pure R
  throw := .throw R
  bind := .bind

variable {U : String → Prop} {b b' : SymbolTable}

/-- An expression takes the same course if each of its names leads to the same symbol. -/
theorem source_together {inner inner' : String → Resolve Datum}
    (hhere : ∀ e, Expr.parse text = .ok e → "$" ∈ e.names → here?' = here?)
    (hleads : ∀ e, Expr.parse text = .ok e → ∀ x ∈ e.names, x ≠ "$" →
      b.resolve? scope' x = b.resolve? scope x ∧ ∀ r, b.resolve? scope x = some r → U r)
    (hinner : ∀ r, U r → Together (Memo.Parallel U b b') (inner r) (inner' r)) :
    Together (Memo.Parallel U b b') (source inner here? scope text)
      (source inner' here?' scope' text) := by
  unfold source
  cases hp : Expr.parse text with
  | error e => exact .throw _ _
  | ok e =>
    apply (together (Memo.Parallel U b b')).evalM e
    intro x hx
    by_cases hx' : x = "$"
    · rw [hx'] at hx
      rw [hhere e hp hx]
      simp only [hx', ↓reduceIte]
      cases here? with
      | none => exact .throw _ _
      | some n => exact .pure _ _
    · simp only [if_neg hx']
      intro s s' h
      rw [run_get_bind, run_get_bind, h.resolve?_eq, h.resolve?_eq']
      obtain ⟨hsame, hr⟩ := hleads e hp x hx hx'
      rw [hsame]
      cases hres : b.resolve? scope x with
      | none => exact ⟨rfl, h⟩
      | some r => exact hinner r (hr r hres) s s' h

theorem conclude_together {R : Memo → Memo → Prop} {r r' : Except EvalError Datum × Memo}
    (h : r'.1 = r.1 ∧ R r.2 r'.2)
    (hfail : ∀ s s', R s s' →
      R { s with failed := name :: s.failed } { s' with failed := name :: s'.failed })
    (hstore : ∀ d s s', R s s' → R { s with table := s.table.set name (.ofDatum d) }
      { s' with table := s'.table.set name (.ofDatum d) }) :
    (conclude name r').1 = (conclude name r).1 ∧ R (conclude name r).2 (conclude name r').2 := by
  obtain ⟨r, s⟩ := r
  obtain ⟨r', s'⟩ := r'
  obtain ⟨hvalue, hR⟩ := h
  cases hvalue
  cases r with
  | error e => exact ⟨rfl, hfail s s' hR⟩
  | ok d => exact ⟨rfl, hstore d s s' hR⟩

/-- A symbol with the same content in both tables is evaluated alike, if its expression is. -/
theorem symbol_together_of {R : Memo → Memo → Prop} {s s' : Memo} (path : List String)
    (h : R s s')
    (hcontent : (s'.table.get? name).map Value.content = (s.table.get? name).map Value.content)
    (hfailed : s'.failed = s.failed) (hfresh : name ∈ fresh' ↔ name ∈ fresh)
    (hdeferred : ∀ v v' text free, s.table.get? name = some v → s'.table.get? name = some v' →
      v.content = .deferred text free → name ∈ fresh →
      let r := conclude name ((source (symbol (fresh.erase name) (path ++ [name])) v.here?
        (v.scope?.getD (Scope.ofName name)) text).run.run s)
      let r' := conclude name ((source (symbol (fresh'.erase name) (path ++ [name])) v'.here?
        (v'.scope?.getD (Scope.ofName name)) text).run.run s')
      r'.1 = r.1 ∧ R r.2 r'.2) :
    ((symbol fresh' path name).run.run s').1 = ((symbol fresh path name).run.run s).1 ∧
      R ((symbol fresh path name).run.run s).2 ((symbol fresh' path name).run.run s').2 := by
  obtain ⟨hsame, hreading⟩ := SymbolTable.reading_congr hcontent
  cases hd : s.table.isDeferred name with
  | false =>
    rw [symbol_of_not_deferred hd, symbol_of_not_deferred (hsame.trans hd), hreading]
    exact ⟨rfl, h⟩
  | true =>
    obtain ⟨v, text, free, hv, hc⟩ := SymbolTable.isDeferred_iff.1 hd
    rw [hv, Option.map_some] at hcontent
    obtain ⟨v', hv', hc'⟩ := Option.map_eq_some_iff.1 hcontent
    rw [symbol_of_deferred hv hc, symbol_of_deferred hv' (hc'.trans hc), hfailed]
    by_cases hf : name ∈ fresh
    · rw [if_pos hf, if_pos (hfresh.2 hf)]
      split
      · exact ⟨rfl, h⟩
      · exact hdeferred v v' text free hv hv' hc hf
    · rw [if_neg hf, if_neg (mt hfresh.1 hf)]
      exact ⟨rfl, h⟩

theorem symbol_together (fresh path : List String) (name : String) (hU : U name) :
    Together (Memo.Parallel U b b') (symbol fresh path name) (symbol fresh path name) := by
  intro s s' h
  refine symbol_together_of path h (h.content hU) h.failed Iff.rfl
    fun v v' text free hv hv' hc hf => ?_
  have htied := h.tied hU hv hv'
  have hn : name ∈ b.names := h.names ▸ SymbolTable.mem_names_of_get? hv
  have hsource : Together (Memo.Parallel U b b')
      (source (symbol (fresh.erase name) (path ++ [name])) v.here?
        (v.scope?.getD (Scope.ofName name)) text)
      (source (symbol (fresh.erase name) (path ++ [name])) v'.here?
        (v'.scope?.getD (Scope.ofName name)) text) := by
    apply source_together
    · intro e hp hx
      exact htied.here (Value.mentions_of_parse hc hp ▸ hx)
    · intro e hp x hx
      exact htied.leads x (Value.mentions_of_parse hc hp ▸ hx)
    · intro r hr
      exact symbol_together (fresh.erase name) (path ++ [name]) r hr
  refine conclude_together (hsource s s' h) (fun s s' h => ?_) fun d s s' h => ?_
  · exact ⟨h.outline, h.outline', congrArg (name :: ·) h.failed, h.value, h.rest⟩
  · exact h.set hn hU (.of_not_deferred (Value.isDeferred_ofDatum d))
termination_by fresh.length
decreasing_by exact length_erase_lt ‹_›

theorem value_together (v : Value) (scope : String) (here : Int64)
    (hleads : ∀ x ∈ v.mentions, x ≠ "$" → ∀ r, b.resolve? scope x = some r → U r) :
    Together (Memo.Parallel U b b') (value v scope here) (value v scope here) := by
  unfold value
  cases hc : v.content with
  | number n => exact .pure _ _
  | text w => exact .pure _ _
  | unresolved => exact .throw _ _
  | deferred text free =>
    intro s s' h
    rw [run_get_bind, run_get_bind, h.names, h.names']
    apply source_together (fun _ _ _ => rfl) _ (fun r hr => symbol_together _ _ r hr) s s' h
    intro e hp x hx hne
    exact ⟨rfl, hleads x (Value.mentions_of_parse hc hp ▸ hx) hne⟩

end Resolve

namespace SymbolTable

variable {b b' : SymbolTable} {s s' : Memo}

abbrev Everything : String → Prop := fun _ => True

theorem evaluateSymbol_together (h : Memo.Parallel Everything b b' s s') (ds : List Diagnostic)
    (name : String) :
    (evaluateSymbol (s', ds) name).2 = (evaluateSymbol (s, ds) name).2 ∧
      Memo.Parallel Everything b b' (evaluateSymbol (s, ds) name).1
        (evaluateSymbol (s', ds) name).1 := by
  unfold evaluateSymbol
  dsimp only
  cases hv : s.table.get? name with
  | none =>
    rw [h.undeclared hv]
    exact ⟨rfl, h⟩
  | some v =>
    obtain ⟨v', hv', htied⟩ := h.value name trivial v hv
    have hdef : v'.isDeferred = v.isDeferred := congrArg Content.isDeferred htied.content
    rw [hv']
    simp only [hdef, h.failed]
    split
    · obtain ⟨hr, hR⟩ := Resolve.symbol_together (b := b) b.names [] name trivial s s' h
      rw [h.names, h.names', loc_congr (h.outline'.trans h.outline.symm)]
      generalize (Resolve.symbol b.names [] name).run.run s = r at hr hR
      generalize (Resolve.symbol b.names [] name).run.run s' = r' at hr hR
      obtain ⟨r, s₁⟩ := r
      obtain ⟨r', s₁'⟩ := r'
      cases hr
      cases r with
      | error e => exact ⟨rfl, hR⟩
      | ok d => exact ⟨rfl, hR⟩
    · exact ⟨rfl, h⟩

theorem foldl_evaluateSymbol_together {p p' : Memo × List Diagnostic} (hds : p'.2 = p.2)
    (h : Memo.Parallel Everything b b' p.1 p'.1) (names : List String) :
    (names.foldl evaluateSymbol p').2 = (names.foldl evaluateSymbol p).2 ∧
      Memo.Parallel Everything b b' (names.foldl evaluateSymbol p).1
        (names.foldl evaluateSymbol p').1 := by
  induction names generalizing p p' with
  | nil => exact ⟨hds, h⟩
  | cons name names ih =>
    obtain ⟨s, ds⟩ := p
    obtain ⟨s', ds'⟩ := p'
    cases hds
    obtain ⟨hstep, hmemo⟩ := evaluateSymbol_together h ds name
    exact ih hstep hmemo

/-- Tied tables report the same when they are evaluated, and if they report nothing they end up
equal. -/
theorem evaluate_together {t t' : SymbolTable}
    (h : Memo.Parallel Everything b b' ⟨t, []⟩ ⟨t', []⟩) :
    t'.evaluate.2 = t.evaluate.2 ∧ (t.evaluate.2 = [] → t'.evaluate.1 = t.evaluate.1) := by
  have hnames : t'.names = t.names := h.names'.trans h.names.symm
  have hfold : t'.evaluate.2 = t.evaluate.2 ∧ Memo.Parallel Everything b b'
      (t.names.foldl evaluateSymbol (⟨t, []⟩, [])).1
      (t'.names.foldl evaluateSymbol (⟨t', []⟩, [])).1 := by
    unfold evaluate
    dsimp only
    rw [hnames]
    apply foldl_evaluateSymbol_together
    · rfl
    · exact h
  obtain ⟨hds, hmemo⟩ := hfold
  refine ⟨hds, fun hq => ext_get? (hmemo.outline'.trans hmemo.outline.symm) fun name => ?_⟩
  change (t'.names.foldl evaluateSymbol (⟨t', []⟩, [])).1.table.get? name =
    (t.names.foldl evaluateSymbol (⟨t, []⟩, [])).1.table.get? name
  cases hv : (t.names.foldl evaluateSymbol (⟨t, []⟩, [])).1.table.get? name with
  | none => exact hmemo.undeclared hv
  | some v =>
    obtain ⟨v', hv', htied⟩ := hmemo.value name trivial v hv
    rw [hv', htied.same (not_deferred_of_quiet hq hv)]

end SymbolTable
end Z80Asm
