import Z80Asm.Proofs.CallScopes
import Z80Asm.Proofs.Parallel

/-! Evaluation by a table with one more symbol in front. Where nothing mentions its name, all else
is evaluated as before. -/

namespace Z80Asm
set_option autoImplicit true

def Scope.IsPath (scope : String) : Prop := ∃ is, scope = path is

/-- The qualified name is one of another name than `x`. -/
def Scope.Clear (x q : String) : Prop := ∃ is n, q = path is ++ n ∧ Unsegmented n ∧ n ≠ x

namespace Scope

theorem isPath_empty : IsPath "" := ⟨[], rfl⟩

theorem IsPath.clear (h : IsPath scope) (hn : Unsegmented n) (hne : n ≠ x) :
    Clear x (scope ++ n) := by
  obtain ⟨is, rfl⟩ := h
  exact ⟨is, n, rfl, hn, hne⟩

theorem clear_of_ne (hn : Unsegmented n) (hne : n ≠ x) : Clear x n :=
  ⟨[], n, String.empty_append.symm, hn, hne⟩

theorem not_clear (hx : Unsegmented x) (is : List Nat) : ¬ Clear x (path is ++ x) := by
  rintro ⟨js, n, hq, hn, hne⟩
  exact hne (path_append_inj hx hn hq).2.symm

theorem Clear.ne (h : Clear x q) (hx : Unsegmented x) : q ≠ x := by
  rintro rfl
  exact not_clear hx [] (String.empty_append.symm ▸ h)

end Scope

/-- The name does not occur in the value, which has no scope of its own. -/
structure Value.Avoids (x : String) (v : Value) : Prop where
  mentions : x ∉ v.mentions
  scope : v.scope? = none

def Value.AvoidsWithin (x : String) (v : Value) : Prop :=
  v.isDeferred = true → x ∉ v.mentions ∧ ∃ scope, v.scope? = some scope ∧ Scope.IsPath scope

theorem Value.avoidsWithin_of_not_deferred {v : Value} (h : v.isDeferred = false) :
    v.AvoidsWithin x := by
  intro hd
  rw [h] at hd
  cases hd

/-- The second table is the first one with the symbol `x` of value `w` in front, which is mentioned
nowhere. -/
structure SymbolTable.Beside (x : String) (w : Value) (t t' : SymbolTable) : Prop where
  names : t'.names = x :: t.names
  self : t'.get? x = some w
  get : ∀ q, q ≠ x → t'.get? q = t.get? q
  clear : ∀ q ∈ t.names, Scope.Clear x q
  values : ∀ q v, t.get? q = some v → v.AvoidsWithin x

namespace SymbolTable

theorem names_set (t : SymbolTable) (q : String) (v : Value) :
    (t.set q v).names = if q ∈ t.names then t.names else t.names ++ [q] := by
  split
  · rename_i hq
    exact names_congr (outline_set hq v)
  · rename_i hq
    obtain ⟨t', hd, ho, -⟩ := declare?_of_not_mem hq v {}
    rw [set, hd, names_eq_outline, names_eq_outline, Option.getD_some, ho, List.map_append]
    rfl

namespace Beside

variable {x : String} {w : Value} {t t' : SymbolTable}

theorem mem_iff (h : Beside x w t t') (hq : q ≠ x) : q ∈ t'.names ↔ q ∈ t.names := by
  rw [h.names, List.mem_cons]
  exact or_iff_right hq

theorem resolve?_eq (h : Beside x w t t') (hx : Scope.Unsegmented x) (hs : Scope.IsPath scope)
    (hn : Scope.Unsegmented n) (hne : n ≠ x) : t'.resolve? scope n = t.resolve? scope n := by
  have hcontains (is : List Nat) :
      t'.contains (Scope.path is ++ n) = t.contains (Scope.path is ++ n) := by
    have hq := (Scope.IsPath.clear ⟨is, rfl⟩ hn hne).ne hx
    rw [Bool.eq_iff_iff, contains, contains, List.contains_iff_mem, List.contains_iff_mem]
    exact h.mem_iff hq
  obtain ⟨is, rfl⟩ := hs
  induction is with
  | nil => rw [resolve?_path_nil, resolve?_path_nil, hcontains]
  | cons i is ih => rw [resolve?_path, resolve?_path, hcontains, ih]

theorem resolve?_self (h : Beside x w t t') (hx : Scope.Unsegmented x)
    (hs : Scope.IsPath scope) : t'.resolve? scope x = some x := by
  obtain ⟨is, rfl⟩ := hs
  induction is with
  | nil =>
    have hmem : t'.contains (Scope.path [] ++ x) = true := by
      rw [contains, List.contains_iff_mem, h.names, Scope.path, String.empty_append]
      exact List.mem_cons_self
    rw [resolve?_path_nil, hmem, Scope.path, String.empty_append]
    rfl
  | cons i is ih =>
    have hmem : t'.contains (Scope.path (i :: is) ++ x) = false := by
      rw [← Bool.not_eq_true, contains, List.contains_iff_mem, h.names, List.mem_cons, not_or]
      refine ⟨fun he => ?_, fun hm => Scope.not_clear hx _ (h.clear _ hm)⟩
      have hpath : Scope.path (i :: is) ++ x = Scope.path [] ++ x :=
        he.trans String.empty_append.symm
      cases (Scope.path_append_inj hx hx hpath).1
    rw [resolve?_path, hmem]
    exact ih

theorem set (h : Beside x w t t') (hx : Scope.Unsegmented x) (hq : Scope.Clear x q)
    (hv : v.AvoidsWithin x) : Beside x w (t.set q v) (t'.set q v) := by
  have hne := hq.ne hx
  refine ⟨?_, ?_, fun p hp => ?_, fun p hp => ?_, fun p u hu => ?_⟩
  · rw [names_set, names_set, if_congr (h.mem_iff hne) rfl rfl, h.names]
    split
    · rfl
    · rfl
  · rw [get?_set, if_neg hne.symm, h.self]
  · rw [get?_set, get?_set, h.get p hp]
  · rw [names_set] at hp
    split at hp
    · exact h.clear p hp
    · rcases List.mem_append.1 hp with hp | hp
      · exact h.clear p hp
      · rw [List.mem_singleton.1 hp]
        exact hq
  · rw [get?_set] at hu
    split at hu
    · cases hu
      exact hv
    · exact h.values p u hu

theorem foldl_set (h : Beside x w t t') (hx : Scope.Unsegmented x) {qs : List String}
    (hqs : ∀ q ∈ qs, Scope.Clear x q) (hv : v.AvoidsWithin x) :
    Beside x w (qs.foldl (fun t q => t.set q v) t) (qs.foldl (fun t q => t.set q v) t') := by
  induction qs generalizing t t' with
  | nil => exact h
  | cons q qs ih =>
    exact ih (h.set hx (hqs q List.mem_cons_self) hv) fun p hp =>
      hqs p (List.mem_cons_of_mem q hp)

theorem set_self (h : Beside x w t t') (w' : Value) : Beside x w' t (t'.set x w') := by
  have hx : x ∈ t'.names := h.names ▸ List.mem_cons_self
  refine ⟨?_, ?_, fun q hq => ?_, h.clear, h.values⟩
  · rw [names_set, if_pos hx, h.names]
  · rw [get?_set, if_pos rfl]
  · rw [get?_set, if_neg hq, h.get q hq]

end Beside
end SymbolTable

/-- The tables differ in the symbol `x` only, and the same symbols have failed. -/
structure Memo.Beside (x : String) (w : Value) (s s' : Memo) : Prop where
  table : s.table.Beside x w s'.table
  failed : s'.failed = s.failed

namespace Resolve

variable {x : String} {w : Value}

/-- An expression without the name takes the same course. -/
theorem source_beside (hx : Scope.Unsegmented x) {inner inner' : String → Resolve Datum}
    (hscope : Scope.IsPath scope)
    (hnames : ∀ e, Expr.parse text = .ok e → x ∉ e.names)
    (hinner : ∀ q, Scope.Clear x q → Together (Memo.Beside x w) (inner q) (inner' q))
    (here? : Option Int64) :
    Together (Memo.Beside x w) (source inner here? scope text)
      (source inner' here? scope text) := by
  unfold source
  cases hp : Expr.parse text with
  | error e => exact .throw _ _
  | ok e =>
    apply (together (Memo.Beside x w)).evalM e
    intro n hn
    have hne : n ≠ x := by
      rintro rfl
      exact hnames e hp hn
    by_cases hhere : n = "$"
    · simp only [hhere, ↓reduceIte]
      cases here? with
      | none => exact .throw _ _
      | some here => exact .pure _ _
    · simp only [if_neg hhere]
      intro s s' h
      rw [run_get_bind, run_get_bind,
        h.table.resolve?_eq hx hscope (Expr.parse_clean hp n hn) hne]
      cases hr : s.table.resolve? scope n with
      | none => exact ⟨rfl, h⟩
      | some q => exact hinner q (h.table.clear q (SymbolTable.mem_names_of_resolve? hr)) s s' h

theorem symbol_beside (hx : Scope.Unsegmented x) (fresh path : List String) (name : String)
    (hname : Scope.Clear x name) :
    Together (Memo.Beside x w) (symbol fresh path name) (symbol (x :: fresh) path name) := by
  intro s s' h
  have hne := hname.ne hx
  have hget := h.table.get name hne
  have herase : (x :: fresh).erase name = x :: fresh.erase name :=
    List.erase_cons_tail (by simpa using hne.symm)
  have hfresh : name ∈ x :: fresh ↔ name ∈ fresh := by
    rw [List.mem_cons]
    exact or_iff_right hne
  refine symbol_together_of path h (by rw [hget]) h.failed hfresh
    fun v v' text free hv hv' hc hf => ?_
  rw [hget, hv] at hv'
  cases hv'
  have hd : v.isDeferred = true := Value.isDeferred_iff.2 ⟨text, free, hc⟩
  obtain ⟨hmentions, scope, hs, hpath⟩ := h.table.values name v hv hd
  have hsource : Together (Memo.Beside x w)
      (source (symbol (fresh.erase name) (path ++ [name])) v.here? scope text)
      (source (symbol (x :: fresh.erase name) (path ++ [name])) v.here? scope text) := by
    refine source_beside hx hpath (fun e hp => ?_) (fun q hq => ?_) v.here?
    · rw [Value.mentions_of_parse hc hp] at hmentions
      exact hmentions
    · exact symbol_beside hx (fresh.erase name) (path ++ [name]) q hq
  rw [herase, hs, Option.getD_some]
  refine conclude_together (hsource s s' h) (fun s s' h => ?_) fun d s s' h => ?_
  · exact ⟨h.table, congrArg (name :: ·) h.failed⟩
  · have hknown : (Value.ofDatum d).AvoidsWithin x :=
      Value.avoidsWithin_of_not_deferred (Value.isDeferred_ofDatum d)
    exact ⟨h.table.set hx hname hknown, h.failed⟩
termination_by fresh.length
decreasing_by exact length_erase_lt ‹_›

theorem value_beside (hx : Scope.Unsegmented x) {v : Value} (hv : x ∉ v.mentions)
    (hscope : Scope.IsPath scope) (here : Int64) :
    Together (Memo.Beside x w) (value v scope here) (value v scope here) := by
  unfold value
  cases hc : v.content with
  | number n => exact .pure _ _
  | text s => exact .pure _ _
  | unresolved => exact .throw _ _
  | deferred text free =>
    intro s s' h
    rw [run_get_bind, run_get_bind, h.table.names]
    refine source_beside hx hscope (fun e hp => ?_) (fun q hq => ?_) (some here) s s' h
    · rw [Value.mentions_of_parse hc hp] at hv
      exact hv
    · exact symbol_beside hx s.table.names [] q hq

theorem value_self (hparse : Expr.parse x = .ok (.ident x)) (hhere : x ≠ "$") {s s' : Memo}
    (h : Memo.Beside x (.ofDatum d) s s') (hscope : Scope.IsPath scope) (names : List String)
    (here : Int64) :
    (value (.deferred x names) scope here).run.run s' = (.ok d, s') := by
  have hx : Scope.Unsegmented x := Expr.parse_clean hparse x (List.mem_singleton_self x)
  change (source (symbol s'.table.names []) (some here) scope x).run.run s' = _
  unfold source
  rw [hparse]
  simp only [Expr.evalM, if_neg hhere]
  rw [run_get_bind, h.table.resolve?_self hx hscope]
  exact symbol_of_known h.table.self (Value.datum?_ofDatum d)

end Resolve

namespace SymbolTable

variable {x : String} {w : Value}

theorem evaluateSymbol_beside (hx : Scope.Unsegmented x) {p p' : Memo × List Diagnostic}
    (h : Memo.Beside x w p.1 p'.1) (hds : p'.2 = [] ↔ p.2 = []) (hname : Scope.Clear x name) :
    Memo.Beside x w (evaluateSymbol p name).1 (evaluateSymbol p' name).1 ∧
      ((evaluateSymbol p' name).2 = [] ↔ (evaluateSymbol p name).2 = []) := by
  obtain ⟨s, ds⟩ := p
  obtain ⟨s', ds'⟩ := p'
  unfold evaluateSymbol
  dsimp only at h hds ⊢
  rw [h.table.get name (hname.ne hx), h.failed, h.table.names]
  cases s.table.get? name with
  | none => exact ⟨h, hds⟩
  | some v =>
    dsimp only
    split
    · obtain ⟨hr, hR⟩ := Resolve.symbol_beside hx s.table.names [] name hname s s' h
      generalize (Resolve.symbol s.table.names [] name).run.run s = r at hr hR
      generalize (Resolve.symbol (x :: s.table.names) [] name).run.run s' = r' at hr hR
      obtain ⟨r, s₁⟩ := r
      obtain ⟨r', s₁'⟩ := r'
      cases hr
      cases r with
      | error e =>
        refine ⟨hR, ?_⟩
        simp only [List.append_eq_nil_iff, List.cons_ne_nil, and_false]
      | ok d => exact ⟨hR, hds⟩
    · exact ⟨h, hds⟩

theorem foldl_evaluateSymbol_beside (hx : Scope.Unsegmented x) {names : List String}
    (hnames : ∀ q ∈ names, Scope.Clear x q) {p p' : Memo × List Diagnostic}
    (h : Memo.Beside x w p.1 p'.1) (hds : p'.2 = [] ↔ p.2 = []) :
    Memo.Beside x w (names.foldl evaluateSymbol p).1 (names.foldl evaluateSymbol p').1 ∧
      ((names.foldl evaluateSymbol p').2 = [] ↔ (names.foldl evaluateSymbol p).2 = []) := by
  induction names generalizing p p' with
  | nil => exact ⟨h, hds⟩
  | cons q names ih =>
    obtain ⟨hstep, hquiet⟩ := evaluateSymbol_beside hx h hds (hnames q List.mem_cons_self)
    exact ih (fun r hr => hnames r (List.mem_cons_of_mem q hr)) hstep hquiet

/-- Both tables are evaluated alike, if the value of the new symbol is known. -/
theorem evaluate_beside (hx : Scope.Unsegmented x) {t t' : SymbolTable}
    (h : Beside x (.ofDatum d) t t') :
    Beside x (.ofDatum d) t.evaluate.1 t'.evaluate.1 ∧
      (t'.evaluate.2 = [] ↔ t.evaluate.2 = []) := by
  have hfirst : evaluateSymbol (⟨t', []⟩, []) x = (⟨t', []⟩, []) := by
    unfold evaluateSymbol
    dsimp only
    rw [h.self]
    dsimp only
    rw [Value.isDeferred_ofDatum]
    rfl
  have hfold : Memo.Beside x (.ofDatum d) (t.names.foldl evaluateSymbol (⟨t, []⟩, [])).1
        (t.names.foldl evaluateSymbol (⟨t', []⟩, [])).1 ∧
      ((t.names.foldl evaluateSymbol (⟨t', []⟩, [])).2 = [] ↔
        (t.names.foldl evaluateSymbol (⟨t, []⟩, [])).2 = []) := by
    apply foldl_evaluateSymbol_beside hx h.clear
    · exact ⟨h, rfl⟩
    · exact Iff.rfl
  unfold evaluate
  dsimp only
  rw [h.names, List.foldl_cons, hfirst]
  exact ⟨hfold.1.table, hfold.2⟩

end SymbolTable
end Z80Asm
