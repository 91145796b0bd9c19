import Z80Asm.Proofs.Evaluation

/-! How deep the evaluation of symbols goes. The symbols under evaluation are all deferred and all
different, so there is no room for more of them than the table has deferred symbols. -/

namespace Z80Asm
set_option autoImplicit true

namespace SymbolTable

def deferred (t : SymbolTable) : List String := t.names.filter t.isDeferred

theorem mem_names_of_isDeferred {t : SymbolTable} (h : t.isDeferred name = true) :
    name ∈ t.names := by
  obtain ⟨v, text, free, hv, -⟩ := isDeferred_iff.1 h
  exact mem_names_of_get? hv

theorem isDeferred_congr {t t' : SymbolTable} (h : t'.get? name = t.get? name) :
    t'.isDeferred name = t.isDeferred name := by rw [isDeferred, isDeferred, h]

theorem isDeferred_of_ofDatum {t : SymbolTable} (h : t.get? name = some (.ofDatum d)) :
    t.isDeferred name = false := by
  rw [isDeferred, h]
  exact Value.isDeferred_ofDatum d

end SymbolTable

namespace Resolve

/-- Resolution with nothing but the path to end it, under watch: `alarm` takes over where the
recursion is deeper than `depth`, or where the path holds a name twice or one that is not
deferred. -/
def watched (alarm : List String → String → Resolve Datum) :
    (depth : Nat) → (path : List String) → (name : String) → Resolve Datum
  | 0, path, name => alarm path name
  | depth + 1, path, name => do
    let s ← get
    if path.Nodup ∧ ∀ p ∈ path, s.table.isDeferred p = true then
      match s.table.get? name with
      | none => throw (.undefinedSymbol (Scope.display name))
      | some v =>
        match v.content with
        | .number n => pure (.number n)
        | .text s => pure (.text s)
        | .unresolved => throw (.noValue (Scope.display name))
        | .deferred text _ =>
          if name ∈ path then throw (circle path name)
          else if s.failed.contains name then throw (.unresolved (Scope.display name))
          else do
            let scope := v.scope?.getD (Scope.ofName name)
            let inner := watched alarm depth (path ++ [name])
            let d ← tryCatch (source inner v.here? scope text) fun e => do
              markFailed name
              throw e
            store name d
            pure d
    else alarm path name

theorem watched_of_not_deferred {s : Memo} (h : s.table.isDeferred name = false)
    (hpath : path.Nodup ∧ ∀ p ∈ path, s.table.isDeferred p = true)
    (alarm : List String → String → Resolve Datum) (depth : Nat) :
    (watched alarm (depth + 1) path name).run.run s = (s.table.reading name, s) := by
  rw [watched, run_get_bind, if_pos hpath, SymbolTable.reading]
  rw [SymbolTable.isDeferred] at h
  cases hv : s.table.get? name with
  | none => rfl
  | some v =>
    rw [hv, Option.any_some, Value.isDeferred] at h
    cases hc : v.content with
    | deferred =>
      rw [hc] at h
      cases h
    | _ =>
      simp only [hc]
      rfl

theorem watched_of_deferred {s : Memo} (hv : s.table.get? name = some v)
    (hc : v.content = .deferred text free)
    (hpath : path.Nodup ∧ ∀ p ∈ path, s.table.isDeferred p = true)
    (alarm : List String → String → Resolve Datum) (depth : Nat) :
    (watched alarm (depth + 1) path name).run.run s =
      if name ∈ path then (.error (circle path name), s)
      else if name ∈ s.failed then (.error (.unresolved (Scope.display name)), s)
      else conclude name ((source (watched alarm depth (path ++ [name])) v.here?
        (v.scope?.getD (Scope.ofName name)) text).run.run s) := by
  rw [watched, run_get_bind, if_pos hpath, hv]
  simp only [hc]
  split
  · rfl
  · rw [List.contains_eq_mem]
    by_cases hf : name ∈ s.failed
    · rw [if_pos (decide_eq_true hf), if_pos hf]
      rfl
    · rw [if_neg (by simpa using hf), if_neg hf]
      exact run_conclude _ name s

end Resolve

/-- Resolution has gone on: it has stored nothing outside of `fresh`, and no symbol has become
deferred. -/
structure Memo.Advances (fresh : List String) (s s' : Memo) : Prop where
  names : s'.table.names = s.table.names
  frame : ∀ q, q ∉ fresh → s'.table.get? q = s.table.get? q
  deferred : ∀ q, s'.table.isDeferred q = true → s.table.isDeferred q = true

namespace Memo.Advances

theorem refl (fresh : List String) (s : Memo) : Advances fresh s s :=
  ⟨rfl, fun _ _ => rfl, fun _ h => h⟩

theorem trans (h : Advances fresh s s') (h' : Advances fresh s' s'') : Advances fresh s s'' :=
  ⟨h'.names.trans h.names, fun q hq => (h'.frame q hq).trans (h.frame q hq),
    fun q hq => h.deferred q (h'.deferred q hq)⟩

theorem erase (h : Advances (fresh.erase name) s s') : Advances fresh s s' :=
  ⟨h.names, fun q hq => h.frame q (mt List.mem_of_mem_erase hq), h.deferred⟩

theorem conclude {r : Except EvalError Datum × Memo} (h : Advances fresh s r.2)
    (hname : name ∈ fresh) (hdeclared : name ∈ s.table.names) :
    Advances fresh s (Resolve.conclude name r).2 := by
  obtain ⟨r, s'⟩ := r
  cases r with
  | error e => exact ⟨h.names, h.frame, h.deferred⟩
  | ok d =>
    have hn : name ∈ s'.table.names := h.names ▸ hdeclared
    refine ⟨?_, fun q hq => ?_, fun q hq => ?_⟩
    · exact (SymbolTable.names_congr (SymbolTable.outline_set hn _)).trans h.names
    · have hne : q ≠ name := by
        rintro rfl
        exact hq hname
      exact (SymbolTable.get?_set_of_ne hn hne _).trans (h.frame q hq)
    · by_cases he : q = name
      · subst he
        rw [Resolve.conclude, SymbolTable.isDeferred_of_ofDatum (s'.table.get?_set_self q _)] at hq
        cases hq
      · apply h.deferred
        rwa [Resolve.conclude,
          SymbolTable.isDeferred_congr (SymbolTable.get?_set_of_ne hn he _)] at hq

end Memo.Advances

structure Resolve.Splits (names fresh path : List String) : Prop where
  nodup : fresh.Nodup
  mem_iff : ∀ q ∈ names, q ∈ fresh ↔ q ∉ path

theorem Resolve.Splits.initial (h : names.Nodup) : Splits names names [] :=
  ⟨h, fun _ hq => ⟨fun _ => List.not_mem_nil, fun _ => hq⟩⟩

theorem Resolve.Splits.push (h : Splits names fresh path) (name : String) :
    Splits names (fresh.erase name) (path ++ [name]) := by
  refine ⟨h.nodup.erase name, fun q hq => ?_⟩
  rw [h.nodup.mem_erase_iff, h.mem_iff q hq, List.mem_append, List.mem_singleton, not_or, and_comm]

/-- `path` holds deferred symbols, `fresh` all others, and of these fewer than `depth` are
deferred. -/
structure Memo.Within (fresh path : List String) (depth : Nat) (s : Memo) : Prop where
  splits : Resolve.Splits s.table.names fresh path
  nodup : path.Nodup
  deferred : ∀ p ∈ path, s.table.isDeferred p = true
  room : (fresh.filter s.table.isDeferred).length < depth

namespace Memo.Within

theorem initial (s : Memo) : Within s.table.names [] (s.table.deferred.length + 1) s where
  splits := .initial s.table.nodup
  nodup := List.nodup_nil
  deferred _ hp := nomatch hp
  room := Nat.lt_succ_self _

theorem advance (h : Within fresh path depth s) (hs : Advances fresh s s') :
    Within fresh path depth s' := by
  refine ⟨hs.names ▸ h.splits, h.nodup, fun p hp => ?_, ?_⟩
  · have hdeferred := h.deferred p hp
    have hnot : p ∉ fresh := fun hf =>
      (h.splits.mem_iff p (SymbolTable.mem_names_of_isDeferred hdeferred)).1 hf hp
    rw [SymbolTable.isDeferred_congr (hs.frame p hnot)]
    exact hdeferred
  · have hsub := List.monotone_filter_right fresh hs.deferred
    exact Nat.lt_of_le_of_lt hsub.length_le h.room

theorem push (h : Within fresh path (depth + 1) s) (hname : name ∈ fresh)
    (hd : s.table.isDeferred name = true) :
    Within (fresh.erase name) (path ++ [name]) depth s := by
  have hdeclared := SymbolTable.mem_names_of_isDeferred hd
  have hpath : name ∉ path := (h.splits.mem_iff name hdeclared).1 hname
  refine ⟨h.splits.push name, ?_, fun p hp => ?_, ?_⟩
  · exact List.nodup_append.2 ⟨h.nodup, List.nodup_singleton name,
      fun p hp q hq he => hpath (List.mem_singleton.1 hq ▸ he ▸ hp)⟩
  · rcases List.mem_append.1 hp with hp | hp
    · exact h.deferred p hp
    · exact List.mem_singleton.1 hp ▸ hd
  · have hmem : name ∈ fresh.filter s.table.isDeferred := List.mem_filter.2 ⟨hname, hd⟩
    have hlength := List.length_erase_of_mem hmem
    have hpos := List.length_pos_of_mem hmem
    have hroom := h.room
    rw [← List.erase_filter]
    omega

end Memo.Within

namespace Resolve

def alike (I : Memo → Prop) : Expr.Simulation Resolve Resolve where
  rel x y := ∀ s, I s → x.run.run s = y.run.run s ∧ I (y.run.run s).2
  pure _ _ hs := ⟨rfl, hs⟩
  throw _ _ hs := ⟨rfl, hs⟩
  bind {α β x y f g} hx hf := by
    intro s hs
    obtain ⟨he, hI⟩ := hx s hs
    rw [run_bind, run_bind, he]
    generalize y.run.run s = r at hI ⊢
    obtain ⟨r, s'⟩ := r
    cases r with
    | error e => exact ⟨rfl, hI⟩
    | ok a => exact hf a s' hI

theorem source_alike {I : Memo → Prop} {f g : String → Resolve Datum}
    (h : ∀ q s, I s → (f q).run.run s = (g q).run.run s ∧ I ((g q).run.run s).2)
    (here? : Option Int64) (scope text : String) (hs : I s) :
    (source f here? scope text).run.run s = (source g here? scope text).run.run s ∧
      I ((source g here? scope text).run.run s).2 := by
  unfold source
  cases Expr.parse text with
  | error e => exact ⟨rfl, hs⟩
  | ok e =>
    apply (alike I).evalM e _ s hs
    intro x _
    split
    · cases here? with
      | none => exact fun _ hs => ⟨rfl, hs⟩
      | some n => exact fun _ hs => ⟨rfl, hs⟩
    · intro s hs
      rw [run_get_bind, run_get_bind]
      cases s.table.resolve? scope x with
      | none => exact ⟨rfl, hs⟩
      | some q => exact h q s hs

theorem symbol_advances (fresh path : List String) (name : String) (s : Memo) :
    Memo.Advances fresh s ((symbol fresh path name).run.run s).2 := by
  cases hd : s.table.isDeferred name with
  | false =>
    rw [symbol_of_not_deferred hd]
    exact .refl fresh s
  | true =>
    obtain ⟨v, text, free, hv, hc⟩ := SymbolTable.isDeferred_iff.1 hd
    rw [symbol_of_deferred hv hc]
    split
    · rename_i hname
      split
      · exact .refl fresh s
      · apply Memo.Advances.conclude _ hname (SymbolTable.mem_names_of_isDeferred hd)
        have hinner (q : String) (s' : Memo) :=
          symbol_advances (fresh.erase name) (path ++ [name]) q s'
        exact (source_alike (fun q s' hs' => ⟨rfl, hs'.trans (hinner q s')⟩) v.here? _ text
          (Memo.Advances.refl (fresh.erase name) s)).2.erase
    · exact .refl fresh s
termination_by fresh.length
decreasing_by exact length_erase_lt ‹_›

/-- No alarm is raised while there is room for the deferred symbols that are not on the path. -/
theorem watched_eq (alarm : List String → String → Resolve Datum)
    (h : Memo.Within fresh path depth s) (name : String) :
    (watched alarm depth path name).run.run s = (symbol fresh path name).run.run s := by
  induction depth generalizing fresh path s name with
  | zero => exact absurd h.room (Nat.not_lt_zero _)
  | succ depth ih =>
    have hpath := And.intro h.nodup h.deferred
    cases hd : s.table.isDeferred name with
    | false => rw [watched_of_not_deferred hd hpath, symbol_of_not_deferred hd]
    | true =>
      obtain ⟨v, text, free, hv, hc⟩ := SymbolTable.isDeferred_iff.1 hd
      have hfresh := h.splits.mem_iff name (SymbolTable.mem_names_of_isDeferred hd)
      rw [watched_of_deferred hv hc hpath, symbol_of_deferred hv hc]
      by_cases hname : name ∈ fresh
      · rw [if_neg (hfresh.1 hname), if_pos hname]
        have hsource := source_alike (fun q s hs => ⟨ih hs q, hs.advance (symbol_advances _ _ q s)⟩)
          v.here? (v.scope?.getD (Scope.ofName name)) text (h.push hname hd)
        rw [hsource.1]
      · rw [if_pos (not_not.1 (mt hfresh.2 hname)), if_neg hname]

/-- Resolution ends on every table, whatever has been stored or has failed before. From a symbol or
from an expression, the recursion through symbols gets at most one level deeper than the table has
deferred symbols, and never has a name twice on its path, or one that is not deferred: no alarm
could make a difference. -/
theorem resolution_bounded (alarm : List String → String → Resolve Datum) (s : Memo) :
    (∀ name, (watched alarm (s.table.deferred.length + 1) [] name).run.run s =
      (symbol s.table.names [] name).run.run s) ∧
    ∀ (v : Value) (scope : String) (here : Int64) (text : String) (free : List String),
      v.content = .deferred text free →
      (source (watched alarm (s.table.deferred.length + 1) []) (some here) scope text).run.run s =
        (value v scope here).run.run s := by
  refine ⟨watched_eq alarm (.initial s), fun v scope here text free hc => ?_⟩
  simp only [value, hc]
  rw [run_get_bind]
  exact (source_alike (I := Memo.Within s.table.names [] (s.table.deferred.length + 1))
    (fun q s hs => ⟨watched_eq alarm hs q, hs.advance (symbol_advances _ _ q s)⟩)
    (some here) scope text (Memo.Within.initial s)).1

/-- The level behind the deferred symbols is needed: a symbol asks for itself there. -/
example : ((watched (fun _ _ => throw .unresolvedValue) 1 [] "x").run.run
    ⟨⟨[⟨"x", ⟨.deferred "x" ["x"], none, none⟩, {}⟩], List.nodup_singleton _⟩, []⟩).1 =
      .error .unresolvedValue := by cbv

end Resolve
end Z80Asm
