import Z80Asm.Proofs.Growth

/-! Resolution agrees with the meaning of a table: whatever has been stored or has failed before,
and whichever symbols are under evaluation, an expression gives the value that it denotes. -/

namespace Z80Asm
set_option autoImplicit true

namespace SymbolTable

def isDeferred (t : SymbolTable) (name : String) : Bool := (t.get? name).any Value.isDeferred

/-- What a symbol that is not deferred gives. -/
def reading (t : SymbolTable) (name : String) : Except EvalError Datum :=
  match t.get? name with
  | none => .error (.undefinedSymbol (Scope.display name))
  | some v => v.content.datum?.elim (.error (.noValue (Scope.display name))) .ok

theorem isDeferred_iff {t : SymbolTable} : t.isDeferred name = true ↔
    ∃ v text free, t.get? name = some v ∧ v.content = .deferred text free := by
  simp only [isDeferred, Option.any_eq_true, Value.isDeferred_iff]
  constructor
  · rintro ⟨v, hv, text, free, hc⟩
    exact ⟨v, text, free, hv, hc⟩
  · rintro ⟨v, text, free, hv, hc⟩
    exact ⟨v, hv, text, free, hc⟩

theorem reading_eq_ok {t : SymbolTable} :
    t.reading name = .ok d ↔ ∃ v, t.get? name = some v ∧ v.content.datum? = some d := by
  unfold reading
  cases t.get? name with
  | none => simp
  | some v => cases hd : v.content.datum? <;> simp [hd]

theorem reading_toOption {t t' : SymbolTable} (hs : t.Settles t')
    (hd : t'.isDeferred name = false) : (t'.reading name).toOption = t.meaning name := by
  rw [← hs.meaning_eq]
  unfold reading
  unfold isDeferred at hd
  cases hv : t'.get? name with
  | none => exact (meaning_of_undeclared hv).symm
  | some v =>
    rw [hv, Option.any_some, Value.isDeferred] at hd
    cases hc : v.content with
    | deferred =>
      rw [hc] at hd
      cases hd
    | unresolved =>
      simp only [hc]
      exact (meaning_of_unresolved hv hc).symm
    | _ =>
      simp only [hc]
      exact (meaning_of_known hv (by rw [hc]; rfl)).symm

theorem reading_congr {t t' : SymbolTable}
    (h : (t'.get? name).map Value.content = (t.get? name).map Value.content) :
    t'.isDeferred name = t.isDeferred name ∧ t'.reading name = t.reading name := by
  unfold isDeferred reading
  cases hv : t.get? name with
  | none =>
    rw [hv, Option.map_none, Option.map_eq_none_iff] at h
    rw [h]
    exact ⟨rfl, rfl⟩
  | some v =>
    rw [hv, Option.map_some, Option.map_eq_some_iff] at h
    obtain ⟨v', hv', hc⟩ := h
    rw [hv']
    simp only [Option.any_some, Value.isDeferred, hc]
    exact ⟨trivial, trivial⟩

end SymbolTable

namespace Resolve

theorem run_bind (x : Resolve α) (f : α → Resolve β) (s : Memo) :
    (x >>= f).run.run s =
      match x.run.run s with
      | (.ok a, s') => (f a).run.run s'
      | (.error e, s') => (.error e, s') := by
  rw [ExceptT.run_bind, StateT.run_bind]
  generalize x.run.run s = r
  obtain ⟨r, s'⟩ := r
  cases r with
  | error e => rfl
  | ok a => rfl

/-- From a state in `I`, the computation gives the value that `y` has, or fails if it has none, and
ends in a state in `I`. -/
def Follows (I : Memo → Prop) (x : Resolve α) (y : Except EvalError α) : Prop :=
  ∀ s, I s → (x.run.run s).1.toOption = y.toOption ∧ I (x.run.run s).2

theorem Follows.pure (I : Memo → Prop) (a : α) : Follows I (Pure.pure a) (.ok a) :=
  fun _ hs => ⟨rfl, hs⟩

theorem Follows.throw (I : Memo → Prop) (e e' : EvalError) :
    Follows I (MonadExcept.throw e : Resolve α) (.error e') :=
  fun _ hs => ⟨rfl, hs⟩

theorem Follows.bind {x : Resolve α} {f : α → Resolve β} (hx : Follows I x y)
    (hf : ∀ a, y = .ok a → Follows I (f a) (g a)) : Follows I (x >>= f) (y >>= g) := by
  intro s hs
  obtain ⟨hv, hi⟩ := hx s hs
  rw [run_bind]
  generalize x.run.run s = r at hv hi
  obtain ⟨r, s'⟩ := r
  cases r with
  | error e =>
    cases y with
    | error e' => exact ⟨rfl, hi⟩
    | ok a => cases hv
  | ok a =>
    have he := Except.eq_ok_of_toOption hv.symm
    subst he
    exact hf a rfl s' hi

/-- Evaluations in step: a computation follows the one at `none` if all others have values. -/
def simulation (I : Memo → Prop) (ι : Type) :
    Expr.Simulation Resolve (ReaderT (Option ι) (Except EvalError)) where
  rel x y := (∀ i a, y (some i) = .ok a → y none = .ok a) ∧
    ((∀ i, ∃ a, y (some i) = .ok a) → Follows I x (y none))
  pure a := ⟨fun _ _ h => h, fun _ => .pure I a⟩
  throw e := ⟨fun _ _ h => (nomatch h), fun _ => .throw I e e⟩
  bind {α β x y f g} hx hf := by
    have hb (i : Option ι) : (y >>= g) i = (y i >>= fun a => g a i) := rfl
    constructor
    · intro i b h
      obtain ⟨a, ha, hga⟩ := Except.bind_eq_ok.1 h
      exact Except.bind_eq_ok.2 ⟨a, hx.1 i a ha, (hf a).1 i b hga⟩
    · intro h
      rw [hb]
      apply Follows.bind
      · apply hx.2
        intro i
        obtain ⟨b, hi⟩ := h i
        obtain ⟨a, ha, _⟩ := Except.bind_eq_ok.1 hi
        exact ⟨a, ha⟩
      · intro a ha
        apply (hf a).2
        intro i
        obtain ⟨b, hi⟩ := h i
        obtain ⟨a', ha', hga⟩ := Except.bind_eq_ok.1 hi
        have he := hx.1 i a' ha'
        rw [ha] at he
        cases he
        exact ⟨b, hga⟩

end Resolve

def Expr.Simulation.reader (i : ι) :
    Simulation (ReaderT ι (Except EvalError)) (Except EvalError) where
  rel x y := x i = y
  pure _ := rfl
  throw _ := rfl
  bind {α β x y f g} hx hf := by
    change (x i >>= fun a => f a i) = _
    rw [hx]
    congr 1
    funext a
    exact hf a

/-- An expression follows its value under `σ`. What it asks for is known to every lookup below `σ`
under which it has a value, whatever it asks for otherwise. -/
theorem Resolve.Follows.evalM {ι : Type} {L : String → Resolve Datum}
    {σ : String → Except EvalError Datum} {ρ : ι → String → Except EvalError Datum}
    (hρ : ∀ i, Expr.Below (ρ i) σ)
    (hL : ∀ x, (∀ i, ∃ d, ρ i x = .ok d) → Follows I (L x) (σ x)) (e : Expr)
    (he : ∀ i, ∃ d, e.eval (ρ i) = .ok d) : Follows I (e.evalM L) (e.eval σ) := by
  let M (x : String) : ReaderT (Option ι) (Except EvalError) Datum :=
    fun i => i.elim (σ x) (ρ · x)
  have hM (i : Option ι) : e.evalM M i = e.evalM (fun x => M x i) :=
    (Expr.Simulation.reader i).evalM e fun x _ => rfl
  have h := (simulation I ι).evalM (ρ := L) (σ := M) e fun x _ => ⟨fun i => hρ i x, hL x⟩
  have hn := h.2 fun i => (hM (some i)).symm ▸ he i
  rw [hM none] at hn
  exact hn

namespace SymbolTable

/-- Every derivation of a value for `p` contains one for `q`. -/
def Needs (t : SymbolTable) (p q : String) : Prop :=
  ∀ n d, t.valueWithin n p = some d → ∃ k < n, ∃ w, t.valueWithin k q = some w

theorem Needs.trans (h : Needs t p q) (h' : Needs t q r) : Needs t p r := by
  intro n d hp
  obtain ⟨k, hk, w, hq⟩ := h n d hp
  obtain ⟨l, hl, u, hr⟩ := h' k w hq
  exact ⟨l, Nat.lt_trans hl hk, u, hr⟩

theorem Needs.meaning_eq_none (h : Needs t p p) : t.meaning p = none := by
  have hn (n : Nat) : ∀ d, t.valueWithin n p ≠ some d := by
    induction n using Nat.strongRecOn with
    | ind n ih =>
      intro d hd
      obtain ⟨k, hk, w, hw⟩ := h n d hd
      exact ih k hk w hw
  cases hm : t.meaning p with
  | none => rfl
  | some d =>
    obtain ⟨n, hd⟩ := (meaning_eq_some_iff.1 hm).valueWithin
    exact (hn n d hd).elim

end SymbolTable

/-- What is stored are values that symbols denote, and what has failed denotes none. -/
structure Memo.Sound (t : SymbolTable) (s : Memo) : Prop where
  settles : t.Settles s.table
  failed : ∀ name ∈ s.failed, t.meaning name = none

namespace Resolve

theorem run_get_bind (f : Memo → Resolve α) (s : Memo) :
    (get >>= f).run.run s = (f s).run.run s := rfl

theorem run_tryCatch (x : Resolve α) (f : EvalError → Resolve α) (s : Memo) :
    (tryCatch x f).run.run s =
      match x.run.run s with
      | (.ok a, s') => (.ok a, s')
      | (.error e, s') => (f e).run.run s' := by
  rw [ExceptT.run_tryCatch, StateT.run_bind]
  generalize x.run.run s = r
  obtain ⟨r, s'⟩ := r
  cases r with
  | error e => rfl
  | ok a => rfl

theorem source_follows {ι : Type} {inner : String → Resolve Datum} {ρ : ι → String → Option Datum}
    (hρ : ∀ i, SymbolTable.Extends (ρ i) t.meaning)
    (hinner : ∀ q, (∀ i, ∃ d, ρ i q = some d) →
      Follows (Memo.Sound t) (inner q) (SymbolTable.orNoValue q (t.meaning q)))
    (he : ∀ i, ∃ d, t.evalIn (ρ i) here? scope text = .ok d) :
    Follows (Memo.Sound t) (source inner here? scope text)
      (t.evalIn t.meaning here? scope text) := by
  unfold source SymbolTable.evalIn
  cases hp : Expr.parse text with
  | error e => exact .throw _ _ _
  | ok e =>
    simp only [SymbolTable.evalIn, hp] at he
    apply Follows.evalM (fun i => SymbolTable.lookupIn_below fun q _ => hρ i q) _ e he
    intro x hx
    unfold SymbolTable.lookupIn at hx ⊢
    split
    · cases here? with
      | none => exact .throw _ _ _
      | some n => exact .pure _ _
    · rename_i hs
      simp only [if_neg hs] at hx
      intro s hI
      have hres : s.table.resolve? = t.resolve? :=
        SymbolTable.resolve?_congr fun q => by rw [hI.settles.names]
      rw [run_get_bind, hres]
      cases hr : t.resolve? scope x with
      | none => exact ⟨rfl, hI⟩
      | some q =>
        simp only [hr, SymbolTable.orNoValue_eq_ok] at hx
        exact hinner q hx s hI

theorem deferred_source_follows {inner : String → Resolve Datum} (hv : t.get? name = some v)
    (hc : v.content = .deferred text free)
    (hinner : ∀ q, t.Needs name q →
      Follows (Memo.Sound t) (inner q) (SymbolTable.orNoValue q (t.meaning q))) :
    Follows (Memo.Sound t) (source inner v.here? (v.scope?.getD (Scope.ofName name)) text)
      (t.evalIn t.meaning v.here? (v.scope?.getD (Scope.ofName name)) text) := by
  -- one evaluation for each height at which the symbol has a value
  apply source_follows
    fun n : { n // ∃ d, t.valueWithin (n + 1) name = some d } => t.valueWithin_meaning n.1
  · intro q hq
    apply hinner
    intro n d hd
    cases n with
    | zero => cases hd
    | succ n => exact ⟨n, Nat.lt_succ_self n, hq ⟨n, d, hd⟩⟩
  · rintro ⟨n, d, hd⟩
    rw [SymbolTable.valueWithin, SymbolTable.valueFrom_of_deferred hv hc] at hd
    exact ⟨d, Except.eq_ok_of_toOption hd⟩

def circle (path : List String) (name : String) : EvalError :=
  .circular ((path.dropWhile (· ≠ name) ++ [name]).map Scope.display)

/-- What becomes of the evaluation of `name` when its expression has been evaluated. -/
def conclude (name : String) : Except EvalError Datum × Memo → Except EvalError Datum × Memo
  | (.ok d, s) => (.ok d, { s with table := s.table.set name (.ofDatum d) })
  | (.error e, s) => (.error e, { s with failed := name :: s.failed })

theorem run_conclude (x : Resolve Datum) (name : String) (s : Memo) :
    (do
      let d ← tryCatch x fun e => do
        markFailed name
        throw e
      store name d
      pure d : Resolve Datum).run.run s = conclude name (x.run.run s) := by
  rw [run_bind, run_tryCatch]
  generalize x.run.run s = r
  obtain ⟨r, s'⟩ := r
  cases r with
  | error e => rfl
  | ok d => rfl

theorem symbol_of_not_deferred {s : Memo} (h : s.table.isDeferred name = false)
    (fresh path : List String) :
    (symbol fresh path name).run.run s = (s.table.reading name, s) := by
  rw [symbol, run_get_bind, SymbolTable.reading]
  rw [SymbolTable.isDeferred] at h
  cases hv : s.table.get? name with
  | none => rfl
  | some v =>
    rw [hv, Option.any_some, Value.isDeferred] at h
    cases hc : v.content with
    | deferred =>
      rw [hc] at h
      cases h
    | _ =>
      simp only [hc]
      rfl

theorem symbol_of_deferred {s : Memo} (hv : s.table.get? name = some v)
    (hc : v.content = .deferred text free) (fresh path : List String) :
    (symbol fresh path name).run.run s =
      if name ∈ fresh then
        if name ∈ s.failed then (.error (.unresolved (Scope.display name)), s)
        else conclude name ((source (symbol (fresh.erase name) (path ++ [name])) v.here?
          (v.scope?.getD (Scope.ofName name)) text).run.run s)
      else (.error (circle path name), s) := by
  rw [symbol, run_get_bind, hv]
  simp only [hc]
  split
  · rw [run_get_bind, List.contains_eq_mem]
    by_cases hf : name ∈ s.failed
    · rw [if_pos (decide_eq_true hf), if_pos hf]
      rfl
    · rw [if_neg (by simpa using hf), if_neg hf]
      exact run_conclude _ name s
  · rfl

theorem deferred_follows {inner : String → Resolve Datum} {s : Memo} (hv : t.get? name = some v)
    (hc : v.content = .deferred text free)
    (hinner : ∀ q, t.Needs name q →
      Follows (Memo.Sound t) (inner q) (SymbolTable.orNoValue q (t.meaning q)))
    (hs : Memo.Sound t s) :
    let r := conclude name
      ((source inner v.here? (v.scope?.getD (Scope.ofName name)) text).run.run s)
    r.1.toOption = (SymbolTable.orNoValue name (t.meaning name)).toOption ∧ Memo.Sound t r.2 := by
  obtain ⟨hr, hI⟩ := deferred_source_follows hv hc hinner s hs
  rw [← SymbolTable.meaning_of_deferred hv hc] at hr
  generalize (source inner v.here? (v.scope?.getD (Scope.ofName name)) text).run.run s = r
    at hr hI ⊢
  obtain ⟨r, s'⟩ := r
  cases r with
  | error e =>
    have hnone : t.meaning name = none := hr.symm
    rw [hnone]
    refine ⟨rfl, hI.settles, fun q hq => ?_⟩
    rcases List.mem_cons.1 hq with he | hq
    · exact he ▸ hnone
    · exact hI.failed q hq
  | ok d =>
    have hsome : t.meaning name = some d := hr.symm
    rw [hsome]
    have hdef : v.isDeferred = true := by rw [Value.isDeferred, hc]; rfl
    exact ⟨rfl, hI.settles.set hv hdef (SymbolTable.meaning_eq_some_iff.1 hsome), hI.failed⟩

theorem symbol_of_known {s : Memo} (hv : s.table.get? name = some v)
    (hd : v.content.datum? = some d) : (symbol fresh path name).run.run s = (.ok d, s) := by
  have hnot : s.table.isDeferred name = false := by
    rw [SymbolTable.isDeferred, hv, Option.any_some, Value.isDeferred]
    cases hc : v.content with
    | deferred =>
      rw [hc] at hd
      cases hd
    | _ => rfl
  rw [symbol_of_not_deferred hnot, SymbolTable.reading_eq_ok.2 ⟨v, hv, hd⟩]

/-- A symbol follows its meaning, if every symbol under evaluation needs it. -/
theorem symbol_follows (t : SymbolTable) (fresh path : List String) (name : String)
    (h : ∀ p ∈ t.names, p ∉ fresh → t.Needs p name) :
    Follows (Memo.Sound t) (symbol fresh path name)
      (SymbolTable.orNoValue name (t.meaning name)) := by
  intro s hs
  cases hd : s.table.isDeferred name with
  | false =>
    rw [symbol_of_not_deferred hd, SymbolTable.orNoValue_toOption]
    exact ⟨SymbolTable.reading_toOption hs.settles hd, hs⟩
  | true =>
    obtain ⟨v, text, free, hv, hc⟩ := SymbolTable.isDeferred_iff.1 hd
    have hv' := hs.settles.get?_of_deferred hv (Value.isDeferred_iff.2 ⟨text, free, hc⟩)
    rw [symbol_of_deferred hv hc]
    split
    · split
      · rename_i hfailed
        rw [hs.failed name hfailed]
        exact ⟨rfl, hs⟩
      · refine deferred_follows hv' hc (fun q hq => ?_) hs
        apply symbol_follows t
        intro p hp hpf
        by_cases he : p = name
        · exact he ▸ hq
        · exact (h p hp (mt (List.mem_erase_of_ne he).2 hpf)).trans hq
    · rename_i hf
      rw [(h name (SymbolTable.mem_names_of_get? hv') hf).meaning_eq_none]
      exact ⟨rfl, hs⟩
termination_by fresh.length
decreasing_by exact length_erase_lt ‹_›

theorem value_follows (t : SymbolTable) (v : Value) (scope : String) (here : Int64) :
    Follows (Memo.Sound t) (value v scope here) (t.operandIn t.meaning v scope here) := by
  unfold value SymbolTable.operandIn
  cases v.content with
  | number n => exact .pure _ _
  | text s => exact .pure _ _
  | unresolved => exact .throw _ _ _
  | deferred text free =>
    intro s hs
    rw [run_get_bind]
    apply source_follows (ρ := fun i : Empty => i.elim) (fun i => i.elim) _ (fun i => i.elim) s hs
    intro q _
    apply symbol_follows
    intro p hp hn
    exact (hn (hs.settles.names ▸ hp)).elim

/-- A symbol is evaluated by reading it, or by evaluating its expression and storing the result. -/
theorem symbol_ok {s s' : Memo} (h : (symbol fresh path name).run.run s = (.ok d, s')) :
    (∃ v, s.table.get? name = some v ∧ v.content.datum? = some d ∧ s' = s) ∨
      ∃ (v : Value) (text : String) (s₁ : Memo), name ∈ fresh ∧
        (source (symbol (fresh.erase name) (path ++ [name])) v.here?
          (v.scope?.getD (Scope.ofName name)) text).run.run s = (.ok d, s₁) ∧
        s' = { s₁ with table := s₁.table.set name (.ofDatum d) } := by
  cases hd : s.table.isDeferred name with
  | false =>
    rw [symbol_of_not_deferred hd] at h
    obtain ⟨hread, rfl⟩ := Prod.mk.inj h
    obtain ⟨v, hv, hd⟩ := SymbolTable.reading_eq_ok.1 hread
    exact .inl ⟨v, hv, hd, rfl⟩
  | true =>
    obtain ⟨v, text, free, hv, hc⟩ := SymbolTable.isDeferred_iff.1 hd
    rw [symbol_of_deferred hv hc] at h
    split at h
    · rename_i hf
      split at h
      · cases h
      · generalize hr : (source _ _ _ _).run.run s = r at h
        obtain ⟨r, s₁⟩ := r
        cases r with
        | error e => cases h
        | ok d =>
          cases h
          exact .inr ⟨v, text, s₁, hf, hr, rfl⟩
    · cases h

theorem symbol_stores {s s' : Memo} (h : (symbol fresh path name).run.run s = (.ok d, s')) :
    ∃ v, s'.table.get? name = some v ∧ v.content.datum? = some d := by
  rcases symbol_ok h with ⟨v, hv, hd, rfl⟩ | ⟨v, text, s₁, -, -, rfl⟩
  · exact ⟨v, hv, hd⟩
  · exact ⟨_, s₁.table.get?_set_self name _, Value.datum?_ofDatum d⟩

def Unfailing (x : Resolve α) : Prop := ∀ s a s', x.run.run s = (.ok a, s') → s'.failed = s.failed

def unfailing : Expr.Simulation Resolve (Except EvalError) where
  rel x _ := Unfailing x
  pure _ := fun _ _ _ h => by cases h; rfl
  throw _ := fun _ _ _ h => by cases h
  bind hx hf := by
    intro s b s' h
    rw [run_bind] at h
    split at h
    · rename_i a s₁ h₁
      exact (hf a s₁ b s' h).trans (hx s a s₁ h₁)
    · cases h

theorem source_unfailing {inner : String → Resolve Datum} (h : ∀ q, Unfailing (inner q)) :
    Unfailing (source inner here? scope text) := by
  unfold source
  cases Expr.parse text with
  | error e => exact unfailing.throw (α := Datum) (.malformed e)
  | ok e =>
    apply unfailing.evalM (σ := Expr.noNames) e
    intro x _
    split
    · cases here? with
      | none => exact unfailing.throw (α := Datum) .noCurrentAddress
      | some n => exact unfailing.pure (Datum.number n)
    · intro s d s' hr
      rw [run_get_bind] at hr
      split at hr
      · exact h _ s d s' hr
      · cases hr

theorem symbol_unfailing (fresh path : List String) (name : String) :
    Unfailing (symbol fresh path name) := by
  intro s d s' h
  rcases symbol_ok h with ⟨v, hv, hd, rfl⟩ | ⟨v, text, s₁, hf, hr, rfl⟩
  · rfl
  · exact source_unfailing (symbol_unfailing (fresh.erase name) (path ++ [name])) s d s₁ hr
termination_by fresh.length
decreasing_by exact length_erase_lt ‹_›

end Resolve

end Z80Asm
