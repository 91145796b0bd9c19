import Z80Asm.Proofs.Symbols
import Z80Asm.Resolution

/-! The meaning of a symbol table: which symbols have a value, and which. A symbol has a value if a
finite derivation gives it one, so symbols that depend on themselves have none. -/

namespace Z80Asm
set_option autoImplicit true

theorem Except.bind_eq_ok {x : Except ε α} {f : α → Except ε β} :
    (x >>= f) = .ok b ↔ ∃ a, x = .ok a ∧ f a = .ok b := by
  cases x with
  | error => simp [Bind.bind, Except.bind]
  | ok => simp [Bind.bind, Except.bind]

theorem Except.eq_ok_of_toOption {x : Except ε α} (h : x.toOption = some a) : x = .ok a := by
  cases x with
  | error => cases h
  | ok => cases h; rfl

namespace Expr

variable {m m' : Type → Type} [Monad m] [MonadExceptOf EvalError m]
  [Monad m'] [MonadExceptOf EvalError m']

/-- A relation between computations in two monads that sequencing preserves. -/
structure Simulation (m m' : Type → Type) [Monad m] [MonadExceptOf EvalError m]
    [Monad m'] [MonadExceptOf EvalError m'] where
  rel : {α : Type} → m α → m' α → Prop
  pure : ∀ {α : Type} (a : α), rel (Pure.pure a) (Pure.pure a)
  throw : ∀ {α : Type} (e : EvalError), rel (throw e : m α) (throw e)
  bind : ∀ {α β : Type} {x : m α} {y : m' α} {f : α → m β} {g : α → m' β},
    rel x y → (∀ a, rel (f a) (g a)) → rel (x >>= f) (y >>= g)

theorem Simulation.lift (S : Simulation m m') (x : Except EvalError α) :
    S.rel (Expr.lift x) (Expr.lift x) := by
  cases x with
  | error e => exact S.throw e
  | ok a => exact S.pure a

mutual

/-- Evaluation respects every simulation that relates the lookups of the names in it. -/
theorem Simulation.evalM (S : Simulation m m') {ρ : String → m Datum} {σ : String → m' Datum} :
    (e : Expr) → (∀ x ∈ e.names, S.rel (ρ x) (σ x)) → S.rel (e.evalM ρ) (e.evalM σ)
  | .num n, _ => by
    simp only [Expr.evalM]
    exact S.pure _
  | .str s, _ => by
    simp only [Expr.evalM]
    exact S.pure _
  | .ident x, h => by
    simp only [Expr.evalM]
    exact h x (by simp only [names, List.mem_singleton])
  | .call fn args, h => by
    simp only [Expr.evalM]
    exact S.bind (S.evalAll args h) fun ds => S.lift _
  | .unary op e, h => by
    simp only [Expr.evalM]
    exact S.bind (S.evalM e h) fun d => S.lift _
  | .binary op l r, h => by
    simp only [names, List.mem_append] at h
    simp only [Expr.evalM]
    exact S.bind (S.evalM l fun x hx => h x (.inl hx)) fun a =>
      S.bind (S.evalM r fun x hx => h x (.inr hx)) fun b => S.lift _
  | .logical op l r, h => by
    simp only [names, List.mem_append] at h
    simp only [Expr.evalM]
    refine S.bind (S.evalM l fun x hx => h x (.inl hx)) fun a => S.bind (S.lift _) fun left => ?_
    split
    · exact S.pure _
    · split
      · exact S.pure _
      · exact S.bind (S.evalM r fun x hx => h x (.inr hx)) fun b =>
          S.bind (S.lift _) fun right => S.pure _
  | .ternary c t e, h => by
    simp only [names, List.mem_append] at h
    simp only [Expr.evalM]
    refine S.bind (S.evalM c fun x hx => h x (.inl hx)) fun a => S.bind (S.lift _) fun holds => ?_
    split
    · exact S.evalM t fun x hx => h x (.inr (.inl hx))
    · exact S.evalM e fun x hx => h x (.inr (.inr hx))

theorem Simulation.evalAll (S : Simulation m m') {ρ : String → m Datum} {σ : String → m' Datum} :
    (es : List Expr) → (∀ x ∈ namesAll es, S.rel (ρ x) (σ x)) →
      S.rel (Expr.evalAll ρ es) (Expr.evalAll σ es)
  | [], _ => by
    simp only [Expr.evalAll]
    exact S.pure _
  | e :: es, h => by
    simp only [namesAll, List.mem_append] at h
    simp only [Expr.evalAll]
    exact S.bind (S.evalM e fun x hx => h x (.inl hx)) fun d =>
      S.bind (S.evalAll es fun x hx => h x (.inr hx)) fun ds => S.pure _

end

def Simulation.success : Simulation (Except EvalError) (Except EvalError) where
  rel x y := ∀ a, x = .ok a → y = .ok a
  pure _ _ h := h
  throw _ _ h := nomatch h
  bind hx hf b h := by
    obtain ⟨a, ha, hb⟩ := Except.bind_eq_ok.1 h
    exact Except.bind_eq_ok.2 ⟨a, hx a ha, hf a b hb⟩

def Simulation.same : Simulation (Except EvalError) (Except EvalError) where
  rel x y := x = y
  pure _ := rfl
  throw _ := rfl
  bind hx hf := by rw [hx, funext hf]

theorem eval_congr {ρ σ : String → Except EvalError Datum} (e : Expr)
    (h : ∀ x ∈ e.names, ρ x = σ x) : e.eval ρ = e.eval σ :=
  Simulation.same.evalM e h

def Below (ρ σ : String → Except EvalError Datum) : Prop := ∀ x d, ρ x = .ok d → σ x = .ok d

theorem Below.eval {ρ σ : String → Except EvalError Datum} (h : Below ρ σ) (e : Expr)
    (he : e.eval ρ = .ok d) : e.eval σ = .ok d :=
  Simulation.success.evalM e (fun x _ => h x) d he

end Expr

namespace SymbolTable

def orNoValue (name : String) : Option Datum → Except EvalError Datum
  | some d => .ok d
  | none => .error (.noValue name)

theorem orNoValue_eq_ok : orNoValue name value? = .ok d ↔ value? = some d := by
  cases value? with
  | none => simp [orNoValue]
  | some => simp [orNoValue]

theorem orNoValue_toOption (name : String) (value? : Option Datum) :
    (orNoValue name value?).toOption = value? := by
  cases value? with
  | none => rfl
  | some => rfl

/-- The values of the names in an expression that stands in `scope`, where `here?` is the current
address and `value` gives the values of qualified names. -/
def lookupIn (t : SymbolTable) (value : String → Option Datum) (here? : Option Int64)
    (scope name : String) : Except EvalError Datum :=
  if name = "$" then
    match here? with
    | some n => .ok (.number n)
    | none => .error .noCurrentAddress
  else
    match t.resolve? scope name with
    | some qualified => orNoValue qualified (value qualified)
    | none => .error (.undefinedSymbol name)

def evalIn (t : SymbolTable) (value : String → Option Datum) (here? : Option Int64)
    (scope text : String) : Except EvalError Datum :=
  match Expr.parse text with
  | .error e => .error (.malformed e)
  | .ok e => e.eval (t.lookupIn value here? scope)

theorem evalIn_ident {t : SymbolTable} {value : String → Option Datum}
    {here? : Option Int64} {scope text : String} (hx : Expr.parse text = .ok (.ident x))
    (hne : x ≠ "$") (hr : t.resolve? scope x = some q) :
    t.evalIn value here? scope text = orNoValue q (value q) := by
  simp only [evalIn, hx, Expr.eval, Expr.evalM, lookupIn, if_neg hne, hr]

def operandIn (t : SymbolTable) (value : String → Option Datum) (v : Value) (scope : String)
    (here : Int64) : Except EvalError Datum :=
  match v.content with
  | .number n => .ok (.number n)
  | .text s => .ok (.text s)
  | .unresolved => .error .unresolvedValue
  | .deferred text _ => t.evalIn value (some here) scope text

def known (t : SymbolTable) (name : String) : Option Datum :=
  (t.get? name).bind fun v => v.content.datum?

/-- `Denotes t name d`: a finite derivation gives the symbol `name` the value `d`. A deferred symbol
has the value of its expression, where each name that has a value has one by a derivation. -/
inductive Denotes (t : SymbolTable) : String → Datum → Prop where
  | known : t.get? name = some v → v.content.datum? = some d → Denotes t name d
  | deferred (value : String → Option Datum) : t.get? name = some v →
      v.content = .deferred text free → (∀ q w, value q = some w → Denotes t q w) →
      t.evalIn value v.here? (v.scope?.getD (Scope.ofName name)) text = .ok d → Denotes t name d

/-- The value of a symbol when `value` gives those of the symbols it depends on. -/
def valueFrom (t : SymbolTable) (value : String → Option Datum) (name : String) : Option Datum :=
  match t.get? name with
  | none => none
  | some v =>
    match v.content with
    | .deferred text _ =>
      (t.evalIn value v.here? (v.scope?.getD (Scope.ofName name)) text).toOption
    | content => content.datum?

/-- The value of a symbol by a derivation of at most the given height. -/
def valueWithin (t : SymbolTable) : Nat → String → Option Datum
  | 0 => fun _ => none
  | n + 1 => t.valueFrom (t.valueWithin n)

/-- Two ways to give values to symbols, of which the second gives all that the first does. -/
def Extends (value value' : String → Option Datum) : Prop :=
  ∀ q d, value q = some d → value' q = some d

theorem Extends.refl (value : String → Option Datum) : Extends value value := fun _ _ h => h

theorem Extends.trans (h : Extends f g) (h' : Extends g k) : Extends f k :=
  fun q d hq => h' q d (h q d hq)

theorem lookupIn_below {t : SymbolTable} {value value' : String → Option Datum}
    (h : ∀ q ∈ t.names, ∀ d, value q = some d → value' q = some d) :
    Expr.Below (t.lookupIn value here? scope) (t.lookupIn value' here? scope) := by
  intro x d hx
  unfold lookupIn at hx ⊢
  split
  · rename_i hs
    rwa [if_pos hs] at hx
  · rename_i hs
    rw [if_neg hs] at hx
    cases hr : t.resolve? scope x with
    | none =>
      rw [hr] at hx
      cases hx
    | some q =>
      simp only [hr, orNoValue_eq_ok] at hx ⊢
      exact h q (mem_names_of_resolve? hr) d hx

theorem evalIn_mono {t : SymbolTable} {value value' : String → Option Datum}
    (h : ∀ q ∈ t.names, ∀ d, value q = some d → value' q = some d)
    (he : t.evalIn value here? scope text = .ok d) : t.evalIn value' here? scope text = .ok d := by
  unfold evalIn at he ⊢
  split
  · rename_i hp
    rw [hp] at he
    exact he
  · rename_i e hp
    rw [hp] at he
    exact (lookupIn_below h).eval e he

theorem valueFrom_mono {t : SymbolTable} {value value' : String → Option Datum}
    (h : ∀ q ∈ t.names, ∀ d, value q = some d → value' q = some d) :
    Extends (t.valueFrom value) (t.valueFrom value') := by
  intro name d hd
  unfold valueFrom at hd ⊢
  split
  · rename_i hv
    rw [hv] at hd
    exact hd
  · rename_i v hv
    simp only [hv] at hd
    split
    · rename_i text free hc
      simp only [hc] at hd
      rw [evalIn_mono h (Except.eq_ok_of_toOption hd)]
      rfl
    · rename_i hc
      split at hd
      · rename_i text free hc'
        exact (hc text free hc').elim
      · exact hd

theorem valueWithin_succ (t : SymbolTable) (n : Nat) :
    Extends (t.valueWithin n) (t.valueWithin (n + 1)) := by
  induction n with
  | zero =>
    intro q d h
    cases h
  | succ n ih => exact valueFrom_mono fun q _ => ih q

theorem valueWithin_le {t : SymbolTable} (h : n ≤ k) :
    Extends (t.valueWithin n) (t.valueWithin k) := by
  induction h with
  | refl => exact .refl _
  | step _ ih => exact ih.trans (t.valueWithin_succ _)

theorem Denotes.of_valueFrom {t : SymbolTable} (hvalue : ∀ q w, value q = some w → t.Denotes q w)
    (h : t.valueFrom value name = some d) : t.Denotes name d := by
  unfold valueFrom at h
  split at h
  · cases h
  · rename_i v hv
    split at h
    · rename_i text free hc
      exact .deferred value hv hc hvalue (Except.eq_ok_of_toOption h)
    · exact .known hv h

theorem Denotes.of_valueWithin {t : SymbolTable} (h : t.valueWithin n name = some d) :
    t.Denotes name d := by
  induction n generalizing name d with
  | zero => cases h
  | succ n ih => exact .of_valueFrom (fun q w => ih) h

theorem valueFrom_of_known {t : SymbolTable} (hv : t.get? name = some v)
    (hd : v.content.datum? = some d) : t.valueFrom value name = some d := by
  unfold valueFrom
  simp only [hv]
  split
  · rename_i hc
    rw [hc] at hd
    cases hd
  · exact hd

theorem valueFrom_of_deferred {t : SymbolTable} (hv : t.get? name = some v)
    (hc : v.content = .deferred text free) :
    t.valueFrom value name =
      (t.evalIn value v.here? (v.scope?.getD (Scope.ofName name)) text).toOption := by
  simp only [valueFrom, hv, hc]

/-- Finitely many derivations have a common bound on their height. -/
theorem exists_bound {t : SymbolTable} {value : String → Option Datum} {qs : List String}
    (h : ∀ q ∈ qs, ∀ d, value q = some d → ∃ n, t.valueWithin n q = some d) :
    ∃ n, ∀ q ∈ qs, ∀ d, value q = some d → t.valueWithin n q = some d := by
  induction qs with
  | nil => exact ⟨0, fun q hq => nomatch hq⟩
  | cons p qs ih =>
    obtain ⟨n, hn⟩ := ih fun q hq => h q (List.mem_cons_of_mem p hq)
    obtain ⟨k, hk⟩ : ∃ k, ∀ d, value p = some d → t.valueWithin k p = some d := by
      cases hp : value p with
      | none => exact ⟨0, fun d hd => nomatch hd⟩
      | some w =>
        obtain ⟨k, hk⟩ := h p List.mem_cons_self w hp
        exact ⟨k, fun d hd => Option.some.inj hd ▸ hk⟩
    refine ⟨max n k, fun q hq d hd => ?_⟩
    rcases List.mem_cons.1 hq with he | hq
    · subst he
      exact valueWithin_le (Nat.le_max_right n k) _ _ (hk d hd)
    · exact valueWithin_le (Nat.le_max_left n k) _ _ (hn q hq d hd)

theorem Denotes.valueWithin {t : SymbolTable} (h : t.Denotes name d) :
    ∃ n, t.valueWithin n name = some d := by
  induction h with
  | known hv hd => exact ⟨1, valueFrom_of_known hv hd⟩
  | deferred value hv hc hvalue he ih =>
    obtain ⟨n, hn⟩ := exists_bound fun q (_ : q ∈ t.names) w => ih q w
    refine ⟨n + 1, (valueFrom_of_deferred hv hc).trans ?_⟩
    rw [evalIn_mono hn he]
    rfl

theorem Denotes.unique {t : SymbolTable} (h : t.Denotes name d) (h' : t.Denotes name d') :
    d = d' := by
  obtain ⟨n, hn⟩ := h.valueWithin
  obtain ⟨k, hk⟩ := h'.valueWithin
  have hn' := valueWithin_le (Nat.le_max_left n k) _ _ hn
  have hk' := valueWithin_le (Nat.le_max_right n k) _ _ hk
  exact Option.some.inj (hn'.symm.trans hk')

open Classical in
/-- The value that a symbol denotes, if it denotes one. -/
noncomputable def meaning (t : SymbolTable) (name : String) : Option Datum :=
  if h : ∃ d, t.Denotes name d then some h.choose else none

theorem meaning_eq_some_iff {t : SymbolTable} : t.meaning name = some d ↔ t.Denotes name d := by
  unfold meaning
  split
  · rename_i h
    constructor
    · intro he
      exact Option.some.inj he ▸ h.choose_spec
    · intro hd
      exact congrArg some (h.choose_spec.unique hd)
  · rename_i h
    constructor
    · intro he
      cases he
    · intro hd
      exact (h ⟨d, hd⟩).elim

theorem valueWithin_meaning (t : SymbolTable) (n : Nat) : Extends (t.valueWithin n) t.meaning :=
  fun _ _ h => meaning_eq_some_iff.2 (.of_valueWithin h)

/-- The meaning of a table is a fixed point: no symbol gains a value from the others' values. -/
theorem valueFrom_meaning (t : SymbolTable) : t.valueFrom t.meaning = t.meaning := by
  funext name
  apply Option.ext
  intro d
  constructor
  · intro h
    exact meaning_eq_some_iff.2 (.of_valueFrom (fun q w => meaning_eq_some_iff.1) h)
  · intro h
    obtain ⟨n, hn⟩ := (meaning_eq_some_iff.1 h).valueWithin
    exact valueFrom_mono (fun q _ => t.valueWithin_meaning n q) _ _ (t.valueWithin_succ n _ _ hn)

theorem meaning_of_known {t : SymbolTable} (hv : t.get? name = some v)
    (hd : v.content.datum? = some d) : t.meaning name = some d :=
  meaning_eq_some_iff.2 (.known hv hd)

theorem meaning_of_deferred {t : SymbolTable} (hv : t.get? name = some v)
    (hc : v.content = .deferred text free) :
    t.meaning name =
      (t.evalIn t.meaning v.here? (v.scope?.getD (Scope.ofName name)) text).toOption := by
  rw [← valueFrom_of_deferred hv hc, t.valueFrom_meaning]

theorem meaning_of_unresolved {t : SymbolTable} (hv : t.get? name = some v)
    (hc : v.content = .unresolved) : t.meaning name = none := by
  rw [← t.valueFrom_meaning, valueFrom, hv]
  simp only [hc]
  rfl

theorem meaning_of_undeclared {t : SymbolTable} (hv : t.get? name = none) :
    t.meaning name = none := by
  rw [← t.valueFrom_meaning, valueFrom, hv]

end SymbolTable
end Z80Asm
