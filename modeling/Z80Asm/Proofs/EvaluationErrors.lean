import Z80Asm.Proofs.Meaning

/-! With which errors evaluation can fail. The operators and functions have errors of their own; any
other error comes from a name in the expression. -/

namespace Z80Asm
set_option autoImplicit true

/-- The error of an operator or function that does not take its operands. -/
def EvalError.ofOperation : EvalError → Bool
  | notNumber .. | divisionByZero | moduloByZero | negativeShift _ | unsupportedUnary _
  | unsupportedBinary _ | unknownFunction _ | missingArgument _ | notText .. | repeatOfNumber
  | repeatCountNotNumber | negativeRepeat _ | repeatTooLong | mixedKinds .. => true
  | undefinedSymbol _ | circular _ | noValue _ | unresolved _ | deferred _ | noCurrentAddress
  | unresolvedValue | malformed _ => false

namespace Expr

def Raises (P : EvalError → Prop) (x : Except EvalError α) : Prop := ∀ e, x = .error e → P e

namespace Raises

variable {P : EvalError → Prop}

theorem ok (a : α) : Raises P (.ok a) := fun _ h => nomatch h

theorem error (h : P e) : Raises P (.error e : Except EvalError α) := by
  intro e' he
  cases he
  exact h

theorem bind {x : Except EvalError α} {f : α → Except EvalError β} (hx : Raises P x)
    (hf : ∀ a, Raises P (f a)) : Raises P (x >>= f) := by
  cases x with
  | error e => exact error (hx e rfl)
  | ok a => exact hf a

theorem map {x : Except EvalError α} (hx : Raises P x) (f : α → β) : Raises P (x.map f) := by
  cases x with
  | error e => exact error (hx e rfl)
  | ok a => exact .ok (f a)

theorem lift {x : Except EvalError α} (hx : Raises P x) :
    Raises P (Expr.lift x : Except EvalError α) := by
  cases x with
  | error e => exact hx
  | ok a => exact hx

section
variable (hP : ∀ e, e.ofOperation = true → P e)
include hP

theorem asNumber (site? : Option NumberSite) (d : Datum) : Raises P (d.asNumber site?) := by
  unfold Datum.asNumber
  split
  · exact ok _
  · split
    · exact ok _
    · exact error (hP _ rfl)

theorem truth (d : Datum) : Raises P d.truth := (asNumber hP none d).map _

theorem applyUnary (op : Token.Kind) (d : Datum) : Raises P (applyUnary op d) := by
  apply bind (asNumber hP _ d)
  intro n
  split
  all_goals first | exact ok _ | exact error (hP _ rfl)

theorem applyArithmetic (op : Token.Kind) (l r : Int64) : Raises P (applyArithmetic op l r) := by
  unfold Expr.applyArithmetic
  repeat' split
  all_goals first | exact ok _ | exact error (hP _ rfl)

theorem applyNumeric (op : Token.Kind) (l r : Datum) : Raises P (applyNumeric op l r) := by
  apply bind (asNumber hP _ l)
  intro a
  apply bind (asNumber hP _ r)
  intro b
  split
  · exact ok _
  · exact (applyArithmetic hP op a b).map _

theorem applyBinary (op : Token.Kind) (l r : Datum) : Raises P (applyBinary op l r) := by
  unfold Expr.applyBinary
  split
  · split
    · exact ok _
    · exact applyNumeric hP op _ _
  · exact applyNumeric hP op l r

theorem concat (index : Nat) (ds : List Datum) : Raises P (concat index ds) := by
  induction ds generalizing index with
  | nil => exact ok _
  | cons d ds ih =>
    cases d with
    | number n => exact error (hP _ rfl)
    | text s => exact (ih (index + 1)).map _

theorem applyRepeat (ds : List Datum) : Raises P (applyRepeat ds) := by
  unfold Expr.applyRepeat
  repeat' split
  all_goals first | exact ok _ | exact error (hP _ rfl)

theorem applySwap (ds : List Datum) : Raises P (applySwap ds) := by
  unfold Expr.applySwap
  split
  · exact error (hP _ rfl)
  · exact (asNumber hP _ _).map _

theorem extreme (fn : String) (want : Ordering) (best : Datum) (index : Nat) (ds : List Datum) :
    Raises P (extreme fn want best index ds) := by
  induction ds generalizing best index with
  | nil => exact ok _
  | cons d ds ih =>
    unfold Expr.extreme
    split
    · exact error (hP _ rfl)
    · exact ih _ _

theorem applyExtreme (fn : String) (want : Ordering) (ds : List Datum) :
    Raises P (applyExtreme fn want ds) := by
  cases ds with
  | nil => exact error (hP _ rfl)
  | cons d ds => exact extreme hP fn want d 2 ds

theorem applyCall (fn : String) (args : List Datum) : Raises P (applyCall fn args) := by
  unfold Expr.applyCall
  split
  · exact (concat hP 1 args).map _
  · exact applyRepeat hP args
  · exact applySwap hP args
  · exact applyExtreme hP _ _ args
  · exact applyExtreme hP _ _ args
  · exact error (hP _ rfl)

end

mutual

theorem evalM {ρ : String → Except EvalError Datum} (hP : ∀ e, e.ofOperation = true → P e) :
    (e : Expr) → (∀ x ∈ e.names, Raises P (ρ x)) → Raises P (e.evalM ρ)
  | .num n, _ => by
    simp only [Expr.evalM]
    exact ok _
  | .str s, _ => by
    simp only [Expr.evalM]
    exact ok _
  | .ident x, h => by
    simp only [Expr.evalM]
    exact h x (by simp only [names, List.mem_singleton])
  | .call fn args, h => by
    simp only [Expr.evalM]
    exact bind (evalAll hP args h) fun ds => (applyCall hP fn ds).lift
  | .unary op e, h => by
    simp only [Expr.evalM]
    exact bind (evalM hP e h) fun d => (applyUnary hP op d).lift
  | .binary op l r, h => by
    simp only [names, List.mem_append] at h
    simp only [Expr.evalM]
    exact bind (evalM hP l fun x hx => h x (.inl hx)) fun a =>
      bind (evalM hP r fun x hx => h x (.inr hx)) fun b => (applyBinary hP op a b).lift
  | .logical op l r, h => by
    simp only [names, List.mem_append] at h
    simp only [Expr.evalM]
    refine bind (evalM hP l fun x hx => h x (.inl hx)) fun a => ?_
    refine bind (truth hP a).lift fun left => ?_
    split
    · exact ok _
    · split
      · exact ok _
      · exact bind (evalM hP r fun x hx => h x (.inr hx)) fun b =>
          bind (truth hP b).lift fun right => ok _
  | .ternary c t e, h => by
    simp only [names, List.mem_append] at h
    simp only [Expr.evalM]
    refine bind (evalM hP c fun x hx => h x (.inl hx)) fun a => ?_
    refine bind (truth hP a).lift fun holds => ?_
    split
    · exact evalM hP t fun x hx => h x (.inr (.inl hx))
    · exact evalM hP e fun x hx => h x (.inr (.inr hx))

theorem evalAll {ρ : String → Except EvalError Datum} (hP : ∀ e, e.ofOperation = true → P e) :
    (es : List Expr) → (∀ x ∈ namesAll es, Raises P (ρ x)) → Raises P (evalAll ρ es)
  | [], _ => by
    simp only [Expr.evalAll]
    exact ok _
  | e :: es, h => by
    simp only [namesAll, List.mem_append] at h
    simp only [Expr.evalAll]
    exact bind (evalM hP e fun x hx => h x (.inl hx)) fun d =>
      bind (evalAll hP es fun x hx => h x (.inr hx)) fun ds => ok _

end

end Raises

/-- An error is one of an operation in the expression, or of a name in it. -/
theorem error_of_eval {ρ : String → Except EvalError Datum} {e : Expr}
    (h : e.eval ρ = .error err) : err.ofOperation = true ∨ ∃ x ∈ e.names, ρ x = .error err :=
  Raises.evalM (P := fun err => err.ofOperation = true ∨ ∃ x ∈ e.names, ρ x = .error err)
    (fun _ => .inl) e (fun x hx _ he => .inr ⟨x, hx, he⟩) err h

end Expr
end Z80Asm
