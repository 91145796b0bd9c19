import Z80Asm.Proofs.Naming
import Z80Asm.Proofs.Printing

/-! Evaluation with traps. An operation that not all operands admit springs a trap where they do
not, and so does a branch for what no expression should contain. Expressions that have been parsed
spring none: they evaluate as without traps. -/

namespace Z80Asm
set_option autoImplicit true

namespace Expr

/-- What evaluation must never come to. -/
inductive Trap where
  | noLookup
  | noArgument (index : Nat)
  | zeroDivisor
  | negativeCount (count : Int64)
  | hugeText
  | unaryOperator (op : Token.Kind)
  | binaryOperator (op : Token.Kind)
  | function (name : String)
deriving DecidableEq, Repr

/-- A computation on data that may spring a trap, and else may fail as evaluation does. -/
abbrev Trapped : Type → Type := ExceptT EvalError (Except Trap)

namespace Trapped

def spring (t : Trap) : Trapped α := ExceptT.mk (.error t)

def plain (r : Except EvalError α) : Trapped α := ExceptT.mk (.ok r)

section operations

def argument (ds : List Datum) (i : Nat) : Trapped Datum :=
  match ds[i]? with
  | some d => pure d
  | none => spring (.noArgument i)

def quotient (l r : Int64) : Trapped Int64 :=
  if r = 0 then spring .zeroDivisor else pure (l / r)

def remainder (l r : Int64) : Trapped Int64 :=
  if r = 0 then spring .zeroDivisor else pure (l % r)

def natQuotient (l r : Nat) : Trapped Nat :=
  if r = 0 then spring .zeroDivisor else pure (l / r)

def shiftLeft (n count : Int64) : Trapped Int64 :=
  if count < 0 then spring (.negativeCount count) else pure (Word.shiftLeft n count)

def shiftRight (n count : Int64) : Trapped Int64 :=
  if count < 0 then spring (.negativeCount count) else pure (Word.shiftRight n count)

/-- The length of the result must fit a number. -/
def repeated (s : String) (count : Int64) : Trapped String :=
  if count < 0 then spring (.negativeCount count)
  else if Number.signedLimit ≤ s.utf8ByteSize * count.toInt.toNat then spring .hugeText
  else pure (Expr.repeated s count.toInt.toNat)

end operations

def unary (op : Token.Kind) (d : Datum) : Trapped Datum := do
  let n ← plain (d.asNumber (some (.unary op)))
  match op with
  | .minus => pure (.number (-n))
  | .plus => pure (.number n)
  | .tilde => pure (.number (~~~n))
  | .bang => pure (.ofBool (n = 0))
  | _ => spring (.unaryOperator op)

def arithmetic (op : Token.Kind) (l r : Int64) : Trapped Int64 :=
  match op with
  | .plus => pure (l + r)
  | .minus => pure (l - r)
  | .star => pure (l * r)
  | .slash => if r = 0 then throw .divisionByZero else quotient l r
  | .percent => if r = 0 then throw .moduloByZero else remainder l r
  | .amp => pure (l &&& r)
  | .pipe => pure (l ||| r)
  | .caret => pure (l ^^^ r)
  | .shl => if r < 0 then throw (.negativeShift r) else shiftLeft l r
  | .shr => if r < 0 then throw (.negativeShift r) else shiftRight l r
  | _ => spring (.binaryOperator op)

def onNumbers (op : Token.Kind) (l r : Int64) : Trapped Datum :=
  match comparison? op (compare l r) with
  | some holds => pure (.ofBool holds)
  | none => do
    let n ← arithmetic op l r
    pure (.number n)

def numeric (op : Token.Kind) (l r : Datum) : Trapped Datum := do
  let a ← plain (l.asNumber (some (.binary op)))
  let b ← plain (r.asNumber (some (.binary op)))
  onNumbers op a b

def binary (op : Token.Kind) (l r : Datum) : Trapped Datum :=
  match l, r with
  | .text a, .text b =>
    match comparison? op (compare a b) with
    | some holds => pure (.ofBool holds)
    | none => numeric op l r
  | _, _ => numeric op l r

/-- The limit is divided only by a length that is not zero. -/
def tooLong (s : String) (count : Int64) : Trapped Bool :=
  if s.utf8ByteSize > 0 then do
    let most ← natQuotient maxTextLength s.utf8ByteSize
    pure (count.toInt.toNat > most)
  else pure false

def repetition (ds : List Datum) : Trapped Datum := do
  match ← argument ds 0 with
  | .number _ => throw .repeatOfNumber
  | .text s =>
    match ← argument ds 1 with
    | .text _ => throw .repeatCountNotNumber
    | .number n =>
      if n < 0 then throw (.negativeRepeat n)
      else if ← tooLong s n then throw .repeatTooLong
      else do
        let t ← repeated s n
        pure (.text t)

def swap (ds : List Datum) : Trapped Datum := do
  let d ← argument ds 0
  let n ← plain (d.asNumber (some (.function "swp")))
  pure (.number (swapBytes n))

def mostExtreme (fn : String) (want : Ordering) (ds : List Datum) : Trapped Datum := do
  let best ← argument ds 0
  plain (extreme fn want best 2 ds.tail)

def call (fn : String) (ds : List Datum) : Trapped Datum :=
  match fn with
  | "cat" => plain ((concat 1 ds).map .text)
  | "rpt" => repetition ds
  | "swp" => swap ds
  | "min" => mostExtreme fn .lt ds
  | "max" => mostExtreme fn .gt ds
  | _ => spring (.function fn)

end Trapped

section
variable {m : Type → Type} [Monad m] [MonadExceptOf EvalError m]

def Trapped.enter (x : Trapped α) : ExceptT Trap m α :=
  match x.run with
  | .error t => throw t
  | .ok r => ExceptT.lift (lift r)

def ask (lookup? : Option (String → m Datum)) (x : String) : ExceptT Trap m Datum :=
  match lookup? with
  | none => throw .noLookup
  | some lookup => ExceptT.lift (lookup x)

mutual

/-- Evaluation with traps, where there may be no lookup at all. -/
def evalTrapped (lookup? : Option (String → m Datum)) : Expr → ExceptT Trap m Datum
  | num n => pure (.number n)
  | str s => pure (.text s)
  | ident x =>
    if lookup?.isNone then ExceptT.lift (throw (.undefinedSymbol x)) else ask lookup? x
  | call fn args => do
    let ds ← evalAllTrapped lookup? args
    (Trapped.call fn ds).enter
  | unary op e => do
    let d ← evalTrapped lookup? e
    (Trapped.unary op d).enter
  | binary op l r => do
    let a ← evalTrapped lookup? l
    let b ← evalTrapped lookup? r
    (Trapped.binary op a b).enter
  | logical op l r => do
    let a ← evalTrapped lookup? l
    let left ← ExceptT.lift (lift a.truth)
    if op = .pipePipe ∧ left = true then pure (.ofBool true)
    else if op = .ampAmp ∧ left = false then pure (.ofBool false)
    else do
      let b ← evalTrapped lookup? r
      let right ← ExceptT.lift (lift b.truth)
      pure (.ofBool right)
  | ternary c t e => do
    let a ← evalTrapped lookup? c
    let holds ← ExceptT.lift (lift a.truth)
    if holds then evalTrapped lookup? t else evalTrapped lookup? e

def evalAllTrapped (lookup? : Option (String → m Datum)) : List Expr → ExceptT Trap m (List Datum)
  | [] => pure []
  | e :: es => do
    let d ← evalTrapped lookup? e
    let ds ← evalAllTrapped lookup? es
    pure (d :: ds)

end

/-- Without a lookup no name is known. -/
def lookupOf (lookup? : Option (String → m Datum)) (x : String) : m Datum :=
  match lookup? with
  | none => throw (.undefinedSymbol x)
  | some lookup => lookup x

end

namespace Trapped

theorem plain_map (r : Except EvalError α) (f : α → β) :
    (do let a ← plain r; pure (f a)) = plain (r.map f) := by
  cases r <;> rfl

theorem quotient_eq (h : r ≠ 0) (l : Int64) : quotient l r = plain (.ok (l / r)) := if_neg h

theorem remainder_eq (h : r ≠ 0) (l : Int64) : remainder l r = plain (.ok (l % r)) := if_neg h

theorem natQuotient_eq (h : r ≠ 0) (l : Nat) : natQuotient l r = plain (.ok (l / r)) := if_neg h

theorem shiftLeft_eq (h : ¬ count < 0) (n : Int64) :
    shiftLeft n count = plain (.ok (Word.shiftLeft n count)) :=
  if_neg h

theorem shiftRight_eq (h : ¬ count < 0) (n : Int64) :
    shiftRight n count = plain (.ok (Word.shiftRight n count)) :=
  if_neg h

/-- A trap is not sprung behind a check that excludes it. -/
theorem guarded_eq {c : Prop} [Decidable c] {x : Trapped α} {r : Except EvalError α}
    (h : ¬ c → x = plain r) (e : EvalError) :
    (if c then throw e else x) = plain (if c then .error e else r) := by
  by_cases hc : c
  · rw [if_pos hc, if_pos hc]
    rfl
  · rw [if_neg hc, if_neg hc, h hc]

theorem unary_eq (h : op ∈ Grammar.Nonterminal.unary.operators) (d : Datum) :
    unary op d = plain (applyUnary op d) := by
  unfold unary applyUnary
  cases d.asNumber (some (.unary op)) with
  | error e => rfl
  | ok n =>
    cases op with
    | minus | plus | tilde | bang => rfl
    | _ => exact absurd h (by decide)

def binaryOperators : List Token.Kind :=
  [.pipe, .caret, .amp, .eqEq, .bangEq, .less, .greater, .lessEq, .greaterEq, .shl, .shr, .plus,
    .minus, .star, .slash, .percent]

/-- Every binary expression that the grammar builds has one of these operators. -/
theorem join_cases {X Y : Grammar.Nonterminal} (hX : X.operand? = some Y) (hop : op ∈ X.operators)
    (l r : Expr) :
    X.join op l r = .logical op l r ∨
      op ∈ binaryOperators ∧ X.join op l r = .binary op l r := by
  have hall : ∀ k ∈ X.operators, (X = .logicalOr ∨ X = .logicalAnd) ∨ k ∈ binaryOperators := by
    cases X with
    | unary => cases hX
    | _ => decide
  rcases hall op hop with (rfl | rfl) | hmem
  · exact .inl rfl
  · exact .inl rfl
  · cases X with
    | logicalOr | logicalAnd => exact .inl rfl
    | _ => exact .inr ⟨hmem, rfl⟩

theorem arithmetic_eq (h : op ∈ binaryOperators) (hc : comparison? op o = none) (l r : Int64) :
    arithmetic op l r = plain (applyArithmetic op l r) := by
  cases op with
  | plus | minus | star | amp | pipe | caret => rfl
  | slash => exact guarded_eq (fun hr => quotient_eq hr l) _
  | percent => exact guarded_eq (fun hr => remainder_eq hr l) _
  | shl => exact guarded_eq (fun hr => shiftLeft_eq hr l) _
  | shr => exact guarded_eq (fun hr => shiftRight_eq hr l) _
  | eqEq | bangEq | less | greater | lessEq | greaterEq => cases hc
  | _ => exact absurd h (by decide)

theorem onNumbers_eq (h : op ∈ binaryOperators) (l r : Int64) :
    onNumbers op l r = plain
      (match comparison? op (compare l r) with
      | some holds => .ok (.ofBool holds)
      | none => (applyArithmetic op l r).map .number) := by
  unfold onNumbers
  cases hc : comparison? op (compare l r) with
  | some holds => rfl
  | none =>
    dsimp only
    rw [arithmetic_eq h hc]
    exact plain_map _ _

theorem numeric_eq (h : op ∈ binaryOperators) (a b : Datum) :
    numeric op a b = plain (applyNumeric op a b) := by
  unfold numeric applyNumeric
  cases a.asNumber (some (.binary op)) with
  | error e => rfl
  | ok l =>
    cases b.asNumber (some (.binary op)) with
    | error e => rfl
    | ok r => exact onNumbers_eq h l r

theorem binary_eq (h : op ∈ binaryOperators) (a b : Datum) :
    binary op a b = plain (applyBinary op a b) := by
  cases a with
  | number l => exact numeric_eq h _ b
  | text s =>
    cases b with
    | number r => exact numeric_eq h _ _
    | text t =>
      unfold binary applyBinary
      dsimp only
      cases comparison? op (compare s t) with
      | some holds => rfl
      | none => exact numeric_eq h _ _

/-- The check by division is the one by multiplication. -/
theorem not_tooLong_iff {size count : Nat} :
    (size > 0 && count > maxTextLength / size) = false ↔ size * count ≤ maxTextLength := by
  rw [Bool.and_eq_false_iff, decide_eq_false_iff_not, decide_eq_false_iff_not, Nat.not_lt,
    Nat.not_lt]
  rcases Nat.eq_zero_or_pos size with rfl | hpos
  · simp
  · rw [Nat.le_div_iff_mul_le hpos, Nat.mul_comm]
    constructor
    · rintro (hzero | h)
      · omega
      · exact h
    · exact .inr

theorem tooLong_eq (s : String) (n : Int64) :
    tooLong s n = plain (.ok (s.utf8ByteSize > 0 &&
      n.toInt.toNat > maxTextLength / s.utf8ByteSize)) := by
  unfold tooLong
  by_cases hs : s.utf8ByteSize > 0
  · rw [if_pos hs, natQuotient_eq (by omega), decide_eq_true hs, Bool.true_and]
    rfl
  · rw [if_neg hs, decide_eq_false hs, Bool.false_and]
    rfl

theorem repeated_eq (hn : ¬ n < 0) (h : s.utf8ByteSize * n.toInt.toNat ≤ maxTextLength) :
    repeated s n = plain (.ok (Expr.repeated s n.toInt.toNat)) := by
  have hfits : ¬ Number.signedLimit ≤ s.utf8ByteSize * n.toInt.toNat := by
    rw [Number.signedLimit]
    rw [maxTextLength] at h
    omega
  unfold repeated
  rw [if_neg hn, if_neg hfits]
  rfl

theorem repetition_eq (a b : Datum) : repetition [a, b] = plain (applyRepeat [a, b]) := by
  cases a with
  | number l => rfl
  | text s =>
    cases b with
    | text t => rfl
    | number n =>
      apply guarded_eq
      intro hn
      rw [tooLong_eq]
      apply guarded_eq
      intro hlong
      rw [repeated_eq hn (not_tooLong_iff.1 (Bool.eq_false_of_not_eq_true hlong))]
      rfl

theorem swap_eq (d : Datum) : swap [d] = plain (applySwap [d]) :=
  plain_map (d.asNumber (some (.function "swp"))) fun n => Datum.number (swapBytes n)

theorem call_eq (h : Grammar.Takes fn ds.length) : call fn ds = plain (applyCall fn ds) := by
  generalize hcount : ds.length = count at h
  cases h with
  | cat => rfl
  | rpt =>
    obtain ⟨a, b, rfl⟩ := List.length_eq_two.1 hcount
    exact repetition_eq a b
  | swp =>
    obtain ⟨d, rfl⟩ := List.length_eq_one_iff.1 hcount
    exact swap_eq d
  | min | max =>
    cases ds with
    | nil => cases hcount
    | cons best ds => rfl

example : (call "rpt" [.text "a"]).run = .error (.noArgument 1) := rfl

end Trapped

section
variable {m : Type → Type} [Monad m] [LawfulMonad m] [MonadExceptOf EvalError m]

omit [MonadExceptOf EvalError m] in
theorem lift_bind_eq {x : m α} {f : α → ExceptT Trap m β} {g : α → m β}
    (h : ∀ a, f a = ExceptT.lift (g a)) : ExceptT.lift x >>= f = ExceptT.lift (x >>= g) := by
  rw [ExceptT.lift_bind]
  exact bind_congr h

/-- The arguments of a call evaluate as without traps if each of them does, and what follows need
only do so for as many data. -/
theorem evalAllTrapped_bind {lookup? : Option (String → m Datum)} {args : List Expr}
    (h : ∀ e ∈ args, evalTrapped lookup? e = ExceptT.lift (evalM (lookupOf lookup?) e))
    {f : List Datum → ExceptT Trap m Datum} {g : List Datum → m Datum}
    (hf : ∀ ds, ds.length = args.length → f ds = ExceptT.lift (g ds)) :
    evalAllTrapped lookup? args >>= f = ExceptT.lift (evalAll (lookupOf lookup?) args >>= g) := by
  induction args generalizing f g with
  | nil =>
    rw [evalAllTrapped, evalAll, pure_bind, pure_bind]
    exact hf [] rfl
  | cons e es ih =>
    obtain ⟨he, hes⟩ := List.forall_mem_cons.1 h
    rw [evalAllTrapped, evalAll, he]
    simp only [bind_assoc, pure_bind]
    apply lift_bind_eq
    intro d
    apply ih hes
    intro ds hds
    exact hf (d :: ds) (congrArg (· + 1) hds)

theorem logical_eq {x : ExceptT Trap m Datum} {y : m Datum} (h : x = ExceptT.lift y)
    (op : Token.Kind) (left : Bool) :
    (if op = .pipePipe ∧ left = true then pure (.ofBool true)
      else if op = .ampAmp ∧ left = false then pure (.ofBool false)
      else do
        let b ← x
        let right ← ExceptT.lift (lift b.truth)
        pure (.ofBool right) : ExceptT Trap m Datum) =
      ExceptT.lift
        (if op = .pipePipe ∧ left = true then pure (.ofBool true)
        else if op = .ampAmp ∧ left = false then pure (.ofBool false)
        else do
          let b ← y
          let right ← lift b.truth
          pure (.ofBool right)) := by
  by_cases hor : op = .pipePipe ∧ left = true
  · rw [if_pos hor, if_pos hor]
    exact (ExceptT.lift_pure _).symm
  · rw [if_neg hor, if_neg hor]
    by_cases hand : op = .ampAmp ∧ left = false
    · rw [if_pos hand, if_pos hand]
      exact (ExceptT.lift_pure _).symm
    · rw [if_neg hand, if_neg hand, h]
      apply lift_bind_eq
      intro b
      apply lift_bind_eq
      intro right
      exact (ExceptT.lift_pure _).symm

theorem WellFormed.evalTrapped_eq {e : Expr} (h : e.WellFormed)
    (lookup? : Option (String → m Datum)) :
    evalTrapped lookup? e = ExceptT.lift (evalM (lookupOf lookup?) e) := by
  induction h with
  | num => exact (ExceptT.lift_pure _).symm
  | str => exact (ExceptT.lift_pure _).symm
  | ident hx => cases lookup? <;> rfl
  | call hargs _ ih =>
    rw [evalTrapped, evalM]
    apply evalAllTrapped_bind ih
    intro ds hds
    rw [Trapped.call_eq (hds ▸ hargs)]
    rfl
  | unary hop _ ih =>
    rw [evalTrapped, evalM, ih]
    apply lift_bind_eq
    intro d
    rw [Trapped.unary_eq hop]
    rfl
  | @joined X Y op l r hX hop _ _ ihl ihr =>
    rcases Trapped.join_cases hX hop l r with hjoin | ⟨hmem, hjoin⟩
    · rw [hjoin, evalTrapped, evalM, ihl]
      apply lift_bind_eq
      intro a
      apply lift_bind_eq
      intro left
      exact logical_eq ihr op left
    · rw [hjoin, evalTrapped, evalM, ihl, ihr]
      apply lift_bind_eq
      intro a
      apply lift_bind_eq
      intro b
      rw [Trapped.binary_eq hmem]
      rfl
  | ternary _ _ _ ihc iht ihe =>
    rw [evalTrapped, evalM, ihc, iht, ihe]
    apply lift_bind_eq
    intro a
    apply lift_bind_eq
    intro holds
    cases holds <;> rfl

end

theorem bytes_append (s t : String) : Text.bytes (s ++ t) = Text.bytes s ++ Text.bytes t := by
  unfold Text.bytes
  rw [String.toUTF8_eq_toByteArray, String.toByteArray_append, ByteArray.data_append,
    Array.toList_append]
  rfl

theorem bytes_join (count : Nat) (s : String) :
    Text.bytes (String.join (List.replicate count s)) =
      (List.replicate count (Text.bytes s)).flatten := by
  induction count with
  | zero => rfl
  | succ count ih =>
    rw [List.replicate_succ, String.join_cons, bytes_append, ih, List.replicate_succ,
      List.flatten_cons]

theorem bytes_repeated (s : String) (count : Nat) :
    Text.bytes (repeated s count) = (List.replicate count (Text.bytes s)).flatten := by
  rw [← bytes_join]
  unfold repeated
  split
  · rename_i hs
    rw [String.isEmpty_iff] at hs
    rw [bytes_join, hs]
    exact (List.flatten_replicate_nil).symm
  · rfl

theorem utf8ByteSize_repeated (s : String) (count : Nat) :
    (repeated s count).utf8ByteSize = count * s.utf8ByteSize := by
  rw [← Text.length_bytes, bytes_repeated, List.length_flatten, List.map_replicate,
    List.sum_replicate_nat, Text.length_bytes]

theorem applyRepeat_eq_ok {k : Int64} :
    applyRepeat [.text s, .number k] = .ok d ↔
      (0 ≤ k.toInt ∧ s.utf8ByteSize * k.toInt ≤ 0x10000) ∧
        d = .text (repeated s k.toInt.toNat) := by
  have hsign : k < 0 ↔ k.toInt < 0 := Int64.lt_iff_toInt_lt
  unfold applyRepeat
  dsimp only
  by_cases hneg : k < 0
  · rw [if_pos hneg]
    constructor
    · rintro ⟨⟩
    · rintro ⟨⟨h, -⟩, -⟩
      exact absurd (hsign.1 hneg) (Int.not_lt.2 h)
  · have hnonneg : 0 ≤ k.toInt := Int.not_lt.1 (mt hsign.2 hneg)
    have hbound : s.utf8ByteSize * k.toInt.toNat ≤ maxTextLength ↔
        s.utf8ByteSize * k.toInt ≤ 0x10000 := by
      rw [← Int.ofNat_le, Int.natCast_mul, Int.toNat_of_nonneg hnonneg]
      rfl
    rw [if_neg hneg, and_iff_right hnonneg, ← hbound, ← Trapped.not_tooLong_iff]
    cases (s.utf8ByteSize > 0 && k.toInt.toNat > maxTextLength / s.utf8ByteSize : Bool) with
    | true =>
      constructor
      · rintro ⟨⟩
      · rintro ⟨⟨⟩, -⟩
    | false =>
      constructor
      · rintro ⟨⟩
        exact ⟨rfl, rfl⟩
      · rintro ⟨-, rfl⟩
        rfl

theorem eval_call_two {ρ : String → Except EvalError Datum} (ha : a.eval ρ = .ok x)
    (hb : b.eval ρ = .ok y) (fn : String) : (call fn [a, b]).eval ρ = applyCall fn [x, y] := by
  unfold eval at ha hb ⊢
  rw [evalM, evalAll, evalAll, evalAll, ha, hb]
  change lift (applyCall fn [x, y]) = applyCall fn [x, y]
  cases applyCall fn [x, y] <;> rfl

/-- Evaluation of what has been parsed is evaluation with traps, whatever the lookup is and whether
there is one at all: no trap is sprung. A text is repeated exactly if it can be, and then as often
as asked. -/
theorem eval_springs_no_trap :
    (∀ src e, parse src = .ok e →
      ∀ (m : Type → Type) [Monad m] [LawfulMonad m] [MonadExceptOf EvalError m]
        (lookup? : Option (String → m Datum)),
        (evalTrapped lookup? e).run = Except.ok <$> evalM (lookupOf lookup?) e) ∧
    ∀ (ρ : String → Except EvalError Datum) (a b : Expr) (s : String) (k : Int64),
      a.eval ρ = .ok (.text s) → b.eval ρ = .ok (.number k) →
        ((∃ d, (call "rpt" [a, b]).eval ρ = .ok d) ↔
          0 ≤ k.toInt ∧ s.utf8ByteSize * k.toInt ≤ 0x10000) ∧
        ∀ d, (call "rpt" [a, b]).eval ρ = .ok d → ∃ t, d = .text t ∧
          Text.bytes t = (List.replicate k.toInt.toNat (Text.bytes s)).flatten ∧
          (t.utf8ByteSize : Int) = s.utf8ByteSize * k.toInt := by
  constructor
  · intro src e h m _ _ _ lookup?
    rw [(wellFormed_of_parse h).evalTrapped_eq lookup?]
    rfl
  · intro ρ a b s k ha hb
    have heval : (call "rpt" [a, b]).eval ρ = applyRepeat [.text s, .number k] :=
      eval_call_two ha hb "rpt"
    rw [heval]
    constructor
    · constructor
      · rintro ⟨d, hd⟩
        exact (applyRepeat_eq_ok.1 hd).1
      · intro h
        exact ⟨_, applyRepeat_eq_ok.2 ⟨h, rfl⟩⟩
    · intro d hd
      obtain ⟨⟨hnonneg, -⟩, rfl⟩ := applyRepeat_eq_ok.1 hd
      refine ⟨_, rfl, bytes_repeated s _, ?_⟩
      rw [utf8ByteSize_repeated, Int.natCast_mul, Int.toNat_of_nonneg hnonneg, Int.mul_comm]

theorem eval_springs_no_trap_repeat_and_zero :
    (∃ e, parse "rpt('ab',2)" = .ok e ∧
      (evalTrapped (none : Option (String → Except EvalError Datum)) e).run =
        .ok (.ok (.text "abab"))) ∧
    (∃ e, parse "1/0" = .ok e ∧
      (evalTrapped (some noNames) e).run = .error .divisionByZero) ∧
    ∃ d, (call "rpt" [.str "ab", .num 2]).eval noNames = .ok d := by
  have htwo : parse "rpt('ab',2)" = .ok (.call "rpt" [.str "ab", .num 2]) := by cbv
  have hzero : parse "1/0" = .ok (.binary .slash (.num 1) (.num 0)) := by cbv
  refine ⟨⟨_, htwo, ?_⟩, ⟨_, hzero, ?_⟩, ?_⟩
  · rw [eval_springs_no_trap.1 _ _ htwo]
    rfl
  · rw [eval_springs_no_trap.1 _ _ hzero]
    rfl
  · exact (eval_springs_no_trap.2 noNames (.str "ab") (.num 2) "ab" 2 rfl rfl).1.2 (by decide)

end Expr
end Z80Asm
