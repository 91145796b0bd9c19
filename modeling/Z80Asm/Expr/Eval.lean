import Z80Asm.Datum
import Z80Asm.Expr.Error

/-! Evaluation of expressions. Names are looked up in any monad that can fail, so that a lookup may
itself evaluate; the operators and functions are plain functions on data. -/

namespace Z80Asm

/-- The number that a datum counts as; texts of other lengths than one and two are an error at
`site?`. -/
def Datum.asNumber (site? : Option NumberSite) (d : Datum) : Except EvalError Int64 :=
  match d with
  | .number n => .ok n
  | .text s =>
    match (Datum.text s).number? with
    | some n => .ok n
    | none => .error (.notNumber site? s)

/-- Only the number zero counts as false. -/
def Datum.truth (d : Datum) : Except EvalError Bool := (d.asNumber none).map (· != 0)

namespace Expr

/-- The outcome of the comparison `op` on two operands in a given order. -/
def comparison? (op : Token.Kind) (o : Ordering) : Option Bool :=
  match op with
  | .eqEq => some (o == .eq)
  | .bangEq => some (o != .eq)
  | .less => some (o == .lt)
  | .greater => some (o == .gt)
  | .lessEq => some (o != .gt)
  | .greaterEq => some (o != .lt)
  | _ => none

def applyUnary (op : Token.Kind) (d : Datum) : Except EvalError Datum := do
  let n ← d.asNumber (some (.unary op))
  match op with
  | .minus => .ok (.number (-n))
  | .plus => .ok (.number n)
  | .tilde => .ok (.number (~~~n))
  | .bang => .ok (.ofBool (n = 0))
  | _ => .error (.unsupportedUnary op)

def applyArithmetic (op : Token.Kind) (l r : Int64) : Except EvalError Int64 :=
  match op with
  | .plus => .ok (l + r)
  | .minus => .ok (l - r)
  | .star => .ok (l * r)
  | .slash => if r = 0 then .error .divisionByZero else .ok (l / r)
  | .percent => if r = 0 then .error .moduloByZero else .ok (l % r)
  | .amp => .ok (l &&& r)
  | .pipe => .ok (l ||| r)
  | .caret => .ok (l ^^^ r)
  | .shl => if r < 0 then .error (.negativeShift r) else .ok (Word.shiftLeft l r)
  | .shr => if r < 0 then .error (.negativeShift r) else .ok (Word.shiftRight l r)
  | _ => .error (.unsupportedBinary op)

def applyNumeric (op : Token.Kind) (l r : Datum) : Except EvalError Datum := do
  let a ← l.asNumber (some (.binary op))
  let b ← r.asNumber (some (.binary op))
  match comparison? op (compare a b) with
  | some holds => .ok (.ofBool holds)
  | none => (applyArithmetic op a b).map .number

/-- Two texts compare by their characters whatever their length; all else is done on numbers. -/
def applyBinary (op : Token.Kind) (l r : Datum) : Except EvalError Datum :=
  match l, r with
  | .text a, .text b =>
    match comparison? op (compare a b) with
    | some holds => .ok (.ofBool holds)
    | none => applyNumeric op l r
  | _, _ => applyNumeric op l r

/-- Joins texts; `index` is the position of the first one. -/
def concat (index : Nat) : List Datum → Except EvalError String
  | [] => .ok ""
  | .text s :: ds => (concat (index + 1) ds).map (s ++ ·)
  | .number _ :: _ => .error (.notText "cat" index)

/-- `s` written `count` times. -/
def repeated (s : String) (count : Nat) : String :=
  if s.isEmpty then "" else String.join (List.replicate count s)

def applyRepeat : List Datum → Except EvalError Datum
  | [] => .error (.missingArgument "rpt")
  | .number _ :: _ => .error .repeatOfNumber
  | .text _ :: [] => .error (.missingArgument "rpt")
  | .text _ :: .text _ :: _ => .error .repeatCountNotNumber
  | .text s :: .number n :: _ =>
    if n < 0 then .error (.negativeRepeat n)
    else if s.utf8ByteSize > 0 && n.toInt.toNat > maxTextLength / s.utf8ByteSize then
      .error .repeatTooLong
    else .ok (.text (repeated s n.toInt.toNat))

/-- Swaps the two low bytes of a number and clears the rest. -/
def swapBytes (n : Int64) : Int64 := (n &&& 0xFF) <<< 8 ||| (n >>> 8) &&& 0xFF

def applySwap : List Datum → Except EvalError Datum
  | [] => .error (.missingArgument "swp")
  | d :: _ => (d.asNumber (some (.function "swp"))).map fun n => .number (swapBytes n)

/-- The order of two data of one kind. -/
def order? : Datum → Datum → Option Ordering
  | .number a, .number b => some (compare a b)
  | .text a, .text b => some (compare a b)
  | _, _ => none

/-- The most extreme of `best` and the data after it, where `want` is the order of a better datum
to the best so far; `index` is the position of the next datum. -/
def extreme (fn : String) (want : Ordering) (best : Datum) (index : Nat) :
    List Datum → Except EvalError Datum
  | [] => .ok best
  | d :: ds =>
    match order? d best with
    | none => .error (.mixedKinds fn index)
    | some o => extreme fn want (if o = want then d else best) (index + 1) ds

def applyExtreme (fn : String) (want : Ordering) : List Datum → Except EvalError Datum
  | [] => .error (.missingArgument fn)
  | d :: ds => extreme fn want d 2 ds

def applyCall (fn : String) (args : List Datum) : Except EvalError Datum :=
  match fn with
  | "cat" => (concat 1 args).map .text
  | "rpt" => applyRepeat args
  | "swp" => applySwap args
  | "min" => applyExtreme fn .lt args
  | "max" => applyExtreme fn .gt args
  | _ => .error (.unknownFunction fn)

section

variable {m : Type → Type} [Monad m] [MonadExceptOf EvalError m]

/-- Runs a plain computation where names are looked up. -/
def lift {α : Type} : Except EvalError α → m α
  | .ok a => pure a
  | .error e => throw e

mutual

/-- Evaluates from left to right. The right operand of a logical operator and the branches of a
ternary are evaluated only if they decide the result. -/
def evalM (lookup : String → m Datum) : Expr → m Datum
  | num n => pure (.number n)
  | str s => pure (.text s)
  | ident x => lookup x
  | call fn args => do
    let ds ← evalAll lookup args
    lift (applyCall fn ds)
  | unary op e => do
    let d ← evalM lookup e
    lift (applyUnary op d)
  | binary op l r => do
    let a ← evalM lookup l
    let b ← evalM lookup r
    lift (applyBinary op a b)
  | logical op l r => do
    let a ← evalM lookup l
    let left ← lift a.truth
    if op = .pipePipe ∧ left = true then pure (.ofBool true)
    else if op = .ampAmp ∧ left = false then pure (.ofBool false)
    else do
      let b ← evalM lookup r
      let right ← lift b.truth
      pure (.ofBool right)
  | ternary c t e => do
    let a ← evalM lookup c
    let holds ← lift a.truth
    if holds then evalM lookup t else evalM lookup e

def evalAll (lookup : String → m Datum) : List Expr → m (List Datum)
  | [] => pure []
  | e :: es => do
    let d ← evalM lookup e
    let ds ← evalAll lookup es
    pure (d :: ds)

end

end

/-- Evaluation where names have fixed values or are errors. -/
def eval (lookup : String → Except EvalError Datum) (e : Expr) : Except EvalError Datum :=
  evalM lookup e

/-- The lookup of a place where no name is known. -/
def noNames (name : String) : Except EvalError Datum := .error (.undefinedSymbol name)

end Expr
end Z80Asm
