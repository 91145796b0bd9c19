import Z80Asm.Expr.Parser

/-! Why an expression has no value. -/

namespace Z80Asm

/-- Where a number was needed. -/
inductive NumberSite where
  | unary (op : Token.Kind)
  | binary (op : Token.Kind)
  | function (name : String)
deriving DecidableEq, Repr

def NumberSite.label : NumberSite → String
  | unary op => "unary " ++ op.name
  | binary op => "operator " ++ op.name
  | function name => name

inductive EvalError where
  | undefinedSymbol (name : String)
  | notNumber (site? : Option NumberSite) (text : String)
  | divisionByZero
  | moduloByZero
  | negativeShift (count : Int64)
  | unsupportedUnary (op : Token.Kind)
  | unsupportedBinary (op : Token.Kind)
  | unknownFunction (name : String)
  | missingArgument (fn : String)
  | notText (fn : String) (index : Nat)
  | repeatOfNumber
  | repeatCountNotNumber
  | negativeRepeat (count : Int64)
  | repeatTooLong
  | mixedKinds (fn : String) (index : Nat)
  /-- The names from the first occurrence of the repeated one to its second. -/
  | circular (names : List String)
  | noValue (name : String)
  | unresolved (name : String)
  | deferred (name : String)
  | noCurrentAddress
  | unresolvedValue
  | malformed (error : Expr.ParseError)
deriving DecidableEq, Repr

/-- No text is longer than the address space. -/
def maxTextLength : Nat := 0x10000

def EvalError.message : EvalError → String
  | undefinedSymbol name => "undefined symbol " ++ Text.quote name
  | notNumber site? text =>
    (site?.elim "" fun site => site.label ++ ": ") ++
      "string " ++ Text.quote text ++ " cannot be used as a number"
  | divisionByZero => "division by zero"
  | moduloByZero => "modulo by zero"
  | negativeShift count => "negative shift count " ++ Word.decimal count
  | unsupportedUnary op => "unsupported unary operator " ++ op.name
  | unsupportedBinary op => "unsupported operator " ++ op.name
  | unknownFunction name => "unknown function " ++ Text.quote name
  | missingArgument fn => fn ++ ": missing argument"
  | notText fn index => fn ++ ": argument " ++ toString index ++ " is not a string"
  | repeatOfNumber => "rpt: first argument is not a string"
  | repeatCountNotNumber => "rpt: count is not a number"
  | negativeRepeat count => "rpt: negative count " ++ Word.decimal count
  | repeatTooLong => "rpt: result longer than " ++ toString maxTextLength ++ " bytes"
  | mixedKinds fn index =>
    fn ++ ": argument " ++ toString index ++ " mixes strings and numbers"
  | circular names => "circular dependency: " ++ " -> ".intercalate names
  | noValue name => "symbol " ++ Text.quote name ++ " has no value"
  | unresolved name => "symbol " ++ Text.quote name ++ " is unresolved"
  | deferred name => "symbol " ++ Text.quote name ++ " is deferred"
  | noCurrentAddress => "current address $ is not available here"
  | unresolvedValue => "value is unresolved"
  | malformed e => e.message

end Z80Asm
