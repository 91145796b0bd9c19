import Z80Asm.Token
import Z80Asm.Word

/-! Expression trees. -/

namespace Z80Asm

/-- An expression. Operators are named by their tokens and functions by their names; the parser
puts only those there that evaluation knows. -/
inductive Expr where
  | num (value : Int64)
  | str (value : String)
  | ident (name : String)
  | call (fn : String) (args : List Expr)
  | unary (op : Token.Kind) (operand : Expr)
  | binary (op : Token.Kind) (left right : Expr)
  | logical (op : Token.Kind) (left right : Expr)
  | ternary (cond yes no : Expr)
deriving Repr, Inhabited

namespace Expr

mutual

/-- The expression as text, fully parenthesised. -/
def render : Expr → String
  | num n => Word.decimal n
  | str s => Text.quote s
  | ident x => x
  | call fn args => fn ++ "(" ++ ", ".intercalate (renderAll args) ++ ")"
  | unary op e => "(" ++ op.name ++ e.render ++ ")"
  | binary op l r => "(" ++ l.render ++ " " ++ op.name ++ " " ++ r.render ++ ")"
  | logical op l r => "(" ++ l.render ++ " " ++ op.name ++ " " ++ r.render ++ ")"
  | ternary c t e => "(" ++ c.render ++ " ? " ++ t.render ++ " : " ++ e.render ++ ")"

def renderAll : List Expr → List String
  | [] => []
  | e :: es => e.render :: renderAll es

end

mutual

/-- The names in an expression from left to right, with repetitions. -/
def names : Expr → List String
  | num _ | str _ => []
  | ident x => [x]
  | call _ args => namesAll args
  | unary _ e => e.names
  | binary _ l r | logical _ l r => l.names ++ r.names
  | ternary c t e => c.names ++ (t.names ++ e.names)

def namesAll : List Expr → List String
  | [] => []
  | e :: es => e.names ++ namesAll es

end

/-- The distinct names in an expression, in order of first occurrence. -/
def freeVars (e : Expr) : List String := e.names.eraseDups

end Expr
end Z80Asm
