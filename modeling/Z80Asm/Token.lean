import Z80Asm.Text.Quoted

/-! Tokens of the expression language. -/

namespace Z80Asm

inductive Token.Kind where
  | eof | identifier | number | string
  | lparen | rparen | comma | question | colon
  | plus | minus | star | slash | percent | amp | pipe | caret | tilde | bang
  | shl | shr | ampAmp | pipePipe
  | eqEq | bangEq | less | greater | lessEq | greaterEq
deriving DecidableEq, Repr, Inhabited

namespace Token.Kind

/-- Every kind, in the order of the codes. -/
def all : List Kind :=
  [eof, identifier, number, string, lparen, rparen, comma, question, colon, plus, minus, star,
   slash, percent, amp, pipe, caret, tilde, bang, shl, shr, ampAmp, pipePipe, eqEq, bangEq, less,
   greater, lessEq, greaterEq]

def name : Kind → String
  | eof => "EOF"
  | identifier => "IDENTIFIER"
  | number => "NUMBER"
  | string => "STRING"
  | lparen => "("
  | rparen => ")"
  | comma => ","
  | question => "?"
  | colon => ":"
  | plus => "+"
  | minus => "-"
  | star => "*"
  | slash => "/"
  | percent => "%"
  | amp => "&"
  | pipe => "|"
  | caret => "^"
  | tilde => "~"
  | bang => "!"
  | shl => "<<"
  | shr => ">>"
  | ampAmp => "&&"
  | pipePipe => "||"
  | eqEq => "=="
  | bangEq => "!="
  | less => "<"
  | greater => ">"
  | lessEq => "<="
  | greaterEq => ">="

def ofName? (s : String) : Option Kind := all.find? (·.name = s)

/-- The name of the kind with a code, or a placeholder that shows the code. -/
def nameOfCode (code : Int) : String :=
  match (if code < 0 then none else all[code.toNat]?) with
  | some k => k.name
  | none => "TokenType(" ++ toString code ++ ")"

end Token.Kind

/-- A token and the offset, in characters, at which it starts. -/
structure Token where
  kind : Token.Kind
  lexeme : String
  pos : Nat
deriving DecidableEq, Repr, Inhabited

def Token.render (t : Token) : String :=
  t.kind.name ++ "(" ++ Text.quote t.lexeme ++ ")@" ++ toString t.pos

end Z80Asm
