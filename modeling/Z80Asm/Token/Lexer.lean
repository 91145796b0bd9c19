import Z80Asm.Number
import Z80Asm.Token

/-! Reading an expression as tokens. Every lexeme is as long as its class allows. -/

namespace Z80Asm

/-- A character that may begin a name. -/
def isIdentStart (c : Char) : Bool := Text.isLetter c || c = '_' || c = '.' || c = '@'

/-- A character that may continue a name. -/
def isIdentPart (c : Char) : Bool := isIdentStart c || Text.isDigit c || c = '?'

inductive LexError where
  | badNumber (error : NumberError) (pos : Nat)
  | unknownEscape (c : Char) (pos : Nat)
  | unterminatedString (pos : Nat)
  | unexpectedChar (c : Char) (pos : Nat)
deriving DecidableEq, Repr

def LexError.message : LexError → String
  | .badNumber e pos => "at " ++ toString pos ++ ": " ++ e.message
  | .unknownEscape c pos => "unknown escape sequence \\" ++ c.toString ++ " at " ++ toString pos
  | .unterminatedString pos => "unterminated string literal at " ++ toString pos
  | .unexpectedChar c pos => "unexpected character " ++ Text.quoteChar c ++ " at " ++ toString pos

namespace Token

/-- What a lexeme is, and how many characters it takes after its first. -/
structure Lexeme where
  kind : Kind
  text : String
  extra : Nat
deriving DecidableEq, Repr

def isHexDigit (c : Char) : Bool :=
  Text.isDigit c || 'a' ≤ c && c ≤ 'f' || 'A' ≤ c && c ≤ 'F'

/-- The character that a backslash followed by `c` stands for in a string. -/
def unescape? (c : Char) : Option Char :=
  match c with
  | 'n' => some '\n'
  | 'r' => some '\r'
  | 't' => some '\t'
  | '0' => some '\x00'
  | '\\' | '\'' | '"' => some c
  | _ => none

/-- Reads the body of a string up to its closing quote: the characters it denotes, and how many
characters were read, the quote included. The body starts at offset `pos`, its opening quote at
`start`. -/
def readBody (quote : Char) (start : Nat) : Nat → List Char → Except LexError (List Char × Nat)
  | _, [] => .error (.unterminatedString start)
  | pos, '\\' :: [] => .error (.unknownEscape '\x00' (pos + 1))
  | pos, '\\' :: e :: cs =>
    match unescape? e with
    | none => .error (.unknownEscape e (pos + 1))
    | some c => (readBody quote start (pos + 2) cs).map fun (body, n) => (c :: body, n + 2)
  | pos, c :: cs =>
    if c = quote then .ok ([], 1)
    else (readBody quote start (pos + 1) cs).map fun (body, n) => (c :: body, n + 1)

/-- The operator or delimiter at the start of `c :: cs`; a single `=` also means equality. -/
def readOperator? (c : Char) (cs : List Char) : Option Lexeme :=
  match c, cs with
  | '(', _ => some ⟨.lparen, "(", 0⟩
  | ')', _ => some ⟨.rparen, ")", 0⟩
  | ',', _ => some ⟨.comma, ",", 0⟩
  | '?', _ => some ⟨.question, "?", 0⟩
  | ':', _ => some ⟨.colon, ":", 0⟩
  | '+', _ => some ⟨.plus, "+", 0⟩
  | '-', _ => some ⟨.minus, "-", 0⟩
  | '*', _ => some ⟨.star, "*", 0⟩
  | '/', _ => some ⟨.slash, "/", 0⟩
  | '%', _ => some ⟨.percent, "%", 0⟩
  | '^', _ => some ⟨.caret, "^", 0⟩
  | '~', _ => some ⟨.tilde, "~", 0⟩
  | '&', '&' :: _ => some ⟨.ampAmp, "&&", 1⟩
  | '&', _ => some ⟨.amp, "&", 0⟩
  | '|', '|' :: _ => some ⟨.pipePipe, "||", 1⟩
  | '|', _ => some ⟨.pipe, "|", 0⟩
  | '!', '=' :: _ => some ⟨.bangEq, "!=", 1⟩
  | '!', _ => some ⟨.bang, "!", 0⟩
  | '=', '=' :: _ => some ⟨.eqEq, "==", 1⟩
  | '=', _ => some ⟨.eqEq, "==", 0⟩
  | '<', '=' :: _ => some ⟨.lessEq, "<=", 1⟩
  | '<', '<' :: _ => some ⟨.shl, "<<", 1⟩
  | '<', '>' :: _ => some ⟨.bangEq, "<>", 1⟩
  | '<', _ => some ⟨.less, "<", 0⟩
  | '>', '=' :: _ => some ⟨.greaterEq, ">=", 1⟩
  | '>', '>' :: _ => some ⟨.shr, ">>", 1⟩
  | '>', _ => some ⟨.greater, ">", 0⟩
  | _, _ => none

/-- The lexeme at the start of `c :: cs`, which stands at offset `pos`. A dollar sign begins a
hexadecimal number if a digit follows, and else is a name. -/
def readLexeme (pos : Nat) (c : Char) (cs : List Char) : Except LexError Lexeme :=
  if isIdentStart c then
    let tail := cs.takeWhile isIdentPart
    .ok ⟨.identifier, String.ofList (c :: tail), tail.length⟩
  else if Text.isDigit c then
    let tail := cs.takeWhile fun d => Text.isLetter d || Text.isDigit d
    let text := String.ofList (c :: tail)
    match Number.parse text with
    | .error e => .error (.badNumber e pos)
    | .ok _ => .ok ⟨.number, text, tail.length⟩
  else if c = '$' then
    match cs.takeWhile isHexDigit with
    | [] => .ok ⟨.identifier, "$", 0⟩
    | digits => .ok ⟨.number, "0x" ++ String.ofList digits, digits.length⟩
  else if c = '"' || c = '\'' then
    (readBody c pos (pos + 1) cs).map fun (body, n) => ⟨.string, String.ofList body, n⟩
  else match readOperator? c cs with
    | some l => .ok l
    | none => .error (.unexpectedChar c pos)

/-- The tokens read before the first fault, and that fault. Without one they end in `eof`. -/
structure Lexed where
  tokens : List Token
  error? : Option LexError
deriving DecidableEq, Repr

def Lexed.cons (t : Token) (l : Lexed) : Lexed := { l with tokens := t :: l.tokens }

def lexFrom (pos : Nat) : List Char → Lexed
  | [] => ⟨[⟨.eof, "", pos⟩], none⟩
  | c :: cs =>
    if Text.isSpace c then lexFrom (pos + 1) cs
    else match readLexeme pos c cs with
      | .error e => ⟨[], some e⟩
      | .ok l => (lexFrom (pos + l.extra + 1) (cs.drop l.extra)).cons ⟨l.kind, l.text, pos⟩
termination_by cs => cs.length
decreasing_by
  · simp
  · simp only [List.length_drop, List.length_cons]; omega

def lex (src : String) : Lexed := lexFrom 0 src.toList

end Token
end Z80Asm
