import Z80Asm.Expr.Basic
import Z80Asm.Token.Lexer

/-! Reading tokens as an expression. A ternary joins chains of binary operators, which bind tighter
level by level; a unary operator binds tighter than all of them. -/

namespace Z80Asm

namespace Expr

/-- What can be wrong at a token. -/
inductive Fault where
  | expected (want got : Token.Kind)
  | unexpectedEnd
  | unexpected (kind : Token.Kind)
  | trailing (kind : Token.Kind)
  | badNumber (error : NumberError)
  | unknownFunction (name : String)
  | wrongArity (fn : String) (count : Nat)
deriving DecidableEq, Repr

def Fault.message : Fault → String
  | expected want got => "expected " ++ want.name ++ ", got " ++ got.name
  | unexpectedEnd => "unexpected end of expression"
  | unexpected kind => "unexpected " ++ kind.name
  | trailing kind => "unexpected " ++ kind.name ++ " after expression"
  | badNumber e => e.message
  | unknownFunction name => "unknown function " ++ Text.quote name
  | wrongArity fn count => fn ++ ": wrong number of arguments (" ++ toString count ++ ")"

/-- Why a text is no expression. -/
inductive ParseError where
  | lexical (error : LexError) (src : String)
  | grammatical (fault : Fault) (pos : Nat) (src : String)
deriving DecidableEq, Repr

def ParseError.message : ParseError → String
  | lexical e src => e.message ++ " in " ++ Text.quote src
  | grammatical f pos src =>
    f.message ++ " at " ++ toString pos ++ " in " ++ Text.quote src

/-- How many arguments a function takes: at least the first number, and at most the second if
there is one. -/
structure Arity where
  least : Nat
  most? : Option Nat
deriving DecidableEq, Repr

def Arity.admits (a : Arity) (count : Nat) : Bool :=
  a.least ≤ count && a.most?.all (count ≤ ·)

/-- The functions that a call may name. -/
def arity? (fn : String) : Option Arity :=
  match fn with
  | "cat" | "min" | "max" => some ⟨1, none⟩
  | "rpt" => some ⟨2, some 2⟩
  | "swp" => some ⟨1, some 1⟩
  | _ => none

/-- Binary operators of one precedence; they associate to the left. -/
structure Level where
  ops : List Token.Kind
  isLogical : Bool
deriving DecidableEq, Repr

def Level.join (l : Level) (op : Token.Kind) (left right : Expr) : Expr :=
  if l.isLogical then .logical op left right else .binary op left right

/-- The levels from the loosest to the tightest. -/
def levels : List Level :=
  [⟨[.pipePipe], true⟩, ⟨[.ampAmp], true⟩, ⟨[.pipe], false⟩, ⟨[.caret], false⟩, ⟨[.amp], false⟩,
   ⟨[.eqEq, .bangEq], false⟩, ⟨[.less, .greater, .lessEq, .greaterEq], false⟩,
   ⟨[.shl, .shr], false⟩, ⟨[.plus, .minus], false⟩, ⟨[.star, .slash, .percent], false⟩]

def isUnary (k : Token.Kind) : Bool := k = .minus || k = .plus || k = .tilde || k = .bang

/-- A fault and the offset of the token at fault. -/
abbrev Located := Fault × Nat

/-- A result and the tokens after it, of which there are fewer than in `ts`. -/
abbrev Parsed (α : Type) (ts : List Token) : Type :=
  Except Located (α × { rest : List Token // rest.length < ts.length })

/-- The tokens after one of kind `want`, which must come first. -/
def expect (want : Token.Kind) (ts : List Token) : Parsed Unit ts :=
  match ts with
  | [] => .error (.expected want .eof, 0)
  | t :: rest =>
    if t.kind = want then .ok ((), ⟨rest, by simp⟩) else .error (.expected want t.kind, t.pos)

mutual

def parseTernary (ts : List Token) : Parsed Expr ts :=
  match parseLevel levels ts with
  | .error e => .error e
  | .ok (cond, ⟨r, hr⟩) =>
    match expect .question r with
    | .error _ => .ok (cond, ⟨r, hr⟩)
    | .ok (_, ⟨r₁, h₁⟩) =>
      match parseTernary r₁ with
      | .error e => .error e
      | .ok (yes, ⟨r₂, h₂⟩) =>
        match expect .colon r₂ with
        | .error e => .error e
        | .ok (_, ⟨r₃, h₃⟩) =>
          match parseTernary r₃ with
          | .error e => .error e
          | .ok (no, ⟨r₄, h₄⟩) => .ok (.ternary cond yes no, ⟨r₄, by omega⟩)
termination_by (ts.length, levels.length + 3)

/-- An expression whose operators outside parentheses belong to `ls`. -/
def parseLevel (ls : List Level) (ts : List Token) : Parsed Expr ts :=
  match ls with
  | [] => parseUnary ts
  | l :: tighter =>
    match parseLevel tighter ts with
    | .error e => .error e
    | .ok (left, ⟨r, hr⟩) =>
      match parseChain l tighter left r with
      | .error e => .error e
      | .ok (e, ⟨r₁, h₁⟩) => .ok (e, ⟨r₁, by omega⟩)
termination_by (ts.length, ls.length + 2)

/-- Extends `left` by the operators of level `l` that follow. -/
def parseChain (l : Level) (tighter : List Level) (left : Expr) (ts : List Token) :
    Except Located (Expr × { rest : List Token // rest.length ≤ ts.length }) :=
  match ts with
  | [] => .ok (left, ⟨[], by simp⟩)
  | t :: r =>
    if t.kind ∈ l.ops then
      match parseLevel tighter r with
      | .error e => .error e
      | .ok (right, ⟨r₁, h₁⟩) =>
        match parseChain l tighter (l.join t.kind left right) r₁ with
        | .error e => .error e
        | .ok (e, ⟨r₂, h₂⟩) => .ok (e, ⟨r₂, by simp only [List.length_cons]; omega⟩)
    else .ok (left, ⟨t :: r, Nat.le_refl _⟩)
termination_by (ts.length, 0)

def parseUnary (ts : List Token) : Parsed Expr ts :=
  match ts with
  | [] => parsePrimary []
  | t :: r =>
    if isUnary t.kind then
      match parseUnary r with
      | .error e => .error e
      | .ok (e, ⟨r₁, h₁⟩) => .ok (.unary t.kind e, ⟨r₁, by simp only [List.length_cons]; omega⟩)
    else parsePrimary (t :: r)
termination_by (ts.length, 1)

def parsePrimary (ts : List Token) : Parsed Expr ts :=
  match ts with
  | [] => .error (.unexpectedEnd, 0)
  | t :: r =>
    match t.kind with
    | .number =>
      match Number.parse t.lexeme with
      | .error e => .error (.badNumber e, t.pos)
      | .ok n => .ok (.num n, ⟨r, by simp⟩)
    | .string => .ok (.str t.lexeme, ⟨r, by simp⟩)
    | .identifier =>
      match expect .lparen r with
      | .error _ => .ok (.ident t.lexeme, ⟨r, by simp⟩)
      | .ok (_, ⟨r₁, h₁⟩) =>
        let fn := Text.lower t.lexeme
        match arity? fn with
        | none => .error (.unknownFunction t.lexeme, t.pos)
        | some arity =>
          match parseArguments r₁ with
          | .error e => .error e
          | .ok (args, ⟨r₂, h₂⟩) =>
            if arity.admits args.length then
              .ok (.call fn args, ⟨r₂, by simp only [List.length_cons]; omega⟩)
            else .error (.wrongArity fn args.length, t.pos)
    | .lparen =>
      match parseTernary r with
      | .error e => .error e
      | .ok (e, ⟨r₁, h₁⟩) =>
        match expect .rparen r₁ with
        | .error e => .error e
        | .ok (_, ⟨r₂, h₂⟩) => .ok (e, ⟨r₂, by simp only [List.length_cons]; omega⟩)
    | .eof => .error (.unexpectedEnd, t.pos)
    | k => .error (.unexpected k, t.pos)
termination_by (ts.length, 0)

/-- Arguments up to and with the closing parenthesis; the opening one has been read. -/
def parseArguments (ts : List Token) : Parsed (List Expr) ts :=
  match expect .rparen ts with
  | .ok (_, r) => .ok ([], r)
  | .error _ => parseSome ts
termination_by (ts.length, levels.length + 5)

/-- One or more arguments and the closing parenthesis. -/
def parseSome (ts : List Token) : Parsed (List Expr) ts :=
  match parseTernary ts with
  | .error e => .error e
  | .ok (e, ⟨r, hr⟩) =>
    match expect .comma r with
    | .ok (_, ⟨r₁, h₁⟩) =>
      match parseSome r₁ with
      | .error e => .error e
      | .ok (es, ⟨r₂, h₂⟩) => .ok (e :: es, ⟨r₂, by omega⟩)
    | .error _ =>
      match expect .rparen r with
      | .error e => .error e
      | .ok (_, ⟨r₁, h₁⟩) => .ok ([e], ⟨r₁, by omega⟩)
termination_by (ts.length, levels.length + 4)

end

/-- Reads all the tokens of the text `src` as one expression. -/
def parseTokens (src : String) (ts : List Token) : Except ParseError Expr :=
  match parseTernary ts with
  | .error (f, pos) => .error (.grammatical f pos src)
  | .ok (e, ⟨rest, _⟩) =>
    match rest with
    | [] => .ok e
    | t :: _ =>
      if t.kind = .eof then .ok e else .error (.grammatical (.trailing t.kind) t.pos src)

/-- Reads a whole text as one expression. -/
def parse (src : String) : Except ParseError Expr :=
  let lexed := Token.lex src
  match lexed.error? with
  | some e => .error (.lexical e src)
  | none => parseTokens src lexed.tokens

end Expr
end Z80Asm
