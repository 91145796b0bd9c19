import Z80Asm.Expr.Eval

/-! What symbols and operands hold: a number or text, or an expression to be evaluated later. -/

namespace Z80Asm

inductive Content where
  | unresolved
  | number (n : Int64)
  | text (s : String)
  /-- The text of an expression and the names in it. -/
  | deferred (source : String) (names : List String)
deriving DecidableEq, Repr, Inhabited

/-- A content and the circumstances of its evaluation: `scope?` is where its names are looked up, if
that is not where it stands, and `here?` the address that `$` means in it. -/
structure Value where
  content : Content
  scope? : Option String := none
  here? : Option Int64 := none
deriving DecidableEq, Repr, Inhabited

namespace Content

def ofDatum : Datum → Content
  | .number n => number n
  | .text s => text s

def datum? : Content → Option Datum
  | number n => some (.number n)
  | text s => some (.text s)
  | _ => none

def isDeferred : Content → Bool
  | deferred .. => true
  | _ => false

/-- The text of a deferred expression; other contents have none. -/
def source : Content → String
  | deferred source _ => source
  | _ => ""

def kindName : Content → String
  | unresolved => "unresolved"
  | number _ => "number"
  | text _ => "string"
  | deferred .. => "deferred"

/-- The name of the kind with a code, or a placeholder that shows the code. -/
def kindNameOfCode (code : Int) : String :=
  if code = 0 then unresolved.kindName
  else if code = 1 then (number 0).kindName
  else if code = 2 then (text "").kindName
  else if code = 3 then (deferred "" []).kindName
  else "ValueKind(" ++ toString code ++ ")"

def render : Content → String
  | unresolved => "?"
  | number n => Word.decimal n
  | text s => Text.quote s
  | deferred source _ => "\x7b" ++ source ++ "\x7d"

end Content

namespace Value

def unresolved : Value := ⟨.unresolved, none, none⟩

def number (n : Int64) : Value := ⟨.number n, none, none⟩

def text (s : String) : Value := ⟨.text s, none, none⟩

def ofDatum (d : Datum) : Value := ⟨.ofDatum d, none, none⟩

def deferred (source : String) (names : List String) : Value := ⟨.deferred source names, none, none⟩

/-- The value of a text that is an expression, to be evaluated later. -/
def ofExpr (source : String) : Except Expr.ParseError Value :=
  (Expr.parse source).map fun e => deferred source e.freeVars

def isResolved (v : Value) : Bool := v.content.datum?.isSome

def isDeferred (v : Value) : Bool := v.content.isDeferred

/-- The expression mentions `name`. -/
def uses (v : Value) (name : String) : Bool :=
  match v.content with
  | .deferred _ names => names.contains name
  | _ => false

def source (v : Value) : String := v.content.source

def render (v : Value) : String := v.content.render

/-- A deferred value looks its names up in `scope`, unless it already has a scope of its own. -/
def withScope (v : Value) (scope : String) : Value :=
  if v.isDeferred && v.scope?.isNone then { v with scope? := some scope } else v

end Value
end Z80Asm
