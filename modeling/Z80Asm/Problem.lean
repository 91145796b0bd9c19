import Z80Asm.Expr.Error
import Z80Asm.Location

/-! Everything an assembly can complain about. A problem is a cause; its wording is
`Problem.message` and its class `Problem.category`. -/

namespace Z80Asm

inductive Category where
  | syntactic
  | structural
  | resolution
  | encoding
  /-- A class that only other programs know. -/
  | other (code : Int)
deriving DecidableEq, Repr, Inhabited

def Category.ofCode (code : Int) : Category :=
  if code = 0 then syntactic
  else if code = 1 then structural
  else if code = 2 then resolution
  else if code = 3 then encoding
  else other code

def Category.name : Category → String
  | syntactic => "syntax"
  | structural => "structural"
  | resolution => "resolution"
  | encoding => "encoding"
  | other code => "Class(" ++ toString code ++ ")"

inductive Problem where
  -- a line that cannot be read
  | noMnemonic (text : String)
  | oneOperand (directive : String)
  | noOperands (directive : String)
  | someOperands (directive : String)
  | spaceOperands
  | macroName (name : String)
  | macroParameter (param name : String)
  | includeName
  | invalidExpression (text : String) (error : Expr.ParseError)
  | failingExpression (text : String) (error : EvalError)
  | notConstant (what text : String)
  | constantText (what text : String)
  | byteText (text : String)
  | byteRange (n : Int64)
  | wordText (text : String)
  | wordRange (n : Int64)
  | spaceRange (n : Int64)
  | operandShape (mnemonic : String) (operands : List String)
  | bitRange (n : Int64)
  | restartRange (n : Int64)
  | interruptMode (n : Int64)
  -- a file that cannot be read
  | fileNotFound (path : String)
  | includeNotFound (path tried : String)
  | includeCycle (path : String)
  -- macros
  | nestedMacro (name outer : String) (outerLoc : Location)
  | endWithoutMacro
  | duplicateMacro (name : String) (first : Location)
  | unclosedMacro (name : String)
  | undefinedMacro (name : String)
  | nestedTooDeep (name : String) (limit : Nat)
  -- scopes and declarations
  | unclosedCall
  | unclosedBlock
  | endCallWithoutCall
  | endBlockWithoutBlock
  | wrongDelimiter (opened : Location)
  | duplicateParameter (param name : String)
  | tooManyArguments (name : String) (params args : Nat)
  | duplicateSymbol (name : String) (first : Location)
  | equWithoutLabel
  -- values and addresses
  | unresolvable (directive : String) (error : EvalError)
  | alignRange (n : Int64)
  | addressRange (address : Int64)
  | cannotEvaluate (what : String) (error : EvalError)
  -- bytes
  | lateText (text : String) (bytes : Nat)
  | jumpRange (displacement : Int64)
  | rewind (out base : Int64)
  /-- A problem that is not the assembler's own. -/
  | foreign (category : Category) (text : String)
deriving DecidableEq, Repr

namespace Problem

def category : Problem → Category
  | nestedMacro .. | endWithoutMacro | duplicateMacro .. | unclosedMacro _ | undefinedMacro _
  | nestedTooDeep .. | unclosedCall | unclosedBlock | endCallWithoutCall | endBlockWithoutBlock
  | wrongDelimiter _ | duplicateParameter .. | tooManyArguments .. | duplicateSymbol ..
  | equWithoutLabel => .structural
  | unresolvable .. | alignRange _ | addressRange _ | cannotEvaluate .. => .resolution
  | lateText .. | jumpRange _ | rewind .. => .encoding
  | foreign category _ => category
  | _ => .syntactic

def message : Problem → String
  | noMnemonic text => "expected a mnemonic or directive, found " ++ Text.quote text
  | oneOperand directive => directive ++ " expects exactly one operand"
  | noOperands directive => directive ++ " takes no operands"
  | someOperands directive => directive ++ " expects at least one operand"
  | spaceOperands => "DEFS expects a size and an optional fill value"
  | macroName name => "invalid macro name " ++ Text.quote name
  | macroParameter param name => "invalid parameter " ++ Text.quote param ++ " in macro " ++ name
  | includeName => "INCLUDE expects a file name in quotes"
  | invalidExpression text e => "invalid expression " ++ Text.quote text ++ ": " ++ e.message
  | failingExpression text e => "cannot evaluate " ++ Text.quote text ++ ": " ++ e.message
  | notConstant what text => what ++ " must be a constant, got " ++ Text.quote text
  | constantText what text => what ++ ": " ++ (EvalError.notNumber none text).message
  | byteText text => "string " ++ Text.quote text ++ " does not fit in a byte"
  | byteRange n => "value " ++ Word.decimal n ++ " out of 8-bit range"
  | wordText text => (EvalError.notNumber none text).message
  | wordRange n => "value " ++ Word.decimal n ++ " out of 16-bit range"
  | spaceRange n => "DEFS size " ++ Word.decimal n ++ " out of range"
  | operandShape mnemonic operands =>
    "invalid operands for " ++ mnemonic.toUpper ++ ": " ++ ", ".intercalate operands
  | bitRange n => "bit number " ++ Word.decimal n ++ " out of range 0-7"
  | restartRange n => "invalid RST address 0x" ++ Word.hex 0 n
  | interruptMode n => "invalid interrupt mode " ++ Word.decimal n
  | fileNotFound path => path ++ ": file not found"
  | includeNotFound path tried =>
    "cannot include " ++ Text.quote path ++ ": " ++ tried ++ ": file not found"
  | includeCycle path => "circular include of " ++ Text.quote path
  | nestedMacro name outer outerLoc =>
    "macro nesting not allowed: " ++ Text.quote name ++ " defined inside " ++ Text.quote outer ++
      " (" ++ outerLoc.render ++ ")"
  | endWithoutMacro => "endm without macro"
  | duplicateMacro name first =>
    "duplicate macro " ++ Text.quote name ++ " (first defined at " ++ first.render ++ ")"
  | unclosedMacro name => "macro " ++ Text.quote name ++ " is never closed"
  | undefinedMacro name => "undefined macro " ++ Text.quote name
  | nestedTooDeep name limit =>
    "macro " ++ Text.quote name ++ " nested more than " ++ toString limit ++ " levels deep"
  | unclosedCall => "macro call scope is never closed"
  | unclosedBlock => "block is never closed"
  | endCallWithoutCall => "end of macro call without a matching call"
  | endBlockWithoutBlock => "endblock without block"
  | wrongDelimiter opened =>
    "scope opened at " ++ opened.render ++ " closed by the wrong delimiter"
  | duplicateParameter param name =>
    "duplicate parameter " ++ Text.quote param ++ " in macro " ++ Text.quote name
  | tooManyArguments name params args =>
    "macro " ++ Text.quote name ++ " takes " ++ toString params ++ " arguments, got " ++
      toString args
  | duplicateSymbol name first =>
    "duplicate symbol " ++ Text.quote name ++ " (first declared at " ++ first.render ++ ")"
  | equWithoutLabel => "EQU with no label"
  | unresolvable directive e => "unresolvable " ++ directive ++ ": " ++ e.message
  | alignRange n => "ALIGN value must be positive, got " ++ Word.decimal n
  | addressRange address =>
    "address 0x" ++ Word.hex 0 address ++ " outside the 16-bit address space"
  | cannotEvaluate what e => "cannot evaluate " ++ what ++ ": " ++ e.message
  | lateText text bytes =>
    "string " ++ text ++ " (" ++ toString bytes ++
      " bytes) is only known after its line was placed; define it earlier"
  | jumpRange displacement => "relative jump out of range (" ++ Word.decimal displacement ++ ")"
  | rewind out base =>
    "cannot rewind output before first ORG (0x" ++ Word.hex 4 out ++ " < 0x" ++ Word.hex 4 base ++
      ")"
  | foreign _ text => text

end Problem

/-- A problem and where it was found. -/
structure Diagnostic where
  problem : Problem
  loc : Location
deriving DecidableEq, Repr

namespace Diagnostic

def category (d : Diagnostic) : Category := d.problem.category

/-- The message, after the location unless there is none. -/
def render (d : Diagnostic) : String :=
  if d.loc = {} then d.problem.message else d.loc.render ++ ": " ++ d.problem.message

/-- All diagnostics as one text, a line each; nothing if there are none. -/
def summary? (ds : List Diagnostic) : Option String :=
  if ds.isEmpty then none else some ("\n".intercalate (ds.map render))

def count (c : Category) (ds : List Diagnostic) : Nat := ds.countP (·.category = c)

end Diagnostic
end Z80Asm
