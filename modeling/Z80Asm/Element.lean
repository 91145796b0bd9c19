import Z80Asm.Location
import Z80Asm.Value

/-! The elements that a program consists of: one per label, directive, instruction or datum. -/

namespace Z80Asm

/-- One byte of a template. -/
inductive Slot where
  | byte (b : UInt8)
  /-- An operand of one byte, or the low byte of one if `high` follows. -/
  | expr (v : Value)
  /-- The high byte of the operand before it. -/
  | high
  /-- The distance to a target from the end of the template. -/
  | relative (target : Value)
deriving DecidableEq, Repr, Inhabited

namespace Slot

def render : Slot → String
  | byte b => Word.hexNat 2 b.toNat
  | expr v => v.render
  | high => "^^"
  | relative v => "rel" ++ v.render

/-- The text of a slot given by the code of its kind, where unknown codes have a placeholder. -/
def renderCode (code : Int) (b : UInt8) (v : Value) : String :=
  if code = 0 then (byte b).render
  else if code = 1 then (expr v).render
  else if code = 2 then high.render
  else if code = 3 then (relative v).render
  else "??"

/-- The slot still stands for an operand. -/
def isOperand : Slot → Bool
  | expr _ | relative _ => true
  | _ => false

def isHigh : Slot → Bool
  | high => true
  | _ => false

/-- The byte in a slot; one that is not yet known reads as zero. -/
def toByte : Slot → UInt8
  | byte b => b
  | _ => 0

/-- One slot for each byte of a text. -/
def ofText (s : String) : List Slot := (Text.bytes s).map byte

end Slot

structure Label where
  name : String
  isPublic : Bool := false
  /-- The qualified name, once the label has been declared. -/
  symbol : String := ""
deriving DecidableEq, Repr

/-- A call of a macro. Once expanded, a copy of the macro's body follows it. -/
structure MacroCall where
  name : String
  args : List Value
  expanded : Bool := false
  params : List String := []
  scope : String := ""
  /-- The call has been reported as one that cannot be expanded. -/
  reported : Bool := false
deriving DecidableEq, Repr

/-- The call has been neither expanded nor reported. -/
def MacroCall.isPending (c : MacroCall) : Bool := !c.expanded && !c.reported

/-- The bytes of an instruction or of data, with the address they run at and their offset in the
output. The size of a placed template is final. -/
structure Template where
  slots : List Slot
  address : Int64 := 0
  out : Int64 := 0
  placed : Bool := false
deriving DecidableEq, Repr

namespace Template

def hasOperand (t : Template) : Bool := t.slots.any Slot.isOperand

def data (t : Template) : List UInt8 := t.slots.map Slot.toByte

end Template

inductive Statement where
  | label (l : Label)
  | block (scope : String)
  | endBlock (scope : String)
  | macroDef (name : String) (params : List String)
  | endMacro
  | call (c : MacroCall)
  | endCall (name scope : String)
  | equ (v : Value)
  | org (v : Value)
  | phase (v : Value)
  | endPhase
  | align (v : Value)
  | bytes (t : Template)
  | includeFile (path : String)
deriving DecidableEq, Repr

namespace Statement

def kindName : Statement → String
  | label _ => "label"
  | block _ => "block"
  | endBlock _ => "endblock"
  | macroDef .. => "macro"
  | endMacro => "endmacro"
  | call _ => "call"
  | endCall .. => "endcall"
  | equ _ => "equ"
  | org _ => "org"
  | phase _ => "phase"
  | endPhase => "endphase"
  | align _ => "align"
  | bytes _ => "bytes"
  | includeFile _ => "include"

def render : Statement → String
  | label l => l.name ++ (if l.isPublic then "::" else ":")
  | block scope => ".block " ++ scope
  | endBlock scope => ".endblock " ++ scope
  | macroDef name params => "macro " ++ name ++ " " ++ ", ".intercalate params
  | endMacro => "endm"
  | call c =>
    c.name ++ " " ++ ", ".intercalate (c.args.map Value.render) ++ " (" ++ c.scope ++ ")"
  | endCall name scope => "end " ++ name ++ " (" ++ scope ++ ")"
  | equ v => "equ " ++ v.render
  | org v => "org " ++ v.render
  | phase v => ".phase " ++ v.render
  | endPhase => ".dephase"
  | align v => "align " ++ v.render
  | bytes t =>
    Word.hex 4 t.address ++ "/" ++ Word.hex 4 t.out ++ " [" ++
      " ".intercalate (t.slots.map Slot.render) ++ "]"
  | includeFile path => "include " ++ Text.quote path

end Statement

structure Element where
  loc : Location
  stmt : Statement
deriving DecidableEq, Repr

end Z80Asm
