import Z80Asm.Checked
import Z80Asm.Element
import Z80Asm.Instruction
import Z80Asm.Source.Line

/-! Reading source lines as elements. A line that cannot be read is reported and left out; an
instruction with a bad operand keeps its size. -/

namespace Z80Asm.Source

/-- The value of an operand: a number or text if no names occur in it, and else to be evaluated
later. -/
def readValue? (text : String) : Checked (Option Value) :=
  match Expr.parse text with
  | .error e => .spoilt (.invalidExpression text e) none
  | .ok e =>
    match e.freeVars with
    | [] =>
      match e.eval Expr.noNames with
      | .ok d => pure (some (.ofDatum d))
      | .error e => .spoilt (.failingExpression text e) none
    | names => pure (some (.deferred text names))

/-- An operand that cannot be read counts as zero. -/
def readValue (text : String) : Checked Value := do
  let v ← readValue? text
  pure (v.getD (.number 0))

/-- The value of an operand that has to be known at once. -/
def readConstant? (text what : String) : Checked (Option Int64) := do
  match ← readValue? text with
  | none => pure none
  | some v =>
    match v.content with
    | .number n => pure (some n)
    | .text s =>
      match (Datum.text s).number? with
      | some n => pure (some n)
      | none => .spoilt (.constantText what s) none
    | _ => .spoilt (.notConstant what text) none

/-- A value as one byte. -/
def byteSlot (v : Value) : Checked Slot :=
  match v.content with
  | .text s =>
    match Text.bytes s with
    | [b] => pure (.byte b)
    | _ => .spoilt (.byteText s) (.byte 0)
  | .number n =>
    let slot := .byte (Word.lowByte n)
    if n < -128 || n > 255 then .spoilt (.byteRange n) slot else pure slot
  | _ => pure (.expr v)

def wordBytes (n : Int64) : List Slot := [.byte (Word.lowByte n), .byte (Word.highByte n)]

/-- A value as two bytes, low byte first. -/
def wordSlots (v : Value) : Checked (List Slot) :=
  match v.content with
  | .text s =>
    match (Datum.text s).number? with
    | some n => pure (wordBytes n)
    | none => .spoilt (.wordText s) (wordBytes 0)
  | .number n =>
    if n < -32768 || n > 0xFFFF then .spoilt (.wordRange n) (wordBytes n) else pure (wordBytes n)
  | _ => pure [.expr v, .high]

/-- The statement of the given slots; without slots there is none. -/
def bytesStatement (slots : List Slot) : List Statement :=
  if slots.isEmpty then [] else [.bytes { slots }]

/-- Operands of DEFB: each is a byte, or a text of any length. -/
def dataBytes (text : String) : Checked (List Slot) := do
  let v ← readValue text
  match v.content with
  | .text s => pure (Slot.ofText s)
  | _ => do
    let slot ← byteSlot v
    pure [slot]

def dataWords (text : String) : Checked (List Slot) := do
  wordSlots (← readValue text)

def readBytes (operands : List String) : Checked (List Statement) :=
  if operands.isEmpty then .spoilt (.someOperands "DEFB") []
  else do
    let slots ← operands.mapM dataBytes
    pure (bytesStatement slots.flatten)

def readWords (operands : List String) : Checked (List Statement) :=
  if operands.isEmpty then .spoilt (.someOperands "DEFW") []
  else do
    let slots ← operands.mapM dataWords
    pure (bytesStatement slots.flatten)

/-- The statement that reserves `size` bytes. -/
def reserveSpace (size : String) (fill? : Option String) : Checked (List Statement) := do
  match ← readConstant? size "DEFS size" with
  | none => pure []
  | some n =>
    if n < 0 || n > 0x10000 then .spoilt (.spaceRange n) []
    else do
      let fill ← match fill? with
        | none => pure (.byte 0)
        | some text => do byteSlot (← readValue text)
      pure (bytesStatement (List.replicate n.toInt.toNat fill))

def readSpace (operands : List String) : Checked (List Statement) :=
  match operands with
  | [size] => reserveSpace size none
  | [size, fill] => reserveSpace size (some fill)
  | _ => .spoilt .spaceOperands []

/-- The form of an operand, and the text of the expression in it. Words are recognised in any case
and spacing. -/
def readOperand (text : String) : Instruction.Operand × Option String :=
  let word := Text.lower (String.ofList (text.toList.filter (!Text.isSpace ·)))
  if Instruction.operandWords.contains word then (.word word, none)
  else match indirect? text.toList with
    | some inner => (.address, some (String.ofList inner))
    | none => (.value, some text)

/-- The instruction that a mnemonic and operands name, and its expression if it has one. -/
def readShape? (mnemonic : String) (operands : List String) :
    Option (Instruction.Entry × String) :=
  let read := operands.map readOperand
  match read.filterMap Prod.snd with
  | [] => (Instruction.find? mnemonic (read.map Prod.fst)).map (·, "")
  | [text] => (Instruction.find? mnemonic (read.map Prod.fst)).map (·, text)
  | _ => none

/-- The code of an instruction with `bits` set in its last byte. -/
def setBits (code : List UInt8) (bits : UInt8) : List UInt8 :=
  match code.getLast? with
  | none => code
  | some last => code.dropLast ++ [last ||| bits]

/-- The code of an instruction whose constant operand goes into its last byte. -/
def codeWith (code : List UInt8) (n? : Option Int64) (valid : Int64 → Bool)
    (problem : Int64 → Problem) (bits : Int64 → UInt8) : Checked (List Slot) :=
  match n? with
  | none => pure (code.map .byte)
  | some n =>
    let slots := (setBits code (bits n)).map .byte
    if valid n then pure slots else .spoilt (problem n) slots

def modeSlot (n? : Option Int64) : Checked Slot :=
  match n? with
  | none => pure (.byte (Instruction.modeByte 0))
  | some n =>
    if n < 0 || n > 2 then .spoilt (.interruptMode n) (.byte (Instruction.modeByte 0))
    else pure (.byte (Instruction.modeByte n.toInt.toNat))

/-- The slots of an instruction. -/
def encode (e : Instruction.Entry) (text : String) : Checked (List Slot) :=
  let code := e.code.map .byte
  match e.argument with
  | .none => pure code
  | .byte => do
    let slot ← byteSlot (← readValue text)
    pure (code ++ [slot])
  | .word => do
    let slots ← wordSlots (← readValue text)
    pure (code ++ slots)
  | .relative => do
    let v ← readValue text
    pure (code ++ [.relative v])
  | .bit => do
    codeWith e.code (← readConstant? text "bit number") (fun n => 0 ≤ n && n ≤ 7) .bitRange
      fun n => Word.lowByte (n &&& 7) <<< 3
  | .restart => do
    codeWith e.code (← readConstant? text "RST address")
      (fun n => 0 ≤ n && n ≤ 0x38 && n % 8 = 0) .restartRange fun n => Word.lowByte (n &&& 0x38)
  | .mode => do
    let slot ← modeSlot (← readConstant? text "interrupt mode")
    pure (code ++ [slot])

def readInstruction (mnemonic : String) (operands : List String) : Checked (List Statement) :=
  match readShape? mnemonic operands with
  | none => .spoilt (.operandShape mnemonic operands) []
  | some (e, text) => do
    let slots ← encode e text
    pure (bytesStatement slots)

/-- A directive with one operand. -/
def readSingle (directive : String) (operands : List String) (make : Value → Statement) :
    Checked (List Statement) :=
  match operands with
  | [text] => do
    let v? ← readValue? text
    pure (v?.toList.map make)
  | _ => .spoilt (.oneOperand directive) []

/-- A directive without operands. -/
def readBare (directive : String) (operands : List String) (stmt : Statement) :
    Checked (List Statement) :=
  if operands.isEmpty then pure [stmt] else .spoilt (.noOperands directive) []

def readInclude (operands : List String) : Checked (List Statement) :=
  match operands with
  | [text] => do
    match ← readValue? text with
    | none => pure []
    | some v =>
      match v.content with
      | .text path =>
        if path.isEmpty then .spoilt .includeName [] else pure [.includeFile path]
      | _ => .spoilt .includeName []
  | _ => .spoilt (.oneOperand "INCLUDE") []

/-- A parameter is a name; its place may also be left empty. -/
def isParameter (cs : List Char) : Bool := cs.isEmpty || isName cs

/-- The head of a macro definition: a name and its parameters. -/
def readMacroDef (text : List Char) : Checked (List Statement) :=
  let (name, rest) := splitWord text
  if !isName name then .spoilt (.macroName (String.ofList name)) []
  else
    let params := splitOperands rest
    match params.find? (!isParameter ·) with
    | some param => .spoilt (.macroParameter (String.ofList param) (String.ofList name)) []
    | none => pure [.macroDef (String.ofList name) (params.map String.ofList)]

def readCall (name : String) (operands : List String) : Checked (List Statement) := do
  let args ← operands.mapM readValue
  pure [.call { name, args }]

/-- A directive may begin with a dot. -/
def dropDot (key : String) : String :=
  match key.toList with
  | '.' :: cs => String.ofList cs
  | _ => key

/-- Reads a mnemonic and the text behind it. What is neither a directive nor an instruction calls a
macro. -/
def readStatement (mnemonic : String) (text : List Char) : Checked (List Statement) :=
  let operands := (splitOperands text).map String.ofList
  let key := Text.lower mnemonic
  match dropDot key with
  | "equ" => readSingle "EQU" operands .equ
  | "org" => readSingle "ORG" operands .org
  | "phase" => readSingle "PHASE" operands .phase
  | "dephase" => readBare "DEPHASE" operands .endPhase
  | "align" => readSingle "ALIGN" operands .align
  | "block" => readBare "BLOCK" operands (.block "")
  | "endblock" => readBare "ENDBLOCK" operands (.endBlock "")
  | "macro" => readMacroDef text
  | "endm" => readBare "ENDM" operands .endMacro
  | "include" => readInclude operands
  | "defb" | "db" | "defm" | "dm" => readBytes operands
  | "defw" | "dw" => readWords operands
  | "defs" | "ds" => readSpace operands
  | _ =>
    if Instruction.isMnemonic key then readInstruction key operands
    else readCall mnemonic operands

def readLineText (line : LineText) : Checked (List Statement) :=
  let labels := line.labels.map fun l =>
    Statement.label { name := String.ofList l.name, isPublic := l.isPublic }
  match line.statement with
  | [] => pure labels
  | c :: _ =>
    if isIdentStart c then do
      let (mnemonic, text) := splitWord line.statement
      let stmts ← readStatement (String.ofList mnemonic) text
      pure (labels ++ stmts)
    else .spoilt (.noMnemonic (String.ofList line.statement)) labels

/-- The elements of one line. -/
def elementsOfLine (loc : Location) (raw : String) : List Element × List Diagnostic :=
  let stmts := readLineText (readLine raw)
  (stmts.value.map (⟨loc, ·⟩), stmts.problems.map (⟨·, loc⟩))

/-- The elements of a file. Files that it includes are not read. -/
def elementsOfLines (file : String) (lines : List String) : List Element × List Diagnostic :=
  let read := lines.zipIdx.map fun (raw, i) => elementsOfLine ⟨file, Int.ofNat (i + 1)⟩ raw
  ((read.map Prod.fst).flatten, (read.map Prod.snd).flatten)

end Z80Asm.Source
