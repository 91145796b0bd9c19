import Z80Asm.Layout

/-! Patching: operands become bytes once all symbols have their values. -/

namespace Z80Asm.Patch

structure State where
  memo : Memo
  scopes : ScopeStack := []
  diagnostics : Array Diagnostic := #[]

/-- Where the slots of a template stand. -/
structure Site where
  loc : Location
  address : Int64
  placed : Bool

namespace State

def report (s : State) (p : Problem) (loc : Location) : State :=
  { s with diagnostics := s.diagnostics.push ⟨p, loc⟩ }

/-- Evaluates an operand; failures are remembered for all that follows. -/
def operand (s : State) (site : Site) (v : Value) : Except EvalError Datum × State :=
  let (result, memo) := (Resolve.value v (s.scopes.scopeOf v) site.address).run.run s.memo
  (result, { s with memo })

/-- The slots of an operand of one byte. A text of another length takes as many, unless the template
has been placed. -/
def patchByte (s : State) (site : Site) (v : Value) : List Slot × State :=
  match s.operand site v with
  | (.error e, s') => ([.expr v], s'.report (.cannotEvaluate v.source e) site.loc)
  | (.ok (.number n), s') => ([.byte (Word.lowByte n)], s')
  | (.ok (.text t), s') =>
    match Text.bytes t with
    | [b] => ([.byte b], s')
    | bytes =>
      if site.placed then ([.expr v], s'.report (.lateText v.source bytes.length) site.loc)
      else (bytes.map .byte, s')

/-- The slots of an operand of two bytes, low byte first. -/
def patchWord (s : State) (site : Site) (v : Value) : List Slot × State :=
  match s.operand site v with
  | (.error e, s') => ([.expr v, .high], s'.report (.cannotEvaluate v.source e) site.loc)
  | (.ok d, s') =>
    match d.asNumber none with
    | .ok n => ([.byte (Word.lowByte n), .byte (Word.highByte n)], s')
    | .error e => ([.expr v, .high], s'.report (.cannotEvaluate v.source e) site.loc)

/-- The slot of a displacement, where `length` is that of the template. -/
def patchRelative (s : State) (site : Site) (length : Nat) (v : Value) : Slot × State :=
  let (result, s') := s.operand site v
  match result >>= Datum.asNumber none with
  | .error e => (.relative v, s'.report (.cannotEvaluate v.source e) site.loc)
  | .ok target =>
    let displacement := target - (site.address + Int64.ofNat length)
    if displacement < -128 || displacement > 127 then
      (.relative v, s'.report (.jumpRange displacement) site.loc)
    else (.byte (Word.lowByte displacement), s')

/-- Patches slots from left to right; `done` holds those before. -/
def patchSlots (s : State) (site : Site) (done : Array Slot) : List Slot → List Slot × State
  | [] => (done.toList, s)
  | .expr v :: .high :: rest =>
    let (slots, s') := s.patchWord site v
    patchSlots s' site (done ++ slots.toArray) rest
  | .expr v :: rest =>
    let (slots, s') := s.patchByte site v
    patchSlots s' site (done ++ slots.toArray) rest
  | .relative v :: rest =>
    let (slot, s') := s.patchRelative site (done.size + rest.length + 1) v
    patchSlots s' site (done.push slot) rest
  | slot :: rest => patchSlots s site (done.push slot) rest

def step (s : State) (e : Element) : Statement × State :=
  let s := { s with scopes := s.scopes.after e.stmt }
  match e.stmt with
  | .bytes t =>
    if t.hasOperand then
      let (slots, s') := s.patchSlots ⟨e.loc, t.address, t.placed⟩ #[] t.slots
      (.bytes { t with slots }, s')
    else (.bytes t, s)
  | stmt => (stmt, s)

end State

structure Result where
  program : List Element
  table : SymbolTable
  diagnostics : List Diagnostic

/-- Replaces the operands of all templates by bytes. -/
def patch (es : List Element) (table : SymbolTable) : Result :=
  let (program, s) := Program.update State.step { memo := ⟨table, []⟩ } es
  ⟨program, s.memo.table, s.diagnostics.toList⟩

end Z80Asm.Patch
