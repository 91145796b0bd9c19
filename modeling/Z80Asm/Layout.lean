import Z80Asm.Program
import Z80Asm.Resolution

/-! Layout: the address of every label and template. Directives are evaluated as they are met, from
what is known by then. -/

namespace Z80Asm

/-- The scopes around an element, innermost first. -/
abbrev ScopeStack := List String

namespace ScopeStack

def current (scopes : ScopeStack) : String := scopes.headD ""

/-- The scopes after a statement. -/
def after (scopes : ScopeStack) : Statement → ScopeStack
  | .block scope => scope :: scopes
  | .call c => if c.expanded then c.scope :: scopes else scopes
  | .endBlock _ | .endCall .. => scopes.tail
  | _ => scopes

/-- The scope in which an operand looks its names up. -/
def scopeOf (scopes : ScopeStack) (v : Value) : String := v.scope?.getD scopes.current

end ScopeStack

namespace Layout

/-- One past the highest address. -/
def addressLimit : Int64 := 0x10000

structure State where
  table : SymbolTable
  address : Int64 := 0
  out : Int64 := 0
  /-- The symbols of the labels directly before the current element. -/
  pending : List String := []
  scopes : ScopeStack := []
  /-- An address outside the address space has been reported. -/
  overflowed : Bool := false
  diagnostics : List Diagnostic := []

namespace State

def report (s : State) (p : Problem) (loc : Location) : State :=
  { s with diagnostics := s.diagnostics ++ [⟨p, loc⟩] }

/-- Reports the first address outside the address space. -/
def checkRange (s : State) (loc : Location) : State :=
  if !s.overflowed && (s.address < 0 || s.address > addressLimit) then
    { s with overflowed := true }.report (.addressRange s.address) loc
  else s

/-- A label without a value has the current address. -/
def placeLabel (s : State) (l : Label) : Label × State :=
  let symbol := if l.symbol.isEmpty then l.name else l.symbol
  let table := match s.table.get? symbol with
    | some ⟨.unresolved, _, _⟩ | none => s.table.set symbol (.number s.address)
    | some _ => s.table
  ({ l with symbol }, { s with table, pending := s.pending ++ [symbol] })

/-- Binds a value to the labels before it. -/
def bind (s : State) (v : Value) (loc : Location) : State :=
  if s.pending.isEmpty then s.report .equWithoutLabel loc
  else
    let v := v.withScope s.scopes.current
    let v := if v.uses "$" then { v with here? := some s.address } else v
    { s with table := s.pending.foldl (fun t symbol => t.set symbol v) s.table }

/-- The operand of a directive as a number. -/
def directive (s : State) (name : String) (v : Value) (loc : Location) : Option Int64 × State :=
  let (result, memo) := (Resolve.value v s.scopes.current s.address).run.run ⟨s.table, []⟩
  let s := { s with table := memo.table }
  match result >>= Datum.asNumber none with
  | .ok n => (some n, s)
  | .error e => (none, s.report (.unresolvable name e) loc)

/-- Moves the address up to a multiple of `n`. -/
def alignTo (s : State) (n : Int64) (loc : Location) : State :=
  if n ≤ 0 then s.report (.alignRange n) loc
  else
    let pad := (n - s.address % n) % n
    { s with address := s.address + pad, out := s.out + pad }.checkRange loc

end State

/-- The slots of a template in which every operand of one byte that is already known to be a text of
another length is replaced by its bytes. -/
def reserve (scopes : ScopeStack) (address : Int64) (memo : Memo) (done : Array Slot) :
    List Slot → List Slot × Memo
  | [] => (done.toList, memo)
  | .expr v :: rest =>
    if rest.head?.any Slot.isHigh then reserve scopes address memo (done.push (.expr v)) rest
    else
      match (Resolve.value v (scopes.scopeOf v) address).run.run memo with
      | (.ok (.text s), memo') =>
        if s.utf8ByteSize = 1 then reserve scopes address memo' (done.push (.expr v)) rest
        else reserve scopes address memo' (done ++ (Slot.ofText s).toArray) rest
      | (_, memo') => reserve scopes address memo' (done.push (.expr v)) rest
  | slot :: rest => reserve scopes address memo (done.push slot) rest

namespace State

def placeTemplate (s : State) (t : Template) (loc : Location) : Template × State :=
  let (slots, memo) :=
    if t.hasOperand then reserve s.scopes s.address ⟨s.table, []⟩ #[] t.slots
    else (t.slots, ⟨s.table, []⟩)
  let length := Int64.ofNat slots.length
  let s' := { s with table := memo.table, address := s.address + length, out := s.out + length }
  (⟨slots, s.address, s.out, true⟩, s'.checkRange loc)

/-- Places an element that is no label. -/
def placeOther (s : State) (e : Element) : Statement × State :=
  let s := { s with scopes := s.scopes.after e.stmt }
  match e.stmt with
  | .equ v => (.equ v, s.bind v e.loc)
  | .org v =>
    match s.directive "ORG" v e.loc with
    | (some n, s') => (.org v, { s' with address := n, out := n }.checkRange e.loc)
    | (none, s') => (.org v, s')
  | .phase v =>
    match s.directive "PHASE" v e.loc with
    | (some n, s') => (.phase v, { s' with address := n }.checkRange e.loc)
    | (none, s') => (.phase v, s')
  | .endPhase => (.endPhase, { s with address := s.out })
  | .align v =>
    match s.directive "ALIGN" v e.loc with
    | (some n, s') => (.align v, s'.alignTo n e.loc)
    | (none, s') => (.align v, s')
  | .bytes t => let (t', s') := s.placeTemplate t e.loc; (.bytes t', s')
  | stmt => (stmt, s)

def step (s : State) (e : Element) : Statement × State :=
  match e.stmt with
  | .label l => let (l', s') := s.placeLabel l; (.label l', s')
  | _ => let (stmt, s') := s.placeOther e; (stmt, { s' with pending := [] })

end State

structure Result where
  program : List Element
  table : SymbolTable
  diagnostics : List Diagnostic

/-- Places every element and gives every label its value. -/
def assign (es : List Element) (table : SymbolTable) : Result :=
  let (program, s) := Program.update State.step { table } es
  ⟨program, s.table, s.diagnostics⟩

end Layout
end Z80Asm
