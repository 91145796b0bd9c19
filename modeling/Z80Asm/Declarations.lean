import Z80Asm.Problem
import Z80Asm.Program
import Z80Asm.SymbolTable

/-! Declarations: every block and expanded call gets a scope of its own, and every label and
parameter a symbol. -/

namespace Z80Asm.Declarations

/-- An open scope. -/
structure Frame where
  index : Nat
  scope : String
  /-- The scope is that of a macro call and not of a block. -/
  isCall : Bool
  loc : Location

/-- The scopes that are open, innermost first, and what has been declared. -/
structure State where
  table : SymbolTable := .empty
  next : Nat := 0
  stack : List Frame := []
  diagnostics : List Diagnostic := []

namespace State

def report (s : State) (p : Problem) (loc : Location) : State :=
  { s with diagnostics := s.diagnostics ++ [⟨p, loc⟩] }

def scope (s : State) : String := (s.stack.head?.map Frame.scope).getD ""

/-- Opens a scope with an index that has not been used. -/
def enter (s : State) (isCall : Bool) (loc : Location) : String × State :=
  let indices := (s.stack.map Frame.index).reverse ++ [s.next]
  let scope := Scope.ofStack (indices.map Int.ofNat)
  (scope, { s with next := s.next + 1, stack := ⟨s.next, scope, isCall, loc⟩ :: s.stack })

/-- Closes the innermost scope. -/
def leave (s : State) (isCall : Bool) (loc : Location) : String × State :=
  match s.stack with
  | [] => ("", s.report (if isCall then .endCallWithoutCall else .endBlockWithoutBlock) loc)
  | frame :: outer =>
    let s := { s with stack := outer }
    (frame.scope, if frame.isCall = isCall then s else s.report (.wrongDelimiter frame.loc) loc)

/-- Declares a name, or reports that it is taken. -/
def declare (s : State) (name : String) (v : Value) (loc : Location) (taken : Problem) : State :=
  match s.table.declare? name v loc with
  | some table => { s with table }
  | none => s.report taken loc

/-- Declares the parameters of a call. Arguments look their names up where the call stands; a
parameter without an argument has no value. -/
def bind (s : State) (c : MacroCall) (caller scope : String) (loc : Location) :
    List String → List Value → State
  | [], _ => s
  | param :: params, args =>
    let v := match args with
      | [] => .unresolved
      | arg :: _ => arg.withScope caller
    let s := s.declare (scope ++ param) v loc (.duplicateParameter param c.name)
    bind s c caller scope loc params args.tail

def enterCall (s : State) (c : MacroCall) (loc : Location) : MacroCall × State :=
  let (scope, s₁) := s.enter true loc
  let s₂ := s₁.bind c s.scope scope loc c.params c.args
  let s₃ := if c.args.length > c.params.length then
      s₂.report (.tooManyArguments c.name c.params.length c.args.length) loc
    else s₂
  ({ c with scope }, s₃)

def declareLabel (s : State) (l : Label) (loc : Location) : Label × State :=
  let symbol := if l.isPublic then l.name else s.scope ++ l.name
  ({ l with symbol },
    s.declare symbol .unresolved loc (.duplicateSymbol l.name (s.table.loc symbol)))

def step (s : State) (e : Element) : Statement × State :=
  match e.stmt with
  | .block _ => let (scope, s') := s.enter false e.loc; (.block scope, s')
  | .call c =>
    if c.expanded then let (c', s') := s.enterCall c e.loc; (.call c', s') else (.call c, s)
  | .endBlock _ => let (scope, s') := s.leave false e.loc; (.endBlock scope, s')
  | .endCall name _ => let (scope, s') := s.leave true e.loc; (.endCall name scope, s')
  | .label l => let (l', s') := s.declareLabel l e.loc; (.label l', s')
  | stmt => (stmt, s)

/-- Reports the scopes that are still open, from the inside out. -/
def finish (s : State) : State :=
  s.stack.foldl
    (fun s frame => s.report (if frame.isCall then .unclosedCall else .unclosedBlock) frame.loc) s

end State

structure Result where
  program : List Element
  table : SymbolTable
  diagnostics : List Diagnostic

def collect (es : List Element) : Result :=
  let (program, s) := Program.update State.step {} es
  ⟨program, s.table, s.finish.diagnostics⟩

end Z80Asm.Declarations
