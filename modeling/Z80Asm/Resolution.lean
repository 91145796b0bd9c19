import Z80Asm.Problem
import Z80Asm.SymbolTable

/-! Resolution of deferred symbols. A symbol is evaluated when it is asked for, which may ask for
others; results are stored in the table, and what failed is not tried again. -/

namespace Z80Asm

/-- The table so far and the symbols whose evaluation has failed. -/
structure Memo where
  table : SymbolTable
  failed : List String := []

/-- A computation that may fail, and keeps what it has stored even then. -/
abbrev Resolve := ExceptT EvalError (StateM Memo)

namespace Resolve

/-- Evaluates an expression text in a scope, where `here?` is the current address and `symbol` gives
the value of a qualified name. -/
def source (symbol : String → Resolve Datum) (here? : Option Int64) (scope text : String) :
    Resolve Datum :=
  match Expr.parse text with
  | .error e => throw (.malformed e)
  | .ok e => e.evalM fun name =>
    if name = "$" then
      match here? with
      | some n => pure (.number n)
      | none => throw .noCurrentAddress
    else do
      match (← get).table.resolve? scope name with
      | some qualified => symbol qualified
      | none => throw (.undefinedSymbol name)

def store (name : String) (d : Datum) : Resolve Unit :=
  modify fun s => { s with table := s.table.set name (.ofDatum d) }

def markFailed (name : String) : Resolve Unit :=
  modify fun s => { s with failed := name :: s.failed }

theorem length_erase_lt {names : List String} {name : String} (h : name ∈ names) :
    (names.erase name).length < names.length := by
  have := List.length_pos_of_mem h
  rw [List.length_erase_of_mem h]
  omega

/-- The value of a qualified name. `path` holds the symbols under evaluation, in order, and `fresh`
the declared names that are not among them. -/
def symbol (fresh path : List String) (name : String) : Resolve Datum := do
  match (← get).table.get? name with
  | none => throw (.undefinedSymbol (Scope.display name))
  | some v =>
    match v.content with
    | .number n => pure (.number n)
    | .text s => pure (.text s)
    | .unresolved => throw (.noValue (Scope.display name))
    | .deferred text _ =>
      if _h : name ∈ fresh then do
        if (← get).failed.contains name then throw (.unresolved (Scope.display name))
        else do
          let scope := v.scope?.getD (Scope.ofName name)
          let inner := symbol (fresh.erase name) (path ++ [name])
          let d ← tryCatch (source inner v.here? scope text) fun e => do
            markFailed name
            throw e
          store name d
          pure d
      else
        let cycle := path.dropWhile (· ≠ name) ++ [name]
        throw (.circular (cycle.map Scope.display))
termination_by fresh.length
decreasing_by exact length_erase_lt ‹_›

/-- The value of an operand that stands in `scope` at the address `here`. -/
def value (v : Value) (scope : String) (here : Int64) : Resolve Datum := do
  match v.content with
  | .number n => pure (.number n)
  | .text s => pure (.text s)
  | .unresolved => throw .unresolvedValue
  | .deferred text _ => do
    let names := (← get).table.names
    source (symbol names []) (some here) scope text

end Resolve

namespace SymbolTable

/-- One step of `evaluate`: resolves the symbol `name` if it is still deferred. -/
def evaluateSymbol (s : Memo × List Diagnostic) (name : String) : Memo × List Diagnostic :=
  let (memo, ds) := s
  match memo.table.get? name with
  | some v =>
    if v.isDeferred && !memo.failed.contains name then
      match (Resolve.symbol memo.table.names [] name).run.run memo with
      | (.ok _, memo') => (memo', ds)
      | (.error e, memo') =>
        (memo', ds ++ [⟨.cannotEvaluate (Scope.display name) e, memo.table.loc name⟩])
    else (memo, ds)
  | none => (memo, ds)

/-- Resolves every deferred symbol. Those that fail keep their expression; each failure is reported
once, at the first symbol that meets it. -/
def evaluate (t : SymbolTable) : SymbolTable × List Diagnostic :=
  let (memo, ds) := t.names.foldl evaluateSymbol (⟨t, []⟩, [])
  (memo.table, ds)

end SymbolTable
end Z80Asm
