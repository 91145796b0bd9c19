import Z80Asm.Location
import Z80Asm.Scope
import Z80Asm.Value

/-! Symbol tables: values under scope-qualified names, in order of declaration. -/

namespace Z80Asm

structure Symbol where
  name : String
  value : Value
  loc : Location
deriving DecidableEq, Repr

/-- The line of a symbol in a dump of its table. -/
def Symbol.line (s : Symbol) : String :=
  let name := s.name ++ String.ofList (List.replicate (24 - s.name.length) ' ')
  let shown := match s.value.content with
    | .number n => "0x" ++ Word.hex16 n ++ " (" ++ Word.decimal n ++ ")"
    | c => c.render
  "  " ++ name ++ "  " ++ shown ++ "\n"

/-- No name is declared twice. -/
structure SymbolTable where
  symbols : List Symbol
  nodup : (symbols.map Symbol.name).Nodup

namespace SymbolTable

def empty : SymbolTable := ⟨[], List.nodup_nil⟩

instance : Inhabited SymbolTable := ⟨empty⟩

def names (t : SymbolTable) : List String := t.symbols.map Symbol.name

def size (t : SymbolTable) : Nat := t.symbols.length

def find? (t : SymbolTable) (name : String) : Option Symbol :=
  t.symbols.find? (·.name = name)

def get? (t : SymbolTable) (name : String) : Option Value := (t.find? name).map Symbol.value

/-- Where a name was declared. -/
def loc (t : SymbolTable) (name : String) : Location := ((t.find? name).map Symbol.loc).getD {}

def contains (t : SymbolTable) (name : String) : Bool := t.names.contains name

/-- Adds a name that is not yet declared. -/
def declare? (t : SymbolTable) (name : String) (value : Value) (loc : Location) :
    Option SymbolTable :=
  if h : name ∈ t.names then none
  else some
    { symbols := t.symbols ++ [⟨name, value, loc⟩]
      nodup := by
        have := t.nodup
        simp only [names] at h
        grind }

/-- Changes the value of a declared name. -/
def update (t : SymbolTable) (name : String) (value : Value) : SymbolTable where
  symbols := t.symbols.map fun s => if s.name = name then { s with value } else s
  nodup := by
    have h : (fun s : Symbol => (if s.name = name then { s with value } else s).name) =
        Symbol.name := by
      funext s; split <;> rfl
    simpa only [List.map_map, Function.comp_def, h] using t.nodup

/-- Stores a value, declaring the name if needed. -/
def set (t : SymbolTable) (name : String) (value : Value) : SymbolTable :=
  (t.declare? name value {}).getD (t.update name value)

/-- The qualified name that `name` means in a scope: the first that is declared, from the inside
out. -/
def resolve? (t : SymbolTable) (scope name : String) : Option String :=
  ((Scope.enclosing scope.toList).map fun s => String.ofList s ++ name).find? t.contains

/-- The table as text, sorted by name. -/
def dump (t : SymbolTable) : String :=
  if t.symbols.isEmpty then "Symbols: (empty)\n"
  else "Symbols:\n" ++
    String.join ((t.symbols.mergeSort (fun a b => a.name ≤ b.name)).map Symbol.line)

/-- The value of a name for expressions that stand outside the program: only numbers and texts
count. -/
def lookup (t : SymbolTable) (name : String) : Except EvalError Datum :=
  match t.get? name with
  | none => .error (.undefinedSymbol name)
  | some v =>
    match v.content with
    | .number n => .ok (.number n)
    | .text s => .ok (.text s)
    | .unresolved => .error (.unresolved name)
    | .deferred .. => .error (.deferred name)

end SymbolTable
end Z80Asm
