import Z80Asm.Problem
import Z80Asm.Program

/-! Macros: definitions are collected from a program, and calls are followed by copies of them. -/

namespace Z80Asm

structure Macro where
  name : String
  params : List String
  body : List Element
  loc : Location
deriving DecidableEq, Repr

/-- Macros in order of definition; of several with one name the first counts. -/
abbrev MacroTable := List Macro

namespace MacroTable

def find? (t : MacroTable) (name : String) : Option Macro := List.find? (·.name = name) t

/-- The table sorted by name. -/
def sorted (t : MacroTable) : List Macro := t.mergeSort fun a b => a.name ≤ b.name

end MacroTable

namespace Macro

/-- A definition that has not ended yet. -/
structure Opened where
  name : String
  params : List String
  loc : Location
  body : Array Element := #[]
  /-- How many definitions inside this one have not ended. -/
  inner : Nat := 0
  /-- There has been a definition inside this one. -/
  nests : Bool := false

def Opened.close (o : Opened) : Macro := ⟨o.name, o.params, o.body.toList, o.loc⟩

structure Extraction where
  table : MacroTable := []
  diagnostics : List Diagnostic := []
  opened? : Option Opened := none

def Extraction.report (s : Extraction) (p : Problem) (loc : Location) : Extraction :=
  { s with diagnostics := s.diagnostics ++ [⟨p, loc⟩] }

/-- Ends a definition. One with another inside it is dropped, as is one whose name is taken. -/
def Extraction.finish (s : Extraction) (o : Opened) : Extraction :=
  let s := { s with opened? := none }
  if o.nests then s
  else match s.table.find? o.name with
    | some first => s.report (.duplicateMacro o.name first.loc) o.loc
    | none => { s with table := s.table ++ [o.close] }

def Extraction.step (s : Extraction) (e : Element) : Extraction :=
  match e.stmt, s.opened? with
  | .macroDef name params, none => { s with opened? := some { name, params, loc := e.loc } }
  | .macroDef name _, some o =>
    let s := s.report (.nestedMacro name o.name o.loc) e.loc
    { s with opened? := some { o with inner := o.inner + 1, nests := true } }
  | .endMacro, none => s.report .endWithoutMacro e.loc
  | .endMacro, some o =>
    match o.inner with
    | 0 => s.finish o
    | inner + 1 => { s with opened? := some { o with inner } }
  | _, none => s
  | _, some o => { s with opened? := some { o with body := o.body.push e } }

/-- The macros that a program defines. -/
def extract (es : List Element) : MacroTable × List Diagnostic :=
  let s := es.foldl Extraction.step {}
  let s := match s.opened? with
    | some o => s.report (.unclosedMacro o.name) o.loc
    | none => s
  (s.table, s.diagnostics)

structure Expansion where
  /-- How many calls have been expanded. -/
  count : Nat := 0
  diagnostics : List Diagnostic := []

/-- Expands one element: a call is marked, and followed by the body of its macro and an end. -/
def expandElement (t : MacroTable) (s : Expansion) (e : Element) : List Element × Expansion :=
  match e.stmt with
  | .call c =>
    if c.isPending then
      match t.find? c.name with
      | none =>
        ([{ e with stmt := .call { c with reported := true } }],
          { s with diagnostics := s.diagnostics ++ [⟨.undefinedMacro c.name, e.loc⟩] })
      | some m =>
        ({ e with stmt := .call { c with expanded := true, params := m.params } } ::
            (m.body ++ [⟨e.loc, .endCall c.name ""⟩]),
          { s with count := s.count + 1 })
    else ([e], s)
  | _ => ([e], s)

/-- One pass of expansion. Calls in the bodies it inserts are left to the next pass. -/
def expand (t : MacroTable) (es : List Element) : List Element × Expansion :=
  Program.walk (expandElement t) {} es

/-- Reports a call that a further pass would expand. -/
def reportDeep (t : MacroTable) (limit : Nat) (ds : List Diagnostic) (e : Element) :
    Statement × List Diagnostic :=
  match e.stmt with
  | .call c =>
    if c.isPending && (t.find? c.name).isSome then
      (.call { c with reported := true }, ds ++ [⟨.nestedTooDeep c.name limit, e.loc⟩])
    else (e.stmt, ds)
  | stmt => (stmt, ds)

/-- Passes of expansion until one finds nothing to expand, `passes` at most; `limit` is what too
deep calls are said to exceed. -/
def expandPasses (t : MacroTable) (limit : Nat) :
    Nat → List Element → List Diagnostic → List Element × List Diagnostic
  | 0, es, ds => Program.update (reportDeep t limit) ds es
  | passes + 1, es, ds =>
    let (es', s) := expand t es
    let ds' := ds ++ s.diagnostics
    if s.count = 0 then (es', ds') else expandPasses t limit passes es' ds'

/-- Expands calls nested up to `limit` levels deep. -/
def expandAll (t : MacroTable) (limit : Nat) (es : List Element) :
    List Element × List Diagnostic :=
  expandPasses t limit limit es []

end Macro
end Z80Asm
