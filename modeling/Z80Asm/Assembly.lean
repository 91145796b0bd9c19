import Z80Asm.Declarations
import Z80Asm.Image
import Z80Asm.Macro
import Z80Asm.Patch

/-! The assembly of a program. No pass stops at a problem; all of them are collected. -/

namespace Z80Asm

/-- All that an assembly produces. The image holds what could be assembled, whether there were
problems or not. -/
structure Assembly where
  image : Image
  origin : Int64
  table : SymbolTable
  macros : MacroTable
  program : List Element
  diagnostics : List Diagnostic

namespace Assembly

def bytes (a : Assembly) : List UInt8 := a.image.bytes

def failed (a : Assembly) : Bool := !a.diagnostics.isEmpty

/-- How deep macro calls may nest if nothing else is said. -/
def defaultPasses : Nat := 64

/-- A limit that is not positive means the default. -/
def passLimit (passes : Int) : Nat := if passes ≤ 0 then defaultPasses else passes.toNat

def assemble (es : List Element) (passes : Int) : Assembly :=
  let (macros, ds₁) := Macro.extract es
  let (expanded, ds₂) := Macro.expandAll macros (passLimit passes) es
  let declared := Declarations.collect expanded
  let placed := Layout.assign declared.program declared.table
  let (table, ds₅) := placed.table.evaluate
  let patched := Patch.patch placed.program table
  let image := Image.assemble patched.program
  { image
    origin := Image.origin patched.program
    table := patched.table
    macros
    program := patched.program
    diagnostics :=
      ds₁ ++ ds₂ ++ declared.diagnostics ++ placed.diagnostics ++ ds₅ ++ patched.diagnostics ++
        image.diagnostics }

end Assembly
end Z80Asm
