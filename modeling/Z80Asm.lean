import Z80Asm.Main
import Z80Asm.Proofs.CallReports
import Z80Asm.Proofs.Operands
import Z80Asm.Proofs.Holes
import Z80Asm.Proofs.AddressRange
import Z80Asm.Proofs.Extents
import Z80Asm.Proofs.Sizes
import Z80Asm.Proofs.Identifiers
import Z80Asm.Proofs.Parallel
import Z80Asm.Proofs.Inlining
import Z80Asm.Proofs.CallScopes
import Z80Asm.Proofs.Recasting
import Z80Asm.Proofs.CallDeclarations
import Z80Asm.Proofs.Lockstep
import Z80Asm.Proofs.CallLayout
import Z80Asm.Proofs.CallAsBlock
import Z80Asm.Proofs.Underlay
import Z80Asm.Proofs.Foreknowledge
import Z80Asm.Proofs.Hoisting
import Z80Asm.Proofs.OpenScopes
import Z80Asm.Proofs.LexicalScope
import Z80Asm.Proofs.Arguments
import Z80Asm.Proofs.RecursiveExpansion
import Z80Asm.Proofs.ImageBounds
import Z80Asm.Proofs.OutputOrder
import Z80Asm.Proofs.Parsing
import Z80Asm.Proofs.Quoting
import Z80Asm.Proofs.Cutting
import Z80Asm.Proofs.Weakening
import Z80Asm.Proofs.Naming
import Z80Asm.Proofs.NamedPrograms
import Z80Asm.Proofs.NamedConstants
import Z80Asm.Proofs.LabelValues
import Z80Asm.Proofs.Inclusion
import Z80Asm.Proofs.InertDefinitions
import Z80Asm.Proofs.Redeclarations
import Z80Asm.Proofs.Extraction
import Z80Asm.Proofs.Failures
import Z80Asm.Proofs.Printing
import Z80Asm.Proofs.RelativeJumps
import Z80Asm.Proofs.OperandWords
import Z80Asm.Proofs.Decoding
import Z80Asm.Proofs.FreeNames
import Z80Asm.Proofs.Splicing
import Z80Asm.Proofs.Traps
import Z80Asm.Proofs.SourceNames
import Z80Asm.Proofs.LineEndings
