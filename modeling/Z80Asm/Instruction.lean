/-! The instruction set: which mnemonics and operands there are, and how they are encoded. -/

namespace Z80Asm.Instruction

/-- What becomes of the expression among the operands. -/
inductive Argument where
  | none
  /-- A byte after the opcode. -/
  | byte
  /-- A word after the opcode, low byte first. -/
  | word
  /-- A displacement after the opcode. -/
  | relative
  /-- A constant bit number in bits 3 to 5 of the last opcode byte. -/
  | bit
  /-- A constant restart address in bits 3 to 5 of the opcode. -/
  | restart
  /-- A constant interrupt mode, which chooses the second opcode byte. -/
  | mode
deriving DecidableEq, Repr

/-- How many bytes an argument takes after the opcode. -/
def Argument.width : Argument → Nat
  | none | bit | restart => 0
  | byte | relative | mode => 1
  | word => 2

/-- The form of an operand. -/
inductive Operand where
  /-- A register, a condition, or a register in parentheses. -/
  | word (w : String)
  | value
  /-- An expression in parentheses. -/
  | address
deriving DecidableEq, Repr

structure Entry where
  mnemonic : String
  operands : List Operand
  code : List UInt8
  argument : Argument
deriving DecidableEq, Repr

def bytes (code : List Nat) : List UInt8 := code.map UInt8.ofNat

def plain (mnemonic : String) (code : List Nat) : Entry := ⟨mnemonic, [], bytes code, .none⟩

def fixed (mnemonic : String) (operands : List String) (code : List Nat) : Entry :=
  ⟨mnemonic, operands.map .word, bytes code, .none⟩

def withArgument (mnemonic : String) (operands : List Operand) (code : List Nat)
    (argument : Argument) : Entry :=
  ⟨mnemonic, operands, bytes code, argument⟩

def plainEntries : List Entry :=
  [plain "nop" [0x00], plain "halt" [0x76], plain "di" [0xF3], plain "ei" [0xFB],
   plain "exx" [0xD9], plain "rlca" [0x07], plain "rrca" [0x0F], plain "rla" [0x17],
   plain "rra" [0x1F], plain "daa" [0x27], plain "cpl" [0x2F], plain "scf" [0x37],
   plain "ccf" [0x3F], plain "ret" [0xC9], plain "neg" [0xED, 0x44], plain "retn" [0xED, 0x45],
   plain "reti" [0xED, 0x4D], plain "rrd" [0xED, 0x67], plain "rld" [0xED, 0x6F],
   plain "ldi" [0xED, 0xA0], plain "cpi" [0xED, 0xA1], plain "ini" [0xED, 0xA2],
   plain "outi" [0xED, 0xA3], plain "ldd" [0xED, 0xA8], plain "cpd" [0xED, 0xA9],
   plain "ind" [0xED, 0xAA], plain "outd" [0xED, 0xAB], plain "ldir" [0xED, 0xB0],
   plain "cpir" [0xED, 0xB1], plain "inir" [0xED, 0xB2], plain "otir" [0xED, 0xB3],
   plain "lddr" [0xED, 0xB8], plain "cpdr" [0xED, 0xB9], plain "indr" [0xED, 0xBA],
   plain "otdr" [0xED, 0xBB]]

def specialEntries : List Entry :=
  [fixed "ld" ["a", "(bc)"] [0x0A], fixed "ld" ["a", "(de)"] [0x1A],
   fixed "ld" ["(bc)", "a"] [0x02], fixed "ld" ["(de)", "a"] [0x12],
   fixed "ld" ["sp", "hl"] [0xF9], fixed "ld" ["a", "i"] [0xED, 0x57],
   fixed "ld" ["a", "r"] [0xED, 0x5F], fixed "ld" ["i", "a"] [0xED, 0x47],
   fixed "ld" ["r", "a"] [0xED, 0x4F],
   withArgument "ld" [.word "a", .address] [0x3A] .word,
   withArgument "ld" [.address, .word "a"] [0x32] .word,
   withArgument "ld" [.word "hl", .address] [0x2A] .word,
   withArgument "ld" [.address, .word "hl"] [0x22] .word,
   fixed "ex" ["de", "hl"] [0xEB], fixed "ex" ["af", "af'"] [0x08],
   fixed "ex" ["(sp)", "hl"] [0xE3],
   withArgument "jp" [.value] [0xC3] .word, fixed "jp" ["(hl)"] [0xE9],
   withArgument "call" [.value] [0xCD] .word,
   withArgument "jr" [.value] [0x18] .relative, withArgument "djnz" [.value] [0x10] .relative,
   withArgument "out" [.address, .word "a"] [0xD3] .byte,
   withArgument "in" [.word "a", .address] [0xDB] .byte,
   withArgument "rst" [.value] [0xC7] .restart, withArgument "im" [.value] [0xED] .mode]

def registers : List String := ["b", "c", "d", "e", "h", "l", "(hl)", "a"]

def registerPairs : List String := ["bc", "de", "hl", "sp"]

def stackPairs : List String := ["bc", "de", "hl", "af"]

def conditions : List String := ["nz", "z", "nc", "c", "po", "pe", "p", "m"]

/-- The operations on the accumulator, and the operand that some of them name first. -/
def accumulatorOps : List (String × List String) :=
  [("add", ["a"]), ("adc", ["a"]), ("sub", []), ("sbc", ["a"]), ("and", []), ("xor", []),
   ("or", []), ("cp", [])]

def shifts : List String := ["rlc", "rrc", "rl", "rr", "sla", "sra", "sll", "srl"]

/-- Entries with the register `r` of number `i`. -/
def registerEntries (r : String) (i : Nat) : List Entry :=
  (registers.zipIdx.filterMap fun (s, j) =>
    if r = "(hl)" ∧ s = "(hl)" then none else some (fixed "ld" [r, s] [0x40 + 8 * i + j])) ++
  [withArgument "ld" [.word r, .value] [0x06 + 8 * i] .byte,
   fixed "inc" [r] [0x04 + 8 * i], fixed "dec" [r] [0x05 + 8 * i]] ++
  (accumulatorOps.zipIdx.map fun ((op, first), k) => fixed op (first ++ [r]) [0x80 + 8 * k + i]) ++
  (shifts.zipIdx.map fun (op, k) => fixed op [r] [0xCB, 8 * k + i]) ++
  [withArgument "bit" [.value, .word r] [0xCB, 0x40 + i] .bit,
   withArgument "res" [.value, .word r] [0xCB, 0x80 + i] .bit,
   withArgument "set" [.value, .word r] [0xCB, 0xC0 + i] .bit] ++
  (if r = "(hl)" then []
   else [fixed "in" [r, "(c)"] [0xED, 0x40 + 8 * i], fixed "out" ["(c)", r] [0xED, 0x41 + 8 * i]])

def immediateEntries : List Entry :=
  accumulatorOps.zipIdx.map fun ((op, first), k) =>
    withArgument op (first.map .word ++ [.value]) [0xC6 + 8 * k] .byte

/-- Entries with the register pair `rr` of number `i`. -/
def pairEntries (rr : String) (i : Nat) : List Entry :=
  [withArgument "ld" [.word rr, .value] [0x01 + 16 * i] .word,
   fixed "inc" [rr] [0x03 + 16 * i], fixed "dec" [rr] [0x0B + 16 * i],
   fixed "add" ["hl", rr] [0x09 + 16 * i], fixed "adc" ["hl", rr] [0xED, 0x4A + 16 * i],
   fixed "sbc" ["hl", rr] [0xED, 0x42 + 16 * i]] ++
  (if rr = "hl" then []
   else
    [withArgument "ld" [.word rr, .address] [0xED, 0x4B + 16 * i] .word,
     withArgument "ld" [.address, .word rr] [0xED, 0x43 + 16 * i] .word])

def stackEntries (qq : String) (i : Nat) : List Entry :=
  [fixed "push" [qq] [0xC5 + 16 * i], fixed "pop" [qq] [0xC1 + 16 * i]]

/-- Entries with the condition `cc` of number `i`; relative jumps know the first four. -/
def conditionEntries (cc : String) (i : Nat) : List Entry :=
  [withArgument "jp" [.word cc, .value] [0xC2 + 8 * i] .word,
   withArgument "call" [.word cc, .value] [0xC4 + 8 * i] .word,
   fixed "ret" [cc] [0xC0 + 8 * i]] ++
  (if i < 4 then [withArgument "jr" [.word cc, .value] [0x20 + 8 * i] .relative] else [])

/-- All instructions. -/
def table : List Entry :=
  plainEntries ++ specialEntries ++
  registers.zipIdx.flatMap (fun (r, i) => registerEntries r i) ++
  immediateEntries ++
  registerPairs.zipIdx.flatMap (fun (rr, i) => pairEntries rr i) ++
  stackPairs.zipIdx.flatMap (fun (qq, i) => stackEntries qq i) ++
  conditions.zipIdx.flatMap (fun (cc, i) => conditionEntries cc i)

def isMnemonic (name : String) : Bool := table.any (·.mnemonic = name)

/-- The operands that are words of the instruction set and not expressions. -/
def operandWords : List String :=
  ["i", "r", "af", "af'", "(bc)", "(de)", "(sp)", "(c)"] ++ registers ++ registerPairs ++
  stackPairs ++ conditions

def find? (mnemonic : String) (operands : List Operand) : Option Entry :=
  table.find? fun e => e.mnemonic = mnemonic && e.operands = operands

/-- The second opcode byte of the interrupt modes. -/
def modeByte (mode : Nat) : UInt8 :=
  match mode with
  | 0 => 0x46
  | 1 => 0x56
  | _ => 0x5E

end Z80Asm.Instruction
