import Z80Asm.Command.Flags

/-! What a command line asks for. -/

namespace Z80Asm.Command

/-- Flags that every command takes. They say what is logged and where to, and change nothing
else. -/
def commonFlags : List Flag :=
  [⟨"verbose", none, .switch⟩, ⟨"trace", none, .switch⟩, ⟨"v", some 'v', .number⟩,
   ⟨"vmodule", none, .text⟩, ⟨"logtostderr", none, .switch⟩, ⟨"alsologtostderr", none, .switch⟩,
   ⟨"stderrthreshold", none, .text⟩, ⟨"log_dir", none, .text⟩, ⟨"log_link", none, .text⟩,
   ⟨"logbuflevel", none, .number⟩, ⟨"log_backtrace_at", none, .text⟩]

/-- The flag that asks for help. A command line that has it is still read to its end. -/
def helpFlag : Flag := ⟨"help", some 'h', .switch⟩

def assembleFlags : List Flag :=
  [⟨"output", some 'o', .text⟩, ⟨"symbols", none, .switch⟩, ⟨"listing", none, .switch⟩,
   ⟨"dump", none, .switch⟩, ⟨"max-passes", none, .number⟩, helpFlag] ++ commonFlags

def evaluateFlags : List Flag := [⟨"expr", some 'e', .text⟩, helpFlag] ++ commonFlags

structure AssembleOptions where
  /-- Where to write the image; by default beside the source. -/
  output : String := ""
  symbols : Bool := false
  listing : Bool := false
  passes : Int := 0
deriving DecidableEq, Repr

inductive Invocation where
  | assemble (path : String) (options : AssembleOptions)
  | evaluate (path? : Option String) (exprs : List String)
  | help
deriving DecidableEq, Repr

def startsWithDash (arg : String) : Bool := arg.toList.head? = some '-'

/-- The argument after this one is its value, as far as one can tell from `flags`. -/
def takesNext (flags : List Flag) (arg : String) : Bool :=
  match arg.toList with
  | '-' :: '-' :: name =>
    !name.contains '=' &&
      !flags.any fun f => f.name = String.ofList name && f.kind = .switch
  | ['-', c] =>
    Text.isAscii c && c ≠ '=' && !flags.any fun f => f.short? = some c && f.kind = .switch
  | _ => false

/-- The arguments that are neither flags nor their values. A flag whose value would be the last
argument ends the search. -/
def words (flags : List Flag) : List String → List String
  | [] => []
  | arg :: args =>
    if arg = "--" then []
    else if takesNext flags arg then
      match args with
      | [] | [_] => []
      | _ :: args => words flags args
    else if arg.isEmpty || startsWithDash arg then words flags args
    else arg :: words flags args

/-- The arguments without the first that is the word `x`. -/
def dropWord (flags : List Flag) (x : String) : List String → List String
  | [] => []
  | arg :: args =>
    if arg = "--" then arg :: args
    else if takesNext flags arg then
      match args with
      | [] => [arg]
      | value :: args => arg :: value :: dropWord flags x args
    else if arg = x && !startsWithDash arg then args
    else arg :: dropWord flags x args

/-- One row of the table of edit distances, from the row above it: `corner` is the number to the
upper left and `left` the one before. -/
def distanceRow (b : UInt8) (corner left : Nat) : List UInt8 → List Nat → List Nat
  | a :: as, above :: more =>
    let d := if a = b then corner else min corner (min above left) + 1
    d :: distanceRow b above d as more
  | _, _ => []

/-- How many bytes have to be inserted, deleted or replaced to get from `s` to `t`. -/
def editDistance (s t : List UInt8) : Nat :=
  let rows := t.zipIdx.foldl
    (fun row (b, i) =>
      match row with
      | corner :: above => (i + 1) :: distanceRow b corner (i + 1) s above
      | [] => [])
    (List.range (s.length + 1))
  rows.getLastD 0

/-- The names that can be suggested for a command. -/
def commandNames : List String := ["asm", "eval", "completion"]

/-- Commands that begin with `typed` or differ from it in two places at most. -/
def similarCommands (typed : String) : List String :=
  let typed := Text.lower typed
  commandNames.filter fun name =>
    editDistance (Text.bytes typed) (Text.bytes name) ≤ 2 ||
      typed.toList.isPrefixOf name.toList

def readAssemble (args : List String) : Except UsageError Invocation := do
  let a ← read assembleFlags args
  if a.switch helpFlag.name then pure .help
  else match a.positional with
    | [path] =>
      pure (.assemble path
        { output := (a.texts "output").getLastD ""
          symbols := a.switch "symbols"
          listing := a.switch "listing"
          passes := (a.number? "max-passes").getD 0 })
    | others => throw (.exactArguments 1 others.length)

def readEvaluate (args : List String) : Except UsageError Invocation := do
  let a ← read evaluateFlags args
  if a.switch helpFlag.name then pure .help
  else match a.positional with
    | [] => pure (.evaluate none (a.texts "expr"))
    | [path] => pure (.evaluate (some path) (a.texts "expr"))
    | others => throw (.atMostArguments 1 others.length)

/-- Reads a command line. The first word is the command, wherever it stands. -/
def Invocation.ofArguments (args : List String) : Except UsageError Invocation :=
  match words commonFlags args with
  | "asm" :: _ => readAssemble (dropWord commonFlags "asm" args)
  | "eval" :: _ => readEvaluate (dropWord commonFlags "eval" args)
  | "help" :: _ | "completion" :: _ => .ok .help
  | name :: _ => .error (.unknownCommand name (similarCommands name))
  | [] => (read (helpFlag :: commonFlags) args).map fun _ => .help

end Z80Asm.Command
