import Z80Asm.Datum
import Z80Asm.Number

/-! Command-line flags. A flag is `--name` or `-n`; a switch may stand alone, and any other takes
its value after an equals sign or from the next argument. -/

namespace Z80Asm.Command

inductive FlagKind where
  | switch
  | text
  | number
deriving DecidableEq, Repr

structure Flag where
  name : String
  short? : Option Char
  kind : FlagKind
deriving DecidableEq, Repr

/-- The flag as error messages name it. -/
def Flag.title (f : Flag) : String :=
  (f.short?.elim "" fun c => "-" ++ c.toString ++ ", ") ++ "--" ++ f.name

inductive FlagValue where
  | switch (on : Bool)
  | text (s : String)
  | number (n : Int)
deriving DecidableEq, Repr

inductive UsageError where
  | badFlag (arg : String)
  | unknownFlag (name : String)
  | unknownShort (c : Char) (group : String)
  | missingValue (arg : String)
  | missingShortValue (c : Char) (group : String)
  | notSwitch (flag : Flag) (value : String)
  | notNumber (flag : Flag) (value : String)
  | numberRange (flag : Flag) (value : String)
  | exactArguments (want got : Nat)
  | atMostArguments (want got : Nat)
  | unknownCommand (name : String) (similar : List String)
deriving DecidableEq, Repr

/-- The message about a value that a flag does not take. -/
def badValue (flag : Flag) (value reader reason : String) : String :=
  "invalid argument " ++ Text.quote value ++ " for " ++ Text.quote flag.title ++ " flag: " ++
    reader ++ ": parsing " ++ Text.quote value ++ ": " ++ reason

def UsageError.message : UsageError → String
  | badFlag arg => "bad flag syntax: " ++ arg
  | unknownFlag name => "unknown flag: --" ++ name
  | unknownShort c group => "unknown shorthand flag: " ++ Text.quoteChar c ++ " in -" ++ group
  | missingValue arg => "flag needs an argument: " ++ arg
  | missingShortValue c group =>
    "flag needs an argument: " ++ Text.quoteChar c ++ " in -" ++ group
  | notSwitch flag value => badValue flag value "strconv.ParseBool" "invalid syntax"
  | notNumber flag value => badValue flag value "strconv.ParseInt" "invalid syntax"
  | numberRange flag value => badValue flag value "strconv.ParseInt" "value out of range"
  | exactArguments want got =>
    "accepts " ++ toString want ++ " arg(s), received " ++ toString got
  | atMostArguments want got =>
    "accepts at most " ++ toString want ++ " arg(s), received " ++ toString got
  | unknownCommand name similar =>
    "unknown command " ++ Text.quote name ++ " for \"zasm\"" ++
      if similar.isEmpty then ""
      else "\n\nDid you mean this?\n" ++ String.join (similar.map fun s => "\t" ++ s ++ "\n")

def switchValue? (s : String) : Option Bool :=
  if ["1", "t", "T", "TRUE", "true", "True"].contains s then some true
  else if ["0", "f", "F", "FALSE", "false", "False"].contains s then some false
  else none

/-- The outcome of reading a number. -/
inductive NumberReading where
  | ok (n : Int)
  | malformed
  | tooLarge
deriving DecidableEq, Repr

/-- Reads digits until one is wrong or the number no longer fits 64 bits. Underscores count for
nothing. -/
def readDigits (radix acc : Nat) : List Char → NumberReading
  | [] => .ok acc
  | '_' :: cs => readDigits radix acc cs
  | c :: cs =>
    match Number.digitIn? radix c with
    | none => .malformed
    | some d =>
      let n := acc * radix + d
      if n < Number.wordLimit then readDigits radix n cs else .tooLarge

/-- Underscores stand only between digits. -/
def underscoresSeparate : List Char → Bool
  | [] => true
  | ['_'] => false
  | '_' :: '_' :: _ => false
  | _ :: cs => underscoresSeparate cs

/-- The magnitude of a number: decimal, or marked `0x`, `0b`, `0o` or `0`. A number that is too
large is reported before misplaced underscores. -/
def readMagnitude (cs : List Char) : NumberReading :=
  let (radix, digits, marked) : Nat × List Char × Bool := match cs with
    | '0' :: 'x' :: d :: ds => (16, d :: ds, true)
    | '0' :: 'o' :: d :: ds => (8, d :: ds, true)
    | '0' :: 'b' :: d :: ds => (2, d :: ds, true)
    | '0' :: ds => (8, ds, true)
    | _ => (10, cs, false)
  match readDigits radix 0 digits with
  | .ok n =>
    if cs.isEmpty || !marked && digits.head? = some '_' || !underscoresSeparate digits then
      .malformed
    else .ok n
  | other => other

/-- Reads a number with an optional sign. -/
def readNumber (s : String) : NumberReading :=
  let cs := s.toList.map Char.toLower
  let (negative, magnitude) := match cs with
    | '-' :: ds => (true, ds)
    | '+' :: ds => (false, ds)
    | _ => (false, cs)
  match readMagnitude magnitude with
  | .ok n =>
    if negative then if n ≤ Number.signedLimit then .ok (-n) else .tooLarge
    else if n < Number.signedLimit then .ok n else .tooLarge
  | other => other

def Flag.read (f : Flag) (value : String) : Except UsageError FlagValue :=
  match f.kind with
  | .text => .ok (.text value)
  | .switch =>
    match switchValue? value with
    | some b => .ok (.switch b)
    | none => .error (.notSwitch f value)
  | .number =>
    match readNumber value with
    | .ok n => .ok (.number n)
    | .malformed => .error (.notNumber f value)
    | .tooLarge => .error (.numberRange f value)

/-- Flags in the order in which they were given, and the other arguments. -/
structure Arguments where
  settings : List (String × FlagValue) := []
  positional : List String := []
deriving DecidableEq, Repr

namespace Arguments

def switch (a : Arguments) (name : String) : Bool :=
  match (a.settings.filter (·.1 = name)).getLast? with
  | some (_, .switch b) => b
  | _ => false

def texts (a : Arguments) (name : String) : List String :=
  a.settings.filterMap fun s =>
    match s with
    | (n, .text t) => if n = name then some t else none
    | _ => none

def number? (a : Arguments) (name : String) : Option Int :=
  match (a.settings.filter (·.1 = name)).getLast? with
  | some (_, .number n) => some n
  | _ => none

def set (a : Arguments) (f : Flag) (value : String) : Except UsageError Arguments :=
  (f.read value).map fun v => { a with settings := a.settings ++ [(f.name, v)] }

def position (a : Arguments) (arg : String) : Arguments :=
  { a with positional := a.positional ++ [arg] }

end Arguments

/-- What one argument asks for. -/
inductive Reading where
  | done (a : Arguments)
  /-- The next argument is the value of the flag; the error stands if there is none. -/
  | wants (f : Flag) (a : Arguments) (missing : UsageError)

/-- Reads a flag with a long name, given without its dashes. -/
def readLong (flags : List Flag) (a : Arguments) (body : List Char) : Except UsageError Reading :=
  let arg := String.ofList ('-' :: '-' :: body)
  if body.head?.any fun c => c = '-' || c = '=' then .error (.badFlag arg)
  else
    let name := String.ofList (body.takeWhile (· ≠ '='))
    match flags.find? (·.name = name) with
    | none => .error (.unknownFlag name)
    | some f =>
      match body.dropWhile (· ≠ '='), f.kind with
      | _ :: value, _ => (a.set f (String.ofList value)).map .done
      | [], .switch => (a.set f "true").map .done
      | [], _ => .ok (.wants f a (.missingValue arg))

/-- Reads a group of flags with short names, given without its dash. From `test.` on it is passed
over. -/
def readGroup (flags : List Flag) (a : Arguments) : List Char → Except UsageError Reading
  | [] | 't' :: 'e' :: 's' :: 't' :: '.' :: _ => .ok (.done a)
  | c :: rest =>
    let group := String.ofList (c :: rest)
    let first := Char.ofNat ((Text.bytes group).headD 0).toNat
    match flags.find? (·.short? = some c) with
    | none => .error (.unknownShort first group)
    | some f =>
      match rest, f.kind with
      | '=' :: v :: value, _ => (a.set f (String.ofList (v :: value))).map .done
      | _, .switch => do readGroup flags (← a.set f "true") rest
      | [], _ => .ok (.wants f a (.missingShortValue first group))
      | value, _ => (a.set f (String.ofList value)).map .done

/-- Reads all arguments. Flags may stand between the others, up to a lone `--`. -/
def readFrom (flags : List Flag) (a : Arguments) : List String → Except UsageError Arguments
  | [] => .ok a
  | arg :: args =>
    match arg.toList with
    | ['-', '-'] => .ok { a with positional := a.positional ++ args }
    | '-' :: c :: cs =>
      let reading := if c = '-' then readLong flags a cs else readGroup flags a (c :: cs)
      match reading with
      | .error e => .error e
      | .ok (.done a) => readFrom flags a args
      | .ok (.wants f a missing) =>
        match args with
        | [] => .error missing
        | value :: args =>
          match a.set f value with
          | .error e => .error e
          | .ok a => readFrom flags a args
    | _ => readFrom flags (a.position arg) args

def read (flags : List Flag) (args : List String) : Except UsageError Arguments :=
  readFrom flags {} args

end Z80Asm.Command
