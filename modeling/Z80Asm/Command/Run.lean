import Z80Asm.Assembly
import Z80Asm.Command.Invocation
import Z80Asm.Source.Include

/-! Running a command: what it prints and which files it writes. -/

namespace Z80Asm.Command

/-- What a command can see of the machine it runs on. -/
structure Host where
  workDir : String
  /-- Files by path. -/
  files : List (String × String)
  /-- The keys of the directories that exist. -/
  directories : List String
  stdin : String
  /-- The history of earlier sessions, if there is one. -/
  history? : Option String

/-- The directories above a path, innermost first. -/
def ancestors (path : String) : List String :=
  let components := (Text.pieces '/' path.toList).filter (· ≠ [])
  (List.range components.length).reverse.map fun n =>
    String.ofList ('/' :: Path.joinComponents (components.take n))

/-- The name of the file that keeps the history. -/
def historyName : String := ".zasm_history"

/-- The file that the image of the source at `path` goes to. -/
def AssembleOptions.target (options : AssembleOptions) (path : String) : String :=
  if options.output.isEmpty then Path.replaceExtension path ".bin" else options.output

/-- A machine with nothing but some files of the working directory. -/
def Host.ofDirectory (workDir : String) (files : List (String × String)) (stdin : String) :
    Host where
  workDir
  files
  directories := workDir :: ancestors workDir ++ files.flatMap fun f =>
    ancestors (Path.key workDir f.1)
  stdin
  history? :=
    (files.find? fun f => Path.key workDir f.1 = Path.key workDir historyName).map Prod.snd

namespace Host

def library (h : Host) : Source.Library := .ofDirectory h.workDir h.files

def content? (h : Host) (key : String) : Option String :=
  (h.files.find? fun f => Path.key h.workDir f.1 = key).map Prod.snd

/-- How many bytes the name of a file may take. -/
def nameLimit : Nat := 255

/-- Why a file cannot be written, going through its path from the directory `dir` on. -/
def writeFault? (h : Host) (dir : String) : List (List Char) → Option String
  | [] => some "is a directory"
  | component :: more =>
    if component = [] || component = ['.'] then writeFault? h dir more
    else if component = ['.', '.'] then writeFault? h (Path.parent dir) more
    else if nameLimit < (Text.bytes (String.ofList component)).length then
      some "file name too long"
    else
      let path := Path.join dir (String.ofList component)
      if h.directories.contains path then writeFault? h path more
      else if more.isEmpty then none
      else if (h.content? path).isSome then some "not a directory"
      else if more.all fun c => c = [] then some "is a directory"
      else some "no such file or directory"

end Host

/-- What a run leaves behind. -/
structure Outcome where
  failed : Bool := false
  stdout : String := ""
  stderr : String := ""
  /-- The image and where it goes. -/
  image? : Option (String × List UInt8) := none
  /-- The new history. -/
  history? : Option String := none

/-- The files that a run has made or changed, by key. -/
def Outcome.written (o : Outcome) (h : Host) : List (String × List UInt8) :=
  let image := o.image?.toList.map fun (path, data) => (Path.key h.workDir path, data)
  let history := o.history?.toList.map fun text =>
    (Path.key h.workDir historyName, Text.bytes text)
  (image ++ history).filter fun (key, data) =>
    !h.directories.contains key && (h.content? key).map Text.bytes ≠ some data

def line (s : String) : String := s ++ "\n"

/-- A source file assembled, with the problems of both reading and assembling it. -/
def assembleFile (h : Host) (path : String) (passes : Int) : Assembly × List Diagnostic :=
  let (es, ds) := Source.elementsOfFile h.library path
  let a := Assembly.assemble es passes
  (a, ds ++ a.diagnostics)

def diagnosticLines (ds : List Diagnostic) : String := String.join (ds.map fun d => line d.render)

def errorLine (message : String) : String := line ("Error: " ++ message)

def runAssemble (h : Host) (path : String) (options : AssembleOptions) : Outcome :=
  let (a, ds) := assembleFile h path options.passes
  let shown := (if options.symbols then a.table.dump else "") ++
    (if options.listing then Image.listing a.program else "")
  let stderr := diagnosticLines ds
  if !ds.isEmpty then
    { failed := true
      stdout := shown
      stderr := stderr ++ errorLine ("assembly failed: " ++ toString ds.length ++ " errors") }
  else
    let output := options.target path
    let root := if Path.isAbsolute output.toList then "/" else h.workDir
    match h.writeFault? root (Text.pieces '/' output.toList) with
    | some reason =>
      { failed := true
        stdout := shown
        stderr := errorLine ("failed to write binary file " ++ Text.quote output ++ ": open " ++
          output ++ ": " ++ reason) }
    | none =>
      { stdout := shown ++ line ("assembled " ++ toString a.bytes.length ++ " bytes at 0x" ++
          Word.hex 4 a.origin ++ " -> " ++ output)
        image? := some (output, a.bytes) }

/-- The value of an expression text, or the message of what is wrong with it. -/
def evaluateText (t : SymbolTable) (text : String) : Except String Datum :=
  match Expr.parse text with
  | .error e => .error e.message
  | .ok e =>
    match e.eval t.lookup with
    | .error e => .error e.message
    | .ok d => .ok d

/-- Evaluates expressions; errors come last, all together. -/
def runExpressions (t : SymbolTable) (exprs : List String) : Outcome :=
  let results := exprs.map fun text => (text, evaluateText t text)
  let stdout := String.join (results.map fun (_, r) =>
    match r with
    | .ok d => line d.display
    | .error _ => "")
  let errors := results.filterMap fun (text, r) =>
    match r with
    | .ok _ => none
    | .error e => some (text ++ ": " ++ e)
  if errors.isEmpty then { stdout }
  else { failed := true, stdout, stderr := errorLine ("\n".intercalate errors) }

/-- How many lines the history keeps. -/
def historyLimit : Nat := 1000

/-- Adds a line to the history, unless it repeats the last one. -/
def remember (history : List String) (text : String) : List String :=
  if history.getLast? = some text then history
  else
    let longer := history ++ [text]
    longer.drop (longer.length - historyLimit)

/-- A session at the prompt: the symbols in scope and the lines entered so far. -/
structure Session where
  table : SymbolTable
  history : List String

/-- The answer to a line. -/
inductive Reply where
  | shows (text : String)
  | leaves

/-- Answers a line. All but commands goes into the history. -/
def Session.enter (s : Session) (input : String) : Reply × Session :=
  let text := String.ofList (Text.trim input.toList)
  if text.isEmpty then (.shows "", s)
  else if text = ":q" || text = ":quit" then (.leaves, s)
  else if text = ":syms" then (.shows s.table.dump, s)
  else
    let shown := match evaluateText s.table text with
      | .ok d => d.display
      | .error e => "error: " ++ e
    (.shows (line shown), { s with history := remember s.history text })

/-- Answers line after line until the input ends or the user leaves. -/
def Session.run (s : Session) (stdout : String) : List String → Session × String
  | [] => (s, line stdout)
  | input :: more =>
    match s.enter input with
    | (.leaves, s') => (s', stdout)
    | (.shows text, s') => s'.run (stdout ++ text) more

/-- How many bytes of a line are read at once. -/
def readSize : Nat := 4096

/-- The inputs in a text from the user. What does not fit into one read is an input of its own. -/
def inputs (text : String) : List String :=
  ((Text.lines text.toList).flatMap (Text.chunks readSize)).map String.ofList

/-- A session that goes on from the history of earlier ones, up to the first line that does not fit
into one read. -/
def Session.start (h : Host) (table : SymbolTable) : Session :=
  let earlier := (Text.lines (h.history?.getD "").toList).map String.ofList
  let earlier := earlier.takeWhile fun l => (Text.bytes l).length < readSize
  ⟨table, earlier.drop (earlier.length - historyLimit)⟩

def Session.historyText (s : Session) : String := String.join (s.history.map line)

def runPrompt (h : Host) (table : SymbolTable) : Outcome :=
  let (s, stdout) := (Session.start h table).run "" (inputs h.stdin)
  { stdout, history? := some s.historyText }

/-- The symbols that expressions can use, and the problems of assembling their source. -/
def symbolsOf (h : Host) (path? : Option String) : SymbolTable × List Diagnostic :=
  match path? with
  | none => (.empty, [])
  | some path => let (a, ds) := assembleFile h path 0; (a.table, ds)

def runEvaluate (h : Host) (path? : Option String) (exprs : List String) : Outcome :=
  let (table, ds) := symbolsOf h path?
  let o := if exprs.isEmpty then runPrompt h table else runExpressions table exprs
  { o with stderr := diagnosticLines ds ++ o.stderr }

def Invocation.run (h : Host) : Invocation → Outcome
  | .assemble path options => runAssemble h path options
  | .evaluate path? exprs => runEvaluate h path? exprs
  | .help => {}

/-- The outcome of a command line that cannot be understood. -/
def UsageError.outcome (e : UsageError) : Outcome :=
  let hint := match e with
    | .unknownCommand .. => "Run 'zasm --help' for usage.\n"
    | _ => ""
  { failed := true, stderr := errorLine e.message ++ hint }

/-- Runs a command line. -/
def run (h : Host) (args : List String) : Outcome :=
  match Invocation.ofArguments args with
  | .error e => e.outcome
  | .ok i => i.run h

end Z80Asm.Command
