import Z80Asm.Command.Run

/-! The program: reads the files that a command needs, runs it, and prints and writes what it
gives. -/

namespace Z80Asm.Command

def readText? (path : String) : IO (Option String) :=
  try return some (← IO.FS.readFile path) catch _ => return none

def isDirectory (path : String) : IO Bool := do
  ((← IO.currentDir) / path).isDir

/-- Reads `path` and all files it includes; `tried` holds the paths that have been looked for. -/
partial def readSources (workDir path : String) (tried : List String)
    (files : List (String × String)) : IO (List (String × String)) := do
  let (es, _) := Source.elementsOfFile (.ofDirectory workDir files) path
  let wanted := (path :: Source.candidates es).filter (!tried.contains ·)
  if wanted.isEmpty then return files
  let found ← wanted.filterMapM fun p => do return (← readText? p).map (p, ·)
  readSources workDir path (tried ++ wanted) (files ++ found)

/-- Where the history is kept. -/
def historyPath : IO String := do
  return Path.join ((← IO.getEnv "HOME").getD ".") historyName

def hostFor (path? : Option String) (outputs : List String) : IO Host := do
  let workDir := toString (← IO.currentDir)
  let files ← match path? with
    | none => pure []
    | some path => readSources workDir path [] []
  let directories ← (outputs.flatMap fun o =>
    let key := Path.key workDir o
    key :: ancestors key).filterM isDirectory
  return ⟨workDir, files, directories, "", ← readText? (← historyPath)⟩

/-- Answers lines from standard input, after those that are `pending`. -/
partial def converse (s : Session) (pending : List String) : IO Session := do
  let out ← IO.getStdout
  match pending with
  | input :: pending =>
    match s.enter input with
    | (.leaves, s') => return s'
    | (.shows text, s') =>
      out.putStr text
      converse s' pending
  | [] =>
    out.putStr "zasm> "
    out.flush
    let line ← (← IO.getStdin).getLine
    if line.isEmpty then
      out.putStrLn ""
      return s
    converse s (inputs line)

def deliver (o : Outcome) : IO UInt32 := do
  (← IO.getStdout).putStr o.stdout
  (← IO.getStderr).putStr o.stderr
  if let some (path, data) := o.image? then
    IO.FS.writeBinFile path ⟨data.toArray⟩
  return if o.failed then 1 else 0

def usage : String :=
  "usage: zasm asm FILE [-o FILE] [--symbols] [--listing] [--max-passes N]\n" ++
  "       zasm eval [FILE] [-e EXPR]...\n"

def execute : Invocation → IO UInt32
  | .help => do
    (← IO.getStdout).putStr usage
    return 0
  | .assemble path options => do
    let output := options.target path
    deliver (runAssemble (← hostFor (some path) [output]) path options)
  | .evaluate path? [] => do
    let host ← hostFor path? []
    let (table, ds) := symbolsOf host path?
    (← IO.getStderr).putStr (diagnosticLines ds)
    let s ← converse (Session.start host table) []
    try IO.FS.writeFile (← historyPath) s.historyText catch _ => pure ()
    return 0
  | .evaluate path? exprs => do
    deliver (runEvaluate (← hostFor path? []) path? exprs)

end Z80Asm.Command

def main (args : List String) : IO UInt32 :=
  match Z80Asm.Command.Invocation.ofArguments args with
  | .error e => Z80Asm.Command.deliver e.outcome
  | .ok i => Z80Asm.Command.execute i
