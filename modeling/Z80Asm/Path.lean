import Z80Asm.Text.Lines

/-! File paths, as far as they can be understood without looking at the disk. -/

namespace Z80Asm.Path

def isAbsolute (path : List Char) : Bool := path.head? = some '/'

/-- Takes one component into a list of components, innermost first. Two dots cancel the component
before them, or go above a relative path; the root has nothing above it. -/
def push (rooted : Bool) (acc : List (List Char)) (component : List Char) : List (List Char) :=
  if component = [] || component = ['.'] then acc
  else if component = ['.', '.'] then
    match acc with
    | [] => if rooted then [] else [component]
    | last :: before => if last = ['.', '.'] then component :: acc else before
  else component :: acc

def joinComponents (components : List (List Char)) : List Char :=
  (components.intersperse ['/']).flatten

/-- The shortest path with the same meaning. -/
def cleanChars (path : List Char) : List Char :=
  let rooted := isAbsolute path
  let components := ((Text.pieces '/' path).foldl (push rooted) []).reverse
  match rooted, components with
  | true, _ => '/' :: joinComponents components
  | false, [] => ['.']
  | false, _ => joinComponents components

def clean (path : String) : String := String.ofList (cleanChars path.toList)

/-- `path` as seen from the directory `dir`. -/
def join (dir path : String) : String :=
  if dir.isEmpty then if path.isEmpty then "" else clean path else clean (dir ++ "/" ++ path)

/-- What follows the last slash. -/
def base (path : List Char) : List Char := (path.reverse.takeWhile (· ≠ '/')).reverse

/-- The directory that holds a path. -/
def parent (path : String) : String :=
  let cs := path.toList
  String.ofList (cleanChars (cs.take (cs.length - (base cs).length)))

/-- The part of the last component from its last dot on. -/
def extension (path : List Char) : List Char :=
  let last := base path
  if last.contains '.' then '.' :: (last.reverse.takeWhile (· ≠ '.')).reverse else []

/-- The path with another extension. -/
def replaceExtension (path ext : String) : String :=
  let cs := path.toList
  String.ofList (cs.take (cs.length - (extension cs).length)) ++ ext

/-- The path made absolute in the working directory: two paths with one key name one file. -/
def key (workDir path : String) : String :=
  if isAbsolute path.toList then clean path else join workDir path

/-- The path of a file that `source` names: relative to the file that names it. -/
def resolve (source path : String) : String :=
  if isAbsolute path.toList then clean path else join (parent source) path

end Z80Asm.Path
