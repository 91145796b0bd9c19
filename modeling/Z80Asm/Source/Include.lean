import Z80Asm.Path
import Z80Asm.Source.Statement

/-! Programs that consist of several files. -/

namespace Z80Asm.Source

/-- Where source files come from. -/
structure Library where
  workDir : String
  /-- The lines of a file, if there is one with that path. -/
  load? : String → Option (List String)
  /-- The keys of all files. -/
  keys : List String

/-- Files in memory; a path is looked up in its shortest form. -/
def Library.ofFiles (workDir : String) (files : List (String × List String)) : Library where
  workDir
  load? path := files.lookup (Path.clean path)
  keys := files.map fun f => Path.key workDir f.1

/-- Files of the working directory, by relative path. -/
def Library.ofDirectory (workDir : String) (files : List (String × String)) : Library where
  workDir
  load? path :=
    (files.find? fun f => Path.key workDir f.1 = Path.key workDir path).map fun f =>
      Text.splitLines f.2
  keys := files.map fun f => Path.key workDir f.1

/-- The path under which an included file is found: first from the file that includes it, then as it
is written. -/
def Library.locate (lib : Library) (source path : String) : Except String (String × List String) :=
  let near := Path.resolve source path
  match lib.load? near with
  | some lines => .ok (near, lines)
  | none =>
    match lib.load? path with
    | some lines => .ok (path, lines)
    | none => .error path

/-- The keys other than `key`. -/
def without (keys : List String) (key : String) : List String := keys.filter (· ≠ key)

theorem length_without_lt {keys : List String} {key : String} (h : key ∈ keys) :
    (without keys key).length < keys.length :=
  List.length_filter_lt_length_iff_exists.mpr ⟨key, h, by simp⟩

/-- Follows every element that includes a file by the elements of that file. `fresh` holds the keys
of the files that are not being read. -/
def follow (lib : Library) (fresh : List String) (source : String) (es : List Element) :
    List Element × List Diagnostic :=
  match es with
  | [] => ([], [])
  | e :: es =>
    let (rest, ds) := follow lib fresh source es
    match e.stmt with
    | .includeFile path =>
      match lib.locate source path with
      | .error tried => (e :: rest, ⟨.includeNotFound path tried, e.loc⟩ :: ds)
      | .ok (found, lines) =>
        let key := Path.key lib.workDir found
        if _h : key ∈ fresh then
          let (inner, ds₁) := elementsOfLines found lines
          let (inner', ds₂) := follow lib (without fresh key) found inner
          (e :: inner' ++ rest, ds₁ ++ ds₂ ++ ds)
        else (e :: rest, ⟨.includeCycle path, e.loc⟩ :: ds)
    | _ => (e :: rest, ds)
termination_by (fresh.length, es.length)
decreasing_by
  · exact Prod.Lex.right _ (by simp)
  · exact Prod.Lex.left _ _ (length_without_lt ‹_›)

/-- The elements of a file and of all files that it includes. -/
def elementsOfFile (lib : Library) (path : String) : List Element × List Diagnostic :=
  match lib.load? path with
  | none => ([], [⟨.fileNotFound path, ⟨path, 0⟩⟩])
  | some lines =>
    let (es, ds₁) := elementsOfLines path lines
    let (es', ds₂) := follow lib (without lib.keys (Path.key lib.workDir path)) path es
    (es', ds₁ ++ ds₂)

/-- The paths under which the files that elements include may be found. -/
def candidates (es : List Element) : List String :=
  es.flatMap fun e =>
    match e.stmt with
    | .includeFile path => [Path.resolve e.loc.file path, path]
    | _ => []

end Z80Asm.Source
