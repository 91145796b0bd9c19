/-! Scopes. A scope is written as segments `%N_`, innermost first, in front of the names declared in
it; the outermost scope is empty. -/

namespace Z80Asm.Scope

/-- What follows a segment at the start of a text. -/
def afterSegment? : List Char → Option (List Char)
  | '%' :: cs =>
    match cs.takeWhile Char.isDigit, cs.dropWhile Char.isDigit with
    | _ :: _, '_' :: rest => some rest
    | _, _ => none
  | _ => none

theorem length_of_afterSegment? {cs rest : List Char} (h : afterSegment? cs = some rest) :
    rest.length < cs.length := by
  unfold afterSegment? at h
  split at h
  · rename_i cs
    split at h
    · rename_i tail _ hd
      have := (List.dropWhile_suffix (p := Char.isDigit) (l := cs)).length_le
      simp_all
      omega
    · simp at h
  · simp at h

/-- The scope around a scope. -/
def outer (scope : List Char) : List Char := (afterSegment? scope).getD []

theorem length_outer_lt {scope : List Char} (h : scope ≠ []) :
    (outer scope).length < scope.length := by
  unfold outer
  cases hs : afterSegment? scope with
  | none => simpa using List.length_pos_iff.mpr h
  | some rest => simpa using length_of_afterSegment? hs

/-- A scope and those around it, from the inside out. -/
def enclosing (scope : List Char) : List (List Char) :=
  if _h : scope = [] then [[]] else scope :: enclosing (outer scope)
termination_by scope.length
decreasing_by exact length_outer_lt ‹_›

/-- A qualified name without its leading segments. -/
def strip (cs : List Char) : List Char :=
  match _h : afterSegment? cs with
  | some rest => strip rest
  | none => cs
termination_by cs.length
decreasing_by exact length_of_afterSegment? ‹_›

def bare (qualified : String) : String := String.ofList (strip qualified.toList)

/-- The leading segments of a qualified name. -/
def ofName (qualified : String) : String :=
  let cs := qualified.toList
  String.ofList (cs.take (cs.length - (strip cs).length))

/-- The scope with a stack of indices, outermost first. -/
def ofStack (stack : List Int) : String :=
  String.join (stack.reverse.map fun i => "%" ++ toString i ++ "_")

/-- A qualified name as messages show it: the bare name, and its scope if it has one. -/
def display (qualified : String) : String :=
  let scope := ofName qualified
  if scope.isEmpty then qualified else bare qualified ++ " (" ++ scope ++ ")"

end Z80Asm.Scope
