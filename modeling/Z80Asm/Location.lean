/-! Places in source files. -/

namespace Z80Asm

/-- A line of a file. An empty file name or a line below one means that it is not known. -/
structure Location where
  file : String := ""
  line : Int := 0
deriving DecidableEq, Repr, Inhabited

def Location.render (l : Location) : String :=
  if l.line > 0 then
    if l.file.isEmpty then "line " ++ toString l.line else l.file ++ ":" ++ toString l.line
  else if l.file.isEmpty then "<unknown>" else l.file

end Z80Asm
