import Z80Asm.Text.CharClass

/-! Cutting text: lines of a file, surrounding white space, pieces between separators. -/

namespace Z80Asm.Text

def trimLeft (cs : List Char) : List Char := cs.dropWhile isSpace

def trimRight (cs : List Char) : List Char := (cs.reverse.dropWhile isSpace).reverse

def trim (cs : List Char) : List Char := trimRight (trimLeft cs)

/-- The pieces of a text between the characters `separator`; there is always at least one. -/
def pieces (separator : Char) (cs : List Char) : List (List Char) :=
  cs.foldr
    (fun c acc =>
      if c = separator then [] :: acc
      else match acc with
        | [] => [[c]]
        | piece :: more => (c :: piece) :: more)
    [[]]

/-- A line without the carriage return that ends it, if one does. -/
def dropReturn (line : List Char) : List Char :=
  if line.getLast? = some '\r' then line.dropLast else line

/-- The lines of a text. A line ends in a newline, with or without a carriage return before it; only
the last may lack it. -/
def lines (cs : List Char) : List (List Char) :=
  let ps := pieces '\n' cs
  let closed := ps.dropLast.map dropReturn
  match ps.getLast? with
  | none | some [] => closed
  | some last => closed ++ [last]

/-- Cuts a text so that no piece takes more than `size` bytes; `room` is what the first may take. -/
def chunksFrom (size room : Nat) : List Char → List (List Char)
  | [] => [[]]
  | c :: cs =>
    if c.utf8Size ≤ room then
      match chunksFrom size (room - c.utf8Size) cs with
      | [] => [[c]]
      | piece :: more => (c :: piece) :: more
    else
      match chunksFrom size (size - c.utf8Size) cs with
      | [] => [[], [c]]
      | piece :: more => [] :: (c :: piece) :: more

def chunks (size : Nat) (cs : List Char) : List (List Char) := chunksFrom size size cs

/-- The lines of a file. A file of one empty line has none. -/
def splitLines (text : String) : List String :=
  let ls := lines text.toList
  if ls = [[]] then [] else ls.map String.ofList

end Z80Asm.Text
