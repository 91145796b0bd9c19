import Z80Asm.Text.Lines
import Z80Asm.Token.Lexer

/-! Cutting a source line into comment, labels, mnemonic and operands. Cuts are made only outside
string literals. -/

namespace Z80Asm.Source

/-- The last byte of a character's encoding, read as a character. -/
def lastByte (c : Char) : Char :=
  if Text.isAscii c then c else Char.ofNat (0x80 + c.toNat % 64)

/-- A string literal begins at `c`. An apostrophe directly behind a name belongs to it, as in
`af'`. -/
def opensLiteral (previous? : Option Char) (c : Char) : Bool :=
  c = '"' || c = '\'' && !previous?.any fun p => isIdentPart (lastByte p)

/-- Pairs every character with whether it stands outside string literals; `quote?` is the delimiter
of the literal that is open. A backslash takes the next character of a literal with it, and a
literal that is not closed reaches to the end. -/
def markFrom (previous? quote? : Option Char) : List Char → List (Char × Bool)
  | [] => []
  | c :: cs =>
    match quote? with
    | none =>
      if opensLiteral previous? c then (c, false) :: markFrom (some c) (some c) cs
      else (c, true) :: markFrom (some c) none cs
    | some q =>
      if c = '\\' then
        match cs with
        | [] => [(c, false)]
        | d :: ds => (c, false) :: (d, false) :: markFrom (some d) (some q) ds
      else (c, false) :: markFrom (some c) (if c = q then none else some q) cs

def mark (cs : List Char) : List (Char × Bool) := markFrom none none cs

/-- The line up to its comment. -/
def stripComment (line : List Char) : List Char :=
  ((mark line).takeWhile fun m => !(m.2 && m.1 = ';')).map Prod.fst

/-- The change in nesting at a marked character. -/
def nesting (m : Char × Bool) : Int :=
  if m.2 && m.1 = '(' then 1 else if m.2 && m.1 = ')' then -1 else 0

/-- Splits at commas outside literals and parentheses; `piece` holds what comes before, in
reverse. -/
def splitMarked (depth : Int) (piece : List Char) : List (Char × Bool) → List (List Char)
  | [] => [piece.reverse]
  | m :: ms =>
    if m.2 && m.1 = ',' && depth = 0 then piece.reverse :: splitMarked depth [] ms
    else splitMarked (depth + nesting m) (m.1 :: piece) ms

/-- The operands in a text, without white space around them. -/
def splitOperands (cs : List Char) : List (List Char) :=
  let cs := Text.trim cs
  if cs.isEmpty then [] else (splitMarked 0 [] (mark cs)).map Text.trim

/-- A parenthesis outside literals closes the first one before the end. -/
def closesEarly (depth : Int) : List (Char × Bool) → Bool
  | [] => false
  | m :: ms =>
    let depth' := depth + nesting m
    if m.2 && m.1 = ')' && depth' = 0 && !ms.isEmpty then true else closesEarly depth' ms

/-- What is inside the parentheses, if one pair encloses the whole text. -/
def indirect? (cs : List Char) : Option (List Char) :=
  let cs := Text.trim cs
  match cs with
  | '(' :: rest =>
    if rest.getLast? = some ')' && !closesEarly 0 (mark cs) then some (Text.trim rest.dropLast)
    else none
  | _ => none

/-- The name at the start of a text, and what follows it. -/
def splitName : List Char → List Char × List Char
  | [] => ([], [])
  | c :: cs =>
    if isIdentStart c then (c :: cs.takeWhile isIdentPart, cs.dropWhile isIdentPart)
    else ([], c :: cs)

/-- The whole text is a name. -/
def isName (cs : List Char) : Bool :=
  match cs with
  | [] => false
  | c :: rest => isIdentStart c && rest.all isIdentPart

def isBlank (c : Char) : Bool := c = ' ' || c = '\t'

/-- The first word of a text, and what follows it. -/
def splitWord (cs : List Char) : List Char × List Char :=
  (cs.takeWhile (!isBlank ·), Text.trim ((cs.dropWhile (!isBlank ·)).drop 1))

/-- A label as it is written. -/
structure LabelText where
  name : List Char
  isPublic : Bool
deriving DecidableEq, Repr

def isEqu (word : List Char) : Bool := word.map Char.toLower = ['e', 'q', 'u']

theorem length_trim_le (cs : List Char) : (Text.trim cs).length ≤ cs.length := by
  have h₁ : (Text.trimLeft cs).length ≤ cs.length := (List.dropWhile_suffix _).length_le
  have h₂ : (Text.trimRight (Text.trimLeft cs)).length ≤ (Text.trimLeft cs).length := by
    simpa [Text.trimRight] using
      (List.dropWhile_suffix (l := (Text.trimLeft cs).reverse) Text.isSpace).length_le
  exact Nat.le_trans h₂ h₁

theorem length_splitName {cs name rest : List Char} (h : splitName cs = (name, rest)) :
    name.length + rest.length = cs.length := by
  cases cs with
  | nil => simp_all [splitName]
  | cons c cs =>
    simp only [splitName] at h
    split at h
    · have := congrArg List.length (List.takeWhile_append_dropWhile (p := isIdentPart) (l := cs))
      simp only [Prod.mk.injEq] at h
      simp only [List.length_append] at this
      simp only [← h.1, ← h.2, List.length_cons]
      omega
    · simp only [Prod.mk.injEq] at h
      simp [← h.1, ← h.2]

/-- The labels at the start of a line, and what follows them. A label is a name before a colon, two
colons if it is public, or before EQU, which is left. -/
def readLabels (cs : List Char) : List LabelText × List Char :=
  match _h : splitName cs with
  | ([], _) => ([], cs)
  | (name, ':' :: ':' :: rest) =>
    let (labels, more) := readLabels (Text.trim rest)
    (⟨name, true⟩ :: labels, more)
  | (name, ':' :: rest) =>
    let (labels, more) := readLabels (Text.trim rest)
    (⟨name, false⟩ :: labels, more)
  | (name, rest) =>
    let rest := Text.trim rest
    if isEqu (splitWord rest).1 then ([⟨name, false⟩], rest) else ([], cs)
termination_by cs.length
decreasing_by
  all_goals
    have h := length_splitName ‹_›
    have := length_trim_le rest
    simp only [List.length_cons] at h
    omega

/-- A line: its labels, and its mnemonic and operands if it has any. -/
structure LineText where
  labels : List LabelText
  statement : List Char
deriving DecidableEq, Repr

def readLine (raw : String) : LineText :=
  let (labels, statement) := readLabels (Text.trim (stripComment raw.toList))
  ⟨labels, statement⟩

end Z80Asm.Source
