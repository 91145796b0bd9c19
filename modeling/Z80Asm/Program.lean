import Z80Asm.Element

/-! Programs are lists of elements. Passes walk over them and leave macro definitions alone. -/

namespace Z80Asm.Program

/-- The nesting of macro definitions after a statement, given the one before it. -/
def depthAfter (depth : Nat) : Statement → Nat
  | .macroDef .. => depth + 1
  | .endMacro => depth - 1
  | _ => depth

/-- The statement begins, ends or lies in a macro definition. -/
def inDefinition (depth : Nat) : Statement → Bool
  | .macroDef .. | .endMacro => true
  | _ => depth > 0

/-- Replaces every element outside macro definitions by the elements that `f` gives for it, and
passes a state along. -/
def walkFrom {σ : Type} (f : σ → Element → List Element × σ) (depth : Nat) (s : σ) :
    List Element → List Element × σ
  | [] => ([], s)
  | e :: es =>
    if inDefinition depth e.stmt then
      let (rest, s') := walkFrom f (depthAfter depth e.stmt) s es
      (e :: rest, s')
    else
      let (here, s₁) := f s e
      let (rest, s₂) := walkFrom f depth s₁ es
      (here ++ rest, s₂)

def walk {σ : Type} (f : σ → Element → List Element × σ) (s : σ) (es : List Element) :
    List Element × σ :=
  walkFrom f 0 s es

/-- A walk that changes elements in place. -/
def update {σ : Type} (f : σ → Element → Statement × σ) (s : σ) (es : List Element) :
    List Element × σ :=
  walk (fun s e => let (stmt, s') := f s e; ([{ e with stmt }], s')) s es

def outsideFrom (depth : Nat) : List Element → List Element
  | [] => []
  | e :: es =>
    if inDefinition depth e.stmt then outsideFrom (depthAfter depth e.stmt) es
    else e :: outsideFrom depth es

/-- The elements outside macro definitions. -/
def outside (es : List Element) : List Element := outsideFrom 0 es

/-- The templates outside macro definitions that emit anything, with their locations. -/
def templates (es : List Element) : List (Location × Template) :=
  (outside es).filterMap fun e =>
    match e.stmt with
    | .bytes t => if t.slots.isEmpty then none else some (e.loc, t)
    | _ => none

end Z80Asm.Program
