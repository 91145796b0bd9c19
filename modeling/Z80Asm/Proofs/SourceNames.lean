import Z80Asm.Proofs.BadOperands
import Z80Asm.Proofs.Spelling
import Z80Asm.Proofs.WrittenNames

/-! The names that lines introduce: labels, macros and parameters. All of them can be referred to in
expressions, except that a parameter may be left empty. A macro line with any other text in the
place of a name is reported, and defines nothing. -/

namespace Z80Asm
set_option autoImplicit true

def Statement.introduced : Statement → List String
  | .label l => [l.name]
  | .macroDef name _ => [name]
  | _ => []

def Statement.parameters : Statement → List String
  | .macroDef _ params => params
  | _ => []

namespace Source

/-- A name that expressions can refer to. It is one token, and does not look like the name of a
scope. -/
structure Referable (x : String) : Prop where
  start : ∃ c cs, x.toList = c :: cs ∧ isIdentStart c = true ∧ ∀ d ∈ cs, isIdentPart d = true
  token : Token.lex x = ⟨[⟨.identifier, x, 0⟩, ⟨.eof, "", x.toList.length⟩], none⟩
  parsed : Expr.parse x = .ok (.ident x)
  unscoped : x.toList.head? ≠ some '%'

theorem referable_iff {x : String} : Referable x ↔ isName x.toList = true := by
  constructor
  · rintro ⟨⟨c, cs, hx, hc, hcs⟩, -, -, -⟩
    rw [hx, isName, hc, Bool.true_and]
    exact List.all_eq_true.2 hcs
  · intro h
    obtain ⟨c, cs, hx, hc, hpart⟩ := exists_of_isName h
    have hend : Token.Delimited [] := by
      intro d hd
      cases hd
    have hspells := Token.spells_identifier (.inr h) 0 [] hend
    rw [List.append_nil, Nat.zero_add, Token.lexFrom.eq_def _ []] at hspells
    rw [hx] at hpart
    refine ⟨⟨c, cs, hx, hc, (List.forall_mem_cons.1 hpart).2⟩, hspells, parse_of_isName h, ?_⟩
    rw [hx, List.head?_cons]
    rintro ⟨⟩
    exact absurd hc (by decide)

theorem referable_ofList (h : isName cs = true) : Referable (String.ofList cs) :=
  referable_iff.2 (String.toList_ofList ▸ h)

theorem not_referable_empty : ¬ Referable "" := fun h => Bool.false_ne_true (referable_iff.1 h)

/-- The macro that a line defines: its name, and its parameters. -/
def macroHead (text : List Char) : List Char × List (List Char) :=
  ((splitWord text).1, splitOperands (splitWord text).2)

/-- A macro can be defined: it has a name, and its parameters are names or empty. -/
def Definable (text : List Char) : Prop :=
  isName (macroHead text).1 = true ∧ ∀ param ∈ (macroHead text).2, param = [] ∨ isName param = true

theorem readMacroDef_of_definable (h : Definable text) :
    readMacroDef text = pure [.macroDef (String.ofList (macroHead text).1)
      ((macroHead text).2.map String.ofList)] := by
  obtain ⟨hname, hparams⟩ := h
  have hnone : (splitOperands (splitWord text).2).find? (!isParameter ·) = none := by
    rw [List.find?_eq_none]
    intro param hparam
    rw [Bool.not_eq_true, Bool.not_eq_false', isParameter, Bool.or_eq_true]
    exact (hparams param hparam).imp List.isEmpty_iff.2 id
  unfold readMacroDef
  dsimp only
  rw [show isName (splitWord text).1 = true from hname, hnone]
  rfl

theorem readMacroDef_of_not_definable (h : ¬ Definable text) :
    ∃ p, p.category = .syntactic ∧ readMacroDef text = .spoilt p [] := by
  unfold readMacroDef
  dsimp only
  by_cases hname : isName (splitWord text).1 = true
  · rw [hname]
    cases hfind : (splitOperands (splitWord text).2).find? (!isParameter ·) with
    | some param => exact ⟨_, rfl, rfl⟩
    | none =>
      refine absurd ⟨hname, fun param hparam => ?_⟩ h
      have hnot := List.find?_eq_none.1 hfind param hparam
      rw [Bool.not_eq_true, Bool.not_eq_false', isParameter, Bool.or_eq_true] at hnot
      exact hnot.imp List.isEmpty_iff.1 id
  · rw [Bool.eq_false_of_not_eq_true hname]
    exact ⟨_, rfl, rfl⟩

def Introducing (stmt : Statement) : Prop :=
  (∀ x ∈ stmt.introduced, Referable x) ∧ ∀ x ∈ stmt.parameters, Referable x ↔ x ≠ ""

theorem introducing_of_nameless (h : stmt.introduced = []) (h' : stmt.parameters = []) :
    Introducing stmt := by
  unfold Introducing
  rw [h, h']
  exact ⟨List.forall_mem_nil _, List.forall_mem_nil _⟩

theorem introducing_macroDef (h : Definable text) :
    Introducing (.macroDef (String.ofList (macroHead text).1)
      ((macroHead text).2.map String.ofList)) := by
  refine ⟨List.forall_mem_singleton.2 (referable_ofList h.1), List.forall_mem_map.2 ?_⟩
  intro param hparam
  rcases h.2 param hparam with rfl | hname
  · exact iff_of_false not_referable_empty (not_not.2 rfl)
  · refine iff_of_true (referable_ofList hname) ?_
    intro hempty
    exact not_referable_empty (hempty ▸ referable_ofList hname)

theorem statementsClosed_introducing : StatementsClosed Introducing where
  bytes := ⟨_, _, .all, fun _ _ => introducing_of_nameless rfl rfl⟩
  value _ _ _ := ⟨introducing_of_nameless rfl rfl, introducing_of_nameless rfl rfl,
    introducing_of_nameless rfl rfl, introducing_of_nameless rfl rfl⟩
  bare := ⟨introducing_of_nameless rfl rfl, introducing_of_nameless rfl rfl,
    introducing_of_nameless rfl rfl, introducing_of_nameless rfl rfl⟩
  definition text := by
    by_cases hdef : Definable text
    · rw [readMacroDef_of_definable hdef]
      exact List.forall_mem_singleton.2 (introducing_macroDef hdef)
    · obtain ⟨p, -, hp⟩ := readMacroDef_of_not_definable hdef
      rw [hp]
      exact List.forall_mem_nil _
  includeFile _ := introducing_of_nameless rfl rfl
  call _ _ := introducing_of_nameless rfl rfl

theorem elementsOfLines_introducing (he : e ∈ (elementsOfLines file lines).1) :
    Introducing e.stmt := by
  obtain ⟨raw, -, hstmt⟩ := exists_line_of_mem he
  refine statementsClosed_introducing.readLineText _ (fun l hl => ?_) _ hstmt
  have hname := isName_of_readLabels (Text.trim (stripComment raw.toList)) l hl
  exact ⟨List.forall_mem_singleton.2 (referable_ofList hname), List.forall_mem_nil _⟩

theorem readStatement_of_macro (h : dropDot (Text.lower mnemonic) = "macro") (text : List Char) :
    readStatement mnemonic text = readMacroDef text := by
  unfold readStatement
  dsimp only
  rw [h]
  rfl

def macroOn? (raw : String) : Option (List Char) :=
  match mnemonicOn? raw with
  | some (mnemonic, text) => if dropDot (Text.lower mnemonic) = "macro" then some text else none
  | none => none

theorem elementsOfLine_of_macro (h : macroOn? raw = some text) (loc : Location) :
    elementsOfLine loc raw =
      ((labelsOn raw ++ (readMacroDef text).value).map (⟨loc, ·⟩),
        (readMacroDef text).problems.map (⟨·, loc⟩)) := by
  unfold macroOn? at h
  split at h
  · rename_i mnemonic text' hmnemonic
    split at h
    · rename_i hkey
      cases h
      obtain ⟨hvalue, hproblems⟩ := readLineText_of_mnemonic hmnemonic
      unfold elementsOfLine
      dsimp only
      rw [hvalue, hproblems, readStatement_of_macro hkey]
      rfl
    · cases h
  · cases h

/-- What lines say is what those before, the one line, and those behind say. -/
theorem elementsOfLines_at (file : String) (before : List String) (raw : String)
    (after : List String) :
    let line := elementsOfLine ⟨file, before.length + 1⟩ raw
    elementsOfLines file (before ++ raw :: after) =
      ((elementsOfLines file before).1 ++ line.1 ++
          ((elementsFrom file (before.length + 1) after).map Prod.fst).flatten,
        (elementsOfLines file before).2 ++ line.2 ++
          ((elementsFrom file (before.length + 1) after).map Prod.snd).flatten) := by
  simp only [elementsOfLines_eq]
  rw [elementsFrom_append, elementsFrom_cons, Nat.zero_add]
  simp only [List.map_append, List.map_cons, List.flatten_append, List.flatten_cons,
    List.append_assoc]
  rfl

/-- The names that lines introduce can be referred to, but for parameters that are empty. A macro
line whose name is none, or with a parameter that is neither a name nor empty, is reported as a
problem of the syntax and defines nothing; any other defines its macro. -/
theorem names_referable (file : String) (lines : List String) :
    (∀ e ∈ (elementsOfLines file lines).1,
      (∀ x ∈ e.stmt.introduced, Referable x) ∧ ∀ x ∈ e.stmt.parameters, Referable x ↔ x ≠ "") ∧
    ∀ before raw after text, lines = before ++ raw :: after → macroOn? raw = some text →
      let loc : Location := ⟨file, before.length + 1⟩
      ∃ (stmts : List Statement) (problems : List Problem),
        elementsOfLines file lines =
          ((elementsOfLines file before).1 ++ (labelsOn raw ++ stmts).map (⟨loc, ·⟩) ++
              ((elementsFrom file (before.length + 1) after).map Prod.fst).flatten,
            (elementsOfLines file before).2 ++ problems.map (⟨·, loc⟩) ++
              ((elementsFrom file (before.length + 1) after).map Prod.snd).flatten) ∧
        (Definable text → problems = [] ∧
          stmts = [.macroDef (String.ofList (macroHead text).1)
            ((macroHead text).2.map String.ofList)]) ∧
        (¬ Definable text → stmts = [] ∧ ∃ p, problems = [p] ∧ p.category = .syntactic) := by
  constructor
  · intro e he
    exact elementsOfLines_introducing he
  · intro before raw after text hlines hline loc
    refine ⟨(readMacroDef text).value, (readMacroDef text).problems, ?_, ?_, ?_⟩
    · rw [hlines, elementsOfLines_at, elementsOfLine_of_macro hline]
    · intro hdef
      rw [readMacroDef_of_definable hdef]
      exact ⟨rfl, rfl⟩
    · intro hdef
      obtain ⟨p, hp, heq⟩ := readMacroDef_of_not_definable hdef
      rw [heq]
      exact ⟨rfl, p, rfl, hp⟩

set_option maxRecDepth 10000 in
theorem names_referable_digit :
    macroOn? "l: macro 1x" = some "1x".toList ∧ ¬ Definable "1x".toList ∧
      ∃ p : Problem, p.category = .syntactic ∧
        elementsOfLines "f" ["macro m a", "l: macro 1x"] =
          ([⟨⟨"f", 1⟩, .macroDef "m" ["a"]⟩, ⟨⟨"f", 2⟩, .label { name := "l" }⟩],
            [⟨p, ⟨"f", 2⟩⟩]) := by
  have hline : macroOn? "l: macro 1x" = some "1x".toList := by cbv
  have hnot : ¬ Definable "1x".toList := fun h => absurd h.1 (by decide)
  have hbefore : elementsOfLines "f" ["macro m a"] = ([⟨⟨"f", 1⟩, .macroDef "m" ["a"]⟩], []) := by
    cbv
  have hlabels : labelsOn "l: macro 1x" = [.label { name := "l" }] := by cbv
  obtain ⟨stmts, problems, heq, -, hbad⟩ := (names_referable "f" ["macro m a", "l: macro 1x"]).2
    ["macro m a"] "l: macro 1x" [] "1x".toList rfl hline
  obtain ⟨rfl, p, rfl, hp⟩ := hbad hnot
  rw [hbefore, hlabels] at heq
  exact ⟨hline, hnot, p, hp, heq⟩

/-- An empty parameter is taken for a name. -/
theorem empty_parameter_accepted :
    elementsOfLines "f" ["macro m a,,b"] =
        ([⟨⟨"f", 1⟩, .macroDef "m" ["a", "", "b"]⟩], []) ∧
      ¬ Referable "" :=
  ⟨by cbv, not_referable_empty⟩

end Source
end Z80Asm
