import Z80Asm.Proofs.NamedOperands

/-! Lines with a constant or its name, and the line that defines the name. -/

namespace Z80Asm
set_option autoImplicit true
namespace Source

namespace Site

def operandTexts (s : Site) (text : String) : List String :=
  (s.before ++ s.operand text.toList :: s.after).map fun p => String.ofList (Text.trim p)

/-- What the operand is for: data, the fill of reserved space, or the byte, word or distance of an
instruction. In parentheses, the expression has to be one operand by itself. -/
inductive Takes (s : Site) (mnemonic src : String) : Prop where
  | data : dropDot (Text.lower mnemonic) ∈ ["defb", "db", "defm", "dm", "defw", "dw"] →
      s.Around false → Takes s mnemonic src
  | fill : dropDot (Text.lower mnemonic) ∈ ["defs", "ds"] → s.before.length = 1 → s.after = [] →
      s.Around false → Takes s mnemonic src
  | argument {parens : Bool} {entry : Instruction.Entry} {text : String} : s.Around parens →
      (parens = true → splitOperands src.toList = [src.toList]) →
      (readOperand (s.operandText src)).2 = some src →
      instructionOn? (s.line src) = some (entry, text) →
      entry.argument ∈ [.byte, .word, .relative] → Takes s mnemonic src

/-- The second line is the first one, or has the name `x` in the place of the expression. -/
def NamedLine (s : Site) (src x raw raw' : String) : Prop :=
  raw' = raw ∨ raw = s.line src ∧ raw' = s.line x

end Site

def definition (x src : String) : String := x ++ " equ " ++ src

theorem readStatement_of_bytes (h : dropDot (Text.lower mnemonic) ∈ ["defb", "db", "defm", "dm"])
    (text : List Char) :
    readStatement mnemonic text = readBytes ((splitOperands text).map String.ofList) := by
  unfold readStatement
  dsimp only
  generalize dropDot (Text.lower mnemonic) = key at h
  fin_cases h <;> rfl

theorem readStatement_of_words (h : dropDot (Text.lower mnemonic) ∈ ["defw", "dw"])
    (text : List Char) :
    readStatement mnemonic text = readWords ((splitOperands text).map String.ofList) := by
  unfold readStatement
  dsimp only
  generalize dropDot (Text.lower mnemonic) = key at h
  fin_cases h <;> rfl

theorem isMnemonic_of_instructionOn? (hm : mnemonicOn? raw = some (mnemonic, text))
    (h : instructionOn? raw = some (entry, expr)) :
    Instruction.isMnemonic (Text.lower mnemonic) = true ∧
      readShape? (Text.lower mnemonic) ((splitOperands text).map String.ofList) =
        some (entry, expr) := by
  unfold instructionOn? at h
  rw [hm] at h
  dsimp only at h
  split at h
  · rename_i hmnemonic
    exact ⟨hmnemonic, h⟩
  · cases h

namespace Site

variable {s : Site} {mnemonic src x : String}

theorem operandTexts_eq (s : Site) (text : String) :
    s.operandTexts text = (s.before.map fun p => String.ofList (Text.trim p)) ++
      s.operandText text :: s.after.map fun p => String.ofList (Text.trim p) := by
  rw [operandTexts, List.map_append, List.map_cons]
  rfl

theorem splitOperands_operands {text : String} (htidy : Text.Tidy text.toList)
    (hne : text.toList ≠ [])
    (hcut : splitMarked 0 [] (mark (s.operands text.toList)) =
      s.before ++ s.operand text.toList :: s.after) :
    (splitOperands (s.operands text.toList)).map String.ofList = s.operandTexts text := by
  obtain ⟨c, cs, hcs⟩ := List.exists_cons_of_ne_nil hne
  have hc : Text.isSpace c = false := htidy.head c (by rw [hcs]; rfl)
  rw [splitOperands_eq, hcut, List.map_map]
  · rfl
  · intro hspaces
    rw [hspaces c] at hc
    · cases hc
    · rw [operands_eq, hcs]
      simp only [List.mem_append, List.mem_cons, true_or, or_true]

theorem Takes.word (h : s.Takes mnemonic src) (hs : s.Holds mnemonic src) :
    TakesOperands mnemonic := by
  cases h with
  | data hkey =>
    refine .inl ?_
    generalize dropDot (Text.lower mnemonic) = key at hkey
    fin_cases hkey <;> decide
  | fill hkey =>
    refine .inl ?_
    generalize dropDot (Text.lower mnemonic) = key at hkey
    fin_cases hkey <;> decide
  | argument _ _ _ hentry => exact .inr (isMnemonic_of_instructionOn? hs.mnemonic hentry).1

theorem Takes.around (h : s.Takes mnemonic src) :
    ∃ parens, s.Around parens ∧ (parens = true → splitOperands src.toList = [src.toList]) := by
  cases h with
  | data _ hplace => exact ⟨false, hplace, fun h => by cases h⟩
  | fill _ _ _ hplace => exact ⟨false, hplace, fun h => by cases h⟩
  | argument hplace halone => exact ⟨_, hplace, halone⟩

end Site

theorem Folds.ne_nil (h : Folds src d) : src.toList ≠ [] := by
  obtain ⟨e, hparse, -⟩ := h
  intro hnil
  refine exists_not_space hparse fun c hc => ?_
  rw [hnil] at hc
  cases hc

theorem stripComment_append {front cs : List Char} (hfront : Inert front)
    (hfree : Free front.getLast?) (hcomment : NoComment (mark cs)) :
    stripComment (front ++ cs) = front ++ cs := by
  have hall := uncommented_append hcomment []
  rw [List.append_nil] at hall
  rw [stripComment_eq, mark, markFrom_plain hfront.unquoted, Option.or_none,
    markFrom_free hfree free_none, ← plainMarks,
    uncommented_append (noComment_plainMarks hfront.comment), map_fst_plainMarks, ← mark, hall,
    mark, map_fst_markFrom]
  exact congrArg _ (List.append_nil _)

theorem splitWord_equ (rest : List Char) :
    (splitWord ("equ".toList ++ ([' '] ++ rest))).1 = "equ".toList := by
  have hequ : isName "equ".toList = true := rfl
  have hblank : isBlank ' ' = true := rfl
  obtain ⟨-, -, -, -, hparts⟩ := exists_of_isName hequ
  exact congrArg Prod.fst
    (splitWord_append (fun c hc => (part_plain (hparts c hc)).2.1) hblank rest)

theorem readLine_definition (hx : isName x.toList = true) (htidy : Text.Tidy src.toList)
    (hne : src.toList ≠ []) (hcomment : NoComment (mark src.toList)) :
    readLine (definition x src) = ⟨[⟨x.toList, false⟩], "equ".toList ++ ' ' :: src.toList⟩ := by
  have hspace : ∀ c ∈ [' '], Text.isSpace c = true := List.forall_mem_singleton.2 rfl
  have hchars : (definition x src).toList =
      (x.toList ++ ([' '] ++ ("equ".toList ++ [' ']))) ++ src.toList := by
    simp only [definition, String.toList_append, List.append_assoc]
    rfl
  have hinert : Inert (x.toList ++ ([' '] ++ ("equ".toList ++ [' ']))) :=
    (inert_name hx).append
      ((inert_spaces hspace).append ((inert_name rfl).append (inert_spaces hspace)))
  have hfree : Free (x.toList ++ ([' '] ++ ("equ".toList ++ [' ']))).getLast? := by
    rw [← List.append_assoc, ← List.append_assoc]
    exact free_spaces hspace (List.cons_ne_nil _ _) _
  have hstatement : Text.Tidy (("equ".toList ++ [' ']) ++ src.toList) := by
    apply htidy.prepend hne
    intro c hc
    cases hc
    rfl
  have hwhole : Text.Tidy ((x.toList ++ ([' '] ++ ("equ".toList ++ [' ']))) ++ src.toList) := by
    apply htidy.prepend hne
    intro c hc
    obtain ⟨d, ds, hds⟩ := List.exists_cons_of_ne_nil (ne_nil_of_isName hx)
    apply (tidy_name hx).head c
    rw [hds] at hc ⊢
    exact hc
  have htrim := Text.trim_spaces_append hspace (("equ".toList ++ [' ']) ++ src.toList)
  rw [hstatement.trim_eq] at htrim
  have hblank : ∀ c, ([' '] ++ (("equ".toList ++ [' ']) ++ src.toList)).head? = some c →
      isIdentPart c = false ∧ c ≠ ':' := by
    intro c hc
    cases hc
    decide
  have hread := readLabels_name hx hblank
  rw [htrim, List.append_assoc "equ".toList, splitWord_equ] at hread
  unfold readLine
  rw [hchars, stripComment_append hinert hfree hcomment, hwhole.trim_eq, List.append_assoc,
    List.append_assoc, List.append_assoc, hread]
  rfl

section
variable {s : Site} {mnemonic src x : String} {d : Datum} (hs : s.Holds mnemonic src)
  (htakes : s.Takes mnemonic src) (hsrc : Folds src d) (hx : NewName x)
include hs htakes hsrc hx

theorem readStatement_matching (hd : d ≠ .text "")
    (hnew : ∀ stmt ∈ (readStatement mnemonic (s.operands src.toList)).value, x ∉ stmt.names) :
    Matching x d (readStatement mnemonic (s.operands src.toList))
      (readStatement mnemonic (s.operands x.toList)) := by
  obtain ⟨parens, hplace, -⟩ := htakes.around
  obtain ⟨-, -, hcut⟩ := hs.cuts_name hplace hsrc.ne_nil (htakes.word hs) hx.name hx.equ
  have htexts := Site.splitOperands_operands hs.tidy hsrc.ne_nil hs.cut
  have htexts' := Site.splitOperands_operands (tidy_name hx.name) (ne_nil_of_isName hx.name) hcut
  have hdirect (h : s.Around false) : s.operandText src = src ∧ s.operandText x = x :=
    ⟨Site.operandText_direct h hs.tidy, Site.operandText_direct h (tidy_name hx.name)⟩
  cases htakes with
  | data hkey hplace =>
    obtain ⟨hconst, hname⟩ := hdirect hplace
    have hkeys : dropDot (Text.lower mnemonic) ∈ ["defb", "db", "defm", "dm"] ∨
        dropDot (Text.lower mnemonic) ∈ ["defw", "dw"] := List.mem_append.1 hkey
    rcases hkeys with hkey | hkey
    · rw [readStatement_of_bytes hkey, htexts, Site.operandTexts_eq, hconst] at hnew ⊢
      rw [readStatement_of_bytes hkey, htexts', Site.operandTexts_eq, hname]
      exact readBytes_matching hsrc hx.name hd hnew
    · rw [readStatement_of_words hkey, htexts, Site.operandTexts_eq, hconst] at hnew ⊢
      rw [readStatement_of_words hkey, htexts', Site.operandTexts_eq, hname]
      exact readWords_matching hsrc hx.name hnew
  | fill hkey hbefore hafter hplace =>
    obtain ⟨hconst, hname⟩ := hdirect hplace
    obtain ⟨size, hsize⟩ := List.length_eq_one_iff.1 hbefore
    rw [readStatement_of_space hkey, readStatement_of_space hkey, htexts, htexts',
      Site.operandTexts_eq, Site.operandTexts_eq, hconst, hname, hsize, hafter]
    exact reserveSpace_matching hsrc hx.name _
  | argument hplace _ hread hentry hargument =>
    obtain ⟨hmnemonic, hshape⟩ := isMnemonic_of_instructionOn? hs.mnemonic hentry
    obtain ⟨form, hform, hform'⟩ := hplace.readOperand_eq hs.tidy hread hx
    rw [htexts, Site.operandTexts_eq] at hshape
    obtain ⟨rfl, hshape'⟩ := readShape?_name hform hform' hshape
    rw [readStatement_of_isMnemonic hmnemonic, readStatement_of_isMnemonic hmnemonic, htexts,
      htexts', Site.operandTexts_eq, Site.operandTexts_eq]
    exact readInstruction_matching hsrc hx.name hshape hshape' hargument

/-- A line is read alike with the constant and with its name. -/
theorem Site.NamedLine.matching (hd : d ≠ .text "") (h : s.NamedLine src x raw raw')
    (hnew : ∀ stmt ∈ (readLineText (readLine raw)).value, x ∉ stmt.names) :
    Matching x d (readLineText (readLine raw)) (readLineText (readLine raw')) := by
  have hsame {stmts : List Statement} (hstmts : stmts ⊆ (readLineText (readLine raw)).value) :
      List.Forall₂ (Statement.Named x d true) stmts stmts := by
    rw [List.forall₂_same]
    intro stmt hstmt
    have hmem := hstmts hstmt
    exact (readLine_written raw stmt hmem).named (readLineText_legible _ stmt hmem)
      (hnew stmt hmem) d
  rcases h with rfl | ⟨rfl, rfl⟩
  · exact fun hq => ⟨hq, hsame (List.Subset.refl _)⟩
  · obtain ⟨parens, hplace, -⟩ := htakes.around
    obtain ⟨hlabels, hmnemonic, -⟩ :=
      hs.cuts_name hplace hsrc.ne_nil (htakes.word hs) hx.name hx.equ
    obtain ⟨hvalue, hproblems⟩ := readLineText_of_mnemonic hs.mnemonic
    obtain ⟨hvalue', hproblems'⟩ := readLineText_of_mnemonic hmnemonic
    rw [hlabels] at hvalue'
    rw [hvalue] at hnew hsame
    intro hq
    rw [hproblems] at hq
    obtain ⟨hq', hstmts⟩ := readStatement_matching hs htakes hsrc hx hd
      (fun stmt hstmt => hnew stmt (List.mem_append_right _ hstmt)) hq
    rw [hproblems', hvalue, hvalue']
    exact ⟨hq', List.rel_append (hsame (List.subset_append_left _ _)) hstmts⟩

theorem readLineText_definition :
    (readLineText (readLine (definition x src))).value =
        [.label { name := x }, .equ (.ofDatum d)] ∧
      (readLineText (readLine (definition x src))).problems = [] := by
  obtain ⟨parens, hplace, halone⟩ := htakes.around
  obtain ⟨hcomment, hdirect⟩ := hs.alone hplace hsrc.ne_nil (htakes.word hs)
  have hsplit : splitOperands src.toList = [src.toList] := by
    cases parens with
    | false => exact hdirect rfl
    | true => exact halone rfl
  have hline : readLine (definition x src) =
      ⟨[⟨x.toList, false⟩], "equ".toList ++ ' ' :: src.toList⟩ :=
    readLine_definition hx.name hs.tidy hsrc.ne_nil hcomment
  have hmnemonic : mnemonicOn? (definition x src) = some ("equ", src.toList) := by
    rw [mnemonicOn?_of_statement rfl rfl (congrArg LineText.statement hline), hs.tidy.trim_eq]
  obtain ⟨hvalue, hproblems⟩ := readLineText_of_mnemonic hmnemonic
  have hstatement : readStatement "equ" src.toList = pure [.equ (.ofDatum d)] := by
    have hkey : dropDot (Text.lower "equ") = "equ" := by cbv
    unfold readStatement
    dsimp only
    rw [hkey, hsplit]
    change readSingle "EQU" [String.ofList src.toList] .equ = _
    rw [String.ofList_toList, readSingle, hsrc.readValue?_eq]
    rfl
  constructor
  · rw [hvalue, hline, hstatement, List.map_singleton, String.ofList_toList]
    rfl
  · rw [hproblems, hstatement]
    rfl

end

end Source
end Z80Asm
