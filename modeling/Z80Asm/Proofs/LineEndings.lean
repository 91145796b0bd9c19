import Z80Asm.Command.Run
import Z80Asm.Proofs.Paths
import Z80Asm.Proofs.SourceNames

/-! Line endings. Cutting a text gives back the lines it was joined from, whichever of the two
endings each of them has. So the number of a line does not depend on endings, nor does anything that
a command prints or writes. -/

namespace Z80Asm
set_option autoImplicit true

namespace Text

inductive Ending where
  | newline
  | returnNewline
deriving DecidableEq, Repr

def Ending.text : Ending → String
  | .newline => "\n"
  | .returnNewline => "\r\n"

/-- A line without its ending. Carriage returns may stand anywhere but at its end, where a newline
would take the last one along. -/
structure IsLine (line : String) : Prop where
  undivided : '\n' ∉ line.toList
  unreturned : line.toList.getLast? ≠ some '\r'

instance : DecidablePred IsLine := fun line =>
  decidable_of_iff ('\n' ∉ line.toList ∧ line.toList.getLast? ≠ some '\r')
    ⟨fun ⟨h, h'⟩ => ⟨h, h'⟩, fun ⟨h, h'⟩ => ⟨h, h'⟩⟩

/-- A text that consists of these lines. Each has an ending of its own, which the last may lack
unless it is empty. -/
inductive Joined : List String → String → Prop
  | nil : Joined [] ""
  | ended (line : String) (e : Ending) {lines : List String} {text : String} :
      Joined lines text → Joined (line :: lines) (line ++ e.text ++ text)
  | last {line : String} : line ≠ "" → Joined [line] line

theorem dropReturn_append (cs : List Char) : dropReturn (cs ++ ['\r']) = cs := by
  rw [dropReturn, List.getLast?_concat, if_pos rfl, List.dropLast_concat]

theorem dropReturn_of_ne (h : cs.getLast? ≠ some '\r') : dropReturn cs = cs := if_neg h

theorem exists_ending (l : List Char) :
    ∃ e : Ending, l ++ ['\n'] = dropReturn l ++ e.text.toList := by
  by_cases h : l.getLast? = some '\r'
  · obtain ⟨cs, rfl⟩ := List.getLast?_eq_some_iff.1 h
    refine ⟨.returnNewline, ?_⟩
    rw [dropReturn_append, List.append_assoc]
    rfl
  · refine ⟨.newline, ?_⟩
    rw [dropReturn_of_ne h]
    rfl

theorem lines_cut (h : '\n' ∉ l) (cs : List Char) :
    lines (l ++ '\n' :: cs) = dropReturn l :: lines cs := by
  obtain ⟨piece, more, hp⟩ := List.exists_cons_of_ne_nil (pieces_ne_nil '\n' cs)
  have hcut : pieces '\n' (l ++ '\n' :: cs) = l :: piece :: more := by
    rw [pieces_append, pieces_of_not_mem h, hp, List.singleton_append]
  unfold lines
  dsimp only
  rw [hcut, hp, List.getLast?_cons_cons, List.dropLast_cons_cons, List.map_cons]
  split
  · rfl
  · rfl
  · rfl

theorem lines_uncut (h : '\n' ∉ l) (hne : l ≠ []) : lines l = [l] := by
  obtain ⟨c, cs, rfl⟩ := List.exists_cons_of_ne_nil hne
  unfold lines
  rw [pieces_of_not_mem h]
  rfl

theorem IsLine.lines_ended (h : IsLine line) (e : Ending) (text : String) :
    lines (line ++ e.text ++ text).toList = line.toList :: lines text.toList := by
  rw [String.toList_append, String.toList_append, List.append_assoc]
  cases e with
  | newline =>
    have hcut := lines_cut h.undivided text.toList
    rw [dropReturn_of_ne h.unreturned] at hcut
    exact hcut
  | returnNewline =>
    -- Up to the newline the carriage return is part of the line, and is then dropped from it.
    have hwhole : '\n' ∉ line.toList ++ ['\r'] := by
      rw [List.mem_append, not_or]
      exact ⟨h.undivided, by decide⟩
    have hcut := lines_cut hwhole text.toList
    rw [dropReturn_append, List.append_assoc] at hcut
    exact hcut

theorem Joined.lines_eq (h : Joined ls text) (hls : ∀ l ∈ ls, IsLine l) :
    lines text.toList = ls.map String.toList := by
  induction h with
  | nil => rfl
  | ended line e _ ih =>
    obtain ⟨hline, hmore⟩ := List.forall_mem_cons.1 hls
    rw [hline.lines_ended, ih hmore, List.map_cons]
  | @last line hne =>
    have hline : IsLine line := hls line List.mem_cons_self
    exact lines_uncut hline.undivided (mt String.toList_eq_nil_iff.1 hne)

/-- Induction on the newlines in a text. -/
theorem line_induction {motive : List Char → Prop} (uncut : ∀ l, '\n' ∉ l → motive l)
    (cut : ∀ l cs, '\n' ∉ l → motive cs → motive (l ++ '\n' :: cs)) (cs : List Char) :
    motive cs := by
  by_cases h : '\n' ∈ cs
  · obtain ⟨l, cs', rfl, hl⟩ := List.eq_append_cons_of_mem h
    exact cut l cs' hl (line_induction uncut cut cs')
  · exact uncut cs h
termination_by cs.length
decreasing_by
  subst_vars
  simp only [List.length_append, List.length_cons]
  omega

theorem joined_lines (cs : List Char) :
    Joined ((lines cs).map String.ofList) (String.ofList cs) := by
  induction cs using line_induction with
  | uncut l h =>
    by_cases hne : l = []
    · rw [hne]
      exact .nil
    · rw [lines_uncut h hne]
      exact .last (mt String.ofList_eq_empty_iff.1 hne)
  | cut l cs h ih =>
    obtain ⟨e, he⟩ := exists_ending l
    have htext : String.ofList (l ++ '\n' :: cs) =
        String.ofList (dropReturn l) ++ e.text ++ String.ofList cs := by
      rw [← List.singleton_append, ← List.append_assoc, he, String.ofList_append,
        String.ofList_append, String.ofList_toList]
    rw [lines_cut h, htext, List.map_cons]
    exact .ended _ e ih

theorem splitLines_of_lines (hne : ls ≠ [""]) (h : lines text.toList = ls.map String.toList) :
    splitLines text = ls := by
  have hne' : ls.map String.toList ≠ [[]] := by
    intro heq
    obtain ⟨l, rfl, hl⟩ := List.map_eq_singleton_iff.1 heq
    exact hne (congrArg ([·]) (String.toList_eq_nil_iff.1 hl))
  have hback : String.ofList ∘ String.toList = id := funext fun _ => String.ofList_toList
  unfold splitLines
  dsimp only
  rw [h, if_neg hne', List.map_map, hback, List.map_id]

theorem joined_splitLines (h : splitLines text ≠ []) : Joined (splitLines text) text := by
  have hjoined := joined_lines text.toList
  rw [String.ofList_toList] at hjoined
  unfold splitLines at h ⊢
  dsimp only at h ⊢
  split
  · rename_i hblank
    rw [if_pos hblank] at h
    exact absurd rfl h
  · exact hjoined

def unifyEndings : List Char → List Char
  | '\r' :: '\n' :: cs => '\n' :: unifyEndings cs
  | c :: cs => c :: unifyEndings cs
  | [] => []

def dropNewline (cs : List Char) : List Char :=
  if cs.getLast? = some '\n' then cs.dropLast else cs

theorem unifyEndings_cons (h : c = '\r' → cs.head? ≠ some '\n') :
    unifyEndings (c :: cs) = c :: unifyEndings cs := by
  apply unifyEndings.eq_2
  intro cs' hc hcs
  exact h hc (hcs ▸ rfl)

theorem unifyEndings_uncut (h : '\n' ∉ l) : unifyEndings l = l := by
  induction l with
  | nil => rfl
  | cons c l ih =>
    rw [List.mem_cons, not_or] at h
    have hhead : l.head? ≠ some '\n' := fun hhead => h.2 (List.mem_of_mem_head? hhead)
    rw [unifyEndings_cons fun _ => hhead, ih h.2]

theorem unifyEndings_cut (h : '\n' ∉ l) (cs : List Char) :
    unifyEndings (l ++ '\n' :: cs) = dropReturn l ++ '\n' :: unifyEndings cs := by
  induction l with
  | nil => exact unifyEndings_cons fun hc => absurd hc (by decide)
  | cons c l ih =>
    rw [List.mem_cons, not_or] at h
    -- Only as the last character of the line is a carriage return dropped.
    cases l with
    | nil =>
      by_cases hc : c = '\r'
      · rw [hc]
        rfl
      · have hdrop : dropReturn [c] = [c] := dropReturn_of_ne (by simpa using hc)
        rw [List.cons_append, unifyEndings_cons fun h => absurd h hc, ih h.2, hdrop]
        rfl
    | cons d l =>
      have hhead : (d :: l ++ '\n' :: cs).head? ≠ some '\n' := by
        rw [List.cons_append, List.head?_cons]
        exact fun hd => h.2 (Option.some.inj hd ▸ List.mem_cons_self)
      have hdrop : dropReturn (c :: d :: l) = c :: dropReturn (d :: l) := by
        unfold dropReturn
        rw [List.getLast?_cons_cons, List.dropLast_cons_cons]
        split
        · rfl
        · rfl
      rw [List.cons_append, unifyEndings_cons fun _ => hhead, ih h.2, hdrop, List.cons_append]

theorem dropNewline_cut (l : List Char) (hne : cs ≠ []) :
    dropNewline (l ++ '\n' :: cs) = l ++ '\n' :: dropNewline cs := by
  obtain ⟨c, cs, rfl⟩ := List.exists_cons_of_ne_nil hne
  unfold dropNewline
  rw [List.getLast?_append_cons, List.getLast?_cons_cons]
  split
  · rw [List.dropLast_append_cons, List.dropLast_cons_cons]
  · rfl

theorem unifyEndings_ne_nil (hne : cs ≠ []) : unifyEndings cs ≠ [] := by
  fun_cases unifyEndings cs with
  | case1 => exact List.cons_ne_nil _ _
  | case2 => exact List.cons_ne_nil _ _
  | case3 => exact hne

theorem lines_eq_pieces (hne : cs ≠ []) :
    lines cs = pieces '\n' (dropNewline (unifyEndings cs)) := by
  induction cs using line_induction with
  | uncut l h =>
    have hdrop : dropNewline l = l := if_neg fun hlast => h (List.mem_of_getLast? hlast)
    rw [lines_uncut h hne, unifyEndings_uncut h, hdrop, pieces_of_not_mem h]
  | cut l cs h ih =>
    have hpieces : pieces '\n' (dropReturn l) = [dropReturn l] := by
      apply pieces_of_not_mem
      intro hmem
      unfold dropReturn at hmem
      split at hmem
      · exact h (List.mem_of_mem_dropLast hmem)
      · exact h hmem
    rw [lines_cut h, unifyEndings_cut h]
    -- The newline at the cut is also the one to be dropped exactly if nothing follows it.
    by_cases hcs : cs = []
    · have hdrop : dropNewline (dropReturn l ++ ['\n']) = dropReturn l := by
        rw [dropNewline, List.getLast?_concat, if_pos rfl, List.dropLast_concat]
      rw [hcs, unifyEndings, hdrop, hpieces]
      rfl
    · rw [dropNewline_cut _ (unifyEndings_ne_nil hcs), pieces_append, hpieces, ih hcs]
      rfl

theorem pieces_eq_blank_iff {cs : List Char} : pieces c cs = [[]] ↔ cs = [] := by
  constructor
  · intro h
    cases cs with
    | nil => rfl
    | cons a cs =>
      by_cases ha : a = c
      · rw [ha, pieces_self] at h
        exact absurd (List.cons.inj h).2 (pieces_ne_nil c cs)
      · obtain ⟨piece, more, -, he⟩ := pieces_of_ne ha cs
        rw [he] at h
        cases h
  · intro h
    rw [h]
    rfl

/-- Cutting a text at its endings of lines is the same as making all endings newlines, taking one
newline from the end, and cutting at the newlines. -/
theorem splitLines_eq_pieces (text : String) :
    let unified := dropNewline (unifyEndings text.toList)
    splitLines text = if unified = [] then [] else (pieces '\n' unified).map String.ofList := by
  by_cases hne : text.toList = []
  · unfold splitLines
    rw [hne]
    rfl
  · unfold splitLines
    dsimp only
    simp only [lines_eq_pieces hne, pieces_eq_blank_iff]

end Text

namespace Command

def source (f : String × String) : String × List String := (f.1, Text.splitLines f.2)

theorem ofDirectory_eq (workDir : String) (files : List (String × String)) :
    Source.Library.ofDirectory workDir files =
      { workDir
        load? := fun path =>
          ((files.map source).find? fun f => Path.key workDir f.1 = Path.key workDir path).map
            Prod.snd
        keys := (files.map source).map fun f => Path.key workDir f.1 } := by
  unfold Source.Library.ofDirectory
  simp only [List.find?_map, Option.map_map, List.map_map]
  rfl

theorem Host.isSome_content? (host : Host) (key : String) :
    (host.content? key).isSome =
      (host.files.map source).any fun f => Path.key host.workDir f.1 = key := by
  unfold Host.content?
  rw [Option.isSome_map, List.isSome_find?, List.any_map]
  rfl

section
variable {host : Host} {files : List (String × String)}

theorem writeFault?_sources (h : files.map source = host.files.map source) (dir : String)
    (components : List (List Char)) :
    { host with files }.writeFault? dir components = host.writeFault? dir components := by
  have hcontent (path : String) :
      ({ host with files }.content? path).isSome = (host.content? path).isSome := by
    rw [Host.isSome_content?, Host.isSome_content?, h]
  induction components generalizing dir with
  | nil => rfl
  | cons component more ih =>
    rw [Host.writeFault?, Host.writeFault?]
    simp only [ih, hcontent]

theorem assembleFile_sources (h : files.map source = host.files.map source) (path : String)
    (passes : Int) :
    assembleFile { host with files } path passes = assembleFile host path passes := by
  unfold assembleFile Host.library
  rw [ofDirectory_eq, ofDirectory_eq, h]

/-- Of its files, a command sees nothing but their lines. -/
theorem run_sources (h : files.map source = host.files.map source) (args : List String) :
    run { host with files } args = run host args := by
  unfold run
  cases Invocation.ofArguments args with
  | error e => rfl
  | ok i =>
    cases i with
    | assemble path options =>
      show runAssemble _ _ _ = runAssemble _ _ _
      unfold runAssemble
      simp only [assembleFile_sources h, writeFault?_sources h]
    | evaluate path? exprs =>
      have hsymbols : symbolsOf { host with files } path? = symbolsOf host path? := by
        cases path? with
        | none => rfl
        | some path =>
          unfold symbolsOf
          simp only [assembleFile_sources h]
      show runEvaluate _ _ _ = runEvaluate _ _ _
      unfold runEvaluate
      rw [hsymbols]
      rfl
    | help => rfl

end

end Command

namespace Text

/-- Cutting a text gives these lines exactly if the text was joined from them, with any of the
endings behind each. Then what a line says is reported with its place among the lines, and another
text that was joined from them, in the place of the first, leaves every command as it is. -/
theorem splitLines_eq_iff_joined {lines : List String} (hlines : ∀ l ∈ lines, IsLine l)
    (hne : lines ≠ []) (hblank : lines ≠ [""]) :
    (∀ text, splitLines text = lines ↔ Joined lines text) ∧
    (∀ text, Joined lines text →
      ∀ file before raw after, lines = before ++ raw :: after →
        let line := Source.elementsOfLine ⟨file, before.length + 1⟩ raw
        Source.elementsOfLines file (splitLines text) =
          ((Source.elementsOfLines file before).1 ++ line.1 ++
              ((Source.elementsFrom file (before.length + 1) after).map Prod.fst).flatten,
            (Source.elementsOfLines file before).2 ++ line.2 ++
              ((Source.elementsFrom file (before.length + 1) after).map Prod.snd).flatten)) ∧
    ∀ text text', Joined lines text → Joined lines text' →
      ∀ (host : Command.Host) (path : String) (files files' : List (String × String)),
        host.files = files ++ (path, text) :: files' →
        ∀ args, Command.run { host with files := files ++ (path, text') :: files' } args =
          Command.run host args := by
  have hsplit {text : String} (h : Joined lines text) : splitLines text = lines :=
    splitLines_of_lines hblank (h.lines_eq hlines)
  refine ⟨fun text => ⟨fun h => ?_, hsplit⟩, ?_, ?_⟩
  · rw [← h] at hne ⊢
    exact joined_splitLines hne
  · intro text h file before raw after hat
    rw [hsplit h, hat]
    exact Source.elementsOfLines_at file before raw after
  · intro text text' h h' host path files files' hfiles args
    apply Command.run_sources
    have hsource : Command.source (path, text') = Command.source (path, text) := by
      rw [Command.source, Command.source, hsplit h, hsplit h']
    rw [hfiles, List.map_append, List.map_append, List.map_cons, List.map_cons, hsource]

set_option maxRecDepth 10000 in
/-- Of two texts of the same lines, only the second ends its last line, which is reported. -/
theorem splitLines_eq_iff_joined_mixed :
    let lines := ["", ";\r;", "", " nop 1"]
    let text := "\r\n;\r;\n\r\n nop 1"
    let text' := "\n;\r;\r\n\n nop 1\r\n"
    let host : Command.Host := .ofDirectory "/w" [("f", text)] ""
    (∀ l ∈ lines, IsLine l) ∧ lines ≠ [] ∧ lines ≠ [""] ∧ Joined lines text ∧ Joined lines text' ∧
      splitLines text = lines ∧ splitLines text' = lines ∧
      Source.elementsOfLines "f" (splitLines text) =
        ([], [⟨.operandShape "nop" ["1"], ⟨"f", 4⟩⟩]) ∧
      Command.run { host with files := [("f", text')] } ["asm", "f"] =
        Command.run host ["asm", "f"] := by
  intro lines text text' host
  have hlines : ∀ l ∈ lines, IsLine l := by decide
  have hlast : Joined [" nop 1"] " nop 1" := .last (by decide)
  have htext : Joined lines text :=
    .ended "" .returnNewline (.ended ";\r;" .newline (.ended "" .returnNewline hlast))
  have htext' : Joined lines text' :=
    .ended "" .newline (.ended ";\r;" .returnNewline (.ended "" .newline
      (.ended " nop 1" .returnNewline .nil)))
  have hbefore : Source.elementsOfLines "f" ["", ";\r;", ""] = ([], []) := by decide +kernel
  have hline : Source.elementsOfLine ⟨"f", ["", ";\r;", ""].length + 1⟩ " nop 1" =
      ([], [⟨.operandShape "nop" ["1"], ⟨"f", 4⟩⟩]) := by decide +kernel
  obtain ⟨hiff, hplace, hrun⟩ :=
    splitLines_eq_iff_joined hlines (List.cons_ne_nil _ _) (by decide)
  have hread := hplace text htext "f" ["", ";\r;", ""] " nop 1" [] rfl
  dsimp only at hread
  rw [hbefore, hline] at hread
  exact ⟨hlines, List.cons_ne_nil _ _, by decide, htext, htext', (hiff text).2 htext,
    (hiff text').2 htext', hread, hrun text text' htext htext' host "f" [] [] rfl _⟩

end Text
end Z80Asm
