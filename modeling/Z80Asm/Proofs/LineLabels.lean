import Z80Asm.Proofs.Cutting

/-! Names and the labels at the start of a line. What follows the labels may be replaced by another
text that begins alike, and the labels are read as before. -/

namespace Z80Asm
set_option autoImplicit true

namespace Text

/-- No white space stands at either end. -/
structure Tidy (cs : List Char) : Prop where
  head : ∀ c, cs.head? = some c → isSpace c = false
  last : ∀ c, cs.getLast? = some c → isSpace c = false

theorem trimRight_eq_self (h : ∀ c, cs.getLast? = some c → isSpace c = false) :
    trimRight cs = cs := by
  rcases List.eq_nil_or_concat cs with rfl | ⟨init, c, rfl⟩
  · rfl
  · have hc := h c (by rw [List.concat_eq_append, List.getLast?_concat])
    rw [trimRight, List.concat_eq_append, List.reverse_append, List.reverse_singleton,
      List.singleton_append, List.dropWhile_cons_of_neg (by rw [hc]; decide), List.reverse_cons,
      List.reverse_reverse]

theorem trimLeft_eq_self (h : ∀ c, cs.head? = some c → isSpace c = false) :
    trimLeft cs = cs := by
  cases cs with
  | nil => rfl
  | cons c cs =>
    rw [trimLeft, List.dropWhile_cons_of_neg (by rw [h c rfl]; decide)]

theorem Tidy.trim_eq (h : Tidy cs) : trim cs = cs := by
  rw [trim, trimLeft_eq_self h.head, trimRight_eq_self h.last]

theorem getLast?_trimRight (cs : List Char) : ∀ c, (trimRight cs).getLast? = some c →
    isSpace c = false := by
  intro c hc
  rw [trimRight, List.getLast?_reverse] at hc
  have hnot := List.head?_dropWhile_not isSpace cs.reverse
  rw [hc] at hnot
  exact hnot

theorem tidy_trim (cs : List Char) : Tidy (trim cs) := by
  refine ⟨fun c hc => ?_, getLast?_trimRight _⟩
  have hprefix : trim cs <+: trimLeft cs := List.rdropWhile_prefix isSpace (trimLeft cs)
  obtain ⟨back, hback⟩ := hprefix
  have hnot := List.head?_dropWhile_not isSpace cs
  have hhead : (cs.dropWhile isSpace).head? = some c := by
    change (trimLeft cs).head? = some c
    rw [← hback, List.head?_append, hc]
    rfl
  rw [hhead] at hnot
  exact hnot

theorem Tidy.append {front s s' : List Char} (h : Tidy (front ++ s)) (hs' : Tidy s')
    (hhead : s'.head? = s.head?) : Tidy (front ++ s') := by
  refine ⟨fun c hc => h.head c ?_, fun c hc => ?_⟩
  · rw [List.head?_append] at hc ⊢
    rwa [← hhead]
  · cases s' with
    | nil =>
      cases s with
      | nil => exact h.last c hc
      | cons d s => cases hhead
    | cons d s' =>
      apply hs'.last c
      rw [List.getLast?_append, List.getLast?_cons, Option.some_or] at hc
      rw [List.getLast?_cons]
      exact hc

theorem Tidy.prepend {front : List Char} (h : Tidy cs) (hne : cs ≠ [])
    (hfront : ∀ c, (front ++ cs).head? = some c → isSpace c = false) : Tidy (front ++ cs) := by
  refine ⟨hfront, fun c hc => ?_⟩
  have hlast := List.getLast?_eq_some_getLast hne
  rw [List.getLast?_append, hlast, Option.some_or] at hc
  exact h.last c (hlast.trans hc)

theorem Tidy.suffix (front : List Char) {s : List Char} (h : Tidy (front ++ s)) :
    ∀ c, s.getLast? = some c → isSpace c = false := by
  intro c hc
  apply h.last c
  rw [List.getLast?_append, hc]
  rfl

theorem exists_trimLeft (h : ∀ c, cs.getLast? = some c → isSpace c = false) :
    ∃ spaces, cs = spaces ++ trim cs ∧ ∀ c ∈ spaces, isSpace c = true := by
  obtain ⟨front, back, hcs, hfront, hback⟩ := exists_trim cs
  refine ⟨front, ?_, hfront⟩
  rcases List.eq_nil_or_concat back with rfl | ⟨init, c, rfl⟩
  · rwa [List.append_nil] at hcs
  · have hc := h c (by
      rw [hcs, List.concat_eq_append, ← List.append_assoc, ← List.append_assoc,
        List.getLast?_concat])
    have hspace := hback c (by rw [List.concat_eq_append]; exact List.mem_concat_self)
    rw [hc] at hspace
    cases hspace

theorem exists_trimRight (cs : List Char) :
    ∃ spaces, cs = trimRight cs ++ spaces ∧ ∀ c ∈ spaces, isSpace c = true := by
  refine ⟨(cs.reverse.takeWhile isSpace).reverse, ?_,
    fun c hc => List.mem_takeWhile_imp (List.mem_reverse.1 hc)⟩
  rw [trimRight, ← List.reverse_append, List.takeWhile_append_dropWhile, List.reverse_reverse]

end Text

namespace Source

theorem part_plain (h : isIdentPart c = true) :
    Text.isSpace c = false ∧ isBlank c = false ∧ c ≠ ':' ∧ c ∉ Token.cutters := by
  have hspaces : Token.spaceCodes.all (fun n => !isIdentPart (Char.ofNat n)) = true := by
    decide +kernel
  have hcutters : (' ' :: '\t' :: ':' :: Token.cutters).all (!isIdentPart ·) = true := by decide
  have hmem {d : Char} (hd : d ∈ ' ' :: '\t' :: ':' :: Token.cutters) : c ≠ d := by
    rintro rfl
    have hnot := List.all_eq_true.1 hcutters c hd
    rw [h] at hnot
    cases hnot
  refine ⟨?_, ?_, hmem (by decide), fun hc => hmem (d := c) (by simp [hc]) rfl⟩
  · rw [← Bool.not_eq_true]
    intro hspace
    have hnot := List.all_eq_true.1 hspaces c.toNat (Token.mem_spaceCodes hspace)
    rw [Char.ofNat_toNat, h] at hnot
    cases hnot
  · unfold isBlank
    rw [decide_eq_false (hmem (by decide)), decide_eq_false (hmem (by decide))]
    rfl

theorem isIdentPart_of_start (h : isIdentStart c = true) : isIdentPart c = true := by
  unfold isIdentPart
  rw [h]
  rfl

theorem exists_of_isName (h : isName cs = true) :
    ∃ c rest, cs = c :: rest ∧ isIdentStart c = true ∧ ∀ d ∈ cs, isIdentPart d = true := by
  cases cs with
  | nil => cases h
  | cons c rest =>
    obtain ⟨hc, hrest⟩ := Bool.and_eq_true_iff.1 h
    exact ⟨c, rest, rfl, hc, List.forall_mem_cons.2 ⟨isIdentPart_of_start hc,
      List.all_eq_true.1 hrest⟩⟩

theorem takeWhile_part {cs rest : List Char} (h : ∀ d ∈ cs, isIdentPart d = true)
    (hrest : ∀ c, rest.head? = some c → isIdentPart c = false) :
    (cs ++ rest).takeWhile isIdentPart = cs ∧ (cs ++ rest).dropWhile isIdentPart = rest := by
  rw [List.takeWhile_append_of_pos h, List.dropWhile_append_of_pos h]
  cases rest with
  | nil => exact ⟨List.append_nil cs, rfl⟩
  | cons c rest =>
    have hc : ¬ isIdentPart c = true := Bool.eq_false_iff.1 (hrest c rfl)
    rw [List.takeWhile_cons_of_neg hc, List.dropWhile_cons_of_neg hc, List.append_nil]
    exact ⟨rfl, rfl⟩

theorem tidy_name (h : isName cs = true) : Text.Tidy cs := by
  obtain ⟨-, -, -, -, hall⟩ := exists_of_isName h
  exact ⟨fun c hc => (part_plain (hall c (List.mem_of_head? hc))).1,
    fun c hc => (part_plain (hall c (List.mem_of_getLast? hc))).1⟩

theorem ne_nil_of_isName (h : isName cs = true) : cs ≠ [] := by
  rintro rfl
  cases h

theorem splitName_append {name rest : List Char} (h : isName name = true)
    (hrest : ∀ c, rest.head? = some c → isIdentPart c = false) :
    splitName (name ++ rest) = (name, rest) := by
  obtain ⟨c, cs, rfl, hc, hall⟩ := exists_of_isName h
  obtain ⟨htake, hdrop⟩ :=
    takeWhile_part (fun d hd => hall d (List.mem_cons_of_mem c hd)) hrest
  rw [List.cons_append, splitName, if_pos hc, htake, hdrop]

theorem parse_of_isName (h : isName x.toList = true) : Expr.parse x = .ok (.ident x) := by
  obtain ⟨c, cs, hx, hc, hall⟩ := exists_of_isName h
  have hend : ∀ d, ([] : List Char).head? = some d → isIdentPart d = false := by
    intro d hd
    cases hd
  have htake : cs.takeWhile isIdentPart = cs := by
    rw [hx] at hall
    have hboth := takeWhile_part (fun d hd => hall d (List.mem_cons_of_mem c hd)) hend
    rw [List.append_nil] at hboth
    exact hboth.1
  have hread : Token.readLexeme 0 c cs = .ok ⟨.identifier, x, cs.length⟩ := by
    rw [Token.readLexeme, if_pos hc]
    dsimp only
    rw [htake, ← hx, String.ofList_toList]
  have hspace : ¬ Text.isSpace c = true :=
    Bool.eq_false_iff.1 (part_plain (isIdentPart_of_start hc)).1
  have hlex : Token.lex x = ⟨[⟨.identifier, x, 0⟩, ⟨.eof, "", cs.length + 1⟩], none⟩ := by
    rw [Token.lex, hx, Token.lexFrom, if_neg hspace, hread]
    dsimp only
    rw [List.drop_length, Token.lexFrom, Nat.zero_add]
    rfl
  obtain ⟨q, htokens, htree, hadmitted⟩ :=
    (Grammar.Phrase.ident ⟨⟨.identifier, x, 0⟩, rfl⟩).exists_of_primary .logicalOr
  have hderivation : (Grammar.Phrase.plain q).tokens ++ [(⟨.eof, "", cs.length + 1⟩ : Token)] =
      [⟨.identifier, x, 0⟩, ⟨.eof, "", cs.length + 1⟩] := by
    rw [Grammar.Phrase.tokens, htokens]
    rfl
  have hparsed := Grammar.Derivation.parseTokens_eq
    ⟨.plain q, ⟨_, rfl⟩, hadmitted trivial, hderivation⟩ x
  have htree' : (Grammar.Phrase.plain q).tree = .ident x := htree
  rw [Expr.parse, hlex]
  dsimp only
  rw [hparsed, Grammar.Derivation.tree, htree']

theorem of_splitName (h : splitName cs = (name, rest)) (hne : name ≠ []) :
    cs = name ++ rest ∧ isName name = true ∧
      ∀ c, rest.head? = some c → isIdentPart c = false := by
  cases cs with
  | nil => cases h; exact (hne rfl).elim
  | cons c cs =>
    rw [splitName] at h
    split at h
    · rename_i hc
      cases h
      refine ⟨?_, ?_, fun d hd => ?_⟩
      · rw [List.cons_append, List.takeWhile_append_dropWhile]
      · rw [isName, hc]
        exact List.all_eq_true.2 fun d hd => List.mem_takeWhile_imp hd
      · have hnot := List.head?_dropWhile_not isIdentPart cs
        rw [hd] at hnot
        exact hnot
    · cases h
      exact (hne rfl).elim

def Unquoted (cs : List Char) : Prop := ∀ c ∈ cs, c ≠ '"' ∧ c ≠ '\''

theorem Unquoted.append (h : Unquoted cs) (h' : Unquoted cs') : Unquoted (cs ++ cs') := by
  intro c hc
  rcases List.mem_append.1 hc with hc | hc
  · exact h c hc
  · exact h' c hc

theorem unquoted_of_not_cutters (h : ∀ c ∈ cs, c ∉ Token.cutters) : Unquoted cs := by
  intro c hc
  have hcut := h c hc
  simp only [Token.cutters, List.mem_cons, not_or] at hcut
  exact ⟨hcut.1, hcut.2.1⟩

theorem unquoted_spaces (h : ∀ c ∈ cs, Text.isSpace c = true) : Unquoted cs :=
  unquoted_of_not_cutters fun c hc => (Token.space_plain (h c hc)).2.1

theorem unquoted_name (h : isName cs = true) : Unquoted cs := by
  obtain ⟨-, -, -, -, hall⟩ := exists_of_isName h
  exact unquoted_of_not_cutters fun c hc => (part_plain (hall c hc)).2.2.2

/-- A label, and what follows it. -/
theorem readLabels_label {name rest : List Char} (hname : isName name = true)
    (h : readLabels (Text.trim rest) = (labels, more)) :
    (rest.head? ≠ some ':' →
        readLabels (name ++ ':' :: rest) = (⟨name, false⟩ :: labels, more)) ∧
      readLabels (name ++ ':' :: ':' :: rest) = (⟨name, true⟩ :: labels, more) := by
  have hcolon (cs : List Char) : ∀ c, (':' :: cs).head? = some c → isIdentPart c = false := by
    intro c hc
    cases hc
    decide
  have hne : name ≠ [] := by
    rintro rfl
    cases hname
  constructor
  · intro hrest
    have hsplit := splitName_append hname (hcolon rest)
    unfold readLabels
    split
    · rename_i heq
      rw [hsplit] at heq
      cases heq
      exact (hne rfl).elim
    · rename_i heq
      rw [hsplit] at heq
      cases heq
      exact (hrest rfl).elim
    · rename_i heq
      rw [hsplit] at heq
      cases heq
      rw [h]
    · rename_i hnone heq
      rw [hsplit] at heq
      cases heq
      exact (hnone rest rfl).elim
  · have hsplit := splitName_append hname (hcolon (':' :: rest))
    unfold readLabels
    split
    · rename_i heq
      rw [hsplit] at heq
      cases heq
      exact (hne rfl).elim
    · rename_i heq
      rw [hsplit] at heq
      cases heq
      rw [h]
    · rename_i hnone heq
      rw [hsplit] at heq
      cases heq
      exact (hnone rest rfl).elim
    · rename_i hnone _ heq
      rw [hsplit] at heq
      cases heq
      exact (hnone rest rfl).elim

theorem readLabels_name {name rest : List Char} (hname : isName name = true)
    (hrest : ∀ c, rest.head? = some c → isIdentPart c = false ∧ c ≠ ':') :
    readLabels (name ++ rest) =
      if isEqu (splitWord (Text.trim rest)).1 then ([⟨name, false⟩], Text.trim rest)
      else ([], name ++ rest) := by
  have hne : name ≠ [] := by
    rintro rfl
    cases hname
  have hsplit := splitName_append hname fun c hc => (hrest c hc).1
  unfold readLabels
  split
  · rename_i heq
    rw [hsplit] at heq
    cases heq
    exact (hne rfl).elim
  · rename_i heq
    rw [hsplit] at heq
    cases heq
    exact ((hrest ':' rfl).2 rfl).elim
  · rename_i heq
    rw [hsplit] at heq
    cases heq
    exact ((hrest ':' rfl).2 rfl).elim
  · rename_i heq
    rw [hsplit] at heq
    cases heq
    rfl

/-- The text begins with the labels, and what stands behind them may be replaced by what begins
alike. -/
structure Labelled (cs : List Char) (labels : List LabelText) (s : List Char) : Prop where
  unlabelled : readLabels s = ([], s)
  replaced : ∃ front, cs = front ++ s ∧ Unquoted front ∧
    ∀ s', s'.head? = s.head? → Text.Tidy s' → readLabels s' = ([], s') →
      readLabels (front ++ s') = (labels, s')

/-- One more label, written as the name and `colons`. -/
theorem Labelled.label {colons rest : List Char} (h : Labelled (Text.trim rest) labels s)
    (hrest : ∀ c, rest.getLast? = some c → Text.isSpace c = false) (hname : isName name = true)
    (hcolons : Unquoted colons)
    (hlabel : ∀ rest' more, rest'.head? = rest.head? →
      readLabels (Text.trim rest') = (labels, more) →
      readLabels (name ++ (colons ++ rest')) = (l :: labels, more)) :
    Labelled (name ++ (colons ++ rest)) (l :: labels) s := by
  obtain ⟨front, hfront, hunquoted, hreplaced⟩ := h.replaced
  obtain ⟨spaces, hspaces, hall⟩ := Text.exists_trimLeft hrest
  refine ⟨h.unlabelled, name ++ (colons ++ (spaces ++ front)), ?_, ?_, fun s' hhead hs' hnone => ?_⟩
  · conv_lhs => rw [hspaces, hfront]
    simp only [List.append_assoc]
  · exact (unquoted_name hname).append (hcolons.append ((unquoted_spaces hall).append hunquoted))
  · have htidy : Text.Tidy (front ++ s') := by
      have hwhole := Text.tidy_trim rest
      rw [hfront] at hwhole
      exact hwhole.append hs' hhead
    have htrim : Text.trim (spaces ++ (front ++ s')) = front ++ s' := by
      rw [Text.trim_spaces_append hall, htidy.trim_eq]
    have hsame : (spaces ++ (front ++ s')).head? = rest.head? := by
      conv_rhs => rw [hspaces, hfront]
      simp only [List.head?_append, hhead]
    have hmore := hlabel (spaces ++ (front ++ s')) s' hsame
      ((congrArg readLabels htrim).trans (hreplaced s' hhead hs' hnone))
    simpa only [List.append_assoc] using hmore

theorem labelled_nil (h : readLabels cs = ([], cs)) : Labelled cs [] cs :=
  ⟨h, [], rfl, fun _ hc => (List.not_mem_nil hc).elim, fun _ _ _ hs' => hs'⟩

theorem readLabels_of_unnamed {rest : List Char} (h : splitName cs = ([], rest)) :
    readLabels cs = ([], cs) := by
  have hempty {name rest : List Char} (hne : name = [] → False)
      (heq : splitName cs = (name, rest)) : False := by
    rw [h] at heq
    exact hne (Prod.mk.inj heq).1.symm
  unfold readLabels
  split
  · rfl
  · rename_i hne heq
    exact (hempty hne heq).elim
  · rename_i hne _ heq
    exact (hempty hne heq).elim
  · rename_i hne _ _ heq
    exact (hempty hne heq).elim

theorem Labelled.publicLabel {name rest : List Char} (h : Labelled (Text.trim rest) labels s)
    (hcs : Text.Tidy (name ++ ':' :: ':' :: rest)) (hname : isName name = true) :
    Labelled (name ++ ':' :: ':' :: rest) (⟨name, true⟩ :: labels) s := by
  have hcolons : Unquoted [':', ':'] :=
    List.forall_mem_cons.2 ⟨by decide, List.forall_mem_singleton.2 (by decide)⟩
  have hrest : ∀ c, rest.getLast? = some c → Text.isSpace c = false :=
    Text.Tidy.suffix (name ++ [':', ':']) (by rw [List.append_assoc]; exact hcs)
  exact h.label hrest hname hcolons fun rest' more _ hread => (readLabels_label hname hread).2

theorem Labelled.localLabel {name rest : List Char} (h : Labelled (Text.trim rest) labels s)
    (hcs : Text.Tidy (name ++ ':' :: rest)) (hname : isName name = true)
    (hsingle : rest.head? ≠ some ':') :
    Labelled (name ++ ':' :: rest) (⟨name, false⟩ :: labels) s := by
  have hcolon : Unquoted [':'] := List.forall_mem_singleton.2 (by decide)
  have hrest : ∀ c, rest.getLast? = some c → Text.isSpace c = false :=
    Text.Tidy.suffix (name ++ [':']) (by rw [List.append_assoc]; exact hcs)
  exact h.label hrest hname hcolon fun rest' more hhead hread =>
    (readLabels_label hname hread).1 (hhead ▸ hsingle)

theorem labelled_of_readLabels {cs s : List Char} (hcs : Text.Tidy cs)
    (h : readLabels cs = (labels, s)) (hs : isEqu (splitWord s).1 = false) :
    Labelled cs labels s := by
  have hhead {rest : List Char} (h : ∀ cs, rest = ':' :: cs → False) : rest.head? ≠ some ':' := by
    intro hstart
    cases rest with
    | nil => cases hstart
    | cons c rest =>
      cases hstart
      exact h rest rfl
  fun_induction readLabels cs generalizing labels with
  | case1 cs rest hname =>
    cases h
    exact labelled_nil (readLabels_of_unnamed hname)
  | case2 cs name rest hne hsplit labels' more hmore ih =>
    obtain ⟨rfl, hname, -⟩ := of_splitName hsplit hne
    obtain ⟨rfl, rfl⟩ := Prod.mk.inj h
    exact (ih (Text.tidy_trim rest) hmore).publicLabel hcs hname
  | case3 cs name rest hne hsingle hsplit labels' more hmore ih =>
    obtain ⟨rfl, hname, -⟩ := of_splitName hsplit hne
    obtain ⟨rfl, rfl⟩ := Prod.mk.inj h
    exact (ih (Text.tidy_trim rest) hmore).localLabel hcs hname (hhead hsingle)
  | case4 cs name rest hne _ _ hsplit behind =>
    rename_i hequ
    obtain ⟨-, hs'⟩ := Prod.mk.inj h
    rw [← hs', hequ] at hs
    cases hs
  | case5 cs name rest hne hdouble hsingle hsplit behind =>
    rename_i hequ
    obtain ⟨rfl, hname, hrest⟩ := of_splitName hsplit hne
    cases h
    apply labelled_nil
    rw [readLabels_name hname fun c hc => ⟨hrest c hc, ?_⟩, if_neg hequ]
    rintro rfl
    exact hhead hsingle hc

end Source
end Z80Asm
