import Z80Asm.Proofs.Quoting

/-! Lines are not cut within expressions: a comment, a comma or a parenthesis in a string is none,
and all others are where the expression ends. This holds unless a string in apostrophes stands
directly behind a question mark. -/

namespace Z80Asm
set_option autoImplicit true

namespace Text

theorem trimRight_append_spaces {spaces : List Char} (h : ∀ c ∈ spaces, isSpace c = true)
    (cs : List Char) : trimRight (cs ++ spaces) = trimRight cs := by
  unfold trimRight
  rw [List.reverse_append, List.dropWhile_append_of_pos]
  exact fun c hc => h c (List.mem_reverse.1 hc)

theorem trim_spaces_append {spaces : List Char} (h : ∀ c ∈ spaces, isSpace c = true)
    (cs : List Char) : trim (spaces ++ cs) = trim cs := by
  unfold trim trimLeft
  rw [List.dropWhile_append_of_pos h]

theorem trim_append_spaces {spaces : List Char} (h : ∀ c ∈ spaces, isSpace c = true)
    (cs : List Char) : trim (cs ++ spaces) = trim cs := by
  unfold trim trimLeft
  rw [List.dropWhile_append]
  split
  · rename_i hempty
    rw [List.isEmpty_iff.1 hempty, List.dropWhile_eq_nil_iff.2 h]
  · exact trimRight_append_spaces h _

theorem exists_trim (cs : List Char) :
    ∃ front back, cs = front ++ (trim cs ++ back) ∧ (∀ c ∈ front, isSpace c = true) ∧
      ∀ c ∈ back, isSpace c = true := by
  refine ⟨cs.takeWhile isSpace, ((trimLeft cs).reverse.takeWhile isSpace).reverse, ?_,
    fun c => List.mem_takeWhile_imp, fun c hc => List.mem_takeWhile_imp (List.mem_reverse.1 hc)⟩
  unfold trim trimRight
  rw [← List.reverse_append, List.takeWhile_append_dropWhile, List.reverse_reverse, trimLeft,
    List.takeWhile_append_dropWhile]

theorem trim_of_ends (h : isSpace c = false) (h' : isSpace d = false) (cs : List Char) :
    trim (c :: (cs ++ [d])) = c :: (cs ++ [d]) := by
  unfold trim trimLeft trimRight
  rw [List.dropWhile_cons_of_neg (by rw [h]; decide), ← List.cons_append, List.reverse_append,
    List.reverse_singleton, List.singleton_append, List.dropWhile_cons_of_neg (by rw [h']; decide),
    List.reverse_cons, List.reverse_reverse]

end Text

namespace Source

/-- A character at which no name ends. -/
def Free (previous? : Option Char) : Prop :=
  (previous?.any fun p => isIdentPart (lastByte p)) = false

theorem free_none : Free none := rfl

/-- What the cutting of lines finds in the characters `cs`, marked as `ms`: nothing is open behind
them, no comment begins, and parentheses are balanced with all commas in them. -/
structure Whole (cs : List Char) (ms : List (Char × Bool)) : Prop where
  chars : ms.map Prod.fst = cs
  marks : ∀ previous? rest, Free previous? →
    markFrom previous? none (cs ++ rest) = ms ++ markFrom (cs.getLast?.or previous?) none rest
  comment : (';', true) ∉ ms
  nests : ∀ low depth, low ≤ depth →
    Grammar.descend low depth (ms.filterMap Token.delimiter?) = some depth

/-- An expression without tight choices is cut as it is read. -/
theorem whole_of_parse (h : Expr.parse src = .ok e)
    (hloose : ¬ tightChoice <:+: Token.marks src.toList) :
    Whole src.toList (Token.marks src.toList) := by
  obtain ⟨hlex, -, hseparate, hdepth⟩ := Expr.tokens_of_parse h
  obtain ⟨hcomment, hdelimiters⟩ := Token.delimiters_marksFrom hlex
  refine ⟨Token.map_fst_marksFrom hlex, fun previous? rest hfree => ?_, hcomment, ?_⟩
  · refine (agrees_iff hlex hseparate previous? (fun _ hany => ?_) rest).2 ⟨?_, hloose⟩
    · rw [hfree] at hany
      cases hany
    · rintro ⟨rfl, -⟩
      unfold Free at hfree
      exact absurd hfree (by decide)
  · intro low depth hlow
    exact (hdelimiters low depth).trans (hdepth low depth hlow)

theorem markFrom_free (h : Free previous?) (h' : Free previous'?) (cs : List Char) :
    markFrom previous? none cs = markFrom previous'? none cs := by
  cases cs with
  | nil => rfl
  | cons c cs =>
    have hopens : opensLiteral previous? c = opensLiteral previous'? c := by
      unfold opensLiteral
      rw [h, h']
    rw [markFrom, markFrom, hopens]

theorem markFrom_separator (h : c ≠ '"' ∧ c ≠ '\'') (previous? : Option Char) (cs : List Char) :
    markFrom previous? none (c :: cs) = (c, true) :: markFrom (some c) none cs :=
  markFrom_plain (List.forall_mem_singleton.2 h) previous? cs

theorem Whole.stripComment (h : Whole cs ms) (comment : List Char) :
    stripComment (cs ++ ';' :: comment) = cs := by
  unfold Source.stripComment mark
  rw [h.marks none _ rfl, markFrom_separator (by decide), List.takeWhile_append_of_pos]
  · rw [List.takeWhile_cons_of_neg (by decide), List.append_nil, h.chars]
  · intro m hm
    rw [Bool.not_eq_true', Bool.and_eq_false_iff]
    by_contra hcontra
    simp only [not_or, Bool.not_eq_false, decide_eq_false_iff_not, not_not] at hcontra
    exact h.comment (by rw [← hcontra.1, ← hcontra.2]; exact hm)

/-- A marked character is a delimiter, or means nothing to the cutting of operands. -/
theorem delimiter_cases (m : Char × Bool) :
    m = ('(', true) ∨ m = (')', true) ∨ m = (',', true) ∨
      (Token.delimiter? m = none ∧ nesting m = 0 ∧ (m.2 && m.1 = ',') = false ∧
        (m.2 && m.1 = ')') = false) := by
  obtain ⟨c, outside⟩ := m
  cases outside with
  | false => exact .inr (.inr (.inr ⟨rfl, rfl, rfl, rfl⟩))
  | true =>
    by_cases hopening : c = '('
    · rw [hopening]
      exact .inl rfl
    by_cases hclosing : c = ')'
    · rw [hclosing]
      exact .inr (.inl rfl)
    by_cases hcomma : c = ','
    · rw [hcomma]
      exact .inr (.inr (.inl rfl))
    refine .inr (.inr (.inr ⟨?_, ?_, decide_eq_false hcomma, decide_eq_false hclosing⟩))
    · unfold Token.delimiter?
      split
      · split <;> first | contradiction | rfl
      · rfl
    · unfold nesting
      simp only [hopening, hclosing, decide_false, Bool.and_false, Bool.false_eq_true, ↓reduceIte]

theorem descend_closing (h : Grammar.descend low depth (.rparen :: ks) = some depth') :
    low < depth ∧ Grammar.descend low (depth - 1) ks = some depth' := by
  rw [Grammar.descend] at h
  split at h
  · rename_i hlow
    exact ⟨hlow, h⟩
  · cases h

theorem descend_comma (h : Grammar.descend low depth (.comma :: ks) = some depth') :
    low < depth ∧ Grammar.descend low depth ks = some depth' := by
  rw [Grammar.descend] at h
  split at h
  · rename_i hlow
    exact ⟨hlow, h⟩
  · cases h

theorem splitMarked_append {ms : List (Char × Bool)}
    (h : Grammar.descend 0 depth (ms.filterMap Token.delimiter?) = some depth')
    (piece : List Char) (rest : List (Char × Bool)) :
    splitMarked depth piece (ms ++ rest) =
      splitMarked depth' ((ms.map Prod.fst).reverse ++ piece) rest := by
  induction ms generalizing depth piece with
  | nil =>
    cases h
    rfl
  | cons m ms ih =>
    have hpiece : ((m :: ms).map Prod.fst).reverse ++ piece =
        (ms.map Prod.fst).reverse ++ (m.1 :: piece) := by
      rw [List.map_cons, List.reverse_cons, List.append_assoc]
      rfl
    rw [hpiece, List.cons_append, splitMarked]
    rcases delimiter_cases m with rfl | rfl | rfl | ⟨hnone, hnest, hcomma, -⟩
    · exact ih h _
    · exact ih (descend_closing h).2 _
    · obtain ⟨hlow, hrest⟩ := descend_comma h
      have hdepth : ¬ depth = 0 := by omega
      simp only [hdepth, decide_false, Bool.and_false, Bool.false_eq_true, ↓reduceIte]
      have hsame : depth + nesting (',', true) = depth := Int.add_zero depth
      rw [hsame]
      exact ih hrest _
    · rw [List.filterMap_cons_none hnone] at h
      rw [hcomma, hnest, Int.add_zero]
      exact ih h _

theorem closesEarly_append {ms : List (Char × Bool)}
    (h : Grammar.descend 1 depth (ms.filterMap Token.delimiter?) = some depth')
    (rest : List (Char × Bool)) : closesEarly depth (ms ++ rest) = closesEarly depth' rest := by
  induction ms generalizing depth with
  | nil =>
    cases h
    rfl
  | cons m ms ih =>
    rw [List.cons_append, closesEarly]
    rcases delimiter_cases m with rfl | rfl | rfl | ⟨hnone, hnest, -, hclosing⟩
    · exact ih h
    · obtain ⟨hlow, hrest⟩ := descend_closing h
      have hdepth : ¬ depth + nesting (')', true) = 0 := by
        change ¬ depth + -1 = 0
        omega
      simp only [hdepth, decide_false, Bool.and_false, Bool.false_and, Bool.false_eq_true,
        ↓reduceIte]
      exact ih hrest
    · have hsame : depth + nesting (',', true) = depth := Int.add_zero depth
      rw [hsame]
      exact ih (descend_comma h).2
    · rw [List.filterMap_cons_none hnone] at h
      rw [hclosing, hnest, Int.add_zero]
      exact ih h

theorem Whole.indirect (h : Whole cs ms) :
    indirect? ('(' :: (cs ++ [')'])) = some (Text.trim cs) := by
  have hmarks : mark ('(' :: (cs ++ [')'])) = ('(', true) :: (ms ++ [(')', true)]) := by
    unfold mark
    rw [markFrom_separator (by decide), h.marks (some '(') _ (by unfold Free; decide),
      markFrom_separator (by decide)]
    rfl
  have hclosed : closesEarly 0 (mark ('(' :: (cs ++ [')']))) = false := by
    rw [hmarks]
    change closesEarly 1 (ms ++ [(')', true)]) = false
    rw [closesEarly_append (h.nests 1 1 (Int.le_refl 1))]
    rfl
  unfold indirect?
  rw [Text.trim_of_ends (by decide) (by decide)]
  change (if (cs ++ [')']).getLast? = some ')' && !closesEarly 0 (mark ('(' :: (cs ++ [')'])))
    then some (Text.trim (cs ++ [')']).dropLast) else none) = _
  rw [List.getLast?_concat, hclosed, List.dropLast_concat]
  rfl

theorem markFrom_append (previous? quote? : Option Char) (cs rest : List Char) :
    ∃ ms, markFrom previous? quote? (cs ++ rest) = markFrom previous? quote? cs ++ ms ∧
      ms.map Prod.fst = rest := by
  have hfst (previous? quote? : Option Char) (cs : List Char) :
      (markFrom previous? quote? cs).map Prod.fst = cs := by
    fun_induction markFrom previous? quote? cs with
    | _ => simp_all
  fun_induction markFrom previous? quote? cs with
  | case1 => exact ⟨_, rfl, hfst _ _ _⟩
  | case2 previous? c cs hopens ih =>
    obtain ⟨ms, hms, hrest⟩ := ih
    refine ⟨ms, ?_, hrest⟩
    rw [List.cons_append, markFrom, if_pos hopens, hms]
    rfl
  | case3 previous? c cs hopens ih =>
    obtain ⟨ms, hms, hrest⟩ := ih
    refine ⟨ms, ?_, hrest⟩
    rw [List.cons_append, markFrom, if_neg hopens, hms]
    rfl
  | case4 previous? quote =>
    cases rest with
    | nil => exact ⟨[], rfl, rfl⟩
    | cons d ds =>
      refine ⟨(d, false) :: markFrom (some d) (some quote) ds, rfl, ?_⟩
      rw [List.map_cons, hfst]
  | case5 previous? quote d ds ih =>
    obtain ⟨ms, hms, hrest⟩ := ih
    refine ⟨ms, ?_, hrest⟩
    rw [List.cons_append, List.cons_append, markFrom, if_pos rfl, hms]
    rfl
  | case6 previous? c cs quote hc ih =>
    obtain ⟨ms, hms, hrest⟩ := ih
    refine ⟨ms, ?_, hrest⟩
    rw [List.cons_append, markFrom_quoted hc, hms]
    rfl

theorem delimiters_spaces {ms : List (Char × Bool)}
    (h : ∀ c ∈ ms.map Prod.fst, Text.isSpace c = true) : ms.filterMap Token.delimiter? = [] := by
  rw [List.filterMap_eq_nil_iff]
  intro m hm
  obtain ⟨-, hcut, -⟩ := Token.space_plain (h m.1 (List.mem_map_of_mem hm))
  exact Token.delimiter?_eq_none hcut m.2

theorem splitMarked_front {spaces : List Char} (h : ∀ c ∈ spaces, Text.isSpace c = true)
    (depth : Int) (piece : List Char) (ms : List (Char × Bool)) :
    (splitMarked depth (piece ++ spaces) ms).map Text.trim =
      (splitMarked depth piece ms).map Text.trim := by
  induction ms generalizing depth piece with
  | nil =>
    have h' : ∀ c ∈ spaces.reverse, Text.isSpace c = true := fun c hc => h c (List.mem_reverse.1 hc)
    simp only [splitMarked, List.map_singleton, List.reverse_append, Text.trim_spaces_append h']
  | cons m ms ih =>
    rw [splitMarked, splitMarked]
    split
    · have h' : ∀ c ∈ spaces.reverse, Text.isSpace c = true := fun c hc =>
        h c (List.mem_reverse.1 hc)
      simp only [List.map_cons, List.reverse_append, Text.trim_spaces_append h']
    · exact ih _ (m.1 :: piece)

theorem splitMarked_back {back : List (Char × Bool)}
    (h : ∀ c ∈ back.map Prod.fst, Text.isSpace c = true) (depth : Int) (piece : List Char)
    (ms : List (Char × Bool)) :
    (splitMarked depth piece (ms ++ back)).map Text.trim =
      (splitMarked depth piece ms).map Text.trim := by
  induction ms generalizing depth piece with
  | nil =>
    have hnone : Grammar.descend 0 depth (back.filterMap Token.delimiter?) = some depth := by
      rw [delimiters_spaces h]
      rfl
    have hsplit := splitMarked_append hnone piece []
    rw [List.append_nil] at hsplit
    rw [List.nil_append, hsplit]
    simp only [splitMarked, List.map_singleton, List.reverse_append, List.reverse_reverse,
      Text.trim_append_spaces h]
  | cons m ms ih =>
    rw [List.cons_append, splitMarked, splitMarked]
    split
    · rw [List.map_cons, List.map_cons, ih]
    · exact ih _ _

theorem splitMarked_trim (cs : List Char) :
    (splitMarked 0 [] (mark (Text.trim cs))).map Text.trim =
      (splitMarked 0 [] (mark cs)).map Text.trim := by
  obtain ⟨front, back, hcs, hfront, hback⟩ := Text.exists_trim cs
  have hunquoted : ∀ c ∈ front, c ≠ '"' ∧ c ≠ '\'' := by
    intro c hc
    obtain ⟨-, hcut, -⟩ := Token.space_plain (hfront c hc)
    simp only [Token.cutters, List.mem_cons, not_or] at hcut
    exact ⟨hcut.1, hcut.2.1⟩
  have hfree : Free (front.getLast?.or none) := by
    unfold Free
    rw [Option.or_none]
    cases hlast : front.getLast? with
    | none => rfl
    | some p => exact (Token.space_plain (hfront p (List.mem_of_getLast? hlast))).2.2
  have hspaces : ∀ c ∈ (front.map (·, true)).map Prod.fst, Text.isSpace c = true := by
    rw [List.map_map]
    intro c hc
    exact hfront c (List.map_id front ▸ hc)
  have hnone : Grammar.descend 0 0 ((front.map (·, true)).filterMap Token.delimiter?) = some 0 := by
    rw [delimiters_spaces hspaces]
    rfl
  obtain ⟨ms, hms, hrest⟩ := markFrom_append none none (Text.trim cs) back
  have hmarks : mark cs = front.map (·, true) ++ (mark (Text.trim cs) ++ ms) := by
    conv_lhs => rw [hcs, mark, markFrom_plain hunquoted, markFrom_free hfree free_none, hms]
    rfl
  rw [hmarks, splitMarked_append hnone, ← List.nil_append (List.reverse _ ++ []),
    List.append_nil, splitMarked_front, splitMarked_back]
  · rw [hrest]
    exact hback
  · intro c hc
    exact hspaces c (List.mem_reverse.1 hc)

theorem splitMarked_intercalate {parts : List (List Char × List (Char × Bool))}
    (h : ∀ p ∈ parts, Whole p.1 p.2) (hparts : parts ≠ []) (hfree : Free previous?) :
    splitMarked 0 [] (markFrom previous? none ([','].intercalate (parts.map Prod.fst))) =
      parts.map Prod.fst := by
  induction parts generalizing previous? with
  | nil => exact (hparts rfl).elim
  | cons p parts ih =>
    obtain ⟨hp, hrest⟩ := List.forall_mem_cons.1 h
    cases parts with
    | nil =>
      have hmarks := hp.marks previous? [] hfree
      rw [List.append_nil] at hmarks
      rw [List.map_singleton, List.intercalate_singleton, hmarks,
        splitMarked_append (hp.nests 0 0 (Int.le_refl 0)), hp.chars]
      simp only [markFrom, splitMarked, List.append_nil, List.reverse_reverse]
    | cons q parts =>
      rw [List.map_cons, List.map_cons, List.intercalate_cons_cons, List.append_assoc,
        hp.marks previous? _ hfree, splitMarked_append (hp.nests 0 0 (Int.le_refl 0)), hp.chars,
        List.append_nil, List.singleton_append, markFrom_separator (by decide)]
      change p.1.reverse.reverse :: splitMarked 0 [] _ = _
      rw [List.reverse_reverse]
      have hcomma : Free (some ',') := by
        unfold Free
        decide
      have hmore := ih hrest (List.cons_ne_nil q parts) hcomma
      rw [List.map_cons] at hmore
      rw [hmore]

/-- No string in apostrophes stands directly behind a question mark. -/
def Loose (src : String) : Prop := ¬ tightChoice <:+: Token.marks src.toList

theorem exists_not_space (h : Expr.parse src = .ok e) :
    ¬ ∀ c ∈ src.toList, Text.isSpace c = true := by
  intro hspaces
  obtain ⟨-, hlength, -⟩ := Expr.tokens_of_parse h
  rw [Token.lex, Token.length_lexFrom_spaces hspaces] at hlength
  exact Nat.lt_irrefl 1 hlength

theorem splitOperands_eq (h : ¬ ∀ c ∈ cs, Text.isSpace c = true) :
    splitOperands cs = (splitMarked 0 [] (mark cs)).map Text.trim := by
  unfold splitOperands
  dsimp only
  split
  · rename_i hempty
    obtain ⟨front, back, hcs, hfront, hback⟩ := Text.exists_trim cs
    rw [List.isEmpty_iff.1 hempty, List.nil_append] at hcs
    refine (h fun c hc => ?_).elim
    rw [hcs] at hc
    exact (List.mem_append.1 hc).elim (hfront c) (hback c)
  · exact splitMarked_trim cs

/-- Cutting and lexing take the same characters for strings in expressions without tight choices,
and only in those. There a comment begins where the expression ends, commas separate operands only
outside of expressions, and parentheses around an expression enclose it. -/
theorem cuts_respect_strings (srcs : List String) (hne : srcs ≠ [])
    (h : ∀ src ∈ srcs, ∃ e, Expr.parse src = .ok e) :
    (∀ src ∈ srcs, mark src.toList = Token.marks src.toList ↔ Loose src) ∧
      ((∀ src ∈ srcs, Loose src) →
        splitOperands ([','].intercalate (srcs.map String.toList)) =
            srcs.map (fun src => Text.trim src.toList) ∧
          ∀ src ∈ srcs,
            (∀ comment, stripComment (src.toList ++ ';' :: comment) = src.toList) ∧
              indirect? ('(' :: (src.toList ++ [')'])) = some (Text.trim src.toList)) := by
  refine ⟨fun src hsrc => ?_, fun hloose => ?_⟩
  · obtain ⟨e, he⟩ := h src hsrc
    obtain ⟨hlex, -, hseparate, -⟩ := Expr.tokens_of_parse he
    have hmarks := agrees_iff hlex hseparate none (fun _ hany => nomatch hany) []
    simp only [Agrees, List.append_nil, markFrom] at hmarks
    refine hmarks.trans (and_iff_right ?_)
    rintro ⟨hnone, -⟩
    cases hnone
  · have hwhole (src : String) (hsrc : src ∈ srcs) : Whole src.toList (Token.marks src.toList) := by
      obtain ⟨e, he⟩ := h src hsrc
      exact whole_of_parse he (hloose src hsrc)
    refine ⟨?_, fun src hsrc => ⟨(hwhole src hsrc).stripComment, (hwhole src hsrc).indirect⟩⟩
    have hchars : (srcs.map fun src => (src.toList, Token.marks src.toList)).map Prod.fst =
        srcs.map String.toList := List.map_map
    rw [splitOperands_eq]
    · have hparts : ∀ p ∈ srcs.map fun src => (src.toList, Token.marks src.toList),
          Whole p.1 p.2 := List.forall_mem_map.2 hwhole
      have hsplit := splitMarked_intercalate hparts (mt List.map_eq_nil_iff.1 hne) free_none
      rw [hchars] at hsplit
      rw [mark, hsplit, List.map_map]
      rfl
    · obtain ⟨src, srcs, rfl⟩ := List.exists_cons_of_ne_nil hne
      obtain ⟨e, he⟩ := h src List.mem_cons_self
      intro hspaces
      refine exists_not_space he fun c hc => hspaces c ?_
      rw [List.map_cons]
      cases srcs with
      | nil =>
        rw [List.map_nil, List.intercalate_singleton]
        exact hc
      | cons src' srcs =>
        rw [List.map_cons, List.intercalate_cons_cons, List.append_assoc]
        exact List.mem_append_left _ hc

def quotedCuts : String := "cat(\"a;b\", 1 ? ',' : ')')"

set_option maxRecDepth 10000 in
theorem cuts_respect_strings_quotedCuts :
    let cs := quotedCuts.toList
    (∃ e, Expr.parse quotedCuts = .ok e) ∧ Loose quotedCuts ∧
      mark cs = Token.marks cs ∧ stripComment (cs ++ ";'".toList) = cs ∧
      splitOperands (cs ++ ',' :: cs) = [cs, cs] ∧
      indirect? ('(' :: (cs ++ [')'])) = some cs := by
  have hparse : ∃ e, Expr.parse quotedCuts = .ok e := ⟨_, by cbv⟩
  have hloose : Loose quotedCuts := by
    unfold Loose
    decide +kernel
  have htrim : Text.trim quotedCuts.toList = quotedCuts.toList := by decide +kernel
  have hboth (P : String → Prop) (h : P quotedCuts) : ∀ src ∈ [quotedCuts, quotedCuts], P src :=
    List.forall_mem_cons.2 ⟨h, List.forall_mem_singleton.2 h⟩
  obtain ⟨hmarks, hcuts⟩ := cuts_respect_strings [quotedCuts, quotedCuts] (List.cons_ne_nil _ _)
    (hboth _ hparse)
  obtain ⟨hsplit, hsingle⟩ := hcuts (hboth _ hloose)
  obtain ⟨hcomment, hindirect⟩ := hsingle _ List.mem_cons_self
  rw [List.map_cons, List.map_singleton, List.intercalate_cons_cons, List.intercalate_singleton,
    List.append_assoc, List.map_cons, List.map_singleton, htrim] at hsplit
  rw [htrim] at hindirect
  exact ⟨hparse, hloose, (hmarks _ List.mem_cons_self).2 hloose, hcomment ['\''], hsplit, hindirect⟩

/-- In a tight choice the apostrophe is not taken for a quote: the string is cut. -/
theorem tight_choice_cut :
    (∃ e, Expr.parse "1?';':0" = .ok e) ∧
      stripComment ("1?';':0".toList ++ ';' :: "c".toList) = "1?'".toList ∧
      (∃ e, Expr.parse "1?',':0" = .ok e) ∧
      splitOperands "1?',':0".toList = ["1?'".toList, "':0".toList] ∧
      (∃ e, Expr.parse "1?')':0" = .ok e) ∧
      indirect? ('(' :: ("1?')':0".toList ++ [')'])) = none := by
  refine ⟨⟨_, by cbv⟩, by decide +kernel, ⟨_, by cbv⟩, by decide +kernel, ⟨_, by cbv⟩, ?_⟩
  decide +kernel

end Source
end Z80Asm
