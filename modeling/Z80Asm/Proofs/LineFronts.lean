import Z80Asm.Proofs.LineLabels
import Z80Asm.Proofs.Sizes

/-! Lines that take operands: labels and mnemonic are read alike whatever the operands are. -/

namespace Z80Asm
set_option autoImplicit true

theorem Text.toNat_ofNat (h : n < 0xD800 ∨ 0xE000 ≤ n ∧ n < 0x110000) :
    (Char.ofNat n).toNat = n := by
  have hvalid : n.isValidChar := by
    rcases h with h | ⟨h, h'⟩
    · exact .inl h
    · exact .inr ⟨by omega, h'⟩
  unfold Char.ofNat
  rw [dif_pos hvalid]
  rfl

namespace Source

/-- Of the characters beyond ASCII only the dotted capital `i` and the sign for Kelvin have a lower
case in it. A class that has these two with their lower cases, and every character of ASCII with its
own, has every character whose lower case it has. -/
theorem of_toLower {p : Char → Bool}
    (hlow : (List.range 0x80).all (fun n =>
      !p (Char.ofNat n).toLower || p (Char.ofNat n)) = true)
    (hi : p 'i' = true → p '\u0130' = true) (hk : p 'k' = true → p '\u212A' = true)
    (hascii : Text.isAscii (Text.toLower c) = true) (hp : p (Text.toLower c) = true) :
    p c = true := by
  have hruns : ∀ r ∈ Text.caseRuns,
      0x80 ≤ r.lower ∧ (r.lower + (r.last - r.first) < 0xD800 ∨
        0xE000 ≤ r.lower ∧ r.lower + (r.last - r.first) < 0x110000) ∨
      r.last = r.first ∧ (r.first, r.lower) ∈ [(0x130, 0x69), (0x212A, 0x6B)] := by
    decide +kernel
  unfold Text.toLower at hascii hp
  split at hascii
  · rename_i hc
    rw [if_pos hc] at hp
    have hsmall := List.all_eq_true.1 hlow c.toNat (List.mem_range.2 (of_decide_eq_true hc))
    rw [Char.ofNat_toNat, hp] at hsmall
    exact hsmall
  · rename_i hc
    rw [if_neg hc] at hp
    cases hfind : Text.caseRuns.findSome? (·.map? c.toNat) with
    | none =>
      rw [hfind] at hp
      exact hp
    | some n =>
      rw [hfind] at hascii hp
      obtain ⟨r, hr, hmap⟩ := List.exists_of_findSome?_eq_some hfind
      unfold Text.CaseRun.map? at hmap
      split at hmap
      · cases hmap
        have hn : (Char.ofNat (r.lower + (c.toNat - r.first))).toNat < 0x80 :=
          of_decide_eq_true hascii
        rcases hruns r hr with ⟨hwide, hvalid⟩ | ⟨hone, hpair⟩
        · rw [Text.toNat_ofNat (by omega)] at hn
          omega
        · have hcode : c.toNat = r.first := by omega
          rw [hcode, Nat.sub_self, Nat.add_zero] at hp
          rw [← Char.ofNat_toNat c, hcode]
          simp only [List.mem_cons, Prod.mk.injEq, List.not_mem_nil, or_false] at hpair
          rcases hpair with ⟨hfirst, hlower⟩ | ⟨hfirst, hlower⟩
          · rw [hlower] at hp
            rw [hfirst]
            exact hi hp
          · rw [hlower] at hp
            rw [hfirst]
            exact hk hp
      · cases hmap

theorem isIdentPart_of_toLower (hascii : Text.isAscii (Text.toLower c) = true)
    (hpart : isIdentPart (Text.toLower c) = true) : isIdentPart c = true :=
  of_toLower (by decide +kernel) (fun _ => by decide +kernel) (fun _ => by decide +kernel) hascii
    hpart

theorem isEqu_of_mem (hc : c ∈ cs) (hother : c.toLower ∉ ['e', 'q', 'u']) :
    isEqu cs = false := by
  unfold isEqu
  rw [decide_eq_false_iff_not]
  intro heq
  exact hother (heq ▸ List.mem_map_of_mem hc)

theorem isEqu_comma (p rest : List Char) :
    isEqu (splitWord (p ++ ',' :: rest)).1 = (p.any isBlank && isEqu (splitWord p).1) := by
  unfold splitWord
  dsimp only
  cases h : p.any isBlank with
  | true =>
    obtain ⟨c, hc, hblank⟩ := List.any_eq_true.1 h
    rw [Bool.true_and, List.takeWhile_append]
    split
    · rename_i hall
      have hwhole := (List.takeWhile_prefix (l := p) (!isBlank ·)).eq_of_length hall
      have hnot := List.takeWhile_eq_self_iff.1 hwhole c hc
      rw [hblank] at hnot
      cases hnot
    · rfl
  | false =>
    have hall : ∀ c ∈ p, (!isBlank c) = true := by
      intro c hc
      rw [Bool.not_eq_true', ← Bool.not_eq_true]
      exact List.any_eq_false.1 h c hc
    rw [Bool.false_and, List.takeWhile_append_of_pos hall, List.takeWhile_cons_of_pos (by decide)]
    exact isEqu_of_mem (List.mem_append_right p List.mem_cons_self) (by decide)

theorem toLower_of_ascii (h : Text.isAscii c.toLower = true) : Text.toLower c = c.toLower := by
  have hascii : Text.isAscii c = true := by
    unfold Char.toLower at h
    split at h
    · rename_i hupper
      exact decide_eq_true (Nat.lt_of_le_of_lt (UInt32.le_iff_toNat_le.1 hupper.2) (by decide))
    · exact h
  unfold Text.toLower
  rw [if_pos hascii]

theorem lower_of_isEqu (h : isEqu cs = true) : Text.lower (String.ofList cs) = "equ" := by
  have hmap : cs.map Char.toLower = ['e', 'q', 'u'] := of_decide_eq_true h
  have hlower : cs.map Text.toLower = cs.map Char.toLower := by
    refine List.map_congr_left fun c hc => toLower_of_ascii ?_
    have hmem : c.toLower ∈ ['e', 'q', 'u'] := hmap ▸ List.mem_map_of_mem hc
    have hall : ['e', 'q', 'u'].all Text.isAscii = true := rfl
    exact List.all_eq_true.1 hall _ hmem
  rw [← String.toList_inj, Text.lower, String.toList_map, String.toList_ofList, hlower, hmap]
  rfl

def TakesOperands (mnemonic : String) : Prop :=
  dropDot (Text.lower mnemonic) ∈ ["defb", "db", "defm", "dm", "defw", "dw", "defs", "ds"] ∨
    Instruction.isMnemonic (Text.lower mnemonic) = true

theorem mem_of_dropDot (h : c ∈ key.toList) : c ∈ '.' :: (dropDot key).toList := by
  unfold dropDot
  split
  · rename_i heq
    rw [String.toList_ofList, ← heq]
    exact h
  · exact List.mem_cons_of_mem _ h

theorem part_of_takesOperands (h : TakesOperands mnemonic) :
    (∀ c ∈ mnemonic.toList, isIdentPart c = true) ∧ isEqu mnemonic.toList = false := by
  have hwords : (["defb", "db", "defm", "dm", "defw", "dw", "defs", "ds"].all fun key =>
      ('.' :: key.toList).all fun c => Text.isAscii c && isIdentPart c) = true := by
    decide +kernel
  have htable : (Instruction.table.all fun e => e.mnemonic ≠ "equ" &&
      e.mnemonic.toList.all fun c => Text.isAscii c && isIdentPart c) = true := by
    decide +kernel
  have hkey : Text.lower mnemonic ≠ "equ" ∧ ∀ c ∈ (Text.lower mnemonic).toList,
      Text.isAscii c = true ∧ isIdentPart c = true := by
    rcases h with h | h
    · have hall := List.all_eq_true.1 hwords _ h
      refine ⟨fun hequ => ?_, fun c hc => ?_⟩
      · rw [hequ] at h
        exact absurd h (by decide)
      · rw [← Bool.and_eq_true]
        exact List.all_eq_true.1 hall c (mem_of_dropDot hc)
    · obtain ⟨e, he, hkey⟩ := List.any_eq_true.1 h
      have hboth := List.all_eq_true.1 htable e he
      rw [of_decide_eq_true hkey, Bool.and_eq_true] at hboth
      refine ⟨of_decide_eq_true hboth.1, fun c hc => ?_⟩
      rw [← Bool.and_eq_true]
      exact List.all_eq_true.1 hboth.2 c hc
  refine ⟨fun c hc => ?_, ?_⟩
  · have hmem : Text.toLower c ∈ (Text.lower mnemonic).toList := by
      rw [Text.lower, String.toList_map]
      exact List.mem_map_of_mem hc
    exact isIdentPart_of_toLower (hkey.2 _ hmem).1 (hkey.2 _ hmem).2
  · rw [← Bool.not_eq_true]
    intro hequ
    have hlower := lower_of_isEqu hequ
    rw [String.ofList_toList] at hlower
    exact hkey.1 hlower

/-- The labels and the mnemonic of a line, up to its operands. -/
structure Fronts (front : List Char) (labels : List LabelText) (mnemonic : String) : Prop where
  unquoted : Unquoted front
  free : Free front.getLast?
  reads : ∀ raw text, Text.trimRight (stripComment raw.toList) = front ++ text → Text.Tidy text →
    text ≠ [] → isEqu (splitWord text).1 = false →
      (readLine raw).labels = labels ∧ mnemonicOn? raw = some (mnemonic, text)

theorem trim_trimRight (cs : List Char) : Text.trim (Text.trimRight cs) = Text.trim cs := by
  have hcs : cs = Text.trimRight cs ++ (cs.reverse.takeWhile Text.isSpace).reverse := by
    rw [Text.trimRight, ← List.reverse_append, List.takeWhile_append_dropWhile,
      List.reverse_reverse]
  conv_rhs => rw [hcs]
  refine (Text.trim_append_spaces (fun c hc => ?_) _).symm
  exact List.mem_takeWhile_imp (List.mem_reverse.1 hc)

theorem space_of_isBlank (h : isBlank c = true) : Text.isSpace c = true := by
  rcases Bool.or_eq_true_iff.1 h with h | h
  · rw [of_decide_eq_true h]
    rfl
  · rw [of_decide_eq_true h]
    rfl

theorem splitWord_append {word : List Char} (hword : ∀ c ∈ word, isBlank c = false)
    (hblank : isBlank b = true) (rest : List Char) :
    splitWord (word ++ b :: rest) = (word, Text.trim rest) := by
  have hnot : ∀ c ∈ word, (!isBlank c) = true := fun c hc => by rw [hword c hc]; rfl
  unfold splitWord
  rw [List.takeWhile_append_of_pos hnot, List.dropWhile_append_of_pos hnot, List.takeWhile_cons,
    List.dropWhile_cons, hblank]
  change (word ++ [], Text.trim rest) = (word, Text.trim rest)
  rw [List.append_nil]

theorem free_spaces (h : ∀ c ∈ spaces, Text.isSpace c = true) (hne : spaces ≠ [])
    (cs : List Char) : Free (cs ++ spaces).getLast? := by
  obtain ⟨init, c, rfl⟩ := (List.eq_nil_or_concat spaces).resolve_left hne
  rw [List.concat_eq_append] at h ⊢
  rw [← List.append_assoc, List.getLast?_concat]
  exact (Token.space_plain (h c List.mem_concat_self)).2.2

theorem isName_of_part (h : ∀ c ∈ cs, isIdentPart c = true)
    (hhead : ∃ c, cs.head? = some c ∧ isIdentStart c = true) : isName cs = true := by
  obtain ⟨c, hc, hstart⟩ := hhead
  cases cs with
  | nil => cases hc
  | cons d cs =>
    cases hc
    rw [isName, hstart]
    exact List.all_eq_true.2 fun d hd => h d (List.mem_cons_of_mem c hd)

theorem statement_of_mnemonicOn? (h : mnemonicOn? raw = some (mnemonic, text)) (hne : text ≠ [])
    (hpart : ∀ c ∈ mnemonic.toList, isIdentPart c = true) :
    ∃ b rest, isBlank b = true ∧ text = Text.trim rest ∧ isName mnemonic.toList = true ∧
      (readLine raw).statement = mnemonic.toList ++ b :: rest := by
  unfold mnemonicOn? at h
  split at h
  · cases h
  · rename_i c cs hstatement
    split at h
    · rename_i hc
      obtain ⟨hword, htext⟩ := Prod.mk.inj (Option.some.inj h)
      have hmnemonic : mnemonic.toList = (c :: cs).takeWhile (!isBlank ·) := by
        rw [← hword, String.toList_ofList]
        rfl
      have hblank : isBlank c = false := (part_plain (isIdentPart_of_start hc)).2.1
      have hname : isName mnemonic.toList = true := by
        refine isName_of_part hpart ⟨c, ?_, hc⟩
        rw [hmnemonic, List.takeWhile_cons, hblank]
        rfl
      have hsplit := List.takeWhile_append_dropWhile (p := (!isBlank ·)) (l := c :: cs)
      cases hrest : (c :: cs).dropWhile (!isBlank ·) with
      | nil =>
        rw [← htext, splitWord, hrest] at hne
        exact (hne rfl).elim
      | cons b rest =>
        have hb := List.head?_dropWhile_not (!isBlank ·) (c :: cs)
        rw [hrest] at hb hsplit
        refine ⟨b, rest, Bool.not_eq_false' .. ▸ hb, ?_, hname, ?_⟩
        · rw [← htext, splitWord, hrest]
          rfl
        · rw [hstatement, hmnemonic, hsplit]
    · cases h

theorem mnemonicOn?_of_statement (hname : isName mnemonic.toList = true) (hb : isBlank b = true)
    (h : (readLine raw).statement = mnemonic.toList ++ b :: rest) :
    mnemonicOn? raw = some (mnemonic, Text.trim rest) := by
  obtain ⟨c, cs, hcs, hc, hpart⟩ := exists_of_isName hname
  have hsplit := splitWord_append (fun c hc => (part_plain (hpart c hc)).2.1) hb rest
  rw [hcs, List.cons_append] at hsplit
  rw [mnemonicOn?, h, hcs]
  simp only [List.cons_append, hc, if_true, hsplit]
  rw [← hcs, String.ofList_toList]

theorem readLine_of_body {body : List Char} (h : Text.trimRight (stripComment raw.toList) = body) :
    readLine raw = ⟨(readLabels (Text.trim body)).1, (readLabels (Text.trim body)).2⟩ := by
  unfold readLine
  rw [← h, trim_trimRight]

/-- A line up to its comment: white space, the labels in `before`, the mnemonic, a blank and more
white space, and the operands. Another statement may stand behind the labels. -/
structure Parts (raw mnemonic : String) (text indent before : List Char) (b : Char)
    (gap : List Char) : Prop where
  body : Text.trimRight (stripComment raw.toList) =
    indent ++ (before ++ (mnemonic.toList ++ b :: (gap ++ text)))
  indents : ∀ c ∈ indent, Text.isSpace c = true
  unquoted : Unquoted before
  name : isName mnemonic.toList = true
  blank : isBlank b = true
  gaps : ∀ c ∈ gap, Text.isSpace c = true
  tidy : Text.Tidy (before ++ (mnemonic.toList ++ b :: (gap ++ text)))
  unlabelled : (readLabels (mnemonic.toList ++ b :: (gap ++ text))).1 = []
  labelled : ∀ s, s.head? = (mnemonic.toList ++ b :: (gap ++ text)).head? → Text.Tidy s →
    readLabels s = ([], s) → readLabels (before ++ s) = ((readLine raw).labels, s)

theorem exists_parts (h : mnemonicOn? raw = some (mnemonic, text)) (hne : text ≠ [])
    (hword : TakesOperands mnemonic) :
    ∃ indent before b gap, Parts raw mnemonic text indent before b gap ∧ Text.Tidy text := by
  obtain ⟨hpart, hequ⟩ := part_of_takesOperands hword
  obtain ⟨b, rest, hb, htext, hname, hstatement⟩ := statement_of_mnemonicOn? h hne hpart
  have hlabels : readLabels (Text.trim (stripComment raw.toList)) =
      ((readLine raw).labels, mnemonic.toList ++ b :: rest) := by
    rw [← hstatement]
    rfl
  have hfirst : isEqu (splitWord (mnemonic.toList ++ b :: rest)).1 = false := by
    rw [splitWord_append (fun c hc => (part_plain (hpart c hc)).2.1) hb]
    exact hequ
  have hwhole := Text.tidy_trim (stripComment raw.toList)
  obtain ⟨hunlabelled, before, hbefore, hunquoted, hreplaced⟩ :=
    labelled_of_readLabels hwhole hlabels hfirst
  rw [hbefore] at hwhole
  have hrest : ∀ c, rest.getLast? = some c → Text.isSpace c = false := by
    refine Text.Tidy.suffix (before ++ (mnemonic.toList ++ [b])) ?_
    rw [List.append_assoc, List.append_assoc, List.singleton_append]
    exact hwhole
  obtain ⟨gap, hgap, hgaps⟩ := Text.exists_trimLeft hrest
  obtain ⟨indent, hindent, hindents⟩ :=
    Text.exists_trimLeft (Text.getLast?_trimRight (stripComment raw.toList))
  rw [trim_trimRight, hbefore] at hindent
  rw [← htext] at hgap
  rw [hgap] at hindent hwhole hunlabelled hreplaced
  exact ⟨indent, before, b, gap, ⟨hindent, hindents, hunquoted, hname, hb, hgaps, hwhole,
    congrArg Prod.fst hunlabelled, hreplaced⟩, htext ▸ Text.tidy_trim rest⟩

/-- The operands are what a line ends with, up to its comment and white space. -/
theorem exists_front (h : mnemonicOn? raw = some (mnemonic, text)) (hne : text ≠ [])
    (hword : TakesOperands mnemonic) :
    ∃ front, Text.trimRight (stripComment raw.toList) = front ++ text := by
  obtain ⟨indent, before, b, gap, hparts, -⟩ := exists_parts h hne hword
  refine ⟨indent ++ (before ++ (mnemonic.toList ++ b :: gap)), hparts.body.trans ?_⟩
  simp only [List.append_assoc, List.cons_append]

namespace Parts

theorem spaces (h : Parts raw mnemonic text indent before b gap) :
    ∀ c ∈ b :: gap, Text.isSpace c = true :=
  List.forall_mem_cons.2 ⟨space_of_isBlank h.blank, h.gaps⟩

theorem readLabels_statement (h : Parts raw mnemonic text indent before b gap)
    (htidy : Text.Tidy text') :
    readLabels (mnemonic.toList ++ b :: (gap ++ text')) =
      if isEqu (splitWord text').1 then ([⟨mnemonic.toList, false⟩], text')
      else ([], mnemonic.toList ++ b :: (gap ++ text')) := by
  have htrim : Text.trim (b :: (gap ++ text')) = text' := by
    rw [← List.cons_append, Text.trim_spaces_append h.spaces, htidy.trim_eq]
  rw [readLabels_name h.name, htrim]
  intro c hc
  cases hc
  rcases Bool.or_eq_true_iff.1 h.blank with hb | hb
  · rw [of_decide_eq_true hb]
    decide
  · rw [of_decide_eq_true hb]
    decide

theorem not_equ (h : Parts raw mnemonic text indent before b gap) (htidy : Text.Tidy text) :
    isEqu (splitWord text).1 = false := by
  have hunlabelled := h.unlabelled
  rw [h.readLabels_statement htidy] at hunlabelled
  split at hunlabelled
  · cases hunlabelled
  · rename_i hequ
    exact Bool.eq_false_iff.2 hequ

theorem tidy_statement (h : Parts raw mnemonic text indent before b gap)
    (htidy : Text.Tidy text') (hne : text' ≠ []) :
    Text.Tidy (mnemonic.toList ++ b :: (gap ++ text')) := by
  refine ⟨fun d hd => (tidy_name h.name).head d ?_, fun d hd => htidy.last d ?_⟩
  · obtain ⟨c, cs, hcs, -⟩ := exists_of_isName h.name
    rw [hcs] at hd ⊢
    exact hd
  · obtain ⟨init, e, rfl⟩ := (List.eq_nil_or_concat text').resolve_left hne
    rw [List.concat_eq_append] at hd ⊢
    rw [← List.append_assoc, ← List.cons_append, ← List.append_assoc, List.getLast?_concat] at hd
    rw [List.getLast?_concat, hd]

/-- A line with the same front is read with the same labels and mnemonic. -/
theorem reads (h : Parts raw mnemonic text indent before b gap)
    (hbody : Text.trimRight (stripComment raw'.toList) =
      indent ++ (before ++ (mnemonic.toList ++ b :: (gap ++ text'))))
    (htidy : Text.Tidy text') (hne : text' ≠ []) (hnot : isEqu (splitWord text').1 = false) :
    (readLine raw').labels = (readLine raw).labels ∧
      mnemonicOn? raw' = some (mnemonic, text') := by
  have hstatement := h.tidy_statement htidy hne
  have hhead : (mnemonic.toList ++ b :: (gap ++ text')).head? =
      (mnemonic.toList ++ b :: (gap ++ text)).head? := by
    simp only [List.head?_append, List.head?_cons]
  have htrim : Text.trim (indent ++ (before ++ (mnemonic.toList ++ b :: (gap ++ text')))) =
      before ++ (mnemonic.toList ++ b :: (gap ++ text')) := by
    rw [Text.trim_spaces_append h.indents, (Text.Tidy.append h.tidy hstatement hhead).trim_eq]
  have hlabels := h.labelled _ hhead hstatement (by
    rw [h.readLabels_statement htidy, hnot]
    rfl)
  have hline := readLine_of_body hbody
  rw [htrim, hlabels] at hline
  refine ⟨(congrArg LineText.labels hline :), ?_⟩
  rw [mnemonicOn?_of_statement h.name h.blank (congrArg LineText.statement hline :),
    Text.trim_spaces_append h.gaps, htidy.trim_eq]

end Parts

theorem fronts_of_mnemonic {front text : List Char} (hm : mnemonicOn? raw = some (mnemonic, text))
    (hbody : Text.trimRight (stripComment raw.toList) = front ++ text) (hne : text ≠ [])
    (hword : TakesOperands mnemonic) :
    Fronts front (readLine raw).labels mnemonic ∧ Text.Tidy text ∧
      isEqu (splitWord text).1 = false := by
  obtain ⟨indent, before, b, gap, hparts, htidy⟩ := exists_parts hm hne hword
  have hfront : front = indent ++ (before ++ (mnemonic.toList ++ b :: gap)) := by
    rw [← List.append_left_inj text, ← hbody, hparts.body]
    simp only [List.append_assoc, List.cons_append]
  refine ⟨⟨?_, ?_, fun line text' hline htidy' hne' hnot => ?_⟩, htidy, hparts.not_equ htidy⟩
  · rw [hfront]
    exact (unquoted_spaces hparts.indents).append (hparts.unquoted.append
      ((unquoted_name hparts.name).append (unquoted_spaces hparts.spaces)))
  · rw [hfront, ← List.append_assoc, ← List.append_assoc]
    exact free_spaces hparts.spaces (List.cons_ne_nil b gap) _
  · refine hparts.reads ?_ htidy' hne' hnot
    rw [hline, hfront]
    simp only [List.append_assoc, List.cons_append]

end Source
end Z80Asm
