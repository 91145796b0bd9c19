import Z80Asm.Proofs.LineLabels

/-! Where operands are cut. Those before and after one of them, and a comment behind them all, stay
where they are when a text that is cut nowhere takes its place. -/

namespace Z80Asm
set_option autoImplicit true
namespace Source

theorem map_fst_markFrom (previous? quote? : Option Char) (cs : List Char) :
    (markFrom previous? quote? cs).map Prod.fst = cs := by
  fun_induction markFrom previous? quote? cs with
  | _ => simp_all

/-- The text has the marks `ms₀` and then `c` outside of literals, and whatever stands behind `c`
is marked by itself. -/
def Resumes (previous? quote? : Option Char) (cs : List Char) (ms₀ : List (Char × Bool))
    (c : Char) : Prop :=
  ∃ cs₁, cs = ms₀.map Prod.fst ++ c :: cs₁ ∧ ∀ rest,
    markFrom previous? quote? (ms₀.map Prod.fst ++ c :: rest) =
      ms₀ ++ (c, true) :: markFrom (some c) none rest

theorem Resumes.prepend (ms : List (Char × Bool)) (h : Resumes previous'? quote'? cs ms₀ c)
    (hms : ∀ rest, markFrom previous? quote? (ms.map Prod.fst ++ rest) =
      ms ++ markFrom previous'? quote'? rest) :
    Resumes previous? quote? (ms.map Prod.fst ++ cs) (ms ++ ms₀) c := by
  obtain ⟨cs₁, hcs, hmarks⟩ := h
  refine ⟨cs₁, ?_, fun rest => ?_⟩
  · rw [hcs, List.map_append, List.append_assoc]
  · rw [List.map_append, List.append_assoc, hms, hmarks, List.append_assoc]

theorem markFrom_resume {ms₀ ms₁ : List (Char × Bool)}
    (h : markFrom previous? quote? cs = ms₀ ++ (c, true) :: ms₁) :
    Resumes previous? quote? cs ms₀ c := by
  fun_induction markFrom previous? quote? cs generalizing ms₀ with
  | case1 => cases List.append_ne_nil_of_right_ne_nil ms₀ (List.cons_ne_nil _ _) h.symm
  | case2 previous? d cs hopens ih =>
    cases ms₀ with
    | nil => cases h
    | cons m ms₀ =>
      obtain ⟨rfl, hrest⟩ := List.cons.inj h
      exact (ih hrest).prepend [(d, false)] fun rest => by
        rw [List.map_singleton, List.singleton_append, markFrom, if_pos hopens]
        rfl
  | case3 previous? d cs hopens ih =>
    have hplain (rest : List Char) :
        markFrom previous? none (d :: rest) = (d, true) :: markFrom (some d) none rest := by
      rw [markFrom, if_neg hopens]
    cases ms₀ with
    | nil =>
      obtain ⟨hd, hrest⟩ := List.cons.inj h
      cases hd
      exact ⟨cs, rfl, hplain⟩
    | cons m ms₀ =>
      obtain ⟨rfl, hrest⟩ := List.cons.inj h
      exact (ih hrest).prepend [(d, true)] hplain
  | case4 previous? quote =>
    cases ms₀ with
    | nil => cases h
    | cons m ms₀ =>
      cases List.append_ne_nil_of_right_ne_nil ms₀ (List.cons_ne_nil _ _) (List.cons.inj h).2.symm
  | case5 previous? quote d ds ih =>
    cases ms₀ with
    | nil => cases h
    | cons m ms₀ =>
      obtain ⟨rfl, hmore⟩ := List.cons.inj h
      cases ms₀ with
      | nil => cases hmore
      | cons m ms₀ =>
        obtain ⟨rfl, hrest⟩ := List.cons.inj hmore
        exact (ih hrest).prepend [('\\', false), (d, false)] fun rest => by
          change markFrom previous? (some quote) ('\\' :: d :: rest) = _
          rw [markFrom, if_pos rfl]
          rfl
  | case6 previous? d cs quote hd ih =>
    cases ms₀ with
    | nil => cases h
    | cons m ms₀ =>
      obtain ⟨rfl, hrest⟩ := List.cons.inj h
      exact (ih hrest).prepend [(d, false)] (markFrom_quoted hd previous? quote)

theorem splitMarked_cut {ms : List (Char × Bool)}
    (h : splitMarked depth piece ms = p :: ps) :
    (ps = [] ∧ p = piece.reverse ++ ms.map Prod.fst) ∨
      ∃ ms₀ ms₁, ms = ms₀ ++ (',', true) :: ms₁ ∧ p = piece.reverse ++ ms₀.map Prod.fst ∧
        splitMarked 0 [] ms₁ = ps ∧ splitMarked depth piece ms₀ = [p] ∧
        ∀ rest, splitMarked depth piece (ms₀ ++ (',', true) :: rest) =
          p :: splitMarked 0 [] rest := by
  induction ms generalizing depth piece with
  | nil =>
    cases h
    exact .inl ⟨rfl, (List.append_nil _).symm⟩
  | cons m ms ih =>
    rw [splitMarked] at h
    split at h
    · rename_i hcomma
      obtain ⟨rfl, hps⟩ := List.cons.inj h
      simp only [Bool.and_eq_true, decide_eq_true_eq] at hcomma
      obtain ⟨⟨hmark, hchar⟩, rfl⟩ := hcomma
      have hm : m = (',', true) := Prod.ext hchar hmark
      rw [hm]
      exact .inr ⟨[], ms, rfl, (List.append_nil _).symm, hps, rfl, fun rest => rfl⟩
    · rename_i hcomma
      have hpiece (cs : List Char) : (m.1 :: piece).reverse ++ cs = piece.reverse ++ m.1 :: cs := by
        rw [List.reverse_cons, List.append_assoc]
        rfl
      rcases ih h with ⟨hps, hp⟩ | ⟨ms₀, ms₁, rfl, hp, hps, halone, hcut⟩
      · exact .inl ⟨hps, hp.trans (hpiece _)⟩
      · refine .inr ⟨m :: ms₀, ms₁, rfl, hp.trans (hpiece _), hps, ?_, fun rest => ?_⟩
        · rw [splitMarked, if_neg hcomma]
          exact halone
        · rw [List.cons_append, splitMarked, if_neg hcomma]
          exact hcut rest

/-- The marks on the first operands of a text, with the commas behind them, whatever follows. -/
structure Leads (previous? : Option Char) (before : List (List Char)) (ms : List (Char × Bool))
    (behind? : Option Char) : Prop where
  chars : ms.map Prod.fst = before.flatMap (· ++ [','])
  free : Free behind?
  marks : ∀ rest, markFrom previous? none (before.flatMap (· ++ [',']) ++ rest) =
    ms ++ markFrom behind? none rest
  pieces : ∀ ms', splitMarked 0 [] (ms ++ ms') = before ++ splitMarked 0 [] ms'

theorem free_comma : Free (some ',') := by
  unfold Free
  decide

/-- The first operands are marked alike whatever follows. -/
theorem exists_leads (hfree : Free previous?) (hps : ps ≠ [])
    (h : splitMarked 0 [] (markFrom previous? none cs) = before ++ ps) :
    ∃ ms behind? cs', Leads previous? before ms behind? ∧
      cs = before.flatMap (· ++ [',']) ++ cs' ∧
      splitMarked 0 [] (markFrom behind? none cs') = ps := by
  induction before generalizing previous? cs with
  | nil => exact ⟨[], previous?, cs, ⟨rfl, hfree, fun _ => rfl, fun _ => rfl⟩, rfl, h⟩
  | cons p before ih =>
    rcases splitMarked_cut h with ⟨hnil, -⟩ | ⟨ms₀, ms₁, hms, hp, hrest, -, hcut⟩
    · exact (hps (List.append_eq_nil_iff.1 hnil).2).elim
    · obtain ⟨cs₁, hcs, hresume⟩ := markFrom_resume hms
      have hchars : p = ms₀.map Prod.fst := hp
      have hms₁ : ms₁ = markFrom (some ',') none cs₁ := by
        rw [hcs, hresume cs₁] at hms
        exact (List.cons.inj (List.append_cancel_left hms)).2.symm
      rw [hms₁] at hrest
      obtain ⟨ms, behind?, cs', hlead, hcs', hlast⟩ := ih free_comma hrest
      refine ⟨ms₀ ++ (',', true) :: ms, behind?, cs', ⟨?_, hlead.free, fun rest => ?_,
        fun ms' => ?_⟩, ?_, hlast⟩
      · rw [List.map_append, List.map_cons, hlead.chars, ← hchars, List.flatMap_cons,
          List.append_assoc]
        rfl
      · rw [List.flatMap_cons, List.append_assoc, List.append_assoc, hchars, List.singleton_append,
          hresume, hlead.marks, List.append_assoc, List.cons_append]
      · rw [List.append_assoc, List.cons_append, hcut, hlead.pieces]
        rfl
      · rw [hcs, hcs', List.flatMap_cons, ← hchars, List.append_assoc, List.append_assoc]
        rfl

def uncommented (ms : List (Char × Bool)) : List Char :=
  (ms.takeWhile fun m => !(m.2 && m.1 = ';')).map Prod.fst

theorem stripComment_eq (cs : List Char) : stripComment cs = uncommented (mark cs) := rfl

/-- No comment begins among the marked characters. -/
def NoComment (ms : List (Char × Bool)) : Prop := (';', true) ∉ ms

theorem noComment_iff (ms : List (Char × Bool)) :
    NoComment ms ↔ ∀ m ∈ ms, (!(m.2 && m.1 = ';')) = true := by
  unfold NoComment
  constructor
  · rintro h ⟨c, outside⟩ hm
    rw [Bool.not_eq_true', Bool.and_eq_false_iff, decide_eq_false_iff_not]
    by_contra hcontra
    simp only [not_or, Bool.not_eq_false, not_not] at hcontra
    obtain ⟨rfl, rfl⟩ := hcontra
    exact h hm
  · intro h hm
    cases h _ hm

theorem uncommented_append (h : NoComment ms) (ms' : List (Char × Bool)) :
    uncommented (ms ++ ms') = ms.map Prod.fst ++ uncommented ms' := by
  unfold uncommented
  rw [List.takeWhile_append_of_pos ((noComment_iff ms).1 h), List.map_append]

theorem of_uncommented {ms ms' : List (Char × Bool)} {front cs : List Char}
    (hfront : ms.map Prod.fst = front) (h : uncommented (ms ++ ms') = front ++ cs) :
    NoComment ms ∧ uncommented ms' = cs := by
  subst hfront
  have hnone : NoComment ms := by
    rw [noComment_iff]
    unfold uncommented at h
    rw [List.takeWhile_append] at h
    split at h
    · rename_i hall
      exact List.takeWhile_eq_self_iff.1 ((List.takeWhile_prefix _).eq_of_length hall)
    · rename_i hshort
      have hlength := congrArg List.length h
      rw [List.length_map, List.length_append, List.length_map] at hlength
      have hle := (List.takeWhile_prefix (l := ms) fun m => !(m.2 && m.1 = ';')).length_le
      omega
  refine ⟨hnone, ?_⟩
  rw [uncommented_append hnone] at h
  exact List.append_cancel_left h

theorem exists_comment (cs : List Char) :
    ∃ comment, cs = stripComment cs ++ comment ∧ ∀ c, comment.head? = some c → c = ';' := by
  refine ⟨((mark cs).dropWhile fun m => !(m.2 && m.1 = ';')).map Prod.fst, ?_, fun c hc => ?_⟩
  · rw [stripComment, ← List.map_append, List.takeWhile_append_dropWhile]
    exact (map_fst_markFrom none none cs).symm
  · have hnot := List.head?_dropWhile_not (fun m : Char × Bool => !(m.2 && m.1 = ';')) (mark cs)
    rw [List.head?_map] at hc
    cases hhead : ((mark cs).dropWhile fun m => !(m.2 && m.1 = ';')).head? with
    | none =>
      rw [hhead] at hc
      cases hc
    | some m =>
      rw [hhead] at hc hnot
      cases hc
      simp only [Bool.not_eq_false', Bool.and_eq_true, decide_eq_true_eq] at hnot
      exact hnot.2

def plainMarks (cs : List Char) : List (Char × Bool) := cs.map (·, true)

theorem map_fst_plainMarks (cs : List Char) : (plainMarks cs).map Prod.fst = cs := by
  rw [plainMarks, List.map_map]
  exact List.map_id cs

theorem noComment_plainMarks (h : ';' ∉ cs) : NoComment (plainMarks cs) := by
  intro hm
  obtain ⟨c, hc, heq⟩ := List.mem_map.1 hm
  cases heq
  exact h hc

/-- The operand is cut nowhere. -/
structure Uncut (cs : List Char) : Prop where
  unquoted : Unquoted cs
  comment : ';' ∉ cs
  nests : Grammar.descend 0 0 ((plainMarks cs).filterMap Token.delimiter?) = some 0

theorem intercalate_pieces (before after : List (List Char)) (mid : List Char) :
    [','].intercalate (before ++ mid :: after) =
      before.flatMap (· ++ [',']) ++ (mid ++ after.flatMap (',' :: ·)) := by
  induction before with
  | nil =>
    rw [List.nil_append, List.flatMap_nil, List.nil_append]
    induction after generalizing mid with
    | nil => rw [List.intercalate_singleton, List.flatMap_nil, List.append_nil]
    | cons p after ih =>
      rw [List.intercalate_cons_cons, ih p, List.flatMap_cons, List.append_assoc]
      rfl
  | cons p before ih =>
    obtain ⟨q, rest, hrest⟩ : ∃ q rest, before ++ mid :: after = q :: rest := by
      cases before with
      | nil => exact ⟨_, _, rfl⟩
      | cons q before => exact ⟨_, _, rfl⟩
    rw [List.cons_append, hrest, List.intercalate_cons_cons, ← hrest, ih, List.flatMap_cons]
    simp only [List.append_assoc]

theorem splitMarked_ne_nil (depth : Int) (piece : List Char) (ms : List (Char × Bool)) :
    splitMarked depth piece ms ≠ [] := by
  induction ms generalizing depth piece with
  | nil => exact List.cons_ne_nil _ _
  | cons m ms ih =>
    rw [splitMarked]
    split
    · exact List.cons_ne_nil _ _
    · exact ih _ _

theorem intercalate_splitMarked (depth : Int) (piece : List Char) (ms : List (Char × Bool)) :
    [','].intercalate (splitMarked depth piece ms) = piece.reverse ++ ms.map Prod.fst := by
  induction ms generalizing depth piece with
  | nil => rw [splitMarked, List.intercalate_singleton, List.map_nil, List.append_nil]
  | cons m ms ih =>
    rw [splitMarked]
    split
    · rename_i hcomma
      simp only [Bool.and_eq_true, decide_eq_true_eq] at hcomma
      obtain ⟨p, ps, hps⟩ := List.exists_cons_of_ne_nil (splitMarked_ne_nil depth [] ms)
      rw [hps, List.intercalate_cons_cons, ← hps, ih, List.append_assoc, List.map_cons,
        hcomma.1.2]
      rfl
    · rw [ih, List.reverse_cons, List.append_assoc]
      rfl

/-- The marks on a text whose operands are `before`, `mid` and `after`: those before are marked
alike whatever follows, and those after by themselves. -/
structure Cut (before : List (List Char)) (mid : List Char) (after : List (List Char))
    (ms : List (Char × Bool)) (behind? : Option Char) : Prop where
  leads : Leads none before ms behind?
  alone : splitMarked 0 [] (mark mid) = [mid]
  here : after = [] ∨ ∃ ms₀, ms₀.map Prod.fst = mid ∧
    (∀ rest, markFrom behind? none (mid ++ ',' :: rest) =
      ms₀ ++ (',', true) :: markFrom (some ',') none rest) ∧
    ∃ rest, after.flatMap (',' :: ·) = ',' :: rest ∧
      splitMarked 0 [] (markFrom (some ',') none rest) = after

theorem exists_cut (h : splitMarked 0 [] (mark ([','].intercalate (before ++ mid :: after))) =
    before ++ mid :: after) : ∃ ms behind?, Cut before mid after ms behind? := by
  rw [intercalate_pieces] at h
  obtain ⟨ms, behind?, cs, hleads, hcs, hlast⟩ := exists_leads free_none (List.cons_ne_nil _ _) h
  rw [← List.append_cancel_left hcs] at hlast
  rcases splitMarked_cut hlast with ⟨rfl, -⟩ | ⟨ms₀, ms₁, hms, hmid, hrest, halone, -⟩
  · rw [List.flatMap_nil, List.append_nil, markFrom_free hleads.free free_none] at hlast
    exact ⟨ms, behind?, hleads, hlast, .inl rfl⟩
  · have hmid : ms₀.map Prod.fst = mid := hmid.symm
    obtain ⟨rest, hsplit, hresume⟩ := markFrom_resume hms
    rw [hmid] at hsplit hresume
    have hafter := List.append_cancel_left hsplit
    have hms₁ : ms₁ = markFrom (some ',') none rest := by
      rw [hafter, hresume rest] at hms
      exact (List.cons.inj (List.append_cancel_left hms)).2.symm
    have hmark : mark mid = ms₀ := by
      obtain ⟨ms', happend, -⟩ := markFrom_append behind? none mid (',' :: rest)
      rw [hresume] at happend
      have hlength : ms₀.length = (markFrom behind? none mid).length := by
        rw [← List.length_map (f := Prod.fst), hmid, ← List.length_map (f := Prod.fst),
          map_fst_markFrom]
      rw [mark, markFrom_free free_none hleads.free]
      exact (List.append_inj_left happend hlength).symm
    exact ⟨ms, behind?, hleads, hmark ▸ halone, .inr ⟨ms₀, hmid, hresume, rest, hafter,
      hms₁ ▸ hrest⟩⟩

/-- Another operand is cut out of the text in place of the one that was. -/
theorem Cut.replaced (h : Cut before mid after ms behind?) (hmid : Uncut mid') :
    splitMarked 0 [] (mark ([','].intercalate (before ++ mid' :: after))) =
      before ++ mid' :: after := by
  have hpiece : (List.map Prod.fst (plainMarks mid')).reverse ++ [] = mid'.reverse := by
    rw [map_fst_plainMarks, List.append_nil]
  rw [intercalate_pieces, mark, h.leads.marks, h.leads.pieces, markFrom_plain hmid.unquoted]
  rw [← plainMarks, splitMarked_append hmid.nests, hpiece]
  rcases h.here with rfl | ⟨ms₀, -, -, rest, hafter, hsplit⟩
  · simp only [List.flatMap_nil, markFrom, splitMarked, List.reverse_reverse]
  · rw [hafter, markFrom_separator (by decide)]
    change before ++ mid'.reverse.reverse :: splitMarked 0 [] _ = _
    rw [hsplit, List.reverse_reverse]

theorem Leads.mark_append (h : Leads none before ms behind?) {front : List Char}
    (hfront : Unquoted front) (hfree : Free front.getLast?) (cs : List Char) :
    mark (front ++ (before.flatMap (· ++ [',']) ++ cs)) =
      plainMarks front ++ (ms ++ markFrom behind? none cs) := by
  have hnone : Free (front.getLast?.or none) := by
    rw [Option.or_none]
    exact hfree
  rw [mark, markFrom_plain hfront, markFrom_free hnone free_none, h.marks]
  rfl

theorem noComment_of_left {left cs rest rest' : List Char} (hleft : Unquoted left)
    (hfree : Free (left.getLast?.or previous?))
    (h : uncommented (markFrom previous? none (left ++ (cs ++ rest))) = left ++ (cs ++ rest')) :
    NoComment (mark cs) := by
  obtain ⟨ms, hms, -⟩ := markFrom_append none none cs rest
  rw [markFrom_plain hleft, markFrom_free hfree free_none, hms] at h
  obtain ⟨-, hrest⟩ := of_uncommented (map_fst_plainMarks left) h
  exact (of_uncommented (map_fst_markFrom none none cs) hrest).1

theorem Cut.stripComment_replaced (h : Cut before mid after ms behind?) (hmid : Uncut mid')
    {front spaces comment : List Char} (hfront : Unquoted front) (hfree : Free front.getLast?)
    (hspaces : ∀ c ∈ spaces, Text.isSpace c = true)
    (hcomment : ∀ c, comment.head? = some c → c = ';')
    (hstrip : stripComment (front ++ ([','].intercalate (before ++ mid :: after) ++
        (spaces ++ comment))) =
      front ++ ([','].intercalate (before ++ mid :: after) ++ spaces)) :
    stripComment (front ++ ([','].intercalate (before ++ mid' :: after) ++ (spaces ++ comment))) =
      front ++ ([','].intercalate (before ++ mid' :: after) ++ spaces) := by
  have hchars : before.flatMap (· ++ [',']) = ms.map Prod.fst := h.leads.chars.symm
  rw [intercalate_pieces, stripComment_eq] at hstrip ⊢
  simp only [List.append_assoc] at hstrip ⊢
  rw [h.leads.mark_append hfront hfree] at hstrip ⊢
  rw [hchars] at hstrip ⊢
  obtain ⟨hfront', hstrip⟩ := of_uncommented (map_fst_plainMarks front) hstrip
  obtain ⟨hms, hstrip⟩ := of_uncommented rfl hstrip
  rw [uncommented_append hfront', map_fst_plainMarks, uncommented_append hms,
    markFrom_plain hmid.unquoted, ← plainMarks,
    uncommented_append (noComment_plainMarks hmid.comment), map_fst_plainMarks]
  rcases h.here with rfl | ⟨ms₀, hmid₀, hresume, rest, hafter, -⟩
  · have hrest (previous? : Option Char) : uncommented (markFrom previous? none comment) = [] := by
      cases comment with
      | nil => rfl
      | cons c comment =>
        rw [hcomment c rfl, markFrom_separator (by decide)]
        rfl
    have hsemicolon : ';' ∉ spaces := by
      intro hmem
      have hspace := hspaces ';' hmem
      revert hspace
      decide
    rw [List.flatMap_nil, List.nil_append, markFrom_plain (unquoted_spaces hspaces), ← plainMarks,
      uncommented_append (noComment_plainMarks hsemicolon), map_fst_plainMarks, hrest]
    simp only [List.nil_append, List.append_nil]
  · rw [hafter, List.cons_append, hresume] at hstrip
    obtain ⟨-, hstrip⟩ := of_uncommented hmid₀ hstrip
    rw [hafter, List.cons_append, markFrom_separator (by decide), hstrip]

/-- The characters mean nothing to the cutting of operands. -/
structure Inert (cs : List Char) : Prop where
  unquoted : Unquoted cs
  comment : ';' ∉ cs
  delimiters : (plainMarks cs).filterMap Token.delimiter? = []

theorem inert_of_not_cutters (h : ∀ c ∈ cs, c ∉ Token.cutters) : Inert cs := by
  refine ⟨unquoted_of_not_cutters h, fun hc => h _ hc (by decide), ?_⟩
  rw [List.filterMap_eq_nil_iff]
  intro m hm
  obtain ⟨c, hc, rfl⟩ := List.mem_map.1 hm
  exact Token.delimiter?_eq_none (h c hc) true

theorem inert_spaces (h : ∀ c ∈ cs, Text.isSpace c = true) : Inert cs :=
  inert_of_not_cutters fun c hc => (Token.space_plain (h c hc)).2.1

theorem inert_name (h : isName cs = true) : Inert cs := by
  obtain ⟨-, -, -, -, hall⟩ := exists_of_isName h
  exact inert_of_not_cutters fun c hc => (part_plain (hall c hc)).2.2.2

theorem Inert.append (h : Inert cs) (h' : Inert cs') : Inert (cs ++ cs') := by
  refine ⟨h.unquoted.append h'.unquoted, fun hc => ?_, ?_⟩
  · rcases List.mem_append.1 hc with hc | hc
    · exact h.comment hc
    · exact h'.comment hc
  · rw [plainMarks, List.map_append, List.filterMap_append]
    exact List.append_eq_nil_iff.2 ⟨h.delimiters, h'.delimiters⟩

theorem Inert.uncut (h : Inert cs) : Uncut cs :=
  ⟨h.unquoted, h.comment, by rw [h.delimiters]; rfl⟩

theorem Inert.whole (h : Inert cs) : Whole cs (plainMarks cs) := by
  refine ⟨map_fst_plainMarks cs, fun previous? rest _ => markFrom_plain h.unquoted previous? rest,
    noComment_plainMarks h.comment, fun low depth _ => ?_⟩
  rw [h.delimiters]
  rfl

theorem Inert.uncut_enclosed (hl : Inert left) (hm : Inert mid) (hr : Inert right) :
    Uncut (left ++ '(' :: (mid ++ ')' :: right)) := by
  have hparens : Unquoted ['('] ∧ Unquoted [')'] :=
    ⟨List.forall_mem_singleton.2 (by decide), List.forall_mem_singleton.2 (by decide)⟩
  refine ⟨?_, fun hc => ?_, ?_⟩
  · exact hl.unquoted.append (hparens.1.append (hm.unquoted.append (hparens.2.append hr.unquoted)))
  · simp only [List.mem_append, List.mem_cons] at hc
    rcases hc with hc | hc | hc | hc | hc
    · exact hl.comment hc
    · revert hc
      decide
    · exact hm.comment hc
    · revert hc
      decide
    · exact hr.comment hc
  · have hdelimiters :
        (plainMarks (left ++ '(' :: (mid ++ ')' :: right))).filterMap Token.delimiter? =
          [.lparen, .rparen] := by
      have hparts : plainMarks (left ++ '(' :: (mid ++ ')' :: right)) =
          plainMarks left ++
            ('(', true) :: (plainMarks mid ++ (')', true) :: plainMarks right) := by
        simp only [plainMarks, List.map_append, List.map_cons]
      rw [hparts, List.filterMap_append, hl.delimiters, List.nil_append]
      change Token.Kind.lparen :: _ = _
      rw [List.filterMap_append, hm.delimiters, List.nil_append]
      change Token.Kind.lparen :: Token.Kind.rparen :: _ = _
      rw [hr.delimiters]
    rw [hdelimiters]
    rfl

end Source
end Z80Asm
