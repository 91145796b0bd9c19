import Mathlib
import Z80Asm.Token.Lexer

/-! Number literals. A number written in any radix that the literals know is read back as that
number, whether a mark in front or a letter behind tells the radix. -/

namespace Z80Asm
set_option autoImplicit true

namespace Number

/-- The character is the digit `d`, as a small or a capital letter from ten on. -/
def IsDigit (d : Nat) (c : Char) : Prop := c = Nat.digitChar d ∨ c = (Nat.digitChar d).toUpper

/-- The digits write the number `n`, the most significant first and with zeros in front or not. -/
inductive Writes (radix : Nat) : Nat → List Char → Prop where
  | digit : d < radix → IsDigit d c → Writes radix d [c]
  | more : Writes radix n cs → d < radix → IsDigit d c → Writes radix (n * radix + d) (cs ++ [c])

/-- A mark in front of the digits and the radix that it tells. Without one numbers are decimal. -/
inductive Mark : List Char → Nat → Prop where
  | none : Mark [] 10
  | hex : c = 'x' ∨ c = 'X' → Mark ['0', c] 16
  | octal : c = 'o' ∨ c = 'O' → Mark ['0', c] 8
  | binary : c = 'b' ∨ c = 'B' → Mark ['0', c] 2

inductive Letter : Char → Nat → Prop where
  | hex : c = 'h' ∨ c = 'H' → Letter c 16
  | octal : c = 'o' ∨ c = 'O' ∨ c = 'q' ∨ c = 'Q' → Letter c 8
  | binary : c = 'b' ∨ c = 'B' → Letter c 2

theorem writes_toDigits (hr : 1 < radix) (n : Nat) : Writes radix n (Nat.toDigits radix n) := by
  induction n using Nat.strongRecOn with
  | ind n ih =>
    rw [Nat.toDigits_eq_if hr]
    split
    · rename_i hn
      exact .digit hn (.inl rfl)
    · rename_i hn
      have hdiv : n / radix < n := Nat.div_lt_self (by omega) hr
      have h := (ih _ hdiv).more (Nat.mod_lt n (by omega)) (c := (n % radix).digitChar) (.inl rfl)
      rwa [Nat.div_add_mod'] at h

theorem Writes.ne_nil (h : Writes radix n cs) : cs ≠ [] := by
  cases h with
  | digit => exact List.cons_ne_nil _ _
  | more => simp

theorem Writes.forall {P : Char → Prop} (h : Writes radix n cs)
    (hP : ∀ d < radix, P (Nat.digitChar d) ∧ P (Nat.digitChar d).toUpper) : ∀ c ∈ cs, P c := by
  have hdigit {d c} (hd : d < radix) (hc : IsDigit d c) : P c := by
    rcases hc with rfl | rfl
    · exact (hP d hd).1
    · exact (hP d hd).2
  induction h with
  | digit hd hc => exact List.forall_mem_singleton.2 (hdigit hd hc)
  | more _ hd hc ih =>
    exact List.forall_mem_append.2 ⟨ih, List.forall_mem_singleton.2 (hdigit hd hc)⟩

theorem Writes.digits (h : Writes radix n cs) : ∀ c ∈ cs, ∃ d < radix, IsDigit d c :=
  h.forall fun d hd => ⟨⟨d, hd, .inl rfl⟩, ⟨d, hd, .inr rfl⟩⟩

theorem toLower_of_isDigit (hd : d < 16) (h : IsDigit d c) :
    Text.toLower c = Nat.digitChar d := by
  have hall : ∀ d < 16, Text.toLower (Nat.digitChar d) = Nat.digitChar d ∧
      Text.toLower (Nat.digitChar d).toUpper = Nat.digitChar d := by decide
  rcases h with rfl | rfl
  · exact (hall d hd).1
  · exact (hall d hd).2

theorem digitIn?_of_isDigit (hd : d < radix) (hr : radix ≤ 16) (h : IsDigit d c) :
    digitIn? radix (Text.toLower c) = some d := by
  have hall : ∀ d < 16, digit? (Nat.digitChar d) = some d := by decide
  rw [toLower_of_isDigit (by omega) h, digitIn?, hall d (by omega)]
  exact Option.filter_some_pos (by simpa using hd)

theorem Writes.mapM (h : Writes radix n cs) (hr : radix ≤ 16) :
    ∃ ds, (cs.map Text.toLower).mapM (digitIn? radix) = some ds ∧ ofDigits radix ds = n := by
  induction h with
  | @digit d c hd hc => exact ⟨[d], by simp [digitIn?_of_isDigit hd hr hc], by simp [ofDigits]⟩
  | @more n cs d c _ hd hc ih =>
    obtain ⟨ds, hds, hn⟩ := ih
    refine ⟨ds ++ [d], ?_, ?_⟩
    · simp [List.mapM_append, hds, digitIn?_of_isDigit hd hr hc]
    · rw [ofDigits, List.foldl_append, ← ofDigits, hn]
      rfl

theorem Writes.natural? (h : Writes radix n cs) (hr : radix ≤ 16) :
    natural? radix (cs.map Text.toLower) = some n := by
  obtain ⟨ds, hds, hn⟩ := h.mapM hr
  have hne : (cs.map Text.toLower).isEmpty = false := by
    simpa using h.ne_nil
  rw [Number.natural?, hne, if_neg Bool.false_ne_true, hds, Option.map_some, hn]

theorem Writes.unsigned? (h : Writes radix n cs) (hr : radix ≤ 16) (hn : n < wordLimit) :
    unsigned? radix (cs.map Text.toLower) = some (Int64.ofNat n) := by
  rw [Number.unsigned?, h.natural? hr, Option.bind_some, if_pos hn]

theorem Writes.forall_lower {P : Char → Prop} (h : Writes radix n cs) (hr : radix ≤ 16)
    (hP : ∀ d < radix, P (Nat.digitChar d)) : ∀ c ∈ cs.map Text.toLower, P c := by
  rw [List.forall_mem_map]
  refine h.forall fun d hd => ?_
  rw [toLower_of_isDigit (by omega) (.inl rfl), toLower_of_isDigit (by omega) (.inr rfl)]
  exact ⟨hP d hd, hP d hd⟩

theorem Writes.signed? (h : Writes radix n cs) (hr : radix ≤ 16) :
    signed? radix (cs.map Text.toLower) =
      if n < signedLimit then some (Int64.ofNat n) else none := by
  have hsigns := h.forall_lower (P := fun c => c ≠ '-' ∧ c ≠ '+') hr fun d hd => by
    have hall : ∀ d < 16, Nat.digitChar d ≠ '-' ∧ Nat.digitChar d ≠ '+' := by decide
    exact hall d (by omega)
  have hnatural := h.natural? hr
  unfold Number.signed?
  split
  · rename_i ds hds
    rw [hds] at hsigns
    exact absurd rfl (hsigns '-' List.mem_cons_self).1
  · rename_i ds hds
    rw [hds] at hsigns
    exact absurd rfl (hsigns '+' List.mem_cons_self).2
  · rw [hnatural, Option.bind_some]

/-- No letter tells a radix behind digits of two or eight. -/
theorem splitSuffix?_eq_none {cs : List Char}
    (h : ∀ c ∈ cs.getLast?, c ≠ 'h' ∧ c ≠ 'b' ∧ c ≠ 'o' ∧ c ≠ 'q') :
    splitSuffix? cs = none := by
  unfold splitSuffix?
  split
  · rfl
  · split
    · rename_i hc
      exact absurd rfl (h _ hc).1
    · rename_i hc
      exact absurd rfl (h _ hc).2.1
    · rename_i hc
      exact absurd rfl (h _ hc).2.2.1
    · rename_i hc
      exact absurd rfl (h _ hc).2.2.2
    · rfl

theorem value?_hex (cs : List Char) : value? ('0' :: 'x' :: cs) = unsigned? 16 cs := by
  have hsuffix : splitSuffix? ('0' :: 'x' :: cs) = none := rfl
  have hdigits : ('0' :: 'x' :: cs).all Char.isDigit = false := rfl
  rw [value?, hsuffix, hdigits]
  rfl

theorem value?_octal (cs : List Char) : value? ('0' :: 'o' :: cs) = unsigned? 8 cs := by
  have hsuffix : splitSuffix? ('0' :: 'o' :: cs) = none := rfl
  have hdigits : ('0' :: 'o' :: cs).all Char.isDigit = false := rfl
  rw [value?, hsuffix, hdigits]
  rfl

theorem value?_binary {cs : List Char} (hne : cs ≠ [])
    (h : ∀ c ∈ cs, c ≠ 'h' ∧ c ≠ 'b' ∧ c ≠ 'o' ∧ c ≠ 'q') :
    value? ('0' :: 'b' :: cs) = unsigned? 2 cs := by
  have hsuffix : splitSuffix? ('0' :: 'b' :: cs) = none := by
    apply splitSuffix?_eq_none
    intro c hc
    obtain ⟨d, cs, rfl⟩ := List.exists_cons_of_ne_nil hne
    exact h c (List.mem_of_getLast? hc)
  have hdigits : ('0' :: 'b' :: cs).all Char.isDigit = false := rfl
  rw [value?, hsuffix, hdigits]
  rfl

theorem natural?_zero (hr : 0 < radix) {cs : List Char} (hne : cs ≠ []) :
    natural? radix ('0' :: cs) = natural? radix cs := by
  have hzero : digitIn? radix '0' = some 0 := Option.filter_some_pos (by simpa using hr)
  have hempty : cs.isEmpty = false := by simpa using hne
  rw [natural?, natural?, hempty, List.mapM_cons, hzero]
  cases cs.mapM (digitIn? radix) with
  | none => rfl
  | some ds => simp [ofDigits]

theorem value?_decimal {cs : List Char} (hne : cs ≠ []) (h : ∀ c ∈ cs, c.isDigit = true) :
    value? cs = unsigned? 10 cs := by
  have hsuffix : splitSuffix? cs = none := by
    apply splitSuffix?_eq_none
    intro c hc
    have hdigit := h c (List.mem_of_getLast? hc)
    refine ⟨?_, ?_, ?_, ?_⟩ <;>
      · rintro rfl
        cases hdigit
  have hall : cs.all Char.isDigit = true := List.all_eq_true.2 h
  simp only [value?, hsuffix, hall, ↓reduceIte]
  clear hsuffix hall
  induction cs with
  | nil => exact absurd rfl hne
  | cons c cs ih =>
    by_cases hc : c = '0'
    · subst hc
      rw [List.dropWhile_cons_of_pos (by decide)]
      cases cs with
      | nil => rfl
      | cons d cs =>
        rw [ih (List.cons_ne_nil d cs) fun c hc => h c (List.mem_cons_of_mem _ hc)]
        rw [unsigned?, unsigned?, natural?_zero (by decide) (List.cons_ne_nil d cs)]
    · rw [List.dropWhile_cons_of_neg (by simpa using hc)]

theorem isPrefixOf_eq_false {m : Char} (hne : cs ≠ []) (h : ∀ c ∈ cs, c ≠ m)
    (hl : l = m → cs ≠ ['0']) : ['0', m].isPrefixOf (cs ++ [l]) = false := by
  match cs with
  | [] => exact absurd rfl hne
  | [c] =>
    by_cases hm : l = m
    · have hc : c ≠ '0' := fun hc => hl hm (by rw [hc])
      simp [List.isPrefixOf, Ne.symm hc]
    · simp [List.isPrefixOf, Ne.symm hm]
  | c :: d :: cs =>
    have hd := h d (List.mem_cons_of_mem c List.mem_cons_self)
    simp [List.isPrefixOf, Ne.symm hd]

/-- A letter behind digits tells their radix, if the literal is not just a mark. -/
theorem value?_suffix (hl : Letter l radix) (h : Writes radix n cs) (hmark : ¬ Mark (cs ++ [l]) 8) :
    value? ((cs ++ [l]).map Text.toLower) = signed? radix (cs.map Text.toLower) := by
  have hr : radix ≤ 16 := by cases hl <;> decide
  have hne : cs.map Text.toLower ≠ [] := by simpa using h.ne_nil
  have hdigits {m : Char} (hm : ∀ d < 16, Nat.digitChar d ≠ m) :
      ∀ c ∈ cs.map Text.toLower, c ≠ m :=
    h.forall_lower hr fun d hd => hm d (Nat.lt_of_lt_of_le hd hr)
  have hzero (hc : cs.map Text.toLower = ['0']) : cs = ['0'] := by
    obtain ⟨c, rfl, hlower⟩ := List.map_eq_singleton_iff.1 hc
    obtain ⟨d, hd, hdigit⟩ := h.digits c List.mem_cons_self
    have hall : ∀ d < 16, Nat.digitChar d = '0' → d = 0 := by decide
    rw [toLower_of_isDigit (by omega) hdigit] at hlower
    rw [hall d (by omega) hlower] at hdigit
    rcases hdigit with rfl | rfl <;> rfl
  have hsuffix : splitSuffix? (cs.map Text.toLower ++ [Text.toLower l]) =
      some (radix, cs.map Text.toLower) := by
    have hx : ['0', 'x'].isPrefixOf (cs.map Text.toLower ++ [Text.toLower l]) = false := by
      apply isPrefixOf_eq_false hne (hdigits (by decide))
      rcases hl with (rfl | rfl) | (rfl | rfl | rfl | rfl) | (rfl | rfl) <;> exact nofun
    have ho : ['0', 'o'].isPrefixOf (cs.map Text.toLower ++ [Text.toLower l]) = false := by
      apply isPrefixOf_eq_false hne (hdigits (by decide))
      intro ho hc
      rw [hzero hc] at hmark
      rcases hl with (rfl | rfl) | (rfl | rfl | rfl | rfl) | (rfl | rfl)
      all_goals first | exact hmark (.octal (by decide)) | exact absurd ho (by decide)
    have hbinary : radix = 2 → isBinary (cs.map Text.toLower) = true := by
      rintro rfl
      have hall := h.forall_lower (P := fun c => c = '0' ∨ c = '1') hr (by decide)
      simpa [isBinary, h.ne_nil] using hall
    rw [splitSuffix?, hx, ho, if_neg (by decide), List.getLast?_concat, List.dropLast_concat]
    rcases hl with (rfl | rfl) | (rfl | rfl | rfl | rfl) | (rfl | rfl)
    case binary.inl => exact if_pos (hbinary rfl)
    case binary.inr => exact if_pos (hbinary rfl)
    all_goals rfl
  rw [List.map_append, List.map_singleton, value?, hsuffix]

theorem parse_ofList (hne : cs ≠ []) : parse (String.ofList cs) =
    match value? (cs.map Text.toLower) with
    | some n => .ok n
    | none => .error (.invalid (String.ofList cs)) := by
  have hempty : (String.ofList cs).isEmpty = false := by
    rw [← Bool.not_eq_true, String.isEmpty_iff]
    simpa using hne
  have hchars : (Text.lower (String.ofList cs)).toList = cs.map Text.toLower := by
    rw [Text.lower, String.toList_map, String.toList_ofList]
  cases hv : value? (cs.map Text.toLower) with
  | none => rw [parse, hempty, if_neg Bool.false_ne_true, hchars, hv]
  | some n => rw [parse, hempty, if_neg Bool.false_ne_true, hchars, hv]

def continues (c : Char) : Bool := Text.isLetter c || Text.isDigit c

theorem Writes.forall_continues (h : Writes radix n cs) (hr : radix ≤ 16) :
    ∀ c ∈ cs, continues c = true := by
  have hall : ∀ d < 16, continues (Nat.digitChar d) = true ∧
      continues (Nat.digitChar d).toUpper = true := by decide +kernel
  exact h.forall fun d hd => hall d (by omega)

theorem starts_of_isDigit (hd : d < 10) (h : IsDigit d c) :
    Text.isSpace c = false ∧ isIdentStart c = false ∧ Text.isDigit c = true := by
  have hall : ∀ d < 10, (Nat.digitChar d).toUpper = Nat.digitChar d ∧
      Text.isSpace (Nat.digitChar d) = false ∧ isIdentStart (Nat.digitChar d) = false ∧
      Text.isDigit (Nat.digitChar d) = true := by decide +kernel
  obtain ⟨hupper, hclass⟩ := hall d hd
  rw [IsDigit, hupper, or_self] at h
  rwa [h]

end Number

namespace Token

theorem takeWhile_append {p : Char → Bool} {cs rest : List Char} (hcs : ∀ c ∈ cs, p c = true)
    (hrest : ∀ c ∈ rest.head?, p c = false) : (cs ++ rest).takeWhile p = cs := by
  rw [List.takeWhile_append_of_pos hcs]
  cases rest with
  | nil => exact List.append_nil cs
  | cons c rest =>
    rw [List.takeWhile_cons_of_neg (Bool.eq_false_iff.1 (hrest c rfl)), List.append_nil]

/-- A literal is read as far as letters and digits go. -/
theorem lexFrom_number {start : Nat} (hd : d < 10) (hc : Number.IsDigit d c)
    (hcs : ∀ e ∈ cs, Number.continues e = true)
    (hrest : ∀ e ∈ rest.head?, Number.continues e = false)
    (hv : Number.parse (String.ofList (c :: cs)) = .ok v) :
    lexFrom start (c :: cs ++ rest) =
      (lexFrom (start + cs.length + 1) rest).cons ⟨.number, String.ofList (c :: cs), start⟩ := by
  obtain ⟨hspace, hident, hdigit⟩ := Number.starts_of_isDigit hd hc
  have htail : (cs ++ rest).takeWhile (fun e => Text.isLetter e || Text.isDigit e) = cs :=
    takeWhile_append hcs hrest
  rw [List.cons_append, lexFrom, readLexeme, if_neg (by simp [hspace]), if_neg (by simp [hident]),
    if_pos hdigit]
  simp only [htail, hv, List.drop_left]

theorem lexFrom_dollar {start : Nat} (hne : cs ≠ []) (hcs : ∀ e ∈ cs, isHexDigit e = true)
    (hrest : ∀ e ∈ rest.head?, isHexDigit e = false) :
    lexFrom start ('$' :: cs ++ rest) =
      (lexFrom (start + cs.length + 1) rest).cons
        ⟨.number, String.ofList ('0' :: 'x' :: cs), start⟩ := by
  have hlexeme : readLexeme start '$' (cs ++ rest) =
      .ok ⟨.number, String.ofList ('0' :: 'x' :: cs), cs.length⟩ := by
    rw [readLexeme, if_neg (by decide +kernel), if_neg (by decide +kernel), if_pos rfl,
      takeWhile_append hcs hrest]
    obtain ⟨e, cs, rfl⟩ := List.exists_cons_of_ne_nil hne
    have htext : "0x" ++ String.ofList (e :: cs) = String.ofList ('0' :: 'x' :: e :: cs) := by
      rw [← String.toList_inj, String.toList_append, String.toList_ofList, String.toList_ofList,
        String.toList_ofList]
      rfl
    simp only [htext]
  rw [List.cons_append, lexFrom, if_neg (by decide +kernel), hlexeme]
  simp only [List.drop_left]

end Token

namespace Number

/-- The literal has the value, and alone it is one token. -/
def Reads (cs : List Char) (v : Int64) : Prop :=
  parse (String.ofList cs) = .ok v ∧
    Token.lex (String.ofList cs) =
      ⟨[⟨.number, String.ofList cs, 0⟩, ⟨.eof, "", cs.length⟩], none⟩

theorem reads_of_value? (hd : d < 10) (hc : IsDigit d c) (hcs : ∀ e ∈ cs, continues e = true)
    (hv : value? ((c :: cs).map Text.toLower) = some v) : Reads (c :: cs) v := by
  have hparse : parse (String.ofList (c :: cs)) = .ok v := by
    rw [parse_ofList (List.cons_ne_nil c cs), hv]
  refine ⟨hparse, ?_⟩
  have hlex : Token.lexFrom 0 (c :: cs ++ []) = _ :=
    Token.lexFrom_number hd hc hcs nofun hparse
  rw [List.append_nil] at hlex
  rw [Token.lex, String.toList_ofList, hlex, Token.lexFrom, Nat.zero_add]
  rfl

theorem Writes.starts (h : Writes radix n (c :: cs)) (hr : radix ≤ 16) (hc : c.isDigit = true) :
    ∃ d < 10, IsDigit d c := by
  obtain ⟨d, hd, hdigit⟩ := h.digits c List.mem_cons_self
  refine ⟨d, ?_, hdigit⟩
  have hall : ∀ d < 16, (Nat.digitChar d).isDigit = true ∨
      (Nat.digitChar d).toUpper.isDigit = true → d < 10 := by decide
  rcases hdigit with rfl | rfl
  · exact hall d (by omega) (.inl hc)
  · exact hall d (by omega) (.inr hc)

theorem Writes.reads_marked (h : Writes radix n cs) (hr : radix ≤ 16) (hm : continues m = true)
    (hv : value? ('0' :: Text.toLower m :: cs.map Text.toLower) = some v) :
    Reads ('0' :: m :: cs) v :=
  reads_of_value? (d := 0) (by decide) (.inl rfl)
    (List.forall_mem_cons.2 ⟨hm, h.forall_continues hr⟩) hv

/-- A literal with a mark reads back to its number. -/
theorem Mark.reads (hm : Mark mark radix) (h : Writes radix n cs) (hn : n < wordLimit) :
    Reads (mark ++ cs) (Int64.ofNat n) := by
  have hunsigned (hr : radix ≤ 16) := h.unsigned? hr hn
  cases hm with
  | none =>
    obtain ⟨c, cs, rfl⟩ := List.exists_cons_of_ne_nil h.ne_nil
    obtain ⟨d, hd, hdigit⟩ := h.digits c List.mem_cons_self
    apply reads_of_value? hd hdigit (List.forall_mem_cons.1 (h.forall_continues (by decide))).2
    rw [value?_decimal (by simp) (h.forall_lower (by decide) (by decide))]
    exact hunsigned (by decide)
  | hex hx =>
    rcases hx with rfl | rfl
    all_goals
      apply h.reads_marked (by decide) (by decide)
      exact (value?_hex _).trans (hunsigned (by decide))
  | octal ho =>
    rcases ho with rfl | rfl
    all_goals
      apply h.reads_marked (by decide) (by decide)
      exact (value?_octal _).trans (hunsigned (by decide))
  | binary hb =>
    have hvalue := (value?_binary (by simpa using h.ne_nil)
      (h.forall_lower (by decide) (by decide))).trans (hunsigned (by decide))
    rcases hb with rfl | rfl
    all_goals exact h.reads_marked (by decide) (by decide) hvalue

theorem Letter.value? (hl : Letter l radix) (h : Writes radix n cs) (hmark : ¬ Mark (cs ++ [l]) 8) :
    Number.value? ((cs ++ [l]).map Text.toLower) =
      if n < signedLimit then some (Int64.ofNat n) else none := by
  have hr : radix ≤ 16 := by cases hl <;> decide
  rw [value?_suffix hl h hmark, h.signed? hr]

/-- A literal with a letter reads back to its number, if that fits a word with its sign. -/
theorem Letter.reads (hl : Letter l radix) (h : Writes radix n (c :: cs)) (hc : c.isDigit = true)
    (hmark : ¬ Mark (c :: cs ++ [l]) 8) (hn : n < signedLimit) :
    Reads (c :: cs ++ [l]) (Int64.ofNat n) := by
  have hr : radix ≤ 16 := by cases hl <;> decide
  have hletter : continues l = true := by
    rcases hl with (rfl | rfl) | (rfl | rfl | rfl | rfl) | (rfl | rfl) <;> decide
  obtain ⟨d, hd, hdigit⟩ := h.starts hr hc
  refine reads_of_value? hd hdigit (List.forall_mem_append.2 ⟨?_, ?_⟩) ?_
  · exact (List.forall_mem_cons.1 (h.forall_continues hr)).2
  · exact List.forall_mem_singleton.2 hletter
  · exact (hl.value? h hmark).trans (if_pos hn)

/-- Every number reads back from each way to write it. A mark allows all words, of which the upper
half stands for the negative numbers; a letter only those below the sign. Alone, each literal is
one token. A mark without digits is no literal, and a dollar sign is a mark as well. -/
theorem numerals_read_back :
    (∀ {mark radix cs n}, Mark mark radix → Writes radix n cs → n < 2 ^ 64 →
      ∃ v, Reads (mark ++ cs) v ∧ v.toUInt64.toNat = n) ∧
    (∀ {l radix c cs n}, Letter l radix → Writes radix n (c :: cs) → c.isDigit = true →
      ¬ Mark (c :: cs ++ [l]) 8 →
      (n < 2 ^ 63 → ∃ v, Reads (c :: cs ++ [l]) v ∧ v.toInt = n) ∧
      (2 ^ 63 ≤ n → parse (String.ofList (c :: cs ++ [l])) =
        .error (.invalid (String.ofList (c :: cs ++ [l]))))) ∧
    (∀ {cs}, Mark cs 8 → parse (String.ofList cs) = .error (.invalid (String.ofList cs))) ∧
    (∀ {cs n}, Writes 16 n cs → n < 2 ^ 64 →
      ∃ v text, parse text = .ok v ∧ parse (String.ofList ('0' :: 'x' :: cs)) = .ok v ∧
        Token.lex (String.ofList ('$' :: cs)) =
          ⟨[⟨.number, text, 0⟩, ⟨.eof, "", cs.length + 1⟩], none⟩) := by
  refine ⟨fun hm h hn => ?_, fun {l radix c cs n} hl h hc hmark => ⟨fun hn => ?_, fun hn => ?_⟩,
    fun hm => ?_, fun {cs n} h hn => ?_⟩
  · refine ⟨_, hm.reads h hn, ?_⟩
    rw [Int64.toUInt64_ofNat', UInt64.toNat_ofNat', Nat.mod_eq_of_lt hn]
  · exact ⟨_, hl.reads h hc hmark hn, Int64.toInt_ofNat_of_lt hn⟩
  · have hlimit : ¬ n < signedLimit := Nat.not_lt.2 hn
    rw [parse_ofList (by simp), hl.value? h hmark, if_neg hlimit]
  · cases hm with
    | octal ho =>
      rw [parse_ofList (List.cons_ne_nil _ _)]
      rcases ho with rfl | rfl <;> rfl
  · obtain ⟨hparse, -⟩ := (Mark.hex (.inl rfl)).reads h hn
    refine ⟨_, _, hparse, hparse, ?_⟩
    have hhex : ∀ c ∈ cs, Token.isHexDigit c = true := h.forall (by decide +kernel)
    have hlex : Token.lexFrom 0 ('$' :: cs ++ []) = _ :=
      Token.lexFrom_dollar h.ne_nil hhex nofun
    rw [List.append_nil] at hlex
    rw [Token.lex, String.toList_ofList, hlex, Token.lexFrom, Nat.zero_add]
    rfl

/-- A `b` is a mark, a digit or a letter, as the rest of the literal has it. -/
theorem numerals_read_back_overlaps :
    (∃ v, Reads ['0', 'x', '1', 'b'] v ∧ v.toUInt64.toNat = 0x1b) ∧
    (∃ v, Reads ['0', 'b', '1'] v ∧ v.toUInt64.toNat = 1) ∧
    (∃ v, Reads ['0', 'b', '1', 'h'] v ∧ v.toInt = 0xb1) ∧
    (∃ v, Reads ['0', 'b', 'h'] v ∧ v.toInt = 0xb) ∧
    (∃ v, Reads ['1', '0', '1', 'b'] v ∧ v.toInt = 5) ∧
    (∃ v, Reads ['0', 'b'] v ∧ v.toInt = 0) ∧
    (∃ v text, parse text = .ok v ∧ parse (String.ofList ['0', 'x', '0', 'b']) = .ok v ∧
      Token.lex (String.ofList ['$', '0', 'b']) =
        ⟨[⟨.number, text, 0⟩, ⟨.eof, "", 3⟩], none⟩) := by
  obtain ⟨hmark, hletter, -, hdollar⟩ := numerals_read_back
  have hzero {radix} (hr : 0 < radix) : Writes radix 0 ['0'] := .digit hr (.inl rfl)
  have hone {radix} (hr : 1 < radix) : Writes radix 1 ['1'] := .digit hr (.inl rfl)
  have hhex : Writes 16 0x1b ['1', 'b'] := .more (hone (by decide)) (d := 11) (by decide) (.inl rfl)
  have hb : Writes 16 0xb ['0', 'b'] := .more (hzero (by decide)) (d := 11) (by decide) (.inl rfl)
  have hb1 : Writes 16 0xb1 ['0', 'b', '1'] := .more hb (d := 1) (by decide) (.inl rfl)
  have hbinary : Writes 2 5 ['1', '0', '1'] :=
    .more (.more (hone (by decide)) (d := 0) (by decide) (.inl rfl)) (d := 1) (by decide) (.inl rfl)
  have hunmarked {c d cs} (hd : d ≠ 'o' ∧ d ≠ 'O') : ¬ Mark (c :: d :: cs) 8 := by
    intro h
    cases h with
    | octal ho => exact ho.elim hd.1 hd.2
  refine ⟨hmark (.hex (.inl rfl)) hhex (by decide), hmark (.binary (.inl rfl)) (hone (by decide))
    (by decide), ?_, ?_, ?_, ?_, hdollar hb (by decide)⟩
  · exact (hletter (.hex (.inl rfl)) hb1 rfl (hunmarked (by decide))).1 (by decide)
  · exact (hletter (.hex (.inl rfl)) hb rfl (hunmarked (by decide))).1 (by decide)
  · exact (hletter (.binary (.inl rfl)) hbinary rfl (hunmarked (by decide))).1 (by decide)
  · have h := hletter (.binary (.inl rfl)) (hzero (by decide)) rfl (hunmarked (by decide))
    exact h.1 (by decide)

end Number
end Z80Asm
