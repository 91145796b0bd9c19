import Z80Asm.Expr.Parser
import Z80Asm.Proofs.Grammar

/-! The parser reads exactly the phrases of the grammar. It reads a phrase up to the first token
that does not go on with it, and what it reads is always a phrase. -/

namespace Z80Asm.Grammar
set_option autoImplicit true

namespace Nonterminal

def level (X : Nonterminal) : Expr.Level := ⟨X.operators, X == .logicalOr || X == .logicalAnd⟩

def levels (X : Nonterminal) : List Expr.Level := Expr.levels.drop (X.strength - 3)

theorem levels_of_operand {X Y : Nonterminal} (h : X.operand? = some Y) :
    X.levels = X.level :: Y.levels := by
  cases X with
  | unary => cases h
  | _ =>
    cases h
    rfl

theorem join_level (X : Nonterminal) (op : Token.Kind) (left right : Expr) :
    X.level.join op left right = X.join op left right := by
  cases X <;> rfl

end Nonterminal

theorem isUnary_iff (k : Token.Kind) :
    Expr.isUnary k = true ↔ k ∈ Nonterminal.unary.operators := by
  cases k <;> decide

theorem takes_iff (fn : String) (count : Nat) :
    Takes fn count ↔ ∃ a, Expr.arity? fn = some a ∧ a.admits count = true := by
  constructor
  · intro h
    cases h with
    | cat => exact ⟨_, rfl, by simp [Expr.Arity.admits]⟩
    | rpt => exact ⟨_, rfl, by decide⟩
    | swp => exact ⟨_, rfl, by decide⟩
    | min => exact ⟨_, rfl, by simp [Expr.Arity.admits]⟩
    | max => exact ⟨_, rfl, by simp [Expr.Arity.admits]⟩
  · rintro ⟨a, ha, hcount⟩
    have hsome (h : a = ⟨1, none⟩) : ∃ n, count = n + 1 := by
      rw [h] at hcount
      simp only [Expr.Arity.admits, Option.all_none, Bool.and_true, decide_eq_true_eq] at hcount
      exact Nat.exists_eq_add_of_le' hcount
    have hexact (n : Nat) (h : a = ⟨n, some n⟩) : count = n := by
      rw [h] at hcount
      simp only [Expr.Arity.admits, Option.all_some, Bool.and_eq_true, decide_eq_true_eq] at hcount
      exact Nat.le_antisymm hcount.2 hcount.1
    unfold Expr.arity? at ha
    split at ha
    · obtain ⟨n, rfl⟩ := hsome (Option.some.inj ha).symm
      exact .cat
    · obtain ⟨n, rfl⟩ := hsome (Option.some.inj ha).symm
      exact .min
    · obtain ⟨n, rfl⟩ := hsome (Option.some.inj ha).symm
      exact .max
    · obtain rfl := hexact 2 (Option.some.inj ha).symm
      exact .rpt
    · obtain rfl := hexact 1 (Option.some.inj ha).symm
      exact .swp
    · cases ha

def Gives {P : List Token → Prop} (r : Except Expr.Located (α × { rest : List Token // P rest }))
    (a : α) (rest : List Token) : Prop :=
  ∃ h, r = .ok (a, ⟨rest, h⟩)

theorem gives_ok {P : List Token → Prop} (a : α) (x : { rest : List Token // P rest }) :
    Gives (.ok (a, x)) a x.1 := ⟨x.2, rfl⟩

section
variable {k : Token.Kind} {ts rest : List Token}

theorem expect_terminal (t : Terminal k) (rest : List Token) :
    Expr.expect k (t.1 :: rest) = .ok ((), ⟨rest, Nat.lt_succ_self _⟩) :=
  if_pos t.2

theorem expect_of_ne (h : t.kind ≠ k) (rest : List Token) :
    ∃ e, Expr.expect k (t :: rest) = .error e :=
  ⟨_, if_neg h⟩

theorem expect_of_ends (h : Ends c rest) (hk : c.strength ≤ strength k) :
    ∃ e, Expr.expect k rest = .error e := by
  cases rest with
  | nil => exact ⟨_, rfl⟩
  | cons t rest =>
    apply expect_of_ne
    intro hkind
    exact absurd h.lt (Nat.not_lt.2 (hkind ▸ hk))

theorem terminal_of_expect {u : Unit} {hlt} (h : Expr.expect k ts = .ok (u, ⟨rest, hlt⟩)) :
    ∃ t : Terminal k, ts = t.1 :: rest := by
  unfold Expr.expect at h
  split at h
  · cases h
  · rename_i t rest
    split at h
    · rename_i hk
      cases h
      exact ⟨⟨t, hk⟩, rfl⟩
    · cases h

end

/-- The parser reads the phrase and leaves `rest`. Arguments are read with the parenthesis behind
them, and further ones together with the one before. -/
def Parses : (c : Category) → Phrase c → List Token → Prop
  | .ternary, p, rest => Gives (Expr.parseTernary (p.tokens ++ rest)) p.tree rest
  | .of X, p, rest => Gives (Expr.parseLevel X.levels (p.tokens ++ rest)) p.tree rest
  | .chain X, p, rest => ∀ Y left, X.operand? = some Y →
    Gives (Expr.parseChain X.level Y.levels left (p.tokens ++ rest)) (p.tree left) rest
  | .primary, p, rest => Gives (Expr.parsePrimary (p.tokens ++ rest)) p.tree rest
  | .arguments, p, rest => ∀ (closing : Terminal .rparen) (r : List Token), rest = closing.1 :: r →
    Gives (Expr.parseArguments (p.tokens ++ rest)) p.tree r
  | .further, p, rest => ∀ (closing : Terminal .rparen) (r : List Token), rest = closing.1 :: r →
    ∀ ts e, Gives (Expr.parseTernary ts) e (p.tokens ++ rest) →
      Gives (Expr.parseSome ts) (e :: p.tree) r

section
variable {X Y : Nonterminal} {rest : List Token}

theorem parses_plain {cond : Phrase (.of .logicalOr)} (hr : Ends .ternary rest)
    (h : Parses (.of .logicalOr) cond rest) : Parses .ternary (.plain cond) rest := by
  obtain ⟨hlt, hcond⟩ := h
  change Expr.parseLevel Expr.levels _ = _ at hcond
  obtain ⟨e, hquestion⟩ := expect_of_ends (k := .question) hr (by decide)
  change Gives (Expr.parseTernary (cond.tokens ++ rest)) _ _
  rw [Expr.parseTernary, hcond]
  simp only [hquestion]
  exact gives_ok _ _

theorem parses_choice {cond : Phrase (.of .logicalOr)} {question : Terminal .question}
    {yes no : Phrase .ternary} {colon : Terminal .colon}
    (hcond : Parses (.of .logicalOr) cond
      (question.1 :: (yes.tokens ++ colon.1 :: (no.tokens ++ rest))))
    (hyes : Parses .ternary yes (colon.1 :: (no.tokens ++ rest))) (hno : Parses .ternary no rest) :
    Parses .ternary (.choice cond question yes colon no) rest := by
  obtain ⟨h₁, hcond⟩ := hcond
  obtain ⟨h₂, hyes⟩ := hyes
  obtain ⟨h₃, hno⟩ := hno
  change Expr.parseLevel Expr.levels _ = _ at hcond
  change Gives (Expr.parseTernary _) _ _
  rw [Phrase.tokens_choice_append, Expr.parseTernary, hcond]
  simp only [expect_terminal, hyes, hno]
  exact gives_ok _ _

theorem parses_joined (hY : X.operand? = some Y) {first : Phrase (.of Y)}
    {chain : Phrase (.chain X)} (hfirst : Parses (.of Y) first (chain.tokens ++ rest))
    (hchain : Parses (.chain X) chain rest) : Parses (.of X) (.joined hY first chain) rest := by
  obtain ⟨h₁, hfirst⟩ := hfirst
  obtain ⟨h₂, hchain⟩ := hchain _ first.tree hY
  change Gives (Expr.parseLevel X.levels _) _ _
  rw [Phrase.tokens_joined_append, Nonterminal.levels_of_operand hY, Expr.parseLevel, hfirst]
  simp only [hchain]
  exact gives_ok _ _

theorem parses_done (hr : Ends (.chain X) rest) : Parses (.chain X) .done rest := by
  intro Y left hY
  change Gives (Expr.parseChain _ _ left rest) left rest
  cases rest with
  | nil =>
    rw [Expr.parseChain]
    exact gives_ok _ _
  | cons t rest =>
    have hop : t.kind ∉ X.operators := fun hmem => not_lt_operator hY ⟨t, hmem⟩ hr.lt
    rw [Expr.parseChain, if_neg (by exact hop)]
    exact gives_ok _ _

theorem parses_more (hY : X.operand? = some Y) (op : Operator X) {right : Phrase (.of Y)}
    {chain : Phrase (.chain X)} (hright : Parses (.of Y) right (chain.tokens ++ rest))
    (hchain : Parses (.chain X) chain rest) :
    Parses (.chain X) (.more hY op right chain) rest := by
  intro Y' left hY'
  cases hY.symm.trans hY'
  obtain ⟨h₁, hright⟩ := hright
  obtain ⟨h₂, hchain⟩ := hchain _ (X.join op.1.kind left right.tree) hY
  rw [Phrase.tokens_more_append, Expr.parseChain, if_pos (by exact op.2), hright]
  simp only [Nonterminal.join_level, hchain]
  exact gives_ok _ _

theorem parses_unary (op : Operator .unary) {operand : Phrase (.of .unary)}
    (h : Parses (.of .unary) operand rest) : Parses (.of .unary) (.unary op operand) rest := by
  obtain ⟨hlt, hoperand⟩ := h
  change Expr.parseLevel [] _ = _ at hoperand
  rw [Expr.parseLevel] at hoperand
  change Gives (Expr.parseLevel [] (op.1 :: (operand.tokens ++ rest))) _ _
  rw [Expr.parseLevel, Expr.parseUnary, if_pos ((isUnary_iff _).2 op.2), hoperand]
  exact gives_ok _ _

theorem parses_bare {e : Phrase .primary} (h : Parses .primary e rest) :
    Parses (.of .unary) (.bare e) rest := by
  change Gives (Expr.parsePrimary (e.tokens ++ rest)) e.tree rest at h
  change Gives (Expr.parseLevel [] (e.tokens ++ rest)) _ _
  obtain ⟨t, ts, hts, ht⟩ := e.head_primary
  rw [hts, List.cons_append] at h ⊢
  rw [Expr.parseLevel, Expr.parseUnary, if_neg (mt (isUnary_iff _).1 ht)]
  exact h

theorem parses_number (n : Numeral) (rest : List Token) : Parses .primary (.number n) rest := by
  change Gives (Expr.parsePrimary (n.token :: rest)) _ _
  rw [Expr.parsePrimary]
  simp only [n.kind_eq, n.value_eq]
  exact gives_ok _ _

theorem parses_string (t : Terminal .string) (rest : List Token) :
    Parses .primary (.string t) rest := by
  change Gives (Expr.parsePrimary (t.1 :: rest)) _ _
  rw [Expr.parsePrimary]
  simp only [t.2]
  exact gives_ok _ _

theorem parses_ident (hr : Ends .primary rest) (t : Terminal .identifier) :
    Parses .primary (.ident t) rest := by
  obtain ⟨e, hlparen⟩ := expect_of_ends (k := .lparen) hr (by decide)
  change Gives (Expr.parsePrimary (t.1 :: rest)) _ _
  rw [Expr.parsePrimary]
  simp only [t.2, hlparen]
  exact gives_ok _ _

theorem parses_call {fn : Terminal .identifier} {opening : Terminal .lparen}
    {args : Phrase .arguments} {closing : Terminal .rparen}
    (htakes : Takes (Text.lower fn.1.lexeme) (args.tree : List Expr).length)
    (h : Parses .arguments args (closing.1 :: rest)) :
    Parses .primary (.call fn opening args closing) rest := by
  obtain ⟨arity, harity, hadmits⟩ := (takes_iff _ _).1 htakes
  obtain ⟨hlt, hargs⟩ := h closing rest rfl
  change Gives (Expr.parsePrimary _) _ _
  rw [Phrase.tokens_call_append, Expr.parsePrimary]
  simp only [fn.2, expect_terminal, harity, hargs, hadmits]
  exact gives_ok _ _

theorem parses_group {opening : Terminal .lparen} {e : Phrase .ternary}
    {closing : Terminal .rparen} (h : Parses .ternary e (closing.1 :: rest)) :
    Parses .primary (.group opening e closing) rest := by
  obtain ⟨hlt, he⟩ := h
  change Gives (Expr.parsePrimary _) _ _
  rw [Phrase.tokens_group_append, Expr.parsePrimary]
  simp only [opening.2, expect_terminal, he]
  exact gives_ok _ _

theorem parses_noArguments (rest : List Token) : Parses .arguments .noArguments rest := by
  rintro closing r rfl
  change Gives (Expr.parseArguments (closing.1 :: r)) _ _
  rw [Expr.parseArguments]
  simp only [expect_terminal]
  exact gives_ok _ _

theorem parses_someArguments {first : Phrase .ternary} {further : Phrase .further}
    (hfirst : Parses .ternary first (further.tokens ++ rest))
    (hfurther : Parses .further further rest) :
    Parses .arguments (.someArguments first further) rest := by
  rintro closing r rfl
  have hsome := hfurther closing r rfl _ _ hfirst
  obtain ⟨t, ts, hts, ht⟩ := first.exists_head rfl
  have hne : t.kind ≠ .rparen := by
    intro hkind
    rw [hkind] at ht
    cases ht
  rw [Phrase.tokens_someArguments_append]
  rw [hts, List.cons_append] at hsome ⊢
  obtain ⟨e, he⟩ := expect_of_ne hne (ts ++ (further.tokens ++ closing.1 :: r))
  rw [Expr.parseArguments, he]
  exact hsome

theorem parses_noFurther (hr : Ends .further rest) : Parses .further .noFurther rest := by
  rintro closing r rfl ts e ⟨hlt, hts⟩
  change Expr.parseTernary ts = .ok (e, ⟨closing.1 :: r, hlt⟩) at hts
  obtain ⟨e', hcomma⟩ := expect_of_ends (k := .comma) hr (by decide)
  rw [Expr.parseSome, hts]
  simp only [hcomma, expect_terminal]
  exact gives_ok _ _

theorem parses_another (comma : Terminal .comma) {e : Phrase .ternary} {further : Phrase .further}
    (he : Parses .ternary e (further.tokens ++ rest)) (hfurther : Parses .further further rest) :
    Parses .further (.another comma e further) rest := by
  rintro closing r rfl ts e' ⟨hlt, hts⟩
  obtain ⟨h₂, hsome⟩ := hfurther closing r rfl _ _ he
  simp only [Phrase.tokens_another_append] at hts
  rw [Expr.parseSome, hts]
  simp only [expect_terminal, hsome]
  exact gives_ok _ _

end

/-- A phrase that ends before `rest` is read, and `rest` is left. -/
theorem Phrase.parses (p : Phrase c) (ha : p.Admitted) (hr : Ends c rest) : Parses c p rest := by
  induction p generalizing rest with
  | plain cond ih => exact parses_plain hr (ih ha (hr.mono (by decide)))
  | choice cond question yes colon no ihc ihy ihn =>
    exact parses_choice (ihc ha.1 (ends_terminal question (by decide) _))
      (ihy ha.2.1 (ends_terminal colon (by decide) _)) (ihn ha.2.2 hr)
  | joined hY first chain ihf ihc =>
    exact parses_joined hY (ihf ha.1 (ends_chain hY chain hr)) (ihc ha.2 hr)
  | done => exact parses_done hr
  | more hY op right chain ihr ihc =>
    exact parses_more hY op (ihr ha.1 (ends_chain hY chain hr)) (ihc ha.2 hr)
  | unary op operand ih => exact parses_unary op (ih ha hr)
  | bare e ih => exact parses_bare (ih ha hr)
  | number n => exact parses_number n rest
  | string t => exact parses_string t rest
  | ident t => exact parses_ident hr t
  | call fn opening args closing ih =>
    exact parses_call ha.1 (ih ha.2 (ends_terminal closing (by decide) rest))
  | group opening e closing ih =>
    exact parses_group (ih ha (ends_terminal closing (by decide) rest))
  | noArguments => exact parses_noArguments rest
  | someArguments first further ihf ihr =>
    exact parses_someArguments (ihf ha.1 (ends_further further hr)) (ihr ha.2 hr)
  | noFurther => exact parses_noFurther hr
  | another comma e further ihe ihf =>
    exact parses_another comma (ihe ha.1 (ends_further further hr)) (ihf ha.2 hr)

def Reads (c : Category) (ts : List Token) (e : c.Tree) (rest : List Token) : Prop :=
  ∃ p : Phrase c, p.Admitted ∧ p.tree = e ∧ ts = p.tokens ++ rest

-- The recursion is that of the parser, part by part.
mutual

theorem parseTernary_reads {ts rest : List Token} {e : Expr} {hlt}
    (h : Expr.parseTernary ts = .ok (e, ⟨rest, hlt⟩)) : Reads .ternary ts e rest := by
  rw [Expr.parseTernary] at h
  split at h
  · cases h
  · rename_i cond r hr hcond
    obtain ⟨pc, hac, rfl, hts⟩ := parseLevel_reads (X := .logicalOr) hcond
    split at h
    · cases h
      exact ⟨.plain pc, hac, rfl, hts⟩
    · rename_i r₁ h₁ hquestion
      obtain ⟨question, hr₁⟩ := terminal_of_expect hquestion
      split at h
      · cases h
      · rename_i yes r₂ h₂ hyes
        obtain ⟨py, hay, rfl, hr₂⟩ := parseTernary_reads hyes
        split at h
        · cases h
        · rename_i r₃ h₃ hcolon
          obtain ⟨colon, hr₃⟩ := terminal_of_expect hcolon
          split at h
          · cases h
          · rename_i no r₄ h₄ hno
            obtain ⟨pn, han, rfl, hr₄⟩ := parseTernary_reads hno
            cases h
            refine ⟨.choice pc question py colon pn, ⟨hac, hay, han⟩, rfl, ?_⟩
            rw [hts, hr₁, hr₂, hr₃, hr₄, Phrase.tokens_choice_append]
termination_by (ts.length, Nonterminal.logicalOr.levels.length + 3)

theorem parseLevel_reads {X : Nonterminal} {ts rest : List Token} {e : Expr} {hlt}
    (h : Expr.parseLevel X.levels ts = .ok (e, ⟨rest, hlt⟩)) : Reads (.of X) ts e rest := by
  cases hY : X.operand? with
  | none =>
    obtain rfl := Nonterminal.eq_unary hY
    change Expr.parseLevel [] ts = _ at h
    rw [Expr.parseLevel] at h
    exact parseUnary_reads h
  | some Y =>
    have hlevels : X.levels.length = Y.levels.length + 1 := by
      rw [Nonterminal.levels_of_operand hY, List.length_cons]
    rw [Nonterminal.levels_of_operand hY, Expr.parseLevel] at h
    split at h
    · cases h
    · rename_i left r hr hleft
      obtain ⟨pf, haf, rfl, hts⟩ := parseLevel_reads hleft
      split at h
      · cases h
      · rename_i e r₁ h₁ hchain
        obtain ⟨pc, hac, htree, hr₁⟩ := parseChain_reads hY hchain
        cases h
        refine ⟨.joined hY pf pc, ⟨haf, hac⟩, htree, ?_⟩
        rw [hts, hr₁, Phrase.tokens_joined_append]
termination_by (ts.length, X.levels.length + 2)

theorem parseChain_reads {X Y : Nonterminal} (hY : X.operand? = some Y) :
    {left e : Expr} → {ts rest : List Token} → {hlt : rest.length ≤ ts.length} →
    Expr.parseChain X.level Y.levels left ts = .ok (e, ⟨rest, hlt⟩) →
    ∃ p : Phrase (.chain X), p.Admitted ∧ p.tree left = e ∧ ts = p.tokens ++ rest
  | left, _, [], _, _, h => by
    rw [Expr.parseChain] at h
    cases h
    exact ⟨.done, trivial, rfl, rfl⟩
  | left, _, t :: r, _, _, h => by
    rw [Expr.parseChain] at h
    split at h
    · rename_i hop
      split at h
      · cases h
      · rename_i right r₁ h₁ hright
        obtain ⟨pr, har, rfl, hr⟩ := parseLevel_reads hright
        split at h
        · cases h
        · rename_i e r₂ h₂ hchain
          have hlt : r₁.length < (t :: r).length := Nat.lt_succ_of_lt h₁
          obtain ⟨pc, hac, htree, hr₁⟩ := parseChain_reads hY hchain
          cases h
          refine ⟨.more hY ⟨t, hop⟩ pr pc, ⟨har, hac⟩, ?_, ?_⟩
          · rw [Nonterminal.join_level] at htree
            exact htree
          · rw [hr, hr₁, Phrase.tokens_more_append]
    · cases h
      exact ⟨.done, trivial, rfl, rfl⟩
termination_by _ _ ts => (ts.length, 0)

theorem parseUnary_reads : {e : Expr} → {ts rest : List Token} →
    {hlt : rest.length < ts.length} → Expr.parseUnary ts = .ok (e, ⟨rest, hlt⟩) →
    Reads (.of .unary) ts e rest
  | _, [], _, _, h => by
    rw [Expr.parseUnary] at h
    obtain ⟨pe, hae, htree, hts⟩ := parsePrimary_reads h
    exact ⟨.bare pe, hae, htree, hts⟩
  | _, t :: r, _, _, h => by
    rw [Expr.parseUnary] at h
    split at h
    · rename_i hop
      split at h
      · cases h
      · rename_i e r₁ h₁ he
        obtain ⟨pe, hae, rfl, hr⟩ := parseUnary_reads he
        cases h
        exact ⟨.unary ⟨t, (isUnary_iff _).1 hop⟩ pe, hae, rfl, congrArg (t :: ·) hr⟩
    · obtain ⟨pe, hae, htree, hts⟩ := parsePrimary_reads h
      exact ⟨.bare pe, hae, htree, hts⟩
termination_by _ ts => (ts.length, 1)

theorem parsePrimary_reads : {e : Expr} → {ts rest : List Token} →
    {hlt : rest.length < ts.length} → Expr.parsePrimary ts = .ok (e, ⟨rest, hlt⟩) →
    Reads .primary ts e rest
  | _, [], _, _, h => by
    rw [Expr.parsePrimary] at h
    cases h
  | _, t :: r, _, _, h => by
    rw [Expr.parsePrimary] at h
    split at h
    · rename_i hkind
      split at h
      · cases h
      · rename_i n hn
        cases h
        exact ⟨.number ⟨t, n, hkind, hn⟩, trivial, rfl, rfl⟩
    · rename_i hkind
      cases h
      exact ⟨.string ⟨t, hkind⟩, trivial, rfl, rfl⟩
    · rename_i hkind
      split at h
      · cases h
        exact ⟨.ident ⟨t, hkind⟩, trivial, rfl, rfl⟩
      · rename_i r₁ h₁ hparen
        obtain ⟨opening, hr⟩ := terminal_of_expect hparen
        have hlt : r₁.length < (t :: r).length := Nat.lt_succ_of_lt h₁
        dsimp only at h
        split at h
        · cases h
        · rename_i arity harity
          split at h
          · cases h
          · rename_i args r₂ h₂ hargs
            obtain ⟨pa, closing, haa, rfl, hr₁⟩ := parseArguments_reads hargs
            split at h
            · rename_i hadmits
              cases h
              refine ⟨.call ⟨t, hkind⟩ opening pa closing,
                ⟨(takes_iff _ _).2 ⟨arity, harity, hadmits⟩, haa⟩, rfl, ?_⟩
              rw [hr, hr₁, Phrase.tokens_call_append]
            · cases h
    · rename_i hkind
      split at h
      · cases h
      · rename_i e r₁ h₁ he
        obtain ⟨pe, hae, rfl, hr⟩ := parseTernary_reads he
        split at h
        · cases h
        · rename_i r₂ h₂ hparen
          obtain ⟨closing, hr₁⟩ := terminal_of_expect hparen
          cases h
          refine ⟨.group ⟨t, hkind⟩ pe closing, hae, rfl, ?_⟩
          rw [hr, hr₁, Phrase.tokens_group_append]
    · cases h
    · cases h
termination_by _ ts => (ts.length, 0)

theorem parseArguments_reads {ts rest : List Token} {es : List Expr} {hlt}
    (h : Expr.parseArguments ts = .ok (es, ⟨rest, hlt⟩)) :
    ∃ (p : Phrase .arguments) (closing : Terminal .rparen),
      p.Admitted ∧ p.tree = es ∧ ts = p.tokens ++ closing.1 :: rest := by
  rw [Expr.parseArguments] at h
  split at h
  · rename_i r hparen
    obtain ⟨closing, hts⟩ := terminal_of_expect hparen
    cases h
    exact ⟨.noArguments, closing, trivial, rfl, hts⟩
  · obtain ⟨first, further, closing, haf, har, htree, hts⟩ := parseSome_reads h
    refine ⟨.someArguments first further, closing, ⟨haf, har⟩, htree, ?_⟩
    rw [hts, Phrase.tokens_someArguments_append]
termination_by (ts.length, Nonterminal.logicalOr.levels.length + 5)

theorem parseSome_reads {ts rest : List Token} {es : List Expr} {hlt}
    (h : Expr.parseSome ts = .ok (es, ⟨rest, hlt⟩)) :
    ∃ (first : Phrase .ternary) (further : Phrase .further) (closing : Terminal .rparen),
      first.Admitted ∧ further.Admitted ∧ first.tree :: further.tree = es ∧
        ts = first.tokens ++ (further.tokens ++ closing.1 :: rest) := by
  rw [Expr.parseSome] at h
  split at h
  · cases h
  · rename_i e r hr he
    obtain ⟨pe, hae, rfl, hts⟩ := parseTernary_reads he
    split at h
    · rename_i r₁ h₁ hcomma
      obtain ⟨comma, hr₁⟩ := terminal_of_expect hcomma
      split at h
      · cases h
      · rename_i es r₂ h₂ hsome
        obtain ⟨first, further, closing, haf, har, rfl, hr₂⟩ := parseSome_reads hsome
        cases h
        refine ⟨pe, .another comma first further, closing, hae, ⟨haf, har⟩, rfl, ?_⟩
        rw [hts, hr₁, hr₂, Phrase.tokens_another_append]
    · split at h
      · cases h
      · rename_i r₁ h₁ hparen
        obtain ⟨closing, hr₁⟩ := terminal_of_expect hparen
        cases h
        exact ⟨pe, .noFurther, closing, hae, trivial, rfl, hts.trans (congrArg (_ ++ ·) hr₁)⟩
termination_by (ts.length, Nonterminal.logicalOr.levels.length + 4)

end

end Z80Asm.Grammar

namespace Z80Asm.Token

/-- The operators and delimiters as they are written. -/
def operators : List (List Char × Kind) :=
  [(['('], .lparen), ([')'], .rparen), ([','], .comma), (['?'], .question), ([':'], .colon),
    (['+'], .plus), (['-'], .minus), (['*'], .star), (['/'], .slash), (['%'], .percent),
    (['^'], .caret), (['~'], .tilde), (['&', '&'], .ampAmp), (['&'], .amp),
    (['|', '|'], .pipePipe), (['|'], .pipe), (['!', '='], .bangEq), (['!'], .bang),
    (['=', '='], .eqEq), (['='], .eqEq), (['<', '='], .lessEq), (['<', '<'], .shl),
    (['<', '>'], .bangEq), (['<'], .less), (['>', '='], .greaterEq), (['>', '>'], .shr),
    (['>'], .greater)]

theorem mem_operators (h : readOperator? c cs = some l) :
    (c :: cs.take l.extra, l.kind) ∈ operators := by
  unfold readOperator? at h
  split at h <;>
    · cases h
      try simp [operators]

/-- What the lexer reads at `c :: cs`, with a constructor for each kind of lexeme. -/
inductive Lexes (start : Nat) : Char → List Char → Lexeme → Prop where
  | name : isIdentStart c = true →
      Lexes start c cs ⟨.identifier, String.ofList (c :: cs.takeWhile isIdentPart),
        (cs.takeWhile isIdentPart).length⟩
  | number : Text.isDigit c = true →
      tail = cs.takeWhile (fun d => Text.isLetter d || Text.isDigit d) →
      Number.parse (String.ofList (c :: tail)) = .ok n →
      Lexes start c cs ⟨.number, String.ofList (c :: tail), tail.length⟩
  | here : cs.takeWhile isHexDigit = [] → Lexes start '$' cs ⟨.identifier, "$", 0⟩
  | dollarNumber : cs.takeWhile isHexDigit ≠ [] →
      Lexes start '$' cs ⟨.number, "0x" ++ String.ofList (cs.takeWhile isHexDigit),
        (cs.takeWhile isHexDigit).length⟩
  | string : c = '"' ∨ c = '\'' → readBody c start (start + 1) cs = .ok (body, n) →
      Lexes start c cs ⟨.string, String.ofList body, n⟩
  | operator : readOperator? c cs = some l → Lexes start c cs l

theorem lexes_of_readLexeme {start : Nat} (h : readLexeme start c cs = .ok l) :
    Lexes start c cs l := by
  unfold readLexeme at h
  split at h
  · rename_i hc
    cases h
    exact .name hc
  · split at h
    · rename_i hc
      dsimp only at h
      split at h
      · cases h
      · rename_i hn
        cases h
        exact .number hc rfl hn
    · split at h
      · rename_i hc
        subst hc
        split at h
        · rename_i htail
          cases h
          exact .here htail
        · rename_i hne
          cases h
          exact .dollarNumber hne
      · split at h
        · rename_i hc
          rw [Bool.or_eq_true, decide_eq_true_eq, decide_eq_true_eq] at hc
          cases hb : readBody c start (start + 1) cs with
          | error e =>
            rw [hb] at h
            cases h
          | ok body =>
            rw [hb] at h
            cases h
            exact .string hc hb
        · split at h
          · rename_i hop
            cases h
            exact .operator hop
          · cases h

theorem readLexeme_not_eof {start : Nat} (h : readLexeme start c cs = .ok l) : l.kind ≠ .eof := by
  cases lexes_of_readLexeme h with
  | operator hop =>
    have hnone : ∀ p ∈ operators, p.2 ≠ .eof := by decide
    exact hnone _ (mem_operators hop)
  | _ => nofun

/-- The tokens of a text without a fault have their end last, and only there. -/
theorem lexFrom_ends {start : Nat} (h : (lexFrom start cs).error? = none) :
    ∃ (body : List Token) (stop : Token), (lexFrom start cs).tokens = body ++ [stop] ∧
      stop.kind = .eof ∧ ∀ t ∈ body, t.kind ≠ .eof := by
  fun_induction lexFrom start cs with
  | case1 pos => exact ⟨[], _, rfl, rfl, nofun⟩
  | case2 pos c cs hspace ih => exact ih h
  | case3 pos c cs hspace e he => cases h
  | case4 pos c cs hspace l hl ih =>
    obtain ⟨body, stop, htokens, hstop, hbody⟩ := ih h
    refine ⟨_ :: body, stop, congrArg (_ :: ·) htokens, hstop, ?_⟩
    exact List.forall_mem_cons.2 ⟨readLexeme_not_eof hl, hbody⟩

end Z80Asm.Token

namespace Z80Asm.Grammar

theorem Derivation.parseTokens_eq (d : Derivation ts) (src : String) :
    Expr.parseTokens src ts = .ok d.tree := by
  obtain ⟨body, stop, admitted, rfl⟩ := d
  obtain ⟨hlt, hbody⟩ := body.parses admitted (ends_terminal stop (by decide) [])
  rw [Expr.parseTokens, hbody]
  exact if_pos stop.2

theorem split_unique {pre pre' post post' : List Token} {t t' : Token} (ht : t.kind = .eof)
    (ht' : t'.kind = .eof) (hpre : ∀ u ∈ pre, u.kind ≠ .eof) (hpre' : ∀ u ∈ pre', u.kind ≠ .eof)
    (h : pre ++ t :: post = pre' ++ t' :: post') : t :: post = t' :: post' := by
  induction pre generalizing pre' with
  | nil =>
    cases pre' with
    | nil => exact h
    | cons u pre' =>
      obtain ⟨rfl, -⟩ := List.cons.inj h
      exact (hpre' t List.mem_cons_self ht).elim
  | cons u pre ih =>
    cases pre' with
    | nil =>
      obtain ⟨rfl, -⟩ := List.cons.inj h
      exact (hpre u List.mem_cons_self ht').elim
    | cons u' pre' =>
      exact ih (fun v hv => hpre v (List.mem_cons_of_mem u hv))
        (fun v hv => hpre' v (List.mem_cons_of_mem u' hv)) (List.cons.inj h).2

theorem derivation_of_parseTokens {ts body : List Token} {stop : Token} {src : String}
    (hts : ts = body ++ [stop]) (hstop : stop.kind = .eof) (hbody : ∀ t ∈ body, t.kind ≠ .eof)
    (h : Expr.parseTokens src ts = .ok n) : ∃ d : Derivation ts, d.tree = n := by
  unfold Expr.parseTokens at h
  split at h
  · cases h
  · rename_i e rest hlt hparse
    obtain ⟨p, hp, htree, htokens⟩ := parseTernary_reads hparse
    rw [hts] at htokens
    split at h
    · -- the phrase would contain the end
      have hmem : stop ∈ p.tokens := by
        rw [List.append_nil] at htokens
        exact htokens ▸ List.mem_append_right body (List.mem_singleton_self stop)
      exact (p.not_eof stop hmem hstop).elim
    · rename_i t r hlt
      split at h
      · rename_i ht
        cases h
        have hrest : [stop] = t :: r := split_unique hstop ht hbody p.not_eof htokens
        rw [← hrest, ← hts] at htokens
        exact ⟨⟨p, ⟨stop, hstop⟩, hp, htokens.symm⟩, htree⟩
      · cases h

/-- A text is read as an expression exactly if the grammar derives its tokens, all of them and in
one way only. Every identifier with a parenthesis behind it is the name of a call, and parentheses
around an expression do not change its tree. -/
theorem parse_iff_derivation (src : String) (h : (Token.lex src).error? = none) :
    let ts := (Token.lex src).tokens
    (∀ n, Expr.parse src = .ok n ↔ ∃ d : Derivation ts, d.tree = n) ∧
      (∀ d d' : Derivation ts, d = d') ∧
      (∀ d : Derivation ts, d.body.callees = callHeads ts) ∧
      ∀ (d : Derivation ts) (opening : Terminal .lparen) (closing : Terminal .rparen),
        Expr.parseTokens src (opening.1 :: (d.body.tokens ++ [closing.1, d.stop.1])) =
          .ok d.tree := by
  intro ts
  have hparse : Expr.parse src = Expr.parseTokens src ts := by
    simp only [Expr.parse, h, ts]
  obtain ⟨body, stop, hts, hstop, hbody⟩ := Token.lexFrom_ends h
  refine ⟨fun n => ?_, Derivation.eq, Derivation.callees_eq, fun d opening closing => ?_⟩
  · rw [hparse]
    constructor
    · exact derivation_of_parseTokens hts hstop hbody
    · rintro ⟨d, rfl⟩
      exact d.parseTokens_eq src
  · obtain ⟨d', htree⟩ := d.exists_parenthesised opening closing
    rw [← htree]
    exact d'.parseTokens_eq src

def mixedText : String := "p ? 1+2*(3-q)-4 : MAX(r,-5)&&s||t"

theorem parse_mixedText :
    (Token.lex mixedText).error? = none ∧
      Expr.parse mixedText = .ok (.ternary (.ident "p")
        (.binary .minus
          (.binary .plus (.num 1)
            (.binary .star (.num 2) (.binary .minus (.num 3) (.ident "q"))))
          (.num 4))
        (.logical .pipePipe
          (.logical .ampAmp (.call "max" [.ident "r", .unary .minus (.num 5)]) (.ident "s"))
          (.ident "t"))) := by cbv

theorem parse_iff_derivation_mixedText :
    (Token.lex mixedText).error? = none ∧
      ∃ d : Derivation (Token.lex mixedText).tokens,
        d.tree = .ternary (.ident "p")
          (.binary .minus
            (.binary .plus (.num 1)
              (.binary .star (.num 2) (.binary .minus (.num 3) (.ident "q"))))
            (.num 4))
          (.logical .pipePipe
            (.logical .ampAmp (.call "max" [.ident "r", .unary .minus (.num 5)]) (.ident "s"))
            (.ident "t")) := by
  obtain ⟨hlex, hparse⟩ := parse_mixedText
  exact ⟨hlex, ((parse_iff_derivation mixedText hlex).1 _).1 hparse⟩

end Z80Asm.Grammar
