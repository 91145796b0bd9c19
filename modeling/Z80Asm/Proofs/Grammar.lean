import Mathlib
import Z80Asm.Expr.Basic
import Z80Asm.Number

/-! The grammar of expressions. Its phrases are trees whose leaves are tokens. Every token binds to
what stands before it with a certain strength, and a phrase goes on as long as the next token binds
strongly enough. A list of tokens is therefore a phrase in at most one way. -/

namespace Z80Asm.Grammar
set_option autoImplicit true

/-- The nonterminals between conditional and primary expressions, the loosest first. -/
inductive Nonterminal where
  | logicalOr | logicalAnd | bitwiseOr | bitwiseXor | bitwiseAnd | equality | relational | shift
  | additive | multiplicative | unary
deriving DecidableEq, Repr

namespace Nonterminal

/-- The `Y` of a rule `X = Y (op Y)*`. -/
def operand? : Nonterminal → Option Nonterminal
  | logicalOr => some logicalAnd
  | logicalAnd => some bitwiseOr
  | bitwiseOr => some bitwiseXor
  | bitwiseXor => some bitwiseAnd
  | bitwiseAnd => some equality
  | equality => some relational
  | relational => some shift
  | shift => some additive
  | additive => some multiplicative
  | multiplicative => some unary
  | unary => none

/-- The operators of a nonterminal. Those of `unary` stand before their operand, all others between
two of them. -/
def operators : Nonterminal → List Token.Kind
  | logicalOr => [.pipePipe]
  | logicalAnd => [.ampAmp]
  | bitwiseOr => [.pipe]
  | bitwiseXor => [.caret]
  | bitwiseAnd => [.amp]
  | equality => [.eqEq, .bangEq]
  | relational => [.less, .greater, .lessEq, .greaterEq]
  | shift => [.shl, .shr]
  | additive => [.plus, .minus]
  | multiplicative => [.star, .slash, .percent]
  | unary => [.minus, .plus, .tilde, .bang]

def join (X : Nonterminal) (op : Token.Kind) (left right : Expr) : Expr :=
  match X with
  | logicalOr | logicalAnd => .logical op left right
  | _ => .binary op left right

end Nonterminal

abbrev Terminal (k : Token.Kind) : Type := { t : Token // t.kind = k }

abbrev Operator (X : Nonterminal) : Type := { t : Token // t.kind ∈ X.operators }

/-- Terminals, or operators, are the same if their tokens begin the same list. -/
theorem eq_of_cons {P : Token → Prop} {t t' : { t : Token // P t }}
    (h : t.1 :: ts = t'.1 :: ts') : t = t' ∧ ts = ts' :=
  ⟨Subtype.ext (List.cons.inj h).1, (List.cons.inj h).2⟩

/-- A numeric literal. One that stands for no value of 64 bits has no tree, and is no phrase. -/
structure Numeral where
  token : Token
  value : Int64
  kind_eq : token.kind = .number
  value_eq : Number.parse token.lexeme = .ok value

attribute [simp] Numeral.kind_eq

theorem Numeral.eq_of_token {n n' : Numeral} (h : n.token = n'.token) : n = n' := by
  obtain ⟨token, value, kind_eq, value_eq⟩ := n
  obtain ⟨token', value', kind_eq', value_eq'⟩ := n'
  cases h
  cases value_eq.symm.trans value_eq'
  rfl

inductive Category where
  | ternary
  | of (X : Nonterminal)
  /-- The `(op Y)*` of a rule `X = Y (op Y)*`. -/
  | chain (X : Nonterminal)
  | primary
  /-- What stands between the parentheses of a call. -/
  | arguments
  /-- The arguments behind the first one, with their commas. -/
  | further
deriving DecidableEq, Repr

/-- The phrases of each category, with a constructor for each alternative of its rule. -/
inductive Phrase : Category → Type where
  | plain (cond : Phrase (.of .logicalOr)) : Phrase .ternary
  | choice (cond : Phrase (.of .logicalOr)) (question : Terminal .question) (yes : Phrase .ternary)
    (colon : Terminal .colon) (no : Phrase .ternary) : Phrase .ternary
  | joined {X Y : Nonterminal} (hY : X.operand? = some Y) (first : Phrase (.of Y))
    (rest : Phrase (.chain X)) : Phrase (.of X)
  | done {X : Nonterminal} : Phrase (.chain X)
  | more {X Y : Nonterminal} (hY : X.operand? = some Y) (op : Operator X) (right : Phrase (.of Y))
    (rest : Phrase (.chain X)) : Phrase (.chain X)
  | unary (op : Operator .unary) (operand : Phrase (.of .unary)) : Phrase (.of .unary)
  | bare (e : Phrase .primary) : Phrase (.of .unary)
  | number (n : Numeral) : Phrase .primary
  | string (t : Terminal .string) : Phrase .primary
  | ident (t : Terminal .identifier) : Phrase .primary
  | call (fn : Terminal .identifier) (opening : Terminal .lparen) (args : Phrase .arguments)
    (closing : Terminal .rparen) : Phrase .primary
  | group (opening : Terminal .lparen) (e : Phrase .ternary) (closing : Terminal .rparen) :
    Phrase .primary
  | noArguments : Phrase .arguments
  | someArguments (first : Phrase .ternary) (rest : Phrase .further) : Phrase .arguments
  | noFurther : Phrase .further
  | another (comma : Terminal .comma) (e : Phrase .ternary) (rest : Phrase .further) :
    Phrase .further

/-- The functions, each with a number of arguments that it takes. -/
inductive Takes : String → Nat → Prop where
  | cat : Takes "cat" (n + 1)
  | rpt : Takes "rpt" 2
  | swp : Takes "swp" 1
  | min : Takes "min" (n + 1)
  | max : Takes "max" (n + 1)

def Category.mayBeEmpty : Category → Bool
  | .chain _ | .arguments | .further => true
  | .ternary | .of _ | .primary => false

/-- What a phrase stands for: a chain of operators extends the expression before it. -/
abbrev Category.Tree : Category → Type
  | .chain _ => Expr → Expr
  | .arguments | .further => List Expr
  | .ternary | .of _ | .primary => Expr

namespace Phrase

def tokens : Phrase c → List Token
  | plain cond => cond.tokens
  | choice cond question yes colon no =>
    cond.tokens ++ question.1 :: (yes.tokens ++ colon.1 :: no.tokens)
  | joined _ first rest => first.tokens ++ rest.tokens
  | done => []
  | more _ op right rest => op.1 :: (right.tokens ++ rest.tokens)
  | unary op operand => op.1 :: operand.tokens
  | bare e => e.tokens
  | number n => [n.token]
  | string t => [t.1]
  | ident t => [t.1]
  | call fn opening args closing => fn.1 :: opening.1 :: (args.tokens ++ [closing.1])
  | group opening e closing => opening.1 :: (e.tokens ++ [closing.1])
  | noArguments => []
  | someArguments first rest => first.tokens ++ rest.tokens
  | noFurther => []
  | another comma e rest => comma.1 :: (e.tokens ++ rest.tokens)

section
variable (rest : List Token)

theorem tokens_choice_append (cond : Phrase (.of .logicalOr)) (question : Terminal .question)
    (yes : Phrase .ternary) (colon : Terminal .colon) (no : Phrase .ternary) :
    (choice cond question yes colon no).tokens ++ rest =
      cond.tokens ++ question.1 :: (yes.tokens ++ colon.1 :: (no.tokens ++ rest)) := by
  change (cond.tokens ++ question.1 :: (yes.tokens ++ colon.1 :: no.tokens)) ++ rest = _
  simp only [List.append_assoc, List.cons_append]

theorem tokens_joined_append {X Y : Nonterminal} (hY : X.operand? = some Y)
    (first : Phrase (.of Y)) (chain : Phrase (.chain X)) :
    (joined hY first chain).tokens ++ rest = first.tokens ++ (chain.tokens ++ rest) :=
  List.append_assoc _ _ _

theorem tokens_more_append {X Y : Nonterminal} (hY : X.operand? = some Y) (op : Operator X)
    (right : Phrase (.of Y)) (chain : Phrase (.chain X)) :
    (more hY op right chain).tokens ++ rest = op.1 :: (right.tokens ++ (chain.tokens ++ rest)) :=
  congrArg (op.1 :: ·) (List.append_assoc _ _ _)

theorem tokens_call_append (fn : Terminal .identifier) (opening : Terminal .lparen)
    (args : Phrase .arguments) (closing : Terminal .rparen) :
    (call fn opening args closing).tokens ++ rest =
      fn.1 :: opening.1 :: (args.tokens ++ closing.1 :: rest) :=
  congrArg (fn.1 :: opening.1 :: ·) (List.append_assoc _ _ _)

theorem tokens_group_append (opening : Terminal .lparen) (e : Phrase .ternary)
    (closing : Terminal .rparen) :
    (group opening e closing).tokens ++ rest = opening.1 :: (e.tokens ++ closing.1 :: rest) :=
  congrArg (opening.1 :: ·) (List.append_assoc _ _ _)

theorem tokens_someArguments_append (first : Phrase .ternary) (further : Phrase .further) :
    (someArguments first further).tokens ++ rest = first.tokens ++ (further.tokens ++ rest) :=
  List.append_assoc _ _ _

theorem tokens_another_append (comma : Terminal .comma) (e : Phrase .ternary)
    (further : Phrase .further) :
    (another comma e further).tokens ++ rest =
      comma.1 :: (e.tokens ++ (further.tokens ++ rest)) :=
  congrArg (comma.1 :: ·) (List.append_assoc _ _ _)

end

/-- The tree of a phrase. Operators of one nonterminal associate to the left, and parentheses leave
no trace. -/
def tree : Phrase c → c.Tree
  | plain cond => cond.tree
  | choice cond _ yes _ no => Expr.ternary cond.tree yes.tree no.tree
  | joined _ first rest => rest.tree first.tree
  | done => fun left => left
  | @more X _ _ op right rest => fun left => rest.tree (X.join op.1.kind left right.tree)
  | unary op operand => Expr.unary op.1.kind operand.tree
  | bare e => e.tree
  | number n => Expr.num n.value
  | string t => Expr.str t.1.lexeme
  | ident t => Expr.ident t.1.lexeme
  | call fn _ args _ => Expr.call (Text.lower fn.1.lexeme) args.tree
  | group _ e _ => e.tree
  | noArguments => []
  | someArguments first rest => first.tree :: rest.tree
  | noFurther => []
  | another _ e rest => e.tree :: rest.tree

/-- Every call is one of a function, with as many arguments as it takes. -/
def Admitted : Phrase c → Prop
  | plain cond => cond.Admitted
  | choice cond _ yes _ no => cond.Admitted ∧ yes.Admitted ∧ no.Admitted
  | joined _ first rest => first.Admitted ∧ rest.Admitted
  | done => True
  | more _ _ right rest => right.Admitted ∧ rest.Admitted
  | unary _ operand => operand.Admitted
  | bare e => e.Admitted
  | number _ | string _ | ident _ => True
  | call fn _ args _ =>
    Takes (Text.lower fn.1.lexeme) (args.tree : List Expr).length ∧ args.Admitted
  | group _ e _ => e.Admitted
  | noArguments => True
  | someArguments first rest => first.Admitted ∧ rest.Admitted
  | noFurther => True
  | another _ e rest => e.Admitted ∧ rest.Admitted

end Phrase

/-- How strongly a token binds to the phrase before it. Those that only begin phrases bind more
strongly than any operator, so that no phrase ends before one. -/
def strength : Token.Kind → Nat
  | .eof | .rparen | .colon => 0
  | .comma => 1
  | .question => 2
  | .pipePipe => 3
  | .ampAmp => 4
  | .pipe => 5
  | .caret => 6
  | .amp => 7
  | .eqEq | .bangEq => 8
  | .less | .greater | .lessEq | .greaterEq => 9
  | .shl | .shr => 10
  | .plus | .minus => 11
  | .star | .slash | .percent => 12
  | .lparen | .identifier | .number | .string | .tilde | .bang => 13

def Nonterminal.strength : Nonterminal → Nat
  | logicalOr => 3
  | logicalAnd => 4
  | bitwiseOr => 5
  | bitwiseXor => 6
  | bitwiseAnd => 7
  | equality => 8
  | relational => 9
  | shift => 10
  | additive => 11
  | multiplicative => 12
  | unary => 13

def Category.strength : Category → Nat
  | .ternary => 2
  | .of X | .chain X => X.strength
  | .primary => 13
  | .arguments | .further => 1

section
variable {X Y : Nonterminal}

theorem Nonterminal.strength_operand (h : X.operand? = some Y) : Y.strength = X.strength + 1 := by
  cases X with
  | unary => cases h
  | _ =>
    cases h
    rfl

theorem Nonterminal.eq_unary (h : X.operand? = none) : X = .unary := by
  cases X with
  | unary => rfl
  | _ => cases h

theorem Nonterminal.strength_le (X : Nonterminal) : X.strength ≤ 13 := by
  cases X <;> decide

theorem strength_operator (h : X.operand? = some Y) (op : Operator X) :
    strength op.1.kind = X.strength := by
  obtain ⟨t, ht⟩ := op
  have hall : ∀ k ∈ X.operators, strength k = X.strength := by
    cases X with
    | unary => cases h
    | _ => decide
  exact hall t.kind ht

theorem not_lt_operator (h : X.operand? = some Y) (op : Operator X) :
    ¬ strength op.1.kind < (Category.chain X).strength := by
  rw [strength_operator h op]
  exact Nat.lt_irrefl _

theorem strength_pos_of_unary (op : Operator .unary) : 0 < strength op.1.kind := by
  have hall : ∀ k ∈ Nonterminal.unary.operators, 0 < strength k := by decide
  exact hall op.1.kind op.2

end

/-- The phrase before `rest` goes on with no token of it. -/
def Ends (c : Category) (rest : List Token) : Prop :=
  ∀ t ∈ rest.head?, strength t.kind < c.strength

theorem Ends.mono (h : Ends c rest) (hc : c.strength ≤ c'.strength) : Ends c' rest :=
  fun t ht => Nat.lt_of_lt_of_le (h t ht) hc

theorem ends_cons (h : strength t.kind < c.strength) (rest : List Token) : Ends c (t :: rest) := by
  intro u hu
  cases hu
  exact h

theorem Ends.lt (h : Ends c (t :: rest)) : strength t.kind < c.strength := h t rfl

theorem ends_terminal (t : Terminal k) (h : strength k < c.strength) (rest : List Token) :
    Ends c (t.1 :: rest) := ends_cons (t.2.symm ▸ h) rest

theorem Ends.terminal {t : Terminal k} (h : Ends c (t.1 :: rest)) : strength k < c.strength :=
  t.2 ▸ h.lt

namespace Phrase

theorem ends_chain (h : X.operand? = some Y) (p : Phrase (.chain X)) (hr : Ends (.chain X) r) :
    Ends (.of Y) (p.tokens ++ r) := by
  have hlt : X.strength < Y.strength := by
    rw [Nonterminal.strength_operand h]
    exact Nat.lt_succ_self _
  cases p with
  | done => exact hr.mono (Nat.le_of_lt hlt)
  | more hY op right rest =>
    apply ends_cons
    rw [strength_operator hY op]
    exact hlt

theorem ends_further (p : Phrase .further) (hr : Ends .further r) :
    Ends .ternary (p.tokens ++ r) := by
  cases p with
  | noFurther => exact hr.mono (by decide)
  | another comma e rest => exact ends_terminal comma (by decide) _

/-- An expression is not empty. No phrase ends before the token that it begins with. -/
theorem exists_head (p : Phrase c) (hc : c.mayBeEmpty = false) :
    ∃ t ts, p.tokens = t :: ts ∧ 0 < strength t.kind := by
  induction p with
  | plain cond ih => exact ih rfl
  | choice cond question yes colon no ih =>
    obtain ⟨t, ts, hts, ht⟩ := ih rfl
    exact ⟨t, _, by rw [tokens, hts, List.cons_append], ht⟩
  | joined hY first rest ih =>
    obtain ⟨t, ts, hts, ht⟩ := ih rfl
    exact ⟨t, _, by rw [tokens, hts, List.cons_append], ht⟩
  | unary op operand => exact ⟨op.1, _, rfl, strength_pos_of_unary op⟩
  | bare e ih => exact ih rfl
  | number n => exact ⟨n.token, [], rfl, by rw [n.kind_eq]; decide⟩
  | string t => exact ⟨t.1, [], rfl, by rw [t.2]; decide⟩
  | ident t => exact ⟨t.1, [], rfl, by rw [t.2]; decide⟩
  | call fn => exact ⟨fn.1, _, rfl, by rw [fn.2]; decide⟩
  | group opening => exact ⟨opening.1, _, rfl, by rw [opening.2]; decide⟩
  | done => cases hc
  | more => cases hc
  | noArguments => cases hc
  | someArguments => cases hc
  | noFurther => cases hc
  | another => cases hc

theorem not_ends (first : Phrase .ternary) (rest : Phrase .further) (r : List Token) :
    ¬ Ends .arguments ((someArguments first rest).tokens ++ r) := by
  intro h
  obtain ⟨t, ts, hts, ht⟩ := first.exists_head rfl
  rw [tokens, hts] at h
  exact absurd h.lt (Nat.not_lt.2 ht)

theorem head_primary (p : Phrase .primary) :
    ∃ t ts, p.tokens = t :: ts ∧ t.kind ∉ Nonterminal.unary.operators := by
  cases p with
  | number n => exact ⟨n.token, [], rfl, by rw [n.kind_eq]; decide⟩
  | string t => exact ⟨t.1, [], rfl, by rw [t.2]; decide⟩
  | ident t => exact ⟨t.1, [], rfl, by rw [t.2]; decide⟩
  | call fn => exact ⟨fn.1, _, rfl, by rw [fn.2]; decide⟩
  | group opening => exact ⟨opening.1, _, rfl, by rw [opening.2]; decide⟩

/-- What begins with the phrase, and ends where the rest begins, begins with no other one. -/
def Determined (p : Phrase c) : Prop :=
  ∀ {q : Phrase c} {r r' : List Token}, Ends c r → Ends c r' →
    p.tokens ++ r = q.tokens ++ r' → p = q ∧ r = r'

theorem Determined.plain {cond : Phrase (.of .logicalOr)} (h : cond.Determined) :
    (Phrase.plain cond).Determined := by
  intro q r r' hr hr' heq
  cases q with
  | plain cond' =>
    obtain ⟨rfl, rfl⟩ := h (hr.mono (by decide)) (hr'.mono (by decide)) heq
    exact ⟨rfl, rfl⟩
  | choice cond' question yes colon no =>
    rw [tokens_choice_append] at heq
    -- the question mark would go on with the plain phrase
    obtain ⟨-, rfl⟩ := h (hr.mono (by decide)) (ends_terminal question (by decide) _) heq
    exact absurd hr.terminal (by decide)

theorem Determined.choice {cond : Phrase (.of .logicalOr)} {yes no : Phrase .ternary}
    (hcond : cond.Determined) (hyes : yes.Determined) (hno : no.Determined)
    (question : Terminal .question) (colon : Terminal .colon) :
    (Phrase.choice cond question yes colon no).Determined := by
  intro q r r' hr hr' heq
  cases q with
  | plain cond' =>
    rw [tokens_choice_append] at heq
    obtain ⟨-, rfl⟩ := hcond (ends_terminal question (by decide) _) (hr'.mono (by decide)) heq
    exact absurd hr'.terminal (by decide)
  | choice cond' question' yes' colon' no' =>
    rw [tokens_choice_append, tokens_choice_append] at heq
    obtain ⟨rfl, hquestion⟩ := hcond (ends_terminal question (by decide) _)
      (ends_terminal question' (by decide) _) heq
    obtain ⟨rfl, hrest⟩ := eq_of_cons hquestion
    obtain ⟨rfl, hcolon⟩ := hyes (ends_terminal colon (by decide) _)
      (ends_terminal colon' (by decide) _) hrest
    obtain ⟨rfl, hlast⟩ := eq_of_cons hcolon
    obtain ⟨rfl, rfl⟩ := hno hr hr' hlast
    exact ⟨rfl, rfl⟩

theorem Determined.joined {first : Phrase (.of Y)} {rest : Phrase (.chain X)}
    (hfirst : first.Determined) (hrest : rest.Determined) (hY : X.operand? = some Y) :
    (Phrase.joined hY first rest).Determined := by
  intro q r r' hr hr' heq
  cases q with
  | joined hY' first' rest' =>
    cases hY.symm.trans hY'
    rw [tokens_joined_append, tokens_joined_append] at heq
    obtain ⟨rfl, hchain⟩ := hfirst (ends_chain hY rest hr) (ends_chain hY rest' hr') heq
    obtain ⟨rfl, rfl⟩ := hrest hr hr' hchain
    exact ⟨rfl, rfl⟩
  | unary => cases hY
  | bare => cases hY

theorem determined_done : (done : Phrase (.chain X)).Determined := by
  intro q r r' hr _ heq
  cases q with
  | done => exact ⟨rfl, heq⟩
  | more hY op right rest =>
    obtain rfl : r = _ := heq
    exact absurd hr.lt (not_lt_operator hY op)

theorem Determined.more {right : Phrase (.of Y)} {rest : Phrase (.chain X)}
    (hright : right.Determined) (hrest : rest.Determined) (hY : X.operand? = some Y)
    (op : Operator X) : (Phrase.more hY op right rest).Determined := by
  intro q r r' hr hr' heq
  cases q with
  | done =>
    obtain rfl : _ = r' := heq
    exact absurd hr'.lt (not_lt_operator hY op)
  | more hY' op' right' rest' =>
    cases hY.symm.trans hY'
    rw [tokens_more_append, tokens_more_append] at heq
    obtain ⟨rfl, hoperand⟩ := eq_of_cons heq
    obtain ⟨rfl, hchain⟩ := hright (ends_chain hY rest hr) (ends_chain hY rest' hr') hoperand
    obtain ⟨rfl, rfl⟩ := hrest hr hr' hchain
    exact ⟨rfl, rfl⟩

theorem unary_ne_bare (op : Operator .unary) (operand : Phrase (.of .unary)) (e : Phrase .primary)
    (r r' : List Token) : (unary op operand).tokens ++ r ≠ (bare e).tokens ++ r' := by
  intro heq
  obtain ⟨t, ts, hts, ht⟩ := e.head_primary
  change op.1 :: (operand.tokens ++ r) = e.tokens ++ r' at heq
  rw [hts] at heq
  exact ht ((List.cons.inj heq).1 ▸ op.2)

theorem Determined.unary {operand : Phrase (.of .unary)} (h : operand.Determined)
    (op : Operator .unary) : (Phrase.unary op operand).Determined := by
  intro q r r' hr hr' heq
  cases q with
  | joined hY => cases hY
  | unary op' operand' =>
    obtain ⟨rfl, hoperand⟩ := eq_of_cons heq
    obtain ⟨rfl, rfl⟩ := h hr hr' hoperand
    exact ⟨rfl, rfl⟩
  | bare e => exact (unary_ne_bare op operand e r r' heq).elim

theorem Determined.bare {e : Phrase .primary} (h : e.Determined) : (Phrase.bare e).Determined := by
  intro q r r' hr hr' heq
  cases q with
  | joined hY => cases hY
  | unary op operand => exact (unary_ne_bare op operand e r' r heq.symm).elim
  | bare e' =>
    obtain ⟨rfl, rfl⟩ := h hr hr' heq
    exact ⟨rfl, rfl⟩

def headKind : Phrase .primary → Token.Kind
  | number _ => .number
  | string _ => .string
  | ident _ | call .. => .identifier
  | group .. => .lparen

theorem headKind_eq {p q : Phrase .primary} (h : p.tokens ++ r = q.tokens ++ r') :
    p.headKind = q.headKind := by
  have hhead (p : Phrase .primary) : ∃ t ts, p.tokens = t :: ts ∧ t.kind = p.headKind := by
    cases p with
    | number n => exact ⟨n.token, [], rfl, n.kind_eq⟩
    | string t => exact ⟨t.1, [], rfl, t.2⟩
    | ident t => exact ⟨t.1, [], rfl, t.2⟩
    | call fn => exact ⟨fn.1, _, rfl, fn.2⟩
    | group opening => exact ⟨opening.1, _, rfl, opening.2⟩
  obtain ⟨t, ts, hts, ht⟩ := hhead p
  obtain ⟨u, us, hus, hu⟩ := hhead q
  rw [hts, hus] at h
  rw [← ht, ← hu, (List.cons.inj h).1]

theorem determined_number (n : Numeral) : (number n).Determined := by
  intro q r r' _ _ heq
  cases q with
  | number n' =>
    obtain ⟨hn, rfl⟩ := List.cons.inj heq
    obtain rfl := Numeral.eq_of_token hn
    exact ⟨rfl, rfl⟩
  | _ => cases headKind_eq heq

theorem determined_string (t : Terminal .string) : (string t).Determined := by
  intro q r r' _ _ heq
  cases q with
  | string t' =>
    obtain ⟨rfl, rfl⟩ := eq_of_cons heq
    exact ⟨rfl, rfl⟩
  | _ => cases headKind_eq heq

theorem determined_ident (t : Terminal .identifier) : (ident t).Determined := by
  intro q r r' hr _ heq
  cases q with
  | ident t' =>
    obtain ⟨rfl, rfl⟩ := eq_of_cons heq
    exact ⟨rfl, rfl⟩
  | call fn opening args closing =>
    -- nothing that ends an identifier begins with a parenthesis
    obtain ⟨-, rfl⟩ := List.cons.inj heq
    exact absurd hr.terminal (by decide)
  | _ => cases headKind_eq heq

theorem Determined.call {args : Phrase .arguments} (h : args.Determined)
    (fn : Terminal .identifier) (opening : Terminal .lparen) (closing : Terminal .rparen) :
    (Phrase.call fn opening args closing).Determined := by
  intro q r r' _ hr' heq
  cases q with
  | ident t' =>
    obtain ⟨-, rfl⟩ := List.cons.inj heq
    exact absurd hr'.terminal (by decide)
  | call fn' opening' args' closing' =>
    rw [tokens_call_append, tokens_call_append] at heq
    obtain ⟨rfl, htail⟩ := eq_of_cons heq
    obtain ⟨rfl, hargs⟩ := eq_of_cons htail
    obtain ⟨rfl, hend⟩ := h (ends_terminal closing (by decide) _)
      (ends_terminal closing' (by decide) _) hargs
    obtain ⟨rfl, rfl⟩ := eq_of_cons hend
    exact ⟨rfl, rfl⟩
  | _ => cases headKind_eq heq

theorem Determined.group {e : Phrase .ternary} (h : e.Determined) (opening : Terminal .lparen)
    (closing : Terminal .rparen) : (Phrase.group opening e closing).Determined := by
  intro q r r' _ _ heq
  cases q with
  | group opening' e' closing' =>
    rw [tokens_group_append, tokens_group_append] at heq
    obtain ⟨rfl, he⟩ := eq_of_cons heq
    obtain ⟨rfl, hend⟩ := h (ends_terminal closing (by decide) _)
      (ends_terminal closing' (by decide) _) he
    obtain ⟨rfl, rfl⟩ := eq_of_cons hend
    exact ⟨rfl, rfl⟩
  | _ => cases headKind_eq heq

theorem determined_noArguments : noArguments.Determined := by
  intro q r r' hr _ heq
  cases q with
  | noArguments => exact ⟨rfl, heq⟩
  | someArguments first rest =>
    obtain rfl : r = _ := heq
    exact (first.not_ends rest r' hr).elim

theorem Determined.someArguments {first : Phrase .ternary} {rest : Phrase .further}
    (hfirst : first.Determined) (hrest : rest.Determined) :
    (Phrase.someArguments first rest).Determined := by
  intro q r r' hr hr' heq
  cases q with
  | noArguments =>
    obtain rfl : _ = r' := heq
    exact (first.not_ends rest r hr').elim
  | someArguments first' rest' =>
    rw [tokens_someArguments_append, tokens_someArguments_append] at heq
    obtain ⟨rfl, hfurther⟩ := hfirst (ends_further rest hr) (ends_further rest' hr') heq
    obtain ⟨rfl, rfl⟩ := hrest hr hr' hfurther
    exact ⟨rfl, rfl⟩

theorem determined_noFurther : noFurther.Determined := by
  intro q r r' hr _ heq
  cases q with
  | noFurther => exact ⟨rfl, heq⟩
  | another comma e rest =>
    obtain rfl : r = _ := heq
    exact absurd hr.terminal (by decide)

theorem Determined.another {e : Phrase .ternary} {rest : Phrase .further} (he : e.Determined)
    (hrest : rest.Determined) (comma : Terminal .comma) :
    (Phrase.another comma e rest).Determined := by
  intro q r r' hr hr' heq
  cases q with
  | noFurther =>
    obtain rfl : _ = r' := heq
    exact absurd hr'.terminal (by decide)
  | another comma' e' rest' =>
    rw [tokens_another_append, tokens_another_append] at heq
    obtain ⟨rfl, hargument⟩ := eq_of_cons heq
    obtain ⟨rfl, hfurther⟩ := he (ends_further rest hr) (ends_further rest' hr') hargument
    obtain ⟨rfl, rfl⟩ := hrest hr hr' hfurther
    exact ⟨rfl, rfl⟩

/-- A list of tokens begins with a phrase in at most one way, if the phrase ends where the rest
begins. -/
theorem determined (p : Phrase c) : p.Determined := by
  induction p with
  | plain cond ih => exact ih.plain
  | choice cond question yes colon no ihc ihy ihn => exact ihc.choice ihy ihn question colon
  | joined hY first rest ihf ihr => exact ihf.joined ihr hY
  | done => exact determined_done
  | more hY op right rest ihr ihc => exact ihr.more ihc hY op
  | unary op operand ih => exact ih.unary op
  | bare e ih => exact ih.bare
  | number n => exact determined_number n
  | string t => exact determined_string t
  | ident t => exact determined_ident t
  | call fn opening args closing ih => exact ih.call fn opening closing
  | group opening e closing ih => exact ih.group opening closing
  | noArguments => exact determined_noArguments
  | someArguments first rest ihf ihr => exact ihf.someArguments ihr
  | noFurther => exact determined_noFurther
  | another comma e rest ihe ihr => exact ihe.another ihr comma

def callees : Phrase c → List Token
  | plain cond => cond.callees
  | choice cond _ yes _ no => cond.callees ++ (yes.callees ++ no.callees)
  | joined _ first rest => first.callees ++ rest.callees
  | done => []
  | more _ _ right rest => right.callees ++ rest.callees
  | unary _ operand => operand.callees
  | bare e => e.callees
  | number _ | string _ | ident _ => []
  | call fn _ args _ => fn.1 :: args.callees
  | group _ e _ => e.callees
  | noArguments => []
  | someArguments first rest => first.callees ++ rest.callees
  | noFurther => []
  | another _ e rest => e.callees ++ rest.callees

end Phrase

/-- The identifiers that an opening parenthesis follows. -/
def callHeads : List Token → List Token
  | [] => []
  | t :: ts =>
    if t.kind = .identifier ∧ ts.head?.any (·.kind == .lparen) then t :: callHeads ts
    else callHeads ts

theorem callHeads_of_ne (h : t.kind ≠ .identifier) (ts : List Token) :
    callHeads (t :: ts) = callHeads ts := if_neg fun hand => h hand.1

theorem callHeads_terminal (t : Terminal k) (h : k ≠ .identifier) (ts : List Token) :
    callHeads (t.1 :: ts) = callHeads ts := callHeads_of_ne (t.2.symm ▸ h) ts

theorem callHeads_operator (op : Operator X) (ts : List Token) :
    callHeads (op.1 :: ts) = callHeads ts := by
  have hall : ∀ X : Nonterminal, .identifier ∉ X.operators := by
    intro X
    cases X <;> decide
  exact callHeads_of_ne (fun hkind => hall X (hkind ▸ op.2)) ts

theorem callHeads_ident (hr : Ends .primary rest) (t : Token) :
    callHeads (t :: rest) = callHeads rest := by
  apply if_neg
  rintro ⟨-, hparen⟩
  cases rest with
  | nil => cases hparen
  | cons u rest =>
    have hlt := hr.lt
    rw [beq_iff_eq.1 hparen] at hlt
    exact absurd hlt (by decide)

theorem callHeads_call (fn : Terminal .identifier) (opening : Terminal .lparen) (ts : List Token) :
    callHeads (fn.1 :: opening.1 :: ts) = fn.1 :: callHeads ts := by
  have hparen : (opening.1 :: ts).head?.any (·.kind == .lparen) = true := beq_iff_eq.2 opening.2
  rw [callHeads, if_pos ⟨fn.2, hparen⟩, callHeads_terminal opening (by decide)]

/-- An identifier is the name of a call exactly if an opening parenthesis follows it. -/
theorem Phrase.callHeads_append (p : Phrase c) (hr : Ends c rest) :
    callHeads (p.tokens ++ rest) = p.callees ++ callHeads rest := by
  induction p generalizing rest with
  | plain cond ih => exact ih (hr.mono (by decide))
  | choice cond question yes colon no ihc ihy ihn =>
    rw [tokens_choice_append, ihc (ends_terminal question (by decide) _),
      callHeads_terminal question (by decide), ihy (ends_terminal colon (by decide) _),
      callHeads_terminal colon (by decide), ihn hr]
    simp only [callees, List.append_assoc]
  | joined hY first chain ihf ihc =>
    rw [tokens_joined_append, ihf (ends_chain hY chain hr), ihc hr]
    exact (List.append_assoc _ _ _).symm
  | done => rfl
  | more hY op right chain ihr ihc =>
    rw [tokens_more_append, callHeads_operator op, ihr (ends_chain hY chain hr), ihc hr]
    exact (List.append_assoc _ _ _).symm
  | unary op operand ih => exact (callHeads_operator op _).trans (ih hr)
  | bare e ih => exact ih hr
  | number n => exact callHeads_of_ne (by rw [n.kind_eq]; decide) rest
  | string t => exact callHeads_terminal t (by decide) rest
  | ident t => exact callHeads_ident hr t.1
  | call fn opening args closing ih =>
    rw [tokens_call_append, callHeads_call, ih (ends_terminal closing (by decide) rest),
      callHeads_terminal closing (by decide)]
    rfl
  | group opening e closing ih =>
    rw [tokens_group_append, callHeads_terminal opening (by decide),
      ih (ends_terminal closing (by decide) rest), callHeads_terminal closing (by decide)]
    rfl
  | noArguments => rfl
  | someArguments first further ihf ihr =>
    rw [tokens_someArguments_append, ihf (ends_further further hr), ihr hr]
    exact (List.append_assoc _ _ _).symm
  | noFurther => rfl
  | another comma e further ihe ihr =>
    rw [tokens_another_append, callHeads_terminal comma (by decide),
      ihe (ends_further further hr), ihr hr]
    exact (List.append_assoc _ _ _).symm

theorem Phrase.not_eof (p : Phrase c) : ∀ t ∈ p.tokens, t.kind ≠ .eof := by
  have hterminal {k : Token.Kind} (t : Terminal k) (h : k ≠ .eof) : t.1.kind ≠ .eof := t.2.symm ▸ h
  have hoperator {X : Nonterminal} (op : Operator X) : op.1.kind ≠ .eof := by
    have hnone : .eof ∉ X.operators := by cases X <;> decide
    exact fun hkind => hnone (hkind ▸ op.2)
  induction p with
  | plain cond ih => exact ih
  | choice cond question yes colon no ihc ihy ihn =>
    simp only [tokens, List.forall_mem_append, List.forall_mem_cons]
    exact ⟨ihc, hterminal question (by decide), ihy, hterminal colon (by decide), ihn⟩
  | joined hY first rest ihf ihr => exact List.forall_mem_append.2 ⟨ihf, ihr⟩
  | done => exact List.forall_mem_nil _
  | more hY op right rest ihr ihc =>
    simp only [tokens, List.forall_mem_append, List.forall_mem_cons]
    exact ⟨hoperator op, ihr, ihc⟩
  | unary op operand ih => exact List.forall_mem_cons.2 ⟨hoperator op, ih⟩
  | bare e ih => exact ih
  | number n => exact List.forall_mem_singleton.2 (by rw [n.kind_eq]; decide)
  | string t => exact List.forall_mem_singleton.2 (hterminal t (by decide))
  | ident t => exact List.forall_mem_singleton.2 (hterminal t (by decide))
  | call fn opening args closing ih =>
    simp only [tokens, List.forall_mem_append, List.forall_mem_cons]
    exact ⟨hterminal fn (by decide), hterminal opening (by decide), ih,
      hterminal closing (by decide), List.forall_mem_nil _⟩
  | group opening e closing ih =>
    simp only [tokens, List.forall_mem_append, List.forall_mem_cons]
    exact ⟨hterminal opening (by decide), ih, hterminal closing (by decide), List.forall_mem_nil _⟩
  | noArguments => exact List.forall_mem_nil _
  | someArguments first rest ihf ihr => exact List.forall_mem_append.2 ⟨ihf, ihr⟩
  | noFurther => exact List.forall_mem_nil _
  | another comma e rest ihe ihr =>
    simp only [tokens, List.forall_mem_append, List.forall_mem_cons]
    exact ⟨hterminal comma (by decide), ihe, ihr⟩

theorem Phrase.exists_of_tighter (p : Phrase (.of Z)) (X : Nonterminal)
    (h : X.strength ≤ Z.strength) :
    ∃ q : Phrase (.of X), q.tokens = p.tokens ∧ q.tree = p.tree ∧ (p.Admitted → q.Admitted) := by
  by_cases heq : X = Z
  · subst heq
    exact ⟨p, rfl, rfl, id⟩
  · have hlt : X.strength < Z.strength := by
      refine Nat.lt_of_le_of_ne h fun hs => heq ?_
      cases X <;> cases Z <;> first | rfl | cases hs
    cases hY : X.operand? with
    | none =>
      rw [Nonterminal.eq_unary hY] at hlt
      exact absurd Z.strength_le (Nat.not_le.2 hlt)
    | some Y =>
      have hstrength := Nonterminal.strength_operand hY
      have hle := Y.strength_le
      obtain ⟨q, htokens, htree, hadmitted⟩ := exists_of_tighter p Y (by omega)
      refine ⟨.joined hY q .done, ?_, htree, fun hp => ⟨hadmitted hp, trivial⟩⟩
      rw [tokens, htokens]
      exact List.append_nil p.tokens
termination_by 13 - X.strength

theorem Phrase.exists_of_primary (p : Phrase .primary) (X : Nonterminal) :
    ∃ q : Phrase (.of X), q.tokens = p.tokens ∧ q.tree = p.tree ∧ (p.Admitted → q.Admitted) :=
  exists_of_tighter (.bare p) X X.strength_le

/-- A derivation of a whole list of tokens, the last of which is their end. -/
structure Derivation (ts : List Token) where
  body : Phrase .ternary
  stop : Terminal .eof
  admitted : body.Admitted
  tokens_eq : body.tokens ++ [stop.1] = ts

namespace Derivation

def tree (d : Derivation ts) : Expr := d.body.tree

theorem eq (d d' : Derivation ts) : d = d' := by
  obtain ⟨body, stop, admitted, tokens_eq⟩ := d
  obtain ⟨body', stop', admitted', tokens_eq'⟩ := d'
  obtain ⟨rfl, hstop⟩ := body.determined (ends_terminal stop (by decide) [])
    (ends_terminal stop' (by decide) []) (tokens_eq.trans tokens_eq'.symm)
  obtain ⟨rfl, -⟩ := eq_of_cons hstop
  rfl

theorem callees_eq (d : Derivation ts) : d.body.callees = callHeads ts := by
  obtain ⟨body, stop, -, rfl⟩ := d
  rw [body.callHeads_append (ends_terminal stop (by decide) []),
    callHeads_terminal stop (by decide), callHeads, List.append_nil]

theorem exists_parenthesised (d : Derivation ts) (opening : Terminal .lparen)
    (closing : Terminal .rparen) :
    ∃ d' : Derivation (opening.1 :: (d.body.tokens ++ [closing.1, d.stop.1])),
      d'.tree = d.tree := by
  obtain ⟨q, htokens, htree, hadmitted⟩ :=
    (Phrase.group opening d.body closing).exists_of_primary .logicalOr
  have hwhole : (Phrase.plain q).tokens ++ [d.stop.1] =
      opening.1 :: (d.body.tokens ++ [closing.1, d.stop.1]) := by
    change q.tokens ++ [d.stop.1] = _
    rw [htokens, Phrase.tokens_group_append]
  have hsame : (Phrase.plain q).tree = d.body.tree := htree
  exact ⟨⟨.plain q, d.stop, hadmitted d.admitted, hwhole⟩, hsame⟩

end Derivation
end Z80Asm.Grammar
