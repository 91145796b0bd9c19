import Z80Asm.Expr.Eval
import Z80Asm.Proofs.Spelling

/-! Printing an expression and reading it back. The text of an expression that was read before is
read as the same expression, but for negative literals: numbers are printed with their sign, and the
sign is read as an operator. -/

namespace Z80Asm
set_option autoImplicit true

namespace Expr

mutual

def strings : Expr → List String
  | num _ | ident _ => []
  | str s => [s]
  | call _ args => stringsAll args
  | unary _ e => e.strings
  | binary _ l r | logical _ l r => l.strings ++ r.strings
  | ternary c t e => c.strings ++ (t.strings ++ e.strings)

def stringsAll : List Expr → List String
  | [] => []
  | e :: es => e.strings ++ stringsAll es

end

mutual

/-- The expression with the sign of each negative literal as an operator. The least number is its
own opposite, and stays the literal behind the sign. -/
def signed : Expr → Expr
  | num n => if n < 0 then unary .minus (num (-n)) else num n
  | str s => str s
  | ident x => ident x
  | call fn args => call fn (signedAll args)
  | unary op e => unary op e.signed
  | binary op l r => binary op l.signed r.signed
  | logical op l r => logical op l.signed r.signed
  | ternary c t e => ternary c.signed t.signed e.signed

def signedAll : List Expr → List Expr
  | [] => []
  | e :: es => e.signed :: signedAll es

end

section

variable {m : Type → Type} [Monad m] [MonadExceptOf EvalError m]

mutual

/-- The sign of a literal may as well be an operator. -/
theorem evalM_signed [LawfulMonad m] (lookup : String → m Datum) :
    (e : Expr) → evalM lookup e.signed = evalM lookup e
  | num n => by
    rw [signed]
    split
    · have hneg : applyUnary .minus (.number (-n)) = .ok (.number n) :=
        congrArg (fun k => Except.ok (Datum.number k)) (Int64.neg_neg (a := n))
      rw [evalM, evalM, evalM, pure_bind, hneg, lift]
    · rfl
  | str s => rfl
  | ident x => rfl
  | call fn args => by rw [signed, evalM, evalM, evalAll_signed lookup args]
  | unary op e => by rw [signed, evalM, evalM, evalM_signed lookup e]
  | binary op l r => by
    rw [signed, evalM, evalM, evalM_signed lookup l, evalM_signed lookup r]
  | logical op l r => by
    rw [signed, evalM, evalM, evalM_signed lookup l, evalM_signed lookup r]
  | ternary c t e => by
    rw [signed, evalM, evalM, evalM_signed lookup c, evalM_signed lookup t, evalM_signed lookup e]

theorem evalAll_signed [LawfulMonad m] (lookup : String → m Datum) :
    (es : List Expr) → evalAll lookup (signedAll es) = evalAll lookup es
  | [] => rfl
  | e :: es => by
    rw [signedAll, evalAll, evalAll, evalM_signed lookup e, evalAll_signed lookup es]

end

end

theorem toList_decimal (n : Int64) :
    (Word.decimal n).toList =
      if n < 0 then '-' :: Nat.toDigits 10 n.toInt.natAbs else Nat.toDigits 10 n.toInt.natAbs := by
  have hsign : n < 0 ↔ n.toInt < 0 := Int64.lt_iff_toInt_lt
  simp only [hsign, Word.decimal]
  cases n.toInt with
  | ofNat k =>
    change (toString k).toList = Nat.toDigits 10 k
    rw [Nat.toString_eq_ofList_toDigits, String.toList_ofList]
  | negSucc k =>
    rw [if_pos (Int.negSucc_lt_zero k)]
    change ("-" ++ toString (k + 1)).toList = '-' :: Nat.toDigits 10 (k + 1)
    rw [Nat.toString_eq_ofList_toDigits, String.toList_append, String.toList_ofList,
      String.toList_ofList]
    rfl

theorem spelling_num (n : Int64) :
    Grammar.Spelling (.of .unary) (num n).render.toList (num n).signed := by
  have hsign : n < 0 ↔ n.toInt < 0 := Int64.lt_iff_toInt_lt
  have hlow := n.le_toInt
  have hhigh := n.toInt_lt
  have hlt : n.toInt.natAbs < Number.wordLimit := by
    rw [Number.wordLimit]
    omega
  have hdigits := (Grammar.Spelling.number hlt).bare
  rw [← Int64.ofInt_eq_ofNat] at hdigits
  rw [render, toList_decimal, signed]
  by_cases hneg : n < 0
  · rw [if_pos hneg, if_pos hneg]
    rw [Int.ofNat_natAbs_of_nonpos (hsign.1 hneg).le, Int64.ofInt_neg, Int64.ofInt_toInt] at hdigits
    exact hdigits.unary (by decide : Token.Kind.minus ∈ Grammar.Nonterminal.unary.operators)
  · rw [if_neg hneg, if_neg hneg]
    rw [Int.natAbs_of_nonneg (Int.not_lt.1 (mt hsign.2 hneg)), Int64.ofInt_toInt] at hdigits
    exact hdigits

def renderFurther (es : List Expr) : List Char := es.flatMap fun e => ',' :: ' ' :: e.render.toList

theorem toList_renderAll (e : Expr) (es : List Expr) :
    (", ".intercalate (renderAll (e :: es))).toList = e.render.toList ++ renderFurther es := by
  induction es generalizing e with
  | nil =>
    rw [renderAll, renderAll, String.intercalate_singleton]
    exact (List.append_nil _).symm
  | cons e' es ih =>
    rw [renderAll, renderAll, String.intercalate_cons_cons, ← renderAll, String.toList_append, ih,
      String.toList_append, List.append_assoc, renderFurther, renderFurther, List.flatMap_cons]
    rfl

theorem spelling_further {es : List Expr}
    (h : ∀ e ∈ es, Grammar.Spelling (.of .unary) e.render.toList e.signed) :
    Grammar.Spelling .further (renderFurther es) (signedAll es) ∧
      Token.Delimited (renderFurther es) := by
  induction es with
  | nil => exact ⟨.noFurther, nofun⟩
  | cons e es ih =>
    obtain ⟨he, hes⟩ := List.forall_mem_cons.1 h
    obtain ⟨hspelling, hdelimited⟩ := ih hes
    exact ⟨he.ternary.another hspelling hdelimited, Token.delimited_cons (by decide) _⟩

theorem spelling_arguments {es : List Expr}
    (h : ∀ e ∈ es, Grammar.Spelling (.of .unary) e.render.toList e.signed) :
    Grammar.Spelling .arguments (", ".intercalate (renderAll es)).toList (signedAll es) := by
  cases es with
  | nil => exact .noArguments
  | cons e es =>
    obtain ⟨he, hes⟩ := List.forall_mem_cons.1 h
    obtain ⟨hspelling, hdelimited⟩ := spelling_further hes
    rw [toList_renderAll]
    exact he.ternary.someArguments hspelling hdelimited

theorem length_signedAll (es : List Expr) : (signedAll es).length = es.length := by
  induction es with
  | nil => rfl
  | cons e es ih => rw [signedAll, List.length_cons, ih, List.length_cons]

theorem mem_stringsAll {es : List Expr} (he : e ∈ es) (hs : s ∈ e.strings) : s ∈ stringsAll es := by
  induction he with
  | head => exact List.mem_append_left _ hs
  | tail _ _ ih => exact List.mem_append_right _ ih

section

variable (X : Grammar.Nonterminal) (op : Token.Kind) (l r : Expr)

theorem strings_join : (X.join op l r).strings = l.strings ++ r.strings := by
  cases X <;> rfl

theorem signed_join : (X.join op l r).signed = X.join op l.signed r.signed := by
  cases X <;> rfl

theorem toList_render_join : (X.join op l r).render.toList =
    '(' :: (l.render.toList ++ ' ' :: (op.name.toList ++ ' ' :: r.render.toList) ++ [')']) := by
  cases X <;> simp [Grammar.Nonterminal.join, render]

end

/-- The text of a tree of a phrase is spelt as the tree, with negative literals as operators. -/
theorem WellFormed.spelling {e : Expr} (h : e.WellFormed)
    (hs : ∀ s ∈ e.strings, ∀ c ∈ s.toList, Token.Readable c) :
    Grammar.Spelling (.of .unary) e.render.toList e.signed := by
  induction h with
  | @num n => exact spelling_num n
  | @str s => exact (Grammar.Spelling.string (hs s List.mem_cons_self)).bare
  | ident hx => exact (Grammar.Spelling.identifier hx).bare
  | @call fn args hfn hargs ih =>
    have hspelling := spelling_arguments fun e he =>
      ih e he fun s hmem => hs s (mem_stringsAll he hmem)
    have htext : (Expr.call fn args).render.toList =
        fn.toList ++ '(' :: ((", ".intercalate (renderAll args)).toList ++ [')']) := by
      simp [render]
    rw [← length_signedAll] at hfn
    rw [htext]
    exact (hspelling.call hfn).bare
  | @unary op e hop he ih =>
    have htext : (Expr.unary op e).render.toList =
        '(' :: (op.name.toList ++ e.render.toList ++ [')']) := by
      simp [render]
    rw [htext]
    exact ((ih hs).unary hop).ternary.group.bare
  | @joined X Y op l r hY hop hl hr ihl ihr =>
    rw [strings_join] at hs
    obtain ⟨hsl, hsr⟩ := List.forall_mem_append.1 hs
    rw [toList_render_join, signed_join]
    have hleft := (ihl hsl).looser Y Y.strength_le
    have hright := (ihr hsr).looser Y Y.strength_le
    exact (hleft.joined hY hop hright).ternary.group.bare
  | @ternary c t e hc ht he ihc iht ihe =>
    obtain ⟨hsc, hst⟩ := List.forall_mem_append.1 hs
    obtain ⟨hst, hse⟩ := List.forall_mem_append.1 hst
    have htext : (Expr.ternary c t e).render.toList =
        '(' :: (c.render.toList ++ ' ' :: '?' :: ' ' ::
          (t.render.toList ++ ' ' :: ':' :: ' ' :: e.render.toList) ++ [')']) := by
      simp [render]
    rw [htext]
    exact ((ihc hsc).choice (iht hst).ternary (ihe hse).ternary).group.bare

/-- The text of an expression that was read before is read as the same expression, with the sign of
each negative literal as an operator. Both have the same value or error wherever they stand. -/
theorem parse_render (h : parse src = .ok n)
    (hs : ∀ s ∈ n.strings, ∀ c ∈ s.toList, Token.Readable c) :
    parse n.render = .ok n.signed ∧ ∀ lookup, n.signed.eval lookup = n.eval lookup :=
  ⟨((wellFormed_of_parse h).spelling hs).ternary.parse, fun lookup => evalM_signed lookup n⟩

def unsignedText : String := "9223372036854775808 + \"\\n\""

theorem parse_render_unsignedText :
    parse unsignedText = .ok (binary .plus (num Int64.minValue) (str "\n")) ∧
      parse "(-9223372036854775808 + \"\\n\")" =
        .ok (binary .plus (unary .minus (num Int64.minValue)) (str "\n")) := by
  have hreadable : ∀ c ∈ "\n".toList, Token.Readable c :=
    List.forall_mem_singleton.2 (.inr (.inl rfl))
  have hparse : parse unsignedText = .ok (binary .plus (num Int64.minValue) (str "\n")) := by
    have hnum := (Grammar.Spelling.number (n := 2 ^ 63) (by decide)).bare
    rw [show Int64.ofNat (2 ^ 63) = Int64.minValue by decide] at hnum
    have htext := (Grammar.Spelling.string hreadable).bare
    have hplus : Token.Kind.plus ∈ Grammar.Nonterminal.additive.operators := by decide
    have hsum := (hnum.looser .multiplicative (by decide)).joined rfl hplus
      (htext.looser .multiplicative (by decide))
    have hchars : unsignedText.toList = Nat.toDigits 10 (2 ^ 63) ++
        ' ' :: (Token.Kind.plus.name.toList ++ ' ' :: (Text.quote "\n").toList) := by
      decide +kernel
    exact Grammar.Spelling.parse (hchars ▸ hsum.ternary)
  have hrender : (binary .plus (num Int64.minValue) (str "\n")).render =
      "(-9223372036854775808 + \"\\n\")" := by decide +kernel
  refine ⟨hparse, ?_⟩
  rw [← hrender, (parse_render hparse (List.forall_mem_singleton.2 hreadable)).1]
  rfl

end Expr
end Z80Asm
