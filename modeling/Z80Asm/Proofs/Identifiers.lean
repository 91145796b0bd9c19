import Z80Asm.Proofs.Parsing
import Z80Asm.Proofs.ScopePaths
import Z80Asm.Source.Line

/-! The trees that the parser makes, and the names in them. No name begins with a scope segment, so
no expression can name a symbol of a scope that it does not stand in. -/

namespace Z80Asm
set_option autoImplicit true

theorem Scope.unsegmented_of_ne {c : Char} (h : c ≠ '%') (cs : List Char) :
    Unsegmented (String.ofList (c :: cs)) := by
  rw [Unsegmented, String.toList_ofList]
  unfold afterSegment?
  split
  · rename_i heq
    exact (h (List.cons.inj heq).1).elim
  · rfl

namespace Token

/-- What the lexer takes for a name: a dollar sign, or a name in the sense of source lines. -/
def IsIdentifier (name : String) : Prop := name = "$" ∨ Source.isName name.toList = true

theorem IsIdentifier.unsegmented (h : IsIdentifier name) : Scope.Unsegmented name := by
  rcases h with rfl | h
  · exact Scope.unsegmented_of_ne (by decide) []
  · cases hcs : name.toList with
    | nil =>
      rw [hcs] at h
      cases h
    | cons c cs =>
      rw [hcs] at h
      have hne : c ≠ '%' := by
        rintro rfl
        rw [Source.isName, Bool.and_eq_true_iff] at h
        exact absurd h.1 (by decide +kernel)
      have hclean := Scope.unsegmented_of_ne hne cs
      rwa [← hcs, String.ofList_toList] at hclean

theorem readLexeme_identifier {start : Nat} (h : readLexeme start c cs = .ok l)
    (hk : l.kind = .identifier) : IsIdentifier l.text := by
  cases lexes_of_readLexeme h with
  | name hc =>
    right
    rw [String.toList_ofList]
    exact Bool.and_eq_true_iff.2 ⟨hc, List.all_eq_true.2 fun d hd => List.mem_takeWhile_imp hd⟩
  | here => exact .inl rfl
  | operator hop =>
    have hnone : ∀ p ∈ operators, p.2 ≠ .identifier := by decide
    exact (hnone _ (mem_operators hop) hk).elim
  | number | dollarNumber | string => cases hk

theorem lexFrom_identifier (pos : Nat) (cs : List Char) :
    ∀ t ∈ (lexFrom pos cs).tokens, t.kind = .identifier → IsIdentifier t.lexeme := by
  fun_induction lexFrom pos cs with
  | case1 pos =>
    intro t ht hk
    rw [List.mem_singleton.1 ht] at hk
    cases hk
  | case2 pos c cs hspace ih => exact ih
  | case3 pos c cs hspace e he => exact List.forall_mem_nil _
  | case4 pos c cs hspace l hl ih =>
    exact List.forall_mem_cons.2 ⟨fun hk => readLexeme_identifier hl hk, ih⟩

end Token

namespace Expr

inductive WellFormed : Expr → Prop where
  | num : WellFormed (.num n)
  | str : WellFormed (.str s)
  | ident : Token.IsIdentifier x → WellFormed (.ident x)
  | call : Grammar.Takes fn args.length → (∀ e ∈ args, WellFormed e) → WellFormed (.call fn args)
  | unary : op ∈ Grammar.Nonterminal.unary.operators → WellFormed e → WellFormed (.unary op e)
  | joined {X Y : Grammar.Nonterminal} {op : Token.Kind} {l r : Expr} : X.operand? = some Y →
    op ∈ X.operators → WellFormed l → WellFormed r → WellFormed (X.join op l r)
  | ternary : WellFormed c → WellFormed t → WellFormed e → WellFormed (.ternary c t e)

end Expr

namespace Grammar

def Category.All (P : Expr → Prop) : (c : Category) → c.Tree → Prop
  | .chain _, extend => ∀ left, P left → P (extend left)
  | .arguments, es | .further, es => ∀ e ∈ es, P e
  | .ternary, e | .of _, e | .primary, e => P e

theorem Phrase.wellFormed (p : Phrase c) (ha : p.Admitted)
    (hp : ∀ t ∈ p.tokens, t.kind = .identifier → Token.IsIdentifier t.lexeme) :
    c.All Expr.WellFormed p.tree := by
  induction p with
  | plain cond ih => exact ih ha hp
  | choice cond question yes colon no ihc ihy ihn =>
    obtain ⟨hac, hay, han⟩ := ha
    simp only [tokens, List.forall_mem_append, List.forall_mem_cons] at hp
    obtain ⟨hpc, -, hpy, -, hpn⟩ := hp
    exact .ternary (ihc hac hpc) (ihy hay hpy) (ihn han hpn)
  | joined hY first rest ihf ihr =>
    obtain ⟨hpf, hpr⟩ := List.forall_mem_append.1 hp
    exact ihr ha.2 hpr _ (ihf ha.1 hpf)
  | done => exact fun left hleft => hleft
  | more hY op right rest ihr ihc =>
    simp only [tokens, List.forall_mem_append, List.forall_mem_cons] at hp
    obtain ⟨-, hpr, hpc⟩ := hp
    exact fun left hleft => ihc ha.2 hpc _ (.joined hY op.2 hleft (ihr ha.1 hpr))
  | unary op operand ih => exact .unary op.2 (ih ha (List.forall_mem_cons.1 hp).2)
  | bare e ih => exact ih ha hp
  | number n => exact .num
  | string t => exact .str
  | ident t => exact .ident (hp t.1 List.mem_cons_self t.2)
  | call fn opening args closing ih =>
    simp only [tokens, List.forall_mem_append, List.forall_mem_cons] at hp
    exact .call ha.1 (ih ha.2 hp.2.2.1)
  | group opening e closing ih =>
    simp only [tokens, List.forall_mem_append, List.forall_mem_cons] at hp
    exact ih ha hp.2.1
  | noArguments => exact List.forall_mem_nil _
  | someArguments first rest ihf ihr =>
    obtain ⟨hpf, hpr⟩ := List.forall_mem_append.1 hp
    exact List.forall_mem_cons.2 ⟨ihf ha.1 hpf, ihr ha.2 hpr⟩
  | noFurther => exact List.forall_mem_nil _
  | another comma e rest ihe ihr =>
    simp only [tokens, List.forall_mem_append, List.forall_mem_cons] at hp
    exact List.forall_mem_cons.2 ⟨ihe ha.1 hp.2.1, ihr ha.2 hp.2.2⟩

end Grammar

namespace Expr

theorem wellFormed_of_parse (h : parse src = .ok e) : e.WellFormed := by
  unfold parse at h
  dsimp only at h
  split at h
  · cases h
  · rename_i hlex
    obtain ⟨body, stop, hts, hstop, hbody⟩ := Token.lexFrom_ends hlex
    obtain ⟨d, rfl⟩ := Grammar.derivation_of_parseTokens hts hstop hbody h
    refine d.body.wellFormed d.admitted fun t ht => Token.lexFrom_identifier 0 src.toList t ?_
    rw [show (Token.lexFrom 0 src.toList).tokens = d.body.tokens ++ [d.stop.1] from
      d.tokens_eq.symm]
    exact List.mem_append_left _ ht

theorem namesAll_eq_flatMap (es : List Expr) : namesAll es = es.flatMap Expr.names := by
  induction es with
  | nil => rfl
  | cons e es ih => rw [namesAll, ih, List.flatMap_cons]

theorem WellFormed.identifier {e : Expr} (h : e.WellFormed) :
    ∀ x ∈ e.names, Token.IsIdentifier x := by
  induction h with
  | num | str => exact List.forall_mem_nil _
  | ident hx => exact List.forall_mem_singleton.2 hx
  | call _ _ ih =>
    rw [names, namesAll_eq_flatMap]
    intro x hx
    obtain ⟨e, he, hx⟩ := List.mem_flatMap.1 hx
    exact ih e he x hx
  | unary _ _ ih => exact ih
  | @joined X Y op l r _ _ _ _ ihl ihr =>
    have hnames : (X.join op l r).names = l.names ++ r.names := by cases X <;> rfl
    rw [hnames]
    exact List.forall_mem_append.2 ⟨ihl, ihr⟩
  | ternary _ _ _ ihc iht ihe =>
    exact List.forall_mem_append.2 ⟨ihc, List.forall_mem_append.2 ⟨iht, ihe⟩⟩

def Clean (e : Expr) : Prop := ∀ x ∈ e.names, Scope.Unsegmented x

/-- No name in an expression begins with a scope segment. -/
theorem parse_clean (h : parse text = .ok e) : Clean e :=
  fun x hx => ((wellFormed_of_parse h).identifier x hx).unsegmented

end Expr

def Value.mentions (v : Value) : List String :=
  match v.content with
  | .deferred text _ =>
    match Expr.parse text with
    | .ok e => e.names
    | .error _ => []
  | _ => []

theorem Value.mentions_of_parse {v : Value} {text : String} (hc : v.content = .deferred text free)
    (hp : Expr.parse text = .ok e) : v.mentions = e.names := by
  simp only [mentions, hc, hp]

theorem Value.unsegmented_of_mentions {v : Value} (h : x ∈ v.mentions) : Scope.Unsegmented x := by
  unfold mentions at h
  split at h
  · split at h
    · rename_i e hp
      exact Expr.parse_clean hp x h
    · cases h
  · cases h

end Z80Asm
