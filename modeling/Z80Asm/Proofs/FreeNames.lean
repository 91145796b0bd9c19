import Z80Asm.Proofs.Identifiers
import Z80Asm.Proofs.Resolution
import Z80Asm.Source.Statement

/-! The names in an expression, and what evaluation reads of them. The free names are those that
stand somewhere in the tree, by their first places from left to right. Evaluation asks for no other
name, so an expression without names has one value, whatever the symbols are and wherever it
stands. -/

namespace Z80Asm
set_option autoImplicit true

namespace Expr

def parts : Expr → List Expr
  | num _ | str _ | ident _ => []
  | call _ args => args
  | unary _ e => [e]
  | binary _ l r | logical _ l r => [l, r]
  | ternary c t e => [c, t, e]

/-- What stands at a place. A place is the way to it from the root, as the numbers of the parts to
go to; of two places the one further to the left is the smaller. -/
def at? (e : Expr) : List Nat → Option Expr
  | [] => some e
  | i :: p =>
    match e.parts[i]? with
    | none => none
    | some part => part.at? p

def Precedes (e : Expr) (x y : String) : Prop :=
  ∃ p, e.at? p = some (.ident x) ∧ ∀ q, e.at? q = some (.ident y) → p < q

structure Listing (e : Expr) (os : List (List Nat × String)) : Prop where
  names : os.map Prod.snd = e.names
  sorted : os.Pairwise fun o o' => o.1 < o'.1
  exact : ∀ p x, (p, x) ∈ os ↔ e.at? p = some (.ident x)

/-- The occurrences in parts, of which the first has the number `k`. -/
structure PartsListing (es : List Expr) (k : Nat) (os : List (List Nat × String)) : Prop where
  names : os.map Prod.snd = es.flatMap Expr.names
  sorted : os.Pairwise fun o o' => o.1 < o'.1
  exact : ∀ p x, (p, x) ∈ os ↔
    ∃ i q part, p = (k + i) :: q ∧ es[i]? = some part ∧ part.at? q = some (.ident x)

theorem Listing.push (h : Listing e os) (k : Nat) :
    PartsListing [e] k (os.map fun o => (k :: o.1, o.2)) := by
  constructor
  · rw [List.map_map, List.flatMap_singleton, ← h.names]
    rfl
  · rw [List.pairwise_map]
    exact h.sorted.imp fun hlt => List.cons_lt_cons_iff.2 (.inr ⟨rfl, hlt⟩)
  · intro p x
    rw [List.mem_map]
    constructor
    · rintro ⟨⟨q, y⟩, hq, heq⟩
      cases heq
      exact ⟨0, q, e, rfl, rfl, (h.exact q y).1 hq⟩
    · rintro ⟨i, q, part, rfl, hpart, hat⟩
      cases i with
      | zero =>
        cases hpart
        exact ⟨(q, x), (h.exact q x).2 hat, rfl⟩
      | succ i => cases hpart

theorem PartsListing.cons (h : PartsListing [e] k os) (h' : PartsListing es (k + 1) os') :
    PartsListing (e :: es) k (os ++ os') := by
  have hfirst : ∀ o ∈ os, ∃ q, o.1 = k :: q := by
    intro ⟨p, x⟩ ho
    obtain ⟨i, q, part, rfl, hpart, -⟩ := (h.exact p x).1 ho
    cases i with
    | zero => exact ⟨q, rfl⟩
    | succ i => cases hpart
  have hlater : ∀ o ∈ os', ∃ i q, o.1 = (k + 1 + i) :: q := by
    rintro ⟨p, x⟩ ho
    obtain ⟨i, q, part, rfl, -, -⟩ := (h'.exact p x).1 ho
    exact ⟨i, q, rfl⟩
  constructor
  · rw [List.map_append, h.names, h'.names, List.flatMap_singleton, List.flatMap_cons]
  · apply List.pairwise_append.2 ⟨h.sorted, h'.sorted, _⟩
    intro o ho o' ho'
    obtain ⟨q, hq⟩ := hfirst o ho
    obtain ⟨i, q', hq'⟩ := hlater o' ho'
    rw [hq, hq', List.cons_lt_cons_iff]
    exact .inl (by omega)
  · intro p x
    rw [List.mem_append, h.exact, h'.exact]
    constructor
    · rintro (⟨i, q, part, rfl, hpart, hat⟩ | ⟨i, q, part, rfl, hpart, hat⟩)
      · cases i with
        | zero => exact ⟨0, q, part, rfl, hpart, hat⟩
        | succ i => cases hpart
      · exact ⟨i + 1, q, part, by rw [Nat.add_assoc, Nat.add_comm 1 i], hpart, hat⟩
    · rintro ⟨i, q, part, rfl, hpart, hat⟩
      cases i with
      | zero => exact .inl ⟨0, q, part, rfl, hpart, hat⟩
      | succ i =>
        exact .inr ⟨i, q, part, by rw [Nat.add_assoc, Nat.add_comm 1 i], hpart, hat⟩

theorem exists_partsListing {es : List Expr} (h : ∀ part ∈ es, ∃ os, part.Listing os) (k : Nat) :
    ∃ os, PartsListing es k os := by
  induction es generalizing k with
  | nil =>
    refine ⟨[], rfl, .nil, fun p x => ⟨fun hmem => (List.not_mem_nil hmem).elim, ?_⟩⟩
    rintro ⟨i, q, part, -, hpart, -⟩
    cases hpart
  | cons e es ih =>
    obtain ⟨⟨os, hos⟩, hes⟩ := List.forall_mem_cons.1 h
    obtain ⟨os', hos'⟩ := ih hes (k + 1)
    exact ⟨_, (hos.push k).cons hos'⟩

theorem names_eq_parts {e : Expr} (h : ∀ x, e ≠ .ident x) :
    e.names = e.parts.flatMap Expr.names := by
  cases e with
  | ident x => exact (h x rfl).elim
  | call fn args => exact namesAll_eq_flatMap args
  | _ => simp [names, parts]

theorem listing_ident (x : String) : (ident x).Listing [([], x)] := by
  refine ⟨rfl, List.pairwise_singleton _ _, fun p y => ?_⟩
  rw [List.mem_singleton]
  cases p with
  | nil =>
    rw [at?, Option.some.injEq, ident.injEq, Prod.mk.injEq]
    exact ⟨fun h => h.2.symm, fun h => ⟨rfl, h.symm⟩⟩
  | cons i p =>
    constructor
    · intro h
      cases h
    · intro h
      cases h

theorem exists_listing_of_parts (e : Expr) (h : ∀ part ∈ e.parts, ∃ os, part.Listing os) :
    ∃ os, e.Listing os := by
  by_cases hroot : ∃ x, e = .ident x
  · obtain ⟨x, rfl⟩ := hroot
    exact ⟨_, listing_ident x⟩
  · obtain ⟨os, hos⟩ := exists_partsListing h 0
    have hnames := names_eq_parts fun x hx => hroot ⟨x, hx⟩
    refine ⟨os, hos.names.trans hnames.symm, hos.sorted, fun p x => ?_⟩
    rw [hos.exact]
    cases p with
    | nil =>
      constructor
      · rintro ⟨i, q, part, heq, -⟩
        cases heq
      · intro hat
        exact (hroot ⟨x, Option.some.inj hat⟩).elim
    | cons i p =>
      rw [at?]
      constructor
      · rintro ⟨j, q, part, heq, hpart, hat⟩
        rw [Nat.zero_add] at heq
        cases heq
        rw [hpart]
        exact hat
      · intro hat
        split at hat
        · cases hat
        · rename_i part hpart
          exact ⟨i, p, part, by rw [Nat.zero_add], hpart, hat⟩

mutual

theorem exists_listing : (e : Expr) → ∃ os, e.Listing os
  | .num n => exists_listing_of_parts (.num n) (List.forall_mem_nil _)
  | .str s => exists_listing_of_parts (.str s) (List.forall_mem_nil _)
  | .ident x => exists_listing_of_parts (.ident x) (List.forall_mem_nil _)
  | .call fn args => exists_listing_of_parts (.call fn args) (exists_listings args)
  | .unary op e =>
    exists_listing_of_parts (.unary op e) (List.forall_mem_singleton.2 (exists_listing e))
  | .binary op l r =>
    exists_listing_of_parts (.binary op l r) (List.forall_mem_cons.2
      ⟨exists_listing l, List.forall_mem_singleton.2 (exists_listing r)⟩)
  | .logical op l r =>
    exists_listing_of_parts (.logical op l r) (List.forall_mem_cons.2
      ⟨exists_listing l, List.forall_mem_singleton.2 (exists_listing r)⟩)
  | .ternary c t e =>
    exists_listing_of_parts (.ternary c t e) (List.forall_mem_cons.2 ⟨exists_listing c,
      List.forall_mem_cons.2 ⟨exists_listing t, List.forall_mem_singleton.2 (exists_listing e)⟩⟩)

theorem exists_listings : (es : List Expr) → ∀ e ∈ es, ∃ os, e.Listing os
  | [] => List.forall_mem_nil _
  | e :: es => List.forall_mem_cons.2 ⟨exists_listing e, exists_listings es⟩

end

theorem pairwise_eraseDups {os : List (List Nat × String)}
    (h : os.Pairwise fun o o' => o.1 < o'.1) :
    (os.map Prod.snd).eraseDups.Pairwise fun x y =>
      ∃ p, (p, x) ∈ os ∧ ∀ q, (q, y) ∈ os → p < q := by
  induction hn : os.length using Nat.strongRecOn generalizing os with
  | ind n ih =>
    cases os with
    | nil => exact .nil
    | cons o os =>
      obtain ⟨p, x⟩ := o
      obtain ⟨hfirst, hsorted⟩ := List.pairwise_cons.1 h
      have hothers : (os.map Prod.snd).filter (fun y => !y == x) =
          (os.filter fun o => !o.2 == x).map Prod.snd := List.filter_map
      have hlt : (os.filter fun o => !o.2 == x).length < n := by
        rw [← hn, List.length_cons]
        exact Nat.lt_succ_of_le (List.length_filter_le _ _)
      have htail := ih _ hlt (hsorted.filter _) rfl
      rw [List.map_cons, List.eraseDups_cons, hothers]
      -- an occurrence of another name than `x` is behind the first and among those kept
      have hkept : ∀ y ∈ ((os.filter fun o => !o.2 == x).map Prod.snd).eraseDups,
          ∀ q, (q, y) ∈ (p, x) :: os → (q, y) ∈ os.filter fun o => !o.2 == x := by
        intro y hy q hq
        obtain ⟨o, ho, rfl⟩ := List.mem_map.1 (List.mem_eraseDups.1 hy)
        have hne := (List.mem_filter.1 ho).2
        rcases List.mem_cons.1 hq with heq | hmem
        · cases heq
          simp at hne
        · exact List.mem_filter.2 ⟨hmem, hne⟩
      refine List.pairwise_cons.2 ⟨fun y hy => ?_, ?_⟩
      · refine ⟨p, List.mem_cons_self, fun q hq => ?_⟩
        exact hfirst _ (List.mem_filter.1 (hkept y hy q hq)).1
      · refine htail.imp_of_mem fun {y z} _ hz hyz => ?_
        obtain ⟨q, hq, hbefore⟩ := hyz
        exact ⟨q, List.mem_cons_of_mem _ (List.mem_filter.1 hq).1,
          fun r hr => hbefore r (hkept z hz r hr)⟩

theorem mem_freeVars {e : Expr} : x ∈ e.freeVars ↔ x ∈ e.names := List.mem_eraseDups

theorem mem_freeVars_iff_at {e : Expr} : x ∈ e.freeVars ↔ ∃ p, e.at? p = some (.ident x) := by
  obtain ⟨os, hos⟩ := e.exists_listing
  rw [mem_freeVars, ← hos.names, List.mem_map]
  constructor
  · rintro ⟨⟨p, y⟩, hmem, rfl⟩
    exact ⟨p, (hos.exact p y).1 hmem⟩
  · rintro ⟨p, hat⟩
    exact ⟨(p, x), (hos.exact p x).2 hat, rfl⟩

theorem freeVars_precede (e : Expr) : e.freeVars.Pairwise e.Precedes := by
  obtain ⟨os, hos⟩ := e.exists_listing
  rw [freeVars, ← hos.names]
  refine (pairwise_eraseDups hos.sorted).imp fun {x y} hxy => ?_
  obtain ⟨p, hp, hbefore⟩ := hxy
  exact ⟨p, (hos.exact p x).1 hp, fun q hq => hbefore q ((hos.exact q y).2 hq)⟩

theorem Precedes.ne {e : Expr} (h : e.Precedes x y) : x ≠ y := by
  rintro rfl
  obtain ⟨p, hp, hbefore⟩ := h
  exact lt_irrefl p (hbefore p hp)

theorem names_eq_nil {e : Expr} (h : e.freeVars = []) : e.names = [] := by
  apply List.eq_nil_iff_forall_not_mem.2
  intro x hx
  have hmem := mem_freeVars.2 hx
  rw [h] at hmem
  cases hmem

def Simulation.equal (m : Type → Type) [Monad m] [MonadExceptOf EvalError m] : Simulation m m where
  rel x y := x = y
  pure _ := rfl
  throw _ := rfl
  bind hx hf := by rw [hx, funext hf]

end Expr

namespace Resolve

/-- Resolutions that give a fixed result, and neither read nor write any symbol. -/
def fixed : Expr.Simulation (Except EvalError) Resolve where
  rel x y := ∀ memo, y.run.run memo = (x, memo)
  pure _ := fun _ => rfl
  throw _ := fun _ => rfl
  bind {α β x y f g} hx hf := by
    intro memo
    rw [run_bind, hx memo]
    cases x with
    | error e => rfl
    | ok a => exact hf a memo

theorem evalM_closed {e : Expr} (h : e.freeVars = []) (lookup : String → Resolve Datum)
    (memo : Memo) : (e.evalM lookup).run.run memo = (e.eval Expr.noNames, memo) := by
  apply fixed.evalM e
  intro x hx
  rw [Expr.names_eq_nil h] at hx
  cases hx

theorem source_of_parse (h : Expr.parse text = .ok e) (inner : String → Resolve Datum)
    (here? : Option Int64) (scope : String) :
    ∃ lookup, source inner here? scope text = e.evalM lookup := by
  unfold source
  rw [h]
  exact ⟨_, rfl⟩

/-- An operand whose expression was folded has the value that it has as it is written. -/
theorem value_folded (h : (Source.readValue? text).value = some v) (names : List String)
    (scope : String) (here : Int64) (memo : Memo) :
    (value v scope here).run.run memo = (value (.deferred text names) scope here).run.run memo := by
  rw [Source.readValue?] at h
  split at h
  · cases h
  · rename_i e hparse
    split at h
    · rename_i hfree
      split at h
      · rename_i d hd
        cases h
        obtain ⟨lookup, hsource⟩ := source_of_parse hparse
          (symbol memo.table.names []) (some here) scope
        have hwritten : (value (.deferred text names) scope here).run.run memo = (.ok d, memo) := by
          rw [← hd, ← evalM_closed hfree lookup memo, ← hsource]
          rfl
        rw [hwritten]
        cases d with
        | number n => rfl
        | text s => rfl
      · cases h
    · cases h
      rfl

end Resolve

/-- The free names of an expression are the names in it, each once and in the order of their first
places. Evaluation reads a lookup only at them. Without free names an expression has the value that
it has where no name is known, with any symbols, in any scope and at any address; so an operand that
is folded has the value that it has as it is written. -/
theorem Expr.eval_reads_freeVars (e : Expr) :
    (e.freeVars.Nodup ∧ (∀ x, x ∈ e.freeVars ↔ ∃ p, e.at? p = some (.ident x)) ∧
      e.freeVars.Pairwise e.Precedes) ∧
    (∀ (m : Type → Type) [Monad m] [MonadExceptOf EvalError m] (ρ σ : String → m Datum),
      (∀ x ∈ e.freeVars, ρ x = σ x) → e.evalM ρ = e.evalM σ) ∧
    (e.freeVars = [] →
      (∀ ρ, e.eval ρ = e.eval noNames) ∧
      (∀ (lookup : String → Resolve Datum) (memo : Memo),
        (e.evalM lookup).run.run memo = (e.eval noNames, memo)) ∧
      ∀ text, parse text = .ok e →
        (∀ symbol here? scope memo,
          (Resolve.source symbol here? scope text).run.run memo = (e.eval noNames, memo)) ∧
        ∀ v, (Source.readValue? text).value = some v → ∀ scope here memo,
          (Resolve.value v scope here).run.run memo =
            (Resolve.value (.deferred text []) scope here).run.run memo) := by
  have hprecede := e.freeVars_precede
  refine ⟨⟨hprecede.imp Precedes.ne, fun x => mem_freeVars_iff_at, hprecede⟩, ?_, ?_⟩
  · intro m _ _ ρ σ h
    apply (Simulation.equal m).evalM e
    intro x hx
    exact h x (mem_freeVars.2 hx)
  · intro hfree
    refine ⟨fun ρ => ?_, Resolve.evalM_closed hfree, fun text hparse => ⟨?_, ?_⟩⟩
    · apply eval_congr
      intro x hx
      rw [names_eq_nil hfree] at hx
      cases hx
    · intro symbol here? scope memo
      obtain ⟨lookup, hsource⟩ := Resolve.source_of_parse hparse symbol here? scope
      rw [hsource]
      exact Resolve.evalM_closed hfree lookup memo
    · intro v hv scope here memo
      exact Resolve.value_folded hv [] scope here memo

/-- A choice with a name in the branch that is not taken, and a constant. -/
theorem Expr.eval_reads_freeVars_choice :
    let e : Expr := .ternary (.ident "b") (.binary .plus (.ident "a") (.ident "b")) (.ident "c")
    let ρ : String → Except EvalError Datum := fun _ => .ok (.number 1)
    let σ : String → Except EvalError Datum := fun x =>
      if x = "d" then .error .noCurrentAddress else .ok (.number 1)
    let f : Expr := .binary .star (.call "min" [.num 2, .num 3]) (.num 4)
    let memo : Memo := ⟨.empty, ["a"]⟩
    e.freeVars = ["b", "a", "c"] ∧ (∀ x ∈ e.freeVars, ρ x = σ x) ∧ e.evalM ρ = e.evalM σ ∧
      f.freeVars = [] ∧ parse "min(2,3)*4" = .ok f ∧
      (Source.readValue? "min(2,3)*4").value = some (.number 8) ∧
      (Resolve.value (.number 8) "%0_" 5).run.run memo =
        (Resolve.value (.deferred "min(2,3)*4" []) "%0_" 5).run.run memo := by
  intro e ρ σ f memo
  have hnames : e.freeVars = ["b", "a", "c"] := by decide +kernel
  have hagree : ∀ x ∈ e.freeVars, ρ x = σ x := by
    rw [hnames]
    decide
  have hclosed : f.freeVars = [] := by decide +kernel
  have hparse : parse "min(2,3)*4" = .ok f := by cbv
  have hfold : (Source.readValue? "min(2,3)*4").value = some (.number 8) := by
    rw [Source.readValue?, hparse]
    dsimp only
    rw [hclosed]
    rfl
  obtain ⟨-, hreads, -⟩ := eval_reads_freeVars e
  obtain ⟨-, -, hconstant⟩ := eval_reads_freeVars f
  obtain ⟨-, -, hfixed⟩ := hconstant hclosed
  exact ⟨hnames, hagree, hreads _ ρ σ hagree, hclosed, hparse, hfold,
    (hfixed _ hparse).2 _ hfold "%0_" 5 memo⟩

end Z80Asm
