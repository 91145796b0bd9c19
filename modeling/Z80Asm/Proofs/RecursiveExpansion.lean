import Z80Asm.Proofs.CallReports
import Z80Asm.Proofs.Inlining

/-! Expansion in passes and by recursion. Each pass expands one level of calls everywhere, so a
number of passes is the same as inlining to that depth, one call after the other. -/

namespace Z80Asm
set_option autoImplicit true

namespace Program

def spliceFrom (f : Element → List Element) (depth : Nat) (es : List Element) : List Element :=
  (walkFrom (fun (_ : Unit) e => (f e, ())) depth () es).1

/-- Replaces every element outside macro definitions by the elements that `f` gives for it. -/
def splice (f : Element → List Element) (es : List Element) : List Element := spliceFrom f 0 es

section
variable {f g : Element → List Element}

theorem spliceFrom_cons (f : Element → List Element) (depth : Nat) (e : Element)
    (es : List Element) :
    spliceFrom f depth (e :: es) =
      if inDefinition depth e.stmt then e :: spliceFrom f (depthAfter depth e.stmt) es
      else f e ++ spliceFrom f depth es := by
  unfold spliceFrom
  rw [walkFrom]
  split
  · rfl
  · rfl

theorem walkFrom_fst {k : σ → Element → List Element × σ} (hk : ∀ s e, (k s e).1 = f e)
    (depth : Nat) (s : σ) (es : List Element) :
    (walkFrom k depth s es).1 = spliceFrom f depth es := by
  induction es generalizing depth s with
  | nil => rfl
  | cons e es ih =>
    rw [walkFrom, spliceFrom_cons]
    split
    · exact congrArg (e :: ·) (ih _ s)
    · dsimp only
      rw [hk, ih]

theorem walk_fst {k : σ → Element → List Element × σ} (hk : ∀ s e, (k s e).1 = f e) (s : σ)
    (es : List Element) : (walk k s es).1 = splice f es :=
  walkFrom_fst hk 0 s es

theorem spliceFrom_append {here : List Element} (h : ∀ e ∈ here, isMark e.stmt = false)
    (f : Element → List Element) (es : List Element) :
    spliceFrom f 0 (here ++ es) = here.flatMap f ++ spliceFrom f 0 es := by
  induction here with
  | nil => rfl
  | cons e here ih =>
    have hd : inDefinition 0 e.stmt = false := by
      rw [inDefinition_eq, h e List.mem_cons_self]
      rfl
    rw [List.cons_append, spliceFrom_cons, hd, ih fun a ha => h a (List.mem_cons_of_mem e ha),
      List.flatMap_cons, List.append_assoc]
    rfl

theorem splice_of_unmarked (h : ∀ e ∈ es, isMark e.stmt = false) (f : Element → List Element) :
    splice f es = es.flatMap f := by
  have happend := spliceFrom_append h f []
  rw [List.append_nil] at happend
  exact happend.trans (List.append_nil _)

def Tame (f : Element → List Element) : Prop :=
  ∀ e, isMark e.stmt = false → ∀ e' ∈ f e, isMark e'.stmt = false

/-- Inserted elements do not disturb the nesting of definitions: they are replaced on the spot. -/
theorem spliceFrom_spliceFrom (hf : Tame f) (g : Element → List Element) (depth : Nat)
    (es : List Element) :
    spliceFrom g depth (spliceFrom f depth es) =
      spliceFrom (fun e => (f e).flatMap g) depth es := by
  induction es generalizing depth with
  | nil => rfl
  | cons e es ih =>
    rw [spliceFrom_cons f, spliceFrom_cons (fun e => (f e).flatMap g)]
    by_cases hd : inDefinition depth e.stmt = true
    · rw [if_pos hd, if_pos hd, spliceFrom_cons, if_pos hd, ih]
    · obtain ⟨rfl, hm⟩ := of_not_inDefinition hd
      rw [if_neg hd, if_neg hd, spliceFrom_append (hf e hm), ih]

theorem splice_splice (hf : Tame f) (g : Element → List Element) (es : List Element) :
    splice g (splice f es) = splice (fun e => (f e).flatMap g) es :=
  spliceFrom_spliceFrom hf g 0 es

theorem spliceFrom_eq_self (h : ∀ e ∈ outsideFrom depth es, f e = [e]) :
    spliceFrom f depth es = es := by
  induction es generalizing depth with
  | nil => rfl
  | cons e es ih =>
    rw [spliceFrom_cons]
    rw [outsideFrom] at h
    split
    · rename_i hd
      rw [if_pos hd] at h
      rw [ih h]
    · rename_i hd
      rw [if_neg hd] at h
      rw [h e List.mem_cons_self, ih fun a ha => h a (List.mem_cons_of_mem e ha)]
      rfl

theorem outsideFrom_spliceFrom (hf : Tame f) (depth : Nat) (es : List Element) :
    outsideFrom depth (spliceFrom f depth es) = (outsideFrom depth es).flatMap f := by
  induction es generalizing depth with
  | nil => rfl
  | cons e es ih =>
    rw [spliceFrom_cons, outsideFrom]
    by_cases hd : inDefinition depth e.stmt = true
    · rw [if_pos hd, if_pos hd, outsideFrom, if_pos hd, ih]
    · obtain ⟨rfl, hm⟩ := of_not_inDefinition hd
      rw [if_neg hd, if_neg hd, outsideFrom_append (hf e hm), ih, List.flatMap_cons]

theorem forall₂_spliceFrom {R : Element → Element → Prop} (hR : ∀ e, R e e)
    (h : ∀ e, isMark e.stmt = false → List.Forall₂ R (f e) (g e)) (depth : Nat)
    (es : List Element) : List.Forall₂ R (spliceFrom f depth es) (spliceFrom g depth es) := by
  induction es generalizing depth with
  | nil => exact .nil
  | cons e es ih =>
    rw [spliceFrom_cons, spliceFrom_cons]
    split
    · exact .cons (hR e) (ih _)
    · rename_i hd
      exact List.rel_append (h e (of_not_inDefinition hd).2) (ih depth)

end
end Program

def Problem.isTooDeep : Problem → Bool
  | nestedTooDeep .. => true
  | _ => false

namespace Macro
open Program

/-- The call that an element is, and its macro, if a pass would expand it. -/
def expandable? (t : MacroTable) (e : Element) : Option (MacroCall × Macro) :=
  match e.stmt with
  | .call c => if c.isPending then (t.find? c.name).map (c, ·) else none
  | _ => none

/-- What an element becomes when calls are inlined to a depth: a call is marked as expanded, and
followed by the body of its macro with calls inlined one level less deep, and an end. -/
def inlineElement (t : MacroTable) : Nat → Element → List Element
  | 0, e => [e]
  | n + 1, e =>
    match expandable? t e with
    | some (c, m) =>
      ⟨e.loc, .call { c with expanded := true, params := m.params }⟩ ::
        (splice (inlineElement t n) m.body ++ [⟨e.loc, .endCall c.name ""⟩])
    | none => [e]

def inline (t : MacroTable) (n : Nat) (es : List Element) : List Element :=
  splice (inlineElement t n) es

/-- The elements are the same, unless they are a call and the same call with the note that it has
been reported. -/
def UpToNote (e e' : Element) : Prop :=
  e' = e ∨ ∃ c, Awaits e c ∧ e' = { e with stmt := .call { c with reported := true } }

def UpToUndefined (t : MacroTable) (e e' : Element) : Prop :=
  e' = e ∨ ∃ c, Awaits e c ∧ t.find? c.name = none ∧
    e' = { e with stmt := .call { c with reported := true } }

def tooDeep? (t : MacroTable) (limit : Nat) (e : Element) : Option Diagnostic :=
  (expandable? t e).map fun call => ⟨.nestedTooDeep call.1.name limit, e.loc⟩

section
variable {t : MacroTable} {e : Element} {c : MacroCall} {m : Macro}

theorem expandable?_known (h : Awaits e c) (hm : t.find? c.name = some m) :
    expandable? t e = some (c, m) := by
  rw [expandable?, h.1]
  dsimp only
  rw [if_pos h.2, hm]
  rfl

theorem expandable?_undefined (h : Awaits e c) (hm : t.find? c.name = none) :
    expandable? t e = none := by
  rw [expandable?, h.1]
  dsimp only
  rw [if_pos h.2, hm]
  rfl

theorem expandable?_still (h : ∀ c, e.stmt = .call c → c.isPending = false) :
    expandable? t e = none := by
  unfold expandable?
  split
  · rename_i c hc
    rw [h c hc]
    rfl
  · rfl

theorem expandable?_cases (t : MacroTable) (e : Element) :
    (∃ c m, Awaits e c ∧ t.find? c.name = some m ∧ expandable? t e = some (c, m)) ∨
      (∃ c, Awaits e c ∧ t.find? c.name = none ∧ expandable? t e = none) ∨
      (∀ c, e.stmt = .call c → c.isPending = false) ∧ expandable? t e = none := by
  rcases not_pending_cases e with ⟨c, hc⟩ | hn
  · cases hm : t.find? c.name with
    | none => exact .inr (.inl ⟨c, hc, hm, expandable?_undefined hc hm⟩)
    | some m => exact .inl ⟨c, m, hc, hm, expandable?_known hc hm⟩
  · exact .inr (.inr ⟨hn, expandable?_still hn⟩)

theorem not_pending_of_reported (e : Element) (c : MacroCall) :
    ∀ c', ({ e with stmt := .call { c with reported := true } } : Element).stmt = .call c' →
      c'.isPending = false := by
  intro c' hc'
  cases hc'
  exact Bool.and_false _

theorem expand_fst (t : MacroTable) (es : List Element) :
    (expand t es).1 = splice (copies t) es := by
  apply walk_fst
  intro s e
  rw [expandElement_eq]

theorem Plain.tame (ht : Plain t) : Tame (copies t) := ht.unmarked {}

theorem flatMap_inlined (t : MacroTable) (n : Nat) (es : List Element) :
    es.flatMap (fun e => inlined t n [e]) = inlined t n es := by
  induction es with
  | nil =>
    have hstill : Still [] := fun _ he => nomatch he
    exact (hstill.inlined_eq n).symm
  | cons e es ih => rw [List.flatMap_cons, ih, ← inlined_append, List.singleton_append]

theorem tame_inlined (ht : Plain t) (n : Nat) : Tame fun e => inlined t n [e] := by
  intro e he
  induction n with
  | zero =>
    intro e' he'
    rw [List.mem_singleton.1 he']
    exact he
  | succ n ih =>
    intro e' he'
    dsimp only at he'
    rw [inlined_succ] at he'
    obtain ⟨a, ha, he'⟩ := List.mem_flatMap.1 he'
    exact ht.tame a (ih a ha) e' he'

/-- Passes act on each element outside of definitions by itself. -/
theorem rounds_eq_splice (ht : Plain t) (n : Nat) (es : List Element) :
    rounds t n es = splice (fun e => inlined t n [e]) es := by
  induction n generalizing es with
  | zero => exact (spliceFrom_eq_self fun e _ => rfl).symm
  | succ n ih =>
    rw [rounds, ih, expand_fst, splice_splice ht.tame]
    congr 1
    funext e
    rw [inlined, List.flatMap_singleton, flatMap_inlined]

theorem rounds_of_still (h : Still (outside es)) (t : MacroTable) (n : Nat) :
    rounds t n es = es := by
  have hexpand : (expand t es).1 = es := by
    rw [expand_fst]
    apply spliceFrom_eq_self
    intro e he
    rw [copies, expandElement_still t (h e he)]
  induction n with
  | zero => rfl
  | succ n ih => rw [rounds, hexpand, ih]

theorem expandPasses_fst (ht : Plain t) (limit n : Nat) (es : List Element)
    (ds : List Diagnostic) :
    (expandPasses t limit n es ds).1 =
      splice (fun e => [deepMarked t limit e]) (rounds t n es) := by
  induction n generalizing es ds with
  | zero =>
    apply walk_fst
    intro s e
    rw [reportDeep_eq]
    rfl
  | succ n ih =>
    rw [expandPasses, rounds]
    dsimp only
    split
    · rename_i hcount
      have hstill := still_expand ht hcount
      rw [rounds_of_still hstill]
      symm
      apply spliceFrom_eq_self
      intro e he
      rw [deepMarked, reportDeep_still t limit (hstill e he)]
    · exact ih _ _

theorem expandAll_fst (ht : Plain t) (limit : Nat) (es : List Element) :
    (expandAll t limit es).1 =
      splice (fun e => (inlined t limit [e]).map (deepMarked t limit)) es := by
  rw [expandAll, expandPasses_fst ht, rounds_eq_splice ht, splice_splice (tame_inlined ht limit)]
  congr 1
  funext e
  exact List.map_eq_flatMap.symm

/-- Inlining an element by recursion gives the same as a number of passes over it. -/
theorem inlineElement_inlined (ht : Plain t) (n : Nat) (e : Element) :
    List.Forall₂ (UpToUndefined t) (inlineElement t n e) (inlined t n [e]) := by
  have hrefl (e : Element) : UpToUndefined t e e := .inl rfl
  induction n generalizing e with
  | zero => exact .cons (hrefl e) .nil
  | succ n ih =>
    rw [inlineElement]
    rcases expandable?_cases t e with ⟨c, m, hc, hm, he⟩ | ⟨c, hc, hm, he⟩ | ⟨hn, he⟩
    · obtain ⟨loc, stmt⟩ := e
      have hcall := hc.1
      dsimp only at hcall
      subst hcall
      have hinlined : inlined t n m.body = splice (fun e => inlined t n [e]) m.body := by
        rw [splice_of_unmarked (ht m (mem_of_find? hm)), flatMap_inlined]
      rw [he, inlined_call hc.2 hm, hinlined, List.singleton_append]
      refine .cons (hrefl _) (List.rel_append ?_ (.cons (hrefl _) .nil))
      exact forall₂_spliceFrom hrefl (fun e _ => ih e) 0 m.body
    · have hstill := still_singleton (not_pending_of_reported e c)
      rw [he, inlined, List.flatMap_singleton, copies, expandElement_undefined hc hm,
        hstill.inlined_eq]
      exact .cons (.inr ⟨c, hc, hm, rfl⟩) .nil
    · rw [he, (still_singleton hn).inlined_eq]
      exact .cons (hrefl e) .nil

theorem UpToUndefined.upToNote (h : UpToUndefined t e e') (limit : Nat) :
    UpToNote e (deepMarked t limit e') := by
  rcases h with rfl | ⟨c, hc, -, rfl⟩
  · rcases not_pending_cases e' with ⟨c, hc⟩ | hn
    · rcases deepMarked_cases t limit e' with hd | ⟨c', hc', hd⟩
      · exact .inl hd
      · cases hc.1.symm.trans hc'
        exact .inr ⟨c, hc, hd⟩
    · rw [deepMarked, reportDeep_still t limit hn]
      exact .inl rfl
  · rw [deepMarked, reportDeep_still t limit (not_pending_of_reported e c)]
    exact .inr ⟨c, hc, rfl⟩

theorem expandAll_inline (ht : Plain t) (limit : Nat) (es : List Element) :
    List.Forall₂ UpToNote (inline t limit es) (expandAll t limit es).1 := by
  rw [expandAll_fst ht]
  refine forall₂_spliceFrom (fun e => .inl rfl) (fun e _ => ?_) 0 es
  rw [List.forall₂_map_right_iff]
  exact (inlineElement_inlined ht limit e).imp fun _ _ h => h.upToNote limit

/-- What a loop of passes that stops early has come to. -/
theorem expandPasses_of_exit (t : MacroTable) (limit : Nat) (hk : k < n)
    (hbefore : ∀ j < k, (expand t (rounds t j es)).2.count ≠ 0)
    (hexit : (expand t (rounds t k es)).2.count = 0) :
    expandPasses t limit n es ds = (rounds t (k + 1) es, ds ++ reports t (k + 1) es) := by
  induction k generalizing n es ds with
  | zero =>
    obtain ⟨n, rfl⟩ := Nat.exists_eq_succ_of_ne_zero (Nat.ne_of_gt hk)
    have hcount : (expand t es).2.count = 0 := hexit
    rw [expandPasses]
    dsimp only
    rw [if_pos hcount, reports, reports, List.append_nil]
    rfl
  | succ k ih =>
    obtain ⟨n, rfl⟩ := Nat.exists_eq_succ_of_ne_zero (Nat.ne_of_gt (Nat.zero_lt_of_lt hk))
    have hcount : (expand t es).2.count ≠ 0 := hbefore 0 (Nat.zero_lt_succ k)
    rw [expandPasses]
    dsimp only
    rw [if_neg hcount, ih (Nat.lt_of_succ_lt_succ hk)
      (fun j hj => hbefore (j + 1) (Nat.succ_lt_succ hj)) hexit, List.append_assoc]
    rfl

theorem tame_inlineElement (ht : Plain t) (n : Nat) : Tame (inlineElement t n) := by
  induction n with
  | zero =>
    intro e he e' he'
    rw [List.mem_singleton.1 he']
    exact he
  | succ n ih =>
    intro e he e' he'
    rw [inlineElement] at he'
    rcases expandable?_cases t e with ⟨c, m, -, hm, hx⟩ | ⟨c, -, -, hx⟩ | ⟨-, hx⟩
    · have hbody := ht m (mem_of_find? hm)
      rw [hx] at he'
      dsimp only at he'
      rw [splice_of_unmarked hbody] at he'
      rcases List.mem_cons.1 he' with rfl | he'
      · rfl
      · rcases List.mem_append.1 he' with he' | he'
        · obtain ⟨a, ha, he'⟩ := List.mem_flatMap.1 he'
          exact ih a (hbody a ha) e' he'
        · rw [List.mem_singleton.1 he']
          rfl
    · rw [hx] at he'
      rw [List.mem_singleton.1 he']
      exact he
    · rw [hx] at he'
      rw [List.mem_singleton.1 he']
      exact he

theorem tooDeepAt_eq (t : MacroTable) (limit : Nat) (e : Element) :
    tooDeepAt t limit e = (tooDeep? t limit e).toList := by
  unfold tooDeepAt reportDeep tooDeep? expandable?
  cases e.stmt with
  | call c =>
    dsimp only
    cases c.isPending with
    | false => rfl
    | true => cases t.find? c.name <;> rfl
  | _ => rfl

theorem UpToUndefined.tooDeep?_eq (h : UpToUndefined t e e') (limit : Nat) :
    tooDeep? t limit e = tooDeep? t limit e' := by
  rcases h with rfl | ⟨c, hc, hm, rfl⟩
  · rfl
  · rw [tooDeep?, expandable?_undefined hc hm, tooDeep?,
      expandable?_still (not_pending_of_reported e c)]

theorem filterMap_tooDeep? (h : List.Forall₂ (UpToUndefined t) es es') (limit : Nat) :
    es.filterMap (tooDeep? t limit) = es'.filterMap (tooDeep? t limit) := by
  induction h with
  | nil => rfl
  | cons h _ ih => rw [List.filterMap_cons, List.filterMap_cons, h.tooDeep?_eq limit, ih]

theorem tooDeep_rounds (ht : Plain t) (limit : Nat) (es : List Element) :
    (outside (rounds t limit es)).flatMap (tooDeepAt t limit) =
      (outside (inline t limit es)).filterMap (tooDeep? t limit) := by
  have hat : tooDeepAt t limit = fun e => (tooDeep? t limit e).toList :=
    funext (tooDeepAt_eq t limit)
  have hinline : outside (inline t limit es) = (outside es).flatMap (inlineElement t limit) :=
    outsideFrom_spliceFrom (tame_inlineElement ht limit) 0 es
  rw [hat, ← List.filterMap_eq_flatMap_toList, outside_rounds ht, ← flatMap_inlined, hinline]
  symm
  apply filterMap_tooDeep?
  have hsame : List.Forall₂ Eq (outside es) (outside es) := List.forall₂_refl _
  refine List.rel_flatMap hsame ?_
  rintro e _ rfl
  exact inlineElement_inlined ht limit e

theorem filter_expandAll (ht : Plain t) (limit : Nat) (es : List Element) :
    (expandAll t limit es).2.filter (·.problem.isTooDeep) =
      (outside (inline t limit es)).filterMap (tooDeep? t limit) := by
  have hreports : (reports t limit es).filter (·.problem.isTooDeep) = [] := by
    rw [List.filter_eq_nil_iff]
    intro d hd
    obtain ⟨q, hq⟩ := problem_of_mem_reports ht hd
    rw [hq]
    exact Bool.false_ne_true
  have hdeep : ((outside (rounds t limit es)).flatMap (tooDeepAt t limit)).filter
      (·.problem.isTooDeep) = (outside (rounds t limit es)).flatMap (tooDeepAt t limit) := by
    rw [List.filter_eq_self]
    intro d hd
    obtain ⟨e, -, hd⟩ := List.mem_flatMap.1 hd
    obtain ⟨c, -, -, rfl⟩ := mem_tooDeepAt.1 hd
    rfl
  rw [expandAll, (expandPasses_eq ht limit limit es []).2, List.nil_append, List.filter_append,
    hreports, hdeep, List.nil_append, tooDeep_rounds ht]

end

/-- Expansion in passes is recursive inlining to the depth of the limit, but for the notes which
calls have been reported. Passes end early only where there is nothing left to expand and further
passes would change nothing, and a call is reported as nested too deeply exactly if inlining leaves
it, once each. -/
theorem expandAll_eq_inline (es : List Element) (limit : Nat) :
    let t := (extract es).1
    List.Forall₂ UpToNote (inline t limit es) (expandAll t limit es).1 ∧
      (∀ k < limit, (expand t (rounds t k es)).2.count = 0 →
        ((∀ j < k, (expand t (rounds t j es)).2.count ≠ 0) →
          expandAll t limit es = (rounds t (k + 1) es, reports t (k + 1) es)) ∧
        (∀ e ∈ outside (rounds t (k + 1) es), expandable? t e = none) ∧
        ∀ n, rounds t n (rounds t (k + 1) es) = rounds t (k + 1) es) ∧
      (expandAll t limit es).2.filter (·.problem.isTooDeep) =
        (outside (inline t limit es)).filterMap (tooDeep? t limit) := by
  intro t
  have ht : Plain t := plain_extract es
  refine ⟨expandAll_inline ht limit es, fun k hk hexit => ?_, filter_expandAll ht limit es⟩
  have hstill : Still (outside (rounds t (k + 1) es)) := by
    rw [rounds_succ]
    exact still_expand ht hexit
  refine ⟨fun hbefore => ?_, fun e he => expandable?_still (hstill e he), rounds_of_still hstill t⟩
  exact expandPasses_of_exit t limit hk hbefore hexit

end Macro
end Z80Asm
