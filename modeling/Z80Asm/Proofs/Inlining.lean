import Z80Asm.Proofs.Expansion

/-! A macro call and the block that it stands for. Writing the block in the place of the call leaves
the macros of a program as they are, and both are expanded to the same body. -/

namespace Z80Asm
set_option autoImplicit true

namespace Program

def depthBehind (depth : Nat) (es : List Element) : Nat :=
  es.foldl (fun depth e => depthAfter depth e.stmt) depth

theorem outsideFrom_append_behind (depth : Nat) (es es' : List Element) :
    outsideFrom depth (es ++ es') =
      outsideFrom depth es ++ outsideFrom (depthBehind depth es) es' := by
  induction es generalizing depth with
  | nil => rfl
  | cons e es ih =>
    rw [List.cons_append, outsideFrom, outsideFrom]
    by_cases hd : inDefinition depth e.stmt = true
    · rw [if_pos hd, if_pos hd, ih]
      rfl
    · obtain ⟨rfl, hm⟩ := of_not_inDefinition hd
      have hafter : depthAfter 0 e.stmt = 0 := by
        cases hs : e.stmt with
        | macroDef =>
          rw [hs] at hm
          cases hm
        | _ => rfl
      rw [if_neg hd, if_neg hd, ih, List.cons_append]
      congr 3
      rw [depthBehind, depthBehind, List.foldl_cons, hafter]

theorem outside_middle {mid : List Element} (hpre : depthBehind 0 pre = 0)
    (hmid : ∀ e ∈ mid, isMark e.stmt = false) (post : List Element) :
    outside (pre ++ (mid ++ post)) = outside pre ++ (mid ++ outside post) := by
  rw [outside, outsideFrom_append_behind, hpre, outsideFrom_append hmid]
  rfl

theorem outside_of_unmarked {es : List Element} (h : ∀ e ∈ es, isMark e.stmt = false) :
    outside es = es := by
  have happend := outsideFrom_append h []
  rw [List.append_nil] at happend
  rw [outside, happend]
  exact List.append_nil es

end Program

namespace Macro

def Extraction.depth (s : Extraction) : Nat := s.opened?.elim 0 fun o => o.inner + 1

theorem Extraction.depth_step (s : Extraction) (e : Element) :
    (s.step e).depth = Program.depthAfter s.depth e.stmt := by
  obtain ⟨table, diagnostics, opened?⟩ := s
  obtain ⟨loc, stmt⟩ := e
  cases opened? with
  | none =>
    cases stmt <;> rfl
  | some o =>
    cases stmt with
    | endMacro =>
      obtain ⟨name, params, oloc, body, inner, nests⟩ := o
      cases inner with
      | zero =>
        change (Extraction.finish _ _).depth = 0
        unfold finish
        dsimp only
        split
        · rfl
        · split
          · rfl
          · rfl
      | succ inner => rfl
    | _ => rfl

theorem Extraction.depth_foldl (s : Extraction) (es : List Element) :
    (es.foldl Extraction.step s).depth = Program.depthBehind s.depth es := by
  induction es generalizing s with
  | nil => rfl
  | cons e es ih =>
    rw [List.foldl_cons, ih, s.depth_step]
    rfl

theorem Extraction.foldl_unmarked {s : Extraction} {es : List Element} (hs : s.depth = 0)
    (h : ∀ e ∈ es, Program.isMark e.stmt = false) : es.foldl Extraction.step s = s := by
  induction es with
  | nil => rfl
  | cons e es ih =>
    have hstep : s.step e = s := by
      obtain ⟨table, diagnostics, opened?⟩ := s
      cases opened? with
      | some o => cases hs
      | none =>
        obtain ⟨loc, stmt⟩ := e
        have hm := h _ List.mem_cons_self
        cases stmt with
        | macroDef => cases hm
        | endMacro => cases hm
        | _ => rfl
    rw [List.foldl_cons, hstep]
    exact ih fun a ha => h a (List.mem_cons_of_mem e ha)

/-- Elements that begin and end no definition do not matter to the macros of a program, if they are
outside of all definitions. -/
theorem extract_middle {mid : List Element} (hpre : Program.depthBehind 0 pre = 0)
    (hmid : ∀ e ∈ mid, Program.isMark e.stmt = false) (post : List Element) :
    extract (pre ++ (mid ++ post)) = extract (pre ++ post) := by
  have hfold : (pre ++ (mid ++ post)).foldl Extraction.step {} =
      (pre ++ post).foldl Extraction.step {} := by
    rw [List.foldl_append, List.foldl_append, List.foldl_append, Extraction.foldl_unmarked _ hmid]
    rw [Extraction.depth_foldl]
    exact hpre
  unfold extract
  rw [hfold]

/-- The elements outside of definitions after a number of passes. -/
def inlined (t : MacroTable) : Nat → List Element → List Element
  | 0, es => es
  | n + 1, es => inlined t n (es.flatMap (copies t))

def undefinedWithin (t : MacroTable) : Nat → List Element → List Diagnostic
  | 0, _ => []
  | n + 1, es => es.flatMap (undefinedAt t) ++ undefinedWithin t n (es.flatMap (copies t))

section
variable {t : MacroTable}

theorem outside_rounds (ht : Plain t) (n : Nat) (es : List Element) :
    Program.outside (rounds t n es) = inlined t n (Program.outside es) := by
  induction n generalizing es with
  | zero => rfl
  | succ n ih => rw [rounds, ih, outside_expand ht, inlined]

theorem reports_eq (ht : Plain t) (n : Nat) (es : List Element) :
    reports t n es = undefinedWithin t n (Program.outside es) := by
  induction n generalizing es with
  | zero => rfl
  | succ n ih => rw [reports, ih, outside_expand ht, expand_snd ht, undefinedWithin]

theorem inlined_append (n : Nat) (es es' : List Element) :
    inlined t n (es ++ es') = inlined t n es ++ inlined t n es' := by
  induction n generalizing es es' with
  | zero => rfl
  | succ n ih => rw [inlined, List.flatMap_append, ih, inlined, inlined]

theorem inlined_succ (n : Nat) (es : List Element) :
    inlined t (n + 1) es = (inlined t n es).flatMap (copies t) := by
  induction n generalizing es with
  | zero => rfl
  | succ n ih => rw [inlined, ih, inlined]

theorem undefinedWithin_append (n : Nat) (es es' : List Element) :
    undefinedWithin t n (es ++ es') = [] ↔
      undefinedWithin t n es = [] ∧ undefinedWithin t n es' = [] := by
  induction n generalizing es es' with
  | zero => exact ⟨fun _ => ⟨rfl, rfl⟩, fun _ => rfl⟩
  | succ n ih =>
    simp only [undefinedWithin, List.flatMap_append, List.append_eq_nil_iff, ih]
    exact and_and_and_comm

theorem undefinedWithin_succ (n : Nat) (es : List Element) :
    undefinedWithin t (n + 1) es =
      undefinedWithin t n es ++ (inlined t n es).flatMap (undefinedAt t) := by
  induction n generalizing es with
  | zero => exact List.append_nil _
  | succ n ih => rw [undefinedWithin, ih, undefinedWithin, List.append_assoc, inlined]

theorem Still.inlined_eq (h : Still es) (n : Nat) : inlined t n es = es := by
  induction n with
  | zero => rfl
  | succ n ih => rw [inlined, h.copies_eq t, ih]

theorem Still.undefinedWithin_eq (h : Still es) (n : Nat) : undefinedWithin t n es = [] := by
  induction n with
  | zero => rfl
  | succ n ih => rw [undefinedWithin, h.copies_eq t, h.undefined_eq t, ih]; rfl

def Unexpandable (t : MacroTable) (es : List Element) : Prop := ∀ e ∈ es, expandedAt t e = 0

theorem Unexpandable.still (h : Unexpandable t es) : Still (es.flatMap (copies t)) := by
  apply still_copies
  rw [List.sum_eq_zero_iff_forall_eq_nat]
  intro n hn
  obtain ⟨e, he, rfl⟩ := List.mem_map.1 hn
  exact h e he

theorem Still.unexpandable (h : Still es) (t : MacroTable) : Unexpandable t es := by
  intro e he
  rw [expandedAt, expandElement_still t (h e he)]

theorem Unexpandable.append :
    Unexpandable t (es ++ es') ↔ Unexpandable t es ∧ Unexpandable t es' := by
  unfold Unexpandable
  simp only [List.mem_append, or_imp, forall_and]

/-- Expansion that ends before the limit is a number of plain passes. -/
theorem expandAll_of_unexpandable (ht : Plain t)
    (h : Unexpandable t (inlined t n (Program.outside es))) :
    Program.outside (expandAll t (n + 1) es).1 = inlined t (n + 1) (Program.outside es) ∧
      (expandAll t (n + 1) es).2 = undefinedWithin t (n + 1) (Program.outside es) := by
  have hstill : Still (inlined t (n + 1) (Program.outside es)) := by
    rw [inlined_succ]
    exact h.still
  obtain ⟨hout, hds⟩ := expandPasses_eq ht (n + 1) (n + 1) es []
  rw [outside_rounds ht] at hout hds
  rw [hstill.deepMarked_eq] at hout
  rw [hstill.tooDeep_eq, reports_eq ht, List.append_nil, List.nil_append] at hds
  exact ⟨hout, hds⟩

end

/-- The labels and values that give parameters their arguments. -/
def bindings (loc : Location) (params : List String) (args : List Value) : List Element :=
  (params.zip args).flatMap fun p => [⟨loc, .label { name := p.1 }⟩, ⟨loc, .equ p.2⟩]

def asBlock (m : Macro) (loc : Location) (args : List Value) : List Element :=
  [⟨loc, .block ""⟩] ++ (bindings loc m.params args ++ (m.body ++ [⟨loc, .endBlock ""⟩]))

/-- The calls of a program are nested less than `limit` levels deep: there is nothing left for the
last pass to expand. -/
def NestsBelow (t : MacroTable) (limit : Nat) (es : List Element) : Prop :=
  (expand t (rounds t (limit - 1) es)).2.count = 0

section
variable {loc : Location} {params : List String} {args : List Value}

theorem mem_bindings (h : e ∈ bindings loc params args) :
    (∃ p ∈ params, e = ⟨loc, .label { name := p }⟩) ∨ ∃ a ∈ args, e = ⟨loc, .equ a⟩ := by
  obtain ⟨p, hp, he⟩ := List.mem_flatMap.1 h
  obtain ⟨hparam, harg⟩ := List.of_mem_zip hp
  rcases List.mem_cons.1 he with he | he
  · exact .inl ⟨p.1, hparam, he⟩
  · exact .inr ⟨p.2, harg, List.mem_singleton.1 he⟩

theorem bindings_not_call (h : e ∈ bindings loc params args) (c : MacroCall) :
    e.stmt ≠ .call c := by
  rcases mem_bindings h with ⟨p, -, rfl⟩ | ⟨a, -, rfl⟩
  · exact nofun
  · exact nofun

theorem still_bindings (loc : Location) (params : List String) (args : List Value) :
    Still (bindings loc params args) :=
  fun _ he c hc => (bindings_not_call he c hc).elim

end

theorem still_singleton (h : ∀ c, e.stmt = .call c → c.isPending = false) : Still [e] := by
  intro a ha
  rw [List.mem_singleton.1 ha]
  exact h

theorem unmarked_asBlock (hm : ∀ e ∈ m.body, Program.isMark e.stmt = false) (loc : Location)
    (args : List Value) : ∀ e ∈ asBlock m loc args, Program.isMark e.stmt = false := by
  intro e he
  rcases List.mem_append.1 he with he | he
  · rw [List.mem_singleton.1 he]
    rfl
  · rcases List.mem_append.1 he with he | he
    · rcases mem_bindings he with ⟨p, -, rfl⟩ | ⟨a, -, rfl⟩
      · rfl
      · rfl
    · rcases List.mem_append.1 he with he | he
      · exact hm e he
      · rw [List.mem_singleton.1 he]
        rfl

theorem unmarked_call (loc : Location) (c : MacroCall) :
    ∀ e ∈ [(⟨loc, .call c⟩ : Element)], Program.isMark e.stmt = false := by
  intro e he
  rw [List.mem_singleton.1 he]
  rfl

def expandedCall (m : Macro) (c : MacroCall) : MacroCall :=
  { c with expanded := true, params := m.params }

section
variable {t : MacroTable} {pre post : List Element} {loc : Location} {c : MacroCall} {m : Macro}

theorem copies_call (hc : c.isPending = true) (hm : t.find? c.name = some m) :
    copies t ⟨loc, .call c⟩ =
      [⟨loc, .call (m.expandedCall c)⟩] ++ (m.body ++ [⟨loc, .endCall c.name ""⟩]) := by
  rw [copies, expandElement_known ⟨rfl, hc⟩ hm]
  rfl

theorem still_expandedCall (loc : Location) (m : Macro) (c : MacroCall) :
    Still [⟨loc, .call (m.expandedCall c)⟩] := by
  apply still_singleton
  intro c' hc'
  cases hc'
  rfl

theorem still_endCall (loc : Location) (name scope : String) :
    Still [⟨loc, .endCall name scope⟩] :=
  still_singleton nofun

theorem inlined_call (hc : c.isPending = true) (hm : t.find? c.name = some m) (n : Nat) :
    inlined t (n + 1) [⟨loc, .call c⟩] =
      [⟨loc, .call (m.expandedCall c)⟩] ++
        (inlined t n m.body ++ [⟨loc, .endCall c.name ""⟩]) := by
  rw [inlined, List.flatMap_singleton, copies_call hc hm, inlined_append, inlined_append,
    (still_expandedCall loc m c).inlined_eq, (still_endCall loc c.name "").inlined_eq]

theorem undefinedWithin_call (hc : c.isPending = true) (hm : t.find? c.name = some m) (n : Nat) :
    undefinedWithin t (n + 1) [⟨loc, .call c⟩] = [] ↔ undefinedWithin t n m.body = [] := by
  have hknown : undefinedAt t ⟨loc, .call c⟩ = [] := by
    rw [undefinedAt, expandElement_known ⟨rfl, hc⟩ hm]
  rw [undefinedWithin, List.flatMap_singleton, List.flatMap_singleton, hknown, List.nil_append,
    copies_call hc hm, undefinedWithin_append, undefinedWithin_append,
    (still_expandedCall loc m c).undefinedWithin_eq,
    (still_endCall loc c.name "").undefinedWithin_eq]
  simp only [true_and, and_true]

theorem still_block (loc : Location) (scope : String) : Still [⟨loc, .block scope⟩] :=
  still_singleton nofun

theorem still_endBlock (loc : Location) (scope : String) : Still [⟨loc, .endBlock scope⟩] :=
  still_singleton nofun

theorem inlined_asBlock (n : Nat) (args : List Value) :
    inlined t n (asBlock m loc args) =
      [⟨loc, .block ""⟩] ++
        (bindings loc m.params args ++ (inlined t n m.body ++ [⟨loc, .endBlock ""⟩])) := by
  rw [asBlock, inlined_append, inlined_append, inlined_append, (still_block loc "").inlined_eq,
    (still_endBlock loc "").inlined_eq, (still_bindings _ _ _).inlined_eq]

theorem undefinedWithin_asBlock (n : Nat) (args : List Value) :
    undefinedWithin t n (asBlock m loc args) = [] ↔ undefinedWithin t n m.body = [] := by
  rw [asBlock, undefinedWithin_append, undefinedWithin_append, undefinedWithin_append,
    (still_block loc "").undefinedWithin_eq, (still_endBlock loc "").undefinedWithin_eq,
    (still_bindings _ _ _).undefinedWithin_eq]
  simp only [true_and, and_true]

/-- Where a call is expanded below the limit, so is all around it, and two passes are needed at
least. -/
theorem NestsBelow.parts (h : NestsBelow t limit (pre ++ ([⟨loc, .call c⟩] ++ post)))
    (ht : Plain t) (hpre : Program.depthBehind 0 pre = 0) (hc : c.isPending = true)
    (hm : t.find? c.name = some m) :
    ∃ n, limit = n + 2 ∧ Unexpandable t (inlined t (n + 1) (Program.outside pre)) ∧
      Unexpandable t (inlined t n m.body) ∧
      Unexpandable t (inlined t (n + 1) (Program.outside post)) := by
  have houtside := Program.outside_middle hpre (unmarked_call loc c) post
  have hnone : Unexpandable t (inlined t (limit - 1)
      (Program.outside pre ++ ([⟨loc, .call c⟩] ++ Program.outside post))) := by
    rw [← houtside, ← outside_rounds ht]
    unfold NestsBelow at h
    rw [expand_snd ht] at h
    intro e he
    exact List.sum_eq_zero_iff_forall_eq_nat.1 h _ (List.mem_map_of_mem he)
  rw [inlined_append, inlined_append, Unexpandable.append, Unexpandable.append] at hnone
  obtain ⟨hpre', hcall, hpost'⟩ := hnone
  generalize hlimit : limit - 1 = passes at hpre' hcall hpost'
  cases passes with
  | zero =>
    have hone := hcall _ (List.mem_singleton_self _)
    rw [expandedAt, expandElement_known ⟨rfl, hc⟩ hm] at hone
    cases hone
  | succ n =>
    rw [inlined_call hc hm, Unexpandable.append, Unexpandable.append] at hcall
    exact ⟨n, by omega, hpre', hcall.2.1, hpost'⟩

theorem Unexpandable.around_call (hm : t.find? c.name = some m) (hc : c.isPending = true)
    (hpre : Program.depthBehind 0 pre = 0)
    (hfront : Unexpandable t (inlined t (n + 1) (Program.outside pre)))
    (hbody : Unexpandable t (inlined t n m.body))
    (hback : Unexpandable t (inlined t (n + 1) (Program.outside post))) :
    Unexpandable t (inlined t (n + 1)
      (Program.outside (pre ++ ([⟨loc, .call c⟩] ++ post)))) := by
  rw [Program.outside_middle hpre (unmarked_call loc c) post, inlined_append, inlined_append,
    inlined_call hc hm]
  simp only [Unexpandable.append]
  exact ⟨hfront, ⟨(still_expandedCall loc m c).unexpandable t, hbody,
    (still_endCall loc c.name "").unexpandable t⟩, hback⟩

theorem Unexpandable.around_block (hm : ∀ e ∈ m.body, Program.isMark e.stmt = false)
    (hpre : Program.depthBehind 0 pre = 0) (args : List Value)
    (hfront : Unexpandable t (inlined t (n + 1) (Program.outside pre)))
    (hbody : Unexpandable t (inlined t (n + 1) m.body))
    (hback : Unexpandable t (inlined t (n + 1) (Program.outside post))) :
    Unexpandable t (inlined t (n + 1)
      (Program.outside (pre ++ (asBlock m loc args ++ post)))) := by
  rw [Program.outside_middle hpre (unmarked_asBlock hm loc args) post, inlined_append,
    inlined_append, inlined_asBlock]
  simp only [Unexpandable.append]
  exact ⟨hfront, ⟨(still_block loc "").unexpandable t, (still_bindings _ _ _).unexpandable t,
    hbody, (still_endBlock loc "").unexpandable t⟩, hback⟩

/-- A program with a call and one with the block instead, expanded: they differ in how the body
begins and ends, and if one has problems so does the other. -/
theorem expandAll_asBlock (h : NestsBelow t limit (pre ++ ([⟨loc, .call c⟩] ++ post)))
    (ht : Plain t) (hpre : Program.depthBehind 0 pre = 0) (hc : c.isPending = true)
    (hm : t.find? c.name = some m) (args : List Value) :
    let front := Program.outside (expandAll t limit pre).1
    let body := Program.outside (expandAll t limit m.body).1
    let back := Program.outside (expandAll t limit post).1
    Program.outside (expandAll t limit (pre ++ ([⟨loc, .call c⟩] ++ post))).1 =
        front ++ ([⟨loc, .call (m.expandedCall c)⟩] ++
          (body ++ ([⟨loc, .endCall c.name ""⟩] ++ back))) ∧
      Program.outside (expandAll t limit (pre ++ (asBlock m loc args ++ post))).1 =
        front ++ ([⟨loc, .block ""⟩] ++ (bindings loc m.params args ++
          (body ++ ([⟨loc, .endBlock ""⟩] ++ back)))) ∧
      ((expandAll t limit (pre ++ (asBlock m loc args ++ post))).2 = [] ↔
        (expandAll t limit (pre ++ ([⟨loc, .call c⟩] ++ post))).2 = []) := by
  intro front body back
  obtain ⟨n, rfl, hfront, hbody, hback⟩ := h.parts ht hpre hc hm
  have hunmarked : ∀ e ∈ m.body, Program.isMark e.stmt = false := ht m (mem_of_find? hm)
  have hstill : Still (inlined t (n + 1) m.body) := by
    rw [inlined_succ]
    exact hbody.still
  have hlast : inlined t (n + 2) m.body = inlined t (n + 1) m.body := by
    rw [inlined_succ, hstill.copies_eq t]
  have hcall := Program.outside_middle hpre (unmarked_call loc c) post
  have hblock := Program.outside_middle hpre (unmarked_asBlock hunmarked loc args) post
  have hbody' : Unexpandable t (inlined t (n + 1) (Program.outside m.body)) := by
    rw [Program.outside_of_unmarked hunmarked]
    exact hstill.unexpandable t
  obtain ⟨hcallOut, hcallDs⟩ :=
    expandAll_of_unexpandable ht (.around_call hm hc hpre hfront hbody hback)
  obtain ⟨hblockOut, hblockDs⟩ := expandAll_of_unexpandable ht
    (.around_block hunmarked hpre args hfront (hstill.unexpandable t) hback)
  have hfrontOut : front = _ := (expandAll_of_unexpandable ht hfront).1
  have hbodyOut : body = _ := (expandAll_of_unexpandable ht hbody').1
  have hbackOut : back = _ := (expandAll_of_unexpandable ht hback).1
  rw [Program.outside_of_unmarked hunmarked] at hbodyOut
  refine ⟨?_, ?_, ?_⟩
  · rw [hcallOut, hcall, inlined_append, inlined_append, inlined_call hc hm, hfrontOut, hbodyOut,
      hbackOut, hlast]
    simp only [List.append_assoc]
  · rw [hblockOut, hblock, inlined_append, inlined_append, inlined_asBlock, hfrontOut, hbodyOut,
      hbackOut]
    simp only [List.append_assoc]
  · have hquiet : undefinedWithin t (n + 2) m.body = undefinedWithin t (n + 1) m.body := by
      rw [undefinedWithin_succ, hstill.undefined_eq t, List.append_nil]
    rw [hcallDs, hblockDs, hcall, hblock, undefinedWithin_append, undefinedWithin_append,
      undefinedWithin_append, undefinedWithin_append, undefinedWithin_asBlock,
      undefinedWithin_call hc hm, hquiet]

end
end Macro
end Z80Asm
