import Z80Asm.Macro
import Z80Asm.Proofs.Traversal

/-! Expansion of macro calls: what one pass does to the elements outside of definitions, and what
passes do one after the other. -/

namespace Z80Asm.Macro
set_option autoImplicit true

structure Extraction.Holds (P : Element → Prop) (s : Extraction) : Prop where
  table : ∀ m ∈ s.table, ∀ e ∈ m.body, P e
  opened : ∀ o, s.opened? = some o → ∀ e ∈ o.body.toList, P e

theorem Extraction.Holds.finish {s : Extraction} (h : s.Holds P)
    (ho : ∀ e ∈ o.body.toList, P e) : (s.finish o).Holds P := by
  unfold Extraction.finish
  dsimp only
  split
  · exact ⟨h.table, nofun⟩
  · split
    · exact ⟨h.table, nofun⟩
    · refine ⟨fun m hm => ?_, nofun⟩
      rcases List.mem_append.1 hm with hm | hm
      · exact h.table m hm
      · rw [List.mem_singleton.1 hm]
        exact ho

theorem Extraction.Holds.step {s : Extraction} (h : s.Holds P)
    (he : Program.isMark e.stmt = false → P e) : (s.step e).Holds P := by
  obtain ⟨loc, stmt⟩ := e
  cases ho : s.opened? with
  | none =>
    unfold Extraction.step
    cases stmt with
    | macroDef name params =>
      simp only [ho]
      refine ⟨h.table, fun o ho e hb => ?_⟩
      cases ho
      cases hb
    | _ =>
      simp only [ho]
      exact ⟨h.table, fun o ho' => h.opened o ho'⟩
  | some o =>
    have hbody := h.opened o ho
    unfold Extraction.step
    cases stmt with
    | macroDef name params =>
      simp only [ho]
      refine ⟨h.table, fun o' ho' => ?_⟩
      cases ho'
      exact hbody
    | endMacro =>
      simp only [ho]
      split
      · exact h.finish hbody
      · refine ⟨h.table, fun o' ho' => ?_⟩
        cases ho'
        exact hbody
    | _ =>
      simp only [ho]
      refine ⟨h.table, fun o' ho' e hmem => ?_⟩
      cases ho'
      rw [Array.toList_push] at hmem
      rcases List.mem_append.1 hmem with hmem | hmem
      · exact hbody e hmem
      · rw [List.mem_singleton.1 hmem]
        exact he rfl

theorem Extraction.Holds.foldl {s : Extraction} {es : List Element} (h : s.Holds P)
    (hes : ∀ e ∈ es, Program.isMark e.stmt = false → P e) :
    (es.foldl Extraction.step s).Holds P := by
  induction es generalizing s with
  | nil => exact h
  | cons e es ih =>
    exact ih (h.step (hes e List.mem_cons_self)) fun a ha => hes a (List.mem_cons_of_mem e ha)

theorem mem_of_mem_body (hm : m ∈ (extract es).1) (he : e ∈ m.body) :
    e ∈ es ∧ Program.isMark e.stmt = false := by
  have hinit : Extraction.Holds (fun e => e ∈ es ∧ Program.isMark e.stmt = false) {} :=
    ⟨fun _ h => (nomatch h), nofun⟩
  have h := hinit.foldl fun e he hk => ⟨he, hk⟩
  unfold extract at hm
  dsimp only at hm
  split at hm
  · exact h.table m hm e he
  · exact h.table m hm e he

/-- No macro body begins or ends a definition. -/
def Plain (t : MacroTable) : Prop := ∀ m ∈ t, ∀ e ∈ m.body, Program.isMark e.stmt = false

theorem plain_extract (es : List Element) : Plain (extract es).1 :=
  fun _ hm _ he => (mem_of_mem_body hm he).2

/-- What a pass puts in the place of an element outside of definitions. -/
def copies (t : MacroTable) (e : Element) : List Element := (expandElement t {} e).1

def undefinedAt (t : MacroTable) (e : Element) : List Diagnostic :=
  (expandElement t {} e).2.diagnostics

def expandedAt (t : MacroTable) (e : Element) : Nat := (expandElement t {} e).2.count

theorem expandElement_eq (t : MacroTable) (s : Expansion) (e : Element) :
    expandElement t s e =
      (copies t e, ⟨s.count + expandedAt t e, s.diagnostics ++ undefinedAt t e⟩) := by
  unfold copies expandedAt undefinedAt expandElement
  split
  · split
    · split
      · rfl
      · simp only [List.append_nil, Nat.zero_add]
    · simp only [List.append_nil, Nat.add_zero]
  · simp only [List.append_nil, Nat.add_zero]

def Awaits (e : Element) (c : MacroCall) : Prop := e.stmt = .call c ∧ c.isPending = true

theorem not_pending_cases (e : Element) :
    (∃ c, Awaits e c) ∨ ∀ c, e.stmt = .call c → c.isPending = false := by
  by_cases h : ∃ c, Awaits e c
  · exact .inl h
  · exact .inr fun c hc => Bool.not_eq_true _ ▸ fun hp => h ⟨c, hc, hp⟩

theorem expandElement_still (t : MacroTable) (h : ∀ c, e.stmt = .call c → c.isPending = false) :
    expandElement t {} e = ([e], {}) := by
  unfold expandElement
  split
  · rename_i c hc
    rw [h c hc]
    rfl
  · rfl

theorem expandElement_undefined (h : Awaits e c) (ht : t.find? c.name = none) :
    expandElement t {} e =
      ([{ e with stmt := .call { c with reported := true } }],
        ⟨0, [⟨.undefinedMacro c.name, e.loc⟩]⟩) := by
  obtain ⟨loc, stmt⟩ := e
  obtain ⟨hc, hp⟩ := h
  cases hc
  simp only [expandElement, hp, ht]
  rfl

theorem expandElement_known (h : Awaits e c) (ht : t.find? c.name = some m) :
    expandElement t {} e =
      ({ e with stmt := .call { c with expanded := true, params := m.params } } ::
          (m.body ++ [⟨e.loc, .endCall c.name ""⟩]), ⟨1, []⟩) := by
  obtain ⟨loc, stmt⟩ := e
  obtain ⟨hc, hp⟩ := h
  cases hc
  simp only [expandElement, hp, ht]
  rfl

theorem mem_copies (h : e' ∈ copies t e) :
    (e' = e ∧ ∀ c, e.stmt = .call c → c.isPending = false) ∨
      (∃ c, Awaits e c ∧ t.find? c.name = none ∧
        e' = { e with stmt := .call { c with reported := true } }) ∨
      ∃ c m, Awaits e c ∧ t.find? c.name = some m ∧
        (e' = { e with stmt := .call { c with expanded := true, params := m.params } } ∨
          e' ∈ m.body ∨ e' = ⟨e.loc, .endCall c.name ""⟩) := by
  unfold copies at h
  rcases not_pending_cases e with ⟨c, hc⟩ | hn
  · cases ht : t.find? c.name with
    | none =>
      rw [expandElement_undefined hc ht] at h
      exact .inr (.inl ⟨c, hc, ht, List.mem_singleton.1 h⟩)
    | some m =>
      rw [expandElement_known hc ht] at h
      refine .inr (.inr ⟨c, m, hc, ht, ?_⟩)
      rcases List.mem_cons.1 h with h | h
      · exact .inl h
      · rcases List.mem_append.1 h with h | h
        · exact .inr (.inl h)
        · exact .inr (.inr (List.mem_singleton.1 h))
  · rw [expandElement_still t hn] at h
    exact .inl ⟨List.mem_singleton.1 h, hn⟩

theorem mem_of_find? {t : MacroTable} {q : String} (h : t.find? q = some m) : m ∈ t :=
  List.mem_of_find?_eq_some h

theorem Plain.unmarked (h : Plain t) : Program.Unmarked (expandElement t) := by
  intro s e he e' h'
  rw [expandElement_eq] at h'
  rcases mem_copies h' with ⟨rfl, -⟩ | ⟨c, -, -, rfl⟩ | ⟨c, m, -, hm, rfl | hb | rfl⟩
  · exact he
  · rfl
  · rfl
  · exact h m (mem_of_find? hm) e' hb
  · rfl

theorem spread_expandElement (t : MacroTable) (s : Expansion) (es : List Element) :
    Program.spread (expandElement t) s es =
      (es.flatMap (copies t),
        ⟨s.count + (es.map (expandedAt t)).sum, s.diagnostics ++ es.flatMap (undefinedAt t)⟩) := by
  induction es generalizing s with
  | nil => simp only [Program.spread, List.flatMap_nil, List.map_nil, List.sum_nil, Nat.add_zero,
      List.append_nil]
  | cons e es ih =>
    rw [Program.spread, expandElement_eq, ih]
    simp only [List.flatMap_cons, List.map_cons, List.sum_cons, Nat.add_assoc, List.append_assoc]

theorem outside_expand (h : Plain t) (es : List Element) :
    Program.outside (expand t es).1 = (Program.outside es).flatMap (copies t) := by
  rw [expand, Program.outside_walk h.unmarked, spread_expandElement]

theorem expand_snd (h : Plain t) (es : List Element) :
    (expand t es).2 =
      ⟨((Program.outside es).map (expandedAt t)).sum,
        (Program.outside es).flatMap (undefinedAt t)⟩ := by
  rw [expand, Program.walk_snd h.unmarked, spread_expandElement]
  simp only [Nat.zero_add, List.nil_append]

/-- The program after a number of passes. -/
def rounds (t : MacroTable) : Nat → List Element → List Element
  | 0, es => es
  | n + 1, es => rounds t n (expand t es).1

def reports (t : MacroTable) : Nat → List Element → List Diagnostic
  | 0, _ => []
  | n + 1, es => (expand t es).2.diagnostics ++ reports t n (expand t es).1

theorem rounds_succ (t : MacroTable) (n : Nat) (es : List Element) :
    rounds t (n + 1) es = (expand t (rounds t n es)).1 := by
  induction n generalizing es with
  | zero => rfl
  | succ n ih => exact ih (expand t es).1

theorem reports_succ (t : MacroTable) (n : Nat) (es : List Element) :
    reports t (n + 1) es = reports t n es ++ (expand t (rounds t n es)).2.diagnostics := by
  induction n generalizing es with
  | zero => exact List.append_nil _
  | succ n ih =>
    rw [reports, ih, reports, List.append_assoc]
    rfl

/-- An element after a call that a further pass would expand has been reported. -/
def deepMarked (t : MacroTable) (limit : Nat) (e : Element) : Element :=
  { e with stmt := (reportDeep t limit [] e).1 }

def tooDeepAt (t : MacroTable) (limit : Nat) (e : Element) : List Diagnostic :=
  (reportDeep t limit [] e).2

theorem reportDeep_eq (t : MacroTable) (limit : Nat) (ds : List Diagnostic) (e : Element) :
    reportDeep t limit ds e = ((deepMarked t limit e).stmt, ds ++ tooDeepAt t limit e) := by
  unfold deepMarked tooDeepAt reportDeep
  split
  · split
    · rfl
    · simp only [List.append_nil]
  · simp only [List.append_nil]

theorem thread_reportDeep (t : MacroTable) (limit : Nat) (ds : List Diagnostic)
    (es : List Element) :
    Program.thread (reportDeep t limit) ds es =
      (es.map (deepMarked t limit), ds ++ es.flatMap (tooDeepAt t limit)) := by
  induction es generalizing ds with
  | nil => simp only [Program.thread, List.map_nil, List.flatMap_nil, List.append_nil]
  | cons e es ih =>
    rw [Program.thread, reportDeep_eq, ih]
    simp only [List.map_cons, List.flatMap_cons, List.append_assoc]
    rfl

theorem reportDeep_inert (t : MacroTable) (limit : Nat) : Program.Inert (reportDeep t limit) := by
  intro ds e he
  unfold reportDeep
  split
  · split
    · rfl
    · exact he
  · exact he

/-- There is no call left that a pass would look at. -/
def Still (es : List Element) : Prop := ∀ e ∈ es, ∀ c, e.stmt = .call c → c.isPending = false

theorem Still.copies_eq (h : Still es) (t : MacroTable) : es.flatMap (copies t) = es := by
  induction es with
  | nil => rfl
  | cons e es ih =>
    rw [List.flatMap_cons, ih fun a ha => h a (List.mem_cons_of_mem e ha), copies,
      expandElement_still t (h e List.mem_cons_self)]
    rfl

theorem Still.undefined_eq (h : Still es) (t : MacroTable) : es.flatMap (undefinedAt t) = [] :=
  List.flatMap_eq_nil_iff.2 fun e he => by rw [undefinedAt, expandElement_still t (h e he)]

theorem reportDeep_still (t : MacroTable) (limit : Nat)
    (h : ∀ c, e.stmt = .call c → c.isPending = false) :
    reportDeep t limit [] e = (e.stmt, []) := by
  unfold reportDeep
  split
  · rename_i c hc
    rw [h c hc, hc]
    rfl
  · rfl

theorem Still.deepMarked_eq (h : Still es) (t : MacroTable) (limit : Nat) :
    es.map (deepMarked t limit) = es := by
  conv => rhs; rw [← List.map_id es]
  apply List.map_congr_left
  intro e he
  rw [deepMarked, reportDeep_still t limit (h e he)]
  rfl

theorem Still.tooDeep_eq (h : Still es) (t : MacroTable) (limit : Nat) :
    es.flatMap (tooDeepAt t limit) = [] :=
  List.flatMap_eq_nil_iff.2 fun e he => by rw [tooDeepAt, reportDeep_still t limit (h e he)]

theorem still_copies {es : List Element} (h : (es.map (expandedAt t)).sum = 0) :
    Still (es.flatMap (copies t)) := by
  intro e' he' c' hc'
  obtain ⟨e, he, hcopy⟩ := List.mem_flatMap.1 he'
  rcases mem_copies hcopy with ⟨rfl, hn⟩ | ⟨c, hc, -, rfl⟩ | ⟨c, m, hc, hm, -⟩
  · exact hn c' hc'
  · cases hc'
    exact Bool.and_false _
  · have hzero := List.sum_eq_zero_iff_forall_eq_nat.1 h _ (List.mem_map_of_mem he)
    rw [expandedAt, expandElement_known hc hm] at hzero
    cases hzero

theorem still_expand (ht : Plain t) (h : (expand t es).2.count = 0) :
    Still (Program.outside (expand t es).1) := by
  rw [expand_snd ht] at h
  rw [outside_expand ht]
  exact still_copies h

theorem Still.rounds (h : Still (Program.outside es)) (ht : Plain t) (n : Nat) :
    Program.outside (rounds t n es) = Program.outside es ∧ reports t n es = [] := by
  induction n with
  | zero => exact ⟨rfl, rfl⟩
  | succ n ih =>
    obtain ⟨ho, hr⟩ := ih
    rw [rounds_succ, reports_succ, outside_expand ht, expand_snd ht, ho, hr]
    exact ⟨h.copies_eq t, h.undefined_eq t⟩

/-- Stopping early makes no difference: the passes that are left out would change nothing. -/
theorem expandPasses_eq (ht : Plain t) (limit n : Nat) (es : List Element)
    (ds : List Diagnostic) :
    Program.outside (expandPasses t limit n es ds).1 =
        (Program.outside (rounds t n es)).map (deepMarked t limit) ∧
      (expandPasses t limit n es ds).2 =
        ds ++ reports t n es ++ (Program.outside (rounds t n es)).flatMap (tooDeepAt t limit) := by
  induction n generalizing es ds with
  | zero =>
    rw [expandPasses, Program.outside_update (reportDeep_inert t limit),
      Program.update_snd (reportDeep_inert t limit), thread_reportDeep, reports, List.append_nil]
    exact ⟨rfl, rfl⟩
  | succ n ih =>
    rw [expandPasses, rounds, reports]
    dsimp only
    split
    · rename_i hcount
      have hstill := still_expand ht hcount
      obtain ⟨ho, hr⟩ := hstill.rounds ht n
      rw [ho, hr, hstill.deepMarked_eq, hstill.tooDeep_eq, List.append_nil, List.append_nil]
      exact ⟨rfl, rfl⟩
    · rw [← List.append_assoc]
      exact ih _ _

/-- What holds of the elements of a program, whatever its calls are marked with, holds after
expansion. -/
theorem rounds_forall (ht : Plain t) {P : Element → Prop}
    (hes : ∀ e ∈ Program.outside es, P e) (hbody : ∀ m ∈ t, ∀ e ∈ m.body, P e)
    (hcall : ∀ loc c c', c'.args = c.args → P ⟨loc, .call c⟩ → P ⟨loc, .call c'⟩)
    (hend : ∀ loc name scope, P ⟨loc, .endCall name scope⟩)
    (n : Nat) : ∀ e ∈ Program.outside (rounds t n es), P e := by
  induction n with
  | zero => exact hes
  | succ n ih =>
    rw [rounds_succ, outside_expand ht]
    intro e' he'
    obtain ⟨e, he, hcopy⟩ := List.mem_flatMap.1 he'
    have hmarked (c c' : MacroCall) (hc : Awaits e c) (hargs : c'.args = c.args) :
        P { e with stmt := .call c' } := by
      obtain ⟨loc, stmt⟩ := e
      cases hc.1
      exact hcall loc c c' hargs (ih _ he)
    rcases mem_copies hcopy with ⟨rfl, -⟩ | ⟨c, hc, -, rfl⟩ | ⟨c, m, hc, hm, rfl | hb | rfl⟩
    · exact ih e' he
    · exact hmarked c _ hc rfl
    · exact hmarked c _ hc rfl
    · exact hbody m (mem_of_find? hm) e' hb
    · exact hend _ _ _

theorem deepMarked_cases (t : MacroTable) (limit : Nat) (e : Element) :
    deepMarked t limit e = e ∨
      ∃ c, e.stmt = .call c ∧
        deepMarked t limit e = { e with stmt := .call { c with reported := true } } := by
  unfold deepMarked reportDeep
  split
  · rename_i c hc
    split
    · exact .inr ⟨c, hc, rfl⟩
    · exact .inl rfl
  · exact .inl rfl

theorem expandAll_forall (ht : Plain t) {P : Element → Prop}
    (hes : ∀ e ∈ Program.outside es, P e) (hbody : ∀ m ∈ t, ∀ e ∈ m.body, P e)
    (hcall : ∀ loc c c', c'.args = c.args → P ⟨loc, .call c⟩ → P ⟨loc, .call c'⟩)
    (hend : ∀ loc name scope, P ⟨loc, .endCall name scope⟩)
    (limit : Nat) : ∀ e ∈ Program.outside (expandAll t limit es).1, P e := by
  intro e he
  rw [expandAll, (expandPasses_eq ht limit limit es []).1] at he
  obtain ⟨e₀, he₀, rfl⟩ := List.mem_map.1 he
  have h₀ := rounds_forall ht hes hbody hcall hend limit e₀ he₀
  rcases deepMarked_cases t limit e₀ with hd | ⟨c, hc, hd⟩
  · rw [hd]
    exact h₀
  · rw [hd]
    obtain ⟨loc, stmt⟩ := e₀
    cases hc
    exact hcall loc c _ rfl h₀

end Z80Asm.Macro
