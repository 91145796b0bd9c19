import Z80Asm.Assembly
import Z80Asm.Proofs.EarlyValues
import Z80Asm.Proofs.Expansion
import Z80Asm.Proofs.Patching

/-! What becomes of macro calls: each is expanded or reported, except those of undefined macros
that the last pass of expansion inserts. -/

namespace Z80Asm
set_option autoImplicit true

namespace Program

/-- The name and place of a call that has not been expanded. -/
def openCall? (e : Element) : Option (String × Location) :=
  match e.stmt with
  | .call c => if c.expanded then none else some (c.name, e.loc)
  | _ => none

def openCalls (es : List Element) : List (String × Location) := (outside es).filterMap openCall?

theorem openCall?_eq_some :
    openCall? e = some (q, loc) ↔
      ∃ c, e.stmt = .call c ∧ c.expanded = false ∧ c.name = q ∧ e.loc = loc := by
  unfold openCall?
  cases e.stmt with
  | call c => cases hx : c.expanded <;> simp [hx]
  | _ => simp

theorem mem_openCalls :
    (q, loc) ∈ openCalls es ↔
      ∃ e ∈ outside es, ∃ c, e.stmt = .call c ∧ c.expanded = false ∧ c.name = q ∧ e.loc = loc := by
  unfold openCalls
  rw [List.mem_filterMap]
  simp only [openCall?_eq_some]

theorem filterMap_thread {f : σ → Element → Statement × σ} {g : Element → Option α}
    (h : ∀ s e, g { e with stmt := (f s e).1 } = g e) (s : σ) (es : List Element) :
    (thread f s es).1.filterMap g = es.filterMap g := by
  induction es generalizing s with
  | nil => rfl
  | cons e es ih => rw [thread, List.filterMap_cons, List.filterMap_cons, h, ih]

theorem openCalls_update {f : σ → Element → Statement × σ} (hf : Inert f)
    (h : ∀ s e, openCall? { e with stmt := (f s e).1 } = openCall? e) (s : σ)
    (es : List Element) : openCalls (update f s es).1 = openCalls es := by
  rw [openCalls, outside_update hf, filterMap_thread h]
  rfl

theorem openCall?_alike (h : Alike e.stmt stmt) : openCall? { e with stmt } = openCall? e := by
  obtain ⟨loc, stmt₀⟩ := e
  cases h <;> rfl

theorem openCalls_of_alike {f : σ → Element → Statement × σ}
    (h : ∀ s e, Alike e.stmt (f s e).1) (s : σ) (es : List Element) :
    openCalls (update f s es).1 = openCalls es :=
  openCalls_update (inert_of_alike h) (fun s e => openCall?_alike (h s e)) s es

end Program

theorem Declarations.openCalls_collect (es : List Element) :
    Program.openCalls (collect es).program = Program.openCalls es := by
  refine Program.openCalls_update State.step_inert (fun s e => ?_) {} es
  obtain ⟨loc, stmt⟩ := e
  cases stmt with
  | call c =>
    unfold State.step
    cases hx : c.expanded with
    | false => simp only [hx, Bool.false_eq_true, ↓reduceIte]
    | true =>
      simp only [hx, ↓reduceIte, Program.openCall?]
      rw [if_pos]
      exact hx
  | _ => rfl

theorem Layout.openCalls_assign (es : List Element) (t : SymbolTable) :
    Program.openCalls (assign es t).program = Program.openCalls es :=
  Program.openCalls_of_alike State.step_alike { table := t } es

theorem Patch.openCalls_patch (es : List Element) (t : SymbolTable) :
    Program.openCalls (patch es t).program = Program.openCalls es :=
  Program.openCalls_of_alike State.step_alike { memo := ⟨t, []⟩ } es

namespace Macro

theorem mem_undefinedAt :
    d ∈ undefinedAt t e ↔
      ∃ c, Awaits e c ∧ t.find? c.name = none ∧ d = ⟨.undefinedMacro c.name, e.loc⟩ := by
  unfold undefinedAt
  constructor
  · intro hd
    rcases not_pending_cases e with ⟨c, hc⟩ | hn
    · cases ht : t.find? c.name with
      | none =>
        rw [expandElement_undefined hc ht] at hd
        exact ⟨c, hc, ht, List.mem_singleton.1 hd⟩
      | some m =>
        rw [expandElement_known hc ht] at hd
        cases hd
    · rw [expandElement_still t hn] at hd
      cases hd
  · rintro ⟨c, hc, ht, rfl⟩
    rw [expandElement_undefined hc ht]
    exact List.mem_singleton_self _

theorem mem_tooDeepAt :
    d ∈ tooDeepAt t limit e ↔
      ∃ c, Awaits e c ∧ (t.find? c.name).isSome ∧ d = ⟨.nestedTooDeep c.name limit, e.loc⟩ := by
  unfold tooDeepAt reportDeep Awaits
  cases e.stmt with
  | call c =>
    dsimp only
    split
    · rename_i h
      rw [Bool.and_eq_true] at h
      constructor
      · intro hd
        exact ⟨c, ⟨rfl, h.1⟩, h.2, List.mem_singleton.1 hd⟩
      · rintro ⟨c', ⟨hc, -⟩, -, rfl⟩
        cases hc
        exact List.mem_singleton_self _
    · rename_i h
      constructor
      · intro hd
        cases hd
      · rintro ⟨c', ⟨hc, hp⟩, hs, -⟩
        cases hc
        rw [hp, hs] at h
        exact (h rfl).elim
  | _ => simp

/-- Calls that were reported are calls of undefined macros, and what was reported of undefined
macros are their calls. -/
structure Accounted (t : MacroTable) (es : List Element) (ds : List Diagnostic) : Prop where
  reported : ∀ e ∈ es, ∀ c, e.stmt = .call c → c.reported = true →
    t.find? c.name = none ∧ ⟨.undefinedMacro c.name, e.loc⟩ ∈ ds
  backed : ∀ q loc, ⟨.undefinedMacro q, loc⟩ ∈ ds →
    t.find? q = none ∧ (q, loc) ∈ es.filterMap Program.openCall?

theorem reported_of_pending {c : MacroCall} (h : c.isPending = true) : c.reported = false := by
  rw [MacroCall.isPending, Bool.and_eq_true, Bool.not_eq_true', Bool.not_eq_true'] at h
  exact h.2

theorem expanded_of_pending {c : MacroCall} (h : c.isPending = true) : c.expanded = false := by
  rw [MacroCall.isPending, Bool.and_eq_true, Bool.not_eq_true', Bool.not_eq_true'] at h
  exact h.1

theorem Accounted.initial {es : List Element}
    (h : ∀ e ∈ es, ∀ c, e.stmt = .call c → c.isPending = true) (t : MacroTable) :
    Accounted t es [] := by
  refine ⟨fun e he c hc hr => ?_, fun q loc hd => nomatch hd⟩
  rw [reported_of_pending (h e he c hc)] at hr
  cases hr

theorem openCall_copies {loc : Location} (ht : t.find? q = none)
    (h : Program.openCall? e = some (q, loc)) :
    (q, loc) ∈ (copies t e).filterMap Program.openCall? := by
  rw [List.mem_filterMap]
  unfold copies
  rcases not_pending_cases e with ⟨c, hc⟩ | hn
  · obtain ⟨c', hc', hx, rfl, rfl⟩ := Program.openCall?_eq_some.1 h
    cases hc.1.symm.trans hc'
    rw [expandElement_undefined hc ht]
    exact ⟨_, List.mem_singleton_self _, Program.openCall?_eq_some.2 ⟨_, rfl, hx, rfl, rfl⟩⟩
  · rw [expandElement_still t hn]
    exact ⟨e, List.mem_singleton_self _, h⟩

theorem Accounted.undefined_iff {loc : Location} (h : Accounted t es ds) :
    ⟨.undefinedMacro q, loc⟩ ∈ ds ++ es.flatMap (undefinedAt t) ↔
      t.find? q = none ∧ (q, loc) ∈ es.filterMap Program.openCall? := by
  constructor
  · intro hd
    rcases List.mem_append.1 hd with hd | hd
    · exact h.backed q loc hd
    · obtain ⟨e, he, hd⟩ := List.mem_flatMap.1 hd
      obtain ⟨c, hc, ht, hd⟩ := mem_undefinedAt.1 hd
      cases hd
      exact ⟨ht, List.mem_filterMap.2 ⟨e, he,
        Program.openCall?_eq_some.2 ⟨c, hc.1, expanded_of_pending hc.2, rfl, rfl⟩⟩⟩
  · rintro ⟨ht, hmem⟩
    obtain ⟨e, he, hcall⟩ := List.mem_filterMap.1 hmem
    obtain ⟨c, hc, hx, rfl, rfl⟩ := Program.openCall?_eq_some.1 hcall
    cases hr : c.reported with
    | true => exact List.mem_append_left _ (h.reported e he c hc hr).2
    | false =>
      have hp : c.isPending = true := by rw [MacroCall.isPending, hx, hr]; rfl
      exact List.mem_append_right _
        (List.mem_flatMap.2 ⟨e, he, mem_undefinedAt.2 ⟨c, ⟨hc, hp⟩, ht, rfl⟩⟩)

theorem Accounted.pass (h : Accounted t es ds)
    (hbody : ∀ m ∈ t, ∀ e ∈ m.body, ∀ c, e.stmt = .call c → c.isPending = true) :
    Accounted t (es.flatMap (copies t)) (ds ++ es.flatMap (undefinedAt t)) := by
  constructor
  · intro e' he' c' hc' hr
    obtain ⟨e, he, hcopy⟩ := List.mem_flatMap.1 he'
    rcases mem_copies hcopy with ⟨rfl, -⟩ | ⟨c, hc, ht, rfl⟩ | ⟨c, m, hc, hm, rfl | hb | rfl⟩
    · obtain ⟨ht, hd⟩ := h.reported e' he c' hc' hr
      exact ⟨ht, List.mem_append_left _ hd⟩
    · cases hc'
      refine ⟨ht, List.mem_append_right _ (List.mem_flatMap.2 ⟨e, he, ?_⟩)⟩
      exact mem_undefinedAt.2 ⟨c, hc, ht, rfl⟩
    · cases hc'
      rw [show c.reported = false from reported_of_pending hc.2] at hr
      cases hr
    · rw [reported_of_pending (hbody m (mem_of_find? hm) e' hb c' hc')] at hr
      cases hr
    · cases hc'
  · intro q loc hd
    obtain ⟨ht, hmem⟩ := h.undefined_iff.1 hd
    obtain ⟨e, he, hcall⟩ := List.mem_filterMap.1 hmem
    refine ⟨ht, ?_⟩
    rw [List.filterMap_flatMap]
    exact List.mem_flatMap.2 ⟨e, he, openCall_copies ht hcall⟩

theorem Accounted.rounds {es : List Element} (h : Accounted t (Program.outside es) [])
    (ht : Plain t)
    (hbody : ∀ m ∈ t, ∀ e ∈ m.body, ∀ c, e.stmt = .call c → c.isPending = true) (n : Nat) :
    Accounted t (Program.outside (rounds t n es)) (reports t n es) := by
  induction n with
  | zero => exact h
  | succ n ih =>
    rw [rounds_succ, reports_succ, outside_expand ht, expand_snd ht]
    exact ih.pass hbody

theorem Accounted.tooDeep {loc : Location} (h : Accounted t es ds) (ht : (t.find? q).isSome)
    (hmem : (q, loc) ∈ es.filterMap Program.openCall?) (limit : Nat) :
    ⟨.nestedTooDeep q limit, loc⟩ ∈ es.flatMap (tooDeepAt t limit) := by
  obtain ⟨e, he, hcall⟩ := List.mem_filterMap.1 hmem
  obtain ⟨c, hc, hx, rfl, rfl⟩ := Program.openCall?_eq_some.1 hcall
  cases hr : c.reported with
  | true =>
    rw [(h.reported e he c hc hr).1] at ht
    cases ht
  | false =>
    have hp : c.isPending = true := by rw [MacroCall.isPending, hx, hr]; rfl
    exact List.mem_flatMap.2 ⟨e, he, mem_tooDeepAt.2 ⟨c, ⟨hc, hp⟩, ht, rfl⟩⟩

theorem openCall?_deepMarked (t : MacroTable) (limit : Nat) (e : Element) :
    Program.openCall? (deepMarked t limit e) = Program.openCall? e := by
  rcases deepMarked_cases t limit e with hd | ⟨c, hc, hd⟩
  · rw [hd]
  · rw [hd, Program.openCall?, Program.openCall?, hc]

theorem openCalls_expandAll (ht : Plain t) (limit : Nat) (es : List Element) :
    Program.openCalls (expandAll t limit es).1 = Program.openCalls (rounds t limit es) := by
  rw [Program.openCalls, expandAll, (expandPasses_eq ht limit limit es []).1, List.filterMap_map]
  congr 1
  funext e
  exact openCall?_deepMarked t limit e

theorem problem_of_mem_reports (ht : Plain t) (hd : d ∈ reports t n es) :
    ∃ q, d.problem = .undefinedMacro q := by
  induction n with
  | zero => cases hd
  | succ n ih =>
    rw [reports_succ, expand_snd ht] at hd
    rcases List.mem_append.1 hd with hd | hd
    · exact ih hd
    · obtain ⟨e, -, hd⟩ := List.mem_flatMap.1 hd
      obtain ⟨c, -, -, rfl⟩ := mem_undefinedAt.1 hd
      exact ⟨c.name, rfl⟩

theorem mem_expandAll (ht : Plain t) (limit : Nat) (es : List Element) :
    d ∈ (expandAll t limit es).2 ↔
      d ∈ reports t limit es ∨
        d ∈ (Program.outside (rounds t limit es)).flatMap (tooDeepAt t limit) := by
  rw [expandAll, (expandPasses_eq ht limit limit es []).2, List.nil_append, List.mem_append]

theorem undefined_mem_expandAll {loc : Location} (ht : Plain t)
    (h : Accounted t (Program.outside (rounds t n es)) (reports t n es)) :
    ⟨.undefinedMacro q, loc⟩ ∈ (expandAll t (n + 1) es).2 ↔
      t.find? q = none ∧ (q, loc) ∈ Program.openCalls (rounds t n es) := by
  rw [mem_expandAll ht, reports_succ, expand_snd ht, h.undefined_iff, or_iff_left]
  · rfl
  · intro hd
    obtain ⟨e, -, hd⟩ := List.mem_flatMap.1 hd
    obtain ⟨c, -, -, hd⟩ := mem_tooDeepAt.1 hd
    cases hd

theorem known_of_tooDeep_mem {loc : Location} (ht : Plain t)
    (hd : ⟨.nestedTooDeep q k, loc⟩ ∈ (expandAll t limit es).2) : (t.find? q).isSome := by
  rcases (mem_expandAll ht limit es).1 hd with hd | hd
  · obtain ⟨q', hq⟩ := problem_of_mem_reports ht hd
    cases hq
  · obtain ⟨e, -, hd⟩ := List.mem_flatMap.1 hd
    obtain ⟨c, -, hs, hd⟩ := mem_tooDeepAt.1 hd
    cases hd
    exact hs

/-- Every call that is left is reported exactly if none of an undefined macro is new in the last
pass. -/
theorem left_reported_iff (ht : Plain t) (h : Accounted t (Program.outside es) [])
    (hbody : ∀ m ∈ t, ∀ e ∈ m.body, ∀ c, e.stmt = .call c → c.isPending = true) (n : Nat) :
    (∀ q loc, (q, loc) ∈ Program.openCalls (expandAll t (n + 1) es).1 →
        ⟨.undefinedMacro q, loc⟩ ∈ (expandAll t (n + 1) es).2 ∨
          ⟨.nestedTooDeep q (n + 1), loc⟩ ∈ (expandAll t (n + 1) es).2) ↔
      ∀ q loc, (q, loc) ∈ Program.openCalls (rounds t (n + 1) es) → t.find? q = none →
        (q, loc) ∈ Program.openCalls (rounds t n es) := by
  have hacc := h.rounds ht hbody
  rw [openCalls_expandAll ht]
  constructor
  · intro hleft q loc hmem hnone
    rcases hleft q loc hmem with hd | hd
    · exact ((undefined_mem_expandAll ht (hacc n)).1 hd).2
    · have hs := known_of_tooDeep_mem ht hd
      rw [hnone] at hs
      cases hs
  · intro hright q loc hmem
    cases hq : t.find? q with
    | none => exact .inl ((undefined_mem_expandAll ht (hacc n)).2 ⟨hq, hright q loc hmem hq⟩)
    | some m =>
      have hdeep := (hacc (n + 1)).tooDeep (hq ▸ rfl) hmem (n + 1)
      exact .inr ((mem_expandAll ht (n + 1) es).2 (.inr hdeep))

theorem Extraction.finish_adds (s : Extraction) (o : Opened) :
    Adds s.diagnostics (s.finish o).diagnostics := by
  unfold Extraction.finish
  dsimp only
  split
  · exact .refl _
  · split
    · exact .report _ rfl _
    · exact .refl _

theorem Extraction.step_adds (s : Extraction) (e : Element) :
    Adds s.diagnostics (s.step e).diagnostics := by
  unfold Extraction.step
  split
  · exact .refl _
  · exact .report _ rfl _
  · exact .report _ rfl _
  · split
    · exact s.finish_adds _
    · exact .refl _
  · exact .refl _
  · exact .refl _

theorem extract_adds (es : List Element) : Adds [] (extract es).2 := by
  have hfold (s : Extraction) : Adds s.diagnostics (es.foldl Extraction.step s).diagnostics := by
    induction es generalizing s with
    | nil => exact .refl _
    | cons e es ih => exact (s.step_adds e).trans (ih _)
  unfold extract
  dsimp only
  split
  · exact (hfold {}).trans (.report _ rfl _)
  · exact hfold {}

end Macro

theorem Declarations.collect_adds (es : List Element) : Adds [] (collect es).diagnostics := by
  have hstate : (Program.update State.step {} es).2 =
      (Program.thread State.step {} (Program.outside es)).2 :=
    Program.update_snd State.step_inert {} es
  have hfinish := (Program.update State.step {} es).2.finish_reports
  rw [hstate] at hfinish
  have hthread := (thread_progress {} (Program.outside es)).reports.trans hfinish
  rw [← hstate] at hthread
  exact hthread

theorem Layout.assign_adds (es : List Element) (t : SymbolTable) :
    Adds [] (assign es t).diagnostics := by
  rw [assign_diagnostics]
  exact State.thread_reports { table := t } (Program.outside es)

theorem SymbolTable.evaluate_adds (t : SymbolTable) : Adds [] t.evaluate.2 :=
  foldl_evaluateSymbol_diagnostics t.names (⟨t, []⟩, [])

theorem Patch.patch_adds (es : List Element) (t : SymbolTable) :
    Adds [] (patch es t).diagnostics := by
  rw [patch_diagnostics]
  exact State.thread_reports { memo := ⟨t, []⟩ } (Program.outside es)

theorem Image.write_adds (base : Int64) (image : Image) (placed : Location × Template) :
    Adds image.diagnostics (write base image placed).diagnostics := by
  unfold write
  dsimp only
  split
  · exact .refl _
  · split
    · exact .report _ rfl _
    · split <;> exact .refl _

theorem Image.assemble_adds (es : List Element) : Adds [] (assemble es).diagnostics := by
  have hfold (placed : List (Location × Template)) (image : Image) :
      Adds image.diagnostics (placed.foldl (write (origin es)) image).diagnostics := by
    induction placed generalizing image with
    | nil => exact .refl _
    | cons p placed ih => exact (image.write_adds (origin es) p).trans (ih _)
  exact hfold (Program.templates es) {}

namespace Assembly

theorem mem_diagnostics_iff (es : List Element) (passes : Int) (hd : d.problem.aboutCall = true) :
    d ∈ (assemble es passes).diagnostics ↔
      d ∈ (Macro.expandAll (Macro.extract es).1 (passLimit passes) es).2 := by
  have hnot {ds : List Diagnostic} (h : Adds [] ds) : d ∉ ds := by
    intro hmem
    rw [h.not_aboutCall d hmem] at hd
    cases hd
  simp only [assemble, List.mem_append]
  rw [or_iff_left (hnot (Image.assemble_adds _)), or_iff_left (hnot (Patch.patch_adds _ _)),
    or_iff_left (hnot (SymbolTable.evaluate_adds _)), or_iff_left (hnot (Layout.assign_adds _ _)),
    or_iff_left (hnot (Declarations.collect_adds _)), or_iff_right (hnot (Macro.extract_adds es))]

theorem openCalls_assemble (es : List Element) (passes : Int) :
    Program.openCalls (assemble es passes).program =
      Program.openCalls (Macro.expandAll (Macro.extract es).1 (passLimit passes) es).1 := by
  simp only [assemble]
  rw [Patch.openCalls_patch, Layout.openCalls_assign, Declarations.openCalls_collect]

theorem passLimit_pos (passes : Int) : 0 < passLimit passes := by
  unfold passLimit
  split
  · decide
  · omega

/-- The call of the element is expanded, or reported as undefined or as nested too deep. -/
def CallSettled (a : Assembly) (limit : Nat) (e : Element) : Prop :=
  ∀ c, e.stmt = .call c → c.expanded = true ∨
    ∃ d ∈ a.diagnostics, d.category = .structural ∧ d.loc = e.loc ∧
      (d.problem = .undefinedMacro c.name ∨ d.problem = .nestedTooDeep c.name limit)

theorem callSettled_iff (a : Assembly) (limit : Nat) :
    (∀ e ∈ Program.outside a.program, a.CallSettled limit e) ↔
      ∀ q loc, (q, loc) ∈ Program.openCalls a.program →
        ⟨.undefinedMacro q, loc⟩ ∈ a.diagnostics ∨
          ⟨.nestedTooDeep q limit, loc⟩ ∈ a.diagnostics := by
  constructor
  · intro h q loc hmem
    obtain ⟨e, he, c, hc, hx, rfl, rfl⟩ := Program.mem_openCalls.1 hmem
    rcases h e he c hc with hx' | ⟨⟨p, loc⟩, hd, -, rfl, rfl | rfl⟩
    · rw [hx] at hx'
      cases hx'
    · exact .inl hd
    · exact .inr hd
  · intro h e he c hc
    cases hx : c.expanded with
    | true => exact .inl rfl
    | false =>
      rcases h c.name e.loc (Program.mem_openCalls.2 ⟨e, he, c, hc, hx, rfl, rfl⟩) with hd | hd
      · exact .inr ⟨_, hd, rfl, rfl, .inl rfl⟩
      · exact .inr ⟨_, hd, rfl, rfl, .inr rfl⟩

/-- Every call outside of macro definitions is expanded or reported, exactly if every call of an
undefined macro that is there after the last pass was there before it. -/
theorem calls_settled_iff (es : List Element) (passes : Int)
    (hes : ∀ e ∈ es, ∀ c, e.stmt = .call c → c.isPending = true) :
    let a := assemble es passes
    (∀ e ∈ Program.outside a.program, a.CallSettled (passLimit passes) e) ↔
      ∀ q loc, (q, loc) ∈ Program.openCalls (Macro.rounds a.macros (passLimit passes) es) →
        a.macros.find? q = none →
        (q, loc) ∈ Program.openCalls (Macro.rounds a.macros (passLimit passes - 1) es) := by
  intro a
  obtain ⟨n, hn⟩ := Nat.exists_eq_add_one_of_ne_zero (Nat.ne_of_gt (passLimit_pos passes))
  have hacc : Macro.Accounted (Macro.extract es).1 (Program.outside es) [] :=
    .initial (fun e he => hes e (Program.mem_of_mem_outside he)) _
  have hleft := Macro.left_reported_iff (Macro.plain_extract es) hacc
    (fun m hm e he => hes e (Macro.mem_of_mem_body hm he).1) n
  have hundefined (q : String) (loc : Location) :=
    mem_diagnostics_iff es passes (d := ⟨.undefinedMacro q, loc⟩) rfl
  have hdeep (q : String) (loc : Location) :=
    mem_diagnostics_iff es passes (d := ⟨.nestedTooDeep q (passLimit passes), loc⟩) rfl
  rw [callSettled_iff, openCalls_assemble]
  simp only [a, hundefined, hdeep]
  rw [hn]
  exact hleft

/-- A macro whose body calls one that is not defined, and a call of it. -/
def strayCall : List Element :=
  [⟨⟨"f", 1⟩, .macroDef "m" []⟩, ⟨⟨"f", 2⟩, .call { name := "nope", args := [] }⟩,
    ⟨⟨"f", 3⟩, .endMacro⟩, ⟨⟨"f", 4⟩, .call { name := "m", args := [] }⟩]

theorem strayCall_pending : ∀ e ∈ strayCall, ∀ c, e.stmt = .call c → c.isPending = true := by
  intro e he c hc
  simp only [strayCall, List.mem_cons, List.not_mem_nil, or_false] at he
  rcases he with rfl | rfl | rfl | rfl
  · cases hc
  · cases hc
    rfl
  · cases hc
  · cases hc
    rfl

/-- Two passes are enough to see the call that is not defined. -/
theorem calls_settled_strayCall :
    (∀ e ∈ strayCall, ∀ c, e.stmt = .call c → c.isPending = true) ∧
      ∀ e ∈ Program.outside (assemble strayCall 2).program,
        (assemble strayCall 2).CallSettled (passLimit 2) e := by
  refine ⟨strayCall_pending, (calls_settled_iff strayCall 2 strayCall_pending).2 ?_⟩
  intro q loc hmem _
  have hsame : Program.openCalls (Macro.rounds (assemble strayCall 2).macros (passLimit 2)
      strayCall) =
      Program.openCalls (Macro.rounds (assemble strayCall 2).macros (passLimit 2 - 1)
        strayCall) := by
    cbv
  rw [← hsame]
  exact hmem

/-- After a single pass it is neither expanded nor reported. -/
theorem strayCall_dropped :
    (∀ e ∈ strayCall, ∀ c, e.stmt = .call c → c.isPending = true) ∧
      (assemble strayCall 1).diagnostics = [] ∧
      ¬ ∀ e ∈ Program.outside (assemble strayCall 1).program,
        (assemble strayCall 1).CallSettled (passLimit 1) e := by
  have hquiet : (assemble strayCall 1).diagnostics = [] := by cbv
  refine ⟨strayCall_pending, hquiet, fun h => ?_⟩
  have hleft : ("nope", ⟨"f", 2⟩) ∈ Program.openCalls (assemble strayCall 1).program := by
    have hopen : Program.openCalls (assemble strayCall 1).program = [("nope", ⟨"f", 2⟩)] := by cbv
    rw [hopen]
    exact List.mem_singleton_self _
  rcases (callSettled_iff _ _).1 h _ _ hleft with hd | hd <;>
    · rw [hquiet] at hd
      cases hd

end Assembly
end Z80Asm
